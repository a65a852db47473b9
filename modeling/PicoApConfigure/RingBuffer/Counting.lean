import PicoApConfigure.RingBuffer.Rotation
import PicoApConfigure.RingBuffer.Search

/-!
# Counting records by reading them

Reads for one id, one after the other until one fails, count the live records of that id when every
read takes up one of them.
-/

namespace PicoApConfigure.RingBuffer

open Nor

/-- A live record of `id` starts with `mark`. -/
def StartsRecord (id : Byte) (mark : Mark) (rest : List Mark) : Prop :=
  Wanted id mark.fragment ∧ mark.fragment.split = false ∧
    ((continuation mark rest).map Fragment.live).getD true = true

instance (id : Byte) (mark : Mark) (rest : List Mark) : Decidable (StartsRecord id mark rest) :=
  inferInstanceAs (Decidable (_ ∧ _ ∧ _))

/-- The number of live records of `id` on a tape. -/
def liveRecords (id : Byte) : List Mark → Nat
  | [] => 0
  | mark :: rest => (if StartsRecord id mark rest then 1 else 0) + liveRecords id rest

/-- The bytes of the live records of `id` on a tape. -/
def liveBytes (id : Byte) : List Mark → List (List Byte)
  | [] => []
  | mark :: rest =>
      (if StartsRecord id mark rest then [recordBytes mark rest] else []) ++ liveBytes id rest

/-- Every live fragment of `id` starts a live record or is read together with its first piece: no
piece is deleted alone or left behind alone, and no first piece fills a buffer of `size` bytes. -/
inductive CountsOnce (id : Byte) (size : Nat) : List Mark → Prop
  | nil : CountsOnce id size []
  | other {mark : Mark} {rest : List Mark} (skipped : ¬Wanted id mark.fragment)
      (later : CountsOnce id size rest) : CountsOnce id size (mark :: rest)
  | single {mark : Mark} {rest : List Mark} (wanted : Wanted id mark.fragment)
      (starts : mark.fragment.split = false) (alone : continuation mark rest = none)
      (later : CountsOnce id size rest) : CountsOnce id size (mark :: rest)
  | pair {head tail : Mark} {rest : List Mark} (wanted : Wanted id head.fragment)
      (starts : head.fragment.split = false) (closes : head.closes = true)
      (wantedTail : Wanted id tail.fragment) (split : tail.fragment.split = true)
      (unfilled : head.fragment.payload.length < size) (alone : continuation tail rest = none)
      (later : CountsOnce id size rest) : CountsOnce id size (head :: tail :: rest)

/-- All live fragments of `id` are records in one sector of the log, and none of them ends it. -/
def OneSector (id : Byte) (log : List Sector) : Prop :=
  ∃ older sector newer, log = older ++ sector :: newer ∧
    (∀ other ∈ older ++ newer, ∀ fragment ∈ other.frags, ¬Wanted id fragment) ∧
    ∀ before head after, sector.frags = before ++ head :: after → Wanted id head →
      head.split = false ∧ 4 + fragsSize before + head.size ≤ 4091

section Tapes

variable {id : Byte} {size : Nat} {mark : Mark} {rest chain : List Mark}

/-- A read of a fragment that has no continuation. -/
theorem readTape_single (wanted : Wanted id mark.fragment) (alone : continuation mark rest = none) :
    readTape id size (mark :: rest) = (.got (mark.fragment.payload.take size), rest) := by
  have last : ¬(mark.closes = true ∧ continues id rest = true ∧
      mark.fragment.payload.length < size) := by
    rintro ⟨closes, more, -⟩
    cases rest with
    | nil => cases more
    | cons following rest =>
        have both : following.fragment.id = id ∧ following.fragment.split = true := by
          simpa [continues] using more
        rw [continuation, if_pos ⟨closes, both.1.trans wanted.1.symm, both.2⟩] at alone
        cases alone
  rw [readTape, if_pos wanted, if_neg last]

@[simp] theorem liveBytes_length (id : Byte) (chain : List Mark) :
    (liveBytes id chain).length = liveRecords id chain := by
  induction chain with
  | nil => rfl
  | cons mark rest ih =>
      rw [liveBytes, liveRecords, List.length_append, ih]
      split <;> rfl

/-- The reads along such a tape get its live records, as far as they fit the buffer. -/
theorem CountsOnce.tapeReads (positive : 0 < size) (once : CountsOnce id size chain) :
    TapeReads id size chain ((liveBytes id chain).map (List.take size)) := by
  induction once with
  | nil => exact .done rfl
  | @other mark rest skipped _ ih =>
      rw [liveBytes, if_neg fun starts => skipped starts.1]
      exact ih.skip skipped
  | @single mark rest wanted starts alone _ ih =>
      have bytes : recordBytes mark rest = mark.fragment.payload := by
        rw [recordBytes, alone]
        exact List.append_nil _
      rw [liveBytes, if_pos ⟨wanted, starts, by rw [alone]; rfl⟩, bytes]
      exact .next (readTape_single wanted alone) (mark.fragment.take_pos positive) ih
  | @pair head tail rest wanted starts closes wantedTail split unfilled alone _ ih =>
      have sameId : tail.fragment.id = head.fragment.id := wantedTail.1.trans wanted.1.symm
      have more : continuation head (tail :: rest) = some tail.fragment :=
        if_pos ⟨closes, sameId, split⟩
      have both : readTape id size (head :: tail :: rest) = (.got (head.fragment.payload ++
          tail.fragment.payload.take (size - head.fragment.payload.length)), rest) := by
        have goesOn : continues id (tail :: rest) = true := by
          simp [continues, wantedTail.1, split]
        rw [readTape, if_pos wanted, if_pos ⟨closes, goesOn, unfilled⟩,
          readTape_single wantedTail alone]
        rfl
      have taken : 0 < (head.fragment.payload ++
          tail.fragment.payload.take (size - head.fragment.payload.length)).length := by
        have := head.fragment.payload_pos
        rw [List.length_append]
        omega
      have notFirst : ¬StartsRecord id tail rest := fun first => by
        have unsplit := first.2.1
        rw [split] at unsplit
        cases unsplit
      have bytes : (recordBytes head (tail :: rest)).take size = head.fragment.payload ++
          tail.fragment.payload.take (size - head.fragment.payload.length) := by
        rw [recordBytes, more]
        exact List.take_append.trans (by rw [List.take_of_length_le (Nat.le_of_lt unfilled)]; rfl)
      rw [liveBytes, if_pos ⟨wanted, starts, by rw [more]; exact wantedTail.2⟩, liveBytes,
        if_neg notFirst, List.nil_append, List.singleton_append, List.map_cons, bytes]
      exact .next both taken ih

/-- Where every live fragment is a record inside a sector, their payloads are the records. -/
theorem liveBytes_eq_filter (inside : ∀ mark ∈ chain, Wanted id mark.fragment →
    mark.fragment.split = false ∧ mark.closes = false) :
    liveBytes id chain = ((chain.map Mark.fragment).filter fun fragment =>
      Wanted id fragment).map Fragment.payload := by
  induction chain with
  | nil => rfl
  | cons mark rest ih =>
      have alone : mark.closes = false → continuation mark rest = none := by
        intro closes
        cases rest with
        | nil => rfl
        | cons following rest => exact if_neg fun all => by rw [closes] at all; cases all.1
      rw [liveBytes, ih fun other member => inside other (List.mem_cons_of_mem _ member),
        List.map_cons]
      by_cases wanted : Wanted id mark.fragment
      · obtain ⟨starts, closes⟩ := inside mark List.mem_cons_self wanted
        rw [if_pos ⟨wanted, starts, by rw [alone closes]; rfl⟩, List.filter_cons,
          if_pos (decide_eq_true wanted), recordBytes, alone closes]
        simp
      · rw [if_neg fun starts => wanted starts.1, List.filter_cons,
          if_neg fun found => wanted (of_decide_eq_true found)]
        rfl

theorem marks_fragments (offset : Nat) (frags : List Fragment) :
    (marks offset frags).map Mark.fragment = frags := by
  induction frags generalizing offset with
  | nil => rfl
  | cons fragment frags ih => rw [marks, List.map_cons, ih]

/-- Where a mark of a sector comes from. -/
theorem mem_marks {offset : Nat} {frags : List Fragment} (member : mark ∈ marks offset frags) :
    ∃ before after, frags = before ++ mark.fragment :: after ∧
      mark.closes = decide (4091 < offset + fragsSize before + mark.fragment.size) := by
  induction frags generalizing offset with
  | nil => cases member
  | cons fragment frags ih =>
      rcases List.mem_cons.mp member with rfl | member
      · exact ⟨[], frags, rfl, rfl⟩
      · obtain ⟨before, after, rfl, closes⟩ := ih member
        refine ⟨fragment :: before, after, rfl, ?_⟩
        rw [closes, fragsSize_cons, Nat.add_assoc offset]

theorem tape_fragments (log : List Sector) :
    (tape log).map Mark.fragment = log.flatMap Sector.frags := by
  induction log with
  | nil => rfl
  | cons sector log ih =>
      rw [tape_cons, List.map_append, marks_fragments, ih, List.flatMap_cons]

/-- The records are those of the one sector. -/
theorem OneSector.bytes {older newer : List Sector} {sector : Sector}
    (others : ∀ other ∈ older ++ newer, ∀ fragment ∈ other.frags, ¬Wanted id fragment)
    (inside : ∀ before head after, sector.frags = before ++ head :: after → Wanted id head →
      head.split = false ∧ 4 + fragsSize before + head.size ≤ 4091) :
    liveBytes id (tape (older ++ sector :: newer)) =
      (sector.frags.filter fun fragment => Wanted id fragment).map Fragment.payload := by
  have none : ∀ log : List Sector, (∀ other ∈ log, other ∈ older ++ newer) →
      (log.flatMap Sector.frags).filter (fun fragment => Wanted id fragment) = [] := by
    intro log part
    refine List.filter_eq_nil_iff.mpr fun fragment member => ?_
    obtain ⟨other, otherMember, fragmentMember⟩ := List.mem_flatMap.mp member
    exact fun wanted => others other (part other otherMember) fragment fragmentMember
      (of_decide_eq_true wanted)
  rw [liveBytes_eq_filter, tape_fragments, List.flatMap_append, List.filter_append,
    List.flatMap_cons, List.filter_append, none older fun other member => by simp [member],
    none newer fun other member => by simp [member], List.nil_append, List.append_nil]
  intro mark member wanted
  rw [tape, List.mem_flatMap] at member
  obtain ⟨home, homeMember, member⟩ := member
  obtain ⟨before, after, frags, closes⟩ := mem_marks member
  have here : home = sector := by
    rcases List.mem_append.mp homeMember with old | rest
    · exact absurd wanted (others home (by simp [old]) _ (by rw [frags]; simp))
    · rcases List.mem_cons.mp rest with rfl | new
      · rfl
      · exact absurd wanted (others home (by simp [new]) _ (by rw [frags]; simp))
  obtain ⟨starts, room⟩ := inside before mark.fragment after (here ▸ frags) wanted
  exact ⟨starts, by rw [closes]; exact decide_eq_false (by omega)⟩

end Tapes

/-! ## Rings without blank header -/

section Around

variable {ring : Geometry} {memory : Memory} {cells : Nat → Option Sector} {rb : RbT} {id : Byte}
  {size next final home k : Nat} {sector : Sector} {before after : List Fragment}
  {log : List Sector} {start : Nat}

/-- A walk comes nearer to its end. -/
theorem Skips.distance_le {skip : Fragment → Prop} (homeInRing : home < ring.sectors)
    (skips : Skips ring cells skip (4096 * home) next final) :
    ring.distance final (4096 * home) ≤ ring.distance next (4096 * home) := by
  induction skips with
  | refl => exact Nat.le_refl _
  | @step k next final sector before after fragment inRing cell frags stands _ away _ ih =>
      have bound := fragment_offset frags
      have positive := fragment.size_pos
      exact Nat.le_trans ih (Nat.le_of_lt (ring.distance_resume inRing homeInRing stands (by omega)
        (by omega) away))

/-- A read finds nothing when no fragment up to the start of its sector is wanted. -/
theorem Reads.around (ending : Nat → RbError) (full : AllFull ring cells)
    (inRing : k < ring.sectors)
    (cell : cells k = some sector) (frags : sector.frags = before ++ after)
    (stands : StandsAt k (4 + fragsSize before) next) (cursor : Cursor ring cells next)
    (rest : ∀ fragment ∈ after, ¬Wanted id fragment)
    (others : ∀ j < ring.sectors, j ≠ k → ∀ other, cells j = some other →
      ∀ fragment ∈ other.frags, ¬Wanted id fragment) :
    Reads ring cells ending id k next size (.stopped .hdrIdNotFound) (4096 * k) := by
  obtain ⟨final, skips, walkEnd⟩ := Skips.exists_end (fun fragment => ¬Wanted id fragment) inRing
    (fun _ => inferInstance) cursor
  cases walkEnd with
  | erased inRing cell =>
      have closed := full _ inRing
      rw [cell] at closed
      cases closed
  | ended inRing cell room _ =>
      have closed := full _ inRing
      rw [cell, cellFull, room] at closed
      cases closed
  | lost inRing' cell' frags' stands' skipped back =>
      exact .lost skips inRing' cell' frags' stands' skipped back
  | @found j _ other passed later fragment inRing' cell' frags' stands' found =>
      exfalso
      have wanted := not_not.mp found
      by_cases elsewhere : j ≠ k
      · exact others j inRing' elsewhere other cell' fragment (by rw [frags']; simp) wanted
      obtain rfl : j = k := not_not.mp elsewhere
      rw [cell, Option.some.injEq] at cell'
      subst cell'
      have bound := fragment_offset frags'
      have positive := fragment.size_pos
      -- the walk went on in the sector, so the fragment is one of the rest
      have nearer := skips.distance_le inRing
      have further : fragsSize before ≤ fragsSize passed := by
        unfold Geometry.distance at nearer
        have cursorLt := cursor.lt
        rcases stands with rfl | ⟨first, rfl⟩
        · rcases stands' with rfl | ⟨first', rfl⟩
          · rw [if_neg (by omega), if_neg (by omega)] at nearer
            omega
          · rw [if_neg (by omega), if_neg (by omega)] at nearer
            omega
        · omega
      rcases List.append_eq_append_iff.mp (frags.symm.trans frags') with
        ⟨more, -, equal⟩ | ⟨more, split, equal⟩
      · exact rest fragment (by rw [equal]; simp) wanted
      · cases more with
        | nil =>
            rw [List.nil_append] at equal
            exact rest fragment (by rw [← equal]; simp) wanted
        | cons first more =>
            rw [split, fragsSize_append, fragsSize_cons] at further
            have := first.size_pos
            omega

theorem filter_wanted {run : List Fragment} {fragment : Fragment}
    (passed : ∀ fragment ∈ run, ¬Wanted id fragment) (wanted : Wanted id fragment) :
    (run ++ fragment :: after).filter (fun fragment => Wanted id fragment) =
      fragment :: after.filter (fun fragment => Wanted id fragment) := by
  have none : run.filter (fun fragment => Wanted id fragment) = [] :=
    List.filter_eq_nil_iff.mpr (by simpa using passed)
  rw [List.filter_append, none, List.nil_append, List.filter_cons, if_pos (decide_eq_true wanted)]

/-- A read gets the first wanted fragment of the sector it comes to, and the next read goes on
behind
it. -/
theorem readsBack_fragment (on : OnRing rb ring) (holds : RingHolds memory ring cells)
    (fits : ReadFits ring id size) (inRing : k < ring.sectors) (cell : cells k = some sector)
    {run : List Fragment} {fragment : Fragment}
    (frags : sector.frags = before ++ run ++ fragment :: after)
    (comes : Skips ring cells (fun fragment => ¬Wanted id fragment) (4096 * (rb.next / 4096))
      rb.next next)
    (stands : StandsAt k (4 + fragsSize before) next)
    (passed : ∀ fragment ∈ run, ¬Wanted id fragment) (wanted : Wanted id fragment)
    (room : 4 + fragsSize (before ++ run) + fragment.size ≤ 4091) {data : Memory}
    {found : List (List Byte)}
    (later : ReadsBack ring memory id size { rb with
      next := 4096 * k + (4 + fragsSize (before ++ run ++ [fragment])) }
      (store data 0 (fragment.payload.take size)) found) :
    ReadsBack ring memory id size rb data (fragment.payload.take size :: found) := by
  obtain ⟨reached, stands', within⟩ := @Skips.within ring cells _ k next (rb.next / 4096) _ before _
    _ _ inRing cell frags stands passed
  have reads : Reads ring cells (fun _ => .blankHdr) id (rb.next / 4096) rb.next size
      (.got (fragment.payload.take size))
      (4096 * k + (4 + fragsSize (before ++ run) + fragment.size)) :=
    .plain (comes.trans within) inRing cell frags stands' wanted room
  have read := rbRead_completes on holds.carries holds.endingsAre fits reads data
  have offset : 4 + fragsSize (before ++ run) + fragment.size =
      4 + fragsSize (before ++ run ++ [fragment]) := by
    rw [fragsSize_append (before ++ run), fragsSize_cons, fragsSize_nil]
    omega
  rw [offset, ReadResult.code_got, ReadResult.bytes_got] at read
  have slices : slice (store data 0 (fragment.payload.take size)) 0
      (fragment.payload.take size).length = fragment.payload.take size := holds_store data 0 _
  have all := ReadsBack.next (fragment.take_pos fits.1) read later
  rwa [slices] at all

/-- Reads get the wanted fragments of the rest of a sector when there are none elsewhere. -/
theorem readsBack_sector (holds : RingHolds memory ring cells) (full : AllFull ring cells)
    (fits : ReadFits ring id size) (inRing : k < ring.sectors) (cell : cells k = some sector)
    (inside : ∀ before head after, sector.frags = before ++ head :: after → Wanted id head →
      head.split = false ∧ 4 + fragsSize before + head.size ≤ 4091)
    (others : ∀ j < ring.sectors, j ≠ k → ∀ other, cells j = some other →
      ∀ fragment ∈ other.frags, ¬Wanted id fragment) :
    ∀ (after before : List Fragment) (rb : RbT) (data : Memory), sector.frags = before ++ after →
      OnRing rb ring → StandsAt k (4 + fragsSize before) rb.next → Cursor ring cells rb.next →
      rb.next / 4096 = k →
      ReadsBack ring memory id size rb data
        ((after.filter fun fragment => Wanted id fragment).map
          fun fragment => fragment.payload.take size) := by
  intro after
  induction length : after.length using Nat.strongRecOn generalizing after with
  | ind bound ih =>
      intro before rb data frags on stands cursor home
      cases first : after.find? fun fragment => Wanted id fragment with
      | none =>
          have none : ∀ fragment ∈ after, ¬Wanted id fragment := by
            simpa using List.find?_eq_none.mp first
          have reads := @Reads.around _ _ id size _ _ _ _ _ (fun _ => .blankHdr) full inRing cell
            frags stands cursor none others
          have read := rbRead_completes on holds.carries holds.endingsAre fits (by
            rw [home]
            exact reads) data
          rw [List.filter_eq_nil_iff.mpr (by simpa using none)]
          exact .done (by decide) read
      | some fragment =>
          obtain ⟨wanted, run, rest, rfl, passed⟩ := List.find?_eq_some_iff_append.mp first
          have wanted := of_decide_eq_true wanted
          have passed : ∀ fragment ∈ run, ¬Wanted id fragment := by simpa using passed
          have frags' : sector.frags = before ++ run ++ fragment :: rest := by
            rw [frags, List.append_assoc]
          obtain ⟨-, room⟩ := inside (before ++ run) fragment rest frags' wanted
          have behind := Cursor.behind inRing cell frags'
          have offset : 4 + fragsSize (before ++ run) + fragment.size =
              4 + fragsSize (before ++ run ++ [fragment]) := by
            rw [fragsSize_append (before ++ run), fragsSize_cons, fragsSize_nil]
            omega
          rw [ring.resume_of_le room, offset] at behind
          have later := ih rest.length (by
              rw [← length, List.length_append, List.length_cons]
              omega) rest rfl (before ++ run ++ [fragment]) { rb with
              next := 4096 * k + (4 + fragsSize (before ++ run ++ [fragment])) }
            (store data 0 (fragment.payload.take size))
            (by rw [frags', List.append_assoc, List.append_assoc (before ++ run),
              List.append_assoc, List.singleton_append])
            ⟨on.base_eq, on.bytes_eq⟩ (StandsAt.header _ _) behind (by simp only; omega)
          rw [filter_wanted passed wanted]
          exact readsBack_fragment on holds fits inRing cell frags' (.refl _) stands passed wanted
            room later

/-- From the start of the log reads get the records of the one sector. -/
theorem OneSector.readsBack (holds : RingHolds memory ring cells)
    (ordered : Ordered ring cells start log) (full : AllFull ring cells)
    (fits : ReadFits ring id size) (one : OneSector id log) (on : OnRing rb ring)
    (next : rb.next = 4096 * start) (data : Memory) :
    ReadsBack ring memory id size rb data ((liveBytes id (tape log)).map (List.take size)) := by
  obtain ⟨older, sector, newer, rfl, others, inside⟩ := one
  have length := ordered.length_le
  rw [List.length_append, List.length_cons] at length
  have start_lt := ordered.start_lt
  have inRing := @Geometry.ahead_lt ring start older.length start_lt (by omega)
  have cell := ordered.cell older.length (by omega)
  rw [List.getElem?_append_right (Nat.le_refl _), Nat.sub_self, List.getElem?_cons_zero] at cell
  have elsewhere : ∀ j < ring.sectors, j ≠ ring.ahead start older.length → ∀ other,
      cells j = some other → ∀ fragment ∈ other.frags, ¬Wanted id fragment := by
    intro j jInRing away other otherCell
    obtain ⟨distance, bound, rfl, entry⟩ := ordered.mem_of_cell jInRing otherCell
    have apart : distance ≠ older.length := fun same => away (by rw [same])
    refine others other (List.mem_append.mpr ?_)
    rcases Nat.lt_or_gt_of_ne apart with before | behind
    · rw [List.getElem?_append_left before] at entry
      exact .inl (List.mem_of_getElem? entry)
    · rw [List.getElem?_append_right (Nat.le_of_lt behind), show distance - older.length =
        distance - older.length - 1 + 1 by omega, List.getElem?_cons_succ] at entry
      exact .inr (List.mem_of_getElem? entry)
  have home : rb.next / 4096 = start := by omega
  rw [OneSector.bytes others inside, List.map_map]
  cases first : sector.frags.find? fun fragment => Wanted id fragment with
  | none =>
      have none : ∀ fragment ∈ sector.frags, ¬Wanted id fragment := by
        simpa using List.find?_eq_none.mp first
      have nowhere : ∀ j < ring.sectors, ∀ other, cells j = some other →
          ∀ fragment ∈ other.frags, ¬Wanted id fragment := by
        intro j jInRing other otherCell
        by_cases here : j = ring.ahead start older.length
        · rw [here, cell, Option.some.injEq] at otherCell
          exact otherCell ▸ none
        · exact elsewhere j jInRing here other otherCell
      obtain ⟨oldest, oldestCell, -⟩ := cellFull_iff.mp (full start start_lt)
      have reads := @Reads.around ring cells id size rb.next start oldest [] oldest.frags
        (fun _ => .blankHdr) full start_lt oldestCell rfl (next ▸ StandsAt.start start)
        (next ▸ Cursor.start start_lt) (nowhere start start_lt oldest oldestCell)
        fun j jInRing _ => nowhere j jInRing
      have read := rbRead_completes on holds.carries holds.endingsAre fits (by
        rw [home]
        exact reads) data
      rw [List.filter_eq_nil_iff.mpr (by simpa using none)]
      exact .done (by decide) read
  | some fragment =>
      obtain ⟨wanted, run, rest, frags, passed⟩ := List.find?_eq_some_iff_append.mp first
      have wanted := of_decide_eq_true wanted
      have passed : ∀ fragment ∈ run, ¬Wanted id fragment := by simpa using passed
      obtain ⟨-, room⟩ := inside run fragment rest frags wanted
      have comes : Skips ring cells (fun fragment => ¬Wanted id fragment)
          (4096 * (rb.next / 4096)) rb.next (4096 * ring.ahead start older.length) := by
        rw [home, next]
        refine Skips.sectors start_lt (by omega)
          (fun passed before => full _ (ring.ahead_lt start_lt (by omega))) ?_
        intro passed before other otherCell
        refine elsewhere _ (ring.ahead_lt start_lt (by omega)) (fun same => ?_) other otherCell
        have := ring.ahead_inj (by omega) (by omega) same
        omega
      have behind := Cursor.behind inRing cell frags
      have offset : 4 + fragsSize run + fragment.size = 4 + fragsSize (run ++ [fragment]) := by
        rw [fragsSize_append, fragsSize_cons, fragsSize_nil]
        omega
      rw [ring.resume_of_le room, offset] at behind
      have later := readsBack_sector holds full fits inRing cell inside elsewhere
        rest (run ++ [fragment]) { rb with
          next := 4096 * ring.ahead start older.length + (4 + fragsSize (run ++ [fragment])) }
        (store data 0 (fragment.payload.take size)) (by rw [frags, List.append_assoc]; rfl)
        ⟨on.base_eq, on.bytes_eq⟩ (StandsAt.header _ _) behind (by simp only; omega)
      rw [frags, filter_wanted passed wanted]
      exact @readsBack_fragment ring memory cells rb id size _ _ sector [] rest on holds fits inRing
        cell run fragment frags comes (StandsAt.start _) passed wanted room data _ later

/-- A log seen from sector 0. -/
theorem Ordered.inRingOrder (ordered : Ordered ring cells start log) :
    InRingOrder ring (fun k => log[k]?) log.length where
  count_le := ordered.length_le
  used k bound := by rw [List.getElem?_eq_getElem bound]; rfl
  blank k _ above := List.getElem?_eq_none above
  rises k bound older newer olderCell newerCell := by
    obtain ⟨_, rfl⟩ := List.getElem?_eq_some_iff.mp olderCell
    obtain ⟨_, rfl⟩ := List.getElem?_eq_some_iff.mp newerCell
    exact List.pairwise_iff_getElem.mp ordered.ascending _ _ _ _ (Nat.lt_succ_self k)

theorem Ordered.rotated (ordered : Ordered ring cells start log) :
    Rotated ring start (fun k => log[k]?) cells :=
  ⟨ordered.start_lt, ordered.cell⟩

end Around

end PicoApConfigure.RingBuffer
