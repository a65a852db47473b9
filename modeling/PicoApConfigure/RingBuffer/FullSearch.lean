import PicoApConfigure.RingBuffer.Search
import PicoApConfigure.RingBuffer.ShortRead
import PicoApConfigure.RingBuffer.Writers

/-!
# Searches in a ring without blank header

A search stops at a blank header.  Where the ring has none, it stops at the start of the sector it
began in, but only when it comes there by skipping a fragment: a read that ends at that place goes
on, and the search goes around again.
-/

namespace PicoApConfigure.RingBuffer

open Nor

/-- Bytes from a cursor on to an address, going around the ring. -/
def Geometry.gap (ring : Geometry) (next address : Nat) : Nat :=
  if next ≤ address then address - next else address + 4096 * ring.sectors - next

/-- No live fragment of `id` that a read of `size` bytes does not fill the buffer with is continued
by a deleted one.  The nested read runs over such a continuation to the next live fragment. -/
def NoSwallow (ring : Geometry) (cells : Nat → Option Sector) (id : Byte) (size : Nat) : Prop :=
  ∀ k < ring.sectors, ∀ sector before head following tail rest, cells k = some sector →
    sector.isFull = true → sector.frags = before ++ [head] → Wanted id head →
    head.payload.length < size → cells (ring.succ k) = some following →
    following.frags = tail :: rest → tail.id = id ∧ tail.split = true → tail.live = true

section Gap

variable {ring : Geometry} {cells : Nat → Option Sector}
  {k goalSector offset size next cursor : Nat}
  {sector : Sector} {before before' after after' : List Fragment} {fragment goal : Fragment}

/-- Two headers of one sector come one behind the other. -/
theorem frags_order (equal : before ++ fragment :: after = before' ++ goal :: after') :
    (before = before' ∧ fragment = goal) ∨
      fragsSize before + fragment.size ≤ fragsSize before' ∨
      fragsSize before' + goal.size ≤ fragsSize before := by
  rcases List.append_eq_append_iff.mp equal with ⟨passed, rfl, rest⟩ | ⟨passed, rfl, rest⟩
  · cases passed with
    | nil =>
        rw [List.nil_append, List.cons.injEq] at rest
        exact .inl ⟨(List.append_nil _).symm, rest.1⟩
    | cons first passed =>
        rw [List.cons_append, List.cons.injEq] at rest
        refine .inr (.inl ?_)
        rw [fragsSize_append, fragsSize_cons, rest.1]
        omega
  · cases passed with
    | nil =>
        rw [List.nil_append, List.cons.injEq] at rest
        exact .inl ⟨List.append_nil _, rest.1.symm⟩
    | cons first passed =>
        rw [List.cons_append, List.cons.injEq] at rest
        refine .inr (.inr ?_)
        rw [fragsSize_append, fragsSize_cons, rest.1]
        omega

/-- Skipping a fragment brings the cursor nearer to every other header. -/
theorem Geometry.gap_resume (inRing : k < ring.sectors) (goalInRing : goalSector < ring.sectors)
    (cell : cells k = some sector) (frags : sector.frags = before ++ fragment :: after)
    (stands : StandsAt k (4 + fragsSize before) next) {goalCell : Sector}
    (goalIs : cells goalSector = some goalCell)
    (goalFrags : goalCell.frags = before' ++ goal :: after')
    (away : ¬(k = goalSector ∧ before = before')) :
    ring.gap (ring.resume k (4 + fragsSize before + fragment.size))
        (4096 * goalSector + (4 + fragsSize before')) <
      ring.gap next (4096 * goalSector + (4 + fragsSize before')) := by
  have bound := fragment_offset frags
  have goalBound := fragment_offset goalFrags
  have positive := fragment.size_pos
  have goalPositive := goal.size_pos
  have low : 4096 * k ≤ next ∧ next ≤ 4096 * k + (4 + fragsSize before) ∧
      (next = 4096 * k + (4 + fragsSize before) ∨ fragsSize before = 0) := by
    rcases stands with rfl | ⟨first, rfl⟩ <;> omega
  have order : k = goalSector → fragsSize before + fragment.size ≤ fragsSize before' ∨
      fragsSize before' + goal.size ≤ fragsSize before := by
    intro same
    subst same
    rw [cell, Option.some.injEq] at goalIs
    subst goalIs
    rcases frags_order (frags.symm.trans goalFrags) with ⟨equal, -⟩ | order
    · exact absurd ⟨rfl, equal⟩ away
    · exact order
  unfold Geometry.gap
  by_cases room : 4 + fragsSize before + fragment.size ≤ 4091
  · rw [ring.resume_of_le room]
    rcases Nat.lt_trichotomy k goalSector with before | same | behind
    · rw [if_pos (by omega), if_pos (by omega)]
      omega
    · have := order same
      split <;> split <;> omega
    · rw [if_neg (by omega), if_neg (by omega)]
      omega
  · rw [ring.resume_of_lt (by omega)]
    rcases ring.succ_cases inRing with ⟨last, succ⟩ | ⟨more, succ⟩
    · rw [succ]
      rcases Nat.lt_trichotomy k goalSector with before | same | behind
      · omega
      · have := order same
        split <;> split <;> omega
      · rw [if_pos (by omega), if_neg (by omega)]
        omega
    · rw [succ]
      rcases Nat.lt_trichotomy k goalSector with before | same | behind
      · rw [if_pos (by omega), if_pos (by omega)]
        omega
      · have := order same
        split <;> split <;> omega
      · rw [if_neg (by omega), if_neg (by omega)]
        omega

/-- Passing a sector header does not lead away from a data header. -/
theorem Geometry.gap_header (ring : Geometry) (k goalSector : Nat) (inside : 4 + size < 4096) :
    ring.gap (4096 * k + 4) (4096 * goalSector + (4 + size)) ≤
      ring.gap (4096 * k) (4096 * goalSector + (4 + size)) := by
  unfold Geometry.gap
  split <;> split <;> omega

/-- A fragment that ends its sector is the last one in it. -/
theorem closing_last (frags : sector.frags = before ++ fragment :: after)
    (full : 4091 < 4 + fragsSize before + fragment.size) :
    after = [] ∧ sector.isFull = true := by
  have bound := fragment_offset frags
  refine ⟨?_, (Sector.isFull_iff sector).mpr (by omega)⟩
  cases after with
  | nil => rfl
  | cons following after =>
      have further := @fragment_offset sector (before ++ [fragment]) after following (by
        rw [frags, List.append_assoc, List.singleton_append])
      have := following.size_pos
      simp only [fragsSize_append, fragsSize_cons, fragsSize_nil] at further
      omega

/-- The fragment at `goal` that a search comes to: it is not read as a continuation. -/
structure Goal (ring : Geometry) (cells : Nat → Option Sector) (id : Byte) (k : Nat)
    (sector : Sector) (before : List Fragment) (goal : Fragment) (after : List Fragment) : Prop
    where
  inRing : k < ring.sectors
  cell : cells k = some sector
  frags : sector.frags = before ++ goal :: after
  first : ¬(Wanted id goal ∧ goal.split = true)

/-- A read at a live fragment of its id gets bytes and comes nearer to a fragment that no read takes
for a continuation. -/
theorem Reads.nearer {goalCell : Sector} {id : Byte} {limit : Nat} (ending : Nat → RbError)
    (swallow : NoSwallow ring cells id limit)
    (target : Goal ring cells id goalSector goalCell before' goal after') :
    ∀ {k home next : Nat} {sector : Sector} {before after : List Fragment} {fragment : Fragment},
      size ≤ limit → 0 < size → k < ring.sectors → cells k = some sector →
      sector.frags = before ++ fragment :: after → StandsAt k (4 + fragsSize before) next →
      Wanted id fragment → ¬(k = goalSector ∧ before = before') →
      ∃ bytes cursor, Reads ring cells ending id home (4096 * k + (4 + fragsSize before)) size
          (.got bytes) cursor ∧ 0 < bytes.length ∧
        ring.gap cursor (4096 * goalSector + (4 + fragsSize before')) <
          ring.gap next (4096 * goalSector + (4 + fragsSize before')) := by
  have inside : 4 + fragsSize before' < 4096 := by
    have := fragment_offset target.frags
    have := goal.size_pos
    omega
  induction size using Nat.strongRecOn with
  | ind size ih =>
      intro k home next sector before after fragment small positive inRing cell frags stands wanted
        away
      have nearer := Geometry.gap_resume inRing target.inRing cell frags stands target.cell
        target.frags away
      have taken := fragment.take_pos positive
      have here := StandsAt.header k (4 + fragsSize before)
      by_cases room : 4 + fragsSize before + fragment.size ≤ 4091
      · rw [ring.resume_of_le room] at nearer
        exact ⟨_, _, .plain (.refl _) inRing cell frags here wanted room, taken, nearer⟩
      have full : 4091 < 4 + fragsSize before + fragment.size := by omega
      rw [ring.resume_of_lt full] at nearer
      have header := ring.gap_header (ring.succ k) goalSector inside
      rcases noContinuation_or cells id (ring.succ k) with
        ⟨cursor, alone⟩ | ⟨following, tail, rest, nextCell, nextFrags, continues⟩
      · refine ⟨_, cursor, .last (.refl _) inRing cell frags here wanted full alone, taken, ?_⟩
        cases alone with
        | erased => exact nearer
        | unfilled => exact Nat.lt_of_le_of_lt header nearer
        | other => exact Nat.lt_of_le_of_lt header nearer
      by_cases filled : size ≤ fragment.payload.length
      · exact ⟨_, _, .short (.refl _) inRing cell frags here wanted full nextCell nextFrags
          continues filled, taken, Nat.lt_of_le_of_lt header nearer⟩
      · -- the nested read stands at the continuation, which is not the goal
        obtain ⟨rfl, closed⟩ := closing_last frags full
        have live := swallow k inRing sector before fragment following tail rest cell closed frags
          wanted (by omega) nextCell nextFrags continues
        have apart : ¬(ring.succ k = goalSector ∧ [] = before') := by
          rintro ⟨same, rfl⟩
          have cells_eq := target.cell
          rw [← same, nextCell, Option.some.injEq] at cells_eq
          have frags_eq := target.frags
          rw [← cells_eq, nextFrags, List.nil_append, List.cons.injEq] at frags_eq
          rw [← frags_eq.1] at target
          exact target.first ⟨⟨continues.1, live⟩, continues.2⟩
        obtain ⟨bytes, cursor, more, -, later⟩ := @ih (size - fragment.payload.length)
          (by have := fragment.payload_pos; omega) (ring.succ k) (ring.succ k) _ following [] rest
          tail (by omega) (by omega) (ring.succ_lt inRing) nextCell nextFrags
          (StandsAt.header (ring.succ k) 4) ⟨continues.1, live⟩ apart
        refine ⟨_, cursor, .continued (.refl _) inRing cell frags here wanted full nextCell
          nextFrags continues (by omega) more, ?_, by omega⟩
        have := fragment.payload_pos
        rw [ReadResult.bytes_got, List.length_append]
        omega

end Gap

/-! ## Searches that return -/

/-- The loop of `rb_find` returns if it does so where it comes to a fragment that no read takes for
a
continuation. -/
theorem rbFindLoop_reaches {ring : Geometry} {memory : Memory} {cells : Nat → Option Sector}
    {id : Byte} {data : Memory} {size orignext goalSector : Nat} {goalCell : Sector}
    {before' after' : List Fragment} {goal : Fragment} (holds : RingHolds memory ring cells)
    (fits : ReadFits ring id size) (swallow : NoSwallow ring cells id size)
    (target : Goal ring cells id goalSector goalCell before' goal after')
    (arrives : ∀ (rb : RbT) (scratch : Memory), OnRing rb ring →
      StandsAt goalSector (4 + fragsSize before') rb.next → ∃ result,
        FlashProg.Completes ring.region
          (fun fuel => rbFindLoop id data size orignext fuel rb scratch) memory [] result) :
    ∀ (rb : RbT) (scratch : Memory), OnRing rb ring → Cursor ring cells rb.next → ∃ result,
      FlashProg.Completes ring.region
        (fun fuel => rbFindLoop id data size orignext fuel rb scratch) memory [] result := by
  intro rb
  induction left : ring.gap rb.next (4096 * goalSector + (4 + fragsSize before'))
    using Nat.strongRecOn generalizing rb with
  | ind gap ih =>
      intro scratch on cursor
      subst left
      generalize place : rb.next = next at cursor
      cases cursor with
      | erased inRing cell =>
          obtain ⟨rb', completes⟩ := @rbFindLoop_blank _ _ _ _ size id data on holds _ inRing
            (.inl ⟨cell, place⟩) orignext scratch
          exact ⟨_, completes⟩
      | ended inRing cell room stands =>
          obtain ⟨rb', completes⟩ := @rbFindLoop_blank _ _ _ _ size id data on holds _ inRing
            (.inr ⟨_, cell, room, place ▸ stands⟩) orignext scratch
          exact ⟨_, completes⟩
      | @fragment k _ sector before after fragment inRing cell frags stands =>
          subst place
          by_cases there : k = goalSector ∧ before = before'
          · obtain ⟨rfl, rfl⟩ := there
            exact arrives rb scratch on stands
          by_cases wanted : Wanted id fragment
          · obtain ⟨bytes, cursor, reads, more, nearer⟩ := @Reads.nearer _ _ _ _ _ _ _ _ _ _
              (fun _ => .blankHdr) swallow target k k _ _ _ _ _ (Nat.le_refl _) fits.1 inRing cell
              frags stands wanted there
            have pass := fun {value} => @rbFindLoop_reads _ _ _ _ _ _ data on holds fits _ _ _ _ _
              _ _ inRing cell frags stands wanted reads more orignext scratch value
            by_cases shown : slice data 0 size = slice (store scratch 0 bytes) 0 size
            · refine ⟨(((4096 * k + (4 + fragsSize before) : Nat) : Int),
                { rb with next := cursor },
                store scratch 0 bytes), pass ?_⟩
              simp only [if_pos shown]
              exact (FlashProg.Exec.pure _).completes
            · obtain ⟨result, completes⟩ := ih _ nearer { rb with next := cursor } rfl
                (store scratch 0 bytes) ⟨on.base_eq, on.bytes_eq⟩ (reads.isCursor inRing)
              refine ⟨result, pass ?_⟩
              simp only [if_neg shown]
              exact completes
          · have pass := fun {value} => @rbFindLoop_skips _ _ _ _ size id data on holds.carries _ _
              _ _ _ inRing cell frags stands wanted orignext scratch value
            by_cases back : orignext = ring.resume k (4 + fragsSize before + fragment.size)
            · refine ⟨(RbError.hdrIdNotFound.code, { rb with
                next := ring.resume k (4 + fragsSize before + fragment.size) }, scratch), pass ?_⟩
              simp only [if_pos back]
              exact (FlashProg.Exec.pure _).completes
            · have nearer := Geometry.gap_resume inRing target.inRing cell frags stands target.cell
                target.frags there
              obtain ⟨result, completes⟩ := ih _ nearer { rb with
                next := ring.resume k (4 + fragsSize before + fragment.size) } rfl scratch
                ⟨on.base_eq, on.bytes_eq⟩ (Cursor.behind inRing cell frags)
              refine ⟨result, pass ?_⟩
              simp only [if_neg back]
              exact completes

section Ends

variable {ring : Geometry} {memory : Memory} {cells : Nat → Option Sector} {rb : RbT} {id : Byte}
  {data : Memory} {size next behind : Nat} {head : Fragment} {continued : List Byte}

/-- A read at a record of at most its size gets its first bytes. -/
theorem LiveRecord.reads (record : LiveRecord ring cells next head continued behind)
    (bound : size ≤ (head.payload ++ continued).length) (ending : Nat → RbError) (home : Nat) :
    ∃ cursor, Reads ring cells ending head.id home next size
      (.got ((head.payload ++ continued).take size)) cursor := by
  rw [List.length_append] at bound
  by_cases long : continued = [] ∨ head.payload.length < size
  · obtain ⟨cursor, -, reads⟩ := record.consumes ending home
    exact ⟨cursor, reads size bound long⟩
  · rw [not_or, Nat.not_lt] at long
    obtain ⟨cursor, -, reads⟩ := record.stops ending home long.1 long.2
    rw [List.take_append_of_le_length long.2]
    exact ⟨cursor, reads⟩

/-- Where the first header of a record is. -/
theorem LiveRecord.header (record : LiveRecord ring cells next head continued behind) :
    Wanted head.id head ∧ head.split = false ∧ ∃ k sector before after, k < ring.sectors ∧
      cells k = some sector ∧ sector.frags = before ++ head :: after ∧
      LiveRecord ring cells (4096 * k + (4 + fragsSize before)) head continued behind := by
  cases record with
  | whole inRing cell frags stands starts live =>
      exact ⟨⟨rfl, live⟩, starts, _, _, _, _, inRing, cell, frags,
        .whole inRing cell frags (StandsAt.header _ _) starts live⟩
  | pieces inRing cell frags stands starts live full nextCell nextFrags tailId tailSplit tailLive =>
      exact ⟨⟨rfl, live⟩, starts, _, _, _, _, inRing, cell, frags,
        .pieces inRing cell frags (StandsAt.header _ _) starts live full nextCell nextFrags tailId
          tailSplit tailLive⟩

/-- What makes a search from the cursor `next` return: a blank header, or a fragment it skips at the
end of the last sector before its own one, or a record that starts with the data. -/
inductive SearchEnds (ring : Geometry) (cells : Nat → Option Sector) (id : Byte) (data : Memory)
    (size next : Nat) : Prop
  | refused (rejects : ¬ReadFits ring id size)
  | blankHeader (left : ¬AllFull ring cells)
  | skipped (swallow : NoSwallow ring cells id size) {k : Nat} {sector : Sector}
      {before : List Fragment} {last : Fragment} (inRing : k < ring.sectors)
      (home : ring.succ k = next / 4096) (cell : cells k = some sector)
      (frags : sector.frags = before ++ [last]) (unwanted : ¬Wanted id last)
  | record (swallow : NoSwallow ring cells id size) {header behind : Nat} {head : Fragment}
      {continued : List Byte} (live : LiveRecord ring cells header head continued behind)
      (sameId : head.id = id)
      (starts : (head.payload ++ continued).take size = slice data 0 size)

/-- `rb_find` returns. -/
theorem SearchEnds.returns (on : OnRing rb ring) (holds : RingHolds memory ring cells)
    (filled : Filled ring cells) (cursor : Cursor ring cells next)
    (ends : SearchEnds ring cells id data size next) (scratch : Memory) :
    ∃ result, FlashProg.Completes ring.region
      (fun fuel => rbFind fuel { rb with next } id data size scratch) memory [] result := by
  have on' : OnRing { rb with next } ring := ⟨on.base_eq, on.bytes_eq⟩
  by_cases fits : ReadFits ring id size
  swap
  · have rejects := (rbReadRejects_iff on').mpr fits
    refine ⟨(RbError.badCallerData.code, { rb with next }, scratch), .once fun fuel => ?_⟩
    rw [rbFind, if_pos rejects]
    exact FlashProg.Exec.pure _
  by_cases full : AllFull ring cells
  swap
  · obtain ⟨marks, ahead⟩ := cursor.ahead full
    obtain ⟨stops, listed⟩ := Stops.exists id fits.1 marks
    obtain ⟨value, rb', scratch', completes, -⟩ :=
      @rbFind_iff _ _ _ _ _ _ _ _ _ data on holds filled fits ahead listed scratch
    exact ⟨_, completes⟩
  have accepted : ¬rbReadRejects { rb with next } id size := by
    rw [rbReadRejects_iff on']
    exact not_not_intro fits
  simp only [rbFind, if_neg accepted, flashSector_eq]
  cases ends with
  | refused rejects => exact absurd fits rejects
  | blankHeader left => exact absurd full left
  | @skipped swallow k sector before last inRing home cell frags unwanted =>
      refine rbFindLoop_reaches holds fits swallow
        ⟨inRing, cell, frags, fun wanted => unwanted wanted.1⟩ ?_ _ scratch on' cursor
      intro rb scratch on stands
      have closed := full k inRing
      rw [cell, cellFull, Sector.isFull_iff, Sector.used, frags, fragsSize_append, fragsSize_cons,
        fragsSize_nil] at closed
      refine ⟨(RbError.hdrIdNotFound.code, { rb with next := 4096 * (next / 4096) }, scratch), ?_⟩
      refine rbFindLoop_skips on holds.carries inRing cell frags stands unwanted ?_
      rw [ring.resume_of_lt (by omega), home]
      simp only [if_true]
      exact (FlashProg.Exec.pure _).completes
  | @record swallow header behind head continued live sameId starts =>
      obtain ⟨wanted, unsplit, k, sector, before, after, inRing, cell, frags, header⟩ := live.header
      subst sameId
      refine rbFindLoop_reaches holds fits swallow
        ⟨inRing, cell, frags, fun split => by rw [unsplit] at split; cases split.2⟩ ?_ _ scratch
        on' cursor
      intro rb scratch on stands
      have long : size ≤ (head.payload ++ continued).length := by
        have length := congrArg List.length starts
        rw [List.length_take, slice_length] at length
        omega
      obtain ⟨cursor, reads⟩ := header.reads long (fun _ => .blankHdr) k
      have more : 0 < ((head.payload ++ continued).take size).length := by
        have := fits.1
        rw [starts, slice_length]
        exact this
      refine ⟨(((4096 * k + (4 + fragsSize before) : Nat) : Int), { rb with next := cursor },
        store scratch 0 ((head.payload ++ continued).take size)), ?_⟩
      refine rbFindLoop_reads on holds fits inRing cell frags stands wanted reads more ?_
      have shown : slice data 0 size =
          slice (store scratch 0 ((head.payload ++ continued).take size)) 0 size := by
        rw [starts]
        exact ((holds_store scratch 0 (slice data 0 size)).slice_eq (slice_length _ _ _)).symm
      simp only [if_pos shown]
      exact (FlashProg.Exec.pure _).completes

/-! ## Searches that do not return -/

/-- No live fragment of `id` starts with the data, none is shorter than the data, and the last one
before sector `start` is live, so that the search does not skip it. -/
structure Unfound (ring : Geometry) (cells : Nat → Option Sector) (id : Byte) (data : Memory)
    (size start : Nat) : Prop where
  full : AllFull ring cells
  differs : ∀ k < ring.sectors, ∀ sector, cells k = some sector → ∀ fragment ∈ sector.frags,
    Wanted id fragment → size ≤ fragment.payload.length ∧
      fragment.payload.take size ≠ slice data 0 size
  last : ∀ k < ring.sectors, ring.succ k = start → ∀ sector before last, cells k = some sector →
    sector.frags = before ++ [last] → Wanted id last

/-- In a full ring every cursor is at a fragment. -/
theorem Cursor.fragment_of_allFull (cursor : Cursor ring cells next) (full : AllFull ring cells) :
    ∃ k sector before fragment after, k < ring.sectors ∧ cells k = some sector ∧
      sector.frags = before ++ fragment :: after ∧ StandsAt k (4 + fragsSize before) next := by
  cases cursor with
  | erased inRing cell =>
      have closed := full _ inRing
      rw [cell] at closed
      cases closed
  | ended inRing cell room stands =>
      have closed := full _ inRing
      rw [cell, cellFull, room] at closed
      cases closed
  | fragment inRing cell frags stands => exact ⟨_, _, _, _, _, inRing, cell, frags, stands⟩

/-- Where nothing is found and the search does not skip its way to its start, it does not return. -/
theorem Unfound.loop_never {start : Nat} {region : Nat → Prop}
    (unfound : Unfound ring cells id data size start) (holds : RingHolds memory ring cells)
    (fits : ReadFits ring id size) (fuel : Nat) (state : RbT × Memory)
    (placed : OnRing state.1 ring ∧ Cursor ring cells state.1.next) (writes : List Op)
    (value : Int × RbT × Memory) :
    ¬(rbFindLoop id data size (4096 * start) fuel state.1 state.2).Exec region memory writes
      value := by
  refine @FlashProg.never_exec _ _ _ _
    (fun fuel (state : RbT × Memory) => rbFindLoop id data size (4096 * start) fuel state.1 state.2)
    (fun state => OnRing state.1 ring ∧ Cursor ring cells state.1.next) (fun _ => rfl) ?_ fuel state
    placed writes value
  rintro fuel ⟨rb, scratch⟩ writes value ⟨on, cursor⟩ exec
  obtain ⟨k, sector, before, fragment, after, inRing, cell, frags, stands⟩ :=
    cursor.fragment_of_allFull unfound.full
  have fetched := fetch_fragment on holds.carries inRing cell frags stands
  simp only [rbFindLoop, headerSize] at exec
  have exec := fetched.of_bind_read exec
  simp only [ne_eq, not_true_eq_false, if_false] at exec
  by_cases wanted : Wanted id fragment
  · rw [if_neg fun unwanted => (wanted_test id fragment).mp unwanted wanted] at exec
    obtain ⟨first, ⟨res, rb', scratch'⟩, rest, rfl, execRead, exec⟩ :=
      FlashProg.exec_bind_iff.mp exec
    -- the read fills the buffer with the fragment, which is not the data
    obtain ⟨large, differs⟩ := unfound.differs k inRing sector cell fragment
      (by rw [frags]; simp) wanted
    obtain ⟨cursor, -, reads⟩ := @Reads.piece ring cells _ (fun _ => .blankHdr) k k _ _ _ _ inRing
      cell frags (StandsAt.header k (4 + fragsSize before)) wanted.2
    rw [wanted.1] at reads
    have bound := fragment_offset frags
    have positive := fragment.size_pos
    have sectorOf : (4096 * k + (4 + fragsSize before)) / 4096 = k := by omega
    have read := @rbRead_completes _ _ _ _ _ _ _
      { rb with next := 4096 * k + (4 + fragsSize before) } _ ⟨on.base_eq, on.bytes_eq⟩
      holds.carries holds.endingsAre fits (by
        rw [sectorOf]
        exact reads size large) scratch
    have completes : FlashProg.Completes region (fun fuel => rbRead fuel
        { rb with next := 4096 * k + (4 + fragsSize before) } id scratch size) memory first
        (res, rb', scratch') :=
      FlashProg.Exec.completes_of_extends execRead fun fuel => rbRead_extends fuel _ _ _ _
    obtain ⟨rfl, same⟩ := completes.unique read
    simp only [ReadResult.code_got, ReadResult.bytes_got, Prod.mk.injEq] at same
    obtain ⟨rfl, rfl, rfl⟩ := same
    have length : (fragment.payload.take size).length = size := by
      rw [List.length_take, Nat.min_eq_left large]
    have shown : slice data 0 size ≠
        slice (store scratch 0 (fragment.payload.take size)) 0 size := by
      rw [(holds_store scratch 0 (fragment.payload.take size)).slice_eq length]
      exact Ne.symm differs
    have := fits.1
    rw [if_pos (by omega), if_neg shown] at exec
    exact ⟨({ rb with next := cursor }, store scratch 0 (fragment.payload.take size)),
      ⟨⟨on.base_eq, on.bytes_eq⟩, (reads size large).isCursor inRing⟩, exec⟩
  · rw [if_pos ((wanted_test id fragment).mpr wanted)] at exec
    simp only [Fragment.header_len, rbIncr_fragment on inRing frags] at exec
    have away : ring.resume k (4 + fragsSize before + fragment.size) ≠ 4096 * start := by
      intro back
      by_cases full : 4091 < 4 + fragsSize before + fragment.size
      · obtain ⟨rfl, -⟩ := closing_last frags full
        rw [ring.resume_of_lt full] at back
        exact wanted (unfound.last k inRing (by omega) sector before fragment cell frags)
      · have := fragment.size_pos
        rw [ring.resume_of_le (by omega)] at back
        omega
    rw [if_neg (Ne.symm away)] at exec
    exact ⟨({ rb with next := ring.resume k (4 + fragsSize before + fragment.size) }, scratch),
      ⟨⟨on.base_eq, on.bytes_eq⟩, Cursor.behind inRing cell frags⟩, exec⟩

/-- `rb_find` does not return there. -/
theorem Unfound.never (unfound : Unfound ring cells id data size (next / 4096))
    (on : OnRing rb ring) (holds : RingHolds memory ring cells) (fits : ReadFits ring id size)
    (cursor : Cursor ring cells next) (scratch : Memory) :
    ¬∃ region writes result, FlashProg.Completes region
      (fun fuel => rbFind fuel { rb with next } id data size scratch) memory writes result := by
  rintro ⟨region, writes, result, bound, completes⟩
  have on' : OnRing { rb with next } ring := ⟨on.base_eq, on.bytes_eq⟩
  have accepted : ¬rbReadRejects { rb with next } id size := by
    rw [rbReadRejects_iff on']
    exact not_not_intro fits
  have exec := completes bound (Nat.le_refl _)
  simp only [rbFind, if_neg accepted, flashSector_eq] at exec
  exact unfound.loop_never holds fits bound ({ rb with next }, scratch) ⟨on', cursor⟩ writes result
    exec

end Ends

end PicoApConfigure.RingBuffer
