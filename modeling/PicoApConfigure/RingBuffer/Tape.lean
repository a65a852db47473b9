import PicoApConfigure.RingBuffer.Ordered
import PicoApConfigure.RingBuffer.Read

/-!
# Reading a log

What a walk along a ring in order passes, from the oldest sector to the first blank header, is
a list of fragments, the tape.  A read is a function of the part of the tape that lies ahead of
its cursor.
-/

namespace PicoApConfigure.RingBuffer

open Nor

/-! ## Tapes -/

/-- A fragment on the tape; `closes` says that no data header fits behind it in its sector. -/
structure Mark where
  fragment : Fragment
  closes : Bool
  deriving DecidableEq

/-- The marks of a chain of fragments that starts at `offset` of its sector. -/
def marks : (offset : Nat) → List Fragment → List Mark
  | _, [] => []
  | offset, fragment :: rest =>
      ⟨fragment, decide (4091 < offset + fragment.size)⟩ :: marks (offset + fragment.size) rest

/-- The marks of a log. -/
def tape (log : List Sector) : List Mark := log.flatMap fun sector => marks 4 sector.frags

/-- The next mark is taken for the continuation of a record of `id`. -/
def continues (id : Byte) : List Mark → Bool
  | [] => false
  | mark :: _ => decide (mark.fragment.id = id) && mark.fragment.split

/-- A read of `size` bytes for `id` on the tape, and what it leaves of the tape. -/
def readTape (id : Byte) : (size : Nat) → List Mark → ReadResult × List Mark
  | _, [] => (.stopped .blankHdr, [])
  | size, mark :: rest =>
      if Wanted id mark.fragment then
        if mark.closes = true ∧ continues id rest = true ∧ mark.fragment.payload.length < size then
          let (result, behind) := readTape id (size - mark.fragment.payload.length) rest
          (.got (mark.fragment.payload ++ result.bytes), behind)
        else
          (.got (mark.fragment.payload.take size), rest)
      else
        readTape id size rest

section Marks

theorem marks_append (offset : Nat) (left right : List Fragment) :
    marks offset (left ++ right) = marks offset left ++ marks (offset + fragsSize left) right := by
  induction left generalizing offset with
  | nil => simp [marks]
  | cons fragment left ih =>
      simp only [List.cons_append, marks, ih, fragsSize_cons, Nat.add_assoc]

theorem marks_eq_nil {offset : Nat} {frags : List Fragment} (empty : marks offset frags = []) :
    frags = [] := by
  cases frags with
  | nil => rfl
  | cons fragment frags => cases empty

@[simp] theorem tape_nil : tape [] = [] := rfl

@[simp] theorem tape_cons (sector : Sector) (log : List Sector) :
    tape (sector :: log) = marks 4 sector.frags ++ tape log := rfl

@[simp] theorem tape_append (left right : List Sector) :
    tape (left ++ right) = tape left ++ tape right := by
  simp [tape]

/-- The tape from a sector on. -/
theorem tape_drop {log : List Sector} {distance : Nat} {sector : Sector}
    (entry : log[distance]? = some sector) :
    tape (log.drop distance) = marks 4 sector.frags ++ tape (log.drop (distance + 1)) := by
  obtain ⟨bound, equal⟩ := List.getElem?_eq_some_iff.mp entry
  rw [List.drop_eq_getElem_cons bound, equal, tape_cons]

end Marks

/-! ## Positions -/

/-- The sectors in use lie one behind the other from `start` on, all but the last one full. -/
structure Laid (ring : Geometry) (cells : Nat → Option Sector) (start : Nat) (log : List Sector) :
    Prop where
  start_lt : start < ring.sectors
  length_le : log.length ≤ ring.sectors
  cell : ∀ distance < ring.sectors, cells (ring.ahead start distance) = log[distance]?
  closed : ∀ sector ∈ log.dropLast, sector.isFull = true
  nonempty : ∀ sector ∈ log, sector.frags ≠ []

theorem Ordered.laid {ring : Geometry} {cells : Nat → Option Sector} {start : Nat}
    {log : List Sector} (ordered : Ordered ring cells start log) : Laid ring cells start log :=
  ⟨ordered.start_lt, ordered.length_le, ordered.cell, ordered.closed, ordered.nonempty⟩

/-- The ring has a blank header: an erased sector, or room in the newest one. -/
def Unfilled (ring : Geometry) (log : List Sector) : Prop :=
  log.length < ring.sectors ∨ ∃ newest, log.getLast? = some newest ∧ newest.isFull = false

/-- `next` is a header position, `distance` sectors ahead of the start of the log, and `rest` is
the tape ahead of it. -/
inductive Position (ring : Geometry) (start : Nat) (log : List Sector) :
    (distance next : Nat) → (rest : List Mark) → Prop
  | behind {distance : Nat} (last : distance = log.length) (free : log.length < ring.sectors) :
      Position ring start log distance (4096 * ring.ahead start distance) []
  | inside {distance next : Nat} {sector : Sector} {before after : List Fragment}
      {rest : List Mark} (entry : log[distance]? = some sector)
      (frags : sector.frags = before ++ after) (room : 4 + fragsSize before ≤ 4091)
      (stands : StandsAt (ring.ahead start distance) (4 + fragsSize before) next)
      (equal : rest = marks (4 + fragsSize before) after ++ tape (log.drop (distance + 1))) :
      Position ring start log distance next rest

section Position

variable {ring : Geometry} {cells : Nat → Option Sector} {start : Nat} {log : List Sector}
  {distance next : Nat} {rest : List Mark} {mark : Mark}

theorem Position.lt (position : Position ring start log distance next rest)
    (laid : Laid ring cells start log) : distance < ring.sectors := by
  cases position with
  | behind last free => omega
  | inside entry _ _ _ _ =>
      have bound := (List.getElem?_eq_some_iff.mp entry).1
      have := laid.length_le
      omega

/-- The sector a position is in. -/
theorem Position.sector (position : Position ring start log distance next rest) :
    next / 4096 = ring.ahead start distance := by
  cases position with
  | behind => omega
  | inside _ _ room stands _ => rcases stands with rfl | ⟨_, rfl⟩ <;> omega

/-- Every sector start up to the end of the log is a position. -/
theorem Position.sectorStart (bound : distance ≤ log.length)
    (free : distance = log.length → log.length < ring.sectors) :
    Position ring start log distance (4096 * ring.ahead start distance)
      (tape (log.drop distance)) := by
  by_cases last : distance = log.length
  · rw [last, List.drop_length]
    exact .behind rfl (free last)
  · have entry : log[distance]? = some log[distance] := List.getElem?_eq_getElem (by omega)
    exact @Position.inside _ _ _ _ _ _ [] _ _ entry rfl (by simp) (StandsAt.start _)
      (tape_drop entry)

/-- A log begins at its first sector. -/
theorem Ordered.begins (ordered : Ordered ring cells start log) :
    Position ring start log 0 (4096 * start) (tape log) := by
  have position := @Position.sectorStart ring start log 0 (Nat.zero_le _) fun empty => by
    rw [← empty]
    exact ring.sectors_pos
  rwa [ring.ahead_zero ordered.start_lt, List.drop_zero] at position

/-- A sector of the log that is not its last one is full. -/
theorem Laid.full_of_lt (laid : Laid ring cells start log) {sector : Sector}
    (entry : log[distance]? = some sector) (before : distance + 1 < log.length) :
    sector.isFull = true := by
  obtain ⟨bound, rfl⟩ := List.getElem?_eq_some_iff.mp entry
  have kept : distance < log.dropLast.length := by
    rw [List.length_dropLast]
    omega
  have member := List.getElem_mem kept
  rw [List.getElem_dropLast] at member
  exact laid.closed _ member

/-- What lies ahead of a position begins with the fragment there. -/
theorem Position.cons_inv (laid : Laid ring cells start log)
    (position : Position ring start log distance next (mark :: rest)) :
    ∃ sector before after, log[distance]? = some sector ∧
      sector.frags = before ++ mark.fragment :: after ∧
      StandsAt (ring.ahead start distance) (4 + fragsSize before) next ∧
      mark.closes = decide (4091 < 4 + fragsSize before + mark.fragment.size) ∧
      rest = marks (4 + fragsSize before + mark.fragment.size) after ++
        tape (log.drop (distance + 1)) := by
  cases position with
  | @inside _ sector before after _ entry frags room stands equal =>
      cases after with
      | cons fragment after =>
          rw [marks, List.cons_append, List.cons.injEq] at equal
          obtain ⟨rfl, rfl⟩ := equal
          exact ⟨sector, before, after, entry, frags, stands, rfl, rfl⟩
      | nil =>
          -- a sector that ends here is the last one, so nothing lies ahead
          have bound := (List.getElem?_eq_some_iff.mp entry).1
          have notFull : sector.isFull = false := by
            rw [Sector.not_isFull_iff, Sector.used, frags, List.append_nil]
            exact room
          have last : log.length ≤ distance + 1 := by
            by_contra more
            rw [laid.full_of_lt entry (by omega)] at notFull
            cases notFull
          rw [List.drop_eq_nil_of_le last] at equal
          cases equal

/-- Behind the fragment at a position there is a position again, which is no sector start that
the walk has already passed. -/
theorem Position.step (laid : Laid ring cells start log)
    (left : rest ≠ [] ∨ Unfilled ring log) {sector : Sector} {before after : List Fragment}
    (entry : log[distance]? = some sector)
    (frags : sector.frags = before ++ mark.fragment :: after)
    (closes : mark.closes = decide (4091 < 4 + fragsSize before + mark.fragment.size))
    (equal : rest = marks (4 + fragsSize before + mark.fragment.size) after ++
      tape (log.drop (distance + 1))) {home : Nat} (passed : home ≤ distance) :
    ∃ reached, distance ≤ reached ∧ (mark.closes = true → reached = distance + 1) ∧
      Position ring start log reached (ring.resume (ring.ahead start distance)
        (4 + fragsSize before + mark.fragment.size)) rest ∧
      ring.resume (ring.ahead start distance) (4 + fragsSize before + mark.fragment.size) ≠
        4096 * ring.ahead start home := by
  have bound := (List.getElem?_eq_some_iff.mp entry).1
  have length := laid.length_le
  have offset := fragment_offset frags
  have positive := mark.fragment.size_pos
  by_cases room : 4 + fragsSize before + mark.fragment.size ≤ 4091
  · refine ⟨distance, Nat.le_refl _, fun closed => ?_, ?_, ?_⟩
    · rw [closes, decide_eq_true_eq] at closed
      omega
    · have size : 4 + fragsSize (before ++ [mark.fragment]) =
          4 + fragsSize before + mark.fragment.size := by simp [Nat.add_assoc]
      rw [ring.resume_of_le room, ← size]
      refine @Position.inside _ _ _ _ _ _ (before ++ [mark.fragment]) after _ entry ?_ ?_
        (StandsAt.header _ _) ?_
      · rw [frags, List.append_assoc, List.singleton_append]
      · rw [size]
        exact room
      · rw [size]
        exact equal
    · rw [ring.resume_of_le room]
      omega
  · -- the fragment ends its sector
    have alone : after = [] := by
      cases after with
      | nil => rfl
      | cons other after =>
          have := other.size_pos
          simp only [Sector.used, frags, fragsSize_append, fragsSize_cons] at offset
          omega
    subst alone
    have full : sector.isFull = true := by
      rw [Sector.isFull_iff, Sector.used, frags]
      simp only [fragsSize_append, fragsSize_cons, fragsSize_nil]
      omega
    have free : distance + 1 = log.length → log.length < ring.sectors := by
      intro last
      rw [marks, List.nil_append, last, List.drop_length, tape_nil] at equal
      refine (left.resolve_left (not_not_intro equal)).resolve_right ?_
      rintro ⟨newest, found, notFull⟩
      rw [List.getLast?_eq_getElem?, ← last, Nat.add_sub_cancel, entry] at found
      cases found
      rw [full] at notFull
      cases notFull
    have inRing : distance + 1 < ring.sectors := by
      by_cases last : distance + 1 = log.length
      · have := free last
        omega
      · omega
    rw [ring.resume_of_lt (by omega), ring.ahead_succ distance laid.start_lt (by omega)]
    refine ⟨distance + 1, Nat.le_succ _, fun _ => rfl, ?_, fun back => ?_⟩
    · rw [equal]
      exact Position.sectorStart (by omega) free
    · have same := ring.ahead_inj inRing (by omega)
        (Nat.eq_of_mul_eq_mul_left (by decide : 0 < 4096) back)
      omega

end Position

/-! ## Reads on a position -/

section Reads

variable {ring : Geometry} {cells : Nat → Option Sector} {ending : Nat → RbError} {id : Byte}
  {home next size cursor : Nat} {result : ReadResult}

/-- A read passes a fragment it does not want. -/
theorem Reads.skip {k : Nat} {sector : Sector} {before after : List Fragment}
    {fragment : Fragment} (inRing : k < ring.sectors) (cell : cells k = some sector)
    (frags : sector.frags = before ++ fragment :: after)
    (stands : StandsAt k (4 + fragsSize before) next) (skipped : ¬Wanted id fragment)
    (away : ring.resume k (4 + fragsSize before + fragment.size) ≠ 4096 * home)
    (reads : Reads ring cells ending id home
      (ring.resume k (4 + fragsSize before + fragment.size)) size result cursor) :
    Reads ring cells ending id home next size result cursor := by
  have step : ∀ {final : Nat}, Skips ring cells (fun fragment => ¬Wanted id fragment)
      (4096 * home) (ring.resume k (4 + fragsSize before + fragment.size)) final →
      Skips ring cells (fun fragment => ¬Wanted id fragment) (4096 * home) next final :=
    fun rest => .step inRing cell frags stands skipped away rest
  cases reads with
  | erased skips inRing' cell' => exact .erased (step skips) inRing' cell'
  | ended skips inRing' cell' room stands' => exact .ended (step skips) inRing' cell' room stands'
  | lost skips inRing' cell' frags' stands' skipped' back =>
      exact .lost (step skips) inRing' cell' frags' stands' skipped' back
  | plain skips inRing' cell' frags' stands' wanted room =>
      exact .plain (step skips) inRing' cell' frags' stands' wanted room
  | last skips inRing' cell' frags' stands' wanted full alone =>
      exact .last (step skips) inRing' cell' frags' stands' wanted full alone
  | short skips inRing' cell' frags' stands' wanted full nextCell nextFrags continues filled =>
      exact .short (step skips) inRing' cell' frags' stands' wanted full nextCell nextFrags
        continues filled
  | continued skips inRing' cell' frags' stands' wanted full nextCell nextFrags continues
      unfilled more =>
      exact .continued (step skips) inRing' cell' frags' stands' wanted full nextCell nextFrags
        continues unfilled more

end Reads

section Positions

variable {ring : Geometry} {cells : Nat → Option Sector} {start : Nat} {log : List Sector}
  {id : Byte}

/-- The sectors of a position have fragments. -/
theorem tape_ne_nil (laid : Laid ring cells start log) {distance : Nat}
    (bound : distance < log.length) : tape (log.drop distance) ≠ [] := by
  have entry : log[distance]? = some log[distance] := List.getElem?_eq_getElem bound
  rw [tape_drop entry]
  intro empty
  exact laid.nonempty _ (List.getElem_mem bound)
    (marks_eq_nil (List.append_eq_nil_iff.mp empty).1)

theorem fragsSize_eq_zero {frags : List Fragment} (zero : fragsSize frags = 0) : frags = [] := by
  cases frags with
  | nil => rfl
  | cons fragment frags =>
      have := fragment.size_pos
      rw [fragsSize_cons] at zero
      omega

/-- What a peek at a sector start finds there. -/
theorem Position.peek (laid : Laid ring cells start log) {distance : Nat}
    {rest : List Mark}
    (position : Position ring start log distance (4096 * ring.ahead start distance) rest) :
    (rest = [] ∧ cells (ring.ahead start distance) = none) ∨
      ∃ mark behind sector after, rest = mark :: behind ∧
        cells (ring.ahead start distance) = some sector ∧
        sector.frags = mark.fragment :: after ∧
        Position ring start log distance (4096 * ring.ahead start distance + 4) rest := by
  have cell := laid.cell distance (position.lt laid)
  cases position with
  | behind last free =>
      rw [last, List.getElem?_eq_none (Nat.le_refl _), ← last] at cell
      exact .inl ⟨rfl, cell⟩
  | @inside _ sector before after _ entry frags room stands equal =>
      rw [entry] at cell
      have first : before = [] := by
        refine fragsSize_eq_zero ?_
        rcases stands with here | ⟨header, _⟩ <;> omega
      subst first
      cases after with
      | nil => exact absurd frags (laid.nonempty sector (List.mem_of_getElem? entry))
      | cons fragment after =>
          refine .inr ⟨_, _, sector, after, equal, cell, frags, ?_⟩
          exact .inside entry frags room (StandsAt.header _ _) equal

/-- What a read leaves of the tape was behind its first mark. -/
theorem readTape_left {size : Nat} {mark : Mark} {rest : List Mark}
    (left : (readTape id size (mark :: rest)).2 ≠ []) : rest ≠ [] := by
  rintro rfl
  rw [readTape] at left
  split at left
  · split at left <;> exact left rfl
  · exact left rfl

/-- A read goes along the tape. -/
theorem Position.reads (laid : Laid ring cells start log) {rest : List Mark} :
    ∀ {home distance next size : Nat}, Position ring start log distance next rest →
      home ≤ distance → (readTape id size rest).2 ≠ [] ∨ Unfilled ring log →
      ∃ cursor reached, Reads ring cells (fun _ => .blankHdr) id (ring.ahead start home) next
          size (readTape id size rest).1 cursor ∧ distance ≤ reached ∧
        Position ring start log reached cursor (readTape id size rest).2 := by
  induction rest with
  | nil =>
      intro home distance next size position passed _
      have inRing := ring.ahead_lt laid.start_lt (Nat.le_of_lt (position.lt laid))
      have cell := laid.cell distance (position.lt laid)
      cases position with
      | behind last free =>
          rw [last, List.getElem?_eq_none (Nat.le_refl _), ← last] at cell
          exact ⟨_, distance, .erased (.refl _) inRing cell, Nat.le_refl _, .behind last free⟩
      | @inside _ sector before after _ entry frags room stands equal =>
          obtain ⟨ends, none⟩ := List.append_eq_nil_iff.mp equal.symm
          have empty := marks_eq_nil ends
          subst empty
          rw [List.append_nil] at frags
          have used : sector.used = 4 + fragsSize before := by rw [Sector.used, frags]
          rw [entry] at cell
          refine ⟨_, distance, .ended (.refl _) inRing cell ?_ (used ▸ stands), Nat.le_refl _, ?_⟩
          · rw [Sector.not_isFull_iff, used]
            exact room
          · rw [used]
            refine @Position.inside _ _ _ _ _ _ before [] _ entry ?_ room (StandsAt.header _ _)
              equal
            rw [frags, List.append_nil]
  | cons mark rest ih =>
      intro home distance next size position passed left
      have bound := position.lt laid
      have inRing := ring.ahead_lt laid.start_lt (Nat.le_of_lt bound)
      have cell := laid.cell distance bound
      obtain ⟨sector, before, after, entry, frags, stands, closes, equal⟩ :=
        position.cons_inv laid
      rw [entry] at cell
      obtain ⟨reached, later, turned, behind, away⟩ :=
        Position.step laid (left.imp_left readTape_left) entry frags closes equal passed
      by_cases wanted : Wanted id mark.fragment
      · by_cases room : mark.closes = true
        · have full : 4091 < 4 + fragsSize before + mark.fragment.size := by
            rwa [closes, decide_eq_true_eq] at room
          obtain rfl := turned room
          have succ := ring.ahead_succ distance laid.start_lt (by omega)
          rw [ring.resume_of_lt full, succ] at behind
          rcases behind.peek laid with
            ⟨rfl, none⟩ | ⟨following, rest', sector', after', rfl, nextCell, nextFrags, header⟩
          · -- nothing lies behind the fragment
            rw [← succ] at none behind
            simp only [readTape, if_pos wanted, continues, Bool.false_eq_true, false_and, and_false,
              if_false]
            exact ⟨_, distance + 1, .last (.refl _) inRing cell frags stands wanted full
              (.erased none), Nat.le_succ _, behind⟩
          rw [← succ] at nextCell header
          by_cases more : continues id (following :: rest') = true
          · have split : following.fragment.id = id ∧ following.fragment.split = true := by
              simpa [continues] using more
            by_cases unfilled : mark.fragment.payload.length < size
            · -- the read goes on with the continuation
              obtain ⟨cursor, final, reads, further, position'⟩ :=
                @ih (distance + 1) _ _ (size - mark.fragment.payload.length) header (Nat.le_refl _)
                  (by rwa [readTape, if_pos wanted, if_pos ⟨room, more, unfilled⟩] at left)
              rw [← succ] at reads
              rw [readTape, if_pos wanted, if_pos ⟨room, more, unfilled⟩]
              exact ⟨cursor, final, .continued (.refl _) inRing cell frags stands wanted full
                nextCell nextFrags split unfilled reads, by omega, position'⟩
            · rw [readTape, if_pos wanted, if_neg fun all => unfilled all.2.2]
              exact ⟨_, distance + 1, .short (.refl _) inRing cell frags stands wanted full
                nextCell nextFrags split (by omega), Nat.le_succ _, header⟩
          · have alone : ¬(following.fragment.id = id ∧ following.fragment.split = true) :=
              fun split => more (by simpa [continues] using split)
            rw [readTape, if_pos wanted, if_neg fun all => more all.2.1]
            exact ⟨_, distance + 1, .last (.refl _) inRing cell frags stands wanted full
              (.other nextCell nextFrags alone), Nat.le_succ _, header⟩
        · have open' : mark.closes = false := by simpa using room
          rw [closes, decide_eq_false_iff_not] at open'
          have short : 4 + fragsSize before + mark.fragment.size ≤ 4091 := by omega
          rw [ring.resume_of_le short] at behind
          rw [readTape, if_pos wanted, if_neg fun all => room all.1]
          exact ⟨_, reached, .plain (.refl _) inRing cell frags stands wanted short, later, behind⟩
      · obtain ⟨cursor, final, reads, further, position'⟩ :=
          @ih home _ _ size behind (Nat.le_trans passed later)
            (by rwa [readTape, if_neg wanted] at left)
        simp only [readTape, if_neg wanted]
        exact ⟨cursor, final, reads.skip inRing cell frags stands wanted away,
          Nat.le_trans later further, position'⟩

end Positions

end PicoApConfigure.RingBuffer
