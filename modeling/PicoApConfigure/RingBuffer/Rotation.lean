import PicoApConfigure.RingBuffer.AddedHeaders
import PicoApConfigure.RingBuffer.CheckRing

/-!
# Opening a rotated ring

Where the oldest sector lies in the flash should not matter: reads go around the ring.
`Reads.turn` says so for the reader.  `rb_create` reports the status of sector 0, and its order
scan reads the word behind the ring, so opening does depend on the rotation.
-/

namespace PicoApConfigure.RingBuffer

open Nor

/-- `turned` is the content `cells` with its first sector at sector `start` of the ring. -/
structure Rotated (ring : Geometry) (start : Nat) (cells turned : Nat → Option Sector) :
    Prop where
  start_lt : start < ring.sectors
  cell : ∀ k < ring.sectors, turned (ring.ahead start k) = cells k

/-- The offset `next` of the content in the rotated ring. -/
def Geometry.turn (ring : Geometry) (start next : Nat) : Nat :=
  4096 * ring.ahead start (next / 4096) + next % 4096

section Turn

variable {ring : Geometry} {start k offset next home : Nat}

theorem Geometry.turn_add (ring : Geometry) (start k : Nat) (inside : offset < 4096) :
    ring.turn start (4096 * k + offset) = 4096 * ring.ahead start k + offset := by
  rw [Geometry.turn, show (4096 * k + offset) / 4096 = k by omega,
    show (4096 * k + offset) % 4096 = offset by omega]

theorem Geometry.turn_start (ring : Geometry) (start k : Nat) :
    ring.turn start (4096 * k) = 4096 * ring.ahead start k :=
  @Geometry.turn_add 0 ring start k (by decide)

theorem Geometry.succ_ahead (ring : Geometry) (start_lt : start < ring.sectors)
    (inRing : k < ring.sectors) :
    ring.succ (ring.ahead start k) = ring.ahead start (ring.succ k) := by
  rw [ring.ahead_succ k start_lt inRing]
  rcases ring.succ_cases inRing with ⟨last, wraps⟩ | ⟨_, next⟩
  · rw [wraps, last, ring.ahead_all, ring.ahead_zero start_lt]
  · rw [next]

theorem Geometry.turn_resume (ring : Geometry) (start_lt : start < ring.sectors)
    (inRing : k < ring.sectors) (offset : Nat) :
    ring.turn start (ring.resume k offset) = ring.resume (ring.ahead start k) offset := by
  by_cases room : offset ≤ 4091
  · rw [ring.resume_of_le room, ring.resume_of_le room, ring.turn_add start k (by omega)]
  · rw [ring.resume_of_lt (by omega), ring.resume_of_lt (by omega), ring.turn_start,
      ring.succ_ahead start_lt inRing]

theorem StandsAt.turn (ring : Geometry) (start : Nat) (stands : StandsAt k offset next)
    (inside : offset < 4096) : StandsAt (ring.ahead start k) offset (ring.turn start next) := by
  rcases stands with rfl | ⟨rfl, rfl⟩
  · rw [ring.turn_add start k inside]
    exact StandsAt.header _ _
  · rw [ring.turn_start]
    exact StandsAt.start _

/-- A walk comes back to its start sector in both rings or in neither. -/
theorem Geometry.resume_turn_iff (ring : Geometry) (start_lt : start < ring.sectors)
    (inRing : k < ring.sectors) (homeInRing : home < ring.sectors) (positive : 0 < offset) :
    ring.resume (ring.ahead start k) offset = 4096 * ring.ahead start home ↔
      ring.resume k offset = 4096 * home := by
  by_cases room : offset ≤ 4091
  · rw [ring.resume_of_le room, ring.resume_of_le room]
    omega
  · rw [ring.resume_of_lt (by omega), ring.resume_of_lt (by omega),
      ring.succ_ahead start_lt inRing]
    constructor
    · intro equal
      have same := ring.ahead_inj (ring.succ_lt inRing) homeInRing
        (Nat.eq_of_mul_eq_mul_left (by decide) equal)
      rw [same]
    · intro equal
      rw [Nat.eq_of_mul_eq_mul_left (by decide) equal]

end Turn

/-! ## Reads -/

section Reads

variable {ring : Geometry} {cells turned : Nat → Option Sector} {start home next final size
  cursor : Nat} {status : RbError} {id : Byte} {result : ReadResult} {skip : Fragment → Prop}

theorem Skips.turn (rotated : Rotated ring start cells turned) (homeInRing : home < ring.sectors)
    (skips : Skips ring cells skip (4096 * home) next final) :
    Skips ring turned skip (4096 * ring.ahead start home) (ring.turn start next)
      (ring.turn start final) := by
  induction skips with
  | refl next => exact .refl _
  | @step k next final sector before after fragment inRing cell frags stands skipped away _ ih =>
      have bound := fragment_offset frags
      have positive := fragment.size_pos
      rw [ring.turn_resume rotated.start_lt inRing] at ih
      refine .step (ring.ahead_lt rotated.start_lt (Nat.le_of_lt inRing))
        ((rotated.cell k inRing).trans cell) frags (stands.turn ring start (by omega)) skipped ?_ ih
      rwa [ne_eq, ring.resume_turn_iff rotated.start_lt inRing homeInRing (by omega)]

theorem NoContinuation.turn (rotated : Rotated ring start cells turned) {k : Nat}
    (inRing : k < ring.sectors) (alone : NoContinuation cells id k cursor) :
    NoContinuation turned id (ring.ahead start k) (ring.turn start cursor) := by
  cases alone with
  | erased cell =>
      rw [ring.turn_start]
      exact .erased ((rotated.cell k inRing).trans cell)
  | unfilled cell empty =>
      rw [ring.turn_add start k (by decide)]
      exact .unfilled ((rotated.cell k inRing).trans cell) empty
  | other cell frags differs =>
      rw [ring.turn_add start k (by decide)]
      exact .other ((rotated.cell k inRing).trans cell) frags differs

/-- A read of the rotated ring has the same result and leaves the cursor at the same place of
the content. -/
theorem Reads.turn (rotated : Rotated ring start cells turned)
    (reads : Reads ring cells (fun _ => status) id home next size result cursor)
    (homeInRing : home < ring.sectors) :
    Reads ring turned (fun _ => status) id (ring.ahead start home) (ring.turn start next) size
      result (ring.turn start cursor) := by
  have inside : ∀ {k : Nat}, k < ring.sectors → ring.ahead start k < ring.sectors :=
    fun inRing => ring.ahead_lt rotated.start_lt (Nat.le_of_lt inRing)
  induction reads with
  | @erased home next size k skips inRing cell =>
      have skips := skips.turn rotated homeInRing
      rw [ring.turn_start] at skips ⊢
      exact .erased skips (inside inRing) ((rotated.cell k inRing).trans cell)
  | @ended home next size k final sector skips inRing cell room stands =>
      have used := sector.not_isFull_iff.mp room
      rw [ring.turn_add start k (by omega)]
      exact .ended (skips.turn rotated homeInRing) (inside inRing)
        ((rotated.cell k inRing).trans cell) room (stands.turn ring start (by omega))
  | @lost home next size k final sector before after fragment skips inRing cell frags stands
      skipped back =>
      have bound := fragment_offset frags
      have positive := fragment.size_pos
      rw [ring.turn_start]
      refine .lost (skips.turn rotated homeInRing) (inside inRing)
        ((rotated.cell k inRing).trans cell) frags (stands.turn ring start (by omega)) skipped ?_
      rwa [ring.resume_turn_iff rotated.start_lt inRing homeInRing (by omega)]
  | @plain home next size k final sector before after fragment skips inRing cell frags stands
      wanted room =>
      have bound := fragment_offset frags
      have positive := fragment.size_pos
      rw [ring.turn_add start k (by omega)]
      exact .plain (skips.turn rotated homeInRing) (inside inRing)
        ((rotated.cell k inRing).trans cell) frags (stands.turn ring start (by omega)) wanted room
  | @last home next size k final cursor sector before after fragment skips inRing cell frags
      stands wanted full alone =>
      have bound := fragment_offset frags
      have positive := fragment.size_pos
      have alone := alone.turn rotated (ring.succ_lt inRing)
      rw [← ring.succ_ahead rotated.start_lt inRing] at alone
      exact .last (skips.turn rotated homeInRing) (inside inRing)
        ((rotated.cell k inRing).trans cell) frags (stands.turn ring start (by omega)) wanted full
        alone
  | @short home next size k final sector following before after rest fragment continuation skips
      inRing cell frags stands wanted full nextCell nextFrags continues filled =>
      have bound := fragment_offset frags
      have positive := fragment.size_pos
      have cell' := rotated.cell _ (ring.succ_lt inRing)
      rw [nextCell, ← ring.succ_ahead rotated.start_lt inRing] at cell'
      rw [ring.turn_add start _ (by decide), ← ring.succ_ahead rotated.start_lt inRing]
      exact .short (skips.turn rotated homeInRing) (inside inRing)
        ((rotated.cell k inRing).trans cell) frags (stands.turn ring start (by omega)) wanted full
        cell' nextFrags continues filled
  | @continued home next size k final cursor sector following before after rest fragment
      continuation result skips inRing cell frags stands wanted full nextCell nextFrags continues
      unfilled _ ih =>
      have bound := fragment_offset frags
      have positive := fragment.size_pos
      have cell' := rotated.cell _ (ring.succ_lt inRing)
      have more := ih (ring.succ_lt inRing)
      rw [ring.turn_add start _ (by decide)] at more
      rw [nextCell] at cell'
      rw [← ring.succ_ahead rotated.start_lt inRing] at cell' more
      exact .continued (skips.turn rotated homeInRing) (inside inRing)
        ((rotated.cell k inRing).trans cell) frags (stands.turn ring start (by omega)) wanted full
        cell' nextFrags continues unfilled more

end Reads

/-- The arguments of one `rb_read`. -/
structure ReadCall where
  id : Byte
  data : Memory
  size : Nat

/-- Reads one after the other, each with the value it returns and what its buffer holds then. -/
inductive ReadSequence (ring : Geometry) (memory : Memory) :
    RbT → List ReadCall → List (Int × Memory) → Prop
  | nil (rb : RbT) : ReadSequence ring memory rb [] []
  | cons {rb after : RbT} {call : ReadCall} {calls : List ReadCall} {value : Int}
      {data : Memory} {results : List (Int × Memory)}
      (read : FlashProg.Completes ring.region
        (fun fuel => rbRead fuel rb call.id call.data call.size) memory []
        (value, after, data))
      (rest : ReadSequence ring memory after calls results) :
      ReadSequence ring memory rb (call :: calls) ((value, data) :: results)

section Sequence

variable {ring : Geometry} {memory turnedMemory : Memory} {cells turned : Nat → Option Sector}
  {start : Nat}

/-- From the same place of the content, reads of the two rings have the same results. -/
theorem ReadSequence.turn (holds : RingHolds memory ring cells)
    (turnedHolds : RingHolds turnedMemory ring turned) (rotated : Rotated ring start cells turned)
    (calls : List ReadCall) :
    ∀ {rb turnedRb : RbT}, OnRing rb ring → OnRing turnedRb ring → Cursor ring cells rb.next →
      turnedRb.next = ring.turn start rb.next →
      ∃ results, ReadSequence ring memory rb calls results ∧
        ReadSequence ring turnedMemory turnedRb calls results := by
  induction calls with
  | nil => exact fun _ _ _ _ => ⟨[], .nil _, .nil _⟩
  | cons call calls ih =>
      intro rb turnedRb on turnedOn cursor place
      by_cases fits : ReadFits ring call.id call.size
      · have homeInRing : rb.next / 4096 < ring.sectors := by
          have := cursor.lt
          omega
        obtain ⟨result, final, reads⟩ := Reads.exists (fun _ => .blankHdr) call.id homeInRing
          cursor call.size
        have turnedReads := reads.turn rotated homeInRing
        have home : turnedRb.next / 4096 = ring.ahead start (rb.next / 4096) := by
          rw [place, Geometry.turn]
          omega
        rw [← place, ← home] at turnedReads
        obtain ⟨results, rest, turnedRest⟩ := @ih { rb with next := final }
          { turnedRb with next := ring.turn start final } ⟨on.base_eq, on.bytes_eq⟩
          ⟨turnedOn.base_eq, turnedOn.bytes_eq⟩ (reads.isCursor homeInRing) rfl
        exact ⟨_, .cons (rbRead_completes on holds.carries holds.endingsAre fits reads call.data)
          rest, .cons (rbRead_completes turnedOn turnedHolds.carries turnedHolds.endingsAre fits
            turnedReads call.data) turnedRest⟩
      · obtain ⟨results, rest, turnedRest⟩ := ih on turnedOn cursor place
        exact ⟨_, .cons (rbRead_refused on fits call.data) rest,
          .cons (rbRead_refused turnedOn fits call.data) turnedRest⟩

end Sequence

/-! ## Opening -/

/-- A content in ring order from sector 0: sectors in use with increasing indices, then the
blank ones. -/
structure InRingOrder (ring : Geometry) (cells : Nat → Option Sector) (count : Nat) : Prop where
  count_le : count ≤ ring.sectors
  used : ∀ k < count, (cells k).isSome
  blank : ∀ k < ring.sectors, count ≤ k → cells k = none
  rises : ∀ k, k + 1 < count → ∀ older newer, cells k = some older →
    cells (k + 1) = some newer → older.index < newer.index

/-- Opening the two rings has the same outcome: the status, the content from the cursor on and
the results of all later reads; and the ring is called blank only if it is. -/
def SameOpening (ring : Geometry) (memory turnedMemory : Memory)
    (cells turned : Nat → Option Sector) (block : RbT) (baseAddress numberOfSectors : Nat)
    (choice : InitChoice) : Prop :=
  ∃ status rb turnedRb k j,
    (rbCreate block baseAddress numberOfSectors choice).Exec ring.extended memory []
      (status, rb) ∧
    (rbCreate block baseAddress numberOfSectors choice).Exec ring.extended turnedMemory []
      (status, turnedRb) ∧
    rb.next = 4096 * k ∧ turnedRb.next = 4096 * j ∧
    (∀ distance < ring.sectors,
      turned (ring.ahead j distance) = cells (ring.ahead k distance)) ∧
    (∀ calls, ∃ results, ReadSequence ring memory rb calls results ∧
      ReadSequence ring turnedMemory turnedRb calls results) ∧
    (status = .blankHdr → ∀ sector < ring.sectors, cells sector = none)

/-- The word behind the ring does not disturb the order scan: it is no sector header, or its
index lies between those of the last sector and of sector 1. -/
def BehindFits (memory : Memory) (ring : Geometry) (turned : Nat → Option Sector)
    (start : Nat) : Prop :=
  sectorStatus memory ring.behind = .ok →
    (∀ last, turned (ring.sectors - 1) = some last →
      last.index ≤ (sectorWord memory ring.behind).getIndex) ∧
    (1 < start → ∀ second, turned 1 = some second →
      (sectorWord memory ring.behind).getIndex ≤ second.index)

section Opening

variable {ring : Geometry} {memory : Memory} {cells turned : Nat → Option Sector}
  {start count : Nat} {block : RbT} {baseAddress numberOfSectors : Nat} {choice : InitChoice}

theorem InRingOrder.indices_lt (order : InRingOrder ring cells count) {k j : Nat}
    (before : k < j) (bound : j < count) {older newer : Sector} (olderCell : cells k = some older)
    (newerCell : cells j = some newer) : older.index < newer.index := by
  induction j generalizing newer with
  | zero => exact absurd before (Nat.not_lt_zero _)
  | succ j ih =>
      obtain ⟨middle, middleCell⟩ := Option.isSome_iff_exists.mp (order.used j (by omega))
      have step := order.rises j bound middle newer middleCell newerCell
      rcases Nat.lt_succ_iff_lt_or_eq.mp before with earlier | rfl
      · exact Nat.lt_trans (ih earlier (by omega) middleCell) step
      · rw [olderCell, Option.some.injEq] at middleCell
        rwa [middleCell]

/-- The rotated content seen by the scans of the headers. -/
theorem Rotated.orderedFrom (rotated : Rotated ring start cells turned)
    (order : InRingOrder ring cells count) :
    OrderedFrom ring (indexOf turned) start count where
  start_lt := rotated.start_lt
  count_le := order.count_le
  used d bound := by
    have inRing : d < ring.sectors := Nat.lt_of_lt_of_le bound order.count_le
    rw [indexOf, rotated.cell d inRing, Option.isSome_map]
    exact order.used d bound
  blank d inRing above := by
    rw [indexOf, rotated.cell d inRing, order.blank d inRing above, Option.map_none]
  rises d bound left right leftEntry rightEntry := by
    have inRing : d + 1 < ring.sectors := Nat.lt_of_lt_of_le bound order.count_le
    rw [indexOf, rotated.cell d (by omega), Option.map_eq_some_iff] at leftEntry
    rw [indexOf, rotated.cell (d + 1) inRing, Option.map_eq_some_iff] at rightEntry
    obtain ⟨older, olderCell, rfl⟩ := leftEntry
    obtain ⟨newer, newerCell, rfl⟩ := rightEntry
    exact Nat.le_of_lt (order.rises d bound older newer olderCell newerCell)

/-- The scan finds the first sector of the content, unless it is the only one and the scan takes
its index for none. -/
theorem Rotated.oldest_eq (rotated : Rotated ring start cells turned)
    (order : InRingOrder ring cells count) (found : start = 0 ∧ 0 < count ∨ 1 < count) :
    oldestSector (indexOf turned) ring.sectors = start := by
  have countLe := order.count_le
  obtain ⟨first, firstCell⟩ := Option.isSome_iff_exists.mp (order.used 0 (by omega))
  have firstTurned := rotated.cell 0 (by omega)
  rw [ring.ahead_zero rotated.start_lt, firstCell] at firstTurned
  rcases oldestSector_spec (indexOf turned) ring.sectors with
    ⟨zero, masked⟩ | ⟨index, inRing, entry, -, least⟩
  · rcases found with ⟨atZero, _⟩ | several
    · rw [zero, atZero]
    · obtain ⟨second, secondCell⟩ := Option.isSome_iff_exists.mp (order.used 1 several)
      have rises := order.rises 0 several first second firstCell secondCell
      have large := masked start rotated.start_lt first.index (by simp [indexOf, firstTurned])
      have small := second.index_lt
      simp only [rbIndexMask] at large
      omega
  · obtain ⟨d, bound, place⟩ := ring.exists_ahead rotated.start_lt inRing
    have cell := rotated.cell d bound
    rw [place] at cell
    rw [indexOf, cell, Option.map_eq_some_iff] at entry
    obtain ⟨sector, sectorCell, rfl⟩ := entry
    have lowest := (least start rotated.start_lt first.index (by simp [indexOf, firstTurned])).1
    cases d with
    | zero => rw [← place, ring.ahead_zero rotated.start_lt]
    | succ d =>
        have inUse : d + 1 < count := by
          by_contra above
          rw [order.blank (d + 1) bound (by omega)] at sectorCell
          cases sectorCell
        have := order.indices_lt (Nat.zero_lt_succ d) inUse firstCell sectorCell
        omega

/-- What the scan behind the ring asks of the rotated content. -/
theorem Rotated.behindPasses_iff (rotated : Rotated ring start cells turned)
    (order : InRingOrder ring cells ring.sectors) (away : 0 < start) :
    BehindPasses memory ring (indexOf turned) ↔ BehindFits memory ring turned start := by
  have ordered := rotated.orderedFrom order
  have start_lt := rotated.start_lt
  have oldest := rotated.oldest_eq order (.inr (by omega))
  have used : ∀ j, 1 ≤ j → j < 1 + (start - 1) → (indexOf turned j).isSome := by
    intro j _ above
    obtain ⟨d, bound, place⟩ := ring.exists_ahead start_lt (k := j) (by omega)
    exact place ▸ ordered.used d bound
  have rises : ∀ j, 1 ≤ j → j + 1 < 1 + (start - 1) → ∀ left right,
      indexOf turned j = some left → indexOf turned (j + 1) = some right → left ≤ right := by
    intro j _ above left right leftEntry rightEntry
    have place : ring.ahead start (j + ring.sectors - start) = j := by
      rw [Geometry.ahead, if_neg (by omega)]
      omega
    have next : ring.ahead start (j + ring.sectors - start + 1) = j + 1 := by
      rw [Geometry.ahead, if_neg (by omega)]
      omega
    exact ordered.rises (j + ring.sectors - start) (by omega) left right (place.symm ▸ leftEntry)
      (next.symm ▸ rightEntry)
  have scan : ascends (indexOf turned) (start - 1) 1 (sectorWord memory ring.behind).getIndex
        = true ↔
      (1 < start → ∀ second, turned 1 = some second →
        (sectorWord memory ring.behind).getIndex ≤ second.index) := by
    rw [ascends_iff used]
    constructor
    · rintro ⟨first, -⟩ several second cell
      exact first second.index (by omega) (by simp [indexOf, cell])
    · intro first
      refine ⟨fun index several entry => ?_, rises⟩
      rw [indexOf, Option.map_eq_some_iff] at entry
      obtain ⟨second, cell, rfl⟩ := entry
      exact first (by omega) second cell
  have last : (∀ index, indexOf turned (ring.sectors - 1) = some index →
        index ≤ (sectorWord memory ring.behind).getIndex) ↔
      ∀ sector, turned (ring.sectors - 1) = some sector →
        sector.index ≤ (sectorWord memory ring.behind).getIndex := by
    simp only [indexOf, Option.map_eq_some_iff]
    constructor
    · exact fun all sector cell => all _ ⟨sector, cell, rfl⟩
    · rintro all _ ⟨sector, cell, rfl⟩
      exact all sector cell
  rw [BehindPasses, BehindFits, oldest, scan, last]

variable (block) in
/-- The check of a rotated content. -/
theorem Rotated.check (rotated : Rotated ring start cells turned)
    (order : InRingOrder ring cells count) (holds : RingHolds memory ring turned) :
    ∃ status checked, OnRing checked ring ∧
      checked.sectorIndex =
        topIndex (indexOf turned) (List.range ring.sectors) block.sectorIndex ∧
      (rbCheckSectorRing (opened block ring)).Exec ring.extended memory [] (status, checked) ∧
      (status = .ok ∨ status = .badHdr) ∧
      (status = .ok ↔ count = ring.sectors → 0 < start → BehindFits memory ring turned start) := by
  have headers := holds.carries.headersAre
  have on := onRing_opened block ring
  have ordered := rotated.orderedFrom order
  rcases Nat.lt_or_eq_of_le order.count_le with short | rfl
  · obtain ⟨checked, on', top, exec⟩ := rbCheckSectorRing_blank_exec on headers
      ⟨_, ring.ahead_lt rotated.start_lt order.count_le,
        ordered.blank count short (Nat.le_refl _)⟩
    exact ⟨.ok, checked, on', top, exec.mono fun _ inside => .inl inside, .inl rfl,
      iff_of_true rfl fun full => absurd full (Nat.ne_of_lt short)⟩
  have used : ∀ k < ring.sectors, (indexOf turned k).isSome := by
    intro k inRing
    obtain ⟨d, bound, place⟩ := ring.exists_ahead rotated.start_lt inRing
    exact place ▸ ordered.used d bound
  have oldest := rotated.oldest_eq order (by have := rotated.start_lt; omega)
  have rises := WellOrdered.tail ⟨start, ring.sectors, ordered⟩ (by
    intro k _ index entry
    rw [indexOf, Option.map_eq_some_iff] at entry
    obtain ⟨sector, -, rfl⟩ := entry
    have := sector.index_lt
    simp only [rbIndexMask]
    omega) used
  rcases Nat.eq_zero_or_pos start with rfl | away
  · rw [oldest, Nat.sub_zero] at rises
    obtain ⟨checked, on', top, exec⟩ := rbCheckSectorRing_first_exec on headers used oldest rises
    exact ⟨.ok, checked, on', top, exec.mono fun _ inside => .inl inside, .inl rfl,
      iff_of_true rfl fun _ impossible => absurd impossible (Nat.lt_irrefl 0)⟩
  · obtain ⟨checked, top, exec⟩ :=
      rbCheckSectorRing_around on headers used (oldest.symm ▸ away) rises
    have same := ((FlashProg.Quiet.of_completes (fun _ => rbCheckSectorRing_quiet _)
      exec.completes).2).1
    refine ⟨_, checked, same.onRing on, top, exec, ?_, ?_⟩
    · split
      · exact .inl rfl
      · exact .inr rfl
    · rw [← rotated.behindPasses_iff order away]
      split
      · exact iff_of_true rfl fun _ _ => ‹_›
      · exact iff_of_false (by decide) fun fits => absurd (fits rfl away) ‹_›

variable (block) in
/-- Opening a rotated content that passes the check. -/
theorem Rotated.create_good (rotated : Rotated ring start cells turned)
    (order : InRingOrder ring cells count) (holds : RingHolds memory ring turned)
    (opens : Opens ring baseAddress numberOfSectors) (keeps : choice ≠ .createInitAlways)
    (fits : count = ring.sectors → 0 < start → BehindFits memory ring turned start) :
    ∃ rb, OnRing rb ring ∧ rb.next = 4096 * oldestSector (indexOf turned) ring.sectors ∧
      rb.sectorIndex = topIndex (indexOf turned) (List.range ring.sectors).reverse
        (topIndex (indexOf turned) (List.range ring.sectors) block.sectorIndex) ∧
      (rbCreate block baseAddress numberOfSectors choice).Exec ring.extended memory []
        (entryStatus (indexOf turned 0), rb) := by
  obtain ⟨status, checked, on, top, check, -, passes⟩ := rotated.check block order holds
  obtain rfl := passes.mpr fits
  have created := rbCreate_check_exec choice opens keeps holds.carries.headersAre
    (fun _ inside => .inl inside) on check
  rwa [top] at created

variable (block) in
/-- Opening one that fails it. -/
theorem Rotated.create_bad (rotated : Rotated ring start cells turned)
    (order : InRingOrder ring cells count) (holds : RingHolds memory ring turned)
    (opens : Opens ring baseAddress numberOfSectors) (keeps : choice ≠ .createInitAlways)
    (fails : ¬(count = ring.sectors → 0 < start → BehindFits memory ring turned start)) :
    ∃ rb, (rbCreate block baseAddress numberOfSectors choice).Exec ring.extended memory []
      (.badHdr, rb) := by
  obtain ⟨status, checked, -, -, check, known, passes⟩ := rotated.check block order holds
  obtain rfl := known.resolve_left fun ok => fails (passes.mp ok)
  exact ⟨_, rbCreate_bad_exec opens keeps (by decide) check⟩

variable (block) in
/-- What opening a rotated content returns. -/
theorem Rotated.create (rotated : Rotated ring start cells turned)
    (order : InRingOrder ring cells count) (holds : RingHolds memory ring turned)
    (opens : Opens ring baseAddress numberOfSectors) (keeps : choice ≠ .createInitAlways)
    (stored : 0 < count) :
    ∃ status rb, (rbCreate block baseAddress numberOfSectors choice).Exec ring.extended memory []
        (status, rb) ∧
      (status = .ok ↔ (turned 0).isSome ∧
        (count = ring.sectors → 0 < start → BehindFits memory ring turned start)) ∧
      (status = .ok → OnRing rb ring ∧ rb.next = 4096 * start) := by
  by_cases fits : count = ring.sectors → 0 < start → BehindFits memory ring turned start
  · obtain ⟨rb, on, next, -, exec⟩ := rotated.create_good block order holds opens keeps fits
    refine ⟨_, rb, exec, ?_, fun ok => ⟨on, ?_⟩⟩
    · rw [indexOf]
      cases turned 0 with
      | none => exact iff_of_false (by simp [entryStatus]) fun both => by simp at both
      | some sector => exact iff_of_true rfl ⟨rfl, fits⟩
    · -- sector 0 is in use, so it is the only sector of the content or not its first one
      obtain ⟨d, bound, place⟩ := ring.exists_ahead rotated.start_lt ring.sectors_pos
      have cell := rotated.cell d bound
      rw [place] at cell
      have inUse : d < count := by
        by_contra above
        rw [indexOf, cell, order.blank d bound (by omega)] at ok
        cases ok
      rw [next, rotated.oldest_eq order]
      cases d with
      | zero =>
          rw [ring.ahead_zero rotated.start_lt] at place
          exact .inl ⟨place, stored⟩
      | succ d => exact .inr (by omega)
  · obtain ⟨rb, exec⟩ := rotated.create_bad block order holds opens keeps fits
    refine ⟨_, rb, exec, ?_, fun impossible => by cases impossible⟩
    exact iff_of_false (by decide) fun both => fits both.2

variable (block) in
/-- Opening an erased ring. -/
theorem rbCreate_erased (holds : RingHolds memory ring cells)
    (erased : ∀ k < ring.sectors, cells k = none)
    (opens : Opens ring baseAddress numberOfSectors) (keeps : choice ≠ .createInitAlways) :
    ∃ rb, (rbCreate block baseAddress numberOfSectors choice).Exec ring.extended memory []
        (.blankHdr, rb) ∧ OnRing rb ring ∧ rb.next = 4096 * 0 := by
  have order : InRingOrder ring cells 0 :=
    ⟨Nat.zero_le _, fun _ impossible => absurd impossible (Nat.not_lt_zero _),
      fun k inRing _ => erased k inRing, fun _ impossible => absurd impossible (by omega)⟩
  have rotated : Rotated ring 0 cells cells :=
    ⟨ring.sectors_pos, fun k inRing => by rw [Geometry.ahead, if_pos (by omega), Nat.zero_add]⟩
  obtain ⟨rb, on, next, -, exec⟩ := rotated.create_good block order holds opens keeps
    fun none => absurd none (Nat.ne_of_lt ring.sectors_pos)
  rw [indexOf, erased 0 ring.sectors_pos] at exec
  refine ⟨rb, exec, on, ?_⟩
  rcases oldestSector_spec (indexOf cells) ring.sectors with ⟨zero, _⟩ | ⟨_, inRing, entry, _⟩
  · rw [next, zero]
  · rw [indexOf, erased _ inRing] at entry
    cases entry

end Opening

/-- Opening a rotation of a content is like opening the content itself if and only if nothing is
stored, or sector 0 is in use and the word behind a full ring does not disturb the check. -/
theorem opening_same_iff {ring : Geometry} {memory turnedMemory : Memory}
    {cells turned : Nat → Option Sector} {start count : Nat} (block : RbT)
    {baseAddress numberOfSectors : Nat} {choice : InitChoice}
    (order : InRingOrder ring cells count) (rotated : Rotated ring start cells turned)
    (holds : RingHolds memory ring cells) (turnedHolds : RingHolds turnedMemory ring turned)
    (opens : Opens ring baseAddress numberOfSectors) (keeps : choice ≠ .createInitAlways) :
    SameOpening ring memory turnedMemory cells turned block baseAddress numberOfSectors choice ↔
      count = 0 ∨ ((turned 0).isSome ∧
        (count = ring.sectors → 0 < start → BehindFits turnedMemory ring turned start)) := by
  have unturned : Rotated ring 0 cells cells :=
    ⟨ring.sectors_pos, fun k inRing => by rw [Geometry.ahead, if_pos (by omega), Nat.zero_add]⟩
  rcases Nat.eq_zero_or_pos count with rfl | stored
  · refine iff_of_true ?_ (.inl rfl)
    have erased : ∀ k < ring.sectors, cells k = none :=
      fun k inRing => order.blank k inRing (Nat.zero_le _)
    have turnedErased : ∀ k < ring.sectors, turned k = none := by
      intro k inRing
      obtain ⟨d, bound, rfl⟩ := ring.exists_ahead rotated.start_lt inRing
      rw [rotated.cell d bound, erased d bound]
    obtain ⟨rb, exec, on, next⟩ := rbCreate_erased block holds erased opens keeps
    obtain ⟨turnedRb, turnedExec, turnedOn, turnedNext⟩ :=
      rbCreate_erased block turnedHolds turnedErased opens keeps
    have same : Rotated ring 0 cells turned := ⟨ring.sectors_pos, fun k inRing => by
      rw [Geometry.ahead, if_pos (by omega), Nat.zero_add, erased k inRing,
        turnedErased k inRing]⟩
    refine ⟨_, rb, turnedRb, 0, 0, exec, turnedExec, next, turnedNext, fun d bound => ?_,
      fun calls => ?_, fun _ => erased⟩
    · have inRing := ring.ahead_lt ring.sectors_pos (Nat.le_of_lt bound)
      rw [erased _ inRing, turnedErased _ inRing]
    · refine ReadSequence.turn holds turnedHolds same calls on turnedOn ?_ ?_
      · rw [next]
        exact Cursor.start ring.sectors_pos
      · rw [next, turnedNext, ring.turn_start, ring.ahead_zero ring.sectors_pos]
  obtain ⟨status, rb, exec, good, cursor⟩ :=
    unturned.create block order holds opens keeps stored
  obtain ⟨turnedStatus, turnedRb, turnedExec, turnedGood, turnedCursor⟩ :=
    rotated.create block order turnedHolds opens keeps stored
  obtain rfl := good.mpr ⟨order.used 0 stored,
    fun _ impossible => absurd impossible (Nat.lt_irrefl 0)⟩
  constructor
  · rintro ⟨other, left, right, -, -, leftExec, rightExec, -⟩
    have leftSame := congrArg Prod.fst (leftExec.unique exec).2
    have rightSame := congrArg Prod.fst (rightExec.unique turnedExec).2
    exact .inr (turnedGood.mp (rightSame.symm.trans leftSame))
  · rintro (none | fits)
    · exact absurd none (Nat.ne_of_gt stored)
    obtain rfl := turnedGood.mpr fits
    obtain ⟨on, next⟩ := cursor rfl
    obtain ⟨turnedOn, turnedNext⟩ := turnedCursor rfl
    refine ⟨_, rb, turnedRb, 0, start, exec, turnedExec, next, turnedNext, fun d bound => ?_,
      fun calls => ?_, fun blank => by cases blank⟩
    · rw [rotated.cell d bound, unturned.cell d bound]
    · refine ReadSequence.turn holds turnedHolds rotated calls on turnedOn ?_ ?_
      · rw [next]
        exact Cursor.start ring.sectors_pos
      · rw [next, turnedNext, ring.turn_start, ring.ahead_zero rotated.start_lt]

/-- A flash that carries `cells` and is erased outside of the ring. -/
def ringImage (ring : Geometry) (cells : Nat → Option Sector) : Memory := fun query =>
  ((cellImage (cells ((query - ring.base) / 4096)))[(query - ring.base) % 4096]?).getD blankByte

theorem ringHolds_image (ring : Geometry) (cells : Nat → Option Sector) :
    RingHolds (ringImage ring cells) ring cells := by
  intro k _
  rw [holds_iff]
  intro offset inBounds
  rw [cellImage_length] at inBounds
  have place : ring.sectorAddr k + offset - ring.base = 4096 * k + offset := by
    rw [Geometry.sectorAddr]
    omega
  rw [ringImage, place, show (4096 * k + offset) / 4096 = k by omega,
    show (4096 * k + offset) % 4096 = offset by omega, List.getElem?_eq_getElem (by simpa),
    Option.getD_some]

/-- One record in each of the first `count` sectors. -/
def recordCells (count k : Nat) : Option Sector :=
  if k < count then some (Sector.single (k + 1) ((zeroRequest 100 (by decide)).whole (by decide)))
  else none

theorem recordCells_order {ring : Geometry} {count : Nat} (bound : count ≤ ring.sectors) :
    InRingOrder ring (recordCells count) count where
  count_le := bound
  used k inUse := by rw [recordCells, if_pos inUse]; rfl
  blank k _ above := by rw [recordCells, if_neg (by omega)]
  rises k inUse older newer olderCell newerCell := by
    have := ring.sectors_le
    rw [recordCells, if_pos (by omega), Option.some.injEq] at olderCell
    rw [recordCells, if_pos inUse, Option.some.injEq] at newerCell
    subst olderCell newerCell
    simp only [Sector.single]
    omega

/-- The rotation of a content by `start` sectors. -/
def rotateCells (ring : Geometry) (start : Nat) (cells : Nat → Option Sector) (k : Nat) :
    Option Sector :=
  cells (if start ≤ k then k - start else k + ring.sectors - start)

theorem rotated_rotateCells {ring : Geometry} {start : Nat} (start_lt : start < ring.sectors)
    (cells : Nat → Option Sector) : Rotated ring start cells (rotateCells ring start cells) where
  start_lt := start_lt
  cell k inRing := by
    rw [rotateCells, Geometry.ahead]
    congr 1
    split <;> split <;> omega

/-- Two of four sectors in use, the first of them at the end of the ring. -/
theorem opening_same_across_end :
    SameOpening quadRing (ringImage quadRing (recordCells 2))
      (ringImage quadRing (rotateCells quadRing 3 (recordCells 2))) (recordCells 2)
      (rotateCells quadRing 3 (recordCells 2)) .zeroed quadRing.base quadRing.sectors
      .createFail :=
  (opening_same_iff .zeroed (recordCells_order (by decide)) (rotated_rotateCells (by decide) _)
    (ringHolds_image _ _) (ringHolds_image _ _) (Opens.self (by decide)) (by decide)).mpr
    (.inr ⟨rfl, fun full => by cases full⟩)

/-- With sector 0 erased and the record in sector 1 the ring is called blank. -/
theorem opening_differs_behind_blank :
    InRingOrder pairRing (recordCells 1) 1 ∧
    Rotated pairRing 1 (recordCells 1) (rotateCells pairRing 1 (recordCells 1)) ∧
    ¬SameOpening pairRing (ringImage pairRing (recordCells 1))
      (ringImage pairRing (rotateCells pairRing 1 (recordCells 1))) (recordCells 1)
      (rotateCells pairRing 1 (recordCells 1)) .zeroed pairRing.base pairRing.sectors
      .createFail := by
  refine ⟨recordCells_order (by decide), rotated_rotateCells (by decide) _, ?_⟩
  rw [opening_same_iff .zeroed (recordCells_order (by decide)) (rotated_rotateCells (by decide) _)
    (ringHolds_image _ _) (ringHolds_image _ _) (Opens.self (by decide)) (by decide)]
  rintro (stored | ⟨inUse, -⟩)
  · cases stored
  · cases inUse

end PicoApConfigure.RingBuffer
