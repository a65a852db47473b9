import PicoApConfigure.RingBuffer.Fetch

/-!
# Scanning the sector headers

`rb_find_ring_oldest_sector` and `rb_check_sector_ring` look at nothing but the
first word of every sector.  Their results are therefore functions of the array
of sector indices, whatever the rest of the flash contains.
-/

namespace PicoApConfigure.RingBuffer

open Nor

/-- Every sector header is erased or valid; `indices` lists the indices. -/
structure HeadersAre (memory : Memory) (ring : Geometry) (indices : Nat → Option Nat) :
    Prop where
  blank : ∀ k < ring.sectors, indices k = none →
    sectorStatus memory (ring.sectorAddr k) = .blankHdr
  used : ∀ k < ring.sectors, ∀ index, indices k = some index →
    sectorStatus memory (ring.sectorAddr k) = .ok ∧
      (sectorWord memory (ring.sectorAddr k)).getIndex = index

/-- Sector indices of a formed ring. -/
def indexOf (cells : Nat → Option Sector) (k : Nat) : Option Nat :=
  (cells k).map Sector.index

theorem Carries.headersAre {memory : Memory} {ring : Geometry}
    {cells : Nat → Option Sector} (carries : Carries memory ring cells) :
    HeadersAre memory ring (indexOf cells) where
  blank k inRing none := carries.sectorStatus_none inRing (by simpa [indexOf] using none)
  used k inRing index some := by
    obtain ⟨sector, cell, rfl⟩ : ∃ sector, cells k = .some sector ∧ sector.index = index := by
      simpa [indexOf] using some
    exact ⟨carries.sectorStatus_some inRing cell, carries.sectorWord_some inRing cell⟩

/-! ## Largest index -/

/-- The cached index after the headers `sectors` have been looked at. -/
def topIndex (indices : Nat → Option Nat) (sectors : List Nat) (cached : Nat) : Nat :=
  sectors.foldl (fun top k => max top ((indices k).getD 0)) cached

theorem topIndex_append (indices : Nat → Option Nat) (left right : List Nat) (cached : Nat) :
    topIndex indices (left ++ right) cached =
      topIndex indices right (topIndex indices left cached) := List.foldl_append

theorem le_topIndex (indices : Nat → Option Nat) (sectors : List Nat) (cached : Nat) :
    cached ≤ topIndex indices sectors cached := by
  induction sectors generalizing cached with
  | nil => exact Nat.le_refl _
  | cons k sectors ih => exact Nat.le_trans (Nat.le_max_left _ _) (ih _)

theorem le_topIndex_of_mem {indices : Nat → Option Nat} {sectors : List Nat} {k index : Nat}
    (cached : Nat) (member : k ∈ sectors) (used : indices k = some index) :
    index ≤ topIndex indices sectors cached := by
  induction sectors generalizing cached with
  | nil => simp at member
  | cons head sectors ih =>
      rcases List.mem_cons.mp member with rfl | tail
      · have step := le_topIndex indices sectors (max cached ((indices k).getD 0))
        have raised : index ≤ max cached ((indices k).getD 0) := by
          rw [used]
          exact Nat.le_max_right _ _
        exact Nat.le_trans raised step
      · exact ih _ tail

theorem topIndex_le {indices : Nat → Option Nat} {sectors : List Nat} {cached bound : Nat}
    (start : cached ≤ bound)
    (below : ∀ k ∈ sectors, ∀ index, indices k = some index → index ≤ bound) :
    topIndex indices sectors cached ≤ bound := by
  induction sectors generalizing cached with
  | nil => exact start
  | cons k sectors ih =>
      refine ih ?_ fun other member => below other (by simp [member])
      cases used : indices k with
      | none => simpa [used] using start
      | some index =>
          refine Nat.max_le.mpr ⟨start, ?_⟩
          rw [used]
          exact below k (by simp) index used

/-! ## `rb_find_ring_oldest_sector` -/

/-- Result of the downward scan for the sector with the lowest index. -/
def oldestScan (indices : Nat → Option Nat) : (remaining oldest lowest : Nat) → Nat
  | 0, oldest, _ => oldest
  | remaining + 1, oldest, lowest =>
      match indices remaining with
      | some index =>
          if index < lowest then oldestScan indices remaining remaining index
          else oldestScan indices remaining oldest lowest
      | none => oldestScan indices remaining oldest lowest

/-- The sector `rb_find_ring_oldest_sector` settles on. -/
def oldestSector (indices : Nat → Option Nat) (sectors : Nat) : Nat :=
  oldestScan indices sectors 0 rbIndexMask

/-- Status of an array entry. -/
def entryStatus : Option Nat → RbError
  | none => .blankHdr
  | some _ => .ok

theorem entryStatus_eq_ok_or (entry : Option Nat) :
    entryStatus entry = .ok ∨ entryStatus entry = .blankHdr := by
  cases entry <;> simp [entryStatus]

section Scans

variable {rb : RbT} {ring : Geometry} {memory : Memory} {indices : Nat → Option Nat}
  {region : Nat → Prop}

/-- Reading the sector header of sector `k`. -/
theorem readSectorWord_exec (on : OnRing rb ring)
    (inside : ∀ query, ring.region query → region query) {k : Nat}
    (inRing : k < ring.sectors) :
    (FlashProg.readBytes (rb.baseAddress + 4096 * k) 4).Exec region memory []
      (slice memory (rb.baseAddress + 4096 * k) 4) := by
  rw [on.base_eq]
  exact FlashProg.Exec.readBytes fun query touches =>
    inside query (ring.within_start inRing query touches)

theorem sectorStatus_entry (on : OnRing rb ring) (headers : HeadersAre memory ring indices)
    {k : Nat} (inRing : k < ring.sectors) :
    isSectorHeaderGood (RbSectorHeader.ofBytes (slice memory (rb.baseAddress + 4096 * k) 4)) =
      entryStatus (indices k) := by
  rw [on.base_eq]
  cases entry : indices k with
  | none => exact headers.blank k inRing entry
  | some index => exact (headers.used k inRing index entry).1

theorem sectorIndex_entry (on : OnRing rb ring) (headers : HeadersAre memory ring indices)
    {k : Nat} (inRing : k < ring.sectors) {index : Nat} (used : indices k = some index) :
    (RbSectorHeader.ofBytes (slice memory (rb.baseAddress + 4096 * k) 4)).getIndex = index := by
  rw [on.base_eq]
  exact (headers.used k inRing index used).2

/-- Raising the cached index, as both scans do it. -/
theorem raiseIndex_eq (rb : RbT) (index : Nat) :
    (if index ≥ rb.sectorIndex then { rb with sectorIndex := index } else rb) =
      { rb with sectorIndex := max rb.sectorIndex index } := by
  split
  · rw [Nat.max_eq_right (by omega)]
  · rw [Nat.max_eq_left (by omega)]

private theorem findRingOldestLoop_exec (headers : HeadersAre memory ring indices)
    (inside : ∀ query, ring.region query → region query) (remaining : Nat) :
    ∀ (rb : RbT) (oldest lowest : Nat) (status : RbError), OnRing rb ring →
      remaining ≤ ring.sectors →
      (findRingOldestLoop remaining (4096 * oldest) lowest status rb).Exec region memory []
        (if remaining = 0 then status else entryStatus (indices 0),
          { rb with
            next := 4096 * oldestScan indices remaining oldest lowest
            sectorIndex := topIndex indices (List.range remaining).reverse
              rb.sectorIndex }) := by
  induction remaining with
  | zero =>
      intro rb oldest lowest status on bound
      exact FlashProg.Exec.pure _
  | succ remaining ih =>
      intro rb oldest lowest status on bound
      have inRing : remaining < ring.sectors := by omega
      have last : (if remaining + 1 = 0 then status else entryStatus (indices 0)) =
          if remaining = 0 then entryStatus (indices remaining)
          else entryStatus (indices 0) := by
        rcases remaining with _ | remaining <;> simp
      rw [last, List.range_succ, List.reverse_append, List.reverse_singleton,
        List.singleton_append, topIndex, List.foldl_cons, ← topIndex]
      simp only [findRingOldestLoop, flashSectorSize, headerSize]
      refine FlashProg.Exec.bind_read (readSectorWord_exec on inside inRing) ?_
      rw [sectorStatus_entry on headers inRing]
      cases used : indices remaining with
      | none =>
          have step := ih { rb with next := 4096 * remaining } oldest lowest .blankHdr
            ⟨on.base_eq, on.bytes_eq⟩ (by omega)
          simpa [entryStatus, oldestScan, used] using step
      | some index =>
          have raised := raiseIndex_eq { rb with next := 4096 * remaining } index
          simp only [entryStatus, if_true, oldestScan, used,
            sectorIndex_entry on headers inRing used, Option.getD_some]
          simp only at raised
          rw [raised]
          by_cases older : index < lowest
          · simp only [older, if_true]
            exact ih { rb with
                next := 4096 * remaining
                sectorIndex := max rb.sectorIndex index }
              remaining index .ok ⟨on.base_eq, on.bytes_eq⟩ (by omega)
          · simp only [older, if_false]
            exact ih { rb with
                next := 4096 * remaining
                sectorIndex := max rb.sectorIndex index }
              oldest lowest .ok ⟨on.base_eq, on.bytes_eq⟩ (by omega)

/-- The scan for the oldest sector: its status is that of sector 0. -/
theorem rbFindRingOldestSector_exec (on : OnRing rb ring)
    (headers : HeadersAre memory ring indices)
    (inside : ∀ query, ring.region query → region query) :
    (rbFindRingOldestSector rb).Exec region memory []
      (entryStatus (indices 0),
        { rb with
          next := 4096 * oldestSector indices ring.sectors
          sectorIndex := topIndex indices (List.range ring.sectors).reverse
            rb.sectorIndex }) := by
  have sectors : rb.numberOfBytes / flashSectorSize = ring.sectors := by
    rw [on.bytes_eq, flashSectorSize]
    omega
  have loop := findRingOldestLoop_exec headers inside ring.sectors rb 0 rbIndexMask
    .badHdr on (Nat.le_refl _)
  rw [if_neg (by have := ring.sectors_pos; omega)] at loop
  rw [rbFindRingOldestSector, sectors]
  exact loop

end Scans

/-- The scan finds the last sector with the lowest index; without any index below the mask
it stays at sector 0. -/
theorem oldestSector_spec (indices : Nat → Option Nat) (sectors : Nat) :
    (oldestSector indices sectors = 0 ∧
      ∀ k < sectors, ∀ index, indices k = some index → rbIndexMask ≤ index) ∨
    ∃ index, oldestSector indices sectors < sectors ∧
      indices (oldestSector indices sectors) = some index ∧ index < rbIndexMask ∧
      ∀ k < sectors, ∀ other, indices k = some other →
        index ≤ other ∧ (oldestSector indices sectors < k → index < other) := by
  have scan : ∀ remaining oldest lowest,
      (oldestScan indices remaining oldest lowest = oldest ∧
        ∀ k < remaining, ∀ index, indices k = some index → lowest ≤ index) ∨
      ∃ index, oldestScan indices remaining oldest lowest < remaining ∧
        indices (oldestScan indices remaining oldest lowest) = some index ∧
        index < lowest ∧
        ∀ k < remaining, ∀ other, indices k = some other →
          index ≤ other ∧ (oldestScan indices remaining oldest lowest < k → index < other) := by
    intro remaining
    induction remaining with
    | zero => intro oldest lowest; left; simp [oldestScan]
    | succ remaining ih =>
        intro oldest lowest
        simp only [oldestScan]
        cases used : indices remaining with
        | none =>
            simp only
            rcases ih oldest lowest with ⟨equal, above⟩ | ⟨index, lt, found, low, above⟩
            · left
              refine ⟨equal, fun k bound other some => ?_⟩
              rcases Nat.lt_succ_iff_lt_or_eq.mp bound with lt | rfl
              · exact above k lt other some
              · rw [used] at some; cases some
            · right
              refine ⟨index, by omega, found, low, fun k bound other some => ?_⟩
              rcases Nat.lt_succ_iff_lt_or_eq.mp bound with lt | rfl
              · exact above k lt other some
              · rw [used] at some; cases some
        | some current =>
            simp only
            by_cases older : current < lowest
            · rw [if_pos older]
              right
              rcases ih remaining current with
                ⟨equal, above⟩ | ⟨index, lt, found, low, above⟩
              · rw [equal]
                refine ⟨current, by omega, used, older, fun k bound other some => ?_⟩
                rcases Nat.lt_succ_iff_lt_or_eq.mp bound with lt | rfl
                · exact ⟨above k lt other some, fun later => absurd later (by omega)⟩
                · rw [used] at some; cases some; exact ⟨Nat.le_refl _, fun later => by omega⟩
              · refine ⟨index, by omega, found, by omega, fun k bound other some => ?_⟩
                rcases Nat.lt_succ_iff_lt_or_eq.mp bound with lt | rfl
                · exact above k lt other some
                · rw [used] at some; cases some; exact ⟨by omega, fun _ => low⟩
            · rw [if_neg older]
              rcases ih oldest lowest with ⟨equal, above⟩ | ⟨index, lt, found, low, above⟩
              · left
                refine ⟨equal, fun k bound other some => ?_⟩
                rcases Nat.lt_succ_iff_lt_or_eq.mp bound with lt | rfl
                · exact above k lt other some
                · rw [used] at some; cases some; omega
              · right
                refine ⟨index, by omega, found, low, fun k bound other some => ?_⟩
                rcases Nat.lt_succ_iff_lt_or_eq.mp bound with lt | rfl
                · exact above k lt other some
                · rw [used] at some; cases some; exact ⟨by omega, fun _ => by omega⟩
  exact scan sectors 0 rbIndexMask

theorem oldestSector_lt (indices : Nat → Option Nat) {sectors : Nat} (positive : 0 < sectors) :
    oldestSector indices sectors < sectors := by
  rcases oldestSector_spec indices sectors with ⟨zero, _⟩ | ⟨_, lt, _⟩
  · omega
  · exact lt

/-! ## `rb_check_sector_ring` -/

/-- Number of blank sectors and offset of the last one, after `scanned` sectors. -/
def blankScan (indices : Nat → Option Nat) : (scanned : Nat) → Nat × Nat
  | 0 => (0, 0)
  | scanned + 1 =>
      match indices scanned with
      | none => ((blankScan indices scanned).1 + 1, 4096 * scanned)
      | some _ => blankScan indices scanned

theorem blankScan_none {indices : Nat → Option Nat} {scanned : Nat}
    (allUsed : ∀ k < scanned, (indices k).isSome) : blankScan indices scanned = (0, 0) := by
  induction scanned with
  | zero => rfl
  | succ scanned ih =>
      obtain ⟨index, used⟩ := Option.isSome_iff_exists.mp (allUsed scanned (by omega))
      rw [blankScan, used]
      exact ih fun k bound => allUsed k (by omega)

theorem blankScan_some {indices : Nat → Option Nat} {scanned : Nat}
    (blank : ∃ k < scanned, indices k = none) :
    0 < (blankScan indices scanned).1 ∧
      ∃ k < scanned, indices k = none ∧ (blankScan indices scanned).2 = 4096 * k := by
  induction scanned with
  | zero => obtain ⟨k, bound, _⟩ := blank; omega
  | succ scanned ih =>
      rw [blankScan]
      cases used : indices scanned with
      | none => exact ⟨Nat.succ_pos _, scanned, by omega, used, rfl⟩
      | some index =>
          obtain ⟨k, bound, none⟩ := blank
          have earlier : k < scanned := by
            rcases Nat.lt_succ_iff_lt_or_eq.mp bound with lt | rfl
            · exact lt
            · rw [used] at none; cases none
          obtain ⟨counted, last, lastBound, rest⟩ := ih ⟨k, earlier, none⟩
          exact ⟨counted, last, by omega, rest⟩

section CheckRing

variable {ring : Geometry} {memory : Memory} {indices : Nat → Option Nat}
  {region : Nat → Prop}

private theorem checkHeadersLoop_exec (headers : HeadersAre memory ring indices)
    (inside : ∀ query, ring.region query → region query) (remaining : Nat) :
    ∀ (scanned : Nat) (rb : RbT), OnRing rb ring → scanned + remaining = ring.sectors →
      ∃ rb', OnRing rb' ring ∧ rb'.sectorIndex =
          topIndex indices (List.range' scanned remaining) rb.sectorIndex ∧
        (checkHeadersLoop remaining (4096 * scanned) (blankScan indices scanned).1
          (blankScan indices scanned).2 .ok rb).Exec region memory []
          ((blankScan indices ring.sectors).1, (blankScan indices ring.sectors).2, .ok,
            rb') := by
  induction remaining with
  | zero =>
      intro scanned rb on total
      obtain rfl : scanned = ring.sectors := by omega
      exact ⟨rb, on, rfl, FlashProg.Exec.pure _⟩
  | succ remaining ih =>
      intro scanned rb on total
      have inRing : scanned < ring.sectors := by omega
      have following : 4096 * scanned + 4096 = 4096 * (scanned + 1) := by omega
      cases used : indices scanned with
      | none =>
          obtain ⟨rb', on', top, exec⟩ := ih (scanned + 1)
            { rb with next := 4096 * scanned } ⟨on.base_eq, on.bytes_eq⟩ (by omega)
          refine ⟨rb', on', ?_, ?_⟩
          · rw [top, List.range'_succ, topIndex, topIndex, List.foldl_cons, used]
            simp
          · simp only [checkHeadersLoop, flashSectorSize, headerSize]
            refine FlashProg.Exec.bind_read (readSectorWord_exec on inside inRing) ?_
            rw [sectorStatus_entry on headers inRing, used]
            rw [blankScan, used, ← following] at exec
            exact exec
      | some index =>
          obtain ⟨rb', on', top, exec⟩ := ih (scanned + 1)
            { rb with
              next := 4096 * scanned
              sectorIndex := max rb.sectorIndex index }
            ⟨on.base_eq, on.bytes_eq⟩ (by omega)
          refine ⟨rb', on', ?_, ?_⟩
          · rw [top, List.range'_succ, topIndex, topIndex, List.foldl_cons, used]
            rfl
          · have raised := raiseIndex_eq { rb with next := 4096 * scanned } index
            simp only at raised
            simp only [checkHeadersLoop, flashSectorSize, headerSize]
            refine FlashProg.Exec.bind_read (readSectorWord_exec on inside inRing) ?_
            simp only [sectorStatus_entry on headers inRing, used, entryStatus, if_true,
              sectorIndex_entry on headers inRing used]
            rw [raised]
            rw [blankScan, used, ← following] at exec
            exact exec

/-- The offset the order scan looks at, inside the ring. -/
theorem orderOffset (on : OnRing rb ring) {k : Nat} (start : Nat) {i : Nat}
    (inRing : k ≤ ring.sectors) (place : i + 4096 * start = 4096 * k) :
    (if i + 4096 * start > rb.numberOfBytes then i + 4096 * start - rb.numberOfBytes
      else i + 4096 * start) = 4096 * k := by
  rw [on.bytes_eq, place, if_neg]
  have := Nat.mul_le_mul_left 4096 inRing
  omega

/-- The indices do not decrease over `remaining` used sectors from `k` on. -/
def ascends (indices : Nat → Option Nat) : (remaining k low : Nat) → Bool
  | 0, _, _ => true
  | remaining + 1, k, low =>
      match indices k with
      | some index => low ≤ index && ascends indices remaining (k + 1) index
      | none => true

variable (region) in
/-- The order scan from sector `k` to the last sector of the ring; what it does
behind that sector is left to `behind`. -/
private theorem checkOrderLoop_exec (headers : HeadersAre memory ring indices)
    (inside : ∀ query, ring.region query → region query) (start : Nat) (further : Nat)
    (distance : Nat) :
    ∀ (i k low : Nat) (rb : RbT), OnRing rb ring → k + distance = ring.sectors →
      i + 4096 * start = 4096 * k → (∀ j < ring.sectors, (indices j).isSome) →
      (ascends indices distance k low = false →
        ∃ next, (checkOrderLoop (4096 * start) (distance + further) i low rb).Exec
          region memory [] (.badHdr, { rb with next })) ∧
      (ascends indices distance k low = true → ∀ status : RbError,
        (∀ last rb', OnRing rb' ring →
          (if distance = 0 then last = low else indices (ring.sectors - 1) = some last) →
          ∃ next, (checkOrderLoop (4096 * start) further (i + 4096 * distance) last
            rb').Exec region memory [] (status, { rb' with next })) →
        ∃ next, (checkOrderLoop (4096 * start) (distance + further) i low rb).Exec
          region memory [] (status, { rb with next })) := by
  induction distance with
  | zero =>
      intro i k low rb on total place used
      refine ⟨fun no => by simp [ascends] at no, fun _ status behind => ?_⟩
      obtain ⟨next, exec⟩ := behind low rb on (by simp)
      exact ⟨next, by simpa using exec⟩
  | succ distance ih =>
      intro i k low rb on total place used
      have inRing : k < ring.sectors := by omega
      obtain ⟨index, entry⟩ := Option.isSome_iff_exists.mp (used k inRing)
      have on' : OnRing { rb with next := 4096 * k } ring := ⟨on.base_eq, on.bytes_eq⟩
      obtain ⟨descends, climbs⟩ := ih (i + 4096) (k + 1) index
        { rb with next := 4096 * k } on' (by omega) (by omega) used
      have unroll : distance + 1 + further = (distance + further) + 1 := by omega
      have word := @readSectorWord_exec _ _ memory _ on' inside _ inRing
      have valid := sectorStatus_entry on' headers inRing
      have value := sectorIndex_entry on' headers inRing entry
      have offset := orderOffset on _ (Nat.le_of_lt inRing) place
      rw [entry, entryStatus] at valid
      rw [ascends, entry, unroll]
      simp only [checkOrderLoop, flashSectorSize, headerSize, offset]
      simp only at word valid value
      constructor
      · intro falls
        by_cases low_le : low ≤ index
        · obtain ⟨next, exec⟩ := descends (by simpa [low_le] using falls)
          refine ⟨next, FlashProg.Exec.bind_read word ?_⟩
          rw [valid, value, if_pos rfl, if_neg (by omega)]
          exact exec
        · refine ⟨4096 * k, FlashProg.Exec.bind_read word ?_⟩
          rw [valid, value, if_pos rfl, if_pos (by omega)]
          exact FlashProg.Exec.pure _
      · intro rises status behind
        have low_le : low ≤ index := by
          simp only [Bool.and_eq_true, decide_eq_true_eq] at rises
          exact rises.1
        obtain ⟨next, exec⟩ := climbs (by simpa [low_le] using rises) status (by
          intro last rb' on' top
          have reached : i + 4096 + 4096 * distance = i + 4096 * (distance + 1) := by omega
          rw [reached]
          apply behind last rb' on'
          rw [if_neg (by omega)]
          split at top
          · subst top
            have final : ring.sectors - 1 = k := by omega
            rw [final, entry]
          · exact top)
        refine ⟨next, FlashProg.Exec.bind_read word ?_⟩
        rw [valid, value, if_pos rfl, if_neg (by omega)]
        exact exec

/-- The ring address right behind the last sector. -/
def Geometry.behind (ring : Geometry) : Nat := ring.base + 4096 * ring.sectors

/-- Addresses the order scan can reach: the ring and the word behind it. -/
def Geometry.extended (ring : Geometry) (query : Nat) : Prop :=
  ring.region query ∨ (ring.behind ≤ query ∧ query < ring.behind + 4)

/-- With a blank sector the check stops at the last one. -/
theorem rbCheckSectorRing_blank_exec {rb : RbT} (on : OnRing rb ring)
    (headers : HeadersAre memory ring indices)
    (blank : ∃ k < ring.sectors, indices k = none) :
    ∃ rb', OnRing rb' ring ∧ rb'.sectorIndex =
        topIndex indices (List.range ring.sectors) rb.sectorIndex ∧
      (rbCheckSectorRing rb).Exec ring.region memory [] (.ok, rb') := by
  have sectors : rb.numberOfBytes / 4096 = ring.sectors := by rw [on.bytes_eq]; omega
  obtain ⟨rb', on', top, loop⟩ := checkHeadersLoop_exec headers (fun _ inside => inside)
    ring.sectors 0 rb on (by omega)
  obtain ⟨counted, k, inRing, none, last⟩ := blankScan_some blank
  have offset := orderOffset on' (k := k) (i := 0) k (Nat.le_of_lt inRing) (by omega)
  rw [Nat.zero_add] at offset
  have on'' : OnRing { rb' with next := 4096 * k } ring := ⟨on'.base_eq, on'.bytes_eq⟩
  refine ⟨{ rb' with next := 4096 * k }, on'', ?_, ?_⟩
  · rw [List.range_eq_range']
    exact top
  · simp only [rbCheckSectorRing, flashSectorSize, sectors]
    refine FlashProg.Exec.bind_read loop ?_
    simp only [last]
    rw [if_neg (by omega)]
    refine FlashProg.Exec.bind_read (FlashProg.Exec.pure _) ?_
    rw [if_true]
    obtain ⟨previous, rest⟩ : ∃ previous, ring.sectors = previous + 1 :=
      ⟨ring.sectors - 1, by omega⟩
    rw [rest]
    simp only [checkOrderLoop, headerSize, flashSectorSize, Nat.zero_add, offset]
    refine FlashProg.Exec.bind_read (readSectorWord_exec on'' (fun _ inside => inside) inRing) ?_
    rw [sectorStatus_entry on'' headers inRing, none, if_neg (by simp [entryStatus])]
    exact FlashProg.Exec.pure _

variable (region) in
/-- In a ring without blank sector the check goes through the order scan, which starts
at the oldest sector. -/
private theorem rbCheckSectorRing_full_exec {rb : RbT} (on : OnRing rb ring)
    (headers : HeadersAre memory ring indices)
    (inside : ∀ query, ring.region query → region query)
    (used : ∀ k < ring.sectors, (indices k).isSome) :
    ∃ rb', OnRing rb' ring ∧ rb'.sectorIndex = topIndex indices
        (List.range ring.sectors ++ (List.range ring.sectors).reverse) rb.sectorIndex ∧
      ∀ value, (checkOrderLoop (4096 * oldestSector indices ring.sectors) ring.sectors 0 0
          rb').Exec region memory [] value →
        (rbCheckSectorRing rb).Exec region memory [] value := by
  have sectors : rb.numberOfBytes / 4096 = ring.sectors := by rw [on.bytes_eq]; omega
  obtain ⟨rb', on', top, loop⟩ := checkHeadersLoop_exec headers inside ring.sectors 0 rb on
    (by omega)
  have none := blankScan_none used
  have oldest := rbFindRingOldestSector_exec on' headers inside
  refine ⟨{ rb' with
    next := 4096 * oldestSector indices ring.sectors
    sectorIndex := topIndex indices (List.range ring.sectors).reverse rb'.sectorIndex },
    ⟨on'.base_eq, on'.bytes_eq⟩, ?_, ?_⟩
  · rw [topIndex_append, List.range_eq_range', ← top]
  · intro value order
    simp only [rbCheckSectorRing, flashSectorSize, sectors]
    refine FlashProg.Exec.bind_read loop ?_
    simp only [none, if_true]
    exact FlashProg.Exec.bind_read oldest order

/-- The cached index after `rb_check_sector_ring`. -/
theorem topIndex_twice (indices : Nat → Option Nat) (sectors cached : Nat) :
    topIndex indices (List.range sectors ++ (List.range sectors).reverse) cached =
      topIndex indices (List.range sectors) cached := by
  rw [topIndex_append]
  apply Nat.le_antisymm
  · apply topIndex_le (Nat.le_refl _)
    intro k member index entry
    exact le_topIndex_of_mem _ (List.mem_reverse.mp member) entry
  · exact le_topIndex _ _ _

/-- A used sector that is out of order is noticed before the ring end. -/
theorem rbCheckSectorRing_descends_exec {rb : RbT} (on : OnRing rb ring)
    (headers : HeadersAre memory ring indices)
    (used : ∀ k < ring.sectors, (indices k).isSome)
    (falls : ascends indices (ring.sectors - oldestSector indices ring.sectors)
      (oldestSector indices ring.sectors) 0 = false) :
    ∃ rb', OnRing rb' ring ∧
      rb'.sectorIndex = topIndex indices (List.range ring.sectors) rb.sectorIndex ∧
      (rbCheckSectorRing rb).Exec ring.region memory [] (.badHdr, rb') := by
  have bound := oldestSector_lt indices ring.sectors_pos
  obtain ⟨rb', on', top, check⟩ := rbCheckSectorRing_full_exec _ on headers
    (fun _ inside => inside) used
  obtain ⟨next, order⟩ := (checkOrderLoop_exec
    _ headers (fun _ inside => inside)
    (oldestSector indices ring.sectors) _ (ring.sectors - oldestSector indices ring.sectors) 0
    (oldestSector indices ring.sectors)
    0 rb' on' (by omega) (by omega) used).1 falls
  rw [Nat.sub_add_cancel (Nat.le_of_lt bound)] at order
  rw [topIndex_twice] at top
  exact ⟨{ rb' with next }, ⟨on'.base_eq, on'.bytes_eq⟩, top, check _ order⟩

/-- Ascending sectors that start with sector 0 pass the check. -/
theorem rbCheckSectorRing_first_exec {rb : RbT} (on : OnRing rb ring)
    (headers : HeadersAre memory ring indices)
    (used : ∀ k < ring.sectors, (indices k).isSome)
    (first : oldestSector indices ring.sectors = 0)
    (rises : ascends indices ring.sectors 0 0 = true) :
    ∃ rb', OnRing rb' ring ∧
      rb'.sectorIndex = topIndex indices (List.range ring.sectors) rb.sectorIndex ∧
      (rbCheckSectorRing rb).Exec ring.region memory [] (.ok, rb') := by
  obtain ⟨rb', on', top, check⟩ := rbCheckSectorRing_full_exec _ on headers
    (fun _ inside => inside) used
  obtain ⟨next, order⟩ := (checkOrderLoop_exec _ headers
    (fun _ inside => inside) 0 0 ring.sectors 0 0 0 rb' on' (by omega) (by omega) used).2 rises .ok
    (by
      intro last rb'' _ _
      exact ⟨rb''.next, FlashProg.Exec.pure _⟩)
  rw [first] at check
  rw [topIndex_twice] at top
  exact ⟨{ rb' with next }, ⟨on'.base_eq, on'.bytes_eq⟩, top, check _ order⟩

/-- Behind ascending sectors that start elsewhere the check goes on with the word behind
the ring. -/
theorem rbCheckSectorRing_wraps_exec {rb : RbT} (on : OnRing rb ring)
    (headers : HeadersAre memory ring indices)
    (used : ∀ k < ring.sectors, (indices k).isSome)
    (rises : ascends indices (ring.sectors - oldestSector indices ring.sectors)
      (oldestSector indices ring.sectors) 0 = true) {status : RbError}
    (behind : ∀ last rb', OnRing rb' ring → indices (ring.sectors - 1) = some last →
      ∃ next, (checkOrderLoop (4096 * oldestSector indices ring.sectors)
        (oldestSector indices ring.sectors)
        (4096 * (ring.sectors - oldestSector indices ring.sectors)) last rb').Exec
        ring.extended memory [] (status, { rb' with next })) :
    ∃ rb', OnRing rb' ring ∧
      rb'.sectorIndex = topIndex indices (List.range ring.sectors) rb.sectorIndex ∧
      (rbCheckSectorRing rb).Exec ring.extended memory [] (status, rb') := by
  have bound := oldestSector_lt indices ring.sectors_pos
  obtain ⟨rb', on', top, check⟩ := rbCheckSectorRing_full_exec ring.extended on
    headers (fun _ inside => .inl inside) used
  obtain ⟨next, order⟩ := (checkOrderLoop_exec ring.extended headers
    (fun _ inside => .inl inside)
    (oldestSector indices ring.sectors) _ (ring.sectors - oldestSector indices ring.sectors) 0
    (oldestSector indices ring.sectors)
    0 rb' on' (by omega) (by omega) used).2 rises status (by
      intro last rb'' on'' newest
      rw [if_neg (by omega)] at newest
      rw [Nat.zero_add]
      exact behind last rb'' on'' newest)
  rw [Nat.sub_add_cancel (Nat.le_of_lt bound)] at order
  rw [topIndex_twice] at top
  exact ⟨{ rb' with next }, ⟨on'.base_eq, on'.bytes_eq⟩, top, check _ order⟩

/-- The pass of the order scan right behind the ring. -/
theorem checkOrderLoop_behind {rb : RbT} (on : OnRing rb ring) {start further i : Nat}
    (place : i + 4096 * start = 4096 * ring.sectors) (low : Nat) {value : RbError × RbT}
    (exec : (if sectorStatus memory ring.behind = .ok then
        if (sectorWord memory ring.behind).getIndex < low then
          Pure.pure (RbError.badHdr, { rb with next := 4096 * ring.sectors })
        else checkOrderLoop (4096 * start) further (i + 4096)
          (sectorWord memory ring.behind).getIndex { rb with next := 4096 * ring.sectors }
      else Pure.pure (RbError.ok, { rb with next := 4096 * ring.sectors })).Exec
      ring.extended memory [] value) :
    (checkOrderLoop (4096 * start) (further + 1) i low rb).Exec ring.extended memory []
      value := by
  have word : (FlashProg.readBytes (rb.baseAddress + 4096 * ring.sectors) 4).Exec
      ring.extended memory [] (slice memory ring.behind 4) := by
    rw [on.base_eq]
    exact FlashProg.Exec.readBytes fun query touches => .inr touches
  have offset := orderOffset on _ (Nat.le_refl ring.sectors) place
  simp only [checkOrderLoop, headerSize, flashSectorSize, offset]
  exact FlashProg.Exec.bind_read word exec

/-- Ascending sectors that start elsewhere pass the check when the word behind the
ring lets them. -/
theorem rbCheckSectorRing_rotated_exec {rb : RbT} (on : OnRing rb ring)
    (headers : HeadersAre memory ring indices)
    (used : ∀ k < ring.sectors, (indices k).isSome)
    (rotated : 0 < oldestSector indices ring.sectors)
    (rises : ascends indices (ring.sectors - oldestSector indices ring.sectors)
      (oldestSector indices ring.sectors) 0 = true)
    (harmless : sectorStatus memory ring.behind = .ok →
      oldestSector indices ring.sectors = 1 ∧ ∀ index,
        indices (ring.sectors - 1) = some index →
          index ≤ (sectorWord memory ring.behind).getIndex) :
    ∃ rb', OnRing rb' ring ∧
      rb'.sectorIndex = topIndex indices (List.range ring.sectors) rb.sectorIndex ∧
      (rbCheckSectorRing rb).Exec ring.extended memory [] (.ok, rb') := by
  have bound := oldestSector_lt indices ring.sectors_pos
  refine rbCheckSectorRing_wraps_exec on headers used rises fun last rb' on' newest => ?_
  obtain ⟨previous, rest⟩ : ∃ previous, oldestSector indices ring.sectors = previous + 1 :=
    ⟨oldestSector indices ring.sectors - 1, by omega⟩
  refine ⟨4096 * ring.sectors, ?_⟩
  rw [rest]
  refine checkOrderLoop_behind on' (by omega) last ?_
  by_cases good : sectorStatus memory ring.behind = .ok
  · obtain ⟨one, above⟩ := harmless good
    obtain rfl : previous = 0 := by omega
    rw [if_pos good, if_neg (Nat.not_lt.mpr (above last newest))]
    exact FlashProg.Exec.pure _
  · rw [if_neg good]
    exact FlashProg.Exec.pure _

/-- A valid sector header with a low index behind the ring makes the check fail. -/
theorem rbCheckSectorRing_harmed_exec {rb : RbT} (on : OnRing rb ring)
    (headers : HeadersAre memory ring indices)
    (used : ∀ k < ring.sectors, (indices k).isSome)
    (rotated : 0 < oldestSector indices ring.sectors)
    (rises : ascends indices (ring.sectors - oldestSector indices ring.sectors)
      (oldestSector indices ring.sectors) 0 = true)
    (good : sectorStatus memory ring.behind = .ok)
    (below : ∀ index, indices (ring.sectors - 1) = some index →
      (sectorWord memory ring.behind).getIndex < index) :
    ∃ rb', OnRing rb' ring ∧
      rb'.sectorIndex = topIndex indices (List.range ring.sectors) rb.sectorIndex ∧
      (rbCheckSectorRing rb).Exec ring.extended memory [] (.badHdr, rb') := by
  have bound := oldestSector_lt indices ring.sectors_pos
  refine rbCheckSectorRing_wraps_exec on headers used rises fun last rb' on' newest => ?_
  obtain ⟨previous, rest⟩ : ∃ previous, oldestSector indices ring.sectors = previous + 1 :=
    ⟨oldestSector indices ring.sectors - 1, by omega⟩
  refine ⟨4096 * ring.sectors, ?_⟩
  rw [rest]
  refine checkOrderLoop_behind on' (by omega) last ?_
  rw [if_pos good, if_pos (below last newest)]
  exact FlashProg.Exec.pure _

end CheckRing

end PicoApConfigure.RingBuffer
