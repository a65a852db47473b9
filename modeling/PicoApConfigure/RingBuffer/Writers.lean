import PicoApConfigure.RingBuffer.AnyAppend

/-!
# Writers on arbitrary contents

`rb_append` and `rb_delete` save the read cursor of the caller and put it back, but
both scan the sector headers first and return from there when the scan fails.
-/

namespace PicoApConfigure.RingBuffer

open Nor

section Writers

variable {rb : RbT} {ring : Geometry} {memory : Memory} {id : Byte} {data : Memory} {size : Nat}

/-! ## More fuel for the readers -/

theorem readContinuation_extends {again again' : Nat → RbT → Memory → Nat → Nat →
      FlashProg (Int × RbT × Memory)}
    (more : ∀ orignext rb data offset size, (again orignext rb data offset size).Extends
      (again' orignext rb data offset size))
    (id : Byte) (rb : RbT) (data : Memory) (offset readSize remaining : Nat) :
    (readContinuation again id rb data offset readSize remaining).Extends
      (readContinuation again' id rb data offset readSize remaining) := by
  simp only [readContinuation]
  split
  · refine .bind (.refl _) fun fetched => ?_
    split
    · exact .refl _
    · split
      · split
        · exact .refl _
        · exact .bind (more _ _ _ _ _) fun _ => .refl _
      · exact .refl _
  · exact .refl _

theorem rbReadLoop_extends (id : Byte) (fuel : Nat) :
    ∀ (orignext : Nat) (rb : RbT) (data : Memory) (offset size : Nat),
      (rbReadLoop id fuel orignext rb data offset size).Extends
        (rbReadLoop id (fuel + 1) orignext rb data offset size) := by
  induction fuel with
  | zero => exact fun _ _ _ _ _ => .stuck _
  | succ fuel ih =>
      intro orignext rb data offset size
      simp only [rbReadLoop]
      refine .bind (.refl _) ?_
      rintro ⟨status, header, rb⟩
      simp only
      split
      · exact .refl _
      · split
        · split
          · exact .refl _
          · exact ih _ _ _ _ _
        · exact .bind (.refl _) fun bytes => readContinuation_extends ih _ _ _ _ _ _

theorem rbRead_extends (fuel : Nat) (rb : RbT) (id : Byte) (data : Memory) (size : Nat) :
    (rbRead fuel rb id data size).Extends (rbRead (fuel + 1) rb id data size) := by
  rw [rbRead, rbRead]
  split
  · exact .refl _
  · exact rbReadLoop_extends id fuel _ _ _ _ _

theorem rbFindLoop_extends (id : Byte) (data : Memory) (size orignext fuel : Nat) :
    ∀ (rb : RbT) (scratch : Memory), (rbFindLoop id data size orignext fuel rb scratch).Extends
      (rbFindLoop id data size orignext (fuel + 1) rb scratch) := by
  induction fuel with
  | zero => exact fun _ _ => .stuck _
  | succ fuel ih =>
      intro rb scratch
      simp only [rbFindLoop]
      refine .bind (.refl _) ?_
      rintro ⟨status, header, rb⟩
      simp only
      split
      · exact .refl _
      · split
        · split
          · exact .refl _
          · exact ih _ _
        · refine .bind (rbRead_extends _ _ _ _ _) ?_
          rintro ⟨res, rb, scratch⟩
          simp only
          split
          · split
            · exact .refl _
            · exact ih _ _
          · exact .refl _

theorem rbFind_extends (fuel : Nat) (rb : RbT) (id : Byte) (data : Memory) (size : Nat)
    (scratch : Memory) :
    (rbFind fuel rb id data size scratch).Extends (rbFind (fuel + 1) rb id data size scratch) := by
  rw [rbFind, rbFind]
  split
  · exact .refl _
  · exact rbFindLoop_extends _ _ _ _ _ _ _

/-! ## What the search returns -/

/-- A search that returns has only read; an offset it returns is a place for a header. -/
structure FindKeeps (ring : Geometry) (writes : List Op) (result : Int × RbT × Memory) :
    Prop where
  quiet : writes = []
  on : OnRing result.2.1 ring
  found : 0 ≤ result.1 → HeaderPlace ring result.1.toNat

private theorem rbFindLoop_any {orignext fuel : Nat} :
    ∀ {rb : RbT} {scratch : Memory} {writes : List Op} {result : Int × RbT × Memory},
      OnRing rb ring → HeaderPlace ring rb.next →
      (rbFindLoop id data size orignext fuel rb scratch).Exec (fun _ => True) memory writes
        result → FindKeeps ring writes result := by
  induction fuel with
  | zero => exact fun _ _ exec => exec.elim
  | succ fuel ih =>
      intro rb scratch writes result on place exec
      obtain ⟨k, inRing, offset, room, next⟩ := place.cases
      obtain ⟨status, header, found, bound, good, fetched⟩ := fetch_any memory on inRing room next
      have on' : ∀ next, OnRing { rb with next } ring := fun _ => ⟨on.base_eq, on.bytes_eq⟩
      simp only [rbFindLoop] at exec
      obtain ⟨first, fetch, rest, rfl, execFetch, exec⟩ := FlashProg.exec_bind_iff.mp exec
      obtain ⟨rfl, rfl⟩ := execFetch.unique fetched
      simp only [List.nil_append, replay_nil] at exec ⊢
      by_cases stopped : status ≠ .ok
      · rw [if_pos stopped] at exec
        obtain ⟨rfl, rfl⟩ := exec
        have := RbError.code_neg stopped
        exact ⟨rfl, on' _, fun nonneg => absurd nonneg (by simp only; omega)⟩
      obtain ⟨stands, long⟩ := good (not_not.mp stopped)
      rw [if_neg stopped] at exec
      by_cases skipped : header.id ≠ id ∨ header.crc &&& rbHeaderNotSmudged = 0
      · have moved : rbIncr (4096 * k + found) (header.len + headerSize) rb.numberOfBytes =
            ring.resume k (found + (header.len + 4)) := by
          rw [on.bytes_eq, headerSize, rbIncr_resume ring _ inRing (by omega)]
        rw [if_pos skipped, moved] at exec
        by_cases back : orignext = ring.resume k (found + (header.len + 4))
        · rw [if_pos back] at exec
          obtain ⟨rfl, rfl⟩ := exec
          exact ⟨rfl, on' _, fun nonneg => absurd nonneg (by simp [RbError.code])⟩
        · rw [if_neg back] at exec
          exact ih (on' _) (HeaderPlace.resume inRing _) exec
      rw [if_neg skipped] at exec
      obtain ⟨first, ⟨res, rb', scratch'⟩, rest, rfl, execRead, exec⟩ :=
        FlashProg.exec_bind_iff.mp exec
      have here : HeaderPlace ring (4096 * k + found) := HeaderPlace.of_offset inRing bound
      -- the read has run to its end, so it is the one that is known
      have completes : FlashProg.Completes (fun _ => True) (fun fuel => rbRead fuel
          { rb with next := 4096 * k + found } id scratch size) memory first
          (res, rb', scratch') :=
        FlashProg.Exec.completes_of_extends execRead fun fuel => rbRead_extends fuel _ _ _ _
      by_cases accepted : rbReadRejects { rb with next := 4096 * k + found } id size
      · simp only [rbRead, if_pos accepted] at execRead
        obtain ⟨rfl, equal⟩ := execRead
        obtain ⟨rfl, rfl, rfl⟩ := equal
        rw [if_neg (show ¬RbError.badCallerData.code > 0 by decide)] at exec
        obtain ⟨rfl, rfl⟩ := exec
        exact ⟨rfl, on' _, fun nonneg => absurd nonneg (by simp [RbError.code])⟩
      obtain ⟨rfl, onRead, placeRead, -⟩ :=
        (rbRead_finishes memory (on' _) here accepted scratch).of_completes completes
      simp only [List.nil_append, replay_nil] at exec onRead placeRead ⊢
      by_cases got : res > 0
      · rw [if_pos got] at exec
        split at exec
        · obtain ⟨rfl, rfl⟩ := exec
          exact ⟨rfl, onRead, fun _ => here⟩
        · exact ih onRead placeRead exec
      · rw [if_neg got] at exec
        obtain ⟨rfl, rfl⟩ := exec
        refine ⟨rfl, onRead, fun nonneg => ?_⟩
        have zero : res = 0 := by
          simp only at nonneg
          omega
        rw [zero]
        exact HeaderPlace.start ring.sectors_pos

theorem rbFind_any {fuel : Nat} {scratch : Memory} {writes : List Op}
    {result : Int × RbT × Memory} (on : OnRing rb ring) (place : HeaderPlace ring rb.next)
    (exec : (rbFind fuel rb id data size scratch).Exec (fun _ => True) memory writes result) :
    FindKeeps ring writes result := by
  rw [rbFind] at exec
  split at exec
  · obtain ⟨rfl, rfl⟩ := exec
    exact ⟨rfl, on, fun nonneg => absurd nonneg (by simp [RbError.code])⟩
  · exact rbFindLoop_any on place exec

/-! ## `rb_delete` -/

/-- `rb_smudge` returns at every place for a header. -/
theorem rbSmudge_any (memory : Memory) (on : OnRing rb ring) {offset : Nat}
    (place : HeaderPlace ring offset) :
    FlashProg.Finishes (fun _ => rbSmudge rb offset) memory fun _ _ => True := by
  obtain ⟨k, inRing, inSector, room, rfl⟩ := place.cases
  obtain ⟨status, header, found, bound, -, fetched⟩ := @fetch_any
    { rb with next := 4096 * k + inSector } _ k _ memory ⟨on.base_eq, on.bytes_eq⟩ inRing room rfl
  simp only [rbSmudge]
  refine fetched.bind_finishes ?_
  by_cases stopped : status ≠ .ok
  · simp only [if_pos stopped]
    exact .pure trivial
  · have inside := @Geometry.offset_lt ring _ (found + 3) inRing (by omega)
    have written := @rbAppendPage_any { rb with next := 4096 * k + found + 3 } ring memory
      ⟨on.base_eq, on.bytes_eq⟩ (by simp only; omega) [header.crc &&& ~~~rbHeaderNotSmudged]
    simp only [if_neg stopped]
    exact written.bind fun _ _ _ => .pure trivial

/-- Argument check of `rb_delete`. -/
def rbDeleteRejects (id : Byte) : Prop := id = 0 ∨ id = 0xff

instance (id : Byte) : Decidable (rbDeleteRejects id) :=
  inferInstanceAs (Decidable (_ ∨ _))

/-- A scan that fails is where `rb_delete` returns. -/
private theorem rbDelete_unscanned (data : Memory) (size : Nat) {pagebuffer : Memory}
    {status : RbError} {scanned : RbT}
    (accepted : ¬rbDeleteRejects id)
    (scan : (rbFindRingOldestSector { rb with rbPage := pagebuffer }).Exec (fun _ => True) memory
      [] (status, scanned)) (failed : status ≠ .ok) (fuel : Nat) :
    (rbDelete fuel rb id data size pagebuffer).Exec (fun _ => True) memory []
      (status.code, scanned) := by
  rw [rbDelete, if_neg (show ¬(_ ∨ _) from accepted)]
  refine scan.bind_read ?_
  simp only [if_pos failed]
  exact FlashProg.Exec.pure _

/-- Behind the scan every return gives the cursor back. -/
private theorem rbDelete_scanned {pagebuffer : Memory} {scanned : RbT} {fuel : Nat}
    {writes : List Op} {result : Int × RbT} (accepted : ¬rbDeleteRejects id)
    (scan : (rbFindRingOldestSector { rb with rbPage := pagebuffer }).Exec (fun _ => True) memory
      [] (.ok, scanned))
    (exec : (rbDelete fuel rb id data size pagebuffer).Exec (fun _ => True) memory writes
      result) :
    result.2.next = rb.next ∧ ∃ writes found,
      (rbFind fuel scanned id data size scanned.rbPage).Exec (fun _ => True) memory writes
        found := by
  rw [rbDelete, if_neg (show ¬(_ ∨ _) from accepted)] at exec
  obtain ⟨first, ⟨status, scanned'⟩, rest, rfl, execScan, exec⟩ :=
    FlashProg.exec_bind_iff.mp exec
  obtain ⟨rfl, equal⟩ := execScan.unique scan
  cases equal
  simp only [ne_eq, not_true_eq_false, if_false] at exec
  obtain ⟨searched, ⟨res, rb', scratch⟩, rest, rfl, execFind, exec⟩ :=
    FlashProg.exec_bind_iff.mp exec
  refine ⟨?_, searched, (res, rb', scratch), execFind⟩
  simp only at exec
  split at exec
  · obtain ⟨-, rfl⟩ := exec
    rfl
  · obtain ⟨_, smudged, _, -, -, exec⟩ := FlashProg.exec_bind_iff.mp exec
    obtain ⟨-, rfl⟩ := exec
    rfl

/-- Behind the scan `rb_delete` returns if its search does. -/
private theorem rbDelete_finishes {pagebuffer : Memory} {scanned : RbT}
    (accepted : ¬rbDeleteRejects id)
    (scan : (rbFindRingOldestSector { rb with rbPage := pagebuffer }).Exec (fun _ => True) memory
      [] (.ok, scanned)) (on : OnRing scanned ring) (place : HeaderPlace ring scanned.next)
    (search : FlashProg.Finishes (fun fuel => rbFind fuel scanned id data size scanned.rbPage)
      memory fun _ _ => True) :
    FlashProg.Finishes (fun fuel => rbDelete fuel rb id data size pagebuffer) memory
      fun _ _ => True := by
  obtain ⟨writes, result, completes, -⟩ := search
  obtain ⟨bound, exec⟩ := completes
  have keeps := rbFind_any on place (exec bound (Nat.le_refl _))
  have found : FlashProg.Finishes (fun fuel => rbFind fuel scanned id data size scanned.rbPage)
      memory fun writes result => FindKeeps ring writes result :=
    ⟨writes, result, ⟨bound, exec⟩, keeps⟩
  simp only [rbDelete, if_neg (show ¬(_ ∨ _) from accepted)]
  refine scan.bind_finishes ?_
  simp only [ne_eq, not_true_eq_false, if_false]
  refine found.bind ?_
  rintro writes ⟨res, rb', scratch⟩ ⟨rfl, on', foundAt⟩
  simp only
  by_cases failed : res < 0
  · simp only [if_pos failed]
    exact .pure trivial
  · simp only [if_neg failed]
    refine (@rbSmudge_any { rb' with rbPage := scratch } ring memory ⟨on'.base_eq, on'.bytes_eq⟩ _
      (foundAt (by simp only; omega))).bind ?_
    exact fun _ _ _ => .pure trivial

/-! ## The cursor at return -/

/-- The control block behind a scan that no corrupt header stops. -/
def scannedBlock (memory : Memory) (ring : Geometry) (rb : RbT) (pagebuffer : Memory) : RbT :=
  { rb with
    next := 4096 * oldestSector (headerIndex memory ring) ring.sectors
    sectorIndex := topIndex (headerIndex memory ring) (List.range ring.sectors).reverse
      rb.sectorIndex
    rbPage := pagebuffer }

theorem GoodHeaders.scan (good : GoodHeaders memory ring) (on : OnRing rb ring)
    (pagebuffer : Memory) :
    (rbFindRingOldestSector { rb with rbPage := pagebuffer }).Exec (fun _ => True) memory []
      (sectorStatus memory (ring.sectorAddr 0), scannedBlock memory ring rb pagebuffer) := by
  have scan := @rbFindRingOldestSector_exec { rb with rbPage := pagebuffer } ring memory _
    (fun _ => True) ⟨on.base_eq, on.bytes_eq⟩ good.headersAre fun _ _ => trivial
  have status : entryStatus (headerIndex memory ring 0) =
      sectorStatus memory (ring.sectorAddr 0) := by
    rcases sectorStatus_cases memory (ring.sectorAddr 0) with ok | blank | bad
    · simp [headerIndex, ok, entryStatus]
    · simp [headerIndex, blank, entryStatus]
    · exact absurd bad (good 0 ring.sectors_pos)
  rw [status] at scan
  exact scan

/-- The scan that precedes everything else leaves the cursor where it was, or does not end the
call: no corrupt sector header is met, or the last of them is where the cursor stood. -/
def ScanStays (memory : Memory) (ring : Geometry) (next : Nat) : Prop :=
  ∀ last, LastBad memory ring last → next = 4096 * last

/-- The same for `rb_delete`, which also returns when the first sector is blank. -/
def DeleteScanStays (memory : Memory) (ring : Geometry) (next : Nat) : Prop :=
  ScanStays memory ring next ∧
    (GoodHeaders memory ring → sectorStatus memory (ring.sectorAddr 0) = .blankHdr →
      next = 4096 * oldestSector (headerIndex memory ring) ring.sectors)

variable (size) in
private theorem rbDelete_keeps_iff (on : OnRing rb ring) (data pagebuffer : Memory) :
    (∀ fuel writes result, (rbDelete fuel rb id data size pagebuffer).Exec (fun _ => True) memory
        writes result → result.2.next = rb.next) ↔
      rbDeleteRejects id ∨ DeleteScanStays memory ring rb.next := by
  by_cases rejected : rbDeleteRejects id
  · refine iff_of_true (fun fuel writes result exec => ?_) (.inl rejected)
    rw [rbDelete, if_pos (show _ ∨ _ from rejected)] at exec
    obtain ⟨-, rfl⟩ := exec
    rfl
  rcases goodHeaders_or_lastBad memory ring with good | ⟨last, bad⟩
  · have scan := good.scan on pagebuffer
    have noBad : ScanStays memory ring rb.next :=
      fun last bad => absurd bad.bad (good last bad.lt)
    by_cases ok : sectorStatus memory (ring.sectorAddr 0) = .ok
    · rw [ok] at scan
      refine iff_of_true (fun fuel writes result exec =>
        (rbDelete_scanned rejected scan exec).1) (.inr ⟨noBad, fun _ blank => ?_⟩)
      rw [ok] at blank
      cases blank
    · have run := rbDelete_unscanned data size rejected scan ok
      constructor
      · intro keeps
        exact .inr ⟨noBad, fun _ _ => (keeps 0 _ _ (run 0)).symm⟩
      · rintro (reject | ⟨-, first⟩) fuel writes result exec
        · exact absurd reject rejected
        · obtain ⟨-, rfl⟩ := exec.unique (run fuel)
          rcases sectorStatus_cases memory (ring.sectorAddr 0) with good0 | blank | bad0
          · exact absurd good0 ok
          · exact (first good blank).symm
          · exact absurd bad0 (good 0 ring.sectors_pos)
  · obtain ⟨index, scan⟩ := @rbFindRingOldestSector_bad { rb with rbPage := pagebuffer } ring
      last memory ⟨on.base_eq, on.bytes_eq⟩ bad
    have run := rbDelete_unscanned data size rejected
      (scan.mono fun _ _ => trivial) (by decide)
    constructor
    · intro keeps
      refine .inr ⟨fun other badOther => ?_, fun good => absurd bad.bad (good last bad.lt)⟩
      rw [← bad.unique badOther]
      exact (keeps 0 _ _ (run 0)).symm
    · rintro (reject | ⟨stays, -⟩) fuel writes result exec
      · exact absurd reject rejected
      · obtain ⟨-, rfl⟩ := exec.unique (run fuel)
        exact (stays last bad).symm

variable (size) in
private theorem rbDelete_returns_iff (on : OnRing rb ring) (data pagebuffer : Memory) :
    FlashProg.Finishes (fun fuel => rbDelete fuel rb id data size pagebuffer) memory
        (fun _ _ => True) ↔
      rbDeleteRejects id ∨
        (GoodHeaders memory ring ∧ sectorStatus memory (ring.sectorAddr 0) = .ok →
          FlashProg.Finishes (fun fuel => rbFind fuel (scannedBlock memory ring rb pagebuffer) id
            data size pagebuffer) memory fun _ _ => True) := by
  by_cases rejected : rbDeleteRejects id
  · refine iff_of_true ?_ (.inl rejected)
    simp only [rbDelete, if_pos (show _ ∨ _ from rejected)]
    exact .pure trivial
  rcases goodHeaders_or_lastBad memory ring with good | ⟨last, bad⟩
  · have scan := good.scan on pagebuffer
    by_cases ok : sectorStatus memory (ring.sectorAddr 0) = .ok
    · rw [ok] at scan
      constructor
      · rintro ⟨writes, result, ⟨bound, exec⟩, -⟩
        obtain ⟨-, writes, found, search⟩ :=
          rbDelete_scanned rejected scan (exec bound (Nat.le_refl _))
        exact .inr fun _ => (search.completes_of_extends fun fuel =>
          rbFind_extends fuel _ _ _ _ _).finishes trivial
      · rintro (reject | search)
        · exact absurd reject rejected
        · exact rbDelete_finishes rejected scan ⟨on.base_eq, on.bytes_eq⟩
            (HeaderPlace.start (oldestSector_lt _ ring.sectors_pos)) (search ⟨good, ok⟩)
    · refine iff_of_true ?_ (.inr fun both => absurd both.2 ok)
      exact FlashProg.Completes.finishes ⟨0, fun fuel _ =>
        rbDelete_unscanned _ _ rejected scan ok fuel⟩ trivial
  · obtain ⟨index, scan⟩ := @rbFindRingOldestSector_bad { rb with rbPage := pagebuffer } ring
      last memory ⟨on.base_eq, on.bytes_eq⟩ bad
    refine iff_of_true ?_ (.inr fun both => absurd bad.bad (both.1 last bad.lt))
    exact FlashProg.Completes.finishes ⟨0, fun fuel _ =>
      rbDelete_unscanned _ _ rejected (scan.mono fun _ _ => trivial) (by decide) fuel⟩ trivial

/-- When the writers give the read cursor back.  `rb_append` always returns; `rb_delete` returns
unless its search does not. -/
theorem writers_keep_cursor_iff (memory : Memory) (on : OnRing rb ring) (id : Byte)
    (data : Memory) (size : Nat) (pagebuffer : Memory) (eraseIfFull : Bool) :
    (FlashProg.Finishes (fun fuel => rbAppend fuel rb id data size pagebuffer eraseIfFull) memory
        (fun _ result => result.2.next = rb.next) ↔
      rbAppendRejects rb id size ∨ ScanStays memory ring rb.next) ∧
    ((∀ fuel writes result, (rbDelete fuel rb id data size pagebuffer).Exec (fun _ => True) memory
        writes result → result.2.next = rb.next) ↔
      rbDeleteRejects id ∨ DeleteScanStays memory ring rb.next) ∧
    (FlashProg.Finishes (fun fuel => rbDelete fuel rb id data size pagebuffer) memory
        (fun _ _ => True) ↔
      rbDeleteRejects id ∨
        (GoodHeaders memory ring ∧ sectorStatus memory (ring.sectorAddr 0) = .ok →
          FlashProg.Finishes (fun fuel => rbFind fuel (scannedBlock memory ring rb pagebuffer) id
            data size pagebuffer) memory fun _ _ => True)) := by
  refine ⟨?_, rbDelete_keeps_iff size on data pagebuffer,
    rbDelete_returns_iff size on data pagebuffer⟩
  have appended := rbAppend_any memory on id data size pagebuffer eraseIfFull
  by_cases rejected : rbAppendRejects rb id size
  · refine iff_of_true (appended.mono fun _ _ holds => holds.2.1 (.inl rejected)) (.inl rejected)
  · constructor
    · rintro ⟨writes, result, completes, keeps⟩
      refine .inr fun last bad => ?_
      rw [← keeps]
      exact (appended.of_completes completes).2.2 rejected last bad
    · rintro (reject | stays)
      · exact absurd reject rejected
      · refine appended.mono fun writes result holds => ?_
        rcases goodHeaders_or_lastBad memory ring with good | ⟨last, bad⟩
        · exact holds.2.1 (.inr good)
        · rw [holds.2.2 rejected last bad, stays last bad]

theorem lastBad_zeros : LastBad (fun _ => 0) pairRing 1 where
  lt := by decide
  bad := by
    have word : slice (fun _ => (0 : Byte)) (pairRing.sectorAddr 1) 4 = [0, 0, 0, 0] := rfl
    rw [sectorStatus, sectorWord, word]
    decide +kernel
  above j above inRing := by
    simp only [pairRing] at inRing
    omega

theorem writers_keep_cursor_zeros :
    (FlashProg.Finishes (fun fuel => rbAppend fuel (opened .zeroed pairRing) 1 (fun _ => 0) 4
        (fun _ => 0) false) (fun _ => 0)
        (fun _ result => result.2.next = (opened .zeroed pairRing).next) ↔
      rbAppendRejects (opened .zeroed pairRing) 1 4 ∨
        ScanStays (fun _ => 0) pairRing (opened .zeroed pairRing).next) ∧
    ((∀ fuel writes result, (rbDelete fuel (opened .zeroed pairRing) 1 (fun _ => 0) 4
        (fun _ => 0)).Exec (fun _ => True) (fun _ => 0) writes result →
        result.2.next = (opened .zeroed pairRing).next) ↔
      rbDeleteRejects 1 ∨ DeleteScanStays (fun _ => 0) pairRing (opened .zeroed pairRing).next) ∧
    (FlashProg.Finishes (fun fuel => rbDelete fuel (opened .zeroed pairRing) 1 (fun _ => 0) 4
        (fun _ => 0)) (fun _ => 0) (fun _ _ => True) ↔
      rbDeleteRejects 1 ∨
        (GoodHeaders (fun _ => 0) pairRing ∧
            sectorStatus (fun _ => 0) (pairRing.sectorAddr 0) = .ok →
          FlashProg.Finishes (fun fuel => rbFind fuel
            (scannedBlock (fun _ => 0) pairRing (opened .zeroed pairRing) fun _ => 0) 1
            (fun _ => 0) 4 (fun _ => 0)) (fun _ => 0) fun _ _ => True)) :=
  writers_keep_cursor_iff (fun _ => 0) (onRing_opened _ _) 1 (fun _ => 0) 4 (fun _ => 0) false

/-- A control block on the pair of sectors with its cursor at the second one. -/
def secondSectorBlock : RbT where
  baseAddress := pairRing.base
  numberOfBytes := 4096 * pairRing.sectors
  next := 4096
  lastWrote := 0
  sectorIndex := 0
  rbPage := fun _ => 0

/-- A corrupt header of sector 1 moves the cursor there, and a blank ring moves it to sector 0. -/
theorem writers_lose_cursor :
    ¬FlashProg.Finishes (fun fuel => rbAppend fuel (opened .zeroed pairRing) 1 (fun _ => 0) 4
        (fun _ => 0) false) (fun _ => 0)
        (fun _ result => result.2.next = (opened .zeroed pairRing).next) ∧
    ∃ fuel writes result, (rbDelete fuel secondSectorBlock 1 (fun _ => 0) 4
        (fun _ => 0)).Exec (fun _ => True) (fun _ => blankByte) writes result ∧
      result.2.next ≠ secondSectorBlock.next := by
  constructor
  · rintro ⟨writes, result, completes, keeps⟩
    have appended := rbAppend_any (fun _ => 0) (onRing_opened .zeroed pairRing) 1 (fun _ => 0) 4
      (fun _ => 0) false
    have moved := (appended.of_completes completes).2.2 (by decide) 1 lastBad_zeros
    rw [keeps] at moved
    cases moved
  · have blank : ∀ k, sectorStatus (fun _ => blankByte) (pairRing.sectorAddr k) = .blankHdr :=
      fun k => sectorStatus_blank (holds_blanks_iff.mpr fun _ _ _ => rfl)
    have good : GoodHeaders (fun _ => blankByte) pairRing := by
      intro k inRing
      rw [blank k]
      decide
    have on : OnRing secondSectorBlock pairRing := ⟨rfl, rfl⟩
    have scan := good.scan on fun _ => 0
    rw [blank 0] at scan
    refine ⟨0, [], _, rbDelete_unscanned _ _ (by decide) scan (by decide) 0, ?_⟩
    have first : oldestSector (headerIndex (fun _ => blankByte) pairRing) pairRing.sectors = 0 := by
      rcases oldestSector_spec (headerIndex (fun _ => blankByte) pairRing) pairRing.sectors with
        ⟨first, -⟩ | ⟨index, -, used, -⟩
      · exact first
      · rw [headerIndex, if_neg (by rw [blank]; decide)] at used
        cases used
    rw [scannedBlock, first]
    decide

end Writers

end PicoApConfigure.RingBuffer
