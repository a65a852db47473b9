import PicoApConfigure.RingBuffer.HeaderScan

/-!
# `rb_create` and `rb_recreate`

Opening a ring reads nothing but sector headers.  A ring that passes the check is
left alone, and the cursor goes to its oldest sector; otherwise it is up to the
caller's choice whether everything is erased.
-/

namespace PicoApConfigure.RingBuffer

open Nor

/-- `ring` is the ring `rb_create` opens for these arguments. -/
structure Opens (ring : Geometry) (baseAddress numberOfSectors : Nat) : Prop where
  base_eq : baseAddress % xipBase = ring.base
  sectors_eq : numberOfSectors = ring.sectors

/-- Every erased ring can be opened at its own address. -/
theorem Opens.self {ring : Geometry} (bound : ring.base < xipBase) :
    Opens ring ring.base ring.sectors := ⟨Nat.mod_eq_of_lt bound, rfl⟩

/-- The control block with the ring's place filled in. -/
def opened (rb : RbT) (ring : Geometry) : RbT :=
  { rb with baseAddress := ring.base, numberOfBytes := 4096 * ring.sectors, next := 0 }

section Create

variable {rb : RbT} {ring : Geometry} {memory : Memory} {indices : Nat → Option Nat}
  {baseAddress numberOfSectors : Nat} {choice : InitChoice} {region : Nat → Prop}

theorem onRing_opened (rb : RbT) (ring : Geometry) : OnRing (opened rb ring) ring := ⟨rfl, rfl⟩

/-- `rb_create` behind its argument check. -/
theorem rbCreate_eq (opens : Opens ring baseAddress numberOfSectors) (rb : RbT)
    (choice : InitChoice) :
    rbCreate rb baseAddress numberOfSectors choice =
      if choice = .createInitAlways then do
        FlashProg.eraseBytes ring.base (4096 * ring.sectors)
        return (.ok, opened rb ring)
      else do
        let (hdrErr, rb) ← rbCheckSectorRing (opened rb ring)
        if hdrErr = .ok then
          rbFindRingOldestSector rb
        else
          return (hdrErr, rb) := by
  have positive := ring.sectors_pos
  have limit := ring.sectors_le
  have accepted : ¬(numberOfSectors > picoFlashSizeBytes / flashSectorSize ∨
      numberOfSectors < 1) := by
    rw [opens.sectors_eq]
    simp only [picoFlashSizeBytes, flashSectorSize]
    omega
  rw [rbCreate, if_neg accepted, opens.base_eq, opens.sectors_eq]
  simp only [flashSectorSize, Nat.mul_comm ring.sectors]
  rfl

/-- The whole ring is erased. -/
theorem rbCreate_always_exec (opens : Opens ring baseAddress numberOfSectors) (rb : RbT) :
    (rbCreate rb baseAddress numberOfSectors .createInitAlways).Exec ring.region memory
      [.erase ring.base (4096 * ring.sectors)] (.ok, opened rb ring) := by
  rw [rbCreate_eq opens, if_pos rfl]
  have erased : (FlashProg.eraseBytes ring.base (4096 * ring.sectors)).Exec ring.region memory
      [.erase ring.base (4096 * ring.sectors)] () :=
    FlashProg.Exec.eraseBytes fun query touches => touches
  exact erased.bind (FlashProg.Exec.pure _)

theorem ringBlank_erase (ring : Geometry) (memory : Memory) :
    RingBlank (replay [.erase ring.base (4096 * ring.sectors)] memory) ring := by
  intro k inRing
  have := @Geometry.offset_lt ring _ 4095 inRing (by omega)
  refine (holds_eraseRange memory ring.base (4096 * ring.sectors)).blanks_sub ?_ ?_
  · simp only [Geometry.sectorAddr]
    omega
  · simp only [Geometry.sectorAddr]
    omega

variable (choice) in
/-- Opening a ring that passes the check. -/
theorem rbCreate_check_exec (opens : Opens ring baseAddress numberOfSectors)
    (keeps : choice ≠ .createInitAlways) (headers : HeadersAre memory ring indices)
    (inside : ∀ query, ring.region query → region query) {checked : RbT}
    (on : OnRing checked ring)
    (check : (rbCheckSectorRing (opened rb ring)).Exec region memory [] (.ok, checked)) :
    ∃ rb', OnRing rb' ring ∧ rb'.next = 4096 * oldestSector indices ring.sectors ∧
      rb'.sectorIndex = topIndex indices (List.range ring.sectors).reverse
        checked.sectorIndex ∧
      (rbCreate rb baseAddress numberOfSectors choice).Exec region memory []
        (entryStatus (indices 0), rb') := by
  have found := rbFindRingOldestSector_exec on headers inside
  refine ⟨{ checked with
    next := 4096 * oldestSector indices ring.sectors
    sectorIndex := topIndex indices (List.range ring.sectors).reverse checked.sectorIndex },
    ⟨on.base_eq, on.bytes_eq⟩, rfl, rfl, ?_⟩
  rw [rbCreate_eq opens, if_neg keeps]
  refine FlashProg.Exec.bind_read check ?_
  exact found

/-- Opening a ring that fails the check. -/
theorem rbCreate_bad_exec (opens : Opens ring baseAddress numberOfSectors)
    (keeps : choice ≠ .createInitAlways) {checked : RbT} {status : RbError}
    (failed : status ≠ .ok)
    (check : (rbCheckSectorRing (opened rb ring)).Exec region memory [] (status, checked)) :
    (rbCreate rb baseAddress numberOfSectors choice).Exec region memory []
      (status, checked) := by
  rw [rbCreate_eq opens, if_neg keeps]
  refine FlashProg.Exec.bind_read check ?_
  simp only [if_neg failed]
  exact FlashProg.Exec.pure _

/-- A ring that opens, or that the caller does not want erased, is left alone by
`rb_recreate`. -/
theorem rbRecreate_kept_exec {value : RbError × RbT} {writes : List Op}
    (kept : choice = .createFail ∨ value.1 = .ok ∨ value.1 = .blankHdr)
    (create : (rbCreate rb baseAddress numberOfSectors choice).Exec region memory writes
      value) :
    (rbRecreate rb baseAddress numberOfSectors choice).Exec region memory writes value := by
  have leaves : ¬(choice ≠ .createFail ∧
      ¬(value.1 = .ok ∨ value.1 = .blankHdr ∨ value.1 = .hdrLoop)) := by
    rintro ⟨wanted, bad⟩
    rcases kept with declined | equal | equal
    · exact wanted declined
    · exact bad (.inl equal)
    · exact bad (.inr (.inl equal))
  simp only [rbRecreate]
  have ran := @FlashProg.Exec.bind _ _ _ _ _ (fun result =>
    if choice ≠ .createFail ∧
        ¬(result.1 = .ok ∨ result.1 = .blankHdr ∨ result.1 = .hdrLoop) then
      rbCreate result.2 baseAddress numberOfSectors .createInitAlways
    else pure (result.1, result.2)) _ _ _ _ create (by
      rw [if_neg leaves]
      exact FlashProg.Exec.pure _)
  rw [List.append_nil] at ran
  exact ran

/-- A ring that does not open is erased by `rb_recreate` unless the caller declines. -/
theorem rbRecreate_bad_exec (opens : Opens ring baseAddress numberOfSectors)
    (inside : ∀ query, ring.region query → region query) {failed : RbT}
    (wanted : choice ≠ .createFail)
    (create : (rbCreate rb baseAddress numberOfSectors choice).Exec region memory []
      (.badHdr, failed)) :
    (rbRecreate rb baseAddress numberOfSectors choice).Exec region memory
      [.erase ring.base (4096 * ring.sectors)] (.ok, opened failed ring) := by
  simp only [rbRecreate]
  refine FlashProg.Exec.bind_read create ?_
  simp only [wanted, ne_eq, not_false_eq_true, reduceCtorEq, or_self, and_self, if_true]
  exact (rbCreate_always_exec opens failed).mono inside

end Create

end PicoApConfigure.RingBuffer
