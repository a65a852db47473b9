import PicoApConfigure.FlashIo.ReadLatest
import PicoApConfigure.RingBuffer.CheckRing

/-!
# What success of a write means

`flash_io_write_flash_id` compares at most a page with the latest record, and whatever `rb_append`
returns it reports success.
-/

namespace PicoApConfigure.FlashIo

open Nor RingBuffer

/-- What `rb_recreate` makes of a content: a ring in order that it accepts, or an erased ring. -/
inductive Recreated (ring : Geometry) (flashBuf flashLen : Nat) (block : RbT) (memory : Memory) :
    (Nat → Option Sector) → Nat → List Sector → Prop
  | accepted {cells : Nat → Option Sector} {start : Nat} {log : List Sector}
      (holds : RingHolds memory ring cells) (ordered : Ordered ring cells start log)
      (fits : log.length = ring.sectors → 0 < start → BehindFits memory ring cells start) :
      Recreated ring flashBuf flashLen block memory cells start log
  | repaired {failed : RbT}
      (bad : (rbCreate block flashBuf (flashLen / flashSectorSize) .createInitIfFail).Exec
        ring.extended memory [] (.badHdr, failed)) :
      Recreated ring flashBuf flashLen block memory (fun _ => none) 0 []

/-! ## Writing -/

section Writing

variable {ring : Geometry} {memory : Memory} {cells : Nat → Option Sector} {start : Nat}
  {log : List Sector} {block rb : RbT} {flashBuf flashLen : Nat} {id : Int} {buff : Memory}
  {blen : Nat}

/-- The ring behind the first read, which finds nothing after a repair. -/
theorem Recreated.read (recreated : Recreated ring flashBuf flashLen block memory cells start log)
    (opens : Opens ring flashBuf (flashLen / flashSectorSize)) (low : 1 ≤ id) (high : id ≤ 254)
    (cached : block.sectorIndex < rbIndexMask - 1)
    (stored : ∀ sector ∈ log, sector.index < rbIndexMask - 1) {before : List Op} {err : Int}
    {pagebuff pagebuff' : Memory}
    (read : FlashProg.Completes ring.extended
      (fun fuel => readFlashIdLatest fuel id flashBuf flashLen block pagebuff) memory before
      (err, pagebuff')) :
    RingHolds (replay before memory) ring cells ∧ Ordered ring cells start log ∧
      (log.length = ring.sectors → 0 < start →
        BehindFits (replay before memory) ring cells start) := by
  have mask : rbIndexMask - 1 = 16777214 := rfl
  cases recreated with
  | accepted holds ordered fits =>
      obtain ⟨rb, -, -, recreate⟩ := recreate_accepts holds ordered fits opens block
        (Nat.le_of_lt cached) fun sector member => Nat.le_of_lt (stored sector member)
      rw [readFlashIdLatest_leaves recreate read]
      exact ⟨holds, ordered, fits⟩
  | repaired bad =>
      obtain ⟨pagebuff'', repaired⟩ := readFlashIdLatest_repaired opens bad
        (pageFits ring low high) pagebuff
      obtain ⟨rfl, -⟩ := read.unique repaired
      exact ⟨ringBlank_erase ring memory, ordered_blank ring, fun _ impossible =>
        absurd impossible (Nat.lt_irrefl 0)⟩

/-- What the first read returns. -/
theorem Recreated.finds (recreated : Recreated ring flashBuf flashLen block memory cells start log)
    (opens : Opens ring flashBuf (flashLen / flashSectorSize)) (low : 1 ≤ id) (high : id ≤ 254)
    {latest : Option (List Byte)} (found : LatestRead ring cells start (BitVec.ofInt 8 id) latest)
    (pagebuff : Memory) :
    ∃ before err pagebuff', FlashProg.Completes ring.extended
        (fun fuel => readFlashIdLatest fuel id flashBuf flashLen block pagebuff) memory before
        (err, pagebuff') ∧
      Finds latest err pagebuff' := by
  cases recreated with
  | accepted holds ordered fits =>
      exact ⟨[], found.read holds ordered fits opens low high block pagebuff⟩
  | repaired bad =>
      obtain ⟨pagebuff', repaired⟩ := readFlashIdLatest_repaired opens bad
        (pageFits ring low high) pagebuff
      cases found with
      | unused => exact ⟨_, _, pagebuff', repaired, .inl rfl⟩
      | reads used => cases used

theorem Recreated.ends (recreated : Recreated ring flashBuf flashLen block memory cells start log)
    (opens : Opens ring flashBuf (flashLen / flashSectorSize)) (low : 1 ≤ id) (high : id ≤ 254)
    {region : Nat → Prop} {fuel : Nat} {pagebuff : Memory} {writes : List Op}
    {value : Int × Memory}
    (read : (readFlashIdLatest fuel id flashBuf flashLen block pagebuff).Exec region memory writes
      value) : ∃ latest, LatestRead ring cells start (BitVec.ofInt 8 id) latest := by
  cases recreated with
  | accepted holds ordered fits => exact LatestRead.of_exec holds ordered fits opens low high read
  | repaired => exact ⟨none, .unused rfl⟩

end Writing

end PicoApConfigure.FlashIo
