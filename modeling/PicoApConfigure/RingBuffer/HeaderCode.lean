import Mathlib.Algebra.Order.Ring.Nat
import PicoApConfigure.RingBuffer.Header

/-!
# The code of data headers

The CRC is additive in its register and its data, so a flipped bit changes the check of a header by
a constant, the syndrome of that bit.  The generator has order 31, so the 29 syndromes differ from
each other and from zero, and one or two flips never cancel.
-/

namespace PicoApConfigure.RingBuffer

open Nor

/-! ## The CRC is additive -/

theorem and_xor_distrib (left right mask : Crc) :
    (left ^^^ right) &&& mask = (left &&& mask) ^^^ (right &&& mask) := by
  apply BitVec.eq_of_toNat_eq
  simp only [BitVec.toNat_and, BitVec.toNat_xor, Nat.and_xor_distrib_right]

theorem byte_xor_zero (byte : Byte) : byte ^^^ 0 = byte := BitVec.xor_zero

theorem byte_zero_xor (byte : Byte) : 0 ^^^ byte = byte := BitVec.zero_xor

/-- What is added when a bit leaves the register. -/
def feedback (bit : Bool) : Crc := if bit then 0x05 else 0

theorem feedback_xor : ∀ left right : Bool,
    feedback (left ^^ right) = feedback left ^^^ feedback right := by
  decide

theorem crcUpdateBit_eq (c : Byte) (crc : Crc) (i : Nat) :
    crcUpdateBit c crc i = (crc <<< 1) ^^^ feedback (crc.getLsbD 4 ^^ c.getLsbD i) := by
  have test : ∀ (crc : Crc) (bit : Bool),
      ((crc &&& 0x10) ^^^ (if bit then 0x10 else 0) ≠ 0) ↔ (crc.getLsbD 4 ^^ bit) = true := by
    decide
  simp only [crcUpdateBit, test, feedback]
  split
  · rfl
  · exact (byte_xor_zero _).symm

theorem crcUpdateBit_xor (c d : Byte) (crc other : Crc) (i : Nat) :
    crcUpdateBit (c ^^^ d) (crc ^^^ other) i = crcUpdateBit c crc i ^^^ crcUpdateBit d other i := by
  have leaves : ((crc ^^^ other).getLsbD 4 ^^ (c ^^^ d).getLsbD i) =
      ((crc.getLsbD 4 ^^ c.getLsbD i) ^^ (other.getLsbD 4 ^^ d.getLsbD i)) := by
    have swap : ∀ a b c d : Bool, ((a ^^ b) ^^ (c ^^ d)) = ((a ^^ c) ^^ (b ^^ d)) := by decide
    rw [BitVec.getLsbD_xor, BitVec.getLsbD_xor]
    exact swap _ _ _ _
  rw [crcUpdateBit_eq, crcUpdateBit_eq, crcUpdateBit_eq, leaves, feedback_xor,
    BitVec.shiftLeft_xor_distrib]
  ac_rfl

theorem crcUpdateByte_xor (crc other : Crc) (c d : Byte) :
    crcUpdateByte (crc ^^^ other) (c ^^^ d) = crcUpdateByte crc c ^^^ crcUpdateByte other d := by
  have bits : ∀ (positions : List Nat) (crc other : Crc),
      positions.foldl (crcUpdateBit (c ^^^ d)) (crc ^^^ other) =
        positions.foldl (crcUpdateBit c) crc ^^^ positions.foldl (crcUpdateBit d) other := by
    intro positions
    induction positions with
    | nil => exact fun _ _ => rfl
    | cons i positions ih =>
        intro crc other
        rw [List.foldl_cons, crcUpdateBit_xor]
        exact ih _ _
  rw [crcUpdateByte, bits, and_xor_distrib]
  rfl

/-- The CRC of two messages laid over each other. -/
theorem crcUpdate_xor {data error : List Byte} (same : data.length = error.length)
    (crc other : Crc) :
    crcUpdate (crc ^^^ other) (List.zipWith (· ^^^ ·) data error) =
      crcUpdate crc data ^^^ crcUpdate other error := by
  have bytes : ∀ (data error : List Byte) (crc other : Crc), data.length = error.length →
      (List.zipWith (· ^^^ ·) data error).foldl crcUpdateByte (crc ^^^ other) =
        data.foldl crcUpdateByte crc ^^^ error.foldl crcUpdateByte other := by
    intro data
    induction data with
    | nil =>
        intro error crc other same
        obtain rfl := List.length_eq_zero_iff.mp same.symm
        rfl
    | cons c data ih =>
        intro error crc other same
        cases error with
        | nil => cases same
        | cons d error =>
            rw [List.zipWith_cons_cons, List.foldl_cons, crcUpdateByte_xor]
            exact ih error _ _ (Nat.succ.inj same)
  rw [crcUpdate, bytes data error crc other same, and_xor_distrib]
  rfl

/-- An error changes the CRC by what it would be on its own from an empty register. -/
theorem crcOf_xor {data error : List Byte} (same : data.length = error.length) :
    crcOf (List.zipWith (· ^^^ ·) data error) = crcOf data ^^^ crcUpdate 0 error := by
  have apart := crcUpdate_xor same crcInit 0
  rw [byte_xor_zero] at apart
  simp only [crcOf, crcFinalize, apart]
  ac_rfl

/-! ## Flipped bits -/

namespace RbHeader

/-- The header with the three flag bits of `flags`. -/
def withFlags (header : RbHeader) (flags : Byte) : RbHeader :=
  { header with crc := (header.crc &&& 0x1f) ||| (flags &&& 0xe0) }

/-- The header with one of its 29 protected bits flipped: those of `len`, of `id` and the five low
ones of `crc`. -/
def flip (header : RbHeader) (i : Fin 29) : RbHeader :=
  if i.val < 16 then { header with len := header.len ^^^ 2 ^ i.val }
  else if i.val < 24 then { header with id := header.id ^^^ BitVec.ofNat 8 (2 ^ (i.val - 16)) }
  else { header with crc := header.crc ^^^ BitVec.ofNat 8 (2 ^ (i.val - 24)) }

/-- The difference of the CRC that a header should have and the one it has. -/
def check (header : RbHeader) : Crc :=
  crcOf (crcBytes header.len header.id) ^^^ (header.crc &&& 0x1f)

/-- What flipping a bit changes of the check. -/
def syndrome (i : Fin 29) : Crc :=
  if i.val < 16 then crcUpdate 0 (crcBytes (2 ^ i.val) 0)
  else if i.val < 24 then crcUpdate 0 (crcBytes 0 (BitVec.ofNat 8 (2 ^ (i.val - 16))))
  else BitVec.ofNat 8 (2 ^ (i.val - 24))

variable {header : RbHeader} {i j : Fin 29}

theorem crcBytes_xor (len error : Nat) (id mask : Byte) :
    crcBytes (len ^^^ error) (id ^^^ mask) =
      List.zipWith (· ^^^ ·) (crcBytes len id) (crcBytes error mask) := by
  have high : (len ^^^ error) / 256 = len / 256 ^^^ error / 256 := @Nat.xor_div_two_pow len error 8
  simp only [crcBytes, List.zipWith_cons_cons, List.zipWith_nil_left, high, BitVec.ofNat_xor]

@[simp] theorem check_withFlags (header : RbHeader) (flags : Byte) :
    (header.withFlags flags).check = header.check := by
  have mask : ∀ crc flags : Byte,
      ((crc &&& 0x1f) ||| (flags &&& 0xe0)) &&& 0x1f = crc &&& 0x1f := by
    intro crc flags
    rw [BitVec.and_or_distrib_right, BitVec.and_assoc, BitVec.and_assoc]
    simp
  simp only [check, withFlags, mask]

/-- A flipped bit shows in the check. -/
theorem check_flip (header : RbHeader) (i : Fin 29) :
    (header.flip i).check = header.check ^^^ syndrome i := by
  rw [flip, syndrome]
  split
  · have bytes := crcBytes_xor header.len (2 ^ i.val) header.id 0
    rw [byte_xor_zero] at bytes
    have apart := @crcOf_xor (crcBytes header.len header.id) (crcBytes (2 ^ i.val) 0) rfl
    simp only [check, bytes, apart]
    ac_rfl
  · split
    · have bytes := crcBytes_xor header.len 0 header.id (BitVec.ofNat 8 (2 ^ (i.val - 16)))
      rw [Nat.xor_zero] at bytes
      have apart := @crcOf_xor (crcBytes header.len header.id)
        (crcBytes 0 (BitVec.ofNat 8 (2 ^ (i.val - 16)))) rfl
      simp only [check, bytes, apart]
      ac_rfl
    · have low : ∀ i : Fin 29, ¬i.val < 24 → BitVec.ofNat 8 (2 ^ (i.val - 24)) &&& 0x1f =
          BitVec.ofNat 8 (2 ^ (i.val - 24)) := by
        decide
      simp only [check, and_xor_distrib, low i ‹_›]
      ac_rfl

theorem syndrome_ne_zero : ∀ i : Fin 29, syndrome i ≠ 0 := by
  decide +kernel

theorem syndrome_injective : ∀ i j : Fin 29, syndrome i = syndrome j → i = j := by
  decide +kernel

/-- A header is accepted only if its check is zero. -/
theorem check_of_good (good : isHeaderGood header = .ok) : header.check = 0 := by
  have mask : ~~~(rbHeaderSplit ||| rbHeaderNotSmudged ||| rbHeaderUnused) = (0x1f : Byte) := by
    decide
  rw [isHeaderGood] at good
  split at good
  · cases good
  split at good
  · cases good
  rw [isCrcGood, mask] at good
  split at good
  · cases good
  · next equal =>
      rw [check, not_not.mp equal, BitVec.xor_self]
      rfl

end RbHeader

/-- A header that `make_header` builds is accepted with any flags, and it is not accepted any more
when one or two of its protected bits are flipped. -/
theorem data_headers_detect (rbh : RbHeader) {id : Byte} (idBound : id ≠ 0xff) {len : Nat}
    (lenPos : 1 ≤ len) (lenBound : len ≤ rbMaxAppendSize) :
    (makeHeader rbh id len).1 = .ok ∧
    (∀ flags, isHeaderGood ((makeHeader rbh id len).2.withFlags flags) = .ok) ∧
    (∀ i flags, isHeaderGood (((makeHeader rbh id len).2.flip i).withFlags flags) ≠ .ok) ∧
    ∀ i j flags, i ≠ j →
      isHeaderGood ((((makeHeader rbh id len).2.flip i).flip j).withFlags flags) ≠ .ok := by
  have bound : len < 65536 := by
    exact Nat.lt_of_le_of_lt lenBound (by decide)
  have made : makeHeader rbh id len =
      (.ok, { len, id, crc := crcOf (RbHeader.crcBytes len id) }) := by
    have accepts : ¬(len = 0 ∨ id = 0xff) := not_or.mpr ⟨Nat.ne_of_gt lenPos, idBound⟩
    rw [makeHeader, if_neg accepts, Nat.mod_eq_of_lt bound]
  have accepted : ∀ flags,
      isHeaderGood ((makeHeader rbh id len).2.withFlags flags) = .ok := by
    intro flags
    have high : flags &&& 0xe0 &&& 0x1f = 0 := by
      rw [BitVec.and_assoc]
      exact BitVec.and_zero
    rw [made, RbHeader.withFlags, crcOf_low]
    exact isHeaderGood_ok idBound lenPos lenBound high
  have zero : (makeHeader rbh id len).2.check = 0 := by
    have good := RbHeader.check_of_good (accepted 0)
    rwa [RbHeader.check_withFlags] at good
  refine ⟨by rw [made], accepted, ?_, ?_⟩
  · intro i flags good
    have check := RbHeader.check_of_good good
    rw [RbHeader.check_withFlags, RbHeader.check_flip, zero, byte_zero_xor] at check
    exact RbHeader.syndrome_ne_zero i check
  · intro i j flags distinct good
    have check := RbHeader.check_of_good good
    rw [RbHeader.check_withFlags, RbHeader.check_flip, RbHeader.check_flip, zero,
      byte_zero_xor] at check
    exact distinct (RbHeader.syndrome_injective i j (BitVec.xor_eq_zero_iff.mp check))

theorem data_headers_detect_five :
    (makeHeader .blank 1 5).1 = .ok ∧
    (∀ flags, isHeaderGood ((makeHeader .blank 1 5).2.withFlags flags) = .ok) ∧
    (∀ i flags, isHeaderGood (((makeHeader .blank 1 5).2.flip i).withFlags flags) ≠ .ok) ∧
    ∀ i j flags, i ≠ j →
      isHeaderGood ((((makeHeader .blank 1 5).2.flip i).flip j).withFlags flags) ≠ .ok :=
  data_headers_detect .blank (by decide) (by decide) (by decide)

end PicoApConfigure.RingBuffer
