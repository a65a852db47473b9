import PicoApConfigure.Cjson.Item

/-!
# A library of whole numbers

The assumption about the C library is satisfied by the library that has no other numbers.
-/

namespace PicoApConfigure.Cjson

open Nor

/-- The number that digits stand for. -/
def digitsValue (digits : List Byte) : Nat :=
  Nat.ofDigits 10 (digits.reverse.map fun digit => (digit - char '0').toNat)

/-- `strtod` where there are whole numbers only. -/
def strtodInt (text : List Byte) : Int × Nat :=
  if text.head? = some (char '-') then
    let digits := text.tail.takeWhile isDigit
    if digits = [] then (0, 0) else (-digitsValue digits, digits.length + 1)
  else
    let digits := text.takeWhile isDigit
    (digitsValue digits, digits.length)

/-- Whole numbers as the numbers of a C library. -/
def integers : Libc Int where
  ofInt value := value
  toInt value := value
  lt left right := left < right
  le left right := left ≤ right
  eq left right := left = right
  isnan _ := false
  isinf _ := false
  fabs value := value.natAbs
  sub left right := left - right
  mul left right := left * right
  dblEpsilon := 0
  sprintf15 := sprintfD
  sprintf17 := sprintfD
  sscanf text := if (strtodInt text).2 = 0 then none else some (strtodInt text).1
  strtod := strtodInt

/-- The digits of a number stand for it. -/
theorem digitsValue_decimal (value : Nat) : digitsValue (decimal value) = value := by
  rw [decimal]
  split
  next zero => rw [zero]; decide
  next =>
    rw [digitsValue, ← List.map_reverse, List.reverse_reverse, List.map_map]
    have same : (Nat.digits 10 value).map ((fun digit => (digit - char '0').toNat) ∘
        fun digit => char '0' + BitVec.ofNat 8 digit) = Nat.digits 10 value := by
      refine (List.map_congr_left fun digit member => ?_).trans (List.map_id _)
      exact (digit_value ⟨digit, Nat.digits_lt_base (by decide) member⟩).2
    rw [same, Nat.ofDigits_digits]

theorem takeWhile_decimal (value : Nat) : (decimal value).takeWhile isDigit = decimal value :=
  List.takeWhile_eq_self_iff.mpr fun _ member => isDigit_of_mem_decimal member

/-- A printed number is read. -/
theorem strtodInt_sprintfD (value : Int) :
    strtodInt (sprintfD value) = (value, (sprintfD value).length) := by
  rw [sprintfD]
  split
  next negative =>
    rw [strtodInt, List.head?_cons, if_pos rfl]
    dsimp only [List.tail_cons]
    rw [takeWhile_decimal, if_neg (decimal_ne_nil _), digitsValue_decimal, List.length_cons,
      Int.ofNat_natAbs_of_nonpos (Int.le_of_lt negative), Int.neg_neg]
  next nonnegative =>
    have digit : (decimal value.natAbs).head? ≠ some (char '-') := fun head =>
      absurd (isDigit_of_mem_decimal (List.mem_of_head? head)) (by decide)
    rw [strtodInt, if_neg digit]
    dsimp only
    rw [takeWhile_decimal, digitsValue_decimal,
      Int.natAbs_of_nonneg (Int.not_lt.mp nonnegative)]

/-- The assumption about the C library can be satisfied. -/
theorem integers_exact : integers.Exact where
  finite _ _ := ⟨rfl, rfl⟩
  equal _ _ := decide_eq_true rfl
  ordered _ _ _ _ := rfl
  truncated _ _ := rfl
  read value _ := strtodInt_sprintfD value

end PicoApConfigure.Cjson
