import PicoApConfigure.Nor.Memory
import Mathlib.Data.List.TakeWhile
import Mathlib.Data.Nat.Digits.Defs

/-!
# JSON items

The tree of `cJSON` items.  The children of an array or an object are a linked list; the name of a
member is in the list.  Floating point numbers are those of a C library, which is a parameter.
-/

namespace PicoApConfigure.Cjson

open Nor

/-- The byte of a character. -/
def char (c : Char) : Byte := BitVec.ofNat 8 c.toNat

/-- `INT_MAX` -/
def intMax : Int := 2147483647

/-- `INT_MIN` -/
def intMin : Int := -2147483648

/-- `CJSON_NESTING_LIMIT` -/
def cjsonNestingLimit : Nat := 1000

/-- The bytes of a C string in front of its terminator. -/
abbrev CString := { bytes : List Byte // (0 : Byte) ∉ bytes }

/-- The C string at the start of some bytes. -/
def CString.ofBytes (bytes : List Byte) : CString :=
  ⟨bytes.takeWhile (· ≠ 0), fun member => by
    simpa using List.all_eq_true.mp List.all_takeWhile _ member⟩

theorem CString.ofBytes_val (string : CString) : CString.ofBytes string.val = string :=
  Subtype.ext (List.takeWhile_eq_self_iff.mpr fun _ member =>
    decide_eq_true fun zero => string.property (zero ▸ member))

/-! ## Numbers -/

/-- The digits of a number. -/
def decimal (value : Nat) : List Byte :=
  if value = 0 then [char '0']
  else (Nat.digits 10 value).reverse.map fun digit => char '0' + BitVec.ofNat 8 digit

/-- `sprintf` with the format `%d`. -/
def sprintfD (value : Int) : List Byte :=
  if value < 0 then char '-' :: decimal value.natAbs else decimal value.natAbs

/-- A byte is a digit. -/
def isDigit (c : Byte) : Bool := char '0' ≤ c ∧ c ≤ char '9'

theorem digit_value : ∀ digit : Fin 10,
    isDigit (char '0' + BitVec.ofNat 8 digit) = true ∧
      (char '0' + BitVec.ofNat 8 digit - char '0').toNat = digit := by
  decide

theorem decimal_ne_nil (value : Nat) : decimal value ≠ [] := by
  rw [decimal]
  split
  next => exact List.cons_ne_nil _ _
  next positive =>
    intro empty
    rw [List.map_eq_nil_iff, List.reverse_eq_nil_iff] at empty
    exact positive (Nat.digits_eq_nil_iff_eq_zero.mp empty)

theorem isDigit_of_mem_decimal {value : Nat} {byte : Byte} (member : byte ∈ decimal value) :
    isDigit byte = true := by
  rw [decimal] at member
  split at member
  next =>
    cases List.mem_singleton.mp member
    decide
  next =>
    obtain ⟨digit, inDigits, rfl⟩ := List.mem_map.mp member
    have below := Nat.digits_lt_base (by decide) (List.mem_reverse.mp inDigits)
    exact (digit_value ⟨digit, below⟩).1

/-- What cJSON uses of the numbers of the C library. -/
structure Libc (Double : Type) where
  /-- The conversion of an `int`. -/
  ofInt : Int → Double
  /-- The conversion to `int`. -/
  toInt : Double → Int
  lt : Double → Double → Bool
  le : Double → Double → Bool
  eq : Double → Double → Bool
  isnan : Double → Bool
  isinf : Double → Bool
  fabs : Double → Double
  sub : Double → Double → Double
  mul : Double → Double → Double
  dblEpsilon : Double
  /-- `sprintf` with the format `%1.15g`. -/
  sprintf15 : Double → List Byte
  /-- `sprintf` with the format `%1.17g`. -/
  sprintf17 : Double → List Byte
  /-- `sscanf` with the format `%lg`. -/
  sscanf : List Byte → Option Double
  /-- `strtod`: the number and how many bytes it took. -/
  strtod : List Byte → Double × Nat

/-- The value is an `int`. -/
structure IsInt (value : Int) : Prop where
  lower : intMin ≤ value
  upper : value ≤ intMax

/-- What cJSON relies on for whole numbers: an `int` is a finite `double`, the conversions and
comparisons are exact, and `strtod` reads what `sprintf` prints. -/
structure Libc.Exact {Double : Type} (libc : Libc Double) : Prop where
  finite : ∀ value, IsInt value →
    libc.isnan (libc.ofInt value) = false ∧ libc.isinf (libc.ofInt value) = false
  equal : ∀ value, IsInt value → libc.eq (libc.ofInt value) (libc.ofInt value) = true
  ordered : ∀ left right, IsInt left → IsInt right →
    libc.le (libc.ofInt left) (libc.ofInt right) = decide (left ≤ right)
  truncated : ∀ value, IsInt value → libc.toInt (libc.ofInt value) = value
  read : ∀ value, IsInt value →
    libc.strtod (sprintfD value) = (libc.ofInt value, (sprintfD value).length)

/-! ## Items -/

mutual

/-- `cJSON`, by its `type`. -/
inductive Item (Double : Type) where
  | invalid
  | null
  | false
  | true
  | number (valuedouble : Double) (valueint : Int)
  | raw (valuestring : Option CString)
  | string (valuestring : Option CString)
  | array (child : Children Double)
  | object (child : Children Double)

/-- A list of items with their `string`. -/
inductive Children (Double : Type) where
  | nil
  | cons (string : Option CString) (item : Item Double) (next : Children Double)

end

variable {Double : Type}

/-- `valueint` of a number: saturated where the number is no `int`. -/
def saturated (libc : Libc Double) (number : Double) : Int :=
  if libc.le (libc.ofInt intMax) number then intMax
  else if libc.le number (libc.ofInt intMin) then intMin
  else libc.toInt number

/-- `cJSON_CreateNumber` -/
def cjsonCreateNumber (libc : Libc Double) (number : Double) : Item Double :=
  .number number (saturated libc number)

/-- An `int` keeps its value. -/
theorem saturated_ofInt {libc : Libc Double} (exact' : libc.Exact) {value : Int}
    (isInt : IsInt value) : saturated libc (libc.ofInt value) = value := by
  have lower := isInt.lower
  have upper := isInt.upper
  have least : IsInt intMin := ⟨by decide, by decide⟩
  have greatest : IsInt intMax := ⟨by decide, by decide⟩
  rw [saturated, exact'.ordered intMax value greatest isInt,
    exact'.ordered value intMin isInt least, exact'.truncated value isInt]
  simp only [decide_eq_true_eq]
  split
  next above => omega
  next =>
    split
    next below => omega
    next => rfl

end PicoApConfigure.Cjson
