import Mathlib.Data.List.Basic
import Mathlib.Tactic.Common

/-!
# Byte-addressed memories

A memory is a total function from addresses to bytes.  Ranges are read as lists
(`slice`), and a range that is known to carry a given list of bytes is described
by `Holds`, which splits along list concatenation.
-/

namespace Nor

/-- An eight-bit byte. -/
abbrev Byte := BitVec 8

/-- Contents of a byte-addressed memory. -/
abbrev Memory := Nat → Byte

/-- The value of an erased byte. -/
abbrev blankByte : Byte := 0xff

/-- The `size` bytes that start at `address`. -/
def slice (memory : Memory) (address size : Nat) : List Byte :=
  (List.range size).map fun offset => memory (address + offset)

/-- `memory` carries `bytes` from `address` on. -/
def Holds (memory : Memory) (address : Nat) (bytes : List Byte) : Prop :=
  slice memory address bytes.length = bytes

/-- `size` erased bytes. -/
def blanks (size : Nat) : List Byte := List.replicate size blankByte

/-- Ordinary RAM store: replace the bytes from `address` on. -/
def store (memory : Memory) (address : Nat) (bytes : List Byte) : Memory :=
  fun query =>
    if address ≤ query then (bytes[query - address]?).getD (memory query)
    else memory query

@[simp] theorem slice_length (memory : Memory) (address size : Nat) :
    (slice memory address size).length = size := by
  simp [slice]

@[simp] theorem slice_zero (memory : Memory) (address : Nat) :
    slice memory address 0 = [] := rfl

@[simp] theorem slice_getElem (memory : Memory) (address size offset : Nat)
    (inBounds : offset < (slice memory address size).length) :
    (slice memory address size)[offset] = memory (address + offset) := by
  simp [slice]

theorem slice_add (memory : Memory) (address left right : Nat) :
    slice memory address (left + right) =
      slice memory address left ++ slice memory (address + left) right := by
  simp [slice, List.range_add, Nat.add_assoc]

/-- Two memories that agree on a range have the same slice there. -/
theorem slice_congr {left right : Memory} {address size : Nat}
    (agree : ∀ query, address ≤ query → query < address + size →
      left query = right query) :
    slice left address size = slice right address size := by
  simp only [slice, List.map_inj_left, List.mem_range]
  intro offset inRange
  exact agree _ (by omega) (by omega)

theorem slice_take (memory : Memory) (address : Nat) {size limit : Nat}
    (le : limit ≤ size) :
    (slice memory address size).take limit = slice memory address limit := by
  obtain ⟨extra, rfl⟩ := Nat.exists_eq_add_of_le le
  rw [slice_add, List.take_append_of_le_length (by simp)]
  simp [List.take_of_length_le]

theorem slice_drop (memory : Memory) (address size skipped : Nat) :
    (slice memory address size).drop skipped =
      slice memory (address + skipped) (size - skipped) := by
  apply List.ext_getElem
  · simp
  · intro offset _ _
    simp [Nat.add_assoc]

theorem holds_iff {memory : Memory} {address : Nat} {bytes : List Byte} :
    Holds memory address bytes ↔
      ∀ offset (inBounds : offset < bytes.length),
        memory (address + offset) = bytes[offset] := by
  constructor
  · intro holds offset inBounds
    have selected := congrArg (fun values : List Byte => values[offset]?) holds
    simpa [slice, inBounds] using selected
  · intro pointwise
    apply List.ext_getElem (by simp)
    intro offset _ inBounds
    simpa using pointwise offset inBounds

@[simp] theorem holds_nil (memory : Memory) (address : Nat) :
    Holds memory address [] := rfl

@[simp] theorem holds_append {memory : Memory} {address : Nat}
    {left right : List Byte} :
    Holds memory address (left ++ right) ↔
      Holds memory address left ∧ Holds memory (address + left.length) right := by
  simp only [Holds, List.length_append, slice_add]
  constructor
  · intro equal
    exact List.append_inj equal (by simp)
  · intro ⟨leftEqual, rightEqual⟩
    rw [leftEqual, rightEqual]

theorem Holds.slice_eq {memory : Memory} {address size : Nat} {bytes : List Byte}
    (holds : Holds memory address bytes) (length : bytes.length = size) :
    slice memory address size = bytes := by
  subst size
  exact holds

theorem Holds.congr {left right : Memory} {address : Nat} {bytes : List Byte}
    (holds : Holds left address bytes)
    (agree : ∀ query, address ≤ query → query < address + bytes.length →
      left query = right query) : Holds right address bytes := by
  rw [Holds, ← slice_congr agree]
  exact holds

@[simp] theorem blanks_length (size : Nat) : (blanks size).length = size := by
  simp [blanks]

@[simp] theorem blanks_zero : blanks 0 = [] := rfl

theorem blanks_add (left right : Nat) :
    blanks (left + right) = blanks left ++ blanks right :=
  List.replicate_add left right blankByte

@[simp] theorem blanks_getElem (size offset : Nat) (inBounds : offset < (blanks size).length) :
    (blanks size)[offset] = blankByte := by
  simp [blanks]

/-- A blank range is a range of erased bytes. -/
theorem holds_blanks_iff {memory : Memory} {address size : Nat} :
    Holds memory address (blanks size) ↔
      ∀ query, address ≤ query → query < address + size →
        memory query = blankByte := by
  simp only [holds_iff, blanks_length, blanks_getElem]
  constructor
  · intro blank query lower upper
    have := blank (query - address) (by omega)
    rwa [Nat.add_sub_cancel' lower] at this
  · intro blank offset inBounds
    exact blank _ (by omega) (by omega)

/-- A blank range contains every shorter blank range. -/
theorem Holds.blanks_sub {memory : Memory} {address size start length : Nat}
    (blank : Holds memory address (blanks size))
    (lower : address ≤ start) (upper : start + length ≤ address + size) :
    Holds memory start (blanks length) := by
  rw [holds_blanks_iff] at blank ⊢
  intro query above below
  exact blank query (by omega) (by omega)

theorem store_of_lt (memory : Memory) {address query : Nat} (bytes : List Byte)
    (below : query < address) : store memory address bytes query = memory query := by
  simp [store, Nat.not_le.mpr below]

theorem store_of_le (memory : Memory) {address query : Nat} (bytes : List Byte)
    (above : address + bytes.length ≤ query) :
    store memory address bytes query = memory query := by
  have outside : bytes.length ≤ query - address := by omega
  simp [store, List.getElem?_eq_none outside]

theorem store_apart (memory : Memory) {address query : Nat} (bytes : List Byte)
    (apart : query < address ∨ address + bytes.length ≤ query) :
    store memory address bytes query = memory query := by
  rcases apart with below | above
  · exact store_of_lt memory bytes below
  · exact store_of_le memory bytes above

/-- A store is read back exactly. -/
theorem holds_store (memory : Memory) (address : Nat) (bytes : List Byte) :
    Holds (store memory address bytes) address bytes := by
  rw [holds_iff]
  intro offset inBounds
  simp [store, inBounds]

theorem store_at (memory : Memory) (address : Nat) {bytes : List Byte} {offset : Nat}
    (inBounds : offset < bytes.length) :
    store memory address bytes (address + offset) = bytes[offset] := by
  simp [store, inBounds]

/-- A later store over the same range hides an earlier one. -/
theorem store_store_of_subset (memory : Memory) {inner outer : Nat}
    {first second : List Byte} (lower : outer ≤ inner)
    (upper : inner + first.length ≤ outer + second.length) :
    store (store memory inner first) outer second = store memory outer second := by
  funext query
  by_cases below : query < outer
  · rw [store_of_lt _ _ below, store_of_lt _ _ below, store_of_lt _ _ (by omega)]
  obtain ⟨offset, rfl⟩ := Nat.exists_eq_add_of_le (Nat.not_lt.mp below)
  by_cases inside : offset < second.length
  · rw [store_at _ _ inside, store_at _ _ inside]
  · rw [store_of_le _ _ (by omega), store_of_le _ _ (by omega),
      store_of_le _ _ (by omega)]

@[simp] theorem store_nil (memory : Memory) (address : Nat) :
    store memory address [] = memory := by
  funext query
  simp [store]

/-- Two adjacent stores are one. -/
theorem store_append (memory : Memory) (address : Nat) (left right : List Byte) :
    store (store memory address left) (address + left.length) right =
      store memory address (left ++ right) := by
  funext query
  by_cases below : query < address
  · rw [store_of_lt _ _ (by omega), store_of_lt _ _ below, store_of_lt _ _ below]
  obtain ⟨offset, rfl⟩ := Nat.exists_eq_add_of_le (Nat.not_lt.mp below)
  by_cases inLeft : offset < left.length
  · rw [store_of_lt _ _ (by omega), store_at _ _ inLeft, store_at _ _ (by simp; omega),
      List.getElem_append_left inLeft]
  obtain ⟨rest, rfl⟩ := Nat.exists_eq_add_of_le (Nat.not_lt.mp inLeft)
  by_cases inRight : rest < right.length
  · rw [← Nat.add_assoc, store_at _ _ inRight, Nat.add_assoc, store_at _ _ (by simp; omega)]
    simp
  · rw [store_of_le _ _ (by omega), store_of_le _ _ (by omega),
      store_of_le _ _ (by simp; omega)]

end Nor
