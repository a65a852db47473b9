import Mathlib.Data.List.TakeWhile
import PicoApConfigure.Post.Fields

/-!
# What `check_field` returns for any body

A name with its `=` is looked for in the whole body.  The field is taken to be behind the first
place
where it stands, whatever is in front of it there, and to go on up to the next `&`.
-/

namespace PicoApConfigure.Post

open Nor FlashIo

/-- The first place where `name` stands in the chain. -/
def firstPlace (name : List Byte) (p : Pbuf) : Option Nat :=
  (List.range p.length).find? fun k => name.isPrefixOf (p.drop k)

/-- The bytes from `offset` to the next `&`. -/
def valueAt (p : Pbuf) (offset : Nat) : List Byte := (p.drop offset).takeWhile (· ≠ 0x26)

/-- The first place of `name` and the value behind it. -/
def lookup (name : List Byte) (p : Pbuf) : Option (Nat × List Byte) :=
  (firstPlace name p).map fun place => (place, valueAt p (place + name.length))

section FirstPlace

variable {name : List Byte} {p : Pbuf} {place : Nat}

theorem Occurs.lt (occurs : Occurs name p place) (nonempty : name ≠ []) : place < p.length := by
  obtain ⟨front, back, rfl, rfl⟩ := occurs.split nonempty
  have positive := List.length_pos_iff.mpr nonempty
  simp only [List.length_append]
  omega

theorem firstPlace_eq_some (nonempty : name ≠ []) :
    firstPlace name p = some place ↔ Occurs name p place ∧ ∀ k < place, ¬Occurs name p k := by
  rw [firstPlace, List.find?_range_eq_some]
  simp only [occurs_iff, List.mem_range, Bool.not_eq_true', ← Bool.not_eq_true]
  constructor
  · rintro ⟨occurs, -, least⟩
    exact ⟨occurs, least⟩
  · rintro ⟨occurs, least⟩
    exact ⟨occurs, occurs.lt nonempty, least⟩

theorem firstPlace_eq_none (nonempty : name ≠ []) :
    firstPlace name p = none ↔ ∀ k, ¬Occurs name p k := by
  rw [firstPlace, List.find?_eq_none]
  simp only [occurs_iff, List.mem_range]
  constructor
  · intro absent k occurs
    exact absent k (occurs.lt nonempty) occurs
  · exact fun absent k _ => absent k

/-- A name that stands somewhere stands somewhere first. -/
theorem Occurs.firstPlace (occurs : Occurs name p place) (nonempty : name ≠ []) :
    ∃ first, first ≤ place ∧ firstPlace name p = some first := by
  cases known : Post.firstPlace name p with
  | none => exact absurd occurs ((firstPlace_eq_none nonempty).mp known place)
  | some first =>
      refine ⟨first, ?_, rfl⟩
      by_contra before
      exact ((firstPlace_eq_some nonempty).mp known).2 place (Nat.lt_of_not_le before) occurs

end FirstPlace

section Stops

variable {α : Type} [DecidableEq α] {stop : α} {text : List α}

theorem not_mem_takeWhile : stop ∉ text.takeWhile (· ≠ stop) := by
  intro member
  have plain := List.mem_takeWhile_imp member
  simp at plain

theorem dropWhile_cases (stop : α) (text : List α) :
    text.dropWhile (· ≠ stop) = [] ∨ ∃ tail, text.dropWhile (· ≠ stop) = stop :: tail := by
  cases rest : text.dropWhile (· ≠ stop) with
  | nil => exact .inl rfl
  | cons char tail =>
      have stops := List.head?_dropWhile_not (fun x => decide (x ≠ stop)) text
      rw [rest] at stops
      simp only [List.head?_cons, ne_eq, decide_not, Bool.not_eq_eq_eq_not, Bool.not_false,
        decide_eq_true_eq] at stops
      exact .inr ⟨tail, by rw [stops]⟩

end Stops

section ValueAt

variable {p : Pbuf} {offset : Nat}

theorem valueAt_plain : (0x26 : Byte) ∉ valueAt p offset := not_mem_takeWhile

theorem valueAt_here : (p.drop offset).take (valueAt p offset).length = valueAt p offset :=
  (List.prefix_iff_eq_take.mp (List.takeWhile_prefix _)).symm

/-- A value ends with the body or at an `&`. -/
theorem valueAt_ends (p : Pbuf) (offset : Nat) :
    ∃ rest, p.drop offset = valueAt p offset ++ rest ∧ (rest = [] ∨ ∃ tail, rest = 0x26 :: tail) :=
  ⟨_, List.takeWhile_append_dropWhile.symm, dropWhile_cases _ _⟩

theorem valueAt_of_shape {front value rest : List Byte} (shape : p = front ++ value ++ rest)
    (plain : (0x26 : Byte) ∉ value) (ends : rest = [] ∨ ∃ tail, rest = 0x26 :: tail) :
    valueAt p front.length = value := by
  have inside : ∀ char ∈ value, decide (char ≠ 0x26) = true :=
    fun char member => decide_eq_true fun equal => plain (equal ▸ member)
  rw [valueAt, shape, List.append_assoc, List.drop_left, List.takeWhile_append_of_pos inside]
  rcases ends with rfl | ⟨tail, rfl⟩
  · simp
  · simp

theorem valueAt_length (inside : offset ≤ p.length) :
    offset + (valueAt p offset).length ≤ p.length := by
  have short : (valueAt p offset).length ≤ (p.drop offset).length :=
    (List.takeWhile_prefix _).length_le
  rw [List.length_drop] at short
  omega

end ValueAt

/-- A field that is found lies in the body. -/
theorem lookup_inside {name : List Byte} {p : Pbuf} {place : Nat} {value : List Byte}
    (nonempty : name ≠ []) (found : lookup name p = some (place, value)) :
    place + name.length + value.length ≤ p.length ∧ (0x26 : Byte) ∉ value ∧
      (p.drop (place + name.length)).take value.length = value := by
  rw [lookup, Option.map_eq_some_iff] at found
  obtain ⟨first, known, equal⟩ := found
  rw [Prod.mk.injEq] at equal
  obtain ⟨rfl, rfl⟩ := equal
  obtain ⟨front, back, rfl, rfl⟩ := ((firstPlace_eq_some nonempty).mp known).1.split nonempty
  refine ⟨valueAt_length ?_, valueAt_plain, valueAt_here⟩
  simp only [List.length_append]
  omega

/-- What `check_field` returns, with what it has looked for. -/
def fieldOf (nameLength : Nat) : Option (Nat × List Byte) → Nat × Nat
  | none => (0xffff, 0xffff)
  | some (place, value) => (fieldOffset nameLength value place, value.length)

/-- Where `check_field` says that a value of less than `LWIP_POST_BUFSIZE` bytes is, it is. -/
theorem fieldOffset_here {name : List Byte} {p : Pbuf} {place : Nat} {value : List Byte}
    (nonempty : name ≠ []) (found : lookup name p = some (place, value))
    (fits : value.length < postBufsize) :
    fieldOffset name.length value place < p.length ∧
      (p.drop (fieldOffset name.length value place)).take value.length = value := by
  obtain ⟨inside, -, here⟩ := lookup_inside nonempty found
  have positive := List.length_pos_iff.mpr nonempty
  rw [fieldOffset]
  split
  · next accepts =>
      have := accepts.1
      exact ⟨by omega, here⟩
  · next refused =>
      have empty : value = [] := by
        by_contra more
        exact refused ⟨List.length_pos_iff.mpr more, fits⟩
      rw [empty]
      exact ⟨by omega, rfl⟩

/-- `check_field` finds the first place of the name and the value behind it; `tail` is what it does
not look for. -/
theorem checkField_lookup {lib : PbufLib} (lawful : lib.Lawful) {p : Pbuf} {name : List Byte}
    (short : p.length < 0x10000) (noEnd : (0x3d : Byte) ∉ name) (tail : List Byte) :
    checkField lib p (name ++ 0x3d :: tail) =
      fieldOf (name.length + 1) (lookup (name ++ [0x3d]) p) := by
  have nonempty : name ++ [0x3d] ≠ [] := by simp
  rw [lookup]
  cases known : firstPlace (name ++ [0x3d]) p with
  | none =>
      exact checkField_nowhere lawful short noEnd ((firstPlace_eq_none nonempty).mp known) tail
  | some place =>
      obtain ⟨occurs, least⟩ := (firstPlace_eq_some nonempty).mp known
      obtain ⟨front, back, shape, rfl⟩ := occurs.split nonempty
      have length : (front ++ (name ++ [0x3d])).length = front.length + (name ++ [0x3d]).length :=
        List.length_append
      have behind : p.drop (front.length + (name ++ [0x3d]).length) = back := by
        rw [shape, ← List.append_assoc, ← length, List.drop_left]
      obtain ⟨rest, value, ends⟩ := valueAt_ends p (front.length + (name ++ [0x3d]).length)
      rw [behind] at value
      refine checkField_first lawful ?_ short noEnd least valueAt_plain ends tail
      rw [List.append_assoc, ← value, List.append_assoc]
      exact shape

end PicoApConfigure.Post
