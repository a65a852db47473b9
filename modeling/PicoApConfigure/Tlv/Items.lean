import PicoApConfigure.Nor.Memory

/-!
# Sequences of tagged values

An item is a tag byte, a byte with the length and that many bytes of value.  A sequence of items
is closed by a byte that is no tag.
-/

namespace Tlv

open Nor

/-- A tag with its value. -/
structure Item where
  tag : Byte
  value : List Byte
  deriving DecidableEq

/-- The bytes of an item. -/
def Item.bytes (item : Item) : List Byte :=
  item.tag :: BitVec.ofNat 8 item.value.length :: item.value

@[simp] theorem Item.bytes_length (item : Item) :
    item.bytes.length = 2 + item.value.length := by
  simp only [Item.bytes, List.length_cons]
  omega

/-- The value of an item in memory. -/
theorem holds_value {memory : Memory} {place : Nat} {item : Item}
    (holds : Holds memory place item.bytes) : Holds memory (place + 2) item.value := by
  have bytes : item.bytes = [item.tag, BitVec.ofNat 8 item.value.length] ++ item.value := rfl
  rw [bytes, holds_append] at holds
  exact holds.2

/-- The length of the value fits its byte, and the tag is none that closes a sequence. -/
structure Item.Proper (closing : Byte) (item : Item) : Prop where
  short : item.value.length ≤ 255
  opens : item.tag ≠ closing

/-- The bytes of the items one after the other. -/
def encode (items : List Item) : List Byte := items.flatMap Item.bytes

@[simp] theorem encode_nil : encode [] = [] := rfl

@[simp] theorem encode_cons (item : Item) (items : List Item) :
    encode (item :: items) = item.bytes ++ encode items := rfl

theorem encode_append (left right : List Item) :
    encode (left ++ right) = encode left ++ encode right :=
  List.flatMap_append

/-- Where the first item with the tag starts. -/
def place (tag : Byte) : List Item → Option Nat
  | [] => none
  | item :: rest =>
      if item.tag = tag then some 0
      else (place tag rest).map (item.bytes.length + ·)

/-- The first item with the tag. -/
def first (tag : Byte) (items : List Item) : Option Item := items.find? fun item => item.tag = tag

theorem first_mem {tag : Byte} {items : List Item} {item : Item}
    (found : first tag items = some item) : item ∈ items ∧ item.tag = tag := by
  have tagged := List.find?_some found
  exact ⟨List.mem_of_find?_eq_some found, of_decide_eq_true tagged⟩

/-- The first item with the tag in memory, or no item has the tag. -/
theorem place_cases {memory : Memory} {address : Nat} {items : List Item} (tag : Byte)
    (holds : Holds memory address (encode items)) :
    (place tag items = none ∧ first tag items = none) ∨
      ∃ offset item, place tag items = some offset ∧ first tag items = some item ∧
        Holds memory (address + offset) item.bytes := by
  induction items generalizing address with
  | nil => exact .inl ⟨rfl, rfl⟩
  | cons head rest ih =>
      rw [encode_cons, holds_append] at holds
      rw [place, first, List.find?_cons]
      by_cases same : head.tag = tag
      · rw [if_pos same, decide_eq_true same]
        exact .inr ⟨0, head, rfl, rfl, holds.1⟩
      · rw [if_neg same, decide_eq_false same]
        rcases ih holds.2 with ⟨nowhere, none⟩ | ⟨offset, item, found, some, bytes⟩
        · exact .inl ⟨by rw [nowhere]; rfl, none⟩
        · refine .inr ⟨head.bytes.length + offset, item, by rw [found]; rfl, some, ?_⟩
          rwa [← Nat.add_assoc]

end Tlv
