import PicoApConfigure.Cjson.RoundTrip

/-!
# Objects

Translation of the functions of cJSON that look up, add and change the items of an object.
-/

namespace PicoApConfigure.Cjson

open Nor

/-- A string literal. -/
def literal (text : String) : CString := CString.ofBytes (text.toList.map char)

/-- `tolower` -/
def tolower (c : Byte) : Byte := if char 'A' ≤ c ∧ c ≤ char 'Z' then c + 32 else c

/-- `case_insensitive_strcmp` up to the terminators. -/
def caseInsensitiveStrcmp : List Byte → List Byte → Int
  | [], [] => 0
  | [], right :: _ => -(tolower right).toNat
  | left :: _, [] => (tolower left).toNat
  | left :: rest, right :: rest' =>
      if tolower left = tolower right then caseInsensitiveStrcmp rest rest'
      else (tolower left).toNat - (tolower right).toNat

/-- The names are the same for `get_object_item`. -/
def sameName (caseSensitive : Bool) (name string : CString) : Bool :=
  if caseSensitive then name = string else caseInsensitiveStrcmp name.val string.val = 0

section Object

variable {Double : Type} (libc : Libc Double)

/-- `child` -/
def Item.child : Item Double → Children Double
  | .array child => child
  | .object child => child
  | _ => .nil

/-- `get_object_item` -/
def getObjectItem (caseSensitive : Bool) (name : CString) : Children Double → Option (Item Double)
  | .nil => none
  | .cons none _ next => if caseSensitive then none else getObjectItem caseSensitive name next
  | .cons (some string) item next =>
      if sameName caseSensitive name string then some item
      else getObjectItem caseSensitive name next

/-- `cJSON_SetNumberHelper`; only numbers have the fields that it changes. -/
def cjsonSetNumberHelper (number : Double) : Item Double → Item Double
  | .number _ _ => .number number (saturated libc number)
  | item => item

/-- A change of the item that `get_object_item` returns. -/
def changeObjectItem (caseSensitive : Bool) (name : CString) (change : Item Double → Item Double) :
    Children Double → Children Double
  | .nil => .nil
  | .cons none item next =>
      if caseSensitive then .cons none item next
      else .cons none item (changeObjectItem caseSensitive name change next)
  | .cons (some string) item next =>
      if sameName caseSensitive name string then .cons (some string) (change item) next
      else .cons (some string) item (changeObjectItem caseSensitive name change next)

/-- The list with one more item, as `add_item_to_array` appends it. -/
def Children.append (string : Option CString) (item : Item Double) :
    Children Double → Children Double
  | .nil => .cons string item .nil
  | .cons first item' next => .cons first item' (next.append string item)

/-- `cJSON_AddItemToArray` -/
def cjsonAddItemToArray (item : Item Double) : Item Double → Item Double
  | .array child => .array (child.append none item)
  | other => other

/-- `cJSON_AddItemToObject` -/
def cjsonAddItemToObject (string : CString) (item : Item Double) : Item Double → Item Double
  | .object child => .object (child.append (some string) item)
  | other => other

/-- `cJSON_AddNumberToObject` -/
def cjsonAddNumberToObject (name : CString) (number : Double) (object : Item Double) :
    Item Double :=
  cjsonAddItemToObject name (cjsonCreateNumber libc number) object

/-- `cJSON_CreateString` -/
def cjsonCreateString (string : CString) : Item Double := .string (some string)

/-- The items of an array of strings, as `cJSON_ArrayForEach` passes them. -/
def Children.strings : Children Double → List CString
  | .nil => []
  | .cons _ (.string (some valuestring)) next => valuestring :: next.strings
  | .cons _ _ next => next.strings

variable {libc}

/-! ## Lookups and changes -/

section Change

variable {caseSensitive : Bool} {name : CString} {change : Item Double → Item Double}

/-- The changed item is found again. -/
theorem getObjectItem_changed (child : Children Double) :
    getObjectItem caseSensitive name (changeObjectItem caseSensitive name change child) =
      (getObjectItem caseSensitive name child).map change := by
  match child with
  | .nil => rw [changeObjectItem, getObjectItem, Option.map_none]
  | .cons none item next =>
      rw [changeObjectItem]
      split
      next sensitive => rw [getObjectItem, if_pos sensitive, Option.map_none]
      next insensitive =>
        rw [getObjectItem, getObjectItem, if_neg insensitive, if_neg insensitive]
        exact getObjectItem_changed next
  | .cons (some string) item next =>
      rw [changeObjectItem]
      split
      next same =>
        rw [getObjectItem, getObjectItem, if_pos same, if_pos same, Option.map_some]
      next different =>
        rw [getObjectItem, getObjectItem, if_neg different, if_neg different]
        exact getObjectItem_changed next

/-- A lookup that does not mean the changed item finds what it found before. -/
theorem getObjectItem_other {caseSensitive' : Bool} {other : CString}
    (apart : ∀ string, sameName caseSensitive name string = true →
      sameName caseSensitive' other string = false) (child : Children Double) :
    getObjectItem caseSensitive' other (changeObjectItem caseSensitive name change child) =
      getObjectItem caseSensitive' other child := by
  match child with
  | .nil => rw [changeObjectItem]
  | .cons none item next =>
      rw [changeObjectItem]
      split
      next => rfl
      next =>
        rw [getObjectItem, getObjectItem, getObjectItem_other apart next]
  | .cons (some string) item next =>
      rw [changeObjectItem]
      split
      next same =>
        have different : ¬ sameName caseSensitive' other string = true := by
          rw [apart string same]
          exact Bool.false_ne_true
        rw [getObjectItem, getObjectItem, if_neg different, if_neg different]
      next => rw [getObjectItem, getObjectItem, getObjectItem_other apart next]

/-- A member that is found is plain where all members are. -/
theorem Children.PlainMembers.found {child : Children Double} (plain : child.PlainMembers libc)
    {item : Item Double} (found : getObjectItem caseSensitive name child = some item) :
    item.Plain libc := by
  match child with
  | .nil =>
      rw [getObjectItem] at found
      cases found
  | .cons none _ next => exact absurd rfl plain.1
  | .cons (some string) _ next =>
      rw [getObjectItem] at found
      split at found
      next =>
        cases found
        exact plain.2.1
      next => exact Children.PlainMembers.found plain.2.2 found

/-- A change of a member that keeps it plain keeps the object plain. -/
theorem Children.PlainMembers.changed
    (keeps : ∀ item : Item Double, item.Plain libc → (change item).Plain libc)
    {child : Children Double} (plain : child.PlainMembers libc) :
    (changeObjectItem caseSensitive name change child).PlainMembers libc := by
  match child with
  | .nil =>
      rw [changeObjectItem]
      trivial
  | .cons none _ next => exact absurd rfl plain.1
  | .cons (some string) item next =>
      rw [changeObjectItem]
      split
      next => exact ⟨plain.1, keeps item plain.2.1, plain.2.2⟩
      next => exact ⟨plain.1, plain.2.1, Children.PlainMembers.changed keeps plain.2.2⟩

/-- A change that does not nest deeper. -/
theorem nesting_changed (keeps : ∀ item : Item Double, (change item).nesting ≤ item.nesting)
    (child : Children Double) :
    (changeObjectItem caseSensitive name change child).nesting ≤ child.nesting := by
  match child with
  | .nil => rw [changeObjectItem]
  | .cons none item next =>
      have rest := nesting_changed keeps next
      rw [changeObjectItem]
      split
      next => exact Nat.le_refl _
      next =>
        rw [Children.nesting, Children.nesting]
        exact max_le_max_left _ rest
  | .cons (some string) item next =>
      have rest := nesting_changed keeps next
      rw [changeObjectItem]
      split
      next =>
        rw [Children.nesting, Children.nesting]
        exact max_le_max_right _ (keeps item)
      next =>
        rw [Children.nesting, Children.nesting]
        exact max_le_max_left _ rest

end Change

/-! ## Numbers -/

/-- A plain item stays plain if its number is set to an `int`. -/
theorem cjsonSetNumberHelper_plain (exact' : libc.Exact) {value : Int} (isInt : IsInt value)
    {item : Item Double} (plain : item.Plain libc) :
    (cjsonSetNumberHelper libc (libc.ofInt value) item).Plain libc := by
  cases item with
  | number valuedouble valueint =>
      rw [cjsonSetNumberHelper, saturated_ofInt exact' isInt]
      exact ⟨isInt, rfl⟩
  | _ => exact plain

theorem cjsonSetNumberHelper_nesting (number : Double) (item : Item Double) :
    (cjsonSetNumberHelper libc number item).nesting ≤ item.nesting := by
  cases item <;> exact Nat.le_refl _

end Object

end PicoApConfigure.Cjson
