import PicoApConfigure.Cjson.Integers
import PicoApConfigure.Cjson.Object
import PicoApConfigure.Json.Counter

/-!
# The objects of cJSON

What the other modules assume of the JSON library holds of cJSON, for the objects that the devices
send to each other.
-/

namespace PicoApConfigure.Json

open Nor Cjson

/-- `"update_count"` -/
def updateCountName : CString := literal "update_count"

/-- `"buddy_ip"` -/
def buddyIpName : CString := literal "buddy_ip"

/-- An object as the parser makes it, with numbers that are `int`. -/
structure PlainObject {Double : Type} (libc : Libc Double) where
  child : Children Double
  plain : child.PlainMembers libc
  shallow : child.nesting + 1 ≤ cjsonNestingLimit

namespace PlainObject

variable {Double : Type} {libc : Libc Double}

/-- The item of the object. -/
def item (object : PlainObject libc) : Item Double := .object object.child

theorem item_injective {left right : PlainObject libc} (same : left.item = right.item) :
    left = right := by
  obtain ⟨child, _, _⟩ := left
  obtain ⟨child', _, _⟩ := right
  cases same
  rfl

/-- The number that `get_mirror_update_count` reads. -/
def updateCount (object : PlainObject libc) : Option Int :=
  match getObjectItem false updateCountName object.child with
  | some (.number _ valueint) => some valueint
  | _ => none

/-- The strings of the list that `tcp_client_json_update_buddies` passes through. -/
def buddyIp (object : PlainObject libc) : List (List Byte) :=
  match getObjectItem true buddyIpName object.child with
  | some buddys => buddys.child.strings.map Subtype.val
  | none => []

/-- The text of the object. -/
def text (object : PlainObject libc) : List Byte := itemText libc false 0 object.item

/-- `cJSON_PrintPreallocated`, with the bytes it stores: those that do not depend on what was in the
buffer. -/
def printPreallocated (object : PlainObject libc) (size : Nat) : Bool × List Byte :=
  let printed (fill : Byte) :=
    cjsonPrintPreallocated libc object.item (fun _ => fill) (int32 size) false
  let stored := (slice (printed 0).2 0 size).zip (slice (printed 1).2 0 size)
  ((printed 0).1, (stored.takeWhile fun both => both.1 = both.2).map Prod.fst)

/-- A length that `strlen` may return; where nothing ends the string, any. -/
structure MayEnd (memory : Memory) (length : Nat) : Prop where
  string : ∀ offset < length, memory offset ≠ 0
  ends : memory length = 0 ∨ ∀ offset, memory offset ≠ 0

/-- `cJSON_Parse` makes the object of the memory, wherever the string ends from some length on. -/
def ParsedFrom (memory : Memory) (object : PlainObject libc) : Prop :=
  ∃ length, MayEnd memory length ∧ ∀ longer, length ≤ longer → MayEnd memory longer →
    cjsonParse libc memory longer = some object.item

section Count

variable (exact' : libc.Exact)

/-- `cJSON_SetNumberValue` of the number, where it is an `int`. -/
def setUpdateCount (object : PlainObject libc) (count : Int) : PlainObject libc :=
  if isInt : intMin ≤ count ∧ count ≤ intMax then
    { child := changeObjectItem false updateCountName
        (cjsonSetNumberHelper libc (libc.ofInt count)) object.child
      plain := object.plain.changed fun _ plain =>
        cjsonSetNumberHelper_plain exact' ⟨isInt.1, isInt.2⟩ plain
      shallow := Nat.le_trans
        (Nat.add_le_add_right (nesting_changed (cjsonSetNumberHelper_nesting _) _) 1)
        object.shallow }
  else object

end Count

end PlainObject

/-! ## The object of a device -/

/-- `local_host_name` -/
abbrev LocalHostName := { name : CString // name.val.length < 20 }

/-- `get_localhostname_and_port` -/
def getLocalhostnameAndPort (localHostName : LocalHostName) (maxlen : Nat) : CString :=
  let name := localHostName.val.val
  let domain := (literal ".local").val
  CString.ofBytes (name.take maxlen ++ domain.take (maxlen - name.length - domain.length))

/-- The value of `junk1`, `junk2` and `junk3`. -/
def junk : CString := literal ("This is a very long string to test large json sending. " ++
  "0123456789, 1123456789, 2123456789, 3123456789, 4123456789")

section Mirror

variable {Double : Type} (libc : Libc Double)

/-- The object that `get_mirror` creates. -/
def createMirror (localHostName : LocalHostName) : Item Double :=
  let mirror := .object .nil
  let mirror := cjsonAddItemToObject (literal "json_version") (cjsonCreateString (literal "1.0"))
    mirror
  let mirror := cjsonAddNumberToObject libc updateCountName (libc.ofInt defaultUpdateCount) mirror
  let mirror := cjsonAddItemToObject (literal "server_version")
    (cjsonCreateString (literal "1.0")) mirror
  let buddyArray := .array .nil
  let buddyArray := cjsonAddItemToArray (cjsonCreateString (literal "george.local")) buddyArray
  let buddyArray := cjsonAddItemToArray (cjsonCreateString (literal "freddy.local")) buddyArray
  let mirror := cjsonAddItemToObject buddyIpName buddyArray mirror
  let name := getLocalhostnameAndPort localHostName 64
  let mirror := cjsonAddItemToObject (literal "server_ip") (cjsonCreateString name) mirror
  let mirror := cjsonAddItemToObject (literal "well_delay") (cjsonCreateString (literal "1")) mirror
  let mirror := cjsonAddItemToObject (literal "skip_days") (cjsonCreateString (literal "0")) mirror
  let mirror := cjsonAddItemToObject (literal "junk1") (cjsonCreateString junk) mirror
  let mirror := cjsonAddItemToObject (literal "junk2") (cjsonCreateString junk) mirror
  cjsonAddItemToObject (literal "junk3") (cjsonCreateString junk) mirror

/-- The members behind the count. -/
def membersBehind (localHostName : LocalHostName) : Children Double :=
  .cons (some (literal "server_version")) (cjsonCreateString (literal "1.0")) <|
  .cons (some buddyIpName) (.array <|
    .cons none (cjsonCreateString (literal "george.local")) <|
    .cons none (cjsonCreateString (literal "freddy.local")) .nil) <|
  .cons (some (literal "server_ip"))
    (cjsonCreateString (getLocalhostnameAndPort localHostName 64)) <|
  .cons (some (literal "well_delay")) (cjsonCreateString (literal "1")) <|
  .cons (some (literal "skip_days")) (cjsonCreateString (literal "0")) <|
  .cons (some (literal "junk1")) (cjsonCreateString junk) <|
  .cons (some (literal "junk2")) (cjsonCreateString junk) <|
  .cons (some (literal "junk3")) (cjsonCreateString junk) .nil

/-- The members with the number of the count. -/
def mirrorMembers (localHostName : LocalHostName) (count : Item Double) : Children Double :=
  .cons (some (literal "json_version")) (cjsonCreateString (literal "1.0")) <|
  .cons (some updateCountName) count (membersBehind localHostName)

theorem createMirror_eq (localHostName : LocalHostName) :
    createMirror libc localHostName = .object
      (mirrorMembers localHostName (cjsonCreateNumber libc (libc.ofInt defaultUpdateCount))) :=
  rfl

theorem mirrorMembers_nesting (localHostName : LocalHostName) (valuedouble : Double)
    (valueint : Int) :
    (mirrorMembers localHostName (.number valuedouble valueint)).nesting = 1 := by
  rfl

variable {libc}

theorem cjsonCreateNumber_plain (exact' : libc.Exact) {value : Int} (isInt : IsInt value) :
    (cjsonCreateNumber libc (libc.ofInt value)).Plain libc := by
  rw [cjsonCreateNumber, saturated_ofInt exact' isInt]
  exact ⟨isInt, rfl⟩

theorem mirrorMembers_plain (localHostName : LocalHostName) {count : Item Double}
    (plain : count.Plain libc) : (mirrorMembers localHostName count).PlainMembers libc :=
  have named : ∀ name : CString, some name ≠ none := fun _ => Option.some_ne_none _
  have buddies : Children.PlainElements libc
      (.cons none (cjsonCreateString (literal "george.local")) <|
        .cons none (cjsonCreateString (literal "freddy.local")) .nil) :=
    ⟨rfl, named _, rfl, named _, trivial⟩
  ⟨named _, named _, named _, plain, named _, named _, named _, buddies, named _, named _,
    named _, named _, named _, named _, named _, named _, named _, named _, named _, named _,
    trivial⟩

/-- The object that `get_mirror` creates. -/
def PlainObject.created (exact' : libc.Exact) (localHostName : LocalHostName) :
    PlainObject libc where
  child := (createMirror libc localHostName).child
  plain := mirrorMembers_plain localHostName
    (cjsonCreateNumber_plain exact' ⟨by decide, by decide⟩)
  shallow := by
    rw [createMirror_eq, Item.child, cjsonCreateNumber, mirrorMembers_nesting]
    decide

end Mirror

/-! ## What is parsed -/

namespace PlainObject

variable {Double : Type} {libc : Libc Double} {memory : Memory}

open Classical in
/-- `cJSON_Parse`, where the item is such an object.  Nothing bounds `strlen` in a memory without a
terminator, so this is not executable; `parse_string` says what it is for a string. -/
noncomputable def parse (memory : Memory) : Option (PlainObject libc) :=
  if parsed : ∃ object, ParsedFrom memory object then some parsed.choose else none

theorem ParsedFrom.unique {left right : PlainObject libc} (first : ParsedFrom memory left)
    (second : ParsedFrom memory right) : left = right := by
  obtain ⟨length, ends, parsed⟩ := first
  obtain ⟨length', ends', parsed'⟩ := second
  have both : MayEnd memory (max length length') := by
    rcases le_total length length' with below | above
    · rwa [max_eq_right below]
    · rwa [max_eq_left above]
  exact item_injective (Option.some.inj
    ((parsed _ (le_max_left _ _) both).symm.trans (parsed' _ (le_max_right _ _) both)))

theorem parse_eq_some {object : PlainObject libc} :
    parse memory = some object ↔ ParsedFrom memory object := by
  rw [parse]
  split
  next parsed =>
    rw [Option.some.injEq]
    exact ⟨fun same => same ▸ parsed.choose_spec, fun from' => parsed.choose_spec.unique from'⟩
  next never => exact ⟨fun same => absurd same.symm (Option.some_ne_none _),
    fun from' => absurd ⟨object, from'⟩ never⟩

/-- A string is parsed up to its terminator. -/
theorem parse_string {length : Nat} (string : Strlen memory length) (object : PlainObject libc) :
    parse memory = some object ↔ cjsonParse libc memory length = some object.item := by
  have only : ∀ other, MayEnd memory other → other = length := by
    intro other mayEnd
    rcases mayEnd.ends with zero | never
    · rcases Nat.lt_trichotomy other length with less | same | greater
      · exact absurd zero (string.text other less)
      · exact same
      · exact absurd string.terminator (mayEnd.string length greater)
    · exact absurd string.terminator (never length)
  rw [parse_eq_some]
  constructor
  · rintro ⟨other, mayEnd, parsed⟩
    cases only other mayEnd
    exact parsed length (Nat.le_refl _) mayEnd
  · intro parsed
    refine ⟨length, ⟨string.text, .inl string.terminator⟩, fun longer _ mayEnd => ?_⟩
    cases only longer mayEnd
    exact parsed

/-- A string with a text in front ends behind it. -/
theorem exists_mayEnd {text : List Byte} (holds : Holds memory 0 text) (nonzero : 0 ∉ text) :
    ∃ length, text.length ≤ length ∧ MayEnd memory length := by
  by_cases ended : ∃ offset, memory offset = 0
  · refine ⟨Nat.find ended, Nat.not_lt.mp fun inside => nonzero ?_,
      fun offset below => Nat.find_min ended below, .inl (Nat.find_spec ended)⟩
    have byte := holds_iff.mp holds _ inside
    rw [Nat.zero_add, Nat.find_spec ended] at byte
    exact byte ▸ List.getElem_mem inside
  · exact ⟨text.length, Nat.le_refl _, fun offset _ zero => ended ⟨offset, zero⟩,
      .inr fun offset zero => ended ⟨offset, zero⟩⟩

theorem printable (exact' : libc.Exact) (object : PlainObject libc) :
    object.item.Printable libc :=
  Item.Plain.printable exact' object.plain

/-- The text of an object is parsed, whatever stands behind it. -/
theorem parsedFrom_text (exact' : libc.Exact) (object : PlainObject libc)
    (holds : Holds memory 0 object.text) : ParsedFrom memory object := by
  obtain ⟨length, behind, mayEnd⟩ := exists_mayEnd holds
    (zero_not_mem_itemText libc false 0 object.item (object.printable exact'))
  refine ⟨length, mayEnd, fun longer further _ => ?_⟩
  have plain : object.item.Plain libc := object.plain
  obtain ⟨positive, parsed⟩ := parseStart_text exact' false plain object.shallow holds
    (Nat.le_succ_of_le (Nat.le_trans behind further)) trivial
  rw [cjsonParse, cjsonParseWithLengthOpts, if_neg (Nat.ne_of_gt positive)]
  dsimp only
  rw [parsed]
  rfl

end PlainObject

/-! ## What is printed -/

/-- The bytes of two stores in different memories that do not differ are those that were stored. -/
theorem takeWhile_stored (bytes : List Byte) {size : Nat} (room : bytes.length < size) :
    (((slice (store (fun _ => 0) 0 bytes) 0 size).zip
        (slice (store (fun _ => 1) 0 bytes) 0 size)).takeWhile
          fun both => both.1 = both.2).map Prod.fst = bytes := by
  obtain ⟨more, rfl⟩ : ∃ more, size = bytes.length + (1 + more) :=
    ⟨size - bytes.length - 1, by omega⟩
  have behind : ∀ fill : Byte, slice (store (fun _ => fill) 0 bytes) 0 (bytes.length + (1 + more)) =
      bytes ++ fill :: slice (store (fun _ => fill) 0 bytes) (0 + bytes.length + 1) more := by
    intro fill
    have next : store (fun _ => fill) 0 bytes (0 + bytes.length) = fill :=
      store_of_le _ _ (Nat.le_refl _)
    rw [slice_add, slice_add, (holds_store _ _ _).slice_eq rfl]
    congr 1
    exact congrArg (· :: _) next
  have pairs : bytes.zip bytes = bytes.map fun byte => (byte, byte) := List.zipWith_self
  rw [behind, behind, List.zip_append rfl, pairs, List.takeWhile_append_of_pos, List.zip_cons_cons,
    List.takeWhile_cons_of_neg (by decide), List.append_nil, List.map_map]
  · exact List.map_id _
  · intro both member
    obtain ⟨byte, -, rfl⟩ := List.mem_map.mp member
    exact decide_eq_true rfl

section Library

variable {Double : Type} {libc : Libc Double}

theorem int32_le (value : Nat) : int32 value ≤ value ∧ int32 value ≤ intMax := by
  rw [int32, intMax]
  split <;> omega

namespace PlainObject

variable {object : PlainObject libc}

theorem printPreallocated_room (exact' : libc.Exact) (size : Nat) :
    (object.printPreallocated size).1 = true ↔ (object.text.length + 2 : Int) ≤ int32 size :=
  printed_iff_room libc object.item _ _ false (int32_le size).2 (object.printable exact')

/-- What is stored is the text with the terminator. -/
theorem printPreallocated_stored (exact' : libc.Exact) {size : Nat}
    (ready : (object.printPreallocated size).1 = true) :
    (object.printPreallocated size).2 = object.text ++ [0] := by
  have room := (printPreallocated_room exact' size).mp ready
  have printed : ∀ fill : Byte,
      (cjsonPrintPreallocated libc object.item (fun _ => fill) (int32 size) false).2 =
        store (fun _ => fill) 0 (object.text ++ [0]) := by
    intro fill
    have printable := object.printable exact'
    exact printed_stored libc object.item _ _ false (int32_le size).2 printable
      ((printed_iff_room libc object.item _ _ false (int32_le size).2 printable).mpr room)
  have bound := (int32_le size).1
  rw [printPreallocated]
  dsimp only
  rw [printed, printed]
  refine takeWhile_stored _ ?_
  rw [List.length_append, List.length_singleton]
  omega

/-! ## The count -/

variable (exact' : libc.Exact)

theorem child_setUpdateCount {count : Int} (isInt : IsInt count) :
    (object.setUpdateCount exact' count).child = changeObjectItem false updateCountName
      (cjsonSetNumberHelper libc (libc.ofInt count)) object.child := by
  rw [setUpdateCount, dif_pos ⟨isInt.lower, isInt.upper⟩]

/-- The number that is set is read. -/
theorem updateCount_setUpdateCount {count : Int} (isInt : IsInt count)
    (number : object.updateCount ≠ none) :
    (object.setUpdateCount exact' count).updateCount = some count := by
  rw [updateCount] at number
  rw [updateCount, child_setUpdateCount exact' isInt, getObjectItem_changed]
  split at number
  next valuedouble valueint found =>
    rw [found, Option.map_some, cjsonSetNumberHelper, saturated_ofInt exact' isInt]
  next => exact absurd rfl number

/-- A member with the name `"buddy_ip"` is not the count. -/
theorem buddyIpName_other (string : CString)
    (same : sameName false updateCountName string = true) :
    sameName true buddyIpName string = false := by
  rw [sameName, if_pos rfl]
  refine decide_eq_false fun equal => ?_
  rw [← equal] at same
  revert same
  decide

theorem buddyIp_setUpdateCount (count : Int) :
    (object.setUpdateCount exact' count).buddyIp = object.buddyIp := by
  by_cases isInt : intMin ≤ count ∧ count ≤ intMax
  · rw [buddyIp, buddyIp, child_setUpdateCount exact' ⟨isInt.1, isInt.2⟩,
      getObjectItem_other buddyIpName_other]
  · rw [setUpdateCount, dif_neg isInt]

end PlainObject

/-! ## The library -/

variable (exact' : libc.Exact) (localHostName : LocalHostName)

/-- What the program uses of cJSON. -/
noncomputable def objects : CJson (PlainObject libc) where
  updateCount := PlainObject.updateCount
  setUpdateCount := PlainObject.setUpdateCount exact'
  print := PlainObject.text
  printPreallocated := PlainObject.printPreallocated
  parse := PlainObject.parse
  created := .created exact' localHostName

theorem isInt_of_count {count : Int} (isCount : Count count) : IsInt count :=
  ⟨Int.le_trans (by decide) isCount.positive, isCount.bounded⟩

theorem objects_lawful : (objects exact' localHostName).Lawful where
  bounded object size := by
    change (PlainObject.printPreallocated object size).2.length ≤ size
    rw [PlainObject.printPreallocated, List.length_map]
    refine Nat.le_trans (List.takeWhile_sublist _).length_le ?_
    rw [List.length_zip, slice_length, slice_length, Nat.min_self]
  printed _ _ ready := PlainObject.printPreallocated_stored exact' ready
  nonempty object := by
    obtain ⟨first, rest, form, -⟩ := itemText_first exact' false 0
      (show object.item.Plain libc from object.plain)
    intro empty
    exact absurd (form.symm.trans empty) (List.cons_ne_nil _ _)
  terminated object := zero_not_mem_itemText libc false 0 object.item (object.printable exact')
  parsed object _ holds := PlainObject.parse_eq_some.mpr (object.parsedFrom_text exact' holds)

theorem objects_numbers : (objects exact' localHostName).Numbers where
  bounded object count found := by
    change object.updateCount = some count at found
    rw [PlainObject.updateCount] at found
    split at found
    next valuedouble valueint member =>
      cases found
      exact (object.plain.found member).1.upper
    next => cases found
  counted _ _ number isCount :=
    PlainObject.updateCount_setUpdateCount exact' (isInt_of_count isCount) number
  created := by
    change (PlainObject.created exact' localHostName).updateCount = some defaultUpdateCount
    rw [PlainObject.updateCount, PlainObject.created]
    dsimp only
    rw [createMirror_eq, Item.child, mirrorMembers, getObjectItem, if_neg (by decide),
      getObjectItem, if_pos (by decide), cjsonCreateNumber]
    dsimp only
    rw [saturated_ofInt exact' ⟨by decide, by decide⟩]

theorem objects_counting {Host : Type} {hosts : Hosts Host (PlainObject libc)}
    (buddies : hosts.buddyIp = PlainObject.buddyIp) :
    (objects exact' localHostName).Counting hosts where
  counted := (objects_numbers exact' localHostName).counted
  buddies _ count := by
    rw [buddies]
    exact PlainObject.buddyIp_setUpdateCount exact' count

/-- What the program relies on of a library whose objects have the list `buddyIp`. -/
structure CJson.Assumed {Json : Type} (lib : CJson Json) (buddyIp : Json → List (List Byte)) :
    Prop where
  lawful : lib.Lawful
  numbers : lib.Numbers
  counting : ∀ {Host : Type} (hosts : Hosts Host Json), hosts.buddyIp = buddyIp →
    lib.Counting hosts

/-- Everything that is assumed of the library holds of cJSON. -/
theorem objects_assumed :
    (objects exact' localHostName).Assumed (PlainObject.buddyIp : PlainObject libc → _) where
  lawful := objects_lawful exact' localHostName
  numbers := objects_numbers exact' localHostName
  counting _ buddies := objects_counting exact' localHostName buddies

end Library

/-- A device with the name `pico`. -/
def picoName : LocalHostName := ⟨literal "pico", by decide⟩

theorem objects_assumed_pico :
    (objects integers_exact picoName).Assumed PlainObject.buddyIp :=
  objects_assumed integers_exact picoName

end PicoApConfigure.Json
