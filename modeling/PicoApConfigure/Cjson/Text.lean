import PicoApConfigure.Cjson.Print

/-!
# The text of an item

What an item is printed as, without any buffer, and when `cJSON_PrintPreallocated` prints it.
-/

namespace PicoApConfigure.Cjson

open Nor

/-! ## Texts -/

/-- A byte in a string literal. -/
def escaped (c : Byte) : List Byte :=
  if 31 < c ∧ c ≠ char '"' ∧ c ≠ char '\\' then [c]
  else
    match escapeLetter c with
    | some letter => [char '\\', letter]
    | none => char '\\' :: sprintfU c

/-- A string literal. -/
def quoted (string : Option CString) : List Byte :=
  [char '"'] ++ (string.elim [] fun string => string.val.flatMap escaped) ++ [char '"']

/-- The tabs of a line. -/
def tabs (format : Bool) (depth : Nat) : List Byte :=
  if format then List.replicate depth (char '\t') else []

/-- The opening brace of an object. -/
def braceText (format : Bool) : List Byte :=
  if format then [char '{', char '\n'] else [char '{']

/-- The separator between the elements of an array. -/
def commaText (format next : Bool) : List Byte :=
  if next then (if format then [char ',', char ' '] else [char ',']) else []

/-- The colon behind a name. -/
def colonText (format : Bool) : List Byte :=
  if format then [char ':', char '\t'] else [char ':']

/-- What stands behind the value of a member. -/
def memberEndText (format next : Bool) : List Byte :=
  (if next then [char ','] else []) ++ (if format then [char '\n'] else [])

section Text

variable {Double : Type} (libc : Libc Double) (format : Bool)

mutual

/-- The text of an item at a depth. -/
def itemText (depth : Nat) : Item Double → List Byte
  | .invalid => []
  | .null => [char 'n', char 'u', char 'l', char 'l']
  | .false => [char 'f', char 'a', char 'l', char 's', char 'e']
  | .true => [char 't', char 'r', char 'u', char 'e']
  | .number valuedouble valueint => numberText libc valuedouble valueint
  | .raw valuestring => valuestring.elim [] Subtype.val
  | .string valuestring => quoted valuestring
  | .array child => [char '['] ++ elementsText (depth + 1) child ++ [char ']']
  | .object child =>
      braceText format ++ membersText (depth + 1) child ++ (tabs format depth ++ [char '}'])

/-- The text of the elements of an array. -/
def elementsText (depth : Nat) : Children Double → List Byte
  | .nil => []
  | .cons _ item next =>
      itemText depth item ++
        (commaText format next.hasNext ++ elementsText depth next)

/-- The text of the members of an object. -/
def membersText (depth : Nat) : Children Double → List Byte
  | .nil => []
  | .cons string item next =>
      tabs format depth ++ (quoted string ++ (colonText format ++ (itemText depth item ++
        (memberEndText format next.hasNext ++ membersText depth next))))

end

mutual

/-- The printer does not refuse the item. -/
def Item.Printable : Item Double → Prop
  | .invalid => False
  | .number valuedouble valueint =>
      (numberText libc valuedouble valueint).length ≤ 25 ∧
        (0 : Byte) ∉ numberText libc valuedouble valueint
  | .raw valuestring => valuestring ≠ none
  | .array child => child.Printable
  | .object child => child.Printable
  | _ => True

/-- The printer does not refuse the items of the list. -/
def Children.Printable : Children Double → Prop
  | .nil => True
  | .cons _ item next => item.Printable ∧ next.Printable

end

end Text

/-! ## Stores that follow each other -/

theorem store_add (memory : Memory) (address offset : Nat) (bytes : List Byte) :
    store memory address bytes (address + offset) =
      (bytes[offset]?).getD (memory (address + offset)) := by
  simp [store]

/-- A later store at the same place leaves the rest of an earlier one. -/
theorem store_store_same (memory : Memory) (address : Nat) (first second : List Byte) :
    store (store memory address first) address second =
      store memory address (second ++ first.drop second.length) := by
  funext query
  by_cases below : query < address
  · rw [store_of_lt _ _ below, store_of_lt _ _ below, store_of_lt _ _ below]
  obtain ⟨offset, rfl⟩ := Nat.exists_eq_add_of_le (Nat.not_lt.mp below)
  rw [store_add, store_add, store_add]
  by_cases inside : offset < second.length
  · rw [List.getElem?_append_left inside, List.getElem?_eq_getElem inside, Option.getD_some,
      Option.getD_some]
  · have behind := Nat.not_lt.mp inside
    rw [List.getElem?_append_right behind, List.getElem?_drop, List.getElem?_eq_none behind,
      Option.getD_none, Nat.add_sub_cancel' behind]

/-- A store behind the front of an earlier one. -/
theorem store_behind (memory : Memory) (address : Nat) (front junk bytes : List Byte) :
    store (store memory address (front ++ junk)) (address + front.length) bytes =
      store memory address (front ++ (bytes ++ junk.drop bytes.length)) := by
  rw [← store_append, ← store_append, store_store_same]

/-! ## Specifications of the printing functions -/

/-- The buffer is not longer than an `int` says. -/
def Printbuffer.Fits (p : Printbuffer) : Prop := (p.length : Int) ≤ intMax

theorem ensure_eq_some {p : Printbuffer} {needed output : Nat} (fits : p.Fits) :
    p.ensure needed = some output ↔
      needed + p.offset + 1 ≤ p.length ∧ output = p.offset := by
  rw [Printbuffer.Fits] at fits
  rw [Printbuffer.ensure]
  split
  next => exact ⟨nofun, fun both => by omega⟩
  next =>
    split
    next => exact ⟨nofun, fun both => by omega⟩
    next =>
      split
      next room =>
        exact ⟨fun same => ⟨room, (Option.some.inj same).symm⟩, fun both => by rw [both.2]⟩
      next small => exact ⟨nofun, fun both => absurd both.1 small⟩

/-- Only the rest of the buffer changes. -/
structure Frame (p q : Printbuffer) : Prop where
  length : q.length = p.length
  format : q.format = p.format
  offset : p.offset ≤ q.offset
  outside : ∀ address, address < p.offset ∨ p.length ≤ address →
    q.buffer address = p.buffer address

theorem Frame.refl (p : Printbuffer) : Frame p p := ⟨rfl, rfl, Nat.le_refl _, fun _ _ => rfl⟩

theorem Frame.trans {p q r : Printbuffer} (first : Frame p q) (second : Frame q r) : Frame p r where
  length := second.length.trans first.length
  format := second.format.trans first.format
  offset := Nat.le_trans first.offset second.offset
  outside address apart := by
    have lower := first.offset
    rw [second.outside address (by rw [first.length]; omega), first.outside address apart]

theorem Frame.fits {p q : Printbuffer} (frame : Frame p q) (fits : p.Fits) : q.Fits := by
  rw [Printbuffer.Fits, frame.length]
  exact fits

/-- A text with its terminator, at the offset or behind a part that was passed. -/
structure Valued (p : Printbuffer) (text : List Byte) (depth : Nat) (q : Printbuffer) :
    Prop where
  stored : q.buffer = store p.buffer p.offset (text ++ [0])
  passed : ∃ front back, text = front ++ back ∧ q.offset = p.offset + front.length
  length : q.length = p.length
  format : q.format = p.format
  depth : q.depth = depth

/-- A text that was passed, perhaps with a terminator behind it. -/
structure Advanced (p : Printbuffer) (text : List Byte) (depth : Nat) (q : Printbuffer) :
    Prop where
  stored : ∃ junk, junk.length ≤ 1 ∧ q.buffer = store p.buffer p.offset (text ++ junk)
  offset : q.offset = p.offset + text.length
  length : q.length = p.length
  format : q.format = p.format
  depth : q.depth = depth

/-- The function prints a value: it succeeds exactly if the text, its terminator and one more byte
fit. -/
structure Values (p : Printbuffer) (text : List Byte) (depth : Nat)
    (result : Bool × Printbuffer) : Prop where
  succeeds : result.1 = true ↔ p.offset + text.length + 2 ≤ p.length
  valued : result.1 = true → Valued p text depth result.2
  frame : Frame p result.2

/-- The function prints a part of a value; it succeeds if the part with two more bytes fits. -/
structure Advances (p : Printbuffer) (text : List Byte) (depth : Nat)
    (result : Bool × Printbuffer) : Prop where
  succeeds : p.offset + text.length + 2 ≤ p.length → result.1 = true
  advanced : result.1 = true → Advanced p text depth result.2
  frame : Frame p result.2

section Combine

variable {p q r : Printbuffer} {left right : List Byte} {depth depth' : Nat}
  {result : Bool × Printbuffer} {next : Printbuffer → Bool × Printbuffer}

theorem Advanced.fits (advanced : Advanced p left depth q) (fits : p.Fits) : q.Fits := by
  rw [Printbuffer.Fits, advanced.length]
  exact fits

theorem Advanced.trans (first : Advanced p left depth q) (second : Advanced q right depth' r) :
    Advanced p (left ++ right) depth' r where
  stored := by
    obtain ⟨junk, short, stored⟩ := first.stored
    obtain ⟨more, short', stored'⟩ := second.stored
    refine ⟨more ++ junk.drop (right ++ more).length, ?_, ?_⟩
    · rw [List.length_append, List.length_drop, List.length_append]
      omega
    · rw [stored', stored, first.offset, store_behind]
      simp only [List.append_assoc]
  offset := by
    rw [second.offset, first.offset, List.length_append]
    omega
  length := second.length.trans first.length
  format := second.format.trans first.format
  depth := second.depth

theorem Advanced.valued (first : Advanced p left depth q) (second : Valued q right depth' r) :
    Valued p (left ++ right) depth' r where
  stored := by
    obtain ⟨junk, short, stored⟩ := first.stored
    have covered : junk.drop (right ++ [0]).length = [] := by
      refine List.drop_eq_nil_of_le ?_
      rw [List.length_append, List.length_singleton]
      omega
    rw [second.stored, stored, first.offset, store_behind, covered, List.append_nil,
      List.append_assoc]
  passed := by
    obtain ⟨front, back, parts, offset⟩ := second.passed
    refine ⟨left ++ front, back, by rw [parts, List.append_assoc], ?_⟩
    rw [offset, first.offset, List.length_append]
    omega
  length := second.length.trans first.length
  format := second.format.trans first.format
  depth := second.depth

/-- `update_offset` passes the value. -/
theorem Valued.updated (valued : Valued p left depth q) (text : (0 : Byte) ∉ left)
    (room : p.offset + left.length + 2 ≤ p.length) : Advanced p left depth q.updateOffset := by
  obtain ⟨front, back, rfl, offset⟩ := valued.passed
  have whole : Holds q.buffer p.offset (front ++ (back ++ [0])) := by
    rw [valued.stored, ← List.append_assoc]
    exact holds_store _ _ _
  have behind : slice q.buffer q.offset (back.length + 1) = back ++ [0] := by
    rw [offset]
    exact (holds_append.mp whole).2.slice_eq (by simp)
  have nonzero : ∀ byte ∈ back, decide (byte ≠ 0) = true := fun byte member =>
    decide_eq_true fun zero => text (zero ▸ List.mem_append_right _ member)
  have string : (slice q.buffer q.offset (q.length - q.offset)).takeWhile (· ≠ 0) = back := by
    rw [List.length_append] at room
    obtain ⟨rest, more⟩ : ∃ rest, q.length - q.offset = back.length + 1 + rest :=
      ⟨q.length - q.offset - (back.length + 1), by rw [valued.length]; omega⟩
    rw [more, slice_add, behind, List.append_assoc, List.takeWhile_append_of_pos nonzero]
    simp
  refine ⟨⟨[0], Nat.le_refl _, valued.stored⟩, ?_, valued.length, valued.format, valued.depth⟩
  change q.offset + _ = _
  rw [string, offset, List.length_append]
  omega

theorem andThen_of_success (success : result.1 = true) : andThen result next = next result.2 :=
  if_pos success

theorem andThen_of_failure (failure : result.1 ≠ true) : andThen result next = result :=
  if_neg failure

/-- A part of a value and then the rest of the value. -/
theorem Advances.values (first : Advances p left depth result)
    (second : ∀ q, Advanced p left depth q → Values q right depth' (next q)) :
    Values p (left ++ right) depth' (andThen result next) := by
  by_cases success : result.1 = true
  · have advanced := first.advanced success
    have values := second _ advanced
    rw [andThen_of_success success]
    refine ⟨values.succeeds.trans ?_, fun done => advanced.valued (values.valued done),
      first.frame.trans values.frame⟩
    rw [advanced.offset, advanced.length, List.length_append]
    omega
  · rw [andThen_of_failure success]
    refine ⟨⟨fun done => absurd done success, fun room => ?_⟩, fun done => absurd done success,
      first.frame⟩
    rw [List.length_append] at room
    exact first.succeeds (by omega)

/-- Two parts of a value. -/
theorem Advances.advances (first : Advances p left depth result)
    (second : ∀ q, Advanced p left depth q → Advances q right depth' (next q)) :
    Advances p (left ++ right) depth' (andThen result next) := by
  by_cases success : result.1 = true
  · have advanced := first.advanced success
    have advances := second _ advanced
    rw [andThen_of_success success]
    refine ⟨fun room => advances.succeeds ?_,
      fun done => advanced.trans (advances.advanced done), first.frame.trans advances.frame⟩
    rw [List.length_append] at room
    rw [advanced.offset, advanced.length]
    omega
  · rw [andThen_of_failure success]
    refine ⟨fun room => first.succeeds ?_, fun done => absurd done success, first.frame⟩
    rw [List.length_append] at room
    omega

/-- A value that is passed with `update_offset`. -/
theorem Values.advances (first : Values p left depth result) (text : (0 : Byte) ∉ left)
    (second : ∀ q, Advanced p left depth q → Advances q right depth' (next q)) :
    Advances p (left ++ right) depth' (andThen result fun q => next q.updateOffset) := by
  by_cases success : result.1 = true
  · have advanced := (first.valued success).updated text (first.succeeds.mp success)
    have advances := second _ advanced
    rw [andThen_of_success success]
    have passed : Frame p result.2.updateOffset :=
      ⟨first.frame.length, first.frame.format,
        Nat.le_trans first.frame.offset (Nat.le_add_right _ _), first.frame.outside⟩
    refine ⟨fun room => advances.succeeds ?_,
      fun done => advanced.trans (advances.advanced done), passed.trans advances.frame⟩
    rw [List.length_append] at room
    rw [advanced.offset, advanced.length]
    omega
  · rw [andThen_of_failure success]
    refine ⟨fun room => first.succeeds.mpr ?_, fun done => absurd done success, first.frame⟩
    rw [List.length_append] at room
    omega

end Combine

end PicoApConfigure.Cjson
