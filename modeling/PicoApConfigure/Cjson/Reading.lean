import PicoApConfigure.Cjson.Literals

/-!
# The parts of a text

What the functions below `parse_value` read in a printed text.
-/

namespace PicoApConfigure.Cjson

open Nor

section Reading

variable {Double : Type} (libc : Libc Double)

mutual

/-- An item as the parser makes it, with numbers that are `int`. -/
def Item.Plain : Item Double → Prop
  | .null => True
  | .false => True
  | .true => True
  | .number valuedouble valueint => IsInt valueint ∧ valuedouble = libc.ofInt valueint
  | .string valuestring => valuestring ≠ none
  | .array child => child.PlainElements
  | .object child => child.PlainMembers
  | _ => False

/-- Elements of an array have no names. -/
def Children.PlainElements : Children Double → Prop
  | .nil => True
  | .cons string item next => string = none ∧ item.Plain ∧ next.PlainElements

/-- Members of an object have names. -/
def Children.PlainMembers : Children Double → Prop
  | .nil => True
  | .cons string item next => string ≠ none ∧ item.Plain ∧ next.PlainMembers

end

mutual

/-- How deep arrays and objects are nested. -/
def Item.nesting : Item Double → Nat
  | .array child => child.nesting + 1
  | .object child => child.nesting + 1
  | _ => 0

/-- How deep the items of a list are nested. -/
def Children.nesting : Children Double → Nat
  | .nil => 0
  | .cons _ item next => max item.nesting next.nesting

end

variable {libc}

/-! ## Numbers -/

theorem isNumberByte_of_isDigit {c : Byte} (digit : isDigit c = true) : isNumberByte c = true :=
  decide_eq_true (.inl (of_decide_eq_true digit))

/-- The bytes of a printed number, and what it starts with. -/
theorem sprintfD_bytes (value : Int) : (∀ byte ∈ sprintfD value, isNumberByte byte = true) ∧
    ∃ first rest, sprintfD value = first :: rest ∧
      (first = char '-' ∨ (char '0' ≤ first ∧ first ≤ char '9')) := by
  have digits : ∀ byte ∈ decimal value.natAbs, isDigit byte = true :=
    fun _ member => isDigit_of_mem_decimal member
  rw [sprintfD]
  split
  next =>
    refine ⟨fun byte member => ?_, _, _, rfl, .inl rfl⟩
    rcases List.mem_cons.mp member with rfl | member
    · decide
    · exact isNumberByte_of_isDigit (digits byte member)
  next =>
    obtain ⟨first, rest, equal⟩ := List.exists_cons_of_ne_nil (decimal_ne_nil value.natAbs)
    refine ⟨fun byte member => isNumberByte_of_isDigit (digits byte member), first, rest, equal,
      .inr ?_⟩
    exact of_decide_eq_true (digits first (equal ▸ List.mem_cons_self))

theorem numberStringLength_text {content : Memory} {length offset : Nat} {text : List Byte}
    (holds : Holds content offset text) (number : ∀ byte ∈ text, isNumberByte byte = true)
    (inside : offset + text.length ≤ length)
    (ends : offset + text.length < length →
      isNumberByte (content (offset + text.length)) = false) :
    numberStringLength content length offset = text.length := by
  induction text generalizing offset with
  | nil =>
      rw [numberStringLength]
      split
      next below =>
        have stops := ends below
        rw [List.length_nil, Nat.add_zero] at stops
        rw [stops, if_neg Bool.noConfusion]
        rfl
      next => rfl
  | cons first rest ih =>
      rw [List.length_cons] at inside ends
      rw [← List.singleton_append, holds_append, List.length_singleton] at holds
      have here : content offset = first := holds_iff.mp holds.1 0 Nat.one_pos
      rw [numberStringLength, if_pos (by omega), here, if_pos (number first List.mem_cons_self),
        ih holds.2 (fun byte member => number byte (List.mem_cons_of_mem _ member)) (by omega),
        List.length_cons]
      intro below
      rw [Nat.add_assoc, Nat.add_comm 1] at below ⊢
      exact ends below

theorem numberText_plain {value : Int} (exact' : libc.Exact) (isInt : IsInt value) :
    numberText libc (libc.ofInt value) value = sprintfD value := by
  obtain ⟨isnan, isinf⟩ := exact'.finite value isInt
  rw [numberText, isnan, isinf, exact'.equal value isInt]
  rfl

/-- A printed number is parsed. -/
theorem parseNumber_text {buffer : ParseBuffer} {value : Int} (exact' : libc.Exact)
    (isInt : IsInt value) (holds : Holds buffer.content buffer.offset (sprintfD value))
    (inside : buffer.offset + (sprintfD value).length ≤ buffer.length)
    (ends : buffer.offset + (sprintfD value).length < buffer.length →
      isNumberByte (buffer.byteAt (sprintfD value).length) = false) :
    parseNumber libc buffer =
      (buffer.advance (sprintfD value).length, some (.number (libc.ofInt value) value)) := by
  obtain ⟨number, first, rest, form, -⟩ := sprintfD_bytes value
  have size := numberStringLength_text holds number inside ends
  have taken : (sprintfD value).length ≠ 0 := by
    rw [form]
    exact Nat.succ_ne_zero _
  simp only [parseNumber, size, holds.slice_eq rfl, exact'.read value isInt, taken, if_false,
    saturated_ofInt exact' isInt]

/-! ## The first byte decides -/

section First

variable {buffer : ParseBuffer} {fuel : Nat} {first : Byte}

theorem startsWith_other {rest : List Byte} {other : Byte} (here : buffer.byteAt 0 = first)
    (different : first ≠ other) : buffer.startsWith (other :: rest) = false := by
  refine decide_eq_false fun same => different ?_
  have holds : Holds buffer.content buffer.offset (other :: rest) := same
  exact here.symm.trans (holds_iff.mp holds 0 (Nat.succ_pos _))

theorem startsWith_holds {text : List Byte} (holds : Holds buffer.content buffer.offset text) :
    buffer.startsWith text = true := decide_eq_true holds

theorem parseValue_first (access : buffer.canAccess 0 = true) (here : buffer.byteAt 0 = first)
    (null : first ≠ char 'n') (false : first ≠ char 'f') (true : first ≠ char 't') :
    parseValue libc (fuel + 1) buffer =
      if first = char '"' then
        let (buffer, string) := parseString buffer
        some (buffer, string.map fun string => .string (some string))
      else if first = char '-' ∨ (char '0' ≤ first ∧ first ≤ char '9') then
        some (parseNumber libc buffer)
      else if first = char '[' then
        parseChildren (char ']') .array (parseElements libc fuel) buffer
      else if first = char '{' then
        parseChildren (char '}') .object (parseMembers libc fuel) buffer
      else some (buffer, none) := by
  rw [parseValue, startsWith_other here null, startsWith_other here false,
    startsWith_other here true, access, here]
  simp only [Bool.and_false, Bool.false_eq_true, if_false, Bool.true_and, decide_eq_true_eq]

end First

/-! ## Items -/

/-- Behind a number there is no byte of a number. -/
def EndsAt (item : Item Double) (buffer : ParseBuffer) (size : Nat) : Prop :=
  match item with
  | .number _ _ =>
      buffer.offset + size < buffer.length → isNumberByte (buffer.byteAt size) = false
  | _ => True

theorem endsAt_of_byte {item : Item Double} {buffer : ParseBuffer} {size : Nat}
    (behind : isNumberByte (buffer.byteAt size) = false) : EndsAt item buffer size := by
  cases item
  case number => exact fun _ => behind
  all_goals trivial

@[simp] theorem advance_advance (buffer : ParseBuffer) (first second : Nat) :
    (buffer.advance first).advance second = buffer.advance (first + second) := by
  simp [ParseBuffer.advance, Nat.add_assoc]

theorem number_first : ∀ first : Byte,
    first = char '-' ∨ (char '0' ≤ first ∧ first ≤ char '9') →
      ¬first ≤ 32 ∧ first ≠ char ']' ∧ first ≠ 0xef ∧ first ≠ char '"' ∧
        first ≠ char 'n' ∧ first ≠ char 'f' ∧ first ≠ char 't' := by
  decide +kernel

@[simp] theorem byteAt_advance (buffer : ParseBuffer) (size index : Nat) :
    (buffer.advance size).byteAt index = buffer.byteAt (size + index) := by
  simp [ParseBuffer.byteAt, ParseBuffer.advance, Nat.add_assoc]

@[simp] theorem canAccess_advance (buffer : ParseBuffer) (size index : Nat) :
    (buffer.advance size).canAccess index = buffer.canAccess (size + index) := by
  simp [ParseBuffer.canAccess, ParseBuffer.advance, Nat.add_assoc]

/-- The text of an item starts with a byte that is no whitespace, no bracket and no mark. -/
theorem itemText_first (exact' : libc.Exact) (format : Bool) (depth : Nat) {item : Item Double}
    (plain : item.Plain libc) :
    ∃ first rest, itemText libc format depth item = first :: rest ∧ ¬first ≤ 32 ∧
      first ≠ char ']' ∧ first ≠ 0xef := by
  match item with
  | .null | .false | .true =>
      exact ⟨_, _, by rw [itemText], by decide, by decide, by decide⟩
  | .number valuedouble valueint =>
      obtain ⟨isInt, rfl⟩ := plain
      obtain ⟨-, first, rest, form, start⟩ := sprintfD_bytes valueint
      obtain ⟨solid, bracket, mark, -⟩ := number_first first start
      exact ⟨first, rest, by rw [itemText, numberText_plain exact' isInt, form], solid, bracket,
        mark⟩
  | .string none => exact absurd rfl plain
  | .string (some string) =>
      refine ⟨char '"', string.val.flatMap escaped ++ [char '"'], ?_, by decide, by decide,
        by decide⟩
      rw [itemText, quoted, List.append_assoc]
      rfl
  | .array child =>
      refine ⟨char '[', elementsText libc format (depth + 1) child ++ [char ']'], ?_, by decide,
        by decide, by decide⟩
      rw [itemText, List.append_assoc]
      rfl
  | .object child =>
      refine ⟨char '{', (braceText format).tail ++ membersText libc format (depth + 1) child ++
        (tabs format depth ++ [char '}']), ?_, by decide, by decide, by decide⟩
      rw [itemText]
      cases format <;> rfl

/-- The text of members without the tabs of the first one. -/
def membersBody (libc : Libc Double) (format : Bool) (depth : Nat) : Children Double → List Byte
  | .nil => []
  | .cons string item next =>
      quoted string ++ (colonText format ++ (itemText libc format depth item ++
        (memberEndText format next.hasNext ++ membersText libc format depth next)))

theorem membersText_eq (format : Bool) (depth : Nat) {current : Children Double}
    (more : current.hasNext = true) :
    membersText libc format depth current =
      tabs format depth ++ membersBody libc format depth current := by
  cases current with
  | nil => cases more
  | cons => rfl

theorem spaces_tabs (format : Bool) (depth : Nat) : Spaces (tabs format depth) := by
  cases format
  · exact fun _ member => absurd member List.not_mem_nil
  · intro byte member
    rw [List.eq_of_mem_replicate member]
    decide

/-- A solid byte is not skipped. -/
theorem bufferSkipWhitespace_solid {buffer : ParseBuffer} (solid : ¬buffer.byteAt 0 ≤ 32)
    (inside : buffer.offset < buffer.length) : bufferSkipWhitespace buffer = buffer := by
  have holds : Holds buffer.content buffer.offset ([] ++ [buffer.byteAt 0]) := by
    rw [holds_iff]
    intro offset inBounds
    cases offset with
    | zero => rfl
    | succ => simp at inBounds
  exact @bufferSkipWhitespace_spaces buffer [] _ holds
    (fun _ member => absurd member List.not_mem_nil)
    solid inside

/-- The last byte is not passed. -/
theorem bufferSkipWhitespace_last {buffer : ParseBuffer} (blank : buffer.byteAt 0 ≤ 32)
    (last : buffer.offset + 1 = buffer.length) : bufferSkipWhitespace buffer = buffer := by
  have access : buffer.canAccess 0 = true := decide_eq_true (by omega)
  have skipped : skipSpaces buffer.content buffer.length buffer.offset = buffer.length := by
    rw [ParseBuffer.byteAt, Nat.add_zero] at blank
    rw [skipSpaces, if_pos (by omega), if_pos blank, skipSpaces, if_neg (by omega), last]
  rw [bufferSkipWhitespace, access, if_neg Bool.noConfusion]
  dsimp only
  rw [skipped, if_pos rfl, Nat.sub_eq_of_eq_add last.symm]

/-- A byte behind a text. -/
theorem byteAt_of_holds {buffer : ParseBuffer} {size : Nat} {byte : Byte} {more : List Byte}
    (holds : Holds buffer.content (buffer.offset + size) (byte :: more)) :
    buffer.byteAt size = byte :=
  holds_iff.mp holds 0 (Nat.succ_pos _)

/-- Whitespace behind the offset, in front of a solid byte. -/
theorem skip_advanced {buffer : ParseBuffer} {size : Nat} {spaces more : List Byte} {first : Byte}
    (holds : Holds buffer.content (buffer.offset + size) (spaces ++ first :: more))
    (blank : Spaces spaces) (solid : ¬first ≤ 32)
    (inside : buffer.offset + size + spaces.length < buffer.length) :
    bufferSkipWhitespace (buffer.advance size) = buffer.advance (size + spaces.length) := by
  have front : Holds buffer.content (buffer.offset + size) (spaces ++ [first]) := by
    rw [List.append_cons, holds_append] at holds
    exact holds.1
  rw [← advance_advance]
  exact @bufferSkipWhitespace_spaces (buffer.advance size) spaces first front blank solid inside

section Children

variable {buffer : ParseBuffer} {close first : Byte} {make : Children Double → Item Double}
  {loop : ParseBuffer → Option (ParseBuffer × Option (Children Double))}
  {spaces more : List Byte}

/-- The whitespace behind an opening bracket. -/
theorem bufferSkipWhitespace_opened (holds : Holds buffer.content (buffer.offset + 1)
      (spaces ++ first :: more)) (blank : Spaces spaces) (solid : ¬first ≤ 32)
    (inside : buffer.offset + 1 + spaces.length < buffer.length) :
    bufferSkipWhitespace { buffer.advance 1 with depth := buffer.depth + 1 } =
        { buffer.advance (1 + spaces.length) with depth := buffer.depth + 1 } ∧
      buffer.content (buffer.offset + (1 + spaces.length)) = first := by
  constructor
  · exact @skip_advanced { buffer with depth := buffer.depth + 1 } 1 spaces more first holds blank
      solid inside
  · rw [holds_append] at holds
    rw [← Nat.add_assoc]
    exact holds_iff.mp holds.2 0 (Nat.succ_pos _)

theorem parseChildren_empty (shallow : buffer.depth < cjsonNestingLimit)
    (holds : Holds buffer.content (buffer.offset + 1) (spaces ++ close :: more))
    (blank : Spaces spaces) (solid : ¬close ≤ 32)
    (inside : buffer.offset + 1 + spaces.length < buffer.length) :
    parseChildren close make loop buffer =
      some (buffer.advance (spaces.length + 2), some (make .nil)) := by
  obtain ⟨skipped, here⟩ := bufferSkipWhitespace_opened holds blank solid inside
  have access : buffer.offset + (1 + spaces.length) < buffer.length := by omega
  rw [parseChildren, if_neg (Nat.not_le.mpr shallow)]
  dsimp only
  rw [skipped]
  simp only [closeChildren, ParseBuffer.canAccess, ParseBuffer.byteAt, ParseBuffer.advance,
    Nat.add_zero, here, access, decide_true, Bool.and_self, if_true, Nat.add_sub_cancel,
    Option.some.injEq, Prod.mk.injEq, ParseBuffer.mk.injEq, and_true, true_and]
  omega

theorem parseChildren_loop {size : Nat} {child : Children Double}
    (shallow : buffer.depth < cjsonNestingLimit)
    (holds : Holds buffer.content (buffer.offset + 1) (spaces ++ first :: more))
    (blank : Spaces spaces) (solid : ¬first ≤ 32) (different : first ≠ close)
    (inside : buffer.offset + 1 + spaces.length < buffer.length)
    (looped : loop { buffer.advance spaces.length with depth := buffer.depth + 1 } =
      some ({ buffer.advance (spaces.length + size) with depth := buffer.depth + 1 },
        some child))
    (closes : buffer.byteAt (spaces.length + size) = close)
    (inside' : buffer.offset + (spaces.length + size) < buffer.length) :
    parseChildren close make loop buffer =
      some (buffer.advance (spaces.length + size + 1), some (make child)) := by
  obtain ⟨skipped, here⟩ := bufferSkipWhitespace_opened holds blank solid inside
  have access : buffer.offset + (1 + spaces.length) < buffer.length := by omega
  have back : { buffer.advance (1 + spaces.length) with
      depth := buffer.depth + 1, offset := buffer.offset + (1 + spaces.length) - 1 } =
      ({ buffer.advance spaces.length with depth := buffer.depth + 1 } : ParseBuffer) := by
    simp only [ParseBuffer.advance, ParseBuffer.mk.injEq, and_true, true_and]
    omega
  rw [parseChildren, if_neg (Nat.not_le.mpr shallow)]
  dsimp only
  rw [skipped]
  simp only [ParseBuffer.canAccess, ParseBuffer.byteAt, ParseBuffer.advance, Nat.add_zero, here,
    access, different, decide_true, decide_false, Bool.and_false, Bool.true_eq_false,
    Bool.false_eq_true, if_false] at back ⊢
  rw [back]
  simp only [ParseBuffer.advance] at looped
  rw [looped]
  simp only [ParseBuffer.byteAt] at closes
  simp only [Option.map_some, closeChildren, ParseBuffer.canAccess, ParseBuffer.byteAt,
    ParseBuffer.advance, Nat.add_zero, closes, inside', decide_true, Bool.and_self, if_true,
    Nat.add_sub_cancel, Option.some.injEq, Prod.mk.injEq, ParseBuffer.mk.injEq, and_true,
    true_and]
  omega

end Children

/-- Whitespace that stands in formatted texts only. -/
theorem spaces_formatted (format : Bool) {byte : Byte} (small : byte ≤ 32) :
    Spaces (if format then [byte] else []) := by
  intro other member
  cases format
  · cases member
  · cases List.mem_singleton.mp member
    exact small

theorem spaces_nil : Spaces [] := fun _ member => absurd member List.not_mem_nil

theorem Spaces.append {left right : List Byte} (first : Spaces left) (second : Spaces right) :
    Spaces (left ++ right) :=
  fun _ member => (List.mem_append.mp member).elim (first _) (second _)

theorem braceText_eq (format : Bool) :
    braceText format = char '{' :: (if format then [char '\n'] else []) := by
  cases format <;> rfl

theorem colonText_eq (format : Bool) :
    colonText format = char ':' :: (if format then [char '\t'] else []) := by
  cases format <;> rfl

theorem parseName_text {buffer : ParseBuffer} {string : CString} {format : Bool}
    {spaces more : List Byte} {first : Byte}
    (holds : Holds buffer.content (buffer.offset + 1)
      (spaces ++ (quoted (some string) ++ (colonText format ++ first :: more))))
    (blank : Spaces spaces) (solid : ¬first ≤ 32)
    (inside : buffer.offset + 1 + spaces.length + (quoted (some string)).length +
      (colonText format).length < buffer.length) :
    parseName buffer =
      (buffer.advance (1 + spaces.length + (quoted (some string)).length +
        (colonText format).length), some string) := by
  have access : buffer.canAccess 1 = true := decide_eq_true (by omega)
  obtain ⟨rest, open'⟩ : ∃ rest, quoted (some string) = char '"' :: rest :=
    ⟨_, by rw [quoted, List.append_assoc]; rfl⟩
  have behind := holds
  rw [open', List.cons_append] at behind
  have skipped := skip_advanced behind blank (by decide) (by omega)
  rw [holds_append] at holds
  obtain ⟨-, holds⟩ := holds
  rw [holds_append] at holds
  obtain ⟨name, holds⟩ := holds
  have read := @parseString_quoted (buffer.advance (1 + spaces.length)) string
    (by rw [ParseBuffer.advance, ← Nat.add_assoc]; exact name)
    (by simp only [ParseBuffer.advance]; omega)
  rw [advance_advance] at read
  have colon : buffer.byteAt (1 + spaces.length + (quoted (some string)).length) = char ':' := by
    rw [colonText_eq] at holds
    have here := holds_iff.mp holds 0 (Nat.succ_pos _)
    rw [ParseBuffer.byteAt, ← Nat.add_assoc, ← Nat.add_assoc]
    exact here
  have solid' : bufferSkipWhitespace
      (buffer.advance (1 + spaces.length + (quoted (some string)).length)) =
        buffer.advance (1 + spaces.length + (quoted (some string)).length) := by
    refine bufferSkipWhitespace_solid ?_ (by simp only [ParseBuffer.advance]; omega)
    rw [byteAt_advance, Nat.add_zero, colon]
    decide
  have length : (colonText format).length = 1 + (if format then [char '\t'] else []).length := by
    rw [colonText_eq, List.length_cons, Nat.add_comm]
  have access' : buffer.canAccess (1 + spaces.length + (quoted (some string)).length) = true :=
    decide_eq_true (by omega)
  have last := @skip_advanced buffer (1 + spaces.length + (quoted (some string)).length + 1)
    (if format then [char '\t'] else []) more first (by
      rw [colonText_eq, List.cons_append, ← List.singleton_append, holds_append] at holds
      rw [← Nat.add_assoc, ← Nat.add_assoc, ← Nat.add_assoc]
      exact holds.2) (spaces_formatted format (by decide)) solid (by omega)
  rw [parseName, access, if_neg Bool.noConfusion, skipped, read]
  dsimp only
  rw [solid', canAccess_advance, byteAt_advance, Nat.add_zero, colon, access', advance_advance,
    last, length, ← Nat.add_assoc]
  rfl

theorem commaText_eq (format : Bool) :
    commaText format true = char ',' :: (if format then [char ' '] else []) := by
  cases format <;> rfl

theorem memberEndText_more (format : Bool) :
    memberEndText format true = char ',' :: (if format then [char '\n'] else []) := by
  cases format <;> rfl

theorem memberEndText_last (format : Bool) :
    memberEndText format false = if format then [char '\n'] else [] := rfl

theorem eq_nil_of_hasNext {next : Children Double} (last : next.hasNext = false) :
    next = .nil := by
  cases next with
  | nil => rfl
  | cons => cases last

/-- The text of elements starts with a byte that is no whitespace and no bracket. -/
theorem elementsText_first (exact' : libc.Exact) (format : Bool) (depth : Nat)
    {current : Children Double} (plain : current.PlainElements libc)
    (more : current.hasNext = true) :
    ∃ first rest, elementsText libc format depth current = first :: rest ∧ ¬first ≤ 32 ∧
      first ≠ char ']' := by
  cases current with
  | nil => cases more
  | cons string item next =>
      obtain ⟨first, rest, form, solid, bracket, -⟩ := itemText_first exact' format depth plain.2.1
      exact ⟨first, _, by rw [elementsText, form, List.cons_append], solid, bracket⟩

/-- The text of members starts with a quote. -/
theorem membersBody_first (format : Bool) (depth : Nat) {current : Children Double}
    (more : current.hasNext = true) :
    ∃ rest, membersBody libc format depth current = char '"' :: rest := by
  cases current with
  | nil => cases more
  | cons string item next =>
      exact ⟨_, by rw [membersBody, quoted, List.append_assoc, List.append_assoc]; rfl⟩

theorem space_not_number : ∀ byte : Byte, byte ≤ 32 → isNumberByte byte = false := by
  decide +kernel

/-- Behind a value there is no byte of a number. -/
theorem not_number_of_holds {buffer : ParseBuffer} {size : Nat} {spaces more : List Byte}
    {close : Byte} (holds : Holds buffer.content (buffer.offset + size) (spaces ++ close :: more))
    (blank : Spaces spaces) (solid : isNumberByte close = false) :
    isNumberByte (buffer.byteAt size) = false := by
  have here := holds_iff.mp holds 0 (by simp)
  rw [ParseBuffer.byteAt, ← Nat.add_zero (buffer.offset + size), here]
  cases spaces with
  | nil => exact solid
  | cons space => exact space_not_number _ (blank _ List.mem_cons_self)

end Reading

end PicoApConfigure.Cjson
