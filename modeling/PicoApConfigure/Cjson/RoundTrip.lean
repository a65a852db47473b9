import PicoApConfigure.Cjson.Printed
import PicoApConfigure.Cjson.Reading
import Mathlib.Data.Nat.Digits.Lemmas

/-!
# What is printed is parsed

The text of an item is parsed to the item, formatted or not, with anything behind it.
-/

namespace PicoApConfigure.Cjson

open Nor

section RoundTrip

variable {Double : Type} {libc : Libc Double}

mutual

/-- The text of an item is parsed to the item. -/
theorem parseValue_text (exact' : libc.Exact) (format : Bool) (depth : Nat) (item : Item Double)
    (buffer : ParseBuffer) (fuel : Nat) (plain : item.Plain libc)
    (nested : item.nesting + buffer.depth ≤ cjsonNestingLimit)
    (holds : Holds buffer.content buffer.offset (itemText libc format depth item))
    (inside : buffer.offset + (itemText libc format depth item).length ≤ buffer.length)
    (ends : EndsAt item buffer (itemText libc format depth item).length)
    (enough : 2 * (itemText libc format depth item).length + 1 ≤ fuel) :
    parseValue libc fuel buffer =
      some (buffer.advance (itemText libc format depth item).length, some item) := by
  obtain ⟨fuel, rfl⟩ : ∃ more, fuel = more + 1 := ⟨fuel - 1, by omega⟩
  obtain ⟨first, rest, form, -⟩ := itemText_first exact' format depth plain
  have access : buffer.canAccess 0 = true := by
    rw [form, List.length_cons] at inside
    exact decide_eq_true (by omega)
  have here : buffer.byteAt 0 = first := by
    rw [form] at holds
    exact holds_iff.mp holds 0 (Nat.succ_pos _)
  match item with
  | .null =>
      rw [itemText] at holds inside ⊢
      have read : buffer.canRead 4 = true := decide_eq_true inside
      rw [parseValue, read, startsWith_holds holds]
      rfl
  | .false =>
      rw [itemText] at holds inside form ⊢
      obtain ⟨rfl, -⟩ := List.cons.inj form
      have read : buffer.canRead 5 = true := decide_eq_true inside
      rw [parseValue, startsWith_other here (by decide), read, startsWith_holds holds,
        Bool.and_false]
      rfl
  | .true =>
      rw [itemText] at holds inside form ⊢
      obtain ⟨rfl, -⟩ := List.cons.inj form
      have read : buffer.canRead 4 = true := decide_eq_true inside
      rw [parseValue, startsWith_other here (by decide), startsWith_other here (by decide), read,
        startsWith_holds holds, Bool.and_false, Bool.and_false]
      rfl
  | .number valuedouble valueint =>
      obtain ⟨isInt, rfl⟩ := plain
      rw [itemText, numberText_plain exact' isInt] at holds inside ends form ⊢
      obtain ⟨-, first', rest', form', start⟩ := sprintfD_bytes valueint
      obtain ⟨rfl, -⟩ := List.cons.inj (form.symm.trans form')
      obtain ⟨-, -, -, quote, null, false', true'⟩ := number_first first start
      rw [parseValue_first access here null false' true', if_neg quote, if_pos start,
        parseNumber_text exact' isInt holds inside ends]
  | .string none => exact absurd rfl plain
  | .string (some string) =>
      rw [itemText] at holds inside form ⊢
      obtain ⟨rfl, -⟩ := List.cons.inj (form.symm.trans
        (by rw [quoted, List.append_assoc]; rfl : quoted (some string) = char '"' :: _))
      rw [parseValue_first access here (by decide) (by decide) (by decide), if_pos rfl,
        parseString_quoted holds inside]
      rfl
  | .array child =>
      rw [itemText, List.append_assoc] at holds form
      obtain ⟨rfl, -⟩ := List.cons.inj form
      rw [holds_append, List.length_singleton] at holds
      simp only [itemText, List.length_append, List.length_singleton] at inside enough ⊢
      rw [Item.nesting] at nested
      rw [parseValue_first access here (by decide) (by decide) (by decide), if_neg (by decide),
        if_neg (by decide), if_pos rfl]
      cases more : child.hasNext with
      | false =>
          cases eq_nil_of_hasNext more
          exact parseChildren_empty (by omega) holds.2 spaces_nil (by decide)
            (by simp only [elementsText, List.length_nil] at inside ⊢; omega)
      | true =>
          obtain ⟨first, rest, form, solid, bracket⟩ :=
            elementsText_first exact' format (depth + 1) plain more
          have looped := parseElements_text exact' format (depth + 1) child []
            { buffer with depth := buffer.depth + 1 } fuel more plain (by dsimp only; omega)
            spaces_nil holds.2 (by simp only [List.length_nil]; omega) (by omega)
          have behind := (holds_append.mp holds.2).2
          rw [form, List.cons_append] at holds
          have closes : buffer.byteAt
              (0 + (1 + (elementsText libc format (depth + 1) child).length)) = char ']' := by
            rw [Nat.zero_add]
            exact byteAt_of_holds (by rwa [← Nat.add_assoc])
          rw [parseChildren_loop (by omega) holds.2 spaces_nil solid bracket
            (by simp only [List.length_nil]; omega)
            (by rw [List.length_nil, Nat.zero_add]; exact looped)
            closes (by rw [List.length_nil]; omega)]
          refine congrArg (fun size => some (buffer.advance size, _)) ?_
          simp only [List.length_nil]
          omega
  | .object child =>
      rw [itemText, braceText_eq, List.append_assoc, List.cons_append] at holds form
      obtain ⟨rfl, -⟩ := List.cons.inj form
      rw [← List.singleton_append, holds_append, List.length_singleton] at holds
      simp only [itemText, braceText_eq, List.length_append, List.length_cons, List.length_nil]
        at inside enough ⊢
      rw [Item.nesting] at nested
      rw [parseValue_first access here (by decide) (by decide) (by decide), if_neg (by decide),
        if_neg (by decide), if_neg (by decide), if_pos rfl]
      have newline : Spaces (if format then [char '\n'] else []) :=
        spaces_formatted format (by decide)
      cases more : child.hasNext with
      | false =>
          cases eq_nil_of_hasNext more
          rw [membersText, List.nil_append, ← List.append_assoc] at holds
          simp only [membersText, List.length_nil] at inside ⊢
          rw [parseChildren_empty (by omega) holds.2 (newline.append (spaces_tabs format depth))
            (by decide) (by rw [List.length_append]; omega)]
          refine congrArg (fun size => some (buffer.advance size, _)) ?_
          rw [List.length_append]
          omega
      | true =>
          obtain ⟨rest, form⟩ := @membersBody_first _ libc format (depth + 1) child more
          rw [membersText_eq format (depth + 1) more, List.append_assoc, ← List.append_assoc]
            at holds
          rw [membersText_eq format (depth + 1) more, List.length_append] at inside enough ⊢
          have blank := newline.append (spaces_tabs format (depth + 1))
          have body := (holds_append.mp holds.2).2
          have looped := parseMembers_text exact' format (depth + 1) child [] (tabs format depth)
            { buffer.advance
                ((if format then [char '\n'] else []) ++ tabs format (depth + 1)).length with
              depth := buffer.depth + 1 } fuel more plain (by dsimp only; omega)
            spaces_nil (spaces_tabs format depth)
            (by
              rw [List.nil_append]
              simp only [ParseBuffer.advance]
              rwa [Nat.add_right_comm] at body)
            (by simp only [ParseBuffer.advance, List.length_nil, List.length_append]; omega)
            (by omega)
          have behind := (holds_append.mp (holds_append.mp body).2).2
          rw [form, List.cons_append] at holds
          have closes : buffer.byteAt
              (((if format then [char '\n'] else []) ++ tabs format (depth + 1)).length +
                (1 + (membersBody libc format (depth + 1) child).length +
                  (tabs format depth).length)) = char '}' := by
            refine @byteAt_of_holds _ _ _ [] (cast (congrArg (Holds _ · _) ?_) behind)
            omega
          rw [parseChildren_loop (by omega) holds.2 blank (by decide) (by decide)
            (by rw [List.length_append]; omega)
            (looped.trans (by
              simp only [ParseBuffer.advance, List.length_nil, Nat.add_assoc buffer.offset]; rfl))
            closes (by rw [List.length_append]; omega)]
          refine congrArg (fun size => some (buffer.advance size, _)) ?_
          rw [List.length_append]
          omega

/-- The text of elements is parsed to the elements, from the byte in front of it on. -/
theorem parseElements_text (exact' : libc.Exact) (format : Bool) (depth : Nat)
    (current : Children Double) (spaces : List Byte)
    (buffer : ParseBuffer) (fuel : Nat) (more : current.hasNext = true)
    (plain : current.PlainElements libc)
    (nested : current.nesting + buffer.depth ≤ cjsonNestingLimit) (blank : Spaces spaces)
    (holds : Holds buffer.content (buffer.offset + 1)
      (spaces ++ (elementsText libc format depth current ++ [char ']'])))
    (inside : buffer.offset + 1 + spaces.length +
      (elementsText libc format depth current).length < buffer.length)
    (enough : 2 * (elementsText libc format depth current).length + 2 ≤ fuel) :
    parseElements libc fuel buffer =
      some (buffer.advance (1 + spaces.length +
        (elementsText libc format depth current).length), some current) := by
  match current with
  | .nil => cases more
  | .cons string item next =>
      obtain ⟨rfl, plain, plains⟩ := plain
      obtain ⟨fuel, rfl⟩ : ∃ more, fuel = more + 1 := ⟨fuel - 1, by omega⟩
      obtain ⟨first, rest, form, solid, -⟩ := itemText_first exact' format depth plain
      rw [Children.nesting] at nested
      rw [elementsText, List.append_assoc, List.append_assoc] at holds
      have positive : 0 < (itemText libc format depth item).length := by
        rw [form]
        exact Nat.succ_pos _
      simp only [elementsText, List.length_append] at inside enough ⊢
      have skipped : bufferSkipWhitespace (buffer.advance 1) =
          buffer.advance (1 + spaces.length) := by
        have front := holds
        rw [form, List.cons_append] at front
        exact skip_advanced front blank solid (by omega)
      rw [holds_append, holds_append] at holds
      obtain ⟨-, value, behind⟩ := holds
      simp only [Nat.add_assoc buffer.offset] at value behind
      have byte : buffer.byteAt (1 + spaces.length + (itemText libc format depth item).length) =
          if next.hasNext then char ',' else char ']' := by
        cases other : next.hasNext with
        | false =>
            rw [other, eq_nil_of_hasNext other] at behind
            exact byteAt_of_holds behind
        | true =>
            rw [other, commaText_eq] at behind
            exact byteAt_of_holds behind
      have ends : EndsAt item (buffer.advance (1 + spaces.length))
          (itemText libc format depth item).length := by
        refine endsAt_of_byte ?_
        rw [byteAt_advance, byte]
        split <;> decide
      have read := parseValue_text exact' format depth item (buffer.advance (1 + spaces.length))
        fuel plain (by simp only [ParseBuffer.advance]; omega) value
        (by simp only [ParseBuffer.advance]; omega) ends (by omega)
      have solid' : ¬buffer.byteAt
          (1 + spaces.length + (itemText libc format depth item).length) ≤ 32 := by
        rw [byte]
        split <;> decide
      have stays : bufferSkipWhitespace
          (buffer.advance (1 + spaces.length + (itemText libc format depth item).length)) =
            buffer.advance (1 + spaces.length + (itemText libc format depth item).length) :=
        bufferSkipWhitespace_solid (by rwa [byteAt_advance])
          (by simp only [ParseBuffer.advance]; omega)
      have access : buffer.canAccess
          (1 + spaces.length + (itemText libc format depth item).length) = true :=
        decide_eq_true (by omega)
      rw [parseElements, skipped, read, advance_advance]
      dsimp only
      rw [stays, canAccess_advance, byteAt_advance, Nat.add_zero, access, byte]
      cases other : next.hasNext with
      | false =>
          cases eq_nil_of_hasNext other
          rfl
      | true =>
          rw [other, commaText_eq, List.length_cons] at inside enough
          rw [commaText_eq, List.length_cons]
          rw [other, commaText_eq, List.cons_append, ← List.singleton_append, holds_append]
            at behind
          have rest := parseElements_text exact' format depth next
            (if format then [char ' '] else [])
            (buffer.advance (1 + spaces.length + (itemText libc format depth item).length)) fuel
            other plains (by simp only [ParseBuffer.advance]; omega)
            (spaces_formatted format (by decide)) behind.2
            (by simp only [ParseBuffer.advance]; omega) (by omega)
          rw [advance_advance] at rest
          rw [if_pos (by decide), rest]
          refine congrArg (fun size => some (buffer.advance size, _)) ?_
          omega

/-- The text of members is parsed to the members, from the byte in front of it on. -/
theorem parseMembers_text (exact' : libc.Exact) (format : Bool) (depth : Nat)
    (current : Children Double) (spaces closing : List Byte)
    (buffer : ParseBuffer) (fuel : Nat) (more : current.hasNext = true)
    (plain : current.PlainMembers libc)
    (nested : current.nesting + buffer.depth ≤ cjsonNestingLimit) (blank : Spaces spaces)
    (blank' : Spaces closing)
    (holds : Holds buffer.content (buffer.offset + 1)
      (spaces ++ (membersBody libc format depth current ++ (closing ++ [char '}']))))
    (inside : buffer.offset + 1 + spaces.length +
      (membersBody libc format depth current).length + closing.length < buffer.length)
    (enough : 2 * (membersBody libc format depth current).length + 2 ≤ fuel) :
    parseMembers libc fuel buffer =
      some (buffer.advance (1 + spaces.length +
        (membersBody libc format depth current).length + closing.length), some current) := by
  match current with
  | .nil => cases more
  | .cons string item next =>
      obtain ⟨named, plain, plains⟩ := plain
      obtain ⟨string, rfl⟩ := Option.ne_none_iff_exists'.mp named
      obtain ⟨fuel, rfl⟩ : ∃ more, fuel = more + 1 := ⟨fuel - 1, by omega⟩
      obtain ⟨first, rest, form, solid, -⟩ := itemText_first exact' format depth plain
      rw [Children.nesting] at nested
      simp only [membersBody, List.length_append] at inside enough ⊢
      simp only [membersBody, List.append_assoc] at holds
      have name : parseName buffer = (buffer.advance (1 + spaces.length +
          (quoted (some string)).length + (colonText format).length), some string) := by
        have front := holds
        rw [form, List.cons_append] at front
        exact parseName_text front blank solid (by omega)
      rw [holds_append, holds_append, holds_append, holds_append] at holds
      obtain ⟨-, -, -, value, behind⟩ := holds
      simp only [Nat.add_assoc buffer.offset] at value behind
      have newline : Spaces (if format then [char '\n'] else []) :=
        spaces_formatted format (by decide)
      -- what the parser does behind the name, where a value ends in front of a byte of no number
      have read : isNumberByte (buffer.byteAt (1 + spaces.length + (quoted (some string)).length +
          (colonText format).length + (itemText libc format depth item).length)) = false →
          parseValue libc fuel (buffer.advance (1 + spaces.length +
            (quoted (some string)).length + (colonText format).length)) =
              some (buffer.advance (1 + spaces.length + (quoted (some string)).length +
                (colonText format).length + (itemText libc format depth item).length),
                some item) := by
        intro ends
        have parsed := parseValue_text exact' format depth item (buffer.advance (1 + spaces.length +
          (quoted (some string)).length + (colonText format).length)) fuel plain
          (by simp only [ParseBuffer.advance]; omega) value
          (by simp only [ParseBuffer.advance]; omega)
          (endsAt_of_byte (by rwa [byteAt_advance])) (by omega)
        rwa [advance_advance] at parsed
      cases other : next.hasNext with
      | false =>
          cases eq_nil_of_hasNext other
          rw [other, memberEndText_last] at behind inside
          rw [membersText, List.nil_append, ← List.append_assoc] at behind
          rw [membersText, List.length_nil] at inside
          have blank := newline.append blank'
          have ends := not_number_of_holds behind blank (by decide)
          have skipped := skip_advanced behind blank (by decide)
            (by rw [List.length_append]; omega)
          have closes := @byteAt_of_holds buffer _ _ []
            (by rw [← Nat.add_assoc]; exact (holds_append.mp behind).2)
          rw [parseMembers, name]
          dsimp only
          rw [read ends]
          dsimp only
          rw [skipped, canAccess_advance, byteAt_advance, Nat.add_zero, closes,
            if_neg (by
              simp only [Bool.and_eq_true, decide_eq_true_eq]
              exact fun both => absurd both.2 (by decide))]
          refine congrArg (fun size => some (buffer.advance size, _)) ?_
          rw [memberEndText_last, membersText, List.length_append, List.length_nil]
          omega
      | true =>
          rw [other, memberEndText_more] at behind inside
          rw [other, memberEndText_more, List.length_cons] at enough
          rw [List.cons_append] at behind
          rw [List.length_cons] at inside
          have byte := byteAt_of_holds behind
          have stays : bufferSkipWhitespace (buffer.advance (1 + spaces.length +
              (quoted (some string)).length + (colonText format).length +
              (itemText libc format depth item).length)) = buffer.advance (1 + spaces.length +
              (quoted (some string)).length + (colonText format).length +
              (itemText libc format depth item).length) :=
            bufferSkipWhitespace_solid (by rw [byteAt_advance, Nat.add_zero, byte]; decide)
              (by simp only [ParseBuffer.advance]; omega)
          have access : buffer.canAccess (1 + spaces.length + (quoted (some string)).length +
              (colonText format).length + (itemText libc format depth item).length) = true :=
            decide_eq_true (by omega)
          rw [← List.singleton_append, holds_append, membersText_eq format depth other,
            List.append_assoc, ← List.append_assoc] at behind
          rw [membersText_eq format depth other, List.length_append] at inside enough
          have rest := parseMembers_text exact' format depth next
            ((if format then [char '\n'] else []) ++ tabs format depth) closing
            (buffer.advance (1 + spaces.length + (quoted (some string)).length +
              (colonText format).length + (itemText libc format depth item).length)) fuel other
            plains (by simp only [ParseBuffer.advance]; omega)
            (newline.append (spaces_tabs format depth)) blank' behind.2
            (by simp only [ParseBuffer.advance, List.length_append]; omega) (by omega)
          rw [parseMembers, name]
          dsimp only
          rw [read (by rw [byte]; decide)]
          dsimp only
          rw [stays, canAccess_advance, byteAt_advance, Nat.add_zero, byte, access,
            if_pos (by decide), rest, advance_advance]
          refine congrArg (fun size => some (buffer.advance size, _)) ?_
          rw [memberEndText_more, membersText_eq format depth other, List.length_append,
            List.length_append, List.length_cons]
          omega

end

/-- The text of an item at the start of a buffer is parsed to the item. -/
theorem parseStart_text (exact' : libc.Exact) (format : Bool) {item : Item Double}
    (plain : item.Plain libc) (shallow : item.nesting ≤ cjsonNestingLimit) {value : Memory}
    {bufferLength : Nat} (holds : Holds value 0 (itemText libc format 0 item))
    (room : (itemText libc format 0 item).length ≤ bufferLength)
    (ends : EndsAt item (.start value bufferLength) (itemText libc format 0 item).length) :
    0 < bufferLength ∧
      parseValue libc (parseFuel bufferLength)
          (bufferSkipWhitespace (skipUtf8Bom (.start value bufferLength))) =
        some ((ParseBuffer.start value bufferLength).advance (itemText libc format 0 item).length,
          some item) := by
  obtain ⟨first, rest, form, solid, -, mark⟩ := itemText_first exact' format 0 plain
  have here : (ParseBuffer.start value bufferLength).byteAt 0 = first := by
    rw [form] at holds
    exact holds_iff.mp holds 0 (Nat.succ_pos _)
  have positive : 0 < bufferLength := by
    rw [form, List.length_cons] at room
    omega
  have noMark : skipUtf8Bom (.start value bufferLength) = .start value bufferLength := by
    rw [skipUtf8Bom, startsWith_other here mark, Bool.and_false]
    rfl
  have stays : bufferSkipWhitespace (.start value bufferLength) = .start value bufferLength :=
    bufferSkipWhitespace_solid (by rwa [here]) positive
  rw [noMark, stays]
  exact ⟨positive, parseValue_text exact' format 0 item (.start value bufferLength)
    (parseFuel bufferLength) plain shallow holds (by rwa [ParseBuffer.start, Nat.zero_add]) ends
    (by rw [parseFuel]; omega)⟩

/-! ## Printing and parsing -/

theorem sprintfD_short {value : Int} (isInt : IsInt value) : (sprintfD value).length ≤ 25 := by
  have short : (decimal value.natAbs).length ≤ 10 := by
    rw [decimal]
    split
    next => exact Nat.succ_le_succ (Nat.zero_le 9)
    next =>
      rw [List.length_map, List.length_reverse, Nat.digits_length_le_iff (by decide)]
      have lower := isInt.lower
      have upper := isInt.upper
      simp only [intMin, intMax] at lower upper
      omega
  rw [sprintfD]
  split
  · rw [List.length_cons]
    omega
  · omega

mutual

/-- The printer refuses no item that the parser makes. -/
theorem Item.Plain.printable (exact' : libc.Exact) {item : Item Double} (plain : item.Plain libc) :
    item.Printable libc := by
  match item with
  | .null | .false | .true => trivial
  | .number valuedouble valueint =>
      obtain ⟨isInt, rfl⟩ := plain
      rw [Item.Printable, numberText_plain exact' isInt]
      refine ⟨sprintfD_short isInt, fun zero => ?_⟩
      have number := (sprintfD_bytes valueint).1 0 zero
      exact absurd number (by decide)
  | .string valuestring => trivial
  | .array child => exact Children.PlainElements.printable exact' plain
  | .object child => exact Children.PlainMembers.printable exact' plain

theorem Children.PlainElements.printable (exact' : libc.Exact) {child : Children Double}
    (plain : child.PlainElements libc) : child.Printable libc := by
  match child with
  | .nil => trivial
  | .cons string item next =>
      exact ⟨Item.Plain.printable exact' plain.2.1,
        Children.PlainElements.printable exact' plain.2.2⟩

theorem Children.PlainMembers.printable (exact' : libc.Exact) {child : Children Double}
    (plain : child.PlainMembers libc) : child.Printable libc := by
  match child with
  | .nil => trivial
  | .cons string item next =>
      exact ⟨Item.Plain.printable exact' plain.2.1,
        Children.PlainMembers.printable exact' plain.2.2⟩

end

/-- `strlen` of the string at the start of a memory. -/
structure Strlen (memory : Memory) (length : Nat) : Prop where
  terminator : memory length = 0
  text : ∀ offset < length, memory offset ≠ 0

theorem Strlen.eq {memory : Memory} {length : Nat} {text : List Byte}
    (strlen : Strlen memory length) (holds : Holds memory 0 (text ++ [0]))
    (nonzero : (0 : Byte) ∉ text) : length = text.length := by
  rw [holds_append] at holds
  obtain ⟨front, behind⟩ := holds
  have terminator : memory text.length = 0 := by
    simpa using holds_iff.mp behind 0 Nat.one_pos
  rcases Nat.lt_trichotomy length text.length with less | same | greater
  · have byte := holds_iff.mp front length less
    rw [Nat.zero_add, strlen.terminator] at byte
    exact absurd (byte ▸ List.getElem_mem less) nonzero
  · exact same
  · exact absurd terminator (strlen.text _ greater)

/-- What `cJSON_PrintPreallocated` printed is parsed to the item from any copy of the string, with
the end of the string as the end of the parse. -/
theorem printed_parses (exact' : libc.Exact) {item : Item Double} (plain : item.Plain libc)
    (shallow : item.nesting ≤ cjsonNestingLimit) {buffer memory : Memory} {length : Int}
    {format : Bool} (isInt : length ≤ intMax)
    (printed : (cjsonPrintPreallocated libc item buffer length format).1 = true) {strlen : Nat}
    (string : Strlen (cjsonPrintPreallocated libc item buffer length format).2 strlen)
    (copied : ∀ offset ≤ strlen,
      memory offset = (cjsonPrintPreallocated libc item buffer length format).2 offset)
    (requireNullTerminated : Bool) :
    cjsonParseWithLengthOpts libc memory (strlen + 1) requireNullTerminated =
      (some item, strlen) := by
  have printable := plain.printable exact'
  have stored := printed_stored libc item buffer length format isInt printable printed
  have whole : Holds (cjsonPrintPreallocated libc item buffer length format).2 0
      (itemText libc format 0 item ++ [0]) := by
    rw [stored]
    exact holds_store _ _ _
  cases string.eq whole (zero_not_mem_itemText libc format 0 item printable)
  have text : Holds memory 0 (itemText libc format 0 item) :=
    (holds_append.mp whole).1.congr fun offset _ inside => (copied offset (by omega)).symm
  have terminator : (ParseBuffer.start memory ((itemText libc format 0 item).length + 1)).byteAt
      (itemText libc format 0 item).length = 0 := by
    rw [ParseBuffer.byteAt, ParseBuffer.start, Nat.zero_add]
    exact (copied _ (Nat.le_refl _)).trans string.terminator
  obtain ⟨positive, parsed⟩ := parseStart_text exact' format plain shallow text
    (Nat.le_add_right _ 1) (endsAt_of_byte (by rw [terminator]; decide))
  rw [cjsonParseWithLengthOpts, if_neg (Nat.ne_of_gt positive)]
  dsimp only
  rw [parsed]
  have last := @bufferSkipWhitespace_last ((ParseBuffer.start memory
      ((itemText libc format 0 item).length + 1)).advance (itemText libc format 0 item).length)
    (by simp only [byteAt_advance, Nat.add_zero, terminator]; decide)
    (by rw [ParseBuffer.advance, ParseBuffer.start, Nat.zero_add])
  have access : (ParseBuffer.start memory ((itemText libc format 0 item).length + 1)).canAccess
      (itemText libc format 0 item).length = true :=
    decide_eq_true (by simp only [ParseBuffer.start]; omega)
  simp only [last, canAccess_advance, byteAt_advance, Nat.add_zero, terminator, access,
    decide_true, Bool.and_self, if_true, ite_self]
  simp only [ParseBuffer.advance, ParseBuffer.start, Nat.zero_add]

end RoundTrip

/-- The object with one member is printed and parsed. -/
theorem printed_parses_counter :
    cjsonParseWithLengthOpts integers
        (cjsonPrintPreallocated integers (counterObject 17) (fun _ => 0) 64 true).2 13 true =
      (some (counterObject 17), 12) :=
  have plain : (counterObject 17).Plain integers :=
    ⟨Option.some_ne_none _, ⟨⟨by decide, by decide⟩, rfl⟩, trivial⟩
  printed_parses integers_exact plain (by decide) (by decide) (by decide)
    ⟨by decide, by decide⟩ (fun _ _ => rfl) true

end PicoApConfigure.Cjson
