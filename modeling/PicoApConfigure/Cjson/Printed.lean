import PicoApConfigure.Cjson.Integers
import PicoApConfigure.Cjson.Text

/-!
# What the printer prints

Every function below `print_value` prints its part of the text.  An item is printed exactly if its
text, the terminator and one more byte fit in the buffer.
-/

namespace PicoApConfigure.Cjson

open Nor

section Leaves

variable {p : Printbuffer} {text : List Byte} {depth needed : Nat}

theorem frame_of_stored {q : Printbuffer} {bytes : List Byte} (length : q.length = p.length)
    (format : q.format = p.format) (offset : p.offset ≤ q.offset)
    (stored : q.buffer = store p.buffer p.offset bytes)
    (room : p.offset + bytes.length ≤ p.length) : Frame p q :=
  ⟨length, format, offset, fun _ apart => by rw [stored, store_apart _ _ (by omega)]⟩

/-- A function that asks for the room of a value and stores it. -/
theorem Values.of_ensure {done : Nat → Printbuffer} (fits : p.Fits)
    (exact' : needed = text.length + 1) (valued : Valued p text depth (done p.offset)) :
    Values p text depth
      (match p.ensure needed with
        | none => (false, p)
        | some output => (true, done output)) := by
  cases found : p.ensure needed with
  | none =>
      refine ⟨⟨nofun, fun room => ?_⟩, nofun, .refl p⟩
      have some := (@ensure_eq_some p needed p.offset fits).mpr ⟨by omega, rfl⟩
      rw [found] at some
      cases some
  | some output =>
      obtain ⟨room, rfl⟩ := (ensure_eq_some fits).mp found
      obtain ⟨front, back, parts, offset⟩ := valued.passed
      refine ⟨⟨fun _ => by omega, fun _ => rfl⟩, fun _ => valued, ?_⟩
      refine frame_of_stored valued.length valued.format ?_ valued.stored ?_
      · change p.offset ≤ (done p.offset).offset
        omega
      · rw [List.length_append, List.length_singleton]
        omega

/-- A function that asks for the room of a part of a value and stores it. -/
theorem Advances.of_ensure {done : Nat → Printbuffer} {junk : List Byte} (fits : p.Fits)
    (few : needed ≤ text.length + 1) (enough : (text ++ junk).length ≤ needed)
    (short : junk.length ≤ 1)
    (stored : (done p.offset).buffer = store p.buffer p.offset (text ++ junk))
    (offset : (done p.offset).offset = p.offset + text.length)
    (length : (done p.offset).length = p.length) (format : (done p.offset).format = p.format)
    (depth' : (done p.offset).depth = depth) :
    Advances p text depth
      (match p.ensure needed with
        | none => (false, p)
        | some output => (true, done output)) := by
  cases found : p.ensure needed with
  | none =>
      refine ⟨fun room => ?_, nofun, .refl p⟩
      have some := (@ensure_eq_some p needed p.offset fits).mpr ⟨by omega, rfl⟩
      rw [found] at some
      cases some
  | some output =>
      obtain ⟨room, rfl⟩ := (ensure_eq_some fits).mp found
      refine ⟨fun _ => rfl, fun _ => ⟨⟨junk, short, stored⟩, offset, length, format, depth'⟩, ?_⟩
      refine frame_of_stored length format ?_ stored (by omega)
      change p.offset ≤ (done p.offset).offset
      omega

theorem Advances.nothing (p : Printbuffer) : Advances p [] p.depth (true, p) where
  succeeds _ := rfl
  advanced _ := ⟨⟨[], Nat.zero_le _, (store_nil _ _).symm⟩, rfl, rfl, rfl, rfl⟩
  frame := .refl p

theorem valued_write : Valued p text p.depth (p.write p.offset (text ++ [0])) where
  stored := rfl
  passed := ⟨[], text, rfl, rfl⟩
  length := rfl
  format := rfl
  depth := rfl

theorem printLiteral_values (fits : p.Fits) : Values p text p.depth (printLiteral text p) := by
  rw [printLiteral]
  exact Values.of_ensure fits rfl valued_write

theorem printComma_advances (fits : p.Fits) (next : Bool) :
    Advances p (commaText p.format next) p.depth (printComma next p) := by
  rw [printComma, commaText]
  cases next
  · exact .nothing p
  · cases format : p.format
    all_goals
      exact @Advances.of_ensure _ _ _ _ _ [0] fits (Nat.le_refl _) (Nat.le_refl _) (Nat.le_refl _)
        rfl rfl rfl rfl rfl

theorem printIndent_advances (fits : p.Fits) :
    Advances p (tabs p.format p.depth) p.depth (printIndent p) := by
  rw [printIndent, tabs]
  cases format : p.format
  · exact .nothing p
  · refine @Advances.of_ensure _ _ _ _ _ [] fits ?_ ?_ (Nat.zero_le _) ?_ ?_ rfl rfl rfl
    · simp
    · simp
    · rw [List.append_nil]
      rfl
    · simp [Printbuffer.advance, Printbuffer.write]

theorem printColon_advances (fits : p.Fits) :
    Advances p (colonText p.format) p.depth (printColon p) := by
  rw [printColon, colonText]
  cases format : p.format
  all_goals
    exact @Advances.of_ensure _ _ _ _ _ [] fits (Nat.le_succ _) (Nat.le_refl _) (Nat.zero_le _)
      rfl rfl rfl rfl rfl

theorem printMemberEnd_advances (fits : p.Fits) (next : Bool) :
    Advances p (memberEndText p.format next) p.depth (printMemberEnd next p) := by
  rw [printMemberEnd, memberEndText]
  cases format : p.format <;> cases next
  all_goals
    exact @Advances.of_ensure _ _ _ _ _ [0] fits (Nat.le_refl _) (Nat.le_refl _) (Nat.le_refl _)
      rfl rfl rfl rfl rfl

theorem printArrayEnd_values (fits : p.Fits) :
    Values p [char ']'] (p.depth - 1) (printArrayEnd p) := by
  rw [printArrayEnd]
  exact Values.of_ensure fits rfl ⟨rfl, ⟨[], [char ']'], rfl, rfl⟩, rfl, rfl, rfl⟩

theorem printObjectEnd_values (fits : p.Fits) (inside : 0 < p.depth) :
    Values p (tabs p.format (p.depth - 1) ++ [char '}']) (p.depth - 1) (printObjectEnd p) := by
  rw [printObjectEnd, tabs]
  cases format : p.format
  · exact Values.of_ensure fits rfl ⟨rfl, ⟨[], [char '}'], rfl, rfl⟩, rfl, rfl, rfl⟩
  · refine Values.of_ensure fits ?_ ⟨?_, ⟨[], _, rfl, rfl⟩, rfl, rfl, rfl⟩
    · simp
      omega
    · change store _ _ _ = store _ _ _
      rw [List.append_assoc]
      rfl

end Leaves

/-! ## Strings -/

theorem escaped_length : ∀ c : Byte, (escaped c).length = 1 + escapeCharacters c := by
  decide +kernel

theorem escaped_plain : ∀ c : Byte, escapeCharacters c = 0 → escaped c = [c] := by
  decide +kernel

theorem flatMap_escaped_length (input : List Byte) :
    (input.flatMap escaped).length = input.length + (input.map escapeCharacters).sum := by
  induction input with
  | nil => rfl
  | cons c rest ih =>
      rw [List.flatMap_cons, List.length_append, ih, escaped_length, List.length_cons,
        List.map_cons, List.sum_cons]
      omega

theorem flatMap_escaped_plain {input : List Byte}
    (plain : (input.map escapeCharacters).sum = 0) : input.flatMap escaped = input := by
  induction input with
  | nil => rfl
  | cons c rest ih =>
      rw [List.map_cons, List.sum_cons] at plain
      rw [List.flatMap_cons, ih (by omega), escaped_plain c (by omega)]
      rfl

/-- The loop stores the escaped string; the terminator of `sprintf` is overwritten by what is
stored behind it. -/
theorem printEscaped_then (input : List Byte) (buffer : Memory) (outputPointer : Nat)
    (byte : Byte) (bytes : List Byte) :
    store (printEscaped input buffer outputPointer)
        (outputPointer + (input.flatMap escaped).length) (byte :: bytes) =
      store buffer outputPointer (input.flatMap escaped ++ byte :: bytes) := by
  induction input generalizing buffer outputPointer with
  | nil => rfl
  | cons c rest ih =>
      have step (text junk : List Byte) (short : junk.length ≤ 1) :
          store (printEscaped rest (store buffer outputPointer (text ++ junk))
              (outputPointer + text.length))
            (outputPointer + (text.length + (rest.flatMap escaped).length)) (byte :: bytes) =
          store buffer outputPointer (text ++ (rest.flatMap escaped ++ byte :: bytes)) := by
        have covered : junk.drop (rest.flatMap escaped ++ byte :: bytes).length = [] := by
          refine List.drop_eq_nil_of_le ?_
          rw [List.length_append, List.length_cons]
          omega
        rw [← Nat.add_assoc, ih, store_behind, covered, List.append_nil]
      rw [List.flatMap_cons, List.length_append, List.append_assoc, printEscaped, escaped]
      split
      next =>
        have plain := step [c] [] (Nat.zero_le _)
        rw [List.append_nil] at plain
        exact plain
      next =>
        cases escapeLetter c with
        | some letter =>
            have one := step [char '\\', letter] [] (Nat.zero_le _)
            rw [List.append_nil] at one
            dsimp only
            rw [← one]
            congr 2
            exact store_append buffer outputPointer [char '\\'] [letter]
        | none =>
            have unicode := step (char '\\' :: sprintfU c) [0] (Nat.le_refl _)
            dsimp only
            rw [← unicode]
            congr 2
            exact store_append buffer outputPointer [char '\\'] (sprintfU c ++ [0])

section Values

variable {p : Printbuffer}

theorem printStringPtr_values (fits : p.Fits) (input : Option CString) :
    Values p (quoted input) p.depth (printStringPtr input p) := by
  cases input with
  | none =>
      rw [printStringPtr]
      exact Values.of_ensure fits rfl valued_write
  | some input =>
      have length := flatMap_escaped_length input.val
      have needed : input.val.length + (input.val.map escapeCharacters).sum + 3 =
          (quoted (some input)).length + 1 := by
        rw [quoted, List.length_append, List.length_append, Option.elim_some, length]
        simp only [List.length_singleton]
        omega
      rw [printStringPtr]
      by_cases plain : (input.val.map escapeCharacters).sum = 0
      · simp only [plain, if_true]
        rw [plain] at needed length
        refine Values.of_ensure fits needed ⟨?_, ⟨[], _, rfl, rfl⟩, rfl, rfl, rfl⟩
        change store (store (store p.buffer p.offset [char '"']) (p.offset + 1) input.val)
          (p.offset + input.val.length + 1) [char '"', 0] = _
        have first := store_append p.buffer p.offset [char '"'] input.val
        have second := store_append p.buffer p.offset ([char '"'] ++ input.val) [char '"', 0]
        rw [List.length_singleton] at first
        rw [List.length_append, List.length_singleton, Nat.add_comm 1, ← Nat.add_assoc] at second
        rw [first, second, quoted, Option.elim_some, flatMap_escaped_plain plain]
        simp only [List.append_assoc, List.cons_append, List.nil_append]
      · simp only [plain, if_false]
        refine Values.of_ensure fits needed ⟨?_, ⟨[], _, rfl, rfl⟩, rfl, rfl, rfl⟩
        change store (printEscaped input.val (store p.buffer p.offset [char '"']) (p.offset + 1))
          (p.offset + (input.val.length + (input.val.map escapeCharacters).sum) + 1)
          [char '"', 0] = _
        have loop := printEscaped_then input.val (store p.buffer p.offset [char '"'])
          (p.offset + 1) (char '"') [0]
        have whole := store_append p.buffer p.offset [char '"']
          (input.val.flatMap escaped ++ [char '"', 0])
        rw [length, Nat.add_right_comm] at loop
        rw [List.length_singleton] at whole
        rw [loop, whole, quoted, Option.elim_some]
        simp only [List.append_assoc, List.cons_append, List.nil_append]

end Values

/-! ## Items -/

theorem zero_not_mem_escaped : ∀ c : Byte, c ≠ 0 → (0 : Byte) ∉ escaped c := by
  decide +kernel

theorem zero_not_mem_quoted (string : Option CString) : (0 : Byte) ∉ quoted string := by
  have quote : (0 : Byte) ∉ [char '"'] := by decide
  rw [quoted, List.mem_append, List.mem_append]
  rintro ((zero | zero) | zero)
  · exact quote zero
  · cases string with
    | none => cases zero
    | some string =>
        obtain ⟨c, member, zero⟩ := List.mem_flatMap.mp zero
        exact zero_not_mem_escaped c (fun null => string.property (null ▸ member)) zero
  · exact quote zero

section Items

variable {Double : Type} (libc : Libc Double)

theorem zero_not_mem_tabs (format : Bool) (depth : Nat) : (0 : Byte) ∉ tabs format depth := by
  cases format
  · exact List.not_mem_nil
  · intro zero
    exact absurd (List.eq_of_mem_replicate zero) (by decide)

theorem zero_not_mem_braceText : ∀ format, (0 : Byte) ∉ braceText format := by decide

theorem zero_not_mem_commaText : ∀ format next, (0 : Byte) ∉ commaText format next := by decide

theorem zero_not_mem_colonText : ∀ format, (0 : Byte) ∉ colonText format := by decide

theorem zero_not_mem_memberEndText : ∀ format next, (0 : Byte) ∉ memberEndText format next := by
  decide

mutual

/-- No text contains a terminator. -/
theorem zero_not_mem_itemText (format : Bool) (depth : Nat) (item : Item Double)
    (printable : item.Printable libc) : (0 : Byte) ∉ itemText libc format depth item := by
  match item with
  | .invalid => exact printable.elim
  | .null | .false | .true => simp only [itemText]; decide
  | .number valuedouble valueint => exact printable.2
  | .raw none => exact absurd rfl printable
  | .raw (some valuestring) => exact valuestring.property
  | .string valuestring => exact zero_not_mem_quoted valuestring
  | .array child =>
      have elements := zero_not_mem_elementsText format (depth + 1) child printable
      rw [itemText, List.mem_append, List.mem_append]
      rintro ((zero | zero) | zero)
      · exact absurd zero (by decide)
      · exact elements zero
      · exact absurd zero (by decide)
  | .object child =>
      have members := zero_not_mem_membersText format (depth + 1) child printable
      rw [itemText, List.mem_append, List.mem_append, List.mem_append]
      rintro ((zero | zero) | zero | zero)
      · exact zero_not_mem_braceText format zero
      · exact members zero
      · exact zero_not_mem_tabs format depth zero
      · exact absurd zero (by decide)

theorem zero_not_mem_elementsText (format : Bool) (depth : Nat) (current : Children Double)
    (printable : current.Printable libc) :
    (0 : Byte) ∉ elementsText libc format depth current := by
  match current with
  | .nil => exact List.not_mem_nil
  | .cons _ item next =>
      have first := zero_not_mem_itemText format depth item printable.1
      have rest := zero_not_mem_elementsText format depth next printable.2
      rw [elementsText, List.mem_append, List.mem_append]
      rintro (zero | zero | zero)
      · exact first zero
      · exact zero_not_mem_commaText format next.hasNext zero
      · exact rest zero

theorem zero_not_mem_membersText (format : Bool) (depth : Nat) (current : Children Double)
    (printable : current.Printable libc) :
    (0 : Byte) ∉ membersText libc format depth current := by
  match current with
  | .nil => exact List.not_mem_nil
  | .cons string item next =>
      have name := zero_not_mem_quoted string
      have first := zero_not_mem_itemText format depth item printable.1
      have rest := zero_not_mem_membersText format depth next printable.2
      rw [membersText, List.mem_append, List.mem_append, List.mem_append, List.mem_append,
        List.mem_append]
      rintro (zero | zero | zero | zero | zero | zero)
      · exact zero_not_mem_tabs format depth zero
      · exact name zero
      · exact zero_not_mem_colonText format zero
      · exact first zero
      · exact zero_not_mem_memberEndText format next.hasNext zero
      · exact rest zero

end

/-- The start of `print_array`. -/
def printArrayStart (p : Printbuffer) : Bool × Printbuffer :=
  match p.ensure 1 with
  | none => (false, p)
  | some output => (true, { (p.write output [char '[']).advance 1 with depth := p.depth + 1 })

/-- The start of `print_object`. -/
def printObjectStart (p : Printbuffer) : Bool × Printbuffer :=
  match p.ensure ((braceText p.format).length + 1) with
  | none => (false, p)
  | some output =>
      (true, { (p.write output (braceText p.format)).advance (braceText p.format).length with
        depth := p.depth + 1 })

theorem printArray_eq (child : Children Double) (p : Printbuffer) :
    printValue libc (.array child) p =
      andThen (printArrayStart p) fun p => andThen (printElements libc child p) printArrayEnd := by
  rw [printValue, printArrayStart]
  cases p.ensure 1 <;> rfl

theorem printObject_eq (child : Children Double) (p : Printbuffer) :
    printValue libc (.object child) p =
      andThen (printObjectStart p) fun p => andThen (printMembers libc child p) printObjectEnd := by
  have length : (braceText p.format).length = if p.format then 2 else 1 := by
    rw [braceText]
    cases p.format <;> rfl
  rw [printValue, printObjectStart, length]
  dsimp only
  cases p.ensure ((if p.format then 2 else 1) + 1) <;> rfl

theorem printArrayStart_advances {p : Printbuffer} (fits : p.Fits) :
    Advances p [char '['] (p.depth + 1) (printArrayStart p) := by
  rw [printArrayStart]
  exact @Advances.of_ensure _ _ _ _ _ [] fits (Nat.le_succ _) (Nat.le_refl _) (Nat.zero_le _)
    rfl rfl rfl rfl rfl

theorem printObjectStart_advances {p : Printbuffer} (fits : p.Fits) :
    Advances p (braceText p.format) (p.depth + 1) (printObjectStart p) := by
  rw [printObjectStart]
  refine @Advances.of_ensure _ _ _ _ _ [] fits (Nat.le_refl _) ?_ (Nat.zero_le _) ?_
    rfl rfl rfl rfl
  · rw [List.append_nil]
    exact Nat.le_succ _
  · rw [List.append_nil]
    rfl

mutual

/-- `print_value` prints the text of the item. -/
theorem printValue_values (item : Item Double) (p : Printbuffer) (fits : p.Fits)
    (printable : item.Printable libc) :
    Values p (itemText libc p.format p.depth item) p.depth (printValue libc item p) := by
  match item with
  | .invalid => exact printable.elim
  | .null | .false | .true =>
      simp only [itemText, printValue]
      exact printLiteral_values fits
  | .number valuedouble valueint =>
      rw [itemText, printValue, printNumber]
      simp only [Nat.not_lt.mpr printable.1, if_false]
      exact Values.of_ensure fits rfl
        ⟨rfl, ⟨_, [], (List.append_nil _).symm, rfl⟩, rfl, rfl, rfl⟩
  | .raw none => exact absurd rfl printable
  | .raw (some valuestring) =>
      rw [printValue]
      exact printLiteral_values fits
  | .string valuestring =>
      rw [itemText, printValue]
      exact printStringPtr_values fits valuestring
  | .array child =>
      rw [itemText, List.append_assoc, printArray_eq]
      refine (printArrayStart_advances fits).values fun q opened => ?_
      have fits := opened.fits fits
      have elements := printElements_advances child q fits printable
      rw [opened.format, opened.depth] at elements
      refine elements.values fun r passed => ?_
      have close := printArrayEnd_values (passed.fits fits)
      rwa [passed.depth, Nat.add_sub_cancel] at close
  | .object child =>
      rw [itemText, List.append_assoc, printObject_eq]
      refine (printObjectStart_advances fits).values fun q opened => ?_
      have fits := opened.fits fits
      have members := printMembers_advances child q fits printable
      rw [opened.format, opened.depth] at members
      refine members.values fun r passed => ?_
      have close := printObjectEnd_values (passed.fits fits)
        (by rw [passed.depth]; exact Nat.succ_pos _)
      rwa [passed.depth, Nat.add_sub_cancel, passed.format, opened.format] at close

theorem printElements_advances (current : Children Double) (p : Printbuffer) (fits : p.Fits)
    (printable : current.Printable libc) :
    Advances p (elementsText libc p.format p.depth current) p.depth
      (printElements libc current p) := by
  match current with
  | .nil =>
      rw [elementsText, printElements]
      exact .nothing p
  | .cons _ item next =>
      rw [elementsText, printElements]
      have value := printValue_values item p fits printable.1
      have text := zero_not_mem_itemText libc p.format p.depth item printable.1
      refine @Values.advances p _ _ p.depth p.depth _
        (fun q => andThen (printComma next.hasNext q) fun q => printElements libc next q)
        value text fun q advanced => ?_
      have fits := advanced.fits fits
      have comma := printComma_advances fits next.hasNext
      rw [advanced.format, advanced.depth] at comma
      refine comma.advances fun r passed => ?_
      have rest := printElements_advances next r (passed.fits fits) printable.2
      rwa [passed.format, advanced.format, passed.depth] at rest

theorem printMembers_advances (current : Children Double) (p : Printbuffer) (fits : p.Fits)
    (printable : current.Printable libc) :
    Advances p (membersText libc p.format p.depth current) p.depth
      (printMembers libc current p) := by
  match current with
  | .nil =>
      rw [membersText, printMembers]
      exact .nothing p
  | .cons string item next =>
      rw [membersText, printMembers]
      refine (printIndent_advances fits).advances fun p₁ indented => ?_
      have fits := indented.fits fits
      have name := printStringPtr_values fits string
      refine @Values.advances _ _ _ _ p.depth _
        (fun q => andThen (printColon q) fun q => andThen (printValue libc item q) fun q =>
          andThen (printMemberEnd next.hasNext q.updateOffset) fun q => printMembers libc next q)
        name (zero_not_mem_quoted string) fun p₂ named => ?_
      have fits := named.fits fits
      have colon := printColon_advances fits
      rw [named.format, indented.format] at colon
      refine colon.advances fun p₃ separated => ?_
      have fits := separated.fits fits
      have value := printValue_values item p₃ fits printable.1
      have format : p₃.format = p.format :=
        separated.format.trans (named.format.trans indented.format)
      have depth : p₃.depth = p.depth :=
        separated.depth.trans (named.depth.trans indented.depth)
      rw [format, depth] at value
      refine @Values.advances _ _ _ _ p.depth _
        (fun q => andThen (printMemberEnd next.hasNext q) fun q => printMembers libc next q)
        value (zero_not_mem_itemText libc p.format p.depth item printable.1) fun p₄ valued => ?_
      have fits := valued.fits fits
      have ends := printMemberEnd_advances fits next.hasNext
      rw [valued.format, format, valued.depth] at ends
      refine ends.advances fun p₅ ended => ?_
      have rest := printMembers_advances next p₅ (ended.fits fits) printable.2
      rwa [ended.format, valued.format, format, ended.depth] at rest

end

/-- What `cJSON_PrintPreallocated` does is what `print_value` does at the start of the buffer. -/
theorem printPreallocated_values (item : Item Double) (buffer : Memory) {length : Int}
    (format : Bool) (proper : ¬length < 0) (isInt : length ≤ intMax)
    (printable : item.Printable libc) :
    ∃ p : Printbuffer, p.buffer = buffer ∧ p.length = length.toNat ∧ p.offset = 0 ∧
      Values p (itemText libc format 0 item) 0 (printValue libc item p) ∧
      cjsonPrintPreallocated libc item buffer length format =
        ((printValue libc item p).1, (printValue libc item p).2.buffer) := by
  refine ⟨{ buffer, length := length.toNat, offset := 0, depth := 0, format }, rfl, rfl, rfl,
    printValue_values libc item _ ?_ printable, ?_⟩
  · change ((length.toNat : Nat) : Int) ≤ intMax
    omega
  · rw [cjsonPrintPreallocated, if_neg proper]

theorem printed_stored (item : Item Double) (buffer : Memory) (length : Int) (format : Bool)
    (isInt : length ≤ intMax) (printable : item.Printable libc)
    (printed : (cjsonPrintPreallocated libc item buffer length format).1 = true) :
    (cjsonPrintPreallocated libc item buffer length format).2 =
      store buffer 0 (itemText libc format 0 item ++ [0]) := by
  by_cases negative : length < 0
  · rw [cjsonPrintPreallocated, if_pos negative] at printed
    cases printed
  · obtain ⟨p, rfl, -, start, values, same⟩ :=
      printPreallocated_values libc item buffer format negative isInt printable
    rw [same] at printed ⊢
    have stored := (values.valued printed).stored
    rwa [start] at stored

theorem printed_iff_room (item : Item Double) (buffer : Memory) (length : Int) (format : Bool)
    (isInt : length ≤ intMax) (printable : item.Printable libc) :
    (cjsonPrintPreallocated libc item buffer length format).1 = true ↔
      ((itemText libc format 0 item).length + 2 : Int) ≤ length := by
  by_cases negative : length < 0
  · rw [cjsonPrintPreallocated, if_pos negative]
    exact ⟨fun never => Bool.noConfusion never, fun room => by omega⟩
  · obtain ⟨p, rfl, size, start, values, same⟩ :=
      printPreallocated_values libc item buffer format negative isInt printable
    rw [same]
    refine values.succeeds.trans ?_
    rw [size, start]
    omega

/-- `cJSON_PrintPreallocated` prints an item exactly if its text, the terminator and one more byte
fit; it stores the text with the terminator, and never anything behind the buffer. -/
theorem printPreallocated_iff (item : Item Double) (buffer : Memory) (length : Int) (format : Bool)
    (isInt : length ≤ intMax) (printable : item.Printable libc) :
    ((cjsonPrintPreallocated libc item buffer length format).1 = true ↔
        ((itemText libc format 0 item).length + 2 : Int) ≤ length) ∧
      ((cjsonPrintPreallocated libc item buffer length format).1 = true →
        (cjsonPrintPreallocated libc item buffer length format).2 =
          store buffer 0 (itemText libc format 0 item ++ [0])) ∧
      ∀ address : Nat, length ≤ address →
        (cjsonPrintPreallocated libc item buffer length format).2 address = buffer address := by
  refine ⟨printed_iff_room libc item buffer length format isInt printable,
    printed_stored libc item buffer length format isInt printable, fun address behind => ?_⟩
  by_cases negative : length < 0
  · rw [cjsonPrintPreallocated, if_pos negative]
  · obtain ⟨p, rfl, size, start, values, same⟩ :=
      printPreallocated_values libc item buffer format negative isInt printable
    rw [same]
    exact values.frame.outside address (.inr (by omega))

end Items

/-- The object that has one member with the name `n`. -/
def counterObject (value : Int) : Item Int :=
  .object (.cons (some ⟨[char 'n'], by decide⟩) (.number value value) .nil)

/-- The formatted text of the object has twelve bytes, so that thirteen are not enough. -/
theorem printPreallocated_counter :
    (cjsonPrintPreallocated integers (counterObject 17) (fun _ => 0) 13 true).1 ≠ true ∧
      (cjsonPrintPreallocated integers (counterObject 17) (fun _ => 0) 14 true).1 = true :=
  have printable : (counterObject 17).Printable integers := ⟨⟨by decide, by decide⟩, trivial⟩
  ⟨mt (printPreallocated_iff integers _ (fun _ => 0) 13 true (by decide) printable).1.mp
      (by decide),
    (printPreallocated_iff integers _ (fun _ => 0) 14 true (by decide) printable).1.mpr
      (by decide)⟩

end PicoApConfigure.Cjson
