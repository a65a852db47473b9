import PicoApConfigure.Cjson.Accepted
import PicoApConfigure.Cjson.Integers

/-!
# The bytes that are parsed

The parser depends on no byte behind the length that it is given, so that a text needs no
terminator.
-/

namespace PicoApConfigure.Cjson

open Nor

/-- The memory has the bytes of the buffer. -/
def Agrees (buffer : ParseBuffer) (other : Memory) : Prop :=
  ∀ offset < buffer.length, other offset = buffer.content offset

/-- The buffer over other bytes. -/
def ParseBuffer.over (buffer : ParseBuffer) (other : Memory) : ParseBuffer :=
  { buffer with content := other }

/-- A result over other bytes. -/
def overResult {α : Type} (other : Memory) (result : ParseBuffer × α) : ParseBuffer × α :=
  (result.1.over other, result.2)

/-- The parser depends on the bytes of its buffer only. -/
def Inside {α : Type} (parse : ParseBuffer → Option (ParseBuffer × Option α)) : Prop :=
  ∀ buffer other, Agrees buffer other →
    parse (buffer.over other) = (parse buffer).map (overResult other)

/-! ## Bytes -/

section Bytes

variable {content other : Memory} {length : Nat}
  (agrees : ∀ offset < length, other offset = content offset)

include agrees

theorem skipSpaces_agrees (offset : Nat) :
    skipSpaces other length offset = skipSpaces content length offset := by
  fun_induction skipSpaces content length offset with
  | case1 offset below blank ih =>
      rw [skipSpaces, if_pos below, agrees _ below, if_pos blank, ih]
  | case2 offset below solid => rw [skipSpaces, if_pos below, agrees _ below, if_neg solid]
  | case3 offset passed => rw [skipSpaces, if_neg passed]

theorem numberStringLength_agrees (offset : Nat) :
    numberStringLength other length offset = numberStringLength content length offset ∧
      offset + numberStringLength content length offset ≤ max offset length := by
  fun_induction numberStringLength content length offset with
  | case1 offset below number ih =>
      obtain ⟨same, within⟩ := ih
      refine ⟨by rw [numberStringLength, if_pos below, agrees _ below, if_pos number, same], ?_⟩
      omega
  | case2 offset below other' =>
      refine ⟨by rw [numberStringLength, if_pos below, agrees _ below, if_neg other'], ?_⟩
      omega
  | case3 offset passed => exact ⟨by rw [numberStringLength, if_neg passed], Nat.le_max_left _ _⟩

theorem findStringEnd_agrees (inputEnd skippedBytes : Nat) :
    findStringEnd other length inputEnd skippedBytes =
      findStringEnd content length inputEnd skippedBytes := by
  fun_induction findStringEnd content length inputEnd skippedBytes with
  | case1 inputEnd skippedBytes inside quote =>
      rw [findStringEnd, if_pos inside, agrees _ inside, if_pos quote]
  | case2 inputEnd skippedBytes inside quote backslash last =>
      rw [findStringEnd, if_pos inside, agrees _ inside, if_neg quote, if_pos backslash,
        if_pos last]
  | case3 inputEnd skippedBytes inside quote backslash more ih =>
      rw [findStringEnd, if_pos inside, agrees _ inside, if_neg quote, if_pos backslash,
        if_neg more, ih]
  | case4 inputEnd skippedBytes inside quote plain ih =>
      rw [findStringEnd, if_pos inside, agrees _ inside, if_neg quote, if_neg plain, ih]
  | case5 inputEnd skippedBytes passed => rw [findStringEnd, if_neg passed]

theorem parseHex4_agrees {input : Nat} (inside : input + 4 ≤ length) :
    parseHex4 other input = parseHex4 content input := by
  have zero := agrees input (by omega)
  have one := agrees (input + 1) (by omega)
  have two := agrees (input + 1 + 1) (by omega)
  have three := agrees (input + 1 + 1 + 1) (by omega)
  simp only [parseHex4, parseHexLoop, zero, one, two, three]

theorem utf16LiteralToUtf8_agrees {inputPointer inputEnd : Nat} (inside : inputEnd ≤ length) :
    utf16LiteralToUtf8 other inputPointer inputEnd =
      utf16LiteralToUtf8 content inputPointer inputEnd := by
  rw [utf16LiteralToUtf8, utf16LiteralToUtf8]
  split
  next => rfl
  next enough =>
    rw [parseHex4_agrees agrees (by omega)]
    dsimp only
    split
    next => rfl
    next =>
      split
      next =>
        split
        next => rfl
        next enough' =>
          rw [agrees (inputPointer + 6) (by omega), agrees (inputPointer + 6 + 1) (by omega),
            parseHex4_agrees agrees (by omega)]
      next => rfl

theorem decodeString_agrees {inputEnd : Nat} (inside : inputEnd < length) (inputPointer : Nat)
    (output : List Byte) :
    decodeString other inputEnd inputPointer output =
      decodeString content inputEnd inputPointer output := by
  fun_induction decodeString content inputEnd inputPointer output with
  | case1 inputPointer output below plain ih =>
      have here := agrees inputPointer (by omega)
      rw [decodeString, if_pos below, here, if_pos plain, ih]
  | case2 inputPointer output below backslash byte letter ih =>
      have here := agrees inputPointer (by omega)
      have next := agrees (inputPointer + 1) (by omega)
      rw [decodeString, if_pos below, here, if_neg backslash, next, letter]
      exact ih
  | case3 inputPointer output below backslash letter unicode none =>
      have here := agrees inputPointer (by omega)
      have next := agrees (inputPointer + 1) (by omega)
      have literal := @utf16LiteralToUtf8_agrees content other length agrees inputPointer inputEnd
        (by omega)
      rw [decodeString, if_pos below, here, if_neg backslash, next, letter]
      dsimp only
      rw [if_pos unicode, literal, none]
  | case4 inputPointer output below backslash letter unicode bytes size encoded positive ih =>
      have here := agrees inputPointer (by omega)
      have next := agrees (inputPointer + 1) (by omega)
      have literal := @utf16LiteralToUtf8_agrees content other length agrees inputPointer inputEnd
        (by omega)
      rw [decodeString, if_pos below, here, if_neg backslash, next, letter]
      dsimp only
      rw [if_pos unicode, literal, encoded]
      dsimp only
      rw [if_pos positive, ih]
  | case5 inputPointer output below backslash letter unicode bytes size encoded zero =>
      have here := agrees inputPointer (by omega)
      have next := agrees (inputPointer + 1) (by omega)
      have literal := @utf16LiteralToUtf8_agrees content other length agrees inputPointer inputEnd
        (by omega)
      rw [decodeString, if_pos below, here, if_neg backslash, next, letter]
      dsimp only
      rw [if_pos unicode, literal, encoded]
      dsimp only
      rw [if_neg zero]
  | case6 inputPointer output below backslash letter other' =>
      have here := agrees inputPointer (by omega)
      have next := agrees (inputPointer + 1) (by omega)
      rw [decodeString, if_pos below, here, if_neg backslash, next, letter]
      dsimp only
      rw [if_neg other']
  | case7 inputPointer output passed => rw [decodeString, if_neg passed]

end Bytes

/-! ## Buffers -/

section Buffers

variable {Double : Type} {libc : Libc Double} {buffer after : ParseBuffer} {other : Memory}

theorem Agrees.moves (agrees : Agrees buffer other) (moves : Moves buffer after) :
    Agrees after other := by
  intro offset inside
  rw [moves.content]
  exact agrees offset (by rwa [← moves.length])

theorem Agrees.parses {α : Type} {good : α → Prop} {nesting : α → Nat} {result : Option α}
    (agrees : Agrees buffer other) (parses : Parses good nesting buffer after result) :
    Agrees after other := by
  intro offset inside
  rw [parses.content]
  exact agrees offset (by rwa [← parses.length])

theorem over_advance (buffer : ParseBuffer) (other : Memory) (size : Nat) :
    (buffer.over other).advance size = (buffer.advance size).over other := rfl

theorem over_canAccess (buffer : ParseBuffer) (other : Memory) (index : Nat) :
    (buffer.over other).canAccess index = buffer.canAccess index := rfl

/-- A byte is only looked at where it can be accessed. -/
theorem over_test (agrees : Agrees buffer other) (test : Byte → Bool) :
    ((buffer.over other).canAccess 0 && test ((buffer.over other).byteAt 0)) =
      (buffer.canAccess 0 && test (buffer.byteAt 0)) := by
  by_cases access : buffer.canAccess 0 = true
  · have inside : buffer.offset + 0 < buffer.length := of_decide_eq_true access
    have same : (buffer.over other).byteAt 0 = buffer.byteAt 0 := agrees _ inside
    rw [same]
    rfl
  · have refused : (buffer.over other).canAccess 0 = false := Bool.eq_false_iff.mpr access
    rw [refused, Bool.eq_false_iff.mpr access, Bool.false_and, Bool.false_and]

theorem over_byte (agrees : Agrees buffer other) (byte : Byte) :
    ((buffer.over other).canAccess 0 && decide ((buffer.over other).byteAt 0 = byte)) =
      (buffer.canAccess 0 && decide (buffer.byteAt 0 = byte)) :=
  over_test agrees fun here => decide (here = byte)

theorem over_startsWith (agrees : Agrees buffer other) {text : List Byte}
    (inside : buffer.offset + text.length ≤ buffer.length) :
    (buffer.over other).startsWith text = buffer.startsWith text := by
  have same : slice other buffer.offset text.length =
      slice buffer.content buffer.offset text.length :=
    slice_congr fun query _ below => agrees query (by omega)
  rw [ParseBuffer.startsWith, ParseBuffer.startsWith, ← same]
  rfl

theorem over_text (agrees : Agrees buffer other) {text : List Byte} {size : Nat}
    (length : text.length = size) :
    ((buffer.over other).canRead size && (buffer.over other).startsWith text) =
      (buffer.canRead size && buffer.startsWith text) := by
  have same : (buffer.over other).canRead size = buffer.canRead size := rfl
  rw [same]
  by_cases read : buffer.canRead size = true
  · have inside : buffer.offset + size ≤ buffer.length := of_decide_eq_true read
    rw [over_startsWith agrees (by omega)]
  · rw [Bool.eq_false_iff.mpr read, Bool.false_and, Bool.false_and]

theorem skipUtf8Bom_over (agrees : Agrees buffer other) :
    skipUtf8Bom (buffer.over other) = (skipUtf8Bom buffer).over other := by
  rw [skipUtf8Bom, skipUtf8Bom, over_canAccess]
  by_cases access : buffer.canAccess 4 = true
  · have inside : buffer.offset + 4 < buffer.length := of_decide_eq_true access
    rw [over_startsWith agrees (by simp only [List.length_cons, List.length_nil]; omega)]
    split <;> rfl
  · rw [Bool.eq_false_iff.mpr access, Bool.false_and, Bool.false_and]
    rfl

theorem bufferSkipWhitespace_over (agrees : Agrees buffer other) :
    bufferSkipWhitespace (buffer.over other) = (bufferSkipWhitespace buffer).over other := by
  have access : (buffer.over other).canAccess 0 = buffer.canAccess 0 := rfl
  have skipped : skipSpaces (buffer.over other).content (buffer.over other).length
      (buffer.over other).offset = skipSpaces buffer.content buffer.length buffer.offset :=
    skipSpaces_agrees agrees buffer.offset
  rw [bufferSkipWhitespace, bufferSkipWhitespace, access, skipped]
  split <;> rfl

theorem parseNumber_over (agrees : Agrees buffer other) :
    parseNumber libc (buffer.over other) = overResult other (parseNumber libc buffer) := by
  obtain ⟨same, within⟩ := numberStringLength_agrees agrees buffer.offset
  have size : numberStringLength (buffer.over other).content (buffer.over other).length
      (buffer.over other).offset =
        numberStringLength buffer.content buffer.length buffer.offset := same
  have text : slice (buffer.over other).content (buffer.over other).offset
      (numberStringLength buffer.content buffer.length buffer.offset) =
        slice buffer.content buffer.offset
          (numberStringLength buffer.content buffer.length buffer.offset) :=
    slice_congr fun query lower below => agrees query (by
      change buffer.offset ≤ query at lower
      change query < buffer.offset + _ at below
      omega)
  rw [parseNumber, parseNumber, size, text]
  dsimp only
  split <;> rfl

theorem parseString_over (agrees : Agrees buffer other) (inside : buffer.offset < buffer.length) :
    parseString (buffer.over other) = overResult other (parseString buffer) := by
  have first : (buffer.over other).byteAt 0 = buffer.byteAt 0 := agrees _ inside
  have found : findStringEnd (buffer.over other).content (buffer.over other).length
      ((buffer.over other).offset + 1) 0 =
        findStringEnd buffer.content buffer.length (buffer.offset + 1) 0 :=
    findStringEnd_agrees agrees _ 0
  rw [parseString, parseString, first, found]
  split
  next => rfl
  next =>
    split
    next => rfl
    next inputEnd skippedBytes found =>
      have decoded : decodeString (buffer.over other).content inputEnd
          ((buffer.over other).offset + 1) [] =
            decodeString buffer.content inputEnd (buffer.offset + 1) [] :=
        decodeString_agrees agrees (findStringEnd_room found).2.1 _ _
      rw [decoded]
      split <;> rfl

theorem parseName_over (agrees : Agrees buffer other) :
    parseName (buffer.over other) = overResult other (parseName buffer) := by
  rw [parseName, parseName, over_canAccess]
  split
  next => rfl
  next access =>
    have second : buffer.offset + 1 < buffer.length := by
      rwa [Bool.not_eq_false, ParseBuffer.canAccess, decide_eq_true_eq] at access
    have agrees := agrees.moves (moves_advance buffer 1)
    obtain ⟨start, within⟩ := bufferSkipWhitespace_moves (buffer.advance 1)
    rw [over_advance, bufferSkipWhitespace_over agrees,
      parseString_over (agrees.moves start) (by rw [start.length]; exact within second)]
    have agrees := (agrees.moves start).parses (parseString_parses _)
    generalize parseString (bufferSkipWhitespace (buffer.advance 1)) = result at agrees
    rcases result with ⟨named, none | name⟩
    · rfl
    · have behind := agrees.moves (bufferSkipWhitespace_moves named).1
      dsimp only [overResult] at agrees ⊢
      rw [bufferSkipWhitespace_over agrees, over_byte behind]
      split
      next =>
        rw [over_advance, bufferSkipWhitespace_over (behind.moves (moves_advance _ 1))]
      next => rfl

/-! ## Values -/

theorem closeChildren_over {close : Byte} {make : Children Double → Item Double}
    {result : ParseBuffer × Option (Children Double)} (agrees : Agrees result.1 other) :
    closeChildren close make (overResult other result) =
      overResult other (closeChildren close make result) := by
  rcases result with ⟨middle, none | child⟩
  · rfl
  · rw [overResult, closeChildren, closeChildren]
    rw [over_byte agrees]
    split <;> rfl

theorem parseChildren_over {close : Byte} {make : Children Double → Item Double}
    {loop : ParseBuffer → Option (ParseBuffer × Option (Children Double))}
    {good : Children Double → Prop} (looped : Parser good Children.nesting loop)
    (inside : Inside loop) (agrees : Agrees buffer other) :
    parseChildren close make loop (buffer.over other) =
      (parseChildren close make loop buffer).map (overResult other) := by
  have depth : (buffer.over other).depth = buffer.depth := rfl
  rw [parseChildren, parseChildren, depth]
  split
  next => rfl
  next =>
    have opened : Agrees { buffer.advance 1 with depth := buffer.depth + 1 } other := agrees
    have skipped : bufferSkipWhitespace { (buffer.over other).advance 1 with
        depth := buffer.depth + 1 } =
          (bufferSkipWhitespace { buffer.advance 1 with depth := buffer.depth + 1 }).over other :=
      bufferSkipWhitespace_over opened
    have agrees := opened.moves (bufferSkipWhitespace_moves _).1
    dsimp only at skipped ⊢
    rw [skipped]
    generalize bufferSkipWhitespace { buffer.advance 1 with depth := buffer.depth + 1 } = inner
      at agrees
    rw [over_byte agrees, over_canAccess]
    split
    next => exact congrArg some (@closeChildren_over _ _ _ _ (inner, some .nil) agrees)
    next =>
      split
      next => rfl
      next =>
        have loop' := inside { inner with offset := inner.offset - 1 } other agrees
        refine (congrArg (Option.map (closeChildren close make)) loop').trans ?_
        cases found : loop { inner with offset := inner.offset - 1 } with
        | none => rfl
        | some result =>
            have agrees : Agrees result.1 other :=
              @Agrees.parses { inner with offset := inner.offset - 1 } _ _ _ _ _ _ agrees
                (looped _ _ _ found)
            exact congrArg some (closeChildren_over agrees)

section Step

variable {fuel : Nat}

theorem parseValue_over (elements : Inside (parseElements libc fuel))
    (members : Inside (parseMembers libc fuel)) : Inside (parseValue libc (fuel + 1)) := by
  intro buffer other agrees
  obtain ⟨-, elements', members'⟩ := @parse_parses _ libc fuel
  have null : ((buffer.over other).canRead 4 &&
      (buffer.over other).startsWith [char 'n', char 'u', char 'l', char 'l']) =
        (buffer.canRead 4 && buffer.startsWith [char 'n', char 'u', char 'l', char 'l']) :=
    over_text agrees rfl
  have false : ((buffer.over other).canRead 5 &&
      (buffer.over other).startsWith [char 'f', char 'a', char 'l', char 's', char 'e']) =
        (buffer.canRead 5 &&
          buffer.startsWith [char 'f', char 'a', char 'l', char 's', char 'e']) :=
    over_text agrees rfl
  have true : ((buffer.over other).canRead 4 &&
      (buffer.over other).startsWith [char 't', char 'r', char 'u', char 'e']) =
        (buffer.canRead 4 && buffer.startsWith [char 't', char 'r', char 'u', char 'e']) :=
    over_text agrees rfl
  have number := over_test agrees fun byte =>
    byte = char '-' ∨ (char '0' ≤ byte ∧ byte ≤ char '9')
  rw [parseValue, parseValue, null, false, true, number, over_byte agrees, over_byte agrees,
    over_byte agrees]
  split
  next => rfl
  next =>
    split
    next => rfl
    next =>
      split
      next => rfl
      next =>
        split
        next quote =>
          rw [Bool.and_eq_true, ParseBuffer.canAccess, decide_eq_true_eq] at quote
          rw [parseString_over agrees quote.1]
          rfl
        next =>
          split
          next => rw [parseNumber_over agrees]; rfl
          next =>
            split
            next => exact parseChildren_over elements' elements agrees
            next =>
              split
              next => exact parseChildren_over members' members agrees
              next => rfl

theorem parseElements_over (value : Inside (parseValue libc fuel))
    (elements : Inside (parseElements libc fuel)) : Inside (parseElements libc (fuel + 1)) := by
  intro buffer other agrees
  have agrees := agrees.moves (moves_advance buffer 1)
  have start := agrees.moves (bufferSkipWhitespace_moves (buffer.advance 1)).1
  rw [parseElements, parseElements, over_advance, bufferSkipWhitespace_over agrees,
    value _ _ start]
  cases found : parseValue libc fuel (bufferSkipWhitespace (buffer.advance 1)) with
  | none => rfl
  | some result =>
      have parsed := (@parse_parses _ libc fuel).1 _ _ _ found
      rcases result with ⟨middle, none | item⟩
      · rfl
      · have agrees := start.parses parsed
        have behind := agrees.moves (bufferSkipWhitespace_moves middle).1
        simp only [Option.map_some, overResult]
        rw [bufferSkipWhitespace_over agrees, over_byte behind]
        split
        next =>
          rw [elements _ _ behind, Option.map_map, Option.map_map]
          rfl
        next => rfl

theorem parseMembers_over (value : Inside (parseValue libc fuel))
    (members : Inside (parseMembers libc fuel)) : Inside (parseMembers libc (fuel + 1)) := by
  intro buffer other agrees
  have name := parseName_parses buffer
  rw [parseMembers, parseMembers, parseName_over agrees]
  generalize parseName buffer = result at name
  rcases result with ⟨named, none | string⟩
  · rfl
  have start := agrees.parses name
  dsimp only [overResult] at start ⊢
  rw [value _ _ start]
  cases found : parseValue libc fuel named with
  | none => rfl
  | some result =>
      have parsed := (@parse_parses _ libc fuel).1 _ _ _ found
      rcases result with ⟨middle, none | item⟩
      · rfl
      · have agrees := start.parses parsed
        have behind := agrees.moves (bufferSkipWhitespace_moves middle).1
        simp only [Option.map_some, overResult]
        rw [bufferSkipWhitespace_over agrees, over_byte behind]
        split
        next =>
          rw [members _ _ behind, Option.map_map, Option.map_map]
          rfl
        next => rfl

end Step

/-- Every parser depends on the bytes of its buffer only. -/
theorem parse_over (fuel : Nat) :
    Inside (parseValue libc fuel) ∧ Inside (parseElements libc fuel) ∧
      Inside (parseMembers libc fuel) := by
  induction fuel with
  | zero => exact ⟨fun _ _ _ => rfl, fun _ _ _ => rfl, fun _ _ _ => rfl⟩
  | succ fuel ih =>
      obtain ⟨value, elements, members⟩ := ih
      exact ⟨parseValue_over elements members, parseElements_over value elements,
        parseMembers_over value members⟩

variable (libc)

/-- `cJSON_ParseWithLengthOpts` depends on no byte behind the length. -/
theorem parse_reads_inside {value other : Memory} {bufferLength : Nat}
    (same : ∀ offset < bufferLength, other offset = value offset) (requireNullTerminated : Bool) :
    cjsonParseWithLengthOpts libc other bufferLength requireNullTerminated =
      cjsonParseWithLengthOpts libc value bufferLength requireNullTerminated := by
  have agrees : Agrees (.start value bufferLength) other := same
  have marked := agrees.moves (skipUtf8Bom_moves _)
  have begun := marked.moves (bufferSkipWhitespace_moves _).1
  have start : ParseBuffer.start other bufferLength =
      (ParseBuffer.start value bufferLength).over other := rfl
  rw [cjsonParseWithLengthOpts, cjsonParseWithLengthOpts, start, skipUtf8Bom_over agrees]
  split
  next => rfl
  next =>
    dsimp only
    rw [bufferSkipWhitespace_over marked, (parse_over _).1 _ _ begun]
    cases found : parseValue libc (parseFuel bufferLength)
        (bufferSkipWhitespace (skipUtf8Bom (.start value bufferLength))) with
    | none => rfl
    | some result =>
        have parsed := (@parse_parses _ libc (parseFuel bufferLength)).1 _ _ _ found
        rcases result with ⟨after, none | item⟩
        · rfl
        · have agrees := begun.parses parsed
          have behind := agrees.moves (bufferSkipWhitespace_moves after).1
          simp only [Option.map_some, overResult]
          rw [bufferSkipWhitespace_over agrees, over_byte behind]
          rfl

end Buffers

/-- A text of four bytes with a byte behind it. -/
def trueText (behind : Byte) : Memory :=
  fun offset => [char 't', char 'r', char 'u', char 'e'].getD offset behind

theorem trueText_inside (behind : Byte) {offset : Nat} (inside : offset < 4) :
    trueText behind offset = trueText 0 offset := by
  have bound : offset < [char 't', char 'r', char 'u', char 'e'].length := inside
  rw [trueText, trueText, List.getD_eq_getElem?_getD, List.getD_eq_getElem?_getD,
    List.getElem?_eq_getElem bound, Option.getD_some, Option.getD_some]

theorem parse_reads_inside_true :
    cjsonParseWithLengthOpts integers (trueText (char '"')) 4 false =
      cjsonParseWithLengthOpts integers (trueText (char 'x')) 4 false :=
  parse_reads_inside integers
    (fun _ inside => (trueText_inside _ inside).trans (trueText_inside _ inside).symm) false

end PicoApConfigure.Cjson
