import PicoApConfigure.Cjson.Item

/-!
# Parsing

Translation of `parse_value` and what it uses.  Allocations do not fail.  The functions that call
each other take fuel, and `none` means that it ran out.
-/

namespace PicoApConfigure.Cjson

open Nor

/-- `parse_buffer` -/
structure ParseBuffer where
  content : Memory
  length : Nat
  offset : Nat
  depth : Nat

namespace ParseBuffer

/-- The buffer at the start of a text. -/
def start (content : Memory) (length : Nat) : ParseBuffer :=
  { content, length, offset := 0, depth := 0 }

/-- `can_read` -/
def canRead (buffer : ParseBuffer) (size : Nat) : Bool := buffer.offset + size ≤ buffer.length

/-- `can_access_at_index` -/
def canAccess (buffer : ParseBuffer) (index : Nat) : Bool :=
  buffer.offset + index < buffer.length

/-- `buffer_at_offset(buffer)[index]` -/
def byteAt (buffer : ParseBuffer) (index : Nat) : Byte := buffer.content (buffer.offset + index)

/-- `strncmp` with the text at the offset. -/
def startsWith (buffer : ParseBuffer) (text : List Byte) : Bool :=
  slice buffer.content buffer.offset text.length = text

/-- The offset moved on. -/
def advance (buffer : ParseBuffer) (size : Nat) : ParseBuffer :=
  { buffer with offset := buffer.offset + size }

end ParseBuffer

/-- The loop of `buffer_skip_whitespace`. -/
def skipSpaces (content : Memory) (length offset : Nat) : Nat :=
  if offset < length then
    if content offset ≤ 32 then skipSpaces content length (offset + 1) else offset
  else offset
termination_by length - offset

/-- `buffer_skip_whitespace` -/
def bufferSkipWhitespace (buffer : ParseBuffer) : ParseBuffer :=
  if buffer.canAccess 0 = false then buffer
  else
    let offset := skipSpaces buffer.content buffer.length buffer.offset
    { buffer with offset := if offset = buffer.length then offset - 1 else offset }

/-- `skip_utf8_bom` at the start of a text. -/
def skipUtf8Bom (buffer : ParseBuffer) : ParseBuffer :=
  if buffer.canAccess 4 && buffer.startsWith [0xef, 0xbb, 0xbf] then buffer.advance 3 else buffer

/-! ## Numbers -/

/-- The bytes that `parse_number` copies. -/
def isNumberByte (c : Byte) : Bool :=
  (char '0' ≤ c ∧ c ≤ char '9') ∨ c = char '+' ∨ c = char '-' ∨ c = char 'e' ∨ c = char 'E' ∨
    c = char '.'

/-- `number_string_length` -/
def numberStringLength (content : Memory) (length offset : Nat) : Nat :=
  if offset < length then
    if isNumberByte (content offset) then numberStringLength content length (offset + 1) + 1
    else 0
  else 0
termination_by length - offset

section Number

variable {Double : Type} (libc : Libc Double)

/-- `parse_number` -/
def parseNumber (buffer : ParseBuffer) : ParseBuffer × Option (Item Double) :=
  let size := numberStringLength buffer.content buffer.length buffer.offset
  let (number, taken) := libc.strtod (slice buffer.content buffer.offset size)
  if taken = 0 then (buffer, none)
  else (buffer.advance taken, some (.number number (saturated libc number)))

end Number

/-! ## Strings -/

/-- A digit for `parse_hex4`. -/
def hexValue (c : Byte) : Option Nat :=
  if char '0' ≤ c ∧ c ≤ char '9' then some (c.toNat - (char '0').toNat)
  else if char 'A' ≤ c ∧ c ≤ char 'F' then some (10 + c.toNat - (char 'A').toNat)
  else if char 'a' ≤ c ∧ c ≤ char 'f' then some (10 + c.toNat - (char 'a').toNat)
  else none

/-- The loop of `parse_hex4` with the digits that are left. -/
def parseHexLoop (content : Memory) (input : Nat) : Nat → Nat → Nat
  | 0, h => h
  | digits + 1, h =>
      match hexValue (content input) with
      | none => 0
      | some digit =>
          let h := h + digit
          parseHexLoop content (input + 1) digits (if 0 < digits then h <<< 4 else h)

/-- `parse_hex4`, which returns 0 for what is no number. -/
def parseHex4 (content : Memory) (input : Nat) : Nat := parseHexLoop content input 4 0

/-- The loop that encodes all bytes but the first one. -/
def utf8Loop : Nat → Nat → List Byte → Nat × List Byte
  | 0, codepoint, bytes => (codepoint, bytes)
  | position + 1, codepoint, bytes =>
      utf8Loop position (codepoint >>> 6)
        (BitVec.ofNat 8 ((codepoint ||| 0x80) &&& 0xbf) :: bytes)

/-- A code point with the given length and mark of the first byte. -/
def utf8Encode (length mark codepoint : Nat) : List Byte :=
  let (rest, bytes) := utf8Loop (length - 1) codepoint []
  if 1 < length then BitVec.ofNat 8 ((rest ||| mark) &&& 0xff) :: bytes
  else BitVec.ofNat 8 (rest &&& 0x7f) :: bytes

/-- The bytes for a code point. -/
def utf8Bytes (codepoint : Nat) : Option (List Byte) :=
  if codepoint < 0x80 then some (utf8Encode 1 0 codepoint)
  else if codepoint < 0x800 then some (utf8Encode 2 0xc0 codepoint)
  else if codepoint < 0x10000 then some (utf8Encode 3 0xe0 codepoint)
  else if codepoint ≤ 0x10ffff then some (utf8Encode 4 0xf0 codepoint)
  else none

/-- `utf16_literal_to_utf8`: the bytes it stores, and the length of the literal. -/
def utf16LiteralToUtf8 (content : Memory) (inputPointer inputEnd : Nat) :
    Option (List Byte × Nat) :=
  if inputEnd < inputPointer + 6 then none
  else
    let firstCode := parseHex4 content (inputPointer + 2)
    if 0xdc00 ≤ firstCode ∧ firstCode ≤ 0xdfff then none
    else if 0xd800 ≤ firstCode ∧ firstCode ≤ 0xdbff then
      let secondSequence := inputPointer + 6
      if inputEnd < secondSequence + 6 then none
      else if content secondSequence ≠ char '\\' ∨ content (secondSequence + 1) ≠ char 'u' then
        none
      else
        let secondCode := parseHex4 content (secondSequence + 2)
        if secondCode < 0xdc00 ∨ 0xdfff < secondCode then none
        else
          (utf8Bytes (0x10000 + (((firstCode &&& 0x3ff) <<< 10) ||| (secondCode &&& 0x3ff)))).map
            (·, 12)
    else (utf8Bytes firstCode).map (·, 6)

/-- The loop that looks for the end of a string, with the number of `skipped_bytes`. -/
def findStringEnd (content : Memory) (length inputEnd skippedBytes : Nat) : Option (Nat × Nat) :=
  if inputEnd < length then
    if content inputEnd = char '"' then some (inputEnd, skippedBytes)
    else if content inputEnd = char '\\' then
      if length ≤ inputEnd + 1 then none
      else findStringEnd content length (inputEnd + 2) (skippedBytes + 1)
    else findStringEnd content length (inputEnd + 1) skippedBytes
  else none
termination_by length - inputEnd

/-- The byte that an escape of two bytes stands for. -/
def unescapeLetter (c : Byte) : Option Byte :=
  if c = char 'b' then some 0x08
  else if c = char 'f' then some 0x0c
  else if c = char 'n' then some 0x0a
  else if c = char 'r' then some 0x0d
  else if c = char 't' then some 0x09
  else if c = char '"' ∨ c = char '\\' ∨ c = char '/' then some c
  else none

/-- The loop through a string literal: the place where it stops, what it has stored, and whether it
came to the end. -/
def decodeString (content : Memory) (inputEnd inputPointer : Nat) (output : List Byte) :
    Nat × List Byte × Bool :=
  if inputPointer < inputEnd then
    if content inputPointer ≠ char '\\' then
      decodeString content inputEnd (inputPointer + 1) (output ++ [content inputPointer])
    else
      match unescapeLetter (content (inputPointer + 1)) with
      | some byte => decodeString content inputEnd (inputPointer + 2) (output ++ [byte])
      | none =>
          if content (inputPointer + 1) = char 'u' then
            match utf16LiteralToUtf8 content inputPointer inputEnd with
            | none => (inputPointer, output, false)
            | some (bytes, sequenceLength) =>
                if 0 < sequenceLength then
                  decodeString content inputEnd (inputPointer + sequenceLength) (output ++ bytes)
                else (inputPointer, output, false)
          else (inputPointer, output, false)
  else (inputPointer, output, true)
termination_by inputEnd - inputPointer

/-- `parse_string`: the string up to its first terminator. -/
def parseString (buffer : ParseBuffer) : ParseBuffer × Option CString :=
  let inputPointer := buffer.offset + 1
  if buffer.byteAt 0 ≠ char '"' then ({ buffer with offset := inputPointer }, none)
  else
    match findStringEnd buffer.content buffer.length inputPointer 0 with
    | none => ({ buffer with offset := inputPointer }, none)
    | some (inputEnd, _) =>
        match decodeString buffer.content inputEnd inputPointer [] with
        | (stopped, _, false) => ({ buffer with offset := stopped }, none)
        | (_, output, true) =>
            ({ buffer with offset := inputEnd + 1 }, some (CString.ofBytes output))

/-! ## Values -/

section Parse

variable {Double : Type} (libc : Libc Double)

/-- The end of `parse_array` and `parse_object`. -/
def closeChildren (close : Byte) (make : Children Double → Item Double) :
    ParseBuffer × Option (Children Double) → ParseBuffer × Option (Item Double)
  | (buffer, none) => (buffer, none)
  | (buffer, some child) =>
      if buffer.canAccess 0 && buffer.byteAt 0 = close then
        ({ buffer.advance 1 with depth := buffer.depth - 1 }, some (make child))
      else (buffer, none)

/-- `parse_array` and `parse_object` around the loop over the children. -/
def parseChildren (close : Byte) (make : Children Double → Item Double)
    (loop : ParseBuffer → Option (ParseBuffer × Option (Children Double)))
    (buffer : ParseBuffer) : Option (ParseBuffer × Option (Item Double)) :=
  if cjsonNestingLimit ≤ buffer.depth then some (buffer, none)
  else
    let buffer := bufferSkipWhitespace { buffer.advance 1 with depth := buffer.depth + 1 }
    if buffer.canAccess 0 && buffer.byteAt 0 = close then
      some (closeChildren close make (buffer, some .nil))
    else if buffer.canAccess 0 = false then
      some ({ buffer with offset := buffer.offset - 1 }, none)
    else (loop { buffer with offset := buffer.offset - 1 }).map (closeChildren close make)

/-- The name of a member with the colon behind it, as the loop of `parse_object` reads it. -/
def parseName (buffer : ParseBuffer) : ParseBuffer × Option CString :=
  if buffer.canAccess 1 = false then (buffer, none)
  else
    match parseString (bufferSkipWhitespace (buffer.advance 1)) with
    | (buffer, none) => (buffer, none)
    | (buffer, some string) =>
        let buffer := bufferSkipWhitespace buffer
        if buffer.canAccess 0 && buffer.byteAt 0 = char ':' then
          (bufferSkipWhitespace (buffer.advance 1), some string)
        else (buffer, none)

mutual

/-- `parse_value` -/
def parseValue (fuel : Nat) (buffer : ParseBuffer) : Option (ParseBuffer × Option (Item Double)) :=
  match fuel with
  | 0 => none
  | fuel + 1 =>
      if buffer.canRead 4 && buffer.startsWith [char 'n', char 'u', char 'l', char 'l'] then
        some (buffer.advance 4, some .null)
      else if buffer.canRead 5 &&
          buffer.startsWith [char 'f', char 'a', char 'l', char 's', char 'e'] then
        some (buffer.advance 5, some .false)
      else if buffer.canRead 4 && buffer.startsWith [char 't', char 'r', char 'u', char 'e'] then
        some (buffer.advance 4, some .true)
      else if buffer.canAccess 0 && buffer.byteAt 0 = char '"' then
        let (buffer, string) := parseString buffer
        some (buffer, string.map fun string => .string (some string))
      else if buffer.canAccess 0 && (buffer.byteAt 0 = char '-' ∨
          (char '0' ≤ buffer.byteAt 0 ∧ buffer.byteAt 0 ≤ char '9')) then
        some (parseNumber libc buffer)
      else if buffer.canAccess 0 && buffer.byteAt 0 = char '[' then
        parseChildren (char ']') .array (parseElements fuel) buffer
      else if buffer.canAccess 0 && buffer.byteAt 0 = char '{' then
        parseChildren (char '}') .object (parseMembers fuel) buffer
      else some (buffer, none)

/-- The loop of `parse_array`, from the byte in front of an element. -/
def parseElements (fuel : Nat) (buffer : ParseBuffer) :
    Option (ParseBuffer × Option (Children Double)) :=
  match fuel with
  | 0 => none
  | fuel + 1 =>
      match parseValue fuel (bufferSkipWhitespace (buffer.advance 1)) with
      | none => none
      | some (buffer, none) => some (buffer, none)
      | some (buffer, some item) =>
          let buffer := bufferSkipWhitespace buffer
          if buffer.canAccess 0 && buffer.byteAt 0 = char ',' then
            (parseElements fuel buffer).map fun (buffer, next) =>
              (buffer, next.map fun next => .cons none item next)
          else some (buffer, some (.cons none item .nil))

/-- The loop of `parse_object`, from the byte in front of a member. -/
def parseMembers (fuel : Nat) (buffer : ParseBuffer) :
    Option (ParseBuffer × Option (Children Double)) :=
  match fuel with
  | 0 => none
  | fuel + 1 =>
      match parseName buffer with
      | (buffer, none) => some (buffer, none)
      | (buffer, some string) =>
          match parseValue fuel buffer with
          | none => none
          | some (buffer, none) => some (buffer, none)
          | some (buffer, some item) =>
              let buffer := bufferSkipWhitespace buffer
              if buffer.canAccess 0 && buffer.byteAt 0 = char ',' then
                (parseMembers fuel buffer).map fun (buffer, next) =>
                  (buffer, next.map fun next => .cons (some string) item next)
              else some (buffer, some (.cons (some string) item .nil))

end

/-- Fuel that is enough for a text of a length. -/
def parseFuel (length : Nat) : Nat := 2 * length + 1

/-- `cJSON_ParseWithLengthOpts`: the item and `return_parse_end`. -/
def cjsonParseWithLengthOpts (value : Memory) (bufferLength : Nat) (requireNullTerminated : Bool) :
    Option (Item Double) × Nat :=
  let failed (offset : Nat) : Option (Item Double) × Nat :=
    (none, if offset < bufferLength then offset else bufferLength - 1)
  if bufferLength = 0 then failed 0
  else
    let buffer := bufferSkipWhitespace (skipUtf8Bom (.start value bufferLength))
    match parseValue libc (parseFuel bufferLength) buffer with
    | none => failed 0
    | some (buffer, none) => failed buffer.offset
    | some (buffer, some item) =>
        if requireNullTerminated then
          let buffer := bufferSkipWhitespace buffer
          if buffer.canAccess 0 && buffer.byteAt 0 = 0 then (some item, buffer.offset)
          else failed buffer.offset
        else (some item, buffer.offset)

/-- `cJSON_Parse` of a string with the length. -/
def cjsonParse (value : Memory) (strlen : Nat) : Option (Item Double) :=
  (cjsonParseWithLengthOpts libc value (strlen + 1) false).1

end Parse

end PicoApConfigure.Cjson
