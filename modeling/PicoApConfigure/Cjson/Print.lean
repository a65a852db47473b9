import PicoApConfigure.Cjson.Item

/-!
# Printing into a buffer

Translation of the functions below `cJSON_PrintPreallocated`.  The buffer is the memory from the
address 0 on, and it is never allocated anew.
-/

namespace PicoApConfigure.Cjson

open Nor

/-- `printbuffer` with `noalloc`. -/
structure Printbuffer where
  buffer : Memory
  length : Nat
  offset : Nat
  depth : Nat
  format : Bool

namespace Printbuffer

/-- `ensure`: where to write, if the room is enough. -/
def ensure (p : Printbuffer) (needed : Nat) : Option Nat :=
  if 0 < p.length ∧ p.length ≤ p.offset then none
  else if intMax < needed then none
  else if needed + p.offset + 1 ≤ p.length then some p.offset
  else none

/-- Bytes stored at an address. -/
def write (p : Printbuffer) (address : Nat) (bytes : List Byte) : Printbuffer :=
  { p with buffer := store p.buffer address bytes }

/-- `offset += length` -/
def advance (p : Printbuffer) (length : Nat) : Printbuffer :=
  { p with offset := p.offset + length }

/-- `update_offset`: behind the string at the offset, which ends inside the buffer. -/
def updateOffset (p : Printbuffer) : Printbuffer :=
  p.advance ((slice p.buffer p.offset (p.length - p.offset)).takeWhile (· ≠ 0)).length

end Printbuffer

/-! ## Strings -/

/-- The byte behind the backslash where one byte stands for the escaped byte. -/
def escapeLetter (c : Byte) : Option Byte :=
  if c = char '\\' then some (char '\\')
  else if c = char '"' then some (char '"')
  else if c = 0x08 then some (char 'b')
  else if c = 0x0c then some (char 'f')
  else if c = 0x0a then some (char 'n')
  else if c = 0x0d then some (char 'r')
  else if c = 0x09 then some (char 't')
  else none

/-- The number of bytes that escaping adds to a byte. -/
def escapeCharacters (c : Byte) : Nat :=
  if (escapeLetter c).isSome then 1 else if c < 32 then 5 else 0

/-- A digit of `sprintf` with the format `%x`. -/
def hexDigit (digit : Nat) : Byte :=
  if digit < 10 then char '0' + BitVec.ofNat 8 digit else char 'a' + BitVec.ofNat 8 (digit - 10)

/-- `sprintf` with the format `u%04x`. -/
def sprintfU (c : Byte) : List Byte :=
  [char 'u', char '0', char '0', hexDigit (c.toNat / 16), hexDigit (c.toNat % 16)]

/-- The loop of `print_string_ptr` that escapes, with the terminator that `sprintf` stores. -/
def printEscaped : List Byte → Memory → Nat → Memory
  | [], buffer, _ => buffer
  | c :: rest, buffer, outputPointer =>
      if 31 < c ∧ c ≠ char '"' ∧ c ≠ char '\\' then
        printEscaped rest (store buffer outputPointer [c]) (outputPointer + 1)
      else
        let buffer := store buffer outputPointer [char '\\']
        match escapeLetter c with
        | some letter =>
            printEscaped rest (store buffer (outputPointer + 1) [letter]) (outputPointer + 2)
        | none =>
            printEscaped rest (store buffer (outputPointer + 1) (sprintfU c ++ [0]))
              (outputPointer + 6)

/-- `print_string_ptr` -/
def printStringPtr (input : Option CString) (p : Printbuffer) : Bool × Printbuffer :=
  match input with
  | none =>
      match p.ensure 3 with
      | none => (false, p)
      | some output => (true, p.write output [char '"', char '"', 0])
  | some input =>
      let escaped := (input.val.map escapeCharacters).sum
      let outputLength := input.val.length + escaped
      match p.ensure (outputLength + 3) with
      | none => (false, p)
      | some output =>
          if escaped = 0 then
            (true, ((p.write output [char '"']).write (output + 1) input.val).write
              (output + outputLength + 1) [char '"', 0])
          else
            let p := p.write output [char '"']
            let p := { p with buffer := printEscaped input.val p.buffer (output + 1) }
            (true, p.write (output + outputLength + 1) [char '"', 0])

/-! ## Values -/

section Print

variable {Double : Type} (libc : Libc Double)

/-- `compare_double` -/
def compareDouble (a b : Double) : Bool :=
  let maxVal := if libc.lt (libc.fabs b) (libc.fabs a) then libc.fabs a else libc.fabs b
  libc.le (libc.fabs (libc.sub a b)) (libc.mul maxVal libc.dblEpsilon)

/-- What `print_number` leaves in `number_buffer`. -/
def numberText (d : Double) (valueint : Int) : List Byte :=
  if libc.isnan d || libc.isinf d then [char 'n', char 'u', char 'l', char 'l']
  else if libc.eq d (libc.ofInt valueint) then sprintfD valueint
  else
    let text := libc.sprintf15 d
    match libc.sscanf text with
    | none => libc.sprintf17 d
    | some test => if compareDouble libc test d then text else libc.sprintf17 d

/-- `print_number`; the decimal point is a dot. -/
def printNumber (d : Double) (valueint : Int) (p : Printbuffer) : Bool × Printbuffer :=
  let text := numberText libc d valueint
  if 25 < text.length then (false, p)
  else
    match p.ensure (text.length + 1) with
    | none => (false, p)
    | some output => (true, (p.write output (text ++ [0])).advance text.length)

/-- A string that `print_value` copies with `strcpy`. -/
def printLiteral (text : List Byte) (p : Printbuffer) : Bool × Printbuffer :=
  match p.ensure (text.length + 1) with
  | none => (false, p)
  | some output => (true, p.write output (text ++ [0]))

/-- The separator behind an element that is not the last one. -/
def printComma (next : Bool) (p : Printbuffer) : Bool × Printbuffer :=
  if next then
    let length := if p.format then 2 else 1
    match p.ensure (length + 1) with
    | none => (false, p)
    | some output =>
        let comma := if p.format then [char ',', char ' ', 0] else [char ',', 0]
        (true, (p.write output comma).advance length)
  else (true, p)

/-- The tabs in front of a name. -/
def printIndent (p : Printbuffer) : Bool × Printbuffer :=
  if p.format then
    match p.ensure p.depth with
    | none => (false, p)
    | some output => (true, (p.write output (List.replicate p.depth (char '\t'))).advance p.depth)
  else (true, p)

/-- The colon behind a name. -/
def printColon (p : Printbuffer) : Bool × Printbuffer :=
  let length := if p.format then 2 else 1
  match p.ensure length with
  | none => (false, p)
  | some output =>
      let colon := if p.format then [char ':', char '\t'] else [char ':']
      (true, (p.write output colon).advance length)

/-- What stands behind the value of a member. -/
def printMemberEnd (next : Bool) (p : Printbuffer) : Bool × Printbuffer :=
  let length := (if p.format then 1 else 0) + (if next then 1 else 0)
  match p.ensure (length + 1) with
  | none => (false, p)
  | some output =>
      let comma := if next then [char ','] else []
      let newline := if p.format then [char '\n'] else []
      (true, (p.write output (comma ++ newline ++ [0])).advance length)

/-- The end of `print_array`. -/
def printArrayEnd (p : Printbuffer) : Bool × Printbuffer :=
  match p.ensure 2 with
  | none => (false, p)
  | some output => (true, { p.write output [char ']', 0] with depth := p.depth - 1 })

/-- The end of `print_object`. -/
def printObjectEnd (p : Printbuffer) : Bool × Printbuffer :=
  match p.ensure (if p.format then p.depth + 1 else 2) with
  | none => (false, p)
  | some output =>
      let tabs := if p.format then List.replicate (p.depth - 1) (char '\t') else []
      (true, { p.write output (tabs ++ [char '}', 0]) with depth := p.depth - 1 })

/-- One step after another that succeeded. -/
def andThen (result : Bool × Printbuffer) (next : Printbuffer → Bool × Printbuffer) :
    Bool × Printbuffer :=
  if result.1 then next result.2 else result

/-- There is another element. -/
def Children.hasNext : Children Double → Bool
  | .nil => false
  | .cons .. => true

mutual

/-- `print_value`, with `print_array` and `print_object`. -/
def printValue (item : Item Double) (p : Printbuffer) : Bool × Printbuffer :=
  match item with
  | .invalid => (false, p)
  | .null => printLiteral [char 'n', char 'u', char 'l', char 'l'] p
  | .false => printLiteral [char 'f', char 'a', char 'l', char 's', char 'e'] p
  | .true => printLiteral [char 't', char 'r', char 'u', char 'e'] p
  | .number valuedouble valueint => printNumber libc valuedouble valueint p
  | .raw none => (false, p)
  | .raw (some valuestring) => printLiteral valuestring.val p
  | .string valuestring => printStringPtr valuestring p
  | .array child =>
      match p.ensure 1 with
      | none => (false, p)
      | some output =>
          let p := (p.write output [char '[']).advance 1
          andThen (printElements child { p with depth := p.depth + 1 }) printArrayEnd
  | .object child =>
      let length := if p.format then 2 else 1
      match p.ensure (length + 1) with
      | none => (false, p)
      | some output =>
          let brace := if p.format then [char '{', char '\n'] else [char '{']
          let p := (p.write output brace).advance length
          andThen (printMembers child { p with depth := p.depth + 1 }) printObjectEnd

/-- The loop of `print_array`. -/
def printElements (current : Children Double) (p : Printbuffer) : Bool × Printbuffer :=
  match current with
  | .nil => (true, p)
  | .cons _ item next =>
      andThen (printValue item p) fun p =>
        andThen (printComma next.hasNext p.updateOffset) fun p => printElements next p

/-- The loop of `print_object`. -/
def printMembers (current : Children Double) (p : Printbuffer) : Bool × Printbuffer :=
  match current with
  | .nil => (true, p)
  | .cons string item next =>
      andThen (printIndent p) fun p =>
        andThen (printStringPtr string p) fun p =>
          andThen (printColon p.updateOffset) fun p =>
            andThen (printValue item p) fun p =>
              andThen (printMemberEnd next.hasNext p.updateOffset) fun p => printMembers next p

end

/-- `cJSON_PrintPreallocated` -/
def cjsonPrintPreallocated (item : Item Double) (buffer : Memory) (length : Int) (format : Bool) :
    Bool × Memory :=
  if length < 0 then (false, buffer)
  else
    let p : Printbuffer := { buffer, length := length.toNat, offset := 0, depth := 0, format }
    let (done, p) := printValue libc item p
    (done, p.buffer)

end Print

end PicoApConfigure.Cjson
