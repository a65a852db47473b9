import PicoApConfigure.Cjson.Parse

/-!
# The room of a string

`parse_string` counts the escapes of a literal and allocates its output.  Where `parse_hex4` passes
a backslash, the loop that decodes takes other escapes than the loop that counts; what it stores
fits all the same.
-/

namespace PicoApConfigure.Cjson

open Nor

/-- `allocation_length` of `parse_string`. -/
def allocationLength (buffer : ParseBuffer) (inputEnd skippedBytes : Nat) : Nat :=
  inputEnd - buffer.offset - skippedBytes

/-- How many bytes the literal is counted for from a place on, which may be behind a backslash that
was counted. -/
def literalRoom (content : Memory) (inputEnd inputPointer : Nat) (behind : Bool) : Nat :=
  if inputPointer < inputEnd then
    if behind then literalRoom content inputEnd (inputPointer + 1) false + 1
    else if content inputPointer = char '\\' then
      literalRoom content inputEnd (inputPointer + 1) true
    else literalRoom content inputEnd (inputPointer + 1) false + 1
  else if behind then 1 else 0
termination_by inputEnd - inputPointer

section Room

variable {content : Memory} {inputEnd inputPointer : Nat}

theorem literalRoom_end (passed : inputEnd ≤ inputPointer) :
    literalRoom content inputEnd inputPointer false = 0 := by
  rw [literalRoom, if_neg (Nat.not_lt.mpr passed), if_neg Bool.noConfusion]

theorem literalRoom_behind :
    literalRoom content inputEnd inputPointer true =
      literalRoom content inputEnd (inputPointer + 1) false + 1 := by
  rw [literalRoom]
  split
  next => rw [if_pos rfl]
  next passed => rw [if_pos rfl, literalRoom_end (by omega)]

theorem literalRoom_backslash (inside : inputPointer < inputEnd)
    (backslash : content inputPointer = char '\\') :
    literalRoom content inputEnd inputPointer false =
      literalRoom content inputEnd (inputPointer + 2) false + 1 := by
  rw [literalRoom, if_pos inside, if_neg Bool.noConfusion, if_pos backslash, literalRoom_behind]

theorem literalRoom_byte (inside : inputPointer < inputEnd)
    (plain : content inputPointer ≠ char '\\') (behind : Bool) :
    literalRoom content inputEnd inputPointer behind =
      literalRoom content inputEnd (inputPointer + 1) false + 1 := by
  cases behind with
  | false => rw [literalRoom, if_pos inside, if_neg Bool.noConfusion, if_neg plain]
  | true => exact literalRoom_behind

/-- One byte takes room, but for a backslash that is counted with the next byte. -/
theorem literalRoom_one (behind : Bool) :
    ∃ behind', literalRoom content inputEnd (inputPointer + 1) behind' ≤
      literalRoom content inputEnd inputPointer behind := by
  cases behind with
  | true => exact ⟨false, by rw [literalRoom_behind]; omega⟩
  | false =>
      by_cases inside : inputPointer < inputEnd
      · by_cases backslash : content inputPointer = char '\\'
        · exact ⟨true, by rw [literalRoom_backslash inside backslash, literalRoom_behind]⟩
        · exact ⟨false, by rw [literalRoom_byte inside backslash]; omega⟩
      · exact ⟨false, by rw [literalRoom_end (by omega)]; omega⟩

/-- Two bytes take the room of a byte. -/
theorem literalRoom_two (inside : inputPointer < inputEnd) (behind : Bool) :
    ∃ behind', literalRoom content inputEnd (inputPointer + 2) behind' + 1 ≤
      literalRoom content inputEnd inputPointer behind := by
  by_cases plain : behind = true ∨ content inputPointer ≠ char '\\'
  · have byte : literalRoom content inputEnd inputPointer behind =
        literalRoom content inputEnd (inputPointer + 1) false + 1 := by
      rcases plain with rfl | plain
      · exact literalRoom_behind
      · exact literalRoom_byte inside plain behind
    obtain ⟨behind', less⟩ := @literalRoom_one content inputEnd (inputPointer + 1) false
    exact ⟨behind', by rw [byte]; exact Nat.succ_le_succ less⟩
  · rw [not_or, Bool.not_eq_true, ne_eq, Decidable.not_not] at plain
    exact ⟨false, by rw [plain.1, literalRoom_backslash inside plain.2]⟩

theorem literalRoom_six (inside : inputPointer + 6 ≤ inputEnd) (behind : Bool) :
    ∃ behind', literalRoom content inputEnd (inputPointer + 6) behind' + 3 ≤
      literalRoom content inputEnd inputPointer behind := by
  obtain ⟨second, two⟩ := @literalRoom_two content inputEnd inputPointer (by omega) behind
  obtain ⟨third, four⟩ : ∃ third, literalRoom content inputEnd (inputPointer + 4) third + 1 ≤
      literalRoom content inputEnd (inputPointer + 2) second := literalRoom_two (by omega) second
  obtain ⟨last, six⟩ : ∃ last, literalRoom content inputEnd (inputPointer + 6) last + 1 ≤
      literalRoom content inputEnd (inputPointer + 4) third := literalRoom_two (by omega) third
  exact ⟨last, by omega⟩

end Room

/-- The loop that looks for the end counts the room of the literal. -/
theorem findStringEnd_room {content : Memory} {length inputEnd skippedBytes last skipped : Nat}
    (found : findStringEnd content length inputEnd skippedBytes = some (last, skipped)) :
    inputEnd ≤ last ∧ last < length ∧
      literalRoom content last inputEnd false + skipped + inputEnd = last + skippedBytes := by
  fun_induction findStringEnd content length inputEnd skippedBytes with
  | case1 inputEnd skippedBytes inside quote =>
      obtain ⟨rfl, rfl⟩ := Prod.mk.inj (Option.some.inj found)
      rw [literalRoom_end (Nat.le_refl _)]
      omega
  | case2 => cases found
  | case3 inputEnd skippedBytes inside quote backslash more ih =>
      obtain ⟨passed, below, room⟩ := ih found
      rw [literalRoom_backslash (by omega) backslash]
      omega
  | case4 inputEnd skippedBytes inside quote plain ih =>
      obtain ⟨passed, below, room⟩ := ih found
      rw [literalRoom_byte (by omega) plain]
      omega
  | case5 => cases found

/-! ## Literals of code points -/

theorem hexValue_lt : ∀ c : Byte, (hexValue c).getD 0 < 16 := by
  decide +kernel

theorem parseHex4_lt (content : Memory) (input : Nat) : parseHex4 content input < 0x10000 := by
  have digit : ∀ place value, hexValue (content place) = some value → value < 16 := by
    intro place value some
    have small := hexValue_lt (content place)
    rwa [some] at small
  simp only [parseHex4, parseHexLoop, Nat.shiftLeft_eq]
  split
  next => exact Nat.succ_pos _
  next first one =>
    split
    next => exact Nat.succ_pos _
    next second two =>
      split
      next => exact Nat.succ_pos _
      next third three =>
        split
        next => exact Nat.succ_pos _
        next fourth four =>
          have small := digit _ _ one
          have small' := digit _ _ two
          have small'' := digit _ _ three
          have small''' := digit _ _ four
          simp only [Nat.lt_irrefl, if_false, Nat.succ_pos, if_true]
          omega

/-- A code point of one literal has at most three bytes, and any has at most four. -/
theorem utf8Bytes_length {codepoint : Nat} {bytes : List Byte}
    (encoded : utf8Bytes codepoint = some bytes) :
    bytes.length ≤ 4 ∧ (codepoint < 0x10000 → bytes.length ≤ 3) := by
  rw [utf8Bytes] at encoded
  split at encoded
  next =>
    cases encoded
    exact ⟨(by decide : 1 ≤ 4), fun _ => (by decide : 1 ≤ 3)⟩
  next =>
    split at encoded
    next =>
      cases encoded
      exact ⟨(by decide : 2 ≤ 4), fun _ => (by decide : 2 ≤ 3)⟩
    next =>
      split at encoded
      next =>
        cases encoded
        exact ⟨(by decide : 3 ≤ 4), fun _ => (by decide : 3 ≤ 3)⟩
      next large =>
        split at encoded
        next =>
          cases encoded
          exact ⟨(by decide : 4 ≤ 4), fun small => absurd small large⟩
        next => cases encoded

theorem utf16LiteralToUtf8_length {content : Memory} {inputPointer inputEnd size : Nat}
    {bytes : List Byte}
    (encoded : utf16LiteralToUtf8 content inputPointer inputEnd = some (bytes, size)) :
    (inputPointer + 6 ≤ inputEnd ∧ size = 6 ∧ bytes.length ≤ 3) ∨
      (inputPointer + 12 ≤ inputEnd ∧ size = 12 ∧ bytes.length ≤ 4) := by
  rw [utf16LiteralToUtf8] at encoded
  split at encoded
  next => cases encoded
  next enough =>
    dsimp only at encoded
    split at encoded
    next => cases encoded
    next =>
      split at encoded
      next =>
        split at encoded
        next => cases encoded
        next enough' =>
          split at encoded
          next => cases encoded
          next =>
            split at encoded
            next => cases encoded
            next =>
              obtain ⟨bytes', some, same⟩ := Option.map_eq_some_iff.mp encoded
              cases same
              exact .inr ⟨by omega, rfl, (utf8Bytes_length some).1⟩
      next =>
        obtain ⟨bytes', some, same⟩ := Option.map_eq_some_iff.mp encoded
        cases same
        exact .inl ⟨by omega, rfl, (utf8Bytes_length some).2 (parseHex4_lt _ _)⟩

/-! ## What is stored -/

/-- The loop stores no more bytes than the literal has room for, also where it fails. -/
theorem decodeString_room (content : Memory) (inputEnd inputPointer : Nat) (output : List Byte)
    (behind : Bool) :
    (decodeString content inputEnd inputPointer output).2.1.length ≤
      output.length + literalRoom content inputEnd inputPointer behind := by
  fun_induction decodeString content inputEnd inputPointer output generalizing behind with
  | case1 inputPointer output inside plain ih =>
      have stored := ih false
      rw [literalRoom_byte inside plain]
      rw [List.length_append, List.length_singleton] at stored
      omega
  | case2 inputPointer output inside backslash byte letter ih =>
      obtain ⟨behind', two⟩ := @literalRoom_two content _ _ inside behind
      have stored := ih behind'
      rw [List.length_append, List.length_singleton] at stored
      omega
  | case3 => exact Nat.le_add_right _ _
  | case4 inputPointer output inside backslash letter unicode bytes size encoded positive ih =>
      rcases utf16LiteralToUtf8_length encoded with ⟨enough, rfl, short⟩ | ⟨enough, rfl, short⟩
      · obtain ⟨behind', six⟩ := @literalRoom_six content _ _ enough behind
        have stored := ih behind'
        rw [List.length_append] at stored
        omega
      · obtain ⟨middle, six⟩ := @literalRoom_six content inputEnd inputPointer (by omega) behind
        obtain ⟨behind', twelve⟩ : ∃ behind',
            literalRoom content inputEnd (inputPointer + 12) behind' + 3 ≤
              literalRoom content inputEnd (inputPointer + 6) middle :=
          literalRoom_six (by omega) middle
        have stored := ih behind'
        rw [List.length_append] at stored
        omega
  | case5 => exact Nat.le_add_right _ _
  | case6 => exact Nat.le_add_right _ _
  | case7 => exact Nat.le_add_right _ _

/-- For any bytes, what `parse_string` stores with its terminator fits in the output that it
allocates, whether it fails or not. -/
theorem parse_string_fits {buffer : ParseBuffer} {inputEnd skippedBytes : Nat}
    (found : findStringEnd buffer.content buffer.length (buffer.offset + 1) 0 =
      some (inputEnd, skippedBytes)) :
    (decodeString buffer.content inputEnd (buffer.offset + 1) []).2.1.length + 1 ≤
      allocationLength buffer inputEnd skippedBytes := by
  obtain ⟨passed, -, room⟩ := findStringEnd_room found
  have stored := decodeString_room buffer.content inputEnd (buffer.offset + 1) [] false
  rw [List.length_nil] at stored
  rw [allocationLength]
  omega

/-- The literal `"\u1\"2"`, in which `parse_hex4` meets an escaped quote. -/
def hexQuote : Memory := fun offset =>
  [char '"', char '\\', char 'u', char '1', char '\\', char '"', char '2', char '"'].getD offset 0

theorem parse_string_fits_quote :
    (decodeString hexQuote 7 1 []).2.1.length + 1 ≤ allocationLength (.start hexQuote 8) 7 2 :=
  @parse_string_fits (.start hexQuote 8) 7 2 (by
    simp [findStringEnd, hexQuote, ParseBuffer.start, char])

end PicoApConfigure.Cjson
