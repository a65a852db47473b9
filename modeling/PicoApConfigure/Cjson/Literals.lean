import PicoApConfigure.Cjson.Parse
import PicoApConfigure.Cjson.Text

/-!
# String literals

A string that was printed is parsed back, whatever bytes it has.
-/

namespace PicoApConfigure.Cjson

open Nor

/-! ## Whitespace -/

/-- Bytes that `buffer_skip_whitespace` passes. -/
def Spaces (bytes : List Byte) : Prop := ∀ byte ∈ bytes, byte ≤ 32

theorem skipSpaces_spaces {content : Memory} {length offset : Nat} {spaces : List Byte}
    {byte : Byte} (holds : Holds content offset (spaces ++ [byte])) (blank : Spaces spaces)
    (solid : ¬byte ≤ 32) (inside : offset + spaces.length < length) :
    skipSpaces content length offset = offset + spaces.length := by
  induction spaces generalizing offset with
  | nil =>
      have here : content offset = byte := holds_iff.mp holds 0 Nat.one_pos
      rw [List.length_nil, Nat.add_zero] at inside
      rw [skipSpaces, if_pos inside, here, if_neg solid]
      rfl
  | cons space rest ih =>
      rw [List.length_cons] at inside
      rw [List.cons_append, ← List.singleton_append, holds_append, List.length_singleton] at holds
      have here : content offset = space := holds_iff.mp holds.1 0 Nat.one_pos
      rw [skipSpaces, if_pos (by omega), here, if_pos (blank space List.mem_cons_self),
        ih holds.2 (fun other member => blank other (List.mem_cons_of_mem _ member)) (by omega),
        List.length_cons]
      omega

/-- Whitespace in front of a byte that is none. -/
theorem bufferSkipWhitespace_spaces {buffer : ParseBuffer} {spaces : List Byte} {byte : Byte}
    (holds : Holds buffer.content buffer.offset (spaces ++ [byte])) (blank : Spaces spaces)
    (solid : ¬byte ≤ 32) (inside : buffer.offset + spaces.length < buffer.length) :
    bufferSkipWhitespace buffer = buffer.advance spaces.length := by
  have access : buffer.canAccess 0 = true := decide_eq_true (by omega)
  have skipped := skipSpaces_spaces holds blank solid inside
  rw [bufferSkipWhitespace, access, if_neg Bool.noConfusion]
  dsimp only
  rw [skipped, if_neg (by omega)]
  rfl

/-! ## Escapes -/

/-- The forms a byte can have in a literal. -/
theorem escaped_cases : ∀ c : Byte,
    (escaped c = [c] ∧ c ≠ char '"' ∧ c ≠ char '\\') ∨
    (escaped c = [char '\\', (escaped c).getD 1 0] ∧
      unescapeLetter ((escaped c).getD 1 0) = some c) ∨
    (escaped c = [char '\\', char 'u', char '0', char '0', hexDigit (c.toNat / 16),
        hexDigit (c.toNat % 16)] ∧ utf8Bytes c.toNat = some [c] ∧
      hexValue (hexDigit (c.toNat / 16)) = some (c.toNat / 16) ∧
      hexValue (hexDigit (c.toNat % 16)) = some (c.toNat % 16) ∧
      hexDigit (c.toNat / 16) ≠ char '"' ∧ hexDigit (c.toNat / 16) ≠ char '\\' ∧
      hexDigit (c.toNat % 16) ≠ char '"' ∧ hexDigit (c.toNat % 16) ≠ char '\\' ∧
      c.toNat < 0xd800) := by
  decide +kernel

section FindEnd

variable {content : Memory} {length : Nat}

theorem findStringEnd_plain {offset skipped : Nat} {byte : Byte} (here : content offset = byte)
    (quote : byte ≠ char '"') (backslash : byte ≠ char '\\') (inside : offset < length) :
    findStringEnd content length offset skipped =
      findStringEnd content length (offset + 1) skipped := by
  rw [findStringEnd, if_pos inside, here, if_neg quote, if_neg backslash]

theorem findStringEnd_backslash {offset skipped : Nat} (here : content offset = char '\\')
    (inside : offset + 1 < length) :
    findStringEnd content length offset skipped =
      findStringEnd content length (offset + 2) (skipped + 1) := by
  rw [findStringEnd, if_pos (by omega), here, if_neg (by decide), if_pos rfl,
    if_neg (Nat.not_le.mpr inside)]

theorem findStringEnd_escaped {offset skipped : Nat} {string more : List Byte}
    (holds : Holds content offset (string.flatMap escaped ++ char '"' :: more))
    (inside : offset + (string.flatMap escaped).length < length) :
    ∃ skipped', findStringEnd content length offset skipped =
      some (offset + (string.flatMap escaped).length, skipped') := by
  induction string generalizing offset skipped with
  | nil =>
      have here : content offset = char '"' := holds_iff.mp holds 0 (by simp)
      rw [List.flatMap_nil, List.length_nil, Nat.add_zero] at inside
      exact ⟨skipped, by rw [findStringEnd, if_pos inside, here, if_pos rfl]; rfl⟩
  | cons c rest ih =>
      rw [List.flatMap_cons, List.length_append] at inside
      rw [List.flatMap_cons, List.append_assoc, holds_append] at holds
      obtain ⟨first, holds⟩ := holds
      have byte := holds_iff.mp first
      rw [List.flatMap_cons, List.length_append, ← Nat.add_assoc]
      rcases escaped_cases c with ⟨form, quote, backslash⟩ | ⟨form, -⟩ |
        ⟨form, -, -, -, quote, backslash, quote', backslash', -⟩
      · rw [form] at inside holds byte ⊢
        have here : content offset = c := byte 0 Nat.one_pos
        rw [List.length_singleton] at inside holds ⊢
        rw [findStringEnd_plain here quote backslash (by omega)]
        exact ih holds (by omega)
      · rw [form] at inside holds byte ⊢
        have here : content offset = char '\\' := byte 0 (by simp)
        simp only [List.length_cons, List.length_nil] at inside holds ⊢
        rw [findStringEnd_backslash here (by omega)]
        exact ih holds (by omega)
      · rw [form] at inside holds byte ⊢
        have zero : content offset = char '\\' := byte 0 (by simp)
        have two : content (offset + 2) = char '0' := byte 2 (by simp)
        have three : content (offset + 3) = char '0' := byte 3 (by simp)
        have four : content (offset + 4) = hexDigit (c.toNat / 16) := byte 4 (by simp)
        have five : content (offset + 5) = hexDigit (c.toNat % 16) := byte 5 (by simp)
        simp only [List.length_cons, List.length_nil] at inside holds ⊢
        rw [findStringEnd_backslash zero (by omega),
          findStringEnd_plain two (by decide) (by decide) (by omega),
          findStringEnd_plain three (by decide) (by decide) (by omega),
          findStringEnd_plain four quote backslash (by omega),
          findStringEnd_plain five quote' backslash' (by omega)]
        exact ih holds (by omega)

end FindEnd

section Decode

variable {content : Memory}

theorem parseHex4_two {offset high low : Nat} {first second : Byte}
    (holds : Holds content offset [char '0', char '0', first, second])
    (firstValue : hexValue first = some high) (secondValue : hexValue second = some low) :
    parseHex4 content offset = high * 16 + low := by
  have byte := holds_iff.mp holds
  have zero : content offset = char '0' := byte 0 (by simp)
  have one : content (offset + 1) = char '0' := byte 1 (by simp)
  have two : content (offset + 1 + 1) = first := byte 2 (by simp)
  have three : content (offset + 1 + 1 + 1) = second := byte 3 (by simp)
  have digit : hexValue (char '0') = some 0 := by decide
  simp only [parseHex4, parseHexLoop, zero, one, two, three, digit, firstValue, secondValue,
    Nat.shiftLeft_eq]
  simp

theorem decodeString_escaped {offset : Nat} {string output : List Byte}
    (holds : Holds content offset (string.flatMap escaped)) :
    decodeString content (offset + (string.flatMap escaped).length) offset output =
      (offset + (string.flatMap escaped).length, output ++ string, true) := by
  induction string generalizing offset output with
  | nil =>
      rw [decodeString, if_neg (by simp), List.append_nil]
      rfl
  | cons c rest ih =>
      rw [List.flatMap_cons, holds_append] at holds
      obtain ⟨first, holds⟩ := holds
      have byte := holds_iff.mp first
      rw [List.flatMap_cons, List.length_append, ← Nat.add_assoc, List.append_cons]
      rcases escaped_cases c with ⟨form, -, backslash⟩ | ⟨form, letter⟩ |
        ⟨form, utf8, high, low, -, -, -, -, small⟩
      · rw [form] at holds byte ⊢
        have here : content offset = c := byte 0 Nat.one_pos
        rw [List.length_singleton] at holds ⊢
        rw [decodeString, if_pos (by omega), here, if_pos backslash]
        exact ih holds
      · rw [form] at holds byte ⊢
        have here : content offset = char '\\' := byte 0 (by simp)
        have next : content (offset + 1) = (escaped c).getD 1 0 := byte 1 (by simp)
        simp only [List.length_cons, List.length_nil] at holds ⊢
        rw [decodeString, if_pos (by omega), here, if_neg (by simp), next, letter]
        exact ih holds
      · rw [form] at holds byte first ⊢
        have here : content offset = char '\\' := byte 0 (by simp)
        have next : content (offset + 1) = char 'u' := byte 1 (by simp)
        have none : unescapeLetter (char 'u') = none := by decide
        have code : parseHex4 content (offset + 2) = c.toNat := by
          have digits : Holds content (offset + 2) [char '0', char '0',
              hexDigit (c.toNat / 16), hexDigit (c.toNat % 16)] :=
            (@holds_append _ _ [char '\\', char 'u'] _).mp first |>.2
          rw [parseHex4_two digits high low]
          omega
        simp only [List.length_cons, List.length_nil] at holds ⊢
        have literal : utf16LiteralToUtf8 content offset
            (offset + (0 + 1 + 1 + 1 + 1 + 1 + 1) + (rest.flatMap escaped).length) =
              some ([c], 6) := by
          rw [utf16LiteralToUtf8, if_neg (by omega)]
          dsimp only
          rw [code, if_neg (by omega), if_neg (by omega), utf8]
          rfl
        rw [decodeString, if_pos (by omega), here, if_neg (by simp), next, none]
        dsimp only
        rw [if_pos rfl, literal]
        dsimp only
        rw [if_pos (by omega)]
        exact ih holds

end Decode

/-- A string literal is parsed to the string it was printed from. -/
theorem parseString_quoted {buffer : ParseBuffer} {string : CString}
    (holds : Holds buffer.content buffer.offset (quoted (some string)))
    (inside : buffer.offset + (quoted (some string)).length ≤ buffer.length) :
    parseString buffer = (buffer.advance (quoted (some string)).length, some string) := by
  have length : (quoted (some string)).length = (string.val.flatMap escaped).length + 2 := by
    rw [quoted, Option.elim_some, List.length_append, List.length_append]
    simp only [List.length_singleton]
    omega
  rw [length] at inside ⊢
  rw [quoted, Option.elim_some, List.append_assoc, holds_append, List.length_singleton] at holds
  obtain ⟨first, holds⟩ := holds
  have open' : buffer.byteAt 0 = char '"' := holds_iff.mp first 0 Nat.one_pos
  obtain ⟨skipped, found⟩ := @findStringEnd_escaped buffer.content buffer.length
    (buffer.offset + 1) 0 string.val [] holds (by omega)
  have decoded := @decodeString_escaped buffer.content (buffer.offset + 1) string.val []
    (holds_append.mp holds).1
  rw [parseString, open', if_neg (by simp), found]
  dsimp only
  rw [decoded, List.nil_append]
  dsimp only
  rw [CString.ofBytes_val]
  simp only [ParseBuffer.advance, Prod.mk.injEq, ParseBuffer.mk.injEq, and_true, true_and]
  omega

end PicoApConfigure.Cjson
