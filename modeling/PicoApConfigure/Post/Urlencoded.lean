import PicoApConfigure.Post.Decode

/-!
# The encoding of a form

`application/x-www-form-urlencoded` as browsers send it: letters, digits and four marks stand for
themselves, a space is sent as `+`, and every other byte as an escape.  `squash_hex_string` decodes
the escapes and leaves every other character alone, so a `+` stays a `+`.
-/

namespace PicoApConfigure.Post

open Nor

/-- The characters that stand for themselves. -/
def unreserved (char : Byte) : Bool :=
  (0x30 ≤ char ∧ char ≤ 0x39) ∨ (0x41 ≤ char ∧ char ≤ 0x5a) ∨ (0x61 ≤ char ∧ char ≤ 0x7a) ∨
    char = 0x2a ∨ char = 0x2d ∨ char = 0x2e ∨ char = 0x5f

/-- The hexadecimal digit of a value below 16. -/
def hexChar (digit : Nat) : Byte :=
  if digit < 10 then BitVec.ofNat 8 (0x30 + digit) else BitVec.ofNat 8 (0x41 + (digit - 10))

/-- The encoding of one character. -/
def urlencodeChar (char : Byte) : List Byte :=
  if unreserved char then [char]
  else if char = 0x20 then [0x2b]
  else [0x25, hexChar (char.toNat / 16), hexChar (char.toNat % 16)]

/-- The encoding of a text. -/
def urlencode (text : List Byte) : List Byte := text.flatMap urlencodeChar

/-- `squash_hex_string` on two strings in memory. -/
def squashHexStringAt (fuel : Nat) (memory : Memory) (input output : Nat) : FlashProg Memory :=
  squashLoop fuel memory input output

/-- The decoder ends with `text` and a NUL at `output`. -/
def SquashesTo (memory : Memory) (input output : Nat) (text : List Byte) : Prop :=
  ∃ squashed, FlashProg.Completes (fun _ => True)
    (fun fuel => squashHexStringAt fuel memory input output) (fun _ => 0) [] squashed ∧
    Holds squashed output (text ++ [0])

/-! ## Characters -/

theorem unreserved_plain {char : Byte} (here : unreserved char) :
    char ≠ 0 ∧ char ≠ 0x25 ∧ char ≠ 0x26 ∧ char ≠ 0x3d ∧ char ≠ 0x20 := by
  refine ⟨?_, ?_, ?_, ?_, ?_⟩ <;> rintro rfl <;> exact absurd here (by decide)

theorem hexDigit_hexChar : ∀ digit < 16, hexDigit (hexChar digit) = some digit := by
  decide

theorem hexChar_plain : ∀ digit < 16, isSpace (hexChar digit) = false ∧
    hexChar digit ≠ 0x2d ∧ hexChar digit ≠ 0x2b := by
  decide

/-- An escape is read back. -/
theorem strtol_hexChar {high low : Nat} (highBound : high < 16) (lowBound : low < 16) :
    strtol [hexChar high, hexChar low] = (16 * high + low : Nat) := by
  obtain ⟨noSpace, noMinus, noPlus⟩ := hexChar_plain high highBound
  have digits : [hexChar high, hexChar low].dropWhile isSpace = [hexChar high, hexChar low] :=
    List.dropWhile_cons_of_neg (by simp [noSpace])
  rw [strtol, digits]
  split
  · next equal => exact absurd (List.cons.inj equal).1 noMinus
  · next equal => exact absurd (List.cons.inj equal).1 noPlus
  · simp [hexNumber, hexDigit_hexChar high highBound, hexDigit_hexChar low lowBound]

/-- What becomes of a character: a space is not restored. -/
def restored (char : Byte) : Byte := if char = 0x20 then 0x2b else char

/-- The encoding of a character is decoded apart from the space. -/
theorem decode_urlencodeChar (char : Byte) (rest : List Byte) :
    decode (urlencodeChar char ++ rest) = restored char :: decode rest := by
  rw [urlencodeChar, restored]
  split
  · next here =>
      obtain ⟨-, noEscape, -, -, noSpace⟩ := unreserved_plain here
      rw [List.singleton_append, decode_plain noEscape, if_neg noSpace]
  · split
    · rw [List.singleton_append, decode_plain (by decide)]
    · have bound := char.isLt
      have high : char.toNat / 16 < 16 := by omega
      have low : char.toNat % 16 < 16 := Nat.mod_lt _ (by decide)
      rw [show ∀ left right : Byte, [0x25, left, right] ++ rest = 0x25 :: left :: right :: rest
        from fun _ _ => rfl, decode_escape, strtol_hexChar high low, Nat.div_add_mod]
      simp

/-- An encoded character is one that a browser may send. -/
theorem encoded_urlencodeChar {char : Byte} (nonzero : char ≠ 0) {rest : List Byte}
    (later : Encoded rest) : Encoded (urlencodeChar char ++ rest) := by
  rw [urlencodeChar]
  split
  · next here =>
      obtain ⟨-, noEscape, noEnd, noName, -⟩ := unreserved_plain here
      exact .plain nonzero noEscape noEnd noName later
  · split
    · exact .plain (by decide) (by decide) (by decide) (by decide) later
    · have bound := char.isLt
      have high : char.toNat / 16 < 16 := by omega
      have low : char.toNat % 16 < 16 := Nat.mod_lt _ (by decide)
      exact .escape (by rw [hexDigit_hexChar _ high]; rfl) (by rw [hexDigit_hexChar _ low]; rfl)
        later

/-! ## Texts -/

section Texts

variable {text : List Byte}

theorem encoded_urlencode (noNul : (0 : Byte) ∉ text) : Encoded (urlencode text) := by
  induction text with
  | nil => exact .nil
  | cons char rest ih =>
      rw [List.mem_cons, not_or] at noNul
      exact encoded_urlencodeChar (Ne.symm noNul.1) (ih noNul.2)

theorem decode_urlencode (text : List Byte) : decode (urlencode text) = text.map restored := by
  induction text with
  | nil => rfl
  | cons char rest ih =>
      rw [urlencode, List.flatMap_cons, decode_urlencodeChar, List.map_cons]
      exact congrArg _ ih

/-- Every character is restored if there is no space. -/
theorem map_restored_iff : text.map restored = text ↔ (0x20 : Byte) ∉ text := by
  induction text with
  | nil => simp
  | cons char rest ih =>
      rw [List.map_cons, List.cons.injEq, ih, List.mem_cons, not_or]
      refine and_congr_left fun _ => ?_
      rw [restored]
      constructor
      · rintro same rfl
        exact absurd same (by decide)
      · intro differs
        exact if_neg (Ne.symm differs)

end Texts

/-- In place and into another array, the encoding of a text is decoded to the text if and only if
there is no space in it. -/
theorem squash_urlencode_iff {text : List Byte} (noNul : (0 : Byte) ∉ text) {memory : Memory}
    {input output : Nat} (holds : Holds memory input (urlencode text ++ [0]))
    (apart : output = input ∨ output + text.length < input ∨
      input + (urlencode text).length < output) :
    SquashesTo memory input output text ↔ (0x20 : Byte) ∉ text := by
  have completes := @squashLoop_encoded (fun _ => True) (fun _ => 0) _ (encoded_urlencode noNul)
    memory input output holds (by omega)
  rw [← map_restored_iff, ← decode_urlencode text]
  constructor
  · rintro ⟨squashed, completes', ends⟩
    obtain ⟨-, rfl⟩ := completes'.unique completes
    have written := holds_store memory output (decode (urlencode text) ++ [0])
    have length : (decode (urlencode text) ++ [0]).length = (text ++ [0]).length := by
      rw [decode_urlencode]
      simp
    rw [Holds, length] at written
    exact List.append_cancel_right (written.symm.trans ends)
  · intro same
    refine ⟨_, completes, ?_⟩
    rw [same]
    exact holds_store memory output (text ++ [0])

theorem squash_urlencode_ampersand :
    SquashesTo (store (fun _ => 0) 0 (urlencode [0x61, 0x26, 0x62] ++ [0])) 0 0 [0x61, 0x26, 0x62] ↔
      (0x20 : Byte) ∉ ([0x61, 0x26, 0x62] : List Byte) :=
  squash_urlencode_iff (by decide) (holds_store _ _ _) (.inl rfl)

/-- The encoding of a space is not decoded. -/
theorem space_not_squashed :
    ¬SquashesTo (store (fun _ => 0) 0 (urlencode [0x20] ++ [0])) 0 0 [0x20] := by
  rintro ⟨squashed, completes, ends⟩
  have decoded := @squashLoop_encoded (fun _ => True) (fun _ => 0) (urlencode [0x20])
    (encoded_urlencode (by decide)) _ 0 0 (holds_store (fun _ => 0) 0 _) (.inl (Nat.le_refl 0))
  obtain ⟨-, rfl⟩ := completes.unique decoded
  have first := holds_iff.mp ends 0 (by decide)
  exact absurd first (by decide)

end PicoApConfigure.Post
