import PicoApConfigure.Post.Handler

/-!
# Escapes in a value

`squash_hex_string` decodes in place: the output never gets ahead of the input.  A value as a
browser encodes it is decoded whatever lies behind it.  A value that ends inside an escape is not:
the loop passes the terminating NUL and goes on behind it.
-/

namespace PicoApConfigure.Post

open Nor FlashIo

/-- A form value as a browser encodes it. -/
inductive Encoded : List Byte → Prop
  | nil : Encoded []
  | plain {char : Byte} {rest : List Byte} (nonzero : char ≠ 0) (noEscape : char ≠ 0x25)
      (noEnd : char ≠ 0x26) (noName : char ≠ 0x3d) (later : Encoded rest) : Encoded (char :: rest)
  | escape {high low : Byte} {rest : List Byte} (highDigit : (hexDigit high).isSome)
      (lowDigit : (hexDigit low).isSome) (later : Encoded rest) :
      Encoded (0x25 :: high :: low :: rest)

/-- The characters that a value stands for. -/
def decode : List Byte → List Byte
  | [] => []
  | char :: rest =>
      if char = 0x25 then
        match rest with
        | high :: low :: rest => BitVec.ofInt 8 (strtol [high, low]) :: decode rest
        | _ => []
      else char :: decode rest

theorem decode_plain {char : Byte} (noEscape : char ≠ 0x25) (rest : List Byte) :
    decode (char :: rest) = char :: decode rest := by
  rw [decode.eq_def]
  exact if_neg noEscape

theorem decode_escape (high low : Byte) (rest : List Byte) :
    decode (0x25 :: high :: low :: rest) =
      BitVec.ofInt 8 (strtol [high, low]) :: decode rest := by
  simp only [decode, if_true]

theorem hexDigit_ne {char : Byte} (digit : (hexDigit char).isSome) :
    char ≠ 0 ∧ char ≠ 0x26 ∧ char ≠ 0x3d := by
  refine ⟨?_, ?_, ?_⟩ <;> rintro rfl <;> exact absurd digit (by decide)

/-- No character of an encoded value ends the value or a name. -/
theorem Encoded.plain_chars {value : List Byte} (encoded : Encoded value) :
    ∀ char ∈ value, char ≠ 0 ∧ char ≠ 0x26 ∧ char ≠ 0x3d := by
  induction encoded with
  | nil => simp
  | plain nonzero noEscape noEnd noName _ ih =>
      intro char member
      rcases List.mem_cons.mp member with rfl | member
      · exact ⟨nonzero, noEnd, noName⟩
      · exact ih char member
  | escape highDigit lowDigit _ ih =>
      intro char member
      simp only [List.mem_cons] at member
      rcases member with rfl | rfl | rfl | member
      · decide
      · exact hexDigit_ne highDigit
      · exact hexDigit_ne lowDigit
      · exact ih char member

section Squash

variable {memory : Memory} {region : Nat → Prop} {flash : Memory} {loop output : Nat}

/-- The output of an escape is overwritten from its second byte on. -/
theorem store_escape (memory : Memory) (output : Nat) (char : Byte) {rest : List Byte}
    (nonempty : rest ≠ []) :
    store (store memory output [char, 0]) (output + 1) rest = store memory output (char :: rest) :=
    by
  have positive := List.length_pos_iff.mpr nonempty
  have first := store_append memory output [char] [0]
  rw [List.length_singleton, List.singleton_append] at first
  have both := store_append memory output [char] rest
  rw [List.length_singleton, List.singleton_append] at both
  rw [← first, store_store_of_subset _ (Nat.le_refl _) (by simp; omega), both]

/-- An encoded value is decoded, in place or into another array. -/
theorem squashLoop_encoded {value : List Byte} (encoded : Encoded value) :
    ∀ {memory : Memory} {loop output : Nat}, Holds memory loop (value ++ [0]) →
      output ≤ loop ∨ loop + value.length < output →
      FlashProg.Completes region (fun fuel => squashLoop fuel memory loop output) flash []
        (store memory output (decode value ++ [0])) := by
  induction encoded with
  | nil =>
      intro memory loop output holds _
      have ended : memory loop = 0 := (holds_iff.mp holds) 0 Nat.one_pos
      refine .once fun fuel => ?_
      rw [squashLoop, if_pos ended]
      exact FlashProg.Exec.pure _
  | @plain char rest nonzero noEscape _ _ _ ih =>
      intro memory loop output holds apart
      rw [List.cons_append, ← List.singleton_append, holds_append] at holds
      rw [List.length_cons] at apart
      have here : memory loop = char := (holds_iff.mp holds.1) 0 Nat.one_pos
      have later : Holds (store memory output [char]) (loop + 1) (rest ++ [0]) :=
        holds.2.congr fun query lower upper =>
          (store_apart memory [char] (by simp at lower upper ⊢; omega)).symm
      have completes := ih later (by omega : output + 1 ≤ loop + 1 ∨ _)
      have appended := store_append memory output [char] (decode rest ++ [0])
      rw [List.length_singleton, List.singleton_append] at appended
      rw [appended] at completes
      refine .succ ?_
      simp only [squashLoop, here, if_neg nonzero, if_neg noEscape, decode_plain noEscape]
      exact completes
  | @escape high low rest highDigit lowDigit _ ih =>
      intro memory loop output holds apart
      rw [show (0x25 :: high :: low :: rest) ++ [0] = [0x25, high, low] ++ (rest ++ [0]) from rfl,
        holds_append] at holds
      simp only [List.length_cons] at apart
      have bytes := holds_iff.mp holds.1
      have here : memory loop = 0x25 := bytes 0 (show 0 < 3 by decide)
      have first : memory (loop + 1) = high := bytes 1 (show 1 < 3 by decide)
      have second : memory (loop + 1 + 1) = low := bytes 2 (show 2 < 3 by decide)
      have substr : substrOf memory (loop + 1) = [high, low] := by
        have digits : slice memory (loop + 1) 2 = [high, low] := by
          simp [slice, List.range_succ, first, second]
        rw [substrOf, digits]
        have highNe := (hexDigit_ne highDigit).1
        have lowNe := (hexDigit_ne lowDigit).1
        simp_all
      have later : Holds (store memory output [BitVec.ofInt 8 (strtol [high, low]), 0]) (loop + 3)
          (rest ++ [0]) :=
        holds.2.congr fun query lower upper =>
          (store_apart memory _ (by simp at lower upper ⊢; omega)).symm
      have completes := @ih _ (loop + 3) (output + 1) later (by omega)
      rw [store_escape _ _ _ (by simp)] at completes
      refine .succ ?_
      simp only [squashLoop, here, substr, decode_escape, if_true]
      exact completes

/-- The loop comes to an end where only NULs follow. -/
theorem squashLoop_ends {bound : Nat} :
    ∀ (count : Nat) {memory : Memory} {loop output : Nat}, bound ≤ loop + count → output ≤ loop →
      (∀ query, bound ≤ query → loop ≤ query → memory query = 0) →
      ∃ squashed limit, FlashProg.Completes region (fun fuel => squashLoop fuel memory loop output)
        flash [] squashed ∧ squashed limit = 0 := by
  intro count
  induction count with
  | zero =>
      intro memory loop output behind _ zeros
      refine ⟨store memory output [0], output, .once fun fuel => ?_, ?_⟩
      · rw [squashLoop, if_pos (zeros loop behind (Nat.le_refl _))]
        exact FlashProg.Exec.pure _
      · exact @store_at memory output [0] 0 Nat.one_pos
  | succ count ih =>
      intro memory loop output behind within zeros
      -- what is written lies before the next character that is read
      have later : ∀ (written : List Byte) (next : Nat), loop < next →
          output + written.length ≤ next → bound ≤ next + count → output + 1 ≤ next →
          ∃ squashed limit, FlashProg.Completes region (fun fuel =>
            squashLoop fuel (store memory output written) next (output + 1)) flash [] squashed ∧
            squashed limit = 0 := by
        intro written next ahead room reaches follows
        refine ih reaches follows fun query above from' => ?_
        rw [store_of_le memory written (by omega)]
        exact zeros query above (by omega)
      by_cases ended : memory loop = 0
      · refine ⟨store memory output [0], output, .once fun fuel => ?_, ?_⟩
        · rw [squashLoop, if_pos ended]
          exact FlashProg.Exec.pure _
        · exact @store_at memory output [0] 0 Nat.one_pos
      by_cases escape : memory loop = 0x25
      · obtain ⟨squashed, limit, completes, nul⟩ := later
          [BitVec.ofInt 8 (strtol (substrOf memory (loop + 1))), 0] (loop + 3) (by omega)
          (by simp; omega) (by omega) (by omega)
        refine ⟨squashed, limit, .succ ?_, nul⟩
        simp only [squashLoop, if_neg ended, if_pos escape]
        exact completes
      · obtain ⟨squashed, limit, completes, nul⟩ := later [memory loop] (loop + 1) (by omega)
          (by simp; omega) (by omega) (by omega)
        refine ⟨squashed, limit, .succ ?_, nul⟩
        simp only [squashLoop, if_neg ended, if_neg escape]
        exact completes

/-- What lies before the output stays as it is. -/
theorem squashLoop_keeps {query : Nat} :
    ∀ (fuel : Nat) {memory : Memory} {loop output : Nat}, query < output →
      (squashLoop fuel memory loop output).Yields fun squashed => squashed query = memory query :=
      by
  intro fuel
  induction fuel with
  | zero => exact fun _ => .stuck
  | succ fuel ih =>
      intro memory loop output before
      have later : ∀ (written : List Byte) (next : Nat),
          (squashLoop fuel (store memory output written) next (output + 1)).Yields
            fun squashed => squashed query = memory query := by
        intro written next
        rw [← store_of_lt memory written before]
        exact ih (Nat.lt_succ_of_lt before)
      rw [squashLoop]
      split
      · exact .pure (store_of_lt memory [0] before)
      · split
        · exact later _ _
        · exact later _ _

/-- The first character of the output. -/
def firstOutput (memory : Memory) : Byte :=
  if memory 0 = 0x25 then BitVec.ofInt 8 (strtol (substrOf memory 1)) else memory 0

theorem squashHexString_first (fuel : Nat) (memory : Memory) :
    (squashHexString fuel memory).Yields fun squashed => squashed 0 = firstOutput memory := by
  rw [squashHexString]
  cases fuel with
  | zero => exact .stuck
  | succ fuel =>
      have later : ∀ (first : Byte) (rest : List Byte) (next : Nat),
          (squashLoop fuel (store memory 0 (first :: rest)) next (0 + 1)).Yields
            fun squashed => squashed 0 = first := by
        intro first rest next
        have stored := @store_at memory 0 (first :: rest) 0 (by simp)
        have kept := @squashLoop_keeps 0 fuel (store memory 0 (first :: rest)) next 1 Nat.one_pos
        rw [show store memory 0 (first :: rest) 0 = first from stored] at kept
        exact kept
      rw [squashLoop, firstOutput]
      by_cases ended : memory 0 = 0
      · have plain : ¬memory 0 = 0x25 := by rw [ended]; decide
        rw [if_pos ended, if_neg plain, ended]
        exact .pure (@store_at memory 0 [0] 0 Nat.one_pos)
      · rw [if_neg ended]
        split
        · exact later _ _ _
        · exact later _ _ _

end Squash

/-- The first character depends on the value alone. -/
theorem firstOutput_congr {value : List Byte} {left right : Memory}
    (holdsLeft : Holds left 0 (value ++ [0])) (holdsRight : Holds right 0 (value ++ [0])) :
    firstOutput left = firstOutput right := by
  have same : ∀ query, query ≤ value.length → left query = right query := by
    intro query bound
    have inside : query < (value ++ [0]).length := by simp; omega
    have leftByte := holds_iff.mp holdsLeft query inside
    have rightByte := holds_iff.mp holdsRight query inside
    rw [Nat.zero_add] at leftByte rightByte
    rw [leftByte, rightByte]
  have ended : left value.length = 0 := by
    have byte := holds_iff.mp holdsLeft value.length (by simp)
    simpa using byte
  have pair : ∀ memory : Memory, slice memory 1 2 = [memory 1, memory 2] := fun _ => rfl
  rw [firstOutput, firstOutput, ← same 0 (Nat.zero_le _)]
  split
  · next escape =>
      have long : 1 ≤ value.length := by
        by_contra short
        rw [show value.length = 0 by omega, escape] at ended
        exact absurd ended (by decide)
      rw [substrOf, substrOf, pair, pair, ← same 1 long]
      by_cases nul : left 1 = 0
      · simp [nul]
      · have longer : 2 ≤ value.length := by
          by_contra short
          rw [show value.length = 1 by omega] at ended
          exact nul ended
        rw [← same 2 longer]
  · rfl

end PicoApConfigure.Post
