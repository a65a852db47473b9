import PicoApConfigure.Post.Decode

/-!
# The bytes that the decoder touches

`squash_hex_string` looks for the NUL only at the place it comes to.  An escape is taken to have
two characters behind the `%`, so the decoder stays on its string if and only if every escape it
comes to lies whole in front of the NUL.
-/

namespace PicoApConfigure.Post

open Nor FlashIo

/-- A byte read or written. -/
inductive Access where
  | read (place : Nat)
  | write (place : Nat)
  deriving DecidableEq, Repr

/-- Where the byte lies. -/
def Access.place : Access → Nat
  | .read place => place
  | .write place => place

/-- The bytes that `strncpy(substr, source, 2)` reads: none behind the first NUL. -/
def substrReads (memory : Memory) (source : Nat) : List Access :=
  if memory source = 0 then [.read source] else [.read source, .read (source + 1)]

/-- The loop of `squash_hex_string` with the bytes it touches, as far as `fuel` goes, and the memory
behind it if it has come to its end. -/
def squashTraced : (fuel : Nat) → Memory → (loop output : Nat) → List Access × Option Memory
  | 0, _, _, _ => ([], none)
  | fuel + 1, memory, loop, output =>
      if memory loop = 0 then
        ([.read loop, .write output], some (store memory output [0]))
      else if memory loop = 0x25 then
        let s := strtol (substrOf memory (loop + 1))
        -- `sprintf` puts a NUL behind the character
        let later := squashTraced fuel (store memory output [BitVec.ofInt 8 s, 0]) (loop + 3)
          (output + 1)
        (.read loop :: substrReads memory (loop + 1) ++
          .write output :: .write (output + 1) :: later.1, later.2)
      else
        let later := squashTraced fuel (store memory output [memory loop]) (loop + 1) (output + 1)
        (.read loop :: .write output :: later.1, later.2)

/-- The program that ends with `result`, or does not end. -/
def returnOf {α : Type} : Option α → FlashProg α
  | some result => return result
  | none => .stuck

/-- The loop does what it does without the record. -/
theorem squashLoop_eq_traced (fuel : Nat) :
    ∀ (memory : Memory) (loop output : Nat),
      squashLoop fuel memory loop output = returnOf (squashTraced fuel memory loop output).2 := by
  induction fuel with
  | zero => exact fun _ _ _ => rfl
  | succ fuel ih =>
      intro memory loop output
      rw [squashLoop, squashTraced]
      split
      · rfl
      · split
        · exact ih _ _ _
        · exact ih _ _ _

/-- Every escape that the decoder comes to in front of a NUL has its two characters in the text. -/
def wholeEscapes : List Byte → Bool
  | [] => true
  | char :: rest =>
      if char = 0 then true
      else if char = 0x25 then
        match rest with
        | _ :: _ :: rest => wholeEscapes rest
        | _ => false
      else wholeEscapes rest

theorem wholeEscapes_plain {char : Byte} (nonzero : char ≠ 0) (noEscape : char ≠ 0x25)
    (rest : List Byte) : wholeEscapes (char :: rest) = wholeEscapes rest := by
  rw [wholeEscapes.eq_def]
  simp only [if_neg nonzero, if_neg noEscape]

theorem wholeEscapes_escape (high low : Byte) (rest : List Byte) :
    wholeEscapes (0x25 :: high :: low :: rest) = wholeEscapes rest := by
  rw [wholeEscapes.eq_def]
  rfl

/-! ## Strings with whole escapes -/

section Steps

variable {memory : Memory} {loop output fuel : Nat}

theorem squashTraced_ended (ended : memory loop = 0) :
    squashTraced (fuel + 1) memory loop output =
      ([.read loop, .write output], some (store memory output [0])) := by
  rw [squashTraced, if_pos ended]

theorem squashTraced_plain {char : Byte} (here : memory loop = char) (nonzero : char ≠ 0)
    (noEscape : char ≠ 0x25) :
    squashTraced (fuel + 1) memory loop output =
      (.read loop :: .write output ::
          (squashTraced fuel (store memory output [char]) (loop + 1) (output + 1)).1,
        (squashTraced fuel (store memory output [char]) (loop + 1) (output + 1)).2) := by
  rw [squashTraced, here, if_neg nonzero, if_neg noEscape]

/-- What an escape leaves at the output. -/
def escaped (memory : Memory) (loop : Nat) : List Byte :=
  [BitVec.ofInt 8 (strtol (substrOf memory (loop + 1))), 0]

theorem squashTraced_escape (here : memory loop = 0x25) :
    squashTraced (fuel + 1) memory loop output =
      (.read loop :: substrReads memory (loop + 1) ++ .write output :: .write (output + 1) ::
          (squashTraced fuel (store memory output (escaped memory loop)) (loop + 3)
            (output + 1)).1,
        (squashTraced fuel (store memory output (escaped memory loop)) (loop + 3)
          (output + 1)).2) := by
  have nonzero : memory loop ≠ 0 := by
    rw [here]
    decide
  rw [squashTraced, if_neg nonzero, if_pos here]
  rfl

@[simp] theorem escaped_length : (escaped memory loop).length = 2 := rfl

/-- What lies ahead of the output is still there behind a step. -/
theorem holds_behind {written text : List Byte} {place : Nat} (holds : Holds memory place text)
    (before : output + written.length ≤ place) :
    Holds (store memory output written) place text :=
  holds.congr fun _ lower _ => (store_of_le memory written (Nat.le_trans before lower)).symm

/-- A string that starts with an escape. -/
theorem holds_escape {high low : Byte} {rest : List Byte}
    (holds : Holds memory loop (0x25 :: high :: low :: rest ++ [0])) :
    memory loop = 0x25 ∧ Holds memory (loop + 3) (rest ++ [0]) := by
  have shape : 0x25 :: high :: low :: rest ++ [0] = [0x25, high, low] ++ (rest ++ [0]) := rfl
  rw [shape, holds_append] at holds
  exact ⟨holds_iff.mp holds.1 0 (Nat.succ_pos _), holds.2⟩

/-- A string that starts with a plain character. -/
theorem holds_plain {char : Byte} {rest : List Byte}
    (holds : Holds memory loop (char :: rest ++ [0])) :
    memory loop = char ∧ Holds memory (loop + 1) (rest ++ [0]) := by
  rw [List.cons_append, ← List.singleton_append, holds_append] at holds
  exact ⟨holds_iff.mp holds.1 0 Nat.one_pos, holds.2⟩

end Steps

/-- What the decoder does with a string stays inside of it. -/
structure Contained (memory : Memory) (loop output length : Nat) : Prop where
  ends : ∃ squashed ended, squashed ended = 0 ∧ output ≤ ended ∧ ended ≤ output + length ∧
    ∀ fuel, length < fuel → (squashTraced fuel memory loop output).2 = some squashed
  touches : ∀ fuel, ∀ access ∈ (squashTraced fuel memory loop output).1,
    access.place ≤ loop + length

theorem Contained.stop {memory : Memory} {loop output : Nat} (ended : memory loop = 0)
    (lags : output ≤ loop) (length : Nat) : Contained memory loop output length := by
  constructor
  · refine ⟨store memory output [0], output, ?_, Nat.le_refl _, Nat.le_add_right _ _,
      fun fuel enough => ?_⟩
    · exact @store_at memory output [0] 0 Nat.one_pos
    · cases fuel with
      | zero => exact absurd enough (Nat.not_lt_zero _)
      | succ fuel => rw [squashTraced_ended ended]
  · intro fuel access member
    cases fuel with
    | zero => cases member
    | succ fuel =>
        rw [squashTraced_ended ended] at member
        simp only [List.mem_cons, List.not_mem_nil, or_false] at member
        rcases member with rfl | rfl
        · exact Nat.le_add_right _ _
        · exact Nat.le_trans lags (Nat.le_add_right _ _)

/-- A step that touches nothing behind the string. -/
theorem Contained.step {memory memory' : Memory} {loop next output length rest : Nat}
    (later : Contained memory' next (output + 1) rest) (touched : List Access)
    (goesOn : ∀ fuel, squashTraced (fuel + 1) memory loop output =
      (touched ++ (squashTraced fuel memory' next (output + 1)).1,
        (squashTraced fuel memory' next (output + 1)).2))
    (near : ∀ access ∈ touched, access.place ≤ loop + length) (shorter : rest < length)
    (same : next + rest = loop + length) : Contained memory loop output length := by
  obtain ⟨⟨squashed, ended, nul, above, inside, ends⟩, touches⟩ := later
  constructor
  · refine ⟨squashed, ended, nul, by omega, by omega, fun fuel enough => ?_⟩
    cases fuel with
    | zero => exact absurd enough (Nat.not_lt_zero _)
    | succ fuel =>
        rw [goesOn]
        exact ends fuel (by omega)
  · intro fuel access member
    cases fuel with
    | zero => cases member
    | succ fuel =>
        rw [goesOn] at member
        rcases List.mem_append.mp member with member | member
        · exact near access member
        · rw [← same]
          exact touches fuel access member

theorem substrReads_place {memory : Memory} {source : Nat} :
    ∀ access ∈ substrReads memory source, access.place ≤ source + 1 := by
  intro access member
  rw [substrReads] at member
  split at member
  · rw [List.mem_singleton.mp member]
    exact Nat.le_succ source
  · simp only [List.mem_cons, List.not_mem_nil, or_false] at member
    rcases member with rfl | rfl
    · exact Nat.le_succ source
    · exact Nat.le_refl (source + 1)

/-- A string with whole escapes is decoded inside of it. -/
theorem contained_of_whole {text : List Byte} :
    ∀ {memory : Memory} {loop output : Nat}, wholeEscapes text = true →
      Holds memory loop (text ++ [0]) → output ≤ loop →
      Contained memory loop output text.length := by
  induction text using wholeEscapes.induct with
  | case1 =>
      intro memory loop output _ holds lags
      exact .stop (holds_iff.mp holds 0 Nat.one_pos) lags 0
  | case2 rest =>
      intro memory loop output _ holds lags
      exact .stop (holds_iff.mp holds 0 (Nat.succ_pos _)) lags _
  | case3 high low rest _ ih =>
      intro memory loop output whole holds lags
      rw [wholeEscapes_escape] at whole
      obtain ⟨here, behind⟩ := holds_escape holds
      have later : Contained (store memory output (escaped memory loop)) (loop + 3) (output + 1)
          rest.length := by
        apply ih whole
        · apply holds_behind behind
          rw [escaped_length]
          omega
        · omega
      apply later.step (.read loop :: substrReads memory (loop + 1) ++
        [.write output, .write (output + 1)])
      · intro fuel
        rw [squashTraced_escape here]
        simp
      · intro access member
        simp only [List.cons_append, List.mem_cons, List.mem_append, List.not_mem_nil,
          or_false] at member
        simp only [List.length_cons]
        rcases member with rfl | member | rfl | rfl
        · exact Nat.le_add_right _ _
        · have := substrReads_place access member
          omega
        · rw [Access.place]
          omega
        · rw [Access.place]
          omega
      · simp only [List.length_cons]
        omega
      · simp only [List.length_cons]
        omega
  | case4 rest short _ =>
      intro memory loop output whole
      rw [wholeEscapes.eq_def] at whole
      rcases rest with _ | ⟨high, _ | ⟨low, rest⟩⟩
      · cases whole
      · cases whole
      · exact absurd rfl (short high low rest)
  | case5 char rest nonzero noEscape ih =>
      intro memory loop output whole holds lags
      rw [wholeEscapes_plain nonzero noEscape] at whole
      obtain ⟨here, behind⟩ := holds_plain holds
      have later : Contained (store memory output [char]) (loop + 1) (output + 1)
          rest.length := by
        apply ih whole
        · apply holds_behind behind
          exact Nat.succ_le_succ lags
        · exact Nat.succ_le_succ lags
      apply later.step [.read loop, .write output]
      · intro fuel
        rw [squashTraced_plain here nonzero noEscape]
        rfl
      · intro access member
        simp only [List.mem_cons, List.not_mem_nil, or_false] at member
        rcases member with rfl | rfl
        · exact Nat.le_add_right _ _
        · exact Nat.le_trans lags (Nat.le_add_right _ _)
      · exact Nat.lt_succ_self _
      · simp only [List.length_cons]
        omega

/-- More fuel changes nothing at the end. -/
theorem squashTraced_more {squashed : Memory} (more fuel : Nat) :
    ∀ {memory : Memory} {loop output : Nat},
      (squashTraced fuel memory loop output).2 = some squashed →
      (squashTraced (fuel + more) memory loop output).2 = some squashed := by
  induction fuel with
  | zero =>
      intro memory loop output ends
      cases ends
  | succ fuel ih =>
      intro memory loop output ends
      rw [Nat.add_right_comm, squashTraced]
      rw [squashTraced] at ends
      split
      · next ended => rwa [if_pos ended] at ends
      · next goesOn =>
          rw [if_neg goesOn] at ends
          split
          · next escape =>
              rw [if_pos escape] at ends
              exact ih ends
          · next plain =>
              rw [if_neg plain] at ends
              exact ih ends

/-- Whatever the fuel, the end leaves a NUL in the string. -/
theorem Contained.leaves {memory squashed : Memory} {loop output length fuel : Nat}
    (contained : Contained memory loop output length)
    (result : (squashTraced fuel memory loop output).2 = some squashed) :
    ∃ ended, squashed ended = 0 ∧ output ≤ ended ∧ ended ≤ output + length := by
  obtain ⟨other, ended, nul, above, within, ends⟩ := contained.ends
  have same := squashTraced_more (length + 1) fuel result
  rw [ends _ (by omega), Option.some.injEq] at same
  rw [← same]
  exact ⟨ended, nul, above, within⟩

/-! ## Strings that end inside an escape -/

/-- After `steps` steps the decoder is at `next`, behind a string of this length. -/
structure Passes (memory : Memory) (loop output length steps : Nat) (memory' : Memory)
    (next : Nat) : Prop where
  behind : loop + length < next
  lags : output + steps ≤ next
  few : steps ≤ length
  ahead : ∀ place, next ≤ place → memory' place = memory place
  goesOn : ∃ earlier, ∀ fuel, (squashTraced (fuel + steps) memory loop output).1 =
    earlier ++ (squashTraced fuel memory' next (output + steps)).1

/-- A step in front of the others. -/
theorem Passes.step {memory memory' written : Memory} {loop next output length rest steps : Nat}
    {last : Nat} (later : Passes written next (output + 1) rest steps memory' last)
    (touched : List Access)
    (goesOn : ∀ fuel, (squashTraced (fuel + 1) memory loop output).1 =
      touched ++ (squashTraced fuel written next (output + 1)).1)
    (kept : ∀ place, next ≤ place → written place = memory place) (shorter : rest < length)
    (same : next + rest = loop + length) : Passes memory loop output length (steps + 1) memory'
      last := by
  obtain ⟨behind, lags, few, ahead, earlier, more⟩ := later
  refine ⟨by omega, by omega, by omega, fun place beyond => ?_, touched ++ earlier, fun fuel => ?_⟩
  · rw [ahead place beyond]
    exact kept place (by omega)
  · rw [← Nat.add_assoc, goesOn, more, List.append_assoc, Nat.add_assoc output, Nat.add_comm 1]

/-- A string that ends inside an escape is left behind. -/
theorem passes_of_cut {text : List Byte} :
    ∀ {memory : Memory} {loop output : Nat}, wholeEscapes text = false →
      Holds memory loop (text ++ [0]) → output ≤ loop →
      ∃ steps memory' next, Passes memory loop output text.length steps memory' next := by
  induction text using wholeEscapes.induct with
  | case1 =>
      intro memory loop output cut
      cases cut
  | case2 rest =>
      intro memory loop output cut
      rw [wholeEscapes.eq_def] at cut
      cases cut
  | case3 high low rest _ ih =>
      intro memory loop output cut holds lags
      rw [wholeEscapes_escape] at cut
      obtain ⟨here, behind⟩ := holds_escape holds
      have before : output + (escaped memory loop).length ≤ loop + 3 := by
        rw [escaped_length]
        omega
      obtain ⟨steps, memory', next, passes⟩ := @ih (store memory output (escaped memory loop))
        (loop + 3) (output + 1) cut (holds_behind behind before) (by omega)
      refine ⟨steps + 1, memory', next, passes.step (.read loop ::
        substrReads memory (loop + 1) ++ [.write output, .write (output + 1)]) (fun fuel => ?_)
        (fun place beyond => ?_) ?_ ?_⟩
      · rw [squashTraced_escape here]
        simp
      · exact store_of_le memory _ (Nat.le_trans before beyond)
      · simp only [List.length_cons]
        omega
      · simp only [List.length_cons]
        omega
  | case4 rest short _ =>
      intro memory loop output _ holds lags
      have here : memory loop = 0x25 := holds_iff.mp holds 0 (Nat.succ_pos _)
      have length : rest.length ≤ 1 := by
        rcases rest with _ | ⟨high, _ | ⟨low, rest⟩⟩
        · exact Nat.zero_le 1
        · exact Nat.le_refl 1
        · exact absurd rfl (short high low rest)
      have before : output + (escaped memory loop).length ≤ loop + 3 := by
        rw [escaped_length]
        omega
      -- the place behind the escape is behind the NUL
      refine ⟨1, store memory output (escaped memory loop), loop + 3, ?_, ?_, ?_, ?_, ?_⟩
      · simp only [List.length_cons]
        omega
      · omega
      · exact Nat.succ_pos _
      · exact fun place beyond => store_of_le memory _ (Nat.le_trans before beyond)
      · refine ⟨.read loop :: substrReads memory (loop + 1) ++ [.write output, .write (output + 1)],
          fun fuel => ?_⟩
        rw [squashTraced_escape here]
        simp
  | case5 char rest nonzero noEscape ih =>
      intro memory loop output cut holds lags
      rw [wholeEscapes_plain nonzero noEscape] at cut
      obtain ⟨here, behind⟩ := holds_plain holds
      have before : output + [char].length ≤ loop + 1 := Nat.succ_le_succ lags
      obtain ⟨steps, memory', next, passes⟩ := @ih (store memory output [char])
        (loop + 1) (output + 1) cut (holds_behind behind before) (Nat.succ_le_succ lags)
      refine ⟨steps + 1, memory', next, passes.step [.read loop, .write output]
        (fun fuel => ?_) (fun place beyond => ?_) ?_ ?_⟩
      · rw [squashTraced_plain here nonzero noEscape]
        rfl
      · exact store_of_le memory _ (Nat.le_trans before beyond)
      · exact Nat.lt_succ_self _
      · simp only [List.length_cons]
        omega

theorem squashTraced_reads (fuel : Nat) (memory : Memory) (loop output : Nat) :
    .read loop ∈ (squashTraced (fuel + 1) memory loop output).1 := by
  rw [squashTraced]
  split
  · exact List.mem_cons_self
  · split
    · exact List.mem_cons_self
    · exact List.mem_cons_self

/-- `squash_hex_string` on the string of `length` characters at `start`, in place: it comes to an
end, touches no byte behind the NUL, and leaves a string that is no longer. -/
structure SquashSafe (memory : Memory) (start length : Nat) : Prop where
  ends : ∃ squashed, FlashProg.Completes (fun _ => True)
    (fun fuel => squashLoop fuel memory start start) (fun _ => 0) [] squashed ∧
    ∃ shorter, shorter ≤ length ∧ squashed (start + shorter) = 0
  touches : ∀ fuel, ∀ access ∈ (squashTraced fuel memory start start).1,
    access.place ≤ start + length

theorem Passes.not_safe {memory memory' : Memory} {start length steps next : Nat}
    (passes : Passes memory start start length steps memory' next) :
    ¬SquashSafe memory start length := by
  intro safe
  obtain ⟨earlier, goesOn⟩ := passes.goesOn
  have reads : .read next ∈ (squashTraced (1 + steps) memory start start).1 := by
    rw [goesOn]
    exact List.mem_append_right _ (squashTraced_reads 0 memory' next _)
  have inside := safe.touches _ _ reads
  rw [Access.place] at inside
  exact absurd passes.behind (Nat.not_lt_of_le inside)

/-- For every string in any memory: the decoder is safe on it if and only if every escape that it
comes to has its two characters in front of the NUL. -/
theorem squash_safe_iff {text : List Byte} {memory : Memory} {start : Nat}
    (holds : Holds memory start (text ++ [0])) :
    SquashSafe memory start text.length ↔ wholeEscapes text = true := by
  constructor
  · intro safe
    by_contra cut
    rw [Bool.not_eq_true] at cut
    obtain ⟨steps, memory', next, passes⟩ := passes_of_cut cut holds (Nat.le_refl start)
    exact passes.not_safe safe
  · intro whole
    obtain ⟨⟨squashed, ended, nul, above, inside, ends⟩, touches⟩ := contained_of_whole whole holds
      (Nat.le_refl start)
    obtain ⟨shorter, rfl⟩ := Nat.exists_eq_add_of_le above
    refine ⟨⟨squashed, ⟨text.length + 1, fun fuel enough => ?_⟩, shorter, by omega, nul⟩, touches⟩
    have same := squashLoop_eq_traced fuel memory start start
    rw [ends fuel enough] at same
    dsimp only
    rw [same]
    exact FlashProg.Exec.pure _

theorem squash_safe_escape :
    SquashSafe (store (fun _ => 0) 0 (chars "a%41" ++ [0])) 0 (chars "a%41").length ↔
      wholeEscapes (chars "a%41") = true :=
  squash_safe_iff (holds_store _ _ _)

/-- The string of one `%`: the decoder goes on behind the NUL. -/
theorem percent_not_safe : ¬SquashSafe (store (fun _ => 0) 0 (chars "%" ++ [0])) 0 1 := by
  intro safe
  obtain ⟨steps, memory', next, passes⟩ := @passes_of_cut (chars "%") _ 0 0 (by decide)
    (holds_store _ _ _) (Nat.le_refl 0)
  exact passes.not_safe safe

end PicoApConfigure.Post
