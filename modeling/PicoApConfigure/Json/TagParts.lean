import PicoApConfigure.Json.Message
import PicoApConfigure.Json.Ssi

/-!
# The parts of the JSON tag

The web server asks for part 0 and then for every part that the call before asks for.  The parts
are the text in pieces of the full length, followed by a shorter one, which may be empty.  A mirror
with a negative count is printed, but `ssi_handler` takes its count for a failure.
-/

namespace PicoApConfigure.Json

open Nor

section Parts

variable {Json : Type} (lib : CJson Json)

/-- The calls of the web server for the tag from `currentTagPart` on. -/
def tagParts (iInsertLen : Int) : (fuel currentTagPart : Nat) → Shared Json →
    Option (List SsiInsert)
  | 0, _, _ => none
  | fuel + 1, currentTagPart, shared =>
      let (insert, shared) := ssiHandlerJson lib iInsertLen currentTagPart shared
      match insert.nextTagPart with
      | some next => (tagParts iInsertLen fuel next shared).map (insert :: ·)
      | none => some [insert]

/-- The calls come to an end, none returns more than there is room for, and together they return
`text`. -/
def Reproduces (iInsertLen : Int) (shared : Shared Json) (text : List Byte) : Prop :=
  ∃ fuel inserts, tagParts lib iInsertLen fuel 0 shared = some inserts ∧
    (∀ insert ∈ inserts, insert.inserted.length = insert.printed ∧
      (insert.printed : Int) ≤ iInsertLen - 1) ∧
    (inserts.map SsiInsert.inserted).flatten = text

/-- A part of a text that is inserted in pieces of `chunk` bytes. -/
def partOf (text : List Byte) (chunk part : Nat) : SsiInsert where
  inserted := (text.drop (part * chunk)).take chunk
  nextTagPart := if chunk ≤ text.length - part * chunk then some (part + 1) else none
  printed := min chunk (text.length - part * chunk)

variable {lib} {shared : Shared Json} {buffer : Memory} {request : Request} {chunk part : Nat}

theorem textLength_of_holds (holds : Holds buffer 0 request.bytes) :
    textLength buffer = request.text.length := by
  obtain ⟨size, -⟩ := Message.fields (List.prefix_refl request.bytes)
    (by rw [Message.bytes_length]; exact request.headerSize_le_size) holds
  have fits := request.fits
  have value : uint32 ((sizeField buffer : Int) - headerSize) = request.text.length := by
    rw [size, Message.size, uint32]
    simp only [headerSize, maxJsonBufSize] at fits ⊢
    omega
  rw [textLength, value]
  exact int32_of_small (Nat.le_trans (Nat.le_add_left _ _) fits)

/-- What is copied of the text in the buffer. -/
theorem slice_text (holds : Holds buffer 0 request.bytes) {start size : Nat}
    (inside : start + size ≤ request.text.length) :
    slice buffer (headerSize + start) size = (request.text.drop start).take size := by
  have text := holds_textOf holds
  have whole : slice (textOf buffer) 0 request.text.length = request.text := text
  rw [← whole, slice_drop, slice_take _ _ (by omega)]
  refine List.map_congr_left fun offset _ => ?_
  rw [textOf, Nat.zero_add, Nat.add_assoc]

/-- What the handler inserts when `remlen` bytes of the text in the buffer are left. -/
def copied (buffer : Memory) (chunk : Int) (currentTagPart : Nat) (remlen : Int) : SsiInsert :=
  let thischunk := if chunk < remlen then chunk else remlen
  let sofar := textLength buffer - remlen
  { inserted := slice buffer (headerSize + sofar.toNat) thischunk.toNat
    nextTagPart := if chunk ≤ thischunk then some (currentTagPart + 1) else none
    printed := uint16 thischunk }

theorem copied_eq (holds : Holds buffer 0 request.bytes)
    (inside : part * chunk ≤ request.text.length) :
    copied buffer chunk part (request.text.length - part * chunk) =
      partOf request.text chunk part := by
  have fits := request.fits
  obtain ⟨left, length⟩ := Nat.exists_eq_add_of_le inside
  have remlen : (request.text.length - part * chunk : Int) = left := by
    rw [length]
    push_cast
    omega
  have sofar : (textLength buffer - left).toNat = part * chunk := by
    rw [textLength_of_holds holds, length]
    push_cast
    omega
  have thischunk : (if (chunk : Int) < left then (chunk : Int) else left) =
      (min chunk left : Nat) := by
    split <;> omega
  have small : min chunk left ≤ maxJsonBufSize := by omega
  simp only [copied, remlen, sofar, thischunk, partOf, SsiInsert.mk.injEq, uint16_of_small small,
    Int.toNat_natCast, slice_text holds (show part * chunk + min chunk left ≤ _ by omega)]
  refine ⟨?_, ?_, ?_⟩
  · rw [List.take_eq_take_iff, List.length_drop, length, Nat.add_sub_cancel_left]
    omega
  · rw [length, Nat.add_sub_cancel_left]
    exact if_congr (by omega) rfl rfl
  · rw [length, Nat.add_sub_cancel_left]

/-- A later part. -/
theorem ssiHandlerJson_part (lib : CJson Json) (holds : Holds shared.buffer 0 request.bytes)
    (later : part ≠ 0) (inside : part * chunk ≤ request.text.length) :
    ssiHandlerJson lib (chunk + 1) part shared = (partOf request.text chunk part, shared) := by
  have copy := copied_eq holds inside
  rw [← textLength_of_holds holds] at copy
  rw [← copy]
  simp only [ssiHandlerJson, if_neg later, copied, Int.add_sub_cancel]

/-- Part 0 of a mirror that can be printed. -/
theorem ssiHandlerJson_first (lawful : lib.Lawful) (shared : Shared Json)
    (ready : (lib.printPreallocated (getMirror lib shared.mirror) printSize).1 = true) :
    ∃ after, Holds after.buffer 0 (lawful.request (getMirror lib shared.mirror) ready).bytes ∧
      ∀ chunk : Nat, ssiHandlerJson lib (chunk + 1) 0 shared =
        (if 0 ≤ getMirrorUpdateCount lib shared.mirror then
          partOf (lib.print (getMirror lib shared.mirror)) chunk 0
        else copied after.buffer chunk 0 0, after) := by
  obtain ⟨buffer, prepared, holds⟩ := lawful.prepares shared ready
  refine ⟨⟨buffer, some (getMirror lib shared.mirror)⟩, holds, fun chunk => ?_⟩
  simp only [ssiHandlerJson, if_true, prepared, Int.add_sub_cancel]
  by_cases counted : 0 ≤ getMirrorUpdateCount lib shared.mirror
  · have copy := @copied_eq buffer _ chunk 0 holds (by rw [Nat.zero_mul]; exact Nat.zero_le _)
    rw [Int.ofNat_zero, Int.zero_mul, Int.sub_zero, ← textLength_of_holds holds] at copy
    rw [if_pos counted, if_pos counted]
    exact congrArg (·, _) copy
  · rw [if_neg counted, if_neg counted]
    rfl

theorem partOf_length (text : List Byte) (chunk part : Nat) :
    (partOf text chunk part).inserted.length = (partOf text chunk part).printed ∧
      (partOf text chunk part).printed ≤ chunk := by
  rw [partOf]
  exact ⟨by rw [List.length_take, List.length_drop], Nat.min_le_left _ _⟩

/-- The parts from one on are what is left of the text. -/
theorem tagParts_eq (lib : CJson Json) (holds : Holds shared.buffer 0 request.bytes)
    (positive : 0 < chunk) :
    ∀ {fuel part : Nat} {before : Shared Json},
      ssiHandlerJson lib (chunk + 1) part before = (partOf request.text chunk part, shared) →
      part * chunk ≤ request.text.length → request.text.length - part * chunk < fuel →
      ∃ inserts, tagParts lib (chunk + 1) fuel part before = some inserts ∧
        (∀ insert ∈ inserts, insert.inserted.length = insert.printed ∧ insert.printed ≤ chunk) ∧
        (inserts.map SsiInsert.inserted).flatten = request.text.drop (part * chunk) := by
  intro fuel
  induction fuel with
  | zero => exact fun _ _ impossible => absurd impossible (Nat.not_lt_zero _)
  | succ fuel ih =>
      intro part before call inside enough
      have step : (part + 1) * chunk = part * chunk + chunk := Nat.succ_mul part chunk
      rw [tagParts, call]
      by_cases full : chunk ≤ request.text.length - part * chunk
      · have inside' : (part + 1) * chunk ≤ request.text.length := by omega
        have next : part + 1 ≠ 0 := part.succ_ne_zero
        obtain ⟨inserts, later, short, rest⟩ :=
          ih (ssiHandlerJson_part lib holds next inside') inside' (by omega)
        refine ⟨partOf request.text chunk part :: inserts, ?_, ?_, ?_⟩
        · simp only [partOf, if_pos full, later, Option.map_some]
        · rintro insert member
          rcases List.mem_cons.mp member with rfl | member
          · exact partOf_length _ _ _
          · exact short insert member
        · rw [List.map_cons, List.flatten_cons, rest, step, ← List.drop_drop]
          exact List.take_append_drop chunk _
      · refine ⟨[partOf request.text chunk part], ?_, ?_, ?_⟩
        · simp only [partOf, if_neg full]
        · intro insert member
          rw [List.mem_singleton.mp member]
          exact partOf_length _ _ _
        · rw [List.map_singleton, List.flatten_singleton, partOf]
          exact List.take_of_length_le (by rw [List.length_drop]; omega)

/-- A negative count ends the tag with the first part, which is empty. -/
theorem tagParts_negative (lawful : lib.Lawful) {shared : Shared Json}
    (ready : (lib.printPreallocated (getMirror lib shared.mirror) printSize).1 = true)
    (negative : getMirrorUpdateCount lib shared.mirror < 0) (positive : 0 < chunk)
    {fuel : Nat} {inserts : List SsiInsert}
    (calls : tagParts lib (chunk + 1) fuel 0 shared = some inserts) :
    (inserts.map SsiInsert.inserted).flatten = [] := by
  obtain ⟨after, -, first⟩ := ssiHandlerJson_first lawful shared ready
  cases fuel with
  | zero => cases calls
  | succ fuel =>
      have this : ¬(chunk : Int) < 0 := by omega
      have last : ¬(chunk : Int) ≤ 0 := by omega
      rw [tagParts, first chunk, if_neg (Int.not_le.mpr negative)] at calls
      simp only [copied, if_neg this, if_neg last, Int.toNat_zero, slice_zero,
        Option.some.injEq] at calls
      rw [← calls]
      rfl

end Parts

/-- For every mirror whose text fits the buffer and every room for at least two bytes: the parts of
the tag are the text if and only if the count is not negative. -/
theorem tag_reproduces_iff {Json : Type} {lib : CJson Json} (lawful : lib.Lawful)
    {shared : Shared Json} {iInsertLen : Int} (room : 2 ≤ iInsertLen)
    (ready : (lib.printPreallocated (getMirror lib shared.mirror) printSize).1 = true) :
    Reproduces lib iInsertLen shared (lib.print (getMirror lib shared.mirror)) ↔
      0 ≤ getMirrorUpdateCount lib shared.mirror := by
  obtain ⟨chunk, rfl⟩ : ∃ chunk : Nat, iInsertLen = chunk + 1 :=
    ⟨(iInsertLen - 1).toNat, by omega⟩
  have positive : 0 < chunk := by omega
  constructor
  · rintro ⟨fuel, inserts, calls, -, together⟩
    by_contra negative
    rw [tagParts_negative lawful ready (Int.not_le.mp negative) positive calls] at together
    exact lawful.nonempty _ together.symm
  · intro counted
    obtain ⟨after, holds, first⟩ := ssiHandlerJson_first lawful shared ready
    have call := first chunk
    rw [if_pos counted] at call
    obtain ⟨inserts, calls, short, together⟩ := @tagParts_eq _ after
      (lawful.request (getMirror lib shared.mirror) ready) chunk lib holds positive
      (lib.print (getMirror lib shared.mirror)).length.succ 0 shared call
      (by rw [Nat.zero_mul]; exact Nat.zero_le _) (by rw [Nat.zero_mul]; exact Nat.lt_succ_self _)
    refine ⟨_, inserts, calls, fun insert member => ?_, ?_⟩
    · obtain ⟨length, bound⟩ := short insert member
      exact ⟨length, by omega⟩
    · rw [together, Nat.zero_mul, List.drop_zero]
      rfl

/-- The text has one character, which fills the first part. -/
theorem tag_reproduces_character :
    Reproduces (twoObjects fun _ => 1) 2 { buffer := fun _ => 0, mirror := some true }
        ((twoObjects fun _ => 1).print true) ↔
      0 ≤ getMirrorUpdateCount (twoObjects fun _ => 1) (some true) :=
  tag_reproduces_iff (twoObjects_lawful _) (by decide) rfl

/-- A mirror with a negative count is left out. -/
theorem tag_drops_negative :
    ¬Reproduces (twoObjects fun _ => -1) 2 { buffer := fun _ => 0, mirror := some true }
      ((twoObjects fun _ => -1).print true) := by
  rintro ⟨fuel, inserts, calls, -, together⟩
  rw [@tagParts_negative _ _ 1 (twoObjects_lawful _) _ rfl (by decide) Nat.one_pos fuel inserts
    calls] at together
  cases together

end PicoApConfigure.Json
