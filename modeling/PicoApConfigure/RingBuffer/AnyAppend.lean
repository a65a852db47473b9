import Mathlib.Data.Finset.Card
import PicoApConfigure.RingBuffer.AnyFlash

/-!
# Appending on arbitrary contents

What `rb_append` writes is of no interest here, only whether it writes at all, what
it returns and where it leaves the cursor.  The last thing that can fail is the
look at the next sector, in front of the first program operation.
-/

namespace PicoApConfigure.RingBuffer

open Nor

section AnyAppend

variable {rb : RbT} {ring : Geometry} {k offset : Nat}

/-! ## Writing -/

/-- The cursor goes around the end of the ring. -/
theorem nextincr_mod (on : OnRing rb ring) {amount : Nat}
    (bound : rb.next + amount ≤ 4096 * ring.sectors) :
    nextincr rb amount = { rb with next := (rb.next + amount) % (4096 * ring.sectors) } := by
  rw [nextincr, on.bytes_eq]
  by_cases last : rb.next + amount = 4096 * ring.sectors
  · rw [last, if_pos (Nat.le_refl _), Nat.mod_self]
  · rw [if_neg (by omega), Nat.mod_eq_of_lt (by omega)]

/-- A write that cannot fail and leaves the cursor at `next`. -/
structure Wrote (ring : Geometry) (next : Nat) (status : RbError) (rb : RbT) : Prop where
  ok : status = .ok
  on : OnRing rb ring
  next_eq : rb.next = next

/-- One pass programs the rest of the page, or all of the data. -/
private theorem rbPartial_any (memory : Memory) (on : OnRing rb ring)
    (inside : rb.next < 4096 * ring.sectors) (data : List Byte) {wrlen : Nat}
    (written : wrlen = min (256 - rb.next % 256) data.length) :
    FlashProg.Finishes (fun _ => rbPartial rb data) memory fun _ result =>
      result.1 = data.drop wrlen ∧ OnRing result.2 ring ∧
        result.2.next = (rb.next + wrlen) % (4096 * ring.sectors) := by
  subst written
  have bound : rb.next + min (256 - rb.next % 256) data.length ≤ 4096 * ring.sectors := by
    omega
  have moved := fun page => @nextincr_mod { rb with rbPage := page } ring
    ⟨on.base_eq, on.bytes_eq⟩ _ bound
  simp only at moved
  simp only [rbPartial, flashPageSize, modPage_eq, moved]
  have exec := @FlashProg.Exec.progBytes (fun _ => True) memory
    (rb.baseAddress + flashPage rb.next)
    (slice (store rb.rbPage (rb.next % 256)
      (data.take (min (256 - rb.next % 256) data.length))) 0 256) fun _ _ => trivial
  have programmed : FlashProg.Finishes _ memory fun _ _ => True := exec.finishes trivial
  exact programmed.bind fun _ _ _ => .pure ⟨rfl, ⟨on.base_eq, on.bytes_eq⟩, rfl⟩

private theorem appendPageLoop_any (fuel : Nat) :
    ∀ (data : List Byte) (rb : RbT) (memory : Memory), data.length < fuel → OnRing rb ring →
      rb.next < 4096 * ring.sectors →
      FlashProg.Finishes (fun _ => appendPageLoop fuel rb data) memory fun _ result =>
        Wrote ring ((rb.next + data.length) % (4096 * ring.sectors)) result.1 result.2 := by
  induction fuel with
  | zero => intro data rb memory tooShort; omega
  | succ fuel ih =>
      intro data rb memory enough on inside
      rw [appendPageLoop]
      refine (rbPartial_any memory on inside data rfl).bind ?_
      rintro writes ⟨remaining, rb'⟩ ⟨left, on', next'⟩
      simp only at left on' next'
      by_cases last : remaining = []
      · have whole : min (256 - rb.next % 256) data.length = data.length := by
          rw [last, eq_comm, List.drop_eq_nil_iff] at left
          omega
        rw [whole] at next'
        simp only [if_pos last]
        exact .pure ⟨rfl, on', next'⟩
      · have length : remaining.length =
            data.length - min (256 - rb.next % 256) data.length := by
          rw [left, List.length_drop]
        have some : 0 < remaining.length := List.length_pos_of_ne_nil last
        have total : rb.next + min (256 - rb.next % 256) data.length + remaining.length =
            rb.next + data.length := by omega
        have rest := ih remaining rb' (replay writes memory) (by omega) on'
          (by rw [next']; exact Nat.mod_lt _ (by omega))
        rw [next', Nat.mod_add_mod, total] at rest
        simp only [if_neg last]
        exact rest

/-- `rb_append_page` succeeds wherever it starts. -/
theorem rbAppendPage_any (memory : Memory) (on : OnRing rb ring)
    (inside : rb.next < 4096 * ring.sectors) (data : List Byte) :
    FlashProg.Finishes (fun _ => rbAppendPage rb data) memory fun _ result =>
      Wrote ring ((rb.next + data.length) % (4096 * ring.sectors)) result.1 result.2 :=
  appendPageLoop_any (data.length + 1) data { rb with rbPage := _ } memory (by omega)
    ⟨on.base_eq, on.bytes_eq⟩ inside

/-- `write_headers` succeeds wherever it starts. -/
theorem writeHeaders_any (memory : Memory) (on : OnRing rb ring)
    (inside : rb.next < 4096 * ring.sectors) (hdr : RbHeader) (size : Nat) (flag : Byte) :
    FlashProg.Finishes (fun _ => writeHeaders rb hdr size flag) memory fun _ result =>
      Wrote ring ((rb.next + if rb.next % 4096 = 0 then 8 else 4) % (4096 * ring.sectors))
        result.1 result.2.2 := by
  -- the data header, behind the sector header if there is one
  have finish : ∀ memory rb', OnRing rb' ring → rb'.next < 4096 * ring.sectors →
      FlashProg.Finishes (fun _ => rbAppendPage rb' (flagged hdr size flag).bytes >>=
        fun result => pure (result.1, flagged hdr size flag, result.2)) memory fun _ result =>
        Wrote ring ((rb'.next + 4) % (4096 * ring.sectors)) result.1 result.2.2 := by
    intro memory rb' on' inside'
    refine (rbAppendPage_any memory on' inside' _).bind ?_
    rintro writes ⟨status, rb''⟩ wrote
    exact .pure wrote
  simp only [writeHeaders, modSector_eq]
  by_cases start : rb.next % 4096 = 0
  · have opened := @rbAppendPage_any
      { rb with lastWrote := rb.next, sectorIndex := nextIndex rb.sectorIndex } ring memory
      ⟨on.base_eq, on.bytes_eq⟩ inside (sectorHeaderFor (nextIndex rb.sectorIndex)).bytes
    simp only [if_pos start]
    refine opened.bind ?_
    rintro writes ⟨status, rb'⟩ ⟨rfl, on', next'⟩
    simp only [RbSectorHeader.bytes_length] at on' next'
    simp only [ne_eq, not_true_eq_false, if_false]
    have done := finish (replay writes memory) rb' on'
      (by rw [next']; exact Nat.mod_lt _ (by omega))
    rw [next', Nat.mod_add_mod] at done
    exact done
  · simp only [if_neg start]
    refine FlashProg.Exec.bind_finishes (@FlashProg.Exec.pure _ (fun _ => True) _ _) ?_
    simp only [ne_eq, not_true_eq_false, if_false]
    exact finish memory { rb with lastWrote := rb.next } ⟨on.base_eq, on.bytes_eq⟩ inside

/-! ## Counting blanks -/

theorem countBlanks_any (memory : Memory) (size : Nat) (address : Nat) :
    ∃ count, (countBlanks address 0xff size).Exec (fun _ => True) memory [] count ∧
      (Holds memory address (blanks size) → count = size) := by
  induction size generalizing address with
  | zero => exact ⟨0, FlashProg.Exec.pure _, fun _ => rfl⟩
  | succ size ih =>
      have byte := @FlashProg.Exec.readBytes (fun _ => True) memory address 1 fun _ _ => trivial
      obtain ⟨count, exec, whole⟩ := ih (address + 1)
      rw [countBlanks]
      by_cases erased : slice memory address 1 = [0xff]
      · refine ⟨count + 1, byte.bind_read ?_, fun blank => ?_⟩
        · rw [if_neg (not_not_intro erased)]
          exact exec.bind_read (FlashProg.Exec.pure _)
        · rw [whole (blank.blanks_sub (by omega) (by omega))]
      · refine ⟨0, byte.bind_read ?_, fun blank => absurd ?_ erased⟩
        · rw [if_pos erased]
          exact FlashProg.Exec.pure _
        · exact (@Holds.blanks_sub _ _ _ _ 1 blank (Nat.le_refl _) (by omega)).slice_eq rfl

theorem sectorBlankScan_any (memory : Memory) (on : OnRing rb ring) :
    ∃ count, (sectorBlankScan rb).Exec (fun _ => True) memory [] count ∧
      ∀ k, rb.next = 4096 * k → Holds memory (ring.sectorAddr k) (blanks 4096) →
        4096 ≤ count := by
  obtain ⟨count, exec, whole⟩ := countBlanks_any memory (4096 - rb.next % 4096)
    (rb.baseAddress + rb.next)
  obtain ⟨further, execFurther, -⟩ := countBlanks_any memory 4096 (rb.baseAddress +
    if 4096 * (rb.next / 4096) + 4096 ≥ rb.numberOfBytes then 0
    else 4096 * (rb.next / 4096) + 4096)
  have erased : ∀ k, rb.next = 4096 * k → Holds memory (ring.sectorAddr k) (blanks 4096) →
      count = 4096 := by
    intro k next blank
    have size : 4096 - rb.next % 4096 = 4096 := by omega
    rw [size] at whole
    refine whole ?_
    rw [on.base_eq, next]
    exact blank
  simp only [sectorBlankScan, flashSectorSize, modSector_eq, flashSector_eq]
  by_cases through : count = 4096 - rb.next % 4096
  · refine ⟨count + further, exec.bind_read ?_, fun k next blank => ?_⟩
    · rw [if_pos through]
      exact execFurther.bind_read (FlashProg.Exec.pure _)
    · have := erased k next blank
      omega
  · refine ⟨count, exec.bind_read ?_, fun k next blank => ?_⟩
    · rw [if_neg through]
      exact FlashProg.Exec.pure _
    · exact Nat.le_of_eq (erased k next blank).symm

/-! ## Placing a record -/

/-- How an append into a sector ends: a failure wrote nothing, and a sector that is erased as
a whole has room. -/
structure SectorAppended (memory : Memory) (ring : Geometry) (next : Nat) (writes : List Op)
    (result : RbError × RbT) : Prop where
  on : OnRing result.2 ring
  quiet : result.1 ≠ .ok → writes = []
  room : result.1 = .wrappedSectorUsed ∨ result.1 = .full → ∀ k, next = 4096 * k →
    ¬Holds memory (ring.sectorAddr k) (blanks 4096)

theorem SectorAppended.of_ok {memory : Memory} {next : Nat} {writes : List Op}
    (on : OnRing rb ring) : SectorAppended memory ring next writes (.ok, rb) :=
  ⟨on, fun failed => absurd rfl failed, by simp⟩

private theorem appendInSector_any (memory : Memory) (on : OnRing rb ring)
    (inside : rb.next < 4096 * ring.sectors) (hdr : RbHeader) (data : Memory) (size : Nat) :
    FlashProg.Finishes (fun _ => appendInSector rb hdr data size) memory
      (SectorAppended memory ring rb.next) := by
  simp only [appendInSector]
  refine (writeHeaders_any memory on inside hdr size _).bind ?_
  rintro writes ⟨status, hdr', rb'⟩ ⟨rfl, on', next'⟩
  simp only at on' next'
  simp only [ne_eq, not_true_eq_false, if_false]
  refine (rbAppendPage_any (replay writes memory) on'
    (by rw [next']; exact Nat.mod_lt _ (by omega)) _).mono ?_
  rintro writes' ⟨status, rb''⟩ ⟨rfl, on'', next''⟩
  exact .of_ok on''

/-- The look at the start of another sector. -/
private theorem fetchNext_any (memory : Memory) (on : OnRing rb ring) (inRing : k < ring.sectors) :
    ∃ status header moved, (moved = 0 ∨ moved = 4) ∧
      (fetchAndCheckHeader rb ((4096 * k : Nat) - (rb.next : Int))).Exec ring.region memory []
        (status, header, { rb with next := rb.next + moved }) := by
  by_cases good : sectorStatus memory (ring.sectorAddr k) = .ok
  · exact ⟨_, _, 4, .inr rfl, fetch_start_next on inRing _ (by omega) good⟩
  · exact ⟨_, _, 0, .inl rfl, fetch_start_stop on inRing _ (by omega) good⟩

/-- The two pieces of a record that spans a sector end take up all of it. -/
private theorem appendAcross_any (memory : Memory) (on : OnRing rb ring)
    (inRing : k < ring.sectors) (next : rb.next = 4096 * k + offset) (positive : 0 < offset)
    (room : offset ≤ 4091) {size : Nat} (spills : 4092 - offset ≤ size) (short : size ≤ 4088)
    (again : Nat → RbT → RbHeader → Memory → Nat → FlashProg (RbError × RbT)) (hdr : RbHeader)
    (data : Memory) :
    FlashProg.Finishes (fun fuel => appendAcross (again fuel) rb hdr data size) memory
      (SectorAppended memory ring rb.next) := by
  have sector : 4096 * (rb.next / 4096) = 4096 * k := by omega
  have position : rb.next % 4096 = offset := by omega
  have wrapped := ring.wrapped_succ inRing
  have first : min (4096 - offset - 4) size = 4092 - offset := by omega
  have target := ring.succ_lt inRing
  obtain ⟨status, header, moved, amount, fetched⟩ := fetchNext_any memory on target
  simp only [appendAcross, flashSectorSize, flashSector_eq, modSector_eq, headerSize, sector,
    position, on.bytes_eq, wrapped, first]
  refine fetched.bind_finishes ?_
  by_cases blank : status = .blankHdr
  · have bound := @Geometry.offset_lt ring _ (offset + moved) inRing (by omega)
    have landing : (4096 * k + offset + moved + 4 + (4092 - offset)) % (4096 * ring.sectors) =
        4096 * ring.succ k + moved := by
      have behind : 4096 * k + offset + moved + 4 + (4092 - offset) = 4096 * (k + 1) + moved := by
        omega
      rw [behind]
      rcases ring.succ_cases inRing with ⟨last, succ⟩ | ⟨more, succ⟩
      · rw [last, succ, Nat.add_mod_left, Nat.mod_eq_of_lt (by omega)]
        omega
      · rw [succ, Nat.mod_eq_of_lt (by omega)]
    have inside : rb.next + moved < 4096 * ring.sectors := by omega
    simp only [if_pos blank]
    refine (@writeHeaders_any { rb with next := rb.next + moved } ring memory
      ⟨on.base_eq, on.bytes_eq⟩ inside hdr _ _).bind ?_
    rintro writes ⟨status, hdr', rb'⟩ ⟨rfl, on', next'⟩
    simp only [next, if_neg (show ¬(4096 * k + offset + moved) % 4096 = 0 by omega)] at on' next'
    simp only [ne_eq, not_true_eq_false, if_false]
    refine (rbAppendPage_any _ on' (by rw [next']; exact Nat.mod_lt _ (by omega)) _).bind ?_
    rintro writes' ⟨status, rb''⟩ ⟨rfl, on'', next''⟩
    simp only [next', slice_length, Nat.mod_add_mod, landing] at on'' next''
    have second : min (size - (4092 - offset)) (4096 - rb''.next % 4096 - 4) =
        size - (4092 - offset) := by omega
    have rest : ¬size - (4092 - offset) - (size - (4092 - offset)) > 0 := by omega
    simp only [not_true_eq_false, if_false, second, rest]
    refine (writeHeaders_any _ on'' (by rw [next'']; have := ring.start_lt target; omega) hdr' _
      _).bind ?_
    rintro writes₂ ⟨status, hdr₂, rb₂⟩ ⟨-, on₂, next₂⟩
    simp only at on₂ next₂
    refine (rbAppendPage_any _ on₂ (by rw [next₂]; exact Nat.mod_lt _ (by omega)) _).bind ?_
    rintro writes₃ ⟨status, rb₃⟩ ⟨rfl, on₃, -⟩
    exact .pure (.of_ok on₃)
  · have onward : ∀ j, rb.next = 4096 * j → ¬Holds memory (ring.sectorAddr j) (blanks 4096) :=
      fun j start => by omega
    simp only [if_neg blank]
    by_cases used : status = .ok
    · simp only [if_pos used]
      exact .pure ⟨⟨on.base_eq, on.bytes_eq⟩, fun _ => rfl, fun _ => onward⟩
    · simp only [if_neg used]
      exact .pure ⟨⟨on.base_eq, on.bytes_eq⟩, fun _ => rfl, fun _ => onward⟩

variable (memory : Memory) in
/-- `rb_sector_append` at a place for a header. -/
theorem rbSectorAppend_any (on : OnRing rb ring) (place : HeaderPlace ring rb.next)
    (hdr : RbHeader) (data : Memory) (size : Nat) :
    FlashProg.Finishes (fun fuel => rbSectorAppend fuel rb hdr data size) memory
      (SectorAppended memory ring rb.next) := by
  obtain ⟨k, inRing, offset, room, next⟩ := place.cases
  have position : rb.next % 4096 = offset := by omega
  refine .succ ?_
  simp only [rbSectorAppend, flashSectorSize, modSector_eq, headerSize, rbMaxAppendSize, position]
  by_cases refused : size = 0 ∨ hdr.id = 0xff ∨ size + 4 > rb.numberOfBytes ∨
      size > 4096 - 4 - 4
  · simp only [if_pos refused]
    exact .pure ⟨on, fun _ => rfl, by simp⟩
  have short : size ≤ 4088 := by
    have := not_or.mp (not_or.mp (not_or.mp refused).2).2
    omega
  obtain ⟨count, scan, erased⟩ := sectorBlankScan_any memory on
  simp only [if_neg refused]
  refine scan.bind_finishes ?_
  by_cases full : count < size + 4
  · simp only [if_pos full]
    refine .pure ⟨on, fun _ => rfl, fun _ j start blank => ?_⟩
    have := erased j start blank
    omega
  by_cases fits : size + 4 < 4096 - offset
  · simp only [if_neg full, if_pos fits]
    exact appendInSector_any memory on place.lt hdr data size
  · simp only [if_neg full, if_neg fits]
    exact appendAcross_any memory on inRing next (by omega) room (by omega) short
      (fun fuel => rbSectorAppend fuel) hdr data

/-! ## Searching the write position -/

/-- A search leaves the cursor at a place for a header. -/
structure Searched (ring : Geometry) (writes : List Op) (result : RbError × RbT) : Prop where
  quiet : writes = []
  on : OnRing result.2 ring
  place : HeaderPlace ring result.2.next

private theorem findnextWriteableLoop_any (memory : Memory) {home next : Nat}
    (homeInRing : home < ring.sectors) (place : HeaderPlace ring next) :
    ∀ rb, OnRing rb ring → rb.next = next →
      FlashProg.Finishes (fun fuel => findnextWriteableLoop (4096 * home) fuel rb) memory
        (Searched ring) := by
  refine HeaderPlace.induction homeInRing ?_ place
  intro k inRing offset room further rb on next
  have position : ¬rb.next % 4096 > 4096 - 4 - 1 := by omega
  obtain ⟨status, header, found, bound, good, fetched⟩ := fetch_any memory on inRing room next
  have on' : ∀ next, OnRing { rb with next } ring := fun _ => ⟨on.base_eq, on.bytes_eq⟩
  refine .succ ?_
  simp only [findnextWriteableLoop, modSector_eq, flashSectorSize, headerSize, if_neg position]
  refine fetched.bind_finishes ?_
  by_cases stopped : status ≠ .ok
  · simp only [if_pos stopped]
    exact .pure ⟨rfl, on' _, HeaderPlace.of_offset inRing bound⟩
  obtain ⟨stands, long⟩ := good (not_not.mp stopped)
  have moved : rbIncr (4096 * k + found) (header.len + 4) rb.numberOfBytes =
      ring.resume k (found + (header.len + 4)) := by
    rw [on.bytes_eq, rbIncr_resume ring _ inRing (by omega)]
  simp only [if_neg stopped, moved]
  by_cases back : ring.resume k (found + (header.len + 4)) = 4096 * home
  · have start : 4096 * (4096 * home / 4096) = 4096 * home := by omega
    simp only [flashSector_eq, back, start]
    exact .pure ⟨rfl, on' _, HeaderPlace.start homeInRing⟩
  · simp only [if_neg back]
    rw [next] at stands
    exact further found _ bound stands (by omega) back
      { rb with next := ring.resume k (found + (header.len + 4)) } (on' _) rfl

/-- `rb_findnext_writeable` from the start of a sector; it stays there if the sector is
blank. -/
theorem rbFindnextWriteable_any (memory : Memory) (on : OnRing rb ring)
    (inRing : k < ring.sectors) (next : rb.next = 4096 * k) :
    FlashProg.Finishes (fun fuel => rbFindnextWriteable fuel rb) memory fun writes result =>
      Searched ring writes result ∧
        (sectorStatus memory (ring.sectorAddr k) = .blankHdr → result.2.next = 4096 * k) := by
  have place : HeaderPlace ring (4096 * k) := HeaderPlace.start inRing
  have inside : (FlashProg.check (rb.next < rb.numberOfBytes)).Exec (fun _ => True) memory []
      () := FlashProg.Exec.check (decide_eq_true (by rw [next, on.bytes_eq]; exact place.lt))
  simp only [rbFindnextWriteable]
  refine inside.bind_finishes ?_
  by_cases blank : sectorStatus memory (ring.sectorAddr k) = .blankHdr
  · have stop := fetch_start_stop on inRing 0 (by omega) (by rw [blank]; decide)
    have position : ¬rb.next % 4096 > 4096 - 4 - 1 := by omega
    refine .succ ?_
    simp only [findnextWriteableLoop, modSector_eq, flashSectorSize, headerSize, if_neg position]
    refine stop.bind_finishes ?_
    simp only [blank, ne_eq, reduceCtorEq, not_false_eq_true, if_true]
    exact .pure ⟨⟨rfl, on, by rw [next]; exact place⟩, fun _ => next⟩
  · rw [next]
    exact (findnextWriteableLoop_any memory inRing place rb on next).mono
      fun _ _ searched => ⟨searched, fun erased => absurd erased blank⟩

/-! ## The scan for the oldest sector -/

/-- Sector indices found in the flash. -/
def headerIndex (memory : Memory) (ring : Geometry) (k : Nat) : Option Nat :=
  if sectorStatus memory (ring.sectorAddr k) = .ok then
    some (sectorWord memory (ring.sectorAddr k)).getIndex
  else none

/-- No sector header is corrupt. -/
def GoodHeaders (memory : Memory) (ring : Geometry) : Prop :=
  ∀ k < ring.sectors, sectorStatus memory (ring.sectorAddr k) ≠ .badHdr

/-- The last sector with a corrupt header. -/
structure LastBad (memory : Memory) (ring : Geometry) (k : Nat) : Prop where
  lt : k < ring.sectors
  bad : sectorStatus memory (ring.sectorAddr k) = .badHdr
  above : ∀ j, k < j → j < ring.sectors → sectorStatus memory (ring.sectorAddr j) ≠ .badHdr

theorem LastBad.unique {memory : Memory} {other : Nat} (left : LastBad memory ring k)
    (right : LastBad memory ring other) : k = other := by
  rcases Nat.lt_trichotomy k other with below | equal | above
  · exact absurd right.bad (left.above other below right.lt)
  · exact equal
  · exact absurd left.bad (right.above k above left.lt)

theorem sectorStatus_cases (memory : Memory) (address : Nat) :
    sectorStatus memory address = .ok ∨ sectorStatus memory address = .blankHdr ∨
      sectorStatus memory address = .badHdr := by
  simp only [sectorStatus, isSectorHeaderGood]
  split
  · exact .inr (.inl rfl)
  · split
    · exact .inl rfl
    · exact .inr (.inr rfl)

theorem GoodHeaders.headersAre {memory : Memory} (good : GoodHeaders memory ring) :
    HeadersAre memory ring (headerIndex memory ring) where
  blank k inRing none := by
    rcases sectorStatus_cases memory (ring.sectorAddr k) with ok | blank | bad
    · simp [headerIndex, ok] at none
    · exact blank
    · exact absurd bad (good k inRing)
  used k inRing index some := by
    simp only [headerIndex] at some
    split at some
    · exact ⟨‹_›, Option.some.inj some⟩
    · cases some

theorem goodHeaders_or_lastBad (memory : Memory) (ring : Geometry) :
    GoodHeaders memory ring ∨ ∃ k, LastBad memory ring k := by
  have scan : ∀ count ≤ ring.sectors,
      (∀ j, ring.sectors - count ≤ j → j < ring.sectors →
        sectorStatus memory (ring.sectorAddr j) ≠ .badHdr) ∨ ∃ k, LastBad memory ring k := by
    intro count
    induction count with
    | zero => exact fun _ => .inl fun j low high => by omega
    | succ count ih =>
        intro bound
        rcases ih (by omega) with above | found
        · by_cases bad : sectorStatus memory (ring.sectorAddr (ring.sectors - (count + 1))) =
              .badHdr
          · exact .inr ⟨_, by omega, bad, fun j low high => above j (by omega) high⟩
          · refine .inl fun j low high => ?_
            by_cases equal : j = ring.sectors - (count + 1)
            · rw [equal]
              exact bad
            · exact above j (by omega) high
        · exact .inr found
  rcases scan ring.sectors (Nat.le_refl _) with good | found
  · exact .inl fun k inRing => good k (by omega) inRing
  · exact .inr found

/-- The scan stops at a corrupt header. -/
private theorem findRingOldestLoop_bad {memory : Memory} {last : Nat}
    (bad : LastBad memory ring last) (remaining : Nat) :
    ∀ (rb : RbT) (oldnext lowest : Nat) (status : RbError), OnRing rb ring →
      last < remaining → remaining ≤ ring.sectors → ∃ index,
      (findRingOldestLoop remaining oldnext lowest status rb).Exec ring.region memory []
        (.badHdr, { rb with next := 4096 * last, sectorIndex := index }) := by
  induction remaining with
  | zero => intro rb oldnext lowest status on below; omega
  | succ remaining ih =>
      intro rb oldnext lowest status on below bound
      have inRing : remaining < ring.sectors := by omega
      have word := @readSectorWord_exec rb ring memory ring.region on (fun _ inside => inside)
        remaining inRing
      have status_eq : isSectorHeaderGood (RbSectorHeader.ofBytes
          (slice memory (rb.baseAddress + 4096 * remaining) 4)) =
          sectorStatus memory (ring.sectorAddr remaining) := by
        rw [on.base_eq]
        rfl
      simp only [findRingOldestLoop, flashSectorSize, headerSize]
      by_cases here : remaining = last
      · subst here
        refine ⟨rb.sectorIndex, word.bind_read ?_⟩
        rw [status_eq, bad.bad, if_neg (by decide), if_neg (by decide)]
        exact FlashProg.Exec.pure _
      · have later := ih { rb with next := 4096 * remaining } oldnext lowest .blankHdr
          ⟨on.base_eq, on.bytes_eq⟩ (by omega) (by omega)
        rcases sectorStatus_cases memory (ring.sectorAddr remaining) with ok | blank | corrupt
        · obtain ⟨index, exec⟩ := ih
            { rb with
              next := 4096 * remaining
              sectorIndex := max rb.sectorIndex (RbSectorHeader.ofBytes
                (slice memory (rb.baseAddress + 4096 * remaining) 4)).getIndex }
            (if (RbSectorHeader.ofBytes
              (slice memory (rb.baseAddress + 4096 * remaining) 4)).getIndex < lowest
              then 4096 * remaining else oldnext)
            (if (RbSectorHeader.ofBytes
              (slice memory (rb.baseAddress + 4096 * remaining) 4)).getIndex < lowest
              then (RbSectorHeader.ofBytes
                (slice memory (rb.baseAddress + 4096 * remaining) 4)).getIndex else lowest)
            .ok ⟨on.base_eq, on.bytes_eq⟩ (by omega) (by omega)
          have raised := raiseIndex_eq { rb with next := 4096 * remaining }
            (RbSectorHeader.ofBytes
              (slice memory (rb.baseAddress + 4096 * remaining) 4)).getIndex
          simp only at raised
          refine ⟨index, word.bind_read ?_⟩
          rw [status_eq, ok, if_pos rfl, raised]
          exact exec
        · obtain ⟨index, exec⟩ := later
          refine ⟨index, word.bind_read ?_⟩
          rw [status_eq, blank, if_neg (by decide), if_pos rfl]
          exact exec
        · exact absurd corrupt (bad.above remaining (by omega) inRing)

/-- The scan returns at the last corrupt header with the cursor there. -/
theorem rbFindRingOldestSector_bad {memory : Memory} (on : OnRing rb ring)
    (bad : LastBad memory ring k) : ∃ index,
    (rbFindRingOldestSector rb).Exec ring.region memory []
      (.badHdr, { rb with next := 4096 * k, sectorIndex := index }) := by
  have sectors : rb.numberOfBytes / flashSectorSize = ring.sectors := by
    rw [on.bytes_eq, flashSectorSize]
    omega
  rw [rbFindRingOldestSector, sectors]
  exact findRingOldestLoop_bad bad ring.sectors rb 0 rbIndexMask .badHdr on bad.lt
    (Nat.le_refl _)

/-! ## Erasing -/

/-- Sectors that are not erased as a whole. -/
def dirtySectors (memory : Memory) (ring : Geometry) : Finset Nat :=
  (Finset.range ring.sectors).filter fun k => slice memory (ring.sectorAddr k) 4096 ≠ blanks 4096

theorem mem_dirtySectors {memory : Memory} :
    k ∈ dirtySectors memory ring ↔
      k < ring.sectors ∧ ¬Holds memory (ring.sectorAddr k) (blanks 4096) := by
  have holds : Holds memory (ring.sectorAddr k) (blanks 4096) ↔
      slice memory (ring.sectorAddr k) 4096 = blanks 4096 := by
    rw [Holds, blanks_length]
  rw [dirtySectors, Finset.mem_filter, Finset.mem_range, holds]

section Erase

variable {memory : Memory} {erased : Nat}

theorem slice_eraseSector (memory : Memory) {size : Nat} (other : k ≠ erased)
    (inSector : size ≤ 4096) :
    slice (eraseRange memory (ring.sectorAddr erased) 4096) (ring.sectorAddr k) size =
      slice memory (ring.sectorAddr k) size := by
  refine slice_congr fun query lower upper => ?_
  simp only [Geometry.sectorAddr] at lower upper ⊢
  rcases Nat.lt_or_gt_of_ne other with before | behind
  · exact eraseRange_of_lt _ _ (by omega)
  · exact eraseRange_of_le _ (by omega)

/-- Erasing a sector that was in use leaves fewer of them. -/
theorem dirtySectors_erase (dirty : erased ∈ dirtySectors memory ring) :
    (dirtySectors (eraseRange memory (ring.sectorAddr erased) 4096) ring).card <
      (dirtySectors memory ring).card := by
  refine Finset.card_lt_card (Finset.ssubset_iff_of_subset ?_ |>.mpr ⟨erased, dirty, ?_⟩)
  · intro k left
    obtain ⟨inRing, used⟩ := mem_dirtySectors.mp left
    refine mem_dirtySectors.mpr ⟨inRing, fun blank => used ?_⟩
    by_cases same : k = erased
    · rw [same]
      exact holds_eraseRange _ _ _
    · rw [Holds, blanks_length, slice_eraseSector memory same (Nat.le_refl _)]
      exact blank.slice_eq (blanks_length _)
  · exact fun left => (mem_dirtySectors.mp left).2 (holds_eraseRange _ _ _)

theorem GoodHeaders.erase (good : GoodHeaders memory ring) :
    GoodHeaders (eraseRange memory (ring.sectorAddr erased) 4096) ring := by
  intro k inRing
  by_cases same : k = erased
  · rw [same, sectorStatus_blank ((holds_eraseRange _ _ _).blanks_sub (Nat.le_refl _) (by omega))]
    decide
  · rw [sectorStatus, sectorWord, slice_eraseSector memory same (by omega)]
    exact good k inRing

end Erase

/-! ## `rb_append` -/

/-- How an append ends once no header stops the scan: the cursor is back, and without leave
to erase a failure wrote nothing. -/
structure AppendReturns (ring : Geometry) (eraseIfFull : Bool) (oldnext : Nat) (writes : List Op)
    (result : RbError × RbT) : Prop where
  on : OnRing result.2 ring
  next_eq : result.2.next = oldnext
  quiet : eraseIfFull = false → result.1 ≠ .ok → writes = []

variable {id : Byte} {data : Memory} {size oldnext : Nat} {eraseIfFull : Bool}

/-- Erasing the oldest sector. -/
private theorem eraseOldest_any (memory : Memory) (good : GoodHeaders memory ring)
    (on : OnRing rb ring) {oldest : Nat}
    (found : oldest = oldestSector (headerIndex memory ring) ring.sectors) :
    ∃ status rb', OnRing rb' ring ∧ rb'.next = 4096 * oldest ∧
      (status = .ok ∨ status = .blankHdr) ∧
      (rbFindRingOldestSector rb).Exec ring.region memory [] (status, rb') ∧
      FlashProg.Finishes
        (fun _ => FlashProg.eraseBytes (rb'.baseAddress + rb'.next) flashSectorSize) memory
        fun writes _ => writes = [.erase (ring.sectorAddr oldest) 4096] := by
  have scan := rbFindRingOldestSector_exec on good.headersAre fun _ inside => inside
  have address : rb.baseAddress + 4096 * oldest = ring.sectorAddr oldest := by
    rw [on.base_eq, Geometry.sectorAddr]
  refine ⟨_, _, ?_, ?_, entryStatus_eq_ok_or _, scan, ?_⟩
  · exact ⟨on.base_eq, on.bytes_eq⟩
  · rw [found]
  · simp only [← found, address]
    have exec := @FlashProg.Exec.eraseBytes (fun _ => True) memory (ring.sectorAddr oldest)
      flashSectorSize fun _ _ => trivial
    exact exec.finishes rfl

/-- One pass behind the search; the next pass is only asked for a flash with one more erased
sector. -/
private theorem appendAtWriteable_any {memory : Memory} (good : GoodHeaders memory ring)
    (oldest : Nat) (found : oldest = oldestSector (headerIndex memory ring) ring.sectors)
    {again : Nat → RbT → FlashProg (RbError × RbT)}
    (retry : eraseIfFull = true → oldest ∈ dirtySectors memory ring → ∀ rb, OnRing rb ring →
      FlashProg.Finishes (fun fuel => again fuel rb)
        (eraseRange memory (ring.sectorAddr oldest) 4096)
        (AppendReturns ring eraseIfFull oldnext))
    (on : OnRing rb ring) (place : HeaderPlace ring rb.next)
    (stays : sectorStatus memory (ring.sectorAddr oldest) = .blankHdr →
      rb.next = 4096 * oldest) (status : RbError) :
    FlashProg.Finishes (fun fuel => appendAtWriteable id data size eraseIfFull oldnext fuel
      (again fuel) status rb) memory (AppendReturns ring eraseIfFull oldnext) := by
  have oldestInRing : oldest < ring.sectors := by
    rw [found]
    exact oldestSector_lt _ ring.sectors_pos
  by_cases around : status = .hdrLoop ∧ eraseIfFull = true
  · obtain ⟨scanStatus, rb', on', next', -, scan, erase⟩ := eraseOldest_any memory good on found
    have start : HeaderPlace ring rb'.next := by
      rw [next']
      exact HeaderPlace.start oldestInRing
    simp only [appendAtWriteable, if_pos around]
    refine scan.bind_finishes ?_
    refine erase.bind ?_
    rintro writes ⟨⟩ rfl
    refine FlashProg.Exec.bind_finishes (@FlashProg.Exec.pure _ (fun _ => True) _ _) ?_
    simp only [if_true]
    refine (rbSectorAppend_any _ on' start _ data size).bind ?_
    rintro writes ⟨refusal, rb''⟩ placed
    have room : ¬((refusal = .wrappedSectorUsed ∨ refusal = .full) ∧ eraseIfFull = true) :=
      fun refused => placed.room refused.1 oldest next' (holds_eraseRange _ _ _)
    simp only [if_neg room]
    exact .pure ⟨⟨placed.on.base_eq, placed.on.bytes_eq⟩, rfl, fun keep => by
      rw [around.2] at keep
      cases keep⟩
  · simp only [appendAtWriteable, if_neg around]
    refine FlashProg.Exec.bind_finishes (@FlashProg.Exec.pure _ (fun _ => True) _ _) ?_
    by_cases blank : status = .blankHdr
    · simp only [if_pos blank]
      refine (rbSectorAppend_any _ on place _ data size).bind ?_
      rintro writes ⟨refusal, rb''⟩ placed
      simp only
      by_cases refused : (refusal = .wrappedSectorUsed ∨ refusal = .full) ∧ eraseIfFull = true
      · have failed : refusal ≠ .ok := by
          rcases refused.1 with rfl | rfl <;> decide
        obtain rfl := placed.quiet failed
        obtain ⟨scanStatus, rb', on', next', -, scan, erase⟩ :=
          eraseOldest_any memory good placed.on found
        have dirty : oldest ∈ dirtySectors memory ring := by
          refine mem_dirtySectors.mpr ⟨oldestInRing, fun erased => ?_⟩
          have header := sectorStatus_blank (erased.blanks_sub (Nat.le_refl _) (by omega))
          exact placed.room refused.1 oldest (stays header) erased
        simp only [if_pos refused, replay_nil]
        refine scan.bind_finishes ?_
        refine erase.bind ?_
        rintro writes ⟨⟩ rfl
        refine (retry refused.2 dirty rb' on').mono fun later result returns => ?_
        exact ⟨returns.on, returns.next_eq, fun keep => by
          rw [refused.2] at keep
          cases keep⟩
      · simp only [if_neg refused]
        refine .pure ⟨⟨placed.on.base_eq, placed.on.bytes_eq⟩, rfl, fun _ failed => ?_⟩
        rw [placed.quiet failed, List.append_nil]
    · simp only [if_neg blank]
      exact .pure ⟨⟨on.base_eq, on.bytes_eq⟩, rfl, fun _ _ => rfl⟩

/-- The retry loop returns: every pass but the last erases a sector that was in use. -/
private theorem rbAppendLoop_any (count : Nat) :
    ∀ {memory : Memory}, (dirtySectors memory ring).card = count → GoodHeaders memory ring →
      ∀ rb, OnRing rb ring → FlashProg.Finishes (fun fuel => rbAppendLoop id data size
        eraseIfFull oldnext fuel rb) memory (AppendReturns ring eraseIfFull oldnext) := by
  induction count using Nat.strongRecOn with
  | ind count fewer =>
  intro memory measure good rb on
  subst measure
  have scan := rbFindRingOldestSector_exec on good.headersAre fun _ inside => inside
  have proceeds : ¬(entryStatus (headerIndex memory ring 0) ≠ .ok ∧
      entryStatus (headerIndex memory ring 0) ≠ .blankHdr) := by
    rintro ⟨notOk, notBlank⟩
    exact (entryStatus_eq_ok_or _).elim notOk notBlank
  have oldestInRing := oldestSector_lt (headerIndex memory ring) ring.sectors_pos
  refine .succ ?_
  simp only [rbAppendLoop]
  refine scan.bind_finishes ?_
  simp only [if_neg proceeds]
  have search := @rbFindnextWriteable_any
    { rb with
      next := 4096 * oldestSector (headerIndex memory ring) ring.sectors
      sectorIndex := topIndex (headerIndex memory ring) (List.range ring.sectors).reverse
        rb.sectorIndex } ring _ memory ⟨on.base_eq, on.bytes_eq⟩ oldestInRing rfl
  refine search.bind ?_
  rintro writes ⟨status, rb'⟩ ⟨⟨rfl, on', place⟩, stays⟩
  exact appendAtWriteable_any good _ rfl (fun _ dirty rb on =>
    fewer _ (dirtySectors_erase dirty) rfl good.erase rb on) on' place stays status

/-- `rb_append` refuses its arguments. -/
def rbAppendRejects (rb : RbT) (id : Byte) (size : Nat) : Prop :=
  size = 0 ∨ id = 0xff ∨ size > rb.numberOfBytes - headerSize

instance (rb : RbT) (id : Byte) (size : Nat) : Decidable (rbAppendRejects rb id size) :=
  inferInstanceAs (Decidable (_ ∨ _ ∨ _))

/-- `rb_append` returns on every flash.  It gives the cursor back unless a corrupt sector
header stops its first scan. -/
theorem rbAppend_any (memory : Memory) (on : OnRing rb ring) (id : Byte) (data : Memory)
    (size : Nat) (pagebuffer : Memory) (eraseIfFull : Bool) :
    FlashProg.Finishes (fun fuel => rbAppend fuel rb id data size pagebuffer eraseIfFull) memory
      fun writes result =>
        (eraseIfFull = false → result.1 ≠ .ok → writes = []) ∧
        (rbAppendRejects rb id size ∨ GoodHeaders memory ring → result.2.next = rb.next) ∧
        (¬rbAppendRejects rb id size → ∀ last, LastBad memory ring last →
          result.2.next = 4096 * last) := by
  by_cases rejected : rbAppendRejects rb id size
  · simp only [rbAppend, if_pos (show _ ∨ _ ∨ _ from rejected)]
    exact .pure ⟨fun _ _ => rfl, fun _ => rfl, fun accepted => absurd rejected accepted⟩
  simp only [rbAppend, if_neg (show ¬(_ ∨ _ ∨ _) from rejected)]
  rcases goodHeaders_or_lastBad memory ring with good | ⟨last, bad⟩
  · refine (rbAppendLoop_any _ rfl good { rb with rbPage := pagebuffer }
      ⟨on.base_eq, on.bytes_eq⟩).mono fun writes result returns => ?_
    exact ⟨returns.quiet, fun _ => returns.next_eq, fun _ last bad =>
      absurd bad.bad (good last bad.lt)⟩
  · obtain ⟨index, scan⟩ := @rbFindRingOldestSector_bad { rb with rbPage := pagebuffer } ring
      last memory ⟨on.base_eq, on.bytes_eq⟩ bad
    refine .succ ?_
    simp only [rbAppendLoop]
    refine scan.bind_finishes ?_
    simp only [ne_eq, reduceCtorEq, not_false_eq_true, and_self, if_true]
    refine .pure ⟨fun _ _ => rfl, fun sound => ?_, fun _ other badOther => ?_⟩
    · rcases sound with reject | good
      · exact absurd reject rejected
      · exact absurd bad.bad (good last bad.lt)
    · rw [bad.unique badOther]

/-- An append without leave to erase that fails leaves every byte as it was. -/
theorem refused_append_keeps_flash (memory : Memory) (on : OnRing rb ring) (id : Byte)
    (data : Memory) (size : Nat) (pagebuffer : Memory) :
    FlashProg.Finishes (fun fuel => rbAppend fuel rb id data size pagebuffer false) memory
      fun writes result => result.1 ≠ .ok → writes = [] ∧ replay writes memory = memory := by
  refine (rbAppend_any memory on id data size pagebuffer false).mono ?_
  intro writes result holds failed
  obtain rfl := holds.1 rfl failed
  exact ⟨rfl, rfl⟩

theorem refused_append_keeps_flash_zeros :
    FlashProg.Finishes (fun fuel => rbAppend fuel (opened .zeroed pairRing) 1 (fun _ => 0) 4000
        (fun _ => 0) false) (fun _ => 0)
      fun writes result => result.1 ≠ .ok →
        writes = [] ∧ replay writes (fun _ => 0) = fun _ => 0 :=
  refused_append_keeps_flash (fun _ => 0) (onRing_opened _ _) 1 (fun _ => 0) 4000 fun _ => 0

end AnyAppend

end PicoApConfigure.RingBuffer
