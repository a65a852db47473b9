import PicoApConfigure.RingBuffer.Reach

/-!
# Opening a ring in order

A ring in order passes the check when it has an erased sector or starts in sector 0.  Otherwise
the order scan goes on with the word behind the ring, which must not be a sector header.
-/

namespace PicoApConfigure.RingBuffer

open Nor

/-- What makes the check of a log that starts in sector `start` stay in the ring or find nothing
behind it. -/
def Passes (ring : Geometry) (memory : Memory) (start : Nat) (log : List Sector) : Prop :=
  log.length < ring.sectors ∨ start = 0 ∨ sectorStatus memory ring.behind ≠ .ok

section Reopen

variable {ring : Geometry} {memory : Memory} {cells : Nat → Option Sector} {start : Nat}
  {log : List Sector} {device : Device} {baseAddress numberOfSectors : Nat}
  {choice : InitChoice}

/-- The sectors up to the ring end are in order. -/
theorem Ordered.ascends (ordered : Ordered ring cells start log)
    (used : log.length = ring.sectors) (remaining : Nat) :
    ∀ {distance low : Nat}, start + distance + remaining = ring.sectors →
      (∀ sector ∈ log.drop distance, low ≤ sector.index) →
      RingBuffer.ascends (indexOf cells) remaining (start + distance) low = true := by
  induction remaining with
  | zero => intros; rfl
  | succ remaining ih =>
      intro distance low place above
      have bound : distance < log.length := by omega
      have here : ring.ahead start distance = start + distance := by
        rw [Geometry.ahead, if_pos (by omega)]
      have cell := ordered.cell distance (by omega)
      rw [here, List.getElem?_eq_getElem bound] at cell
      have rest := @ih (distance + 1) log[distance].index (by omega) (by
        intro sector member
        obtain ⟨later, position, rfl⟩ := List.getElem_of_mem member
        rw [List.getElem_drop]
        rw [List.length_drop] at position
        exact Nat.le_of_lt (List.pairwise_iff_getElem.mp ordered.ascending _ _ bound (by omega)
          (by omega)))
      have first := above log[distance] (by
        rw [List.drop_eq_getElem_cons bound]
        exact List.mem_cons_self ..)
      simp only [RingBuffer.ascends, indexOf, cell, Option.map_some, first, decide_true,
        Bool.true_and]
      exact rest

theorem Ordered.all_used (ordered : Ordered ring cells start log)
    (used : log.length = ring.sectors) : ∀ k < ring.sectors, (indexOf cells k).isSome := by
  intro k inRing
  obtain ⟨distance, bound, rfl⟩ := ring.exists_ahead ordered.start_lt inRing
  rw [indexOf, ordered.cell distance bound, List.getElem?_eq_getElem (by omega)]
  rfl

/-- The check accepts a ring in order. -/
theorem Ordered.check_exec {rb : RbT} (on : OnRing rb ring)
    (holds : RingHolds memory ring cells) (ordered : Ordered ring cells start log)
    (passes : Passes ring memory start log) :
    ∃ rb', OnRing rb' ring ∧ rb'.sectorIndex =
        topIndex (indexOf cells) (List.range ring.sectors) rb.sectorIndex ∧
      (rbCheckSectorRing rb).Exec (fun _ => True) memory [] (.ok, rb') := by
  have headers := holds.carries.headersAre
  have length := ordered.length_le
  have oldestEq := ordered.oldest_eq
  rw [oldest] at oldestEq
  by_cases room : log.length < ring.sectors
  · have erased := ordered.cell log.length room
    rw [List.getElem?_eq_none (Nat.le_refl _)] at erased
    obtain ⟨rb', on', top, check⟩ := rbCheckSectorRing_blank_exec on headers
      ⟨_, ring.ahead_lt ordered.start_lt length, by simp [indexOf, erased]⟩
    exact ⟨rb', on', top, check.mono fun _ _ => trivial⟩
  have used : log.length = ring.sectors := by omega
  have all := ordered.all_used used
  by_cases first : start = 0
  · subst first
    have rises := @Ordered.ascends _ _ _ _ ordered used ring.sectors 0 0 (by omega)
      fun _ _ => Nat.zero_le _
    obtain ⟨rb', on', top, check⟩ := rbCheckSectorRing_first_exec on headers all oldestEq rises
    exact ⟨rb', on', top, check.mono fun _ _ => trivial⟩
  · have bad : sectorStatus memory ring.behind ≠ .ok := by
      rcases passes with free | zero | bad
      · exact absurd free room
      · exact absurd zero first
      · exact bad
    have rises := @Ordered.ascends _ _ _ _ ordered used (ring.sectors - start) 0 0
      (by have := ordered.start_lt; omega) fun _ _ => Nat.zero_le _
    rw [Nat.add_zero] at rises
    obtain ⟨rb', on', top, check⟩ := rbCheckSectorRing_rotated_exec on headers all
      (by rw [oldestEq]; omega) (by rw [oldestEq]; exact rises) fun good => absurd good bad
    exact ⟨rb', on', top, check.mono fun _ _ => trivial⟩

/-- Opening a ring in order reads from its oldest sector on. -/
theorem Ordered.create_exec (block : RbT) (holds : RingHolds memory ring cells)
    (ordered : Ordered ring cells start log) (passes : Passes ring memory start log)
    (opens : Opens ring baseAddress numberOfSectors) (keeps : choice ≠ .createInitAlways) :
    ∃ rb', OnRing rb' ring ∧ rb'.next = 4096 * start ∧
      rb'.sectorIndex = topOf ring cells
        (topIndex (indexOf cells) (List.range ring.sectors) block.sectorIndex) ∧
      (rbCreate block baseAddress numberOfSectors choice).Exec (fun _ => True) memory []
        (entryStatus (indexOf cells 0), rb') := by
  obtain ⟨checked, on, top, check⟩ := ordered.check_exec (onRing_opened block ring) holds
    passes
  obtain ⟨rb', on', next, index, create⟩ := rbCreate_check_exec choice opens keeps
    holds.carries.headersAre (fun _ _ => trivial) on check
  have oldestEq := ordered.oldest_eq
  rw [oldest] at oldestEq
  rw [oldestEq] at next
  rw [top] at index
  exact ⟨rb', on', next, index, create⟩

end Reopen

end PicoApConfigure.RingBuffer
