import PicoApConfigure.RingBuffer.RoundTrip

/-!
# Up to the blank header

In a ring with a blank header every walk comes to one before it is back in its first sector.
The sectors may be in any order.  What lies ahead of the cursor is a tape again, and a read goes
along it.
-/

namespace PicoApConfigure.RingBuffer

open Nor

/-- `marks` lies between the header position `next`, `distance` sectors ahead of `start`, and the
first blank header behind it. -/
inductive Ahead (ring : Geometry) (cells : Nat → Option Sector) (start : Nat) :
    (distance next : Nat) → List Mark → Prop
  | erased {distance : Nat} (bound : distance < ring.sectors)
      (cell : cells (ring.ahead start distance) = none) :
      Ahead ring cells start distance (4096 * ring.ahead start distance) []
  | ended {distance next : Nat} {sector : Sector} (bound : distance < ring.sectors)
      (cell : cells (ring.ahead start distance) = some sector) (room : sector.isFull = false)
      (stands : StandsAt (ring.ahead start distance) sector.used next) :
      Ahead ring cells start distance next []
  | fragment {distance reached next : Nat} {sector : Sector} {before after : List Fragment}
      {fragment : Fragment} {rest : List Mark} (bound : distance < ring.sectors)
      (cell : cells (ring.ahead start distance) = some sector)
      (frags : sector.frags = before ++ fragment :: after)
      (stands : StandsAt (ring.ahead start distance) (4 + fragsSize before) next)
      (moves : reached =
        if 4091 < 4 + fragsSize before + fragment.size then distance + 1 else distance)
      (behind : Ahead ring cells start reached (ring.resume (ring.ahead start distance)
        (4 + fragsSize before + fragment.size)) rest) :
      Ahead ring cells start distance next
        (⟨fragment, decide (4091 < 4 + fragsSize before + fragment.size)⟩ :: rest)

section Ahead

variable {ring : Geometry} {cells : Nat → Option Sector} {start distance next : Nat}
  {marks : List Mark}

theorem Ahead.bound (ahead : Ahead ring cells start distance next marks) :
    distance < ring.sectors := by
  cases ahead <;> assumption

theorem Ahead.cursor (start_lt : start < ring.sectors)
    (ahead : Ahead ring cells start distance next marks) : Cursor ring cells next := by
  have inRing := ring.ahead_lt start_lt (Nat.le_of_lt ahead.bound)
  cases ahead with
  | erased _ cell => exact .erased inRing cell
  | ended _ cell room stands => exact .ended inRing cell room stands
  | fragment _ cell frags stands => exact .fragment inRing cell frags stands

/-- The sector of a header position. -/
theorem Ahead.sector (ahead : Ahead ring cells start distance next marks) :
    next / 4096 = ring.ahead start distance := by
  cases ahead with
  | erased => omega
  | ended _ _ room stands =>
      rw [Sector.not_isFull_iff] at room
      rcases stands with rfl | ⟨_, rfl⟩ <;> omega
  | @fragment _ _ _ _ before after fragment _ _ _ frags stands =>
      have := fragment_offset frags
      have := fragment.size_pos
      rcases stands with rfl | ⟨_, rfl⟩ <;> omega

/-- The walk does not come back to a sector start it has passed. -/
theorem Ahead.away (start_lt : start < ring.sectors) {before : List Fragment}
    {fragment : Fragment} {reached : Nat} {rest : List Mark} (bound : distance < ring.sectors)
    (moves : reached =
      if 4091 < 4 + fragsSize before + fragment.size then distance + 1 else distance)
    (behind : Ahead ring cells start reached (ring.resume (ring.ahead start distance)
      (4 + fragsSize before + fragment.size)) rest) {home : Nat} (passed : home ≤ distance) :
    ring.resume (ring.ahead start distance) (4 + fragsSize before + fragment.size) ≠
      4096 * ring.ahead start home := by
  have inRing := behind.bound
  have positive := fragment.size_pos
  by_cases full : 4091 < 4 + fragsSize before + fragment.size
  · rw [if_pos full] at moves
    rw [ring.resume_of_lt full, ring.ahead_succ distance start_lt bound]
    intro back
    have same := ring.ahead_inj (moves ▸ inRing) (by omega)
      (Nat.eq_of_mul_eq_mul_left (by decide : 0 < 4096) back)
    omega
  · rw [ring.resume_of_le (by omega)]
    omega

/-- A walk that has not come to a sector with a blank header ends there at the latest. -/
theorem Ahead.exists_of_open (start_lt : start < ring.sectors) {stop : Nat}
    (inRing : stop < ring.sectors) (room : cellFull (cells (ring.ahead start stop)) = false) :
    ∀ {distance next : Nat}, distance ≤ stop → Cursor ring cells next →
      next / 4096 = ring.ahead start distance →
      ∃ marks, Ahead ring cells start distance next marks := by
  intro distance next
  induction measure : ring.distance next (4096 * start) using Nat.strongRecOn
    generalizing distance next with
  | ind left ih =>
      intro before cursor place
      subst measure
      have bound : distance < ring.sectors := by omega
      cases cursor with
      | @erased k _ cell =>
          have here : k = ring.ahead start distance := by omega
          subst here
          exact ⟨_, .erased bound cell⟩
      | @ended k _ sector _ cell notFull stands =>
          have short := sector.not_isFull_iff.mp notFull
          have here : k = ring.ahead start distance := by
            rcases stands with rfl | ⟨_, rfl⟩ <;> omega
          subst here
          exact ⟨_, .ended bound cell notFull stands⟩
      | @fragment k _ sector passed after fragment kInRing cell frags stands =>
          have offset := fragment_offset frags
          have positive := fragment.size_pos
          have here : k = ring.ahead start distance := by
            rcases stands with rfl | ⟨_, rfl⟩ <;> omega
          subst here
          have behind := Cursor.behind kInRing cell frags
          have closer := @Geometry.distance_resume ring _ next _ fragment.size start kInRing
            start_lt
            stands (by omega) (by omega)
          by_cases full : 4091 < 4 + fragsSize passed + fragment.size
          · have further : distance < stop := by
              refine Nat.lt_of_le_of_ne before fun last => ?_
              rw [← last, cell, cellFull, Sector.not_isFull_iff] at room
              omega
            have moved := ring.resume_of_lt (k := ring.ahead start distance) full
            rw [ring.ahead_succ distance start_lt bound] at moved
            obtain ⟨rest, ahead⟩ := ih _ (closer (by
              rw [moved]
              intro back
              have same := @Geometry.ahead_inj ring start (distance + 1) 0 (by omega)
                ring.sectors_pos (by
                  rw [ring.ahead_zero start_lt]
                  exact Nat.eq_of_mul_eq_mul_left (by decide : 0 < 4096) back)
              omega)) rfl (further : distance + 1 ≤ stop) behind (by
              rw [moved]
              exact Nat.mul_div_cancel_left _ (by decide))
            exact ⟨_, .fragment bound cell frags stands (if_pos full).symm ahead⟩
          · have moved := ring.resume_of_le (k := ring.ahead start distance)
              (by omega : 4 + fragsSize passed + fragment.size ≤ 4091)
            obtain ⟨rest, ahead⟩ := ih _ (closer (by rw [moved]; omega)) rfl
              before behind (by rw [moved]; omega)
            exact ⟨_, .fragment bound cell frags stands (if_neg full).symm ahead⟩

/-- In a ring with a blank header a walk comes to one from every cursor. -/
theorem Cursor.ahead (cursor : Cursor ring cells next) (left : ¬AllFull ring cells) :
    ∃ marks, Ahead ring cells (next / 4096) 0 next marks := by
  have start_lt : next / 4096 < ring.sectors := by
    have := cursor.lt
    omega
  simp only [AllFull, not_forall, Bool.not_eq_true] at left
  obtain ⟨k, inRing, room⟩ := left
  obtain ⟨stop, bound, rfl⟩ := ring.exists_ahead start_lt inRing
  exact Ahead.exists_of_open start_lt bound room (Nat.zero_le _) cursor
    (ring.ahead_zero start_lt).symm

/-- What a peek at a sector start finds there. -/
theorem Ahead.peek (filled : Filled ring cells)
    (ahead : Ahead ring cells start distance (4096 * ring.ahead start distance) marks)
    (inRing : ring.ahead start distance < ring.sectors) :
    (marks = [] ∧ cells (ring.ahead start distance) = none) ∨
      ∃ mark behind sector after, marks = mark :: behind ∧
        cells (ring.ahead start distance) = some sector ∧
        sector.frags = mark.fragment :: after ∧
        Ahead ring cells start distance (4096 * ring.ahead start distance + 4) marks := by
  generalize here : 4096 * ring.ahead start distance = next at ahead
  cases ahead with
  | erased _ cell => exact .inl ⟨rfl, cell⟩
  | @ended _ _ sector _ cell _ stands =>
      have empty : fragsSize sector.frags = 0 := by
        rw [Sector.used] at stands
        rcases stands with equal | ⟨equal, _⟩ <;> omega
      exact absurd (fragsSize_eq_zero empty) (filled _ inRing sector cell)
  | @fragment _ reached _ sector before after fragment rest bound cell frags stands moves behind =>
      have first : before = [] := by
        refine fragsSize_eq_zero ?_
        rcases stands with equal | ⟨equal, _⟩ <;> omega
      subst first
      refine .inr ⟨_, rest, sector, after, rfl, cell, frags, ?_⟩
      exact .fragment bound cell frags (here ▸ StandsAt.header _ _) moves behind

/-- A read goes along the marks that lie ahead. -/
theorem Ahead.reads (filled : Filled ring cells) (start_lt : start < ring.sectors) (id : Byte)
    (ahead : Ahead ring cells start distance next marks) :
    ∀ {home : Nat} (size : Nat), home ≤ distance →
      ∃ cursor reached, Reads ring cells (fun _ => .blankHdr) id (ring.ahead start home) next size
          (readTape id size marks).1 cursor ∧ distance ≤ reached ∧
        Ahead ring cells start reached cursor (readTape id size marks).2 := by
  induction marks generalizing distance next with
  | nil =>
      intro home size passed
      have inRing := ring.ahead_lt start_lt (Nat.le_of_lt ahead.bound)
      cases ahead with
      | erased bound cell =>
          exact ⟨_, distance, .erased (.refl _) inRing cell, Nat.le_refl _, .erased bound cell⟩
      | ended bound cell room stands =>
          exact ⟨_, distance, .ended (.refl _) inRing cell room stands, Nat.le_refl _,
            .ended bound cell room (StandsAt.header _ _)⟩
  | cons mark rest ih =>
      intro home size passed
      have inRing := ring.ahead_lt start_lt (Nat.le_of_lt ahead.bound)
      cases ahead with
      | @fragment _ reached _ sector before after fragment _ bound cell frags stands moves behind =>
          have away := Ahead.away start_lt bound moves behind passed
          have later : distance ≤ reached := by
            rw [moves]
            split <;> omega
          by_cases wanted : Wanted id fragment
          · by_cases full : 4091 < 4 + fragsSize before + fragment.size
            · rw [if_pos full] at moves
              subst moves
              have succ := ring.ahead_succ distance start_lt bound
              have next' := ring.ahead_lt start_lt (Nat.le_of_lt behind.bound)
              rw [ring.resume_of_lt full, succ] at behind
              rcases behind.peek filled next' with
                ⟨rfl, none⟩ | ⟨following, rest', sector', after', rfl, nextCell, nextFrags, header⟩
              · -- nothing lies behind the fragment
                rw [← succ] at none
                simp only [readTape, if_pos wanted, continues, Bool.false_eq_true, false_and,
                  and_false,
                  if_false]
                refine ⟨_, distance + 1, .last (.refl _) inRing cell frags stands wanted full
                  (.erased none), Nat.le_succ _, ?_⟩
                rw [succ]
                exact behind
              rw [← succ] at nextCell header
              by_cases more : continues id (following :: rest') = true
              · have split : following.fragment.id = id ∧ following.fragment.split = true := by
                  simpa [continues] using more
                by_cases unfilled : fragment.payload.length < size
                · -- the read goes on with the continuation
                  obtain ⟨cursor, final, reads, further, position⟩ :=
                    @ih (distance + 1) _ header _ (size - fragment.payload.length) (Nat.le_refl _)
                  rw [← succ] at reads
                  rw [readTape, if_pos wanted, if_pos ⟨by simpa using full, more, unfilled⟩]
                  exact ⟨cursor, final, .continued (.refl _) inRing cell frags stands wanted full
                    nextCell nextFrags split unfilled reads, by omega, position⟩
                · rw [readTape, if_pos wanted, if_neg fun all => unfilled all.2.2]
                  exact ⟨_, distance + 1, .short (.refl _) inRing cell frags stands wanted full
                    nextCell nextFrags split (Nat.le_of_not_lt unfilled), Nat.le_succ _, header⟩
              · have alone : ¬(following.fragment.id = id ∧ following.fragment.split = true) :=
                  fun split => more (by simpa [continues] using split)
                rw [readTape, if_pos wanted, if_neg fun all => more all.2.1]
                exact ⟨_, distance + 1, .last (.refl _) inRing cell frags stands wanted full
                  (.other nextCell nextFrags alone), Nat.le_succ _, header⟩
            · have short : 4 + fragsSize before + fragment.size ≤ 4091 := by omega
              rw [ring.resume_of_le short] at behind
              rw [readTape, if_pos wanted, if_neg fun all => full (by simpa using all.1)]
              exact ⟨_, reached, .plain (.refl _) inRing cell frags stands wanted short, later,
                behind⟩
          · obtain ⟨cursor, final, reads, further, position⟩ :=
              @ih reached _ behind home size (Nat.le_trans passed later)
            simp only [readTape, if_neg wanted]
            exact ⟨cursor, final, reads.skip inRing cell frags stands wanted away,
              Nat.le_trans later further, position⟩

theorem Ahead.home_lt (ahead : Ahead ring cells (next / 4096) 0 next marks) :
    next / 4096 < ring.sectors := by
  have := (ahead.bound : 0 < ring.sectors)
  have place := ahead.sector
  rw [Geometry.ahead] at place
  split at place <;> omega

/-- The marks ahead of a cursor do not depend on where the distances are counted from. -/
theorem Ahead.rebase (start_lt : start < ring.sectors)
    (ahead : Ahead ring cells start distance next marks) :
    ∀ {base : Nat}, base ≤ distance →
      Ahead ring cells (ring.ahead start base) (distance - base) next marks := by
  have place : ∀ {base distance : Nat}, base ≤ distance → distance < ring.sectors →
      ring.ahead (ring.ahead start base) (distance - base) = ring.ahead start distance := by
    intro base distance passed bound
    rw [ring.ahead_ahead start_lt (by omega), Nat.add_sub_cancel' passed]
  induction ahead with
  | @erased distance bound cell =>
      intro base passed
      rw [← place passed bound] at cell ⊢
      exact .erased (by omega) cell
  | ended bound cell room stands =>
      intro base passed
      rw [← place passed bound] at cell stands
      exact .ended (by omega) cell room stands
  | @fragment distance reached next sector before after fragment rest bound cell frags stands moves
      _ ih =>
      intro base passed
      have later : distance ≤ reached := by
        rw [moves]
        split <;> omega
      have behind := ih (Nat.le_trans passed later)
      rw [← place passed bound] at cell stands behind
      refine .fragment (by omega) cell frags stands ?_ behind
      rw [moves]
      split <;> omega

/-- Fragments of one sector are told apart by their offsets. -/
theorem frags_split {before before' after after' : List Fragment}
    (equal : before ++ after = before' ++ after') (sizes : fragsSize before = fragsSize before') :
    before = before' ∧ after = after' := by
  induction before generalizing before' with
  | nil =>
      have empty := fragsSize_eq_zero (sizes.symm.trans fragsSize_nil)
      subst empty
      exact ⟨rfl, equal⟩
  | cons fragment before ih =>
      cases before' with
      | nil =>
          have := fragment.size_pos
          rw [fragsSize_cons, fragsSize_nil] at sizes
          omega
      | cons fragment' before' =>
          rw [List.cons_append, List.cons_append, List.cons.injEq] at equal
          obtain ⟨rfl, equal⟩ := equal
          rw [fragsSize_cons, fragsSize_cons] at sizes
          obtain ⟨rfl, rest⟩ := ih equal (by omega)
          exact ⟨rfl, rest⟩

theorem StandsAt.offset_unique {k offset offset' : Nat} (stands : StandsAt k (4 + offset) next)
    (stands' : StandsAt k (4 + offset') next) : offset = offset' := by
  rw [StandsAt] at stands stands'
  omega

/-- What lies ahead is determined by the position. -/
theorem Ahead.unique {other : List Mark} (ahead : Ahead ring cells start distance next marks)
    (ahead' : Ahead ring cells start distance next other) : marks = other := by
  induction ahead generalizing other with
  | erased bound cell =>
      cases ahead' with
      | erased => rfl
      | ended _ cell' => cases cell.symm.trans cell'
      | fragment _ cell' => cases cell.symm.trans cell'
  | ended bound cell room stands =>
      cases ahead' with
      | erased => rfl
      | ended => rfl
      | @fragment _ _ _ _ _ _ fragment _ _ cell' frags stands' =>
          rw [cell, Option.some.injEq] at cell'
          subst cell'
          have same := stands.offset_unique stands'
          have bound := fragment_offset frags
          have positive := fragment.size_pos
          rw [Sector.used] at bound
          omega
  | @fragment _ _ _ _ _ _ fragment _ bound cell frags stands moves _ ih =>
      cases ahead' with
      | erased _ cell' => cases cell.symm.trans cell'
      | ended _ cell' _ stands' =>
          rw [cell, Option.some.injEq] at cell'
          subst cell'
          have same := stands'.offset_unique stands
          have bound := fragment_offset frags
          have positive := fragment.size_pos
          rw [Sector.used] at bound
          omega
      | fragment _ cell' frags' stands' moves' behind' =>
          rw [cell, Option.some.injEq] at cell'
          subst cell'
          obtain ⟨rfl, rest⟩ := frags_split (frags.symm.trans frags')
            (stands.offset_unique stands')
          rw [List.cons.injEq] at rest
          obtain ⟨rfl, -⟩ := rest
          subst moves moves'
          rw [ih behind']

/-- What lies ahead of a position of the log lies ahead of the cursor. -/
theorem Position.ahead {log : List Sector} (laid : Laid ring cells start log)
    (unfilled : Unfilled ring log) :
    ∀ {distance next : Nat}, Position ring start log distance next marks →
      Ahead ring cells start distance next marks := by
  induction marks with
  | nil =>
      intro distance next position
      have bound := position.lt laid
      cases position with
      | behind last free =>
          refine .erased bound ?_
          rw [laid.cell _ bound, last]
          simp
      | @inside _ sector before after _ entry frags room stands equal =>
          obtain ⟨none, -⟩ := List.append_eq_nil_iff.mp equal.symm
          obtain rfl := marks_eq_nil none
          rw [List.append_nil] at frags
          have used : sector.used = 4 + fragsSize before := by rw [Sector.used, frags]
          refine .ended bound ((laid.cell _ bound).trans entry) ?_ (used ▸ stands)
          rw [Sector.not_isFull_iff]
          omega
  | cons mark rest ih =>
      intro distance next position
      have bound := position.lt laid
      obtain ⟨sector, before, after, entry, frags, stands, closes, equal⟩ :=
        position.cons_inv laid
      obtain ⟨reached, -, later, position', -⟩ := Position.step laid (.inr unfilled) entry frags
        closes
        equal (Nat.le_refl distance)
      have moves : reached =
          if 4091 < 4 + fragsSize before + mark.fragment.size then distance + 1 else distance := by
        split
        · exact later (by rw [closes]; exact decide_eq_true ‹_›)
        · have place := position'.sector
          rw [ring.resume_of_le (by omega)] at place
          have same : ring.ahead start reached = ring.ahead start distance := by omega
          exact ring.ahead_inj (position'.lt laid) bound same
      have marked : mark =
          ⟨mark.fragment, decide (4091 < 4 + fragsSize before + mark.fragment.size)⟩ := by
        rw [← closes]
      rw [marked]
      exact .fragment bound ((laid.cell _ bound).trans entry) frags stands moves (ih position')

end Ahead

end PicoApConfigure.RingBuffer
