import PicoApConfigure.RingBuffer.Encounter

/-!
# The end of a search for older copies

When the newest record that matches is the only one left, the search from behind it has to fail.
It does so at a blank header.  In a ring without one it fails when it comes back to the start of the
sector of the newest record, which therefore must not end with that record.
-/

namespace PicoApConfigure.RingBuffer

open Nor

/-- What makes a search from behind the newest record that matches fail. -/
inductive Ended (ring : Geometry) (id : Byte) (data : Memory) (size : Nat) (log : List Sector) :
    Prop
  | blank (unfilled : Unfilled ring log)
  | around {older newer : List Sector} {sector : Sector} {before after : List Fragment}
      {mark : Mark} {rest : List Mark}
      (spot : Spot log older sector newer before after mark rest)
      (newest : IsMatch id data size mark rest) (last : firstMatch id data size rest = none)
      (inside : after ≠ []) (used : log.length = ring.sectors)
      (full : ∀ sector ∈ log, sector.isFull = true)
      (clear : Clear id data size False (rest ++ tape older))
      (alone : ∀ earlier later, rest = earlier ++ later → later ≠ [] →
        ¬Matches id data size (later ++ tape older))

section Tapes

variable {size offset : Nat}

/-- A fragment that closes its sector is the last one in it. -/
theorem marks_wide (size : Nat) {frags : List Fragment} (fits : offset + fragsSize frags ≤ 4096) :
    Wide size (marks offset frags) := by
  induction frags generalizing offset with
  | nil => exact List.IsChain.nil
  | cons fragment frags ih =>
      rw [fragsSize_cons] at fits
      have rest := @ih (offset + fragment.size) (by omega)
      cases frags with
      | nil => exact List.IsChain.singleton _
      | cons following frags =>
          have positive := following.size_pos
          rw [fragsSize_cons] at fits
          simp only [marks] at rest ⊢
          refine List.isChain_cons_cons.mpr ⟨?_, rest⟩
          intro closes
          rw [decide_eq_true_eq] at closes
          have := following.payload_pos
          simp only [Fragment.size] at fits closes positive
          omega

/-- The first fragment of a sector closes it only if it is alone. -/
theorem tape_head (small : size ≤ 4084) (log : List Sector) :
    ∀ mark ∈ (tape log).head?, mark.closes = true → size ≤ mark.fragment.payload.length := by
  induction log with
  | nil => simp
  | cons sector log ih =>
      rw [tape_cons]
      cases frags : sector.frags with
      | nil => exact ih
      | cons fragment frags =>
          intro mark here closes
          cases here
          rw [decide_eq_true_eq, Fragment.size] at closes
          dsimp only
          omega

/-- On the tape of a log a fragment alone in its sector is long. -/
theorem tape_wide (small : size ≤ 4084) (log : List Sector) : Wide size (tape log) := by
  induction log with
  | nil => exact List.IsChain.nil
  | cons sector log ih =>
      rw [tape_cons]
      refine List.isChain_append.mpr ⟨marks_wide size sector.fits, ih, ?_⟩
      intro mark _ following here _
      exact tape_head small log following here

end Tapes

section Ends

variable {ring : Geometry} {memory : Memory} {cells : Nat → Option Sector} {start : Nat}
  {log older newer : List Sector} {rb : RbT} {reached size : Nat} {id : Byte} {data : Memory}
  {sector : Sector} {before after : List Fragment} {mark : Mark} {rest : List Mark} {ending : Prop}

/-- The log of a full ring from another sector on. -/
theorem Laid.rotate (laid : Laid ring cells start (older ++ sector :: newer))
    (used : (older ++ sector :: newer).length = ring.sectors)
    (full : ∀ other ∈ older ++ sector :: newer, other.isFull = true) :
    Laid ring cells (ring.ahead start older.length) (sector :: newer ++ older) := by
  simp only [List.length_append, List.length_cons] at used
  have start_lt := laid.start_lt
  have same : ∀ other ∈ sector :: newer ++ older, other ∈ older ++ sector :: newer := by
    intro other member
    simp only [List.mem_append, List.mem_cons] at member ⊢
    tauto
  refine ⟨ring.ahead_lt start_lt (by omega), ?_, ?_, ?_, ?_⟩
  · simp only [List.length_append, List.length_cons]
    omega
  · intro distance bound
    by_cases behind : older.length + distance < ring.sectors
    · rw [ring.ahead_ahead start_lt behind, laid.cell _ behind,
        List.getElem?_append_right (Nat.le_add_right _ _), Nat.add_sub_cancel_left,
        List.getElem?_append_left]
      simp only [List.length_cons]
      omega
    · -- the older sectors come again behind the newest one
      have wrapped : ring.ahead (ring.ahead start older.length) distance =
          ring.ahead start (older.length + distance - ring.sectors) := by
        simp only [Geometry.ahead]
        split <;> split <;> split <;> omega
      rw [wrapped, laid.cell _ (by omega), List.getElem?_append_left (by omega),
        List.getElem?_append_right (by simp only [List.length_cons]; omega)]
      congr 1
      simp only [List.length_cons]
      omega
  · intro other member
    exact full other (same other (List.mem_of_mem_dropLast member))
  · intro other member
    exact laid.nonempty other (same other member)

/-- Behind the newest record the ring goes on to the start of its sector. -/
theorem Spot.around (laid : Laid ring cells start log)
    (spot : Spot log older sector newer before after mark rest) (inside : after ≠ [])
    (position : Position ring start log reached rb.next rest) :
    Position ring (ring.ahead start older.length) (sector :: newer ++ older) 0 rb.next
      (rest ++ tape older) := by
  obtain ⟨fragment, after, rfl⟩ := List.exists_cons_of_ne_nil inside
  have length := laid.length_le
  rw [spot.split, List.length_append, List.length_cons] at length
  have size : 4 + fragsSize (before ++ [mark.fragment]) =
      4 + fragsSize before + mark.fragment.size := by
    simp [Nat.add_assoc]
  have frags : sector.frags = (before ++ [mark.fragment]) ++ fragment :: after := by
    rw [spot.frags, List.append_assoc, List.singleton_append]
  have equal := spot.equal
  rw [marks, List.cons_append] at equal
  have next : Spot log older sector newer (before ++ [mark.fragment]) after
      ⟨fragment, decide (4091 < 4 + fragsSize before + mark.fragment.size + fragment.size)⟩
      (marks (4 + fragsSize before + mark.fragment.size + fragment.size) after ++ tape newer) :=
    ⟨spot.split, frags, by rw [size], by rw [size]⟩
  rw [equal] at position
  obtain ⟨_, _, _, _, _, spot', stands⟩ := position.place laid
  obtain ⟨rfl, rfl, rfl, rfl⟩ := next.unique spot'
  have offset := fragment_offset frags
  have positive := fragment.payload_pos
  refine .inside rfl frags ?_ ?_ ?_
  · simp only [Fragment.size] at offset
    omega
  · rw [ring.ahead_zero (ring.ahead_lt laid.start_lt (by omega))]
    exact stands
  · rw [spot.equal, size]
    simp

/-- A fragment with another one behind it does not close its sector. -/
theorem Spot.closes_false (spot : Spot log older sector newer before after mark rest)
    (inside : after ≠ []) : mark.closes = false := by
  obtain ⟨fragment, after, rfl⟩ := List.exists_cons_of_ne_nil inside
  have frags : sector.frags = (before ++ [mark.fragment]) ++ fragment :: after := by
    rw [spot.frags, List.append_assoc, List.singleton_append]
  have offset := fragment_offset frags
  have positive := fragment.payload_pos
  rw [spot.closes, decide_eq_false_iff_not]
  simp only [fragsSize_append, fragsSize_cons, fragsSize_nil, Fragment.size] at offset ⊢
  omega

/-- No record that matches is left in the sectors that the search comes to again. -/
theorem Spot.none_older (spot : Spot log older sector newer before after mark rest)
    (first : firstMatch id data size (tape log) = some (mark :: rest))
    (clear : Clear id data size False (rest ++ tape older)) :
    firstMatch id data size (tape older) = none := by
  cases found : firstMatch id data size (tape older) with
  | none => rfl
  | some tail =>
      obtain ⟨front, split, matches', -⟩ := firstMatch_split found
      cases tail with
      | nil => exact matches'.elim
      | cons head tail =>
          exfalso
          by_cases alone : tail = []
          · subst alone
            refine clear.last ?_ matches'.1
            rw [split, ← List.append_assoc, List.getLast?_concat]
          · -- such a record would have been found first
            have suffix : head :: (tail ++ (marks 4 before ++ mark :: rest)) <:+ tape log := by
              rw [spot.tape_eq, split]
              exact ⟨front, by simp⟩
            have length := (firstMatch_some first).2 _ suffix
              ((matches_append alone _).mpr matches')
            simp only [List.length_cons, List.length_append] at length
            omega

/-- A read at a record with another fragment behind it in its sector stops there. -/
theorem Spot.uses_eq (spot : Spot log older sector newer before after mark rest)
    (inside : after ≠ []) (found : IsMatch id data size mark rest) :
    (readTape id size (mark :: rest)).2 = rest ∧ rest ≠ [] := by
  constructor
  · rcases found.uses with uses | ⟨_, _, _, closes, _⟩
    · exact uses
    · rw [spot.closes_false inside] at closes
      cases closes
  · obtain ⟨fragment, after, rfl⟩ := List.exists_cons_of_ne_nil inside
    rw [spot.equal, marks]
    simp

/-- Before the newest record a read does not use up the tape. -/
theorem Ended.left (ended : Ended ring id data size log) (part : mark :: rest <:+ tape log)
    (found : IsMatch id data size mark rest) :
    (readTape id size (mark :: rest)).2 ≠ [] ∨ Unfilled ring log := by
  cases ended with
  | blank unfilled => exact .inr unfilled
  | @around older newer sector before after mark' rest' spot newest last inside _ _ _ _ =>
      left
      have suffix : mark' :: rest' <:+ tape log := by
        rw [spot.tape_eq]
        exact List.suffix_append _ _
      rcases List.suffix_or_suffix_of_suffix suffix part with earlier | later
      · rcases List.suffix_cons_iff.mp earlier with same | behind
        · obtain ⟨rfl, rfl⟩ := List.cons.inj same
          obtain ⟨uses, nonempty⟩ := spot.uses_eq inside found
          rwa [uses]
        · -- the newest record is still ahead
          intro empty
          have none := found.firstMatch_uses
          rw [empty, firstMatch] at none
          exact firstMatch_none none.symm _ behind newest
      · rcases List.suffix_cons_iff.mp later with same | behind
        · obtain ⟨rfl, rfl⟩ := List.cons.inj same
          obtain ⟨uses, nonempty⟩ := spot.uses_eq inside found
          rwa [uses]
        · exact absurd found (firstMatch_none last _ behind)

/-- With one record that matches left, the search from behind it fails. -/
theorem Ended.find_fails (ended : Ended ring id data size log) (on : OnRing rb ring)
    (holds : RingHolds memory ring cells) (laid : Laid ring cells start log)
    (fits : ReadFits ring id size) (clear : Clear id data size ending (tape log))
    (first : firstMatch id data size (tape log) = some (mark :: rest))
    (last : firstMatch id data size rest = none)
    (position : Position ring start log reached rb.next (readTape id size (mark :: rest)).2)
    (scratch : Memory) :
    ∃ value rb' scratch', FlashProg.Completes ring.region
      (fun fuel => rbFind fuel rb id data size scratch) memory [] (value, rb', scratch') ∧
      value < 0 := by
  have found : IsMatch id data size mark rest := (firstMatch_some first).1
  cases ended with
  | blank unfilled =>
      have none : firstMatch id data size (readTape id size (mark :: rest)).2 = none :=
        found.firstMatch_uses.trans last
      obtain ⟨rb', scratch', completes⟩ := rbFind_blank on holds laid fits unfilled position
        ((clear.of_first first).onward found) none scratch
      exact ⟨_, rb', scratch', completes, by decide⟩
  | @around older newer sector before after newestMark newestRest spot newest _ inside used full
      clear' alone =>
      -- the newest record is the one that was found
      have suffix : newestMark :: newestRest <:+ tape log := by
        rw [spot.tape_eq]
        exact List.suffix_append _ _
      have longest := (firstMatch_some first).2
      have same : newestMark :: newestRest = mark :: rest := by
        have nested := List.suffix_of_suffix_length_le suffix
          ((firstMatch_split first).elim fun front split => ⟨front, split.1.symm⟩)
          (longest _ suffix newest)
        rcases List.suffix_cons_iff.mp nested with same | later
        · exact same
        · exact absurd newest (firstMatch_none last _ later)
      obtain ⟨rfl, rfl⟩ := List.cons.inj same
      obtain ⟨uses, rest_ne⟩ := spot.uses_eq inside found
      rw [uses] at position
      have around := spot.around laid inside position
      have none : firstMatch id data size (newestRest ++ tape older) = none := by
        rw [firstMatch_append alone]
        exact spot.none_older first clear'
      have nonempty : newestRest ++ tape older ≠ [] := by simp [rest_ne]
      rw [spot.split] at laid used full
      obtain ⟨rb', scratch', completes⟩ := rbFind_around on holds (laid.rotate used full) fits
        (by simp only [List.length_append, List.length_cons] at used ⊢; omega)
        (fun other member => full other (by
          simp only [List.mem_append, List.mem_cons] at member ⊢
          tauto)) around nonempty clear' none scratch
      exact ⟨_, rb', scratch', completes, by decide⟩

/-! ## Deleting an older record -/

theorem split_of_length_lt {α : Type} {front front' back back' : List α} {x y : α}
    (equal : front ++ x :: back = front' ++ y :: back') (shorter : front.length < front'.length) :
    ∃ middle, front' = front ++ x :: middle ∧ back = middle ++ y :: back' := by
  rcases List.append_eq_append_iff.mp equal with ⟨gap, rfl, rest⟩ | ⟨gap, rfl, -⟩
  · cases gap with
    | nil => simp at shorter
    | cons first middle =>
        rw [List.cons_append, List.cons.injEq] at rest
        obtain ⟨rfl, rfl⟩ := rest
        exact ⟨middle, rfl, rfl⟩
  · simp only [List.length_append] at shorter
    omega

/-- The first record that matches in a part of a tape. -/
theorem firstMatch_part {marks behind : List Mark}
    (first : firstMatch id data size (marks ++ behind) = some (mark :: (rest ++ behind)))
    (nonempty : rest ≠ []) (part : mark :: rest <:+ marks) :
    firstMatch id data size marks = some (mark :: rest) := by
  obtain ⟨front, rfl⟩ := part
  obtain ⟨front', split, matches', none⟩ := firstMatch_split first
  obtain rfl : front = front' := by
    rw [List.append_assoc, List.cons_append] at split
    exact List.append_cancel_right split
  rw [firstMatch_append, firstMatch, if_pos]
  · exact (matches_append nonempty behind).mp matches'
  · intro earlier later split' nonempty'
    obtain ⟨head, later, rfl⟩ := List.exists_cons_of_ne_nil nonempty'
    have away := none earlier (head :: later) split' nonempty'
    have regroup : head :: later ++ mark :: (rest ++ behind) =
        head :: ((later ++ mark :: rest) ++ behind) := by simp
    rwa [regroup, matches_append (by simp)] at away

theorem Sector.smudge_isFull (frags : sector.frags = before ++ mark.fragment :: after) :
    (sector.smudge before mark.fragment after frags).isFull = sector.isFull := by
  rw [Sector.isFull, Sector.isFull, Sector.smudge_used]

theorem Unfilled.smudge (unfilled : Unfilled ring log)
    (spot : Spot log older sector newer before after mark rest) :
    Unfilled ring (older ++ sector.smudge before mark.fragment after spot.frags :: newer) := by
  rw [spot.split] at unfilled
  rcases unfilled with room | ⟨newest, last, notFull⟩
  · left
    simpa using room
  · right
    rw [List.getLast?_append_of_ne_nil _ (List.cons_ne_nil _ _)] at last ⊢
    cases newer with
    | nil =>
        cases last
        exact ⟨_, rfl, (Sector.smudge_isFull spot.frags).trans notFull⟩
    | cons second newer => exact ⟨newest, last, notFull⟩

/-- The end of the search stays as it is when an older record is deleted. -/
theorem Ended.delete (ended : Ended ring id data size log) (text : IsText data size)
    (small : size ≤ 4084) (spot : Spot log older sector newer before after mark rest)
    (first : firstMatch id data size (tape log) = some (mark :: rest))
    (more : firstMatch id data size rest ≠ none) :
    Ended ring id data size
      (older ++ sector.smudge before mark.fragment after spot.frags :: newer) := by
  cases ended with
  | blank unfilled => exact .blank (unfilled.smudge spot)
  | @around older' newer' sector' before' after' mark' rest' spot' newest last inside used full
      clear alone =>
      have found : IsMatch id data size mark rest := (firstMatch_some first).1
      have full' : ∀ other ∈ older ++ sector.smudge before mark.fragment after spot.frags :: newer,
          other.isFull = true := by
        rw [spot.split] at full
        intro other member
        rcases List.mem_append.mp member with member | member
        · exact full other (List.mem_append_left _ member)
        · rcases List.mem_cons.mp member with rfl | member
          · exact (Sector.smudge_isFull spot.frags).trans (full sector (by simp))
          · exact full other (by simp [member])
      have used' : (older ++ sector.smudge before mark.fragment after spot.frags :: newer).length =
          ring.sectors := by
        rw [spot.split] at used
        simpa using used
      -- the newest record lies behind the one that is deleted
      have later : (tape older).length + before.length < (tape older').length + before'.length := by
        have count := congrArg List.length (spot.tape_eq.symm.trans spot'.tape_eq)
        simp only [List.length_append, List.length_cons, marks_length] at count
        have suffix : mark' :: rest' <:+ tape log := by
          rw [spot'.tape_eq]
          exact List.suffix_append _ _
        have length := (firstMatch_some first).2 _ suffix newest
        simp only [List.length_cons] at length
        by_contra behind
        have same := List.append_inj' (spot.tape_eq.symm.trans spot'.tape_eq)
          (show (mark :: rest).length = (mark' :: rest').length by
            simp only [List.length_cons]
            omega)
        rw [(List.cons.inj same.2).2] at more
        exact more last
      rcases Nat.lt_trichotomy older.length older'.length with shorter | same | longer
      · -- in a sector that the search comes to again
        obtain ⟨middle, rfl, rfl⟩ := split_of_length_lt (spot.split.symm.trans spot'.split) shorter
        have part : Spot (older ++ sector :: middle) older sector middle before after mark
            (marks (4 + fragsSize before + mark.fragment.size) after ++ tape middle) :=
          ⟨rfl, spot.frags, spot.closes, rfl⟩
        generalize equal : marks (4 + fragsSize before + mark.fragment.size) after ++ tape middle =
          inner at part
        have whole : rest = inner ++ tape (sector' :: newer') := by
          rw [spot.equal, tape_append, ← List.append_assoc, equal]
        have nonempty : inner ≠ [] := by
          rintro rfl
          refine clear.last ?_ found.1
          rw [part.tape_eq, ← List.append_assoc, List.getLast?_concat]
        have again : firstMatch id data size (rest' ++ tape (older ++ sector :: middle)) =
            some (mark :: inner) := by
          rw [firstMatch_append alone]
          refine @firstMatch_part _ _ _ _ _ _ (tape (sector' :: newer')) ?_ nonempty ?_
          · rw [← tape_append, ← spot'.split, ← whole]
            exact first
          · rw [part.tape_eq]
            exact List.suffix_append _ _
        have regroup : ∀ tail, rest' ++ ((tape older ++ marks 4 before) ++ tail) =
            (rest' ++ (tape older ++ marks 4 before)) ++ tail :=
          fun tail => (List.append_assoc _ _ _).symm
        have wide : Wide size (rest' ++ tape (older ++ sector :: middle)) := by
          have wide := tape_wide small (sector' :: newer' ++ (older ++ sector :: middle))
          rw [tape_append, tape_cons, spot'.frags, marks_append, marks, List.append_assoc,
            List.append_assoc, List.cons_append, ← List.append_assoc _ _ (tape _),
            ← spot'.equal] at wide
          exact @Wide.of_append _ [_] _ wide.of_append
        rw [part.tape_eq, regroup] at clear again wide
        have cleared := clear.delete again text wide
        refine .around (⟨by simp, spot'.frags, spot'.closes, spot'.equal⟩ : Spot _
          (older ++ sector.smudge before mark.fragment after spot.frags :: middle) sector' newer'
          before' after' mark' rest') newest last inside used' full' ?_ ?_
        · rw [part.smudge.tape_eq, regroup]
          exact cleared
        · intro earlier later split nonempty'
          have away := alone earlier later split nonempty'
          rw [part.tape_eq, ← List.append_assoc] at away
          rw [part.smudge.tape_eq, ← List.append_assoc,
            matches_smudge found.2.1 (by simp [nonempty'])]
          exact away
      · -- in the sector of the newest record
        obtain ⟨rfl, tail⟩ := List.append_inj (spot.split.symm.trans spot'.split) same
        obtain ⟨rfl, rfl⟩ := List.cons.inj tail
        obtain ⟨middle, rfl, rfl⟩ := split_of_length_lt (spot.frags.symm.trans spot'.frags)
          (by omega)
        refine @Ended.around _ _ _ _ _ older newer
          (sector.smudge before mark.fragment _ spot.frags)
          (before ++ mark.fragment.smudged :: middle) after' mark' rest' ⟨rfl, ?_, ?_, ?_⟩ newest
          last inside used' full' clear alone
        · simp [Sector.smudge]
        · rw [spot'.closes]
          simp
        · rw [spot'.equal]
          simp
      · exact absurd longer (spot'.not_shorter spot.split (by omega))

end Ends

end PicoApConfigure.RingBuffer
