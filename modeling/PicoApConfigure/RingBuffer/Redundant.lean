import PicoApConfigure.RingBuffer.Search
import PicoApConfigure.RingBuffer.Smudge

/-!
# Redundant records on a tape

What becomes of a tape and of the searches along it when the first of several records that match
is deleted.  A search is clear of disturbance when it comes to every record that matches and every
other read differs from the data within the bytes it gets.
-/

namespace PicoApConfigure.RingBuffer

open Nor

/-- A byte that was read is not the one in the data. -/
def Differs (data : Memory) (size : Nat) (bytes : List Byte) : Prop :=
  ∃ i < size, ∃ byte, bytes[i]? = some byte ∧ byte ≠ data i

/-- A search along the tape comes to every live record of `id` that starts with the data, and
nothing else shows it, whatever was in the buffer before.  A read may use up the tape only if it
has an `ending`. -/
inductive Clear (id : Byte) (data : Memory) (size : Nat) (ending : Prop) : List Mark → Prop
  | done : Clear id data size ending []
  | skip {mark : Mark} {rest : List Mark} (skipped : ¬Wanted id mark.fragment)
      (later : Clear id data size ending rest) : Clear id data size ending (mark :: rest)
  | hit {mark : Mark} {rest : List Mark} (found : IsMatch id data size mark rest)
      (left : (readTape id size (mark :: rest)).2 ≠ [] ∨ ending)
      (later : Clear id data size ending (readTape id size (mark :: rest)).2) :
      Clear id data size ending (mark :: rest)
  | miss {mark : Mark} {rest skipped behind : List Mark} {bytes : List Byte}
      (wanted : Wanted id mark.fragment) (other : ¬IsMatch id data size mark rest)
      (got : readTape id size (mark :: rest) = (.got bytes, behind))
      (differs : Differs data size bytes) (passed : rest = skipped ++ behind)
      (none : ∀ earlier later, skipped = earlier ++ later → later ≠ [] →
        ¬Matches id data size (later ++ behind))
      (left : behind ≠ [] ∨ ending) (later : Clear id data size ending behind) :
      Clear id data size ending (mark :: rest)

/-- A fragment alone in its sector is not shorter than the data. -/
def Wide (size : Nat) (marks : List Mark) : Prop :=
  marks.IsChain fun head following =>
    head.closes = true → following.closes = true → size ≤ following.fragment.payload.length

/-- `data` is a string of `size` bytes with its terminator. -/
structure IsText (data : Memory) (size : Nat) : Prop where
  positive : 0 < size
  terminated : data (size - 1) = 0
  inside : ∀ i < size - 1, data i ≠ 0

/-- The mark after `rb_smudge`. -/
def Mark.smudge (mark : Mark) : Mark := ⟨mark.fragment.smudged, mark.closes⟩

section Tapes

variable {id : Byte} {data : Memory} {size : Nat} {ending : Prop} {mark : Mark}
  {before rest skipped behind marks found : List Mark}

theorem Differs.not_shown {bytes : List Byte} (differs : Differs data size bytes)
    (scratch : Memory) : slice data 0 size ≠ slice (store scratch 0 bytes) 0 size := by
  obtain ⟨i, bound, byte, here, other⟩ := differs
  intro same
  obtain ⟨inside, rfl⟩ := List.getElem?_eq_some_iff.mp here
  have entry := congrArg (·[i]?) same
  simp only [slice, List.getElem?_map, List.getElem?_range bound, Option.map_some, Nat.zero_add,
    Option.some.injEq] at entry
  have stored := store_at scratch 0 inside
  rw [Nat.zero_add] at stored
  exact other (stored.symm.trans entry.symm)

theorem smudge_unwanted : ¬Wanted id mark.smudge.fragment := by
  intro wanted
  have live := wanted.2
  simp [Mark.smudge] at live

theorem firstMatch_append
    (none : ∀ earlier later, skipped = earlier ++ later → later ≠ [] →
      ¬Matches id data size (later ++ behind)) :
    firstMatch id data size (skipped ++ behind) = firstMatch id data size behind := by
  induction skipped with
  | nil => rfl
  | cons mark skipped ih =>
      have here : ¬IsMatch id data size mark (skipped ++ behind) :=
        none [] (mark :: skipped) rfl (List.cons_ne_nil _ _)
      rw [List.cons_append, firstMatch, if_neg here]
      apply ih
      intro earlier later split
      exact none (mark :: earlier) later (by rw [split, List.cons_append])

/-- Nothing that a search passes before the first record that matches does so. -/
theorem firstMatch_split (first : firstMatch id data size marks = some found) :
    ∃ before, marks = before ++ found ∧ Matches id data size found ∧
      ∀ earlier later, before = earlier ++ later → later ≠ [] →
        ¬Matches id data size (later ++ found) := by
  induction marks with
  | nil => cases first
  | cons mark rest ih =>
      rw [firstMatch] at first
      split at first
      · rename_i here
        cases first
        refine ⟨[], rfl, here, ?_⟩
        intro earlier later split
        have := List.append_eq_nil_iff.mp split.symm
        simp [this.2]
      · rename_i away
        obtain ⟨before, rfl, here, none⟩ := ih first
        refine ⟨mark :: before, rfl, here, ?_⟩
        intro earlier later split
        cases earlier with
        | nil =>
            rw [List.nil_append] at split
            subst split
            exact fun _ => away
        | cons _ earlier =>
            rw [List.cons_append, List.cons.injEq] at split
            exact none earlier later split.2

/-- A clear search shows the first record that matches. -/
theorem Clear.shown (clear : Clear id data size ending marks) (positive : 0 < size) :
    ∃ stops, Stops id size marks stops ∧
      (∀ stop ∈ stops, (readTape id size stop.tape).2 ≠ [] ∨ ending) ∧ ∀ scratch,
        firstShown data size scratch stops = firstMatch id data size marks := by
  induction clear with
  | done => exact ⟨[], .done, nofun, fun _ => rfl⟩
  | @skip mark rest skipped _ ih =>
      obtain ⟨stops, listed, left, shown⟩ := ih
      refine ⟨stops, .skip skipped listed, left, ?_⟩
      intro scratch
      rw [shown, firstMatch, if_neg fun found : IsMatch id data size mark rest => skipped found.1]
  | @hit mark rest found here _ ih =>
      obtain ⟨stops, listed, left, -⟩ := ih
      obtain ⟨bytes, behind, got, -⟩ := @readTape_wanted id size mark rest found.1 positive
      rw [got] at listed
      have all : Stops id size (mark :: rest) (⟨mark :: rest, bytes⟩ :: stops) :=
        .read found.1 got listed
      refine ⟨_, all, List.forall_mem_cons.mpr ⟨here, left⟩, ?_⟩
      intro scratch
      have shows := all.shows List.mem_cons_self found
      rw [firstShown, firstMatch, if_pos found, if_pos]
      rw [shows]
      exact ((holds_store _ 0 (slice data 0 size)).slice_eq (slice_length _ _ _)).symm
  | @miss mark rest skipped behind bytes wanted other got differs passed none here _ ih =>
      obtain ⟨stops, listed, left, shown⟩ := ih
      refine ⟨_, .read wanted got listed, List.forall_mem_cons.mpr ⟨by rwa [got], left⟩, ?_⟩
      intro scratch
      rw [firstShown, if_neg (differs.not_shown scratch), shown, firstMatch, if_neg other, passed,
        firstMatch_append none]

/-- A clear search stays so from the first record that matches on. -/
theorem Clear.of_first (clear : Clear id data size ending marks)
    (first : firstMatch id data size marks = some found) : Clear id data size ending found := by
  induction clear with
  | done => cases first
  | @skip mark rest skipped _ ih =>
      rw [firstMatch, if_neg fun found : IsMatch id data size mark rest => skipped found.1] at first
      exact ih first
  | @hit mark rest here left later _ =>
      rw [firstMatch, if_pos here] at first
      cases first
      exact .hit here left later
  | @miss mark rest skipped behind bytes wanted other got differs passed none _ _ ih =>
      rw [firstMatch, if_neg other, passed, firstMatch_append none] at first
      exact ih first

theorem getLast?_suffix (suffix : behind <:+ marks) (nonempty : behind ≠ []) :
    marks.getLast? = behind.getLast? := by
  obtain ⟨front, rfl⟩ := suffix
  exact List.getLast?_append_of_ne_nil front nonempty

/-- A search that may not use up the tape skips its last mark. -/
theorem Clear.last (clear : Clear id data size False marks) {last : Mark}
    (here : marks.getLast? = some last) : ¬Wanted id last.fragment := by
  induction clear with
  | done => cases here
  | @skip mark rest skipped _ ih =>
      by_cases alone : rest = []
      · subst alone
        cases here
        exact skipped
      · rw [getLast?_suffix (List.suffix_cons mark rest) alone] at here
        exact ih here
  | @hit mark rest found left _ ih =>
      rw [getLast?_suffix (readTape_suffix id _ size) (left.resolve_right not_false)] at here
      exact ih here
  | @miss mark rest skipped behind bytes wanted other got differs passed none left _ ih =>
      have suffix := readTape_suffix id (mark :: rest) size
      rw [got] at suffix
      rw [getLast?_suffix suffix (left.resolve_right not_false)] at here
      exact ih here

/-- Behind a record that matches the search stays clear. -/
theorem Clear.onward (clear : Clear id data size ending (mark :: rest))
    (found : IsMatch id data size mark rest) :
    Clear id data size ending (readTape id size (mark :: rest)).2 := by
  cases clear with
  | skip skipped _ => exact absurd found.1 skipped
  | hit _ _ later => exact later
  | miss _ other _ _ _ _ _ _ => exact absurd found other

/-- Whether a record matches does not depend on what is behind the next mark. -/
theorem matches_append (nonempty : rest ≠ []) (behind : List Mark) :
    Matches id data size (mark :: (rest ++ behind)) ↔ Matches id data size (mark :: rest) := by
  obtain ⟨following, rest, rfl⟩ := List.exists_cons_of_ne_nil nonempty
  exact Iff.rfl

/-! ## The first record is deleted -/

theorem continuation_smudge (unsplit : mark.fragment.split = false) (head : Mark) :
    continuation head (before ++ mark.smudge :: rest) = continuation head
    (before ++ mark :: rest) := by
  cases before with
  | nil => simp [continuation, Mark.smudge, unsplit]
  | cons following before => rfl

/-- Whether a record in front of a deleted one matches does not depend on that one. -/
theorem matches_smudge (unsplit : mark.fragment.split = false) (nonempty : before ≠ []) :
    Matches id data size (before ++ mark.smudge :: rest) ↔
      Matches id data size (before ++ mark :: rest) := by
  obtain ⟨head, before, rfl⟩ := List.exists_cons_of_ne_nil nonempty
  simp only [List.cons_append, Matches, IsMatch, recordBytes, continuation_smudge unsplit]

/-- A read that leaves off in front of a record does not depend on it. -/
theorem readTape_smudge (unsplit : mark.fragment.split = false) {result : ReadResult}
    {left : List Mark} {head : Mark}
    (read : readTape id size (head :: before ++ mark :: rest) = (result, left ++ mark :: rest)) :
    readTape id size (head :: before ++ mark.smudge :: rest) =
      (result, left ++ mark.smudge :: rest) := by
  induction before generalizing head size result left with
  | nil =>
      have apart : continues id (mark :: rest) = false := by simp [continues, unsplit]
      have apart' : continues id (mark.smudge :: rest) = false := by
        simp [continues, Mark.smudge, unsplit]
      simp only [List.cons_append, List.nil_append] at read ⊢
      rw [readTape] at read ⊢
      split at read
      · rename_i wanted
        rw [apart] at read
        simp only [Bool.false_eq_true, false_and, and_false, if_false, Prod.mk.injEq] at read
        rw [if_pos wanted, apart']
        simp only [Bool.false_eq_true, false_and, and_false, if_false, Prod.mk.injEq]
        obtain rfl : left = [] := by
          have length := congrArg List.length read.2
          simp only [List.length_append, List.length_cons] at length
          exact List.eq_nil_of_length_eq_zero (by omega)
        exact ⟨read.1, rfl⟩
      · -- the read would run over the record
        have short := readTape_length id (mark :: rest) size
        rw [read] at short
        simp only [List.length_append, List.length_cons] at short
        omega
  | cons following before ih =>
      simp only [List.cons_append] at read ih ⊢
      rw [readTape] at read ⊢
      split at read
      · rename_i wanted
        rw [if_pos wanted]
        have same : continues id (following :: (before ++ mark.smudge :: rest)) =
            continues id (following :: (before ++ mark :: rest)) := rfl
        rw [same]
        split at read
        · rename_i more
          rw [if_pos more]
          simp only [Prod.mk.injEq] at read
          have nested := @ih (size - head.fragment.payload.length) _ left following
            (Prod.ext rfl read.2)
          rw [nested, ← read.1]
        · rename_i alone
          rw [if_neg alone]
          simp only [Prod.mk.injEq] at read ⊢
          obtain rfl : following :: before = left := by
            rw [← List.cons_append] at read
            exact List.append_cancel_right read.2
          exact ⟨read.1, rfl⟩
      · rename_i skipped
        rw [if_neg skipped]
        exact ih read

theorem Wide.of_append (wide : Wide size (before ++ rest)) : Wide size rest :=
  List.IsChain.right_of_append wide

/-- What a read at a record that matches uses up: its first fragment, or also its continuation. -/
theorem IsMatch.uses (found : IsMatch id data size mark rest) :
    (readTape id size (mark :: rest)).2 = rest ∨
      ∃ following after, rest = following :: after ∧ mark.closes = true ∧
        Wanted id following.fragment ∧ following.fragment.split = true ∧
        mark.fragment.payload.length < size ∧
        (mark.fragment.payload ++ following.fragment.payload).take size = slice data 0 size ∧
        (readTape id size (mark :: rest)).2 = after := by
  obtain ⟨wanted, -, live, equal⟩ := found
  rw [readTape, if_pos wanted]
  split
  · rename_i more
    obtain ⟨closes, more, unfilled⟩ := more
    right
    cases rest with
    | nil => cases more
    | cons following after =>
        have both : following.fragment.id = id ∧ following.fragment.split = true := by
          simpa [continues] using more
        have continued : continuation mark (following :: after) = some following.fragment :=
          if_pos ⟨closes, both.1.trans wanted.1.symm, both.2⟩
        rw [continued] at live
        rw [recordBytes, continued] at equal
        have alive : Wanted id following.fragment := ⟨both.1, live⟩
        have length := congrArg List.length equal
        simp only [Option.map_some, Option.getD_some, List.length_take, List.length_append,
          slice_length] at length
        refine ⟨following, after, rfl, closes, alive, both.2, unfilled, equal, ?_⟩
        rw [readTape, if_pos alive, if_neg]
        rintro ⟨-, -, short⟩
        omega
  · exact .inl rfl

/-- The continuation of a record that matches does not look like one itself. -/
theorem Clear.continuation {following : Mark} (text : IsText data size)
    (wanted : Wanted id following.fragment) (split : following.fragment.split = true)
    (unfilled : mark.fragment.payload.length < size)
    (equal : (mark.fragment.payload ++ following.fragment.payload).take size = slice data 0 size)
    (wide : following.closes = true → size ≤ following.fragment.payload.length)
    (left : rest ≠ [] ∨ ending) (later : Clear id data size ending rest) : Clear id data size
    ending (following :: rest) := by
  have positive := mark.fragment.payload_pos
  have length := congrArg List.length equal
  simp only [List.length_take, List.length_append, slice_length] at length
  have read : readTape id size (following :: rest) =
      (.got (following.fragment.payload.take size), rest) := by
    rw [readTape, if_pos wanted, if_neg]
    rintro ⟨closes, -, short⟩
    have := wide closes
    omega
  have place : size - 1 - mark.fragment.payload.length < following.fragment.payload.length := by
    omega
  have nul : following.fragment.payload[size - 1 - mark.fragment.payload.length] = 0 := by
    have entry := congrArg (·[size - 1]?) equal
    simp only [List.getElem?_take, if_pos (by omega : size - 1 < size)] at entry
    rw [List.getElem?_append_right (by omega), List.getElem?_eq_getElem place] at entry
    simp only [slice, List.getElem?_map, List.getElem?_range (by omega : size - 1 < size),
      Option.map_some, Nat.zero_add, Option.some.injEq] at entry
    rw [entry, text.terminated]
  refine .miss wanted ?_ read ?_ (List.nil_append rest).symm ?_ left later
  · rintro ⟨-, unsplit, -⟩
    rw [split] at unsplit
    cases unsplit
  · refine ⟨size - 1 - mark.fragment.payload.length, by omega, 0, ?_, ?_⟩
    · rw [List.getElem?_take, if_pos (by omega), List.getElem?_eq_getElem place, nul]
    · exact (text.inside _ (by omega)).symm
  · intro earlier later split nonempty
    exact absurd (List.append_eq_nil_iff.mp split.symm).2 nonempty

/-- A search stays clear when the first record that matches is deleted. -/
theorem Clear.delete (clear : Clear id data size ending (before ++ mark :: rest))
    (first : firstMatch id data size (before ++ mark :: rest) = some (mark :: rest))
    (text : IsText data size) (wide : Wide size (before ++ mark :: rest)) :
    Clear id data size ending (before ++ mark.smudge :: rest) := by
  have matches' : IsMatch id data size mark rest := (firstMatch_some first).1
  generalize whole : before ++ mark :: rest = marks at clear first wide
  induction clear generalizing before with
  | done => simp at whole
  | @skip head tail skipped later ih =>
      rw [firstMatch, if_neg fun found : IsMatch id data size head tail => skipped found.1] at first
      cases before with
      | nil =>
          cases whole
          exact absurd matches'.1 skipped
      | cons other before =>
          cases whole
          exact .skip skipped (ih rfl first (@Wide.of_append _ [head] _ wide))
  | @hit head tail found left later _ =>
      rw [firstMatch, if_pos found, Option.some.injEq] at first
      rw [first] at whole
      obtain rfl := List.append_left_eq_self.mp whole
      obtain ⟨rfl, rfl⟩ := List.cons.inj first
      refine .skip smudge_unwanted ?_
      rcases found.uses with whole | ⟨following, after, rfl, closes, alive, split, unfilled, equal,
        uses⟩
      · rwa [whole] at later
      · rw [uses] at left later
        exact .continuation text alive split unfilled equal
          ((List.isChain_cons_cons.mp wide).1 closes) left later
  | @miss head tail skipped behind bytes wanted other got differs passed none _ _ ih =>
      cases before with
      | nil =>
          cases whole
          exact absurd matches' other
      | cons other' before =>
          cases whole
          rw [firstMatch, if_neg other, passed, firstMatch_append none] at first
          obtain ⟨left, rfl, -, -⟩ := firstMatch_split first
          obtain rfl : before = skipped ++ left := by
            rw [← List.append_assoc] at passed
            exact List.append_cancel_right passed
          have unsplit := matches'.2.1
          refine @Clear.miss id data size ending head _ skipped (left ++ mark.smudge :: rest) _
            wanted ?_ (readTape_smudge unsplit got) differs (List.append_assoc _ _ _) ?_
            (.inl (by simp)) (ih rfl first ?_)
          · exact fun found => other
              ((@matches_smudge id data size mark (head :: (skipped ++ left)) rest unsplit
                (List.cons_ne_nil _ _)).mp found)
          · intro earlier later split nonempty
            rw [← List.append_assoc, matches_smudge unsplit (by simp [nonempty]),
              List.append_assoc]
            exact none earlier later split nonempty
          · exact @Wide.of_append _ (head :: skipped) _ (by rwa [List.cons_append, ← passed])

theorem firstMatch_delete
    (first : firstMatch id data size (before ++ mark :: rest) = some (mark :: rest)) :
    firstMatch id data size (before ++ mark.smudge :: rest) = firstMatch id data size rest := by
  obtain ⟨earlier, split, matches', none⟩ := firstMatch_split first
  obtain rfl := List.append_cancel_right split
  have unsplit : mark.fragment.split = false := matches'.2.1
  have here : ¬IsMatch id data size mark.smudge rest := fun found => smudge_unwanted found.1
  rw [firstMatch_append, firstMatch, if_neg here]
  intro earlier later split nonempty
  rw [matches_smudge unsplit nonempty]
  exact none earlier later split nonempty

/-- The continuation of a record that matches is not the next one. -/
theorem IsMatch.firstMatch_uses (found : IsMatch id data size mark rest) :
    firstMatch id data size (readTape id size (mark :: rest)).2 = firstMatch id data size rest := by
  rcases found.uses with whole | ⟨following, after, rfl, -, -, split, -, -, uses⟩
  · rw [whole]
  · have other : ¬IsMatch id data size following after := by
      rintro ⟨-, unsplit, -⟩
      rw [split] at unsplit
      cases unsplit
    rw [uses, firstMatch, if_neg other]

/-- Of the records that match only the newest one is left, and nothing else has changed. -/
structure NewestLeft (id : Byte) (data : Memory) (size : Nat) (old new : List Mark) : Prop where
  length_eq : new.length = old.length
  kept : ∀ i mark, old[i]? = some mark → new[i]? = some mark ∨
    (Matches id data size (old.drop i) ∧ (∃ j > i, Matches id data size (old.drop j)) ∧
      new[i]? = some mark.smudge)
  newest : ∃ i, Matches id data size (old.drop i) ∧
    (∀ j > i, ¬Matches id data size (old.drop j)) ∧ new.drop i = old.drop i ∧
    ∀ j, Matches id data size (new.drop j) → j = i

theorem drop_before {i : Nat} (bound : i < before.length) :
    before.drop i ≠ [] ∧ (before ++ mark :: rest).drop i = before.drop i ++ mark :: rest := by
  refine ⟨?_, List.drop_append_of_le_length (Nat.le_of_lt bound)⟩
  intro empty
  have length := congrArg List.length empty
  rw [List.length_drop, List.length_nil] at length
  omega

theorem drop_behind {i : Nat} (bound : before.length < i) :
    (before ++ mark :: rest).drop i = rest.drop (i - before.length - 1) := by
  obtain ⟨j, rfl⟩ := Nat.exists_eq_add_of_lt bound
  rw [List.drop_append]
  have empty : before.drop (before.length + j + 1) = [] := List.drop_eq_nil_of_le (by omega)
  rw [empty, List.nil_append, show before.length + j + 1 - before.length = j + 1 by omega]
  rfl

theorem drop_at : (before ++ mark :: rest).drop before.length = mark :: rest :=
  List.drop_left' rfl

/-- Where records match after a deletion. -/
theorem matches_drop_smudge (unsplit : mark.fragment.split = false) (i : Nat) :
    Matches id data size ((before ++ mark.smudge :: rest).drop i) ↔
      i ≠ before.length ∧ Matches id data size ((before ++ mark :: rest).drop i) := by
  rcases Nat.lt_trichotomy i before.length with earlier | rfl | later
  · obtain ⟨nonempty, same⟩ := @drop_before mark before rest i earlier
    obtain ⟨-, same'⟩ := @drop_before mark.smudge before rest i earlier
    rw [same, same', matches_smudge unsplit nonempty]
    exact (and_iff_right (Nat.ne_of_lt earlier)).symm
  · rw [drop_at]
    exact ⟨fun found => absurd found.1 smudge_unwanted, fun both => absurd rfl both.1⟩
  · rw [drop_behind later, drop_behind later]
    exact (and_iff_right (Nat.ne_of_gt later)).symm

/-- The records in front of the first one that matches do not. -/
theorem firstMatch_le (first : firstMatch id data size (before ++ mark :: rest) = some
    (mark :: rest))
    {i : Nat} (here : Matches id data size ((before ++ mark :: rest).drop i)) :
    before.length ≤ i := by
  by_contra earlier
  have bound : i < before.length := Nat.lt_of_not_le earlier
  have longest := (firstMatch_some first).2 _ (List.drop_suffix i _) here
  rw [List.length_drop, List.length_append, List.length_cons] at longest
  omega

/-- With one record that matches there is nothing to delete. -/
theorem NewestLeft.single
    (first : firstMatch id data size (before ++ mark :: rest) = some (mark :: rest))
    (last : firstMatch id data size rest = none) :
    NewestLeft id data size (before ++ mark :: rest) (before ++ mark :: rest) := by
  have none : ∀ j > before.length, ¬Matches id data size ((before ++ mark :: rest).drop j) := by
    intro j later
    rw [drop_behind later]
    exact firstMatch_none last _ (List.drop_suffix _ _)
  refine ⟨rfl, fun i mark here => .inl here, before.length, ?_, none, rfl, ?_⟩
  · rw [drop_at]
    exact (firstMatch_some first).1
  · intro j here
    have low := firstMatch_le first here
    by_contra other
    exact none j (by omega) here

/-- A record that is not the newest one was deleted before. -/
theorem NewestLeft.delete {new : List Mark}
    (first : firstMatch id data size (before ++ mark :: rest) = some (mark :: rest))
    (more : firstMatch id data size rest = some found)
    (later : NewestLeft id data size (before ++ mark.smudge :: rest) new) :
    NewestLeft id data size (before ++ mark :: rest) new := by
  have matches' : IsMatch id data size mark rest := (firstMatch_some first).1
  have unsplit := matches'.2.1
  have length : (before ++ mark.smudge :: rest).length = (before ++ mark :: rest).length := by
    simp
  refine ⟨later.length_eq.trans length, ?_, ?_⟩
  · intro i other here
    by_cases place : i = before.length
    · subst place
      have deleted : (before ++ mark.smudge :: rest)[before.length]? = some mark.smudge := by simp
      obtain rfl : mark = other := by simpa using here
      right
      obtain ⟨skipped, rfl, foundMatches, -⟩ := firstMatch_split more
      refine ⟨by rw [drop_at]; exact matches', ⟨before.length + 1 + skipped.length, by omega, ?_⟩,
        ?_⟩
      · rw [drop_behind (by omega),
          show before.length + 1 + skipped.length - before.length - 1 = skipped.length by omega,
          List.drop_left' rfl]
        exact foundMatches
      · rcases later.kept before.length mark.smudge deleted with kept | ⟨found, -⟩
        · exact kept
        · rw [drop_at] at found
          exact absurd found.1 smudge_unwanted
    · have same : (before ++ mark.smudge :: rest)[i]? = some other := by
        rw [← here]
        rcases Nat.lt_or_gt_of_ne place with earlier | behind
        · rw [List.getElem?_append_left earlier, List.getElem?_append_left earlier]
        · obtain ⟨j, rfl⟩ := Nat.exists_eq_add_of_lt behind
          rw [List.getElem?_append_right (by omega), List.getElem?_append_right (by omega),
            show before.length + j + 1 - before.length = j + 1 by omega]
          rfl
      rcases later.kept i other same with kept | ⟨found, ⟨j, above, foundLater⟩, smudged⟩
      · exact .inl kept
      · exact .inr ⟨((matches_drop_smudge unsplit i).mp found).2,
          ⟨j, above, ((matches_drop_smudge unsplit j).mp foundLater).2⟩, smudged⟩
  · obtain ⟨i, found, last, same, only⟩ := later.newest
    obtain ⟨other, found⟩ := (matches_drop_smudge unsplit i).mp found
    have low := firstMatch_le first found
    have behind : before.length < i := by omega
    refine ⟨i, found, ?_, ?_, only⟩
    · intro j above found'
      exact last j above ((matches_drop_smudge unsplit j).mpr ⟨by omega, found'⟩)
    · rw [same, drop_behind behind, drop_behind behind]

end Tapes

end PicoApConfigure.RingBuffer
