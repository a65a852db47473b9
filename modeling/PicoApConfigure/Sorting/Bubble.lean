import Mathlib.Data.List.Basic
import Mathlib.Data.List.Perm.Basic

/-!
# Bubble sort of lists

A pass carries one element through the list until it meets a later one, and goes on with that.
The element that arrives at the end is settled; the next pass stops before it.
-/

namespace Sorting

variable {α : Type*} (after : α → α → Prop)

/-- `after a b` says that `a` belongs behind `b`.  It is a strict weak order of the elements. -/
structure StrictWeakOrderOn (elements : List α) : Prop where
  irrefl : ∀ a ∈ elements, ¬after a a
  trans : ∀ a ∈ elements, ∀ b ∈ elements, ∀ c ∈ elements, after a b → after b c → after a c
  incompTrans : ∀ a ∈ elements, ∀ b ∈ elements, ∀ c ∈ elements,
    ¬after a b → ¬after b a → ¬after b c → ¬after c b → ¬after a c ∧ ¬after c a

variable {after} in
theorem StrictWeakOrderOn.mono {elements elements' : List α}
    (order : StrictWeakOrderOn after elements) (fewer : ∀ a ∈ elements', a ∈ elements) :
    StrictWeakOrderOn after elements' := by
  constructor
  · intro a here
    exact order.irrefl a (fewer a here)
  · intro a here b there c last
    exact order.trans a (fewer a here) b (fewer b there) c (fewer c last)
  · intro a here b there c last
    exact order.incompTrans a (fewer a here) b (fewer b there) c (fewer c last)

variable {after} in
/-- What need not stand behind is passed on. -/
theorem StrictWeakOrderOn.not_after_trans {elements : List α} {a b c : α}
    (order : StrictWeakOrderOn after elements) (ha : a ∈ elements) (hb : b ∈ elements)
    (hc : c ∈ elements) (first : ¬after a b) (second : ¬after b c) : ¬after a c := by
  intro last
  have third : ¬after b a := fun behind => second (order.trans b hb a ha c hc behind last)
  have fourth : ¬after c b := fun behind => first (order.trans a ha c hc b hb last behind)
  exact (order.incompTrans a ha b hb c hc first third second fourth).1 last

/-- Two elements that need not change places have not changed them. -/
def Keeps (old new : List α) : Prop :=
  ∀ a b, List.Sublist [a, b] old → ¬after a b → List.Sublist [a, b] new

namespace Keeps

variable {after}

theorem refl (list : List α) : Keeps after list list := fun _ _ pair _ => pair

theorem trans {first second third : List α} (left : Keeps after first second)
    (right : Keeps after second third) : Keeps after first third :=
  fun a b pair fine => right a b (left a b pair fine) fine

/-- A swap of two neighbours that are out of order. -/
theorem swap {x y : α} (out : after x y) (list : List α) :
    Keeps after (x :: y :: list) (y :: x :: list) := by
  intro a b pair fine
  cases pair with
  | cons _ pair =>
      cases pair with
      | cons _ pair => exact (pair.cons x).cons y
      | cons_cons _ single => exact (single.cons x).cons_cons y
  | cons_cons _ single =>
      cases single with
      | cons _ single => exact (single.cons_cons x).cons y
      | cons_cons _ _ => exact absurd out fine

theorem cons {old new : List α} (keeps : Keeps after old new) (perm : new.Perm old) (x : α) :
    Keeps after (x :: old) (x :: new) := by
  intro a b pair fine
  cases pair with
  | cons _ pair => exact (keeps a b pair fine).cons x
  | cons_cons _ single =>
      have member : b ∈ new := perm.mem_iff.mpr (List.singleton_sublist.mp single)
      exact (List.singleton_sublist.mpr member).cons_cons x

theorem append_right {old new : List α} (keeps : Keeps after old new) (perm : new.Perm old)
    (list : List α) : Keeps after (old ++ list) (new ++ list) := by
  intro a b pair fine
  obtain ⟨left, right, split, inOld, inList⟩ := List.sublist_append_iff.mp pair
  match left, split with
  | [], split =>
      rw [List.nil_append] at split
      exact (split ▸ inList).trans (List.sublist_append_right _ _)
  | [c], split =>
      obtain ⟨rfl, rfl⟩ := List.cons.inj split
      have member : [a].Sublist new :=
        List.singleton_sublist.mpr (perm.mem_iff.mpr (List.singleton_sublist.mp inOld))
      exact member.append inList
  | [c, d], split =>
      obtain ⟨rfl, rest⟩ := List.cons.inj split
      obtain ⟨rfl, rfl⟩ := List.cons.inj rest
      exact (keeps a b inOld fine).trans (List.sublist_append_left _ _)
  | c :: d :: e :: more, split => simp at split

end Keeps

variable [DecidableRel after]

/-- One pass: the elements before the last one, the last one, and whether there was a swap. -/
def carry : α → List α → List α × α × Bool
  | x, [] => ([], x, false)
  | x, y :: ys =>
      if after x y then
        let (front, last, _) := carry x ys
        (y :: front, last, true)
      else
        let (front, last, swapped) := carry y ys
        (x :: front, last, swapped)

/-- Passes as long as there are swaps; `settled` is not looked at any more. -/
def settle : (fuel : Nat) → (unsettled settled : List α) → List α
  | 0, unsettled, settled => unsettled ++ settled
  | _ + 1, [], settled => settled
  | fuel + 1, x :: xs, settled =>
      let (front, last, swapped) := carry after x xs
      if swapped = true then settle fuel front (last :: settled)
      else front ++ last :: settled

/-! ## One pass -/

section Pass

variable {after} {x : α} {xs : List α}

theorem carry_length : (carry after x xs).1.length = xs.length := by
  induction xs generalizing x with
  | nil => rfl
  | cons y ys ih =>
      rw [carry]
      split <;> simp only [List.length_cons, ih]

theorem carry_perm :
    ((carry after x xs).1 ++ [(carry after x xs).2.1]).Perm (x :: xs) := by
  induction xs generalizing x with
  | nil => exact List.Perm.refl _
  | cons y ys ih =>
      rw [carry]
      split
      · exact (ih.cons y).trans (List.Perm.swap x y ys)
      · exact ih.cons x

/-- After a swap there is something in front. -/
theorem carry_swapped (swapped : (carry after x xs).2.2 = true) : (carry after x xs).1 ≠ [] := by
  cases xs with
  | nil => cases swapped
  | cons y ys =>
      rw [carry]
      split <;> exact List.cons_ne_nil _ _

theorem carry_keeps :
    Keeps after (x :: xs) ((carry after x xs).1 ++ [(carry after x xs).2.1]) := by
  induction xs generalizing x with
  | nil => exact Keeps.refl _
  | cons y ys ih =>
      rw [carry]
      split
      · rename_i out
        exact (Keeps.swap out ys).trans (ih.cons carry_perm y)
      · exact ih.cons carry_perm x

/-- What arrives at the end may stand behind every element. -/
theorem carry_last (order : StrictWeakOrderOn after (x :: xs)) :
    ∀ z ∈ x :: xs, ¬after z (carry after x xs).2.1 := by
  induction xs generalizing x with
  | nil =>
      intro z here
      rw [List.mem_singleton.mp here]
      exact order.irrefl x List.mem_cons_self
  | cons y ys ih =>
      rw [carry]
      split
      · rename_i out
        have small : ∀ a ∈ x :: ys, a ∈ x :: y :: ys := by
          intro a here
          rcases List.mem_cons.mp here with rfl | here
          · exact List.mem_cons_self
          · exact List.mem_cons_of_mem _ (List.mem_cons_of_mem _ here)
        have last := ih (order.mono small)
        have member : (carry after x ys).2.1 ∈ x :: y :: ys :=
          small _ (carry_perm.mem_iff.mp (List.mem_append_right _ List.mem_cons_self))
        intro z here
        rcases List.mem_cons.mp here with rfl | here
        · exact last z List.mem_cons_self
        rcases List.mem_cons.mp here with rfl | here
        · intro behind
          exact last x List.mem_cons_self
            (order.trans x List.mem_cons_self z (List.mem_cons_of_mem _ List.mem_cons_self) _
              member out behind)
        · exact last z (List.mem_cons_of_mem _ here)
      · rename_i fine
        have small : ∀ a ∈ y :: ys, a ∈ x :: y :: ys := fun a here => List.mem_cons_of_mem _ here
        have last := ih (order.mono small)
        have member : (carry after y ys).2.1 ∈ x :: y :: ys :=
          small _ (carry_perm.mem_iff.mp (List.mem_append_right _ List.mem_cons_self))
        intro z here
        rcases List.mem_cons.mp here with rfl | here
        · exact order.not_after_trans List.mem_cons_self
            (List.mem_cons_of_mem _ List.mem_cons_self) member fine (last y List.mem_cons_self)
        · exact last z here

/-- A pass without a swap has seen a list in order. -/
theorem carry_unswapped (order : StrictWeakOrderOn after (x :: xs))
    (unswapped : (carry after x xs).2.2 = false) :
    (carry after x xs).1 ++ [(carry after x xs).2.1] = x :: xs ∧
      (x :: xs).Pairwise fun a b => ¬after a b := by
  induction xs generalizing x with
  | nil => exact ⟨rfl, List.pairwise_singleton _ _⟩
  | cons y ys ih =>
      rw [carry] at unswapped ⊢
      split at unswapped
      · cases unswapped
      · rename_i fine
        rw [if_neg fine]
        obtain ⟨same, sorted⟩ :=
          ih (order.mono fun a here => List.mem_cons_of_mem _ here) unswapped
        refine ⟨congrArg (x :: ·) same, List.pairwise_cons.mpr ⟨?_, sorted⟩⟩
        intro z here
        rcases List.mem_cons.mp here with rfl | later
        · exact fine
        · exact order.not_after_trans List.mem_cons_self
            (List.mem_cons_of_mem _ List.mem_cons_self)
            (List.mem_cons_of_mem _ (List.mem_cons_of_mem _ later)) fine
            ((List.pairwise_cons.mp sorted).1 z later)

end Pass

/-! ## All passes -/

section Passes

variable {after} {fuel : Nat} {unsettled settled : List α}

theorem settle_cons {x : α} {xs : List α} : settle after (fuel + 1) (x :: xs) settled =
    if (carry after x xs).2.2 = true then
      settle after fuel (carry after x xs).1 ((carry after x xs).2.1 :: settled)
    else (carry after x xs).1 ++ (carry after x xs).2.1 :: settled := rfl

theorem settle_perm :
    (settle after fuel unsettled settled).Perm (unsettled ++ settled) := by
  induction fuel generalizing unsettled settled with
  | zero => exact List.Perm.refl _
  | succ fuel ih =>
      cases unsettled with
      | nil => exact List.Perm.refl _
      | cons x xs =>
          have pass : ((carry after x xs).1 ++ (carry after x xs).2.1 :: settled).Perm
              (x :: xs ++ settled) := by
            rw [List.append_cons]
            exact carry_perm.append_right settled
          rw [settle_cons]
          split
          · exact ih.trans pass
          · exact pass

theorem settle_keeps :
    Keeps after (unsettled ++ settled) (settle after fuel unsettled settled) := by
  induction fuel generalizing unsettled settled with
  | zero => exact Keeps.refl _
  | succ fuel ih =>
      cases unsettled with
      | nil => exact Keeps.refl _
      | cons x xs =>
          have pass : Keeps after (x :: xs ++ settled)
              ((carry after x xs).1 ++ (carry after x xs).2.1 :: settled) := by
            rw [List.append_cons]
            exact carry_keeps.append_right carry_perm settled
          rw [settle_cons]
          split
          · exact pass.trans ih
          · exact pass

/-- Enough passes sort the list, when what is settled is in order and may stand behind the
rest. -/
theorem settle_sorted (order : StrictWeakOrderOn after unsettled)
    (enough : unsettled.length ≤ fuel) (sorted : settled.Pairwise fun a b => ¬after a b)
    (behind : ∀ a ∈ unsettled, ∀ b ∈ settled, ¬after a b) :
    (settle after fuel unsettled settled).Pairwise fun a b => ¬after a b := by
  induction fuel generalizing unsettled settled with
  | zero =>
      rw [List.eq_nil_of_length_eq_zero (Nat.le_zero.mp enough)]
      exact sorted
  | succ fuel ih =>
      cases unsettled with
      | nil => exact sorted
      | cons x xs =>
          have front : ∀ a ∈ (carry after x xs).1, a ∈ x :: xs := fun a here =>
            carry_perm.mem_iff.mp (List.mem_append_left _ here)
          have last : (carry after x xs).2.1 ∈ x :: xs :=
            carry_perm.mem_iff.mp (List.mem_append_right _ List.mem_cons_self)
          have sorted' : ((carry after x xs).2.1 :: settled).Pairwise fun a b => ¬after a b :=
            List.pairwise_cons.mpr ⟨behind _ last, sorted⟩
          rw [settle_cons]
          split
          · apply ih (order.mono front)
            · rw [carry_length]
              exact Nat.le_of_succ_le_succ enough
            · exact sorted'
            · intro a here b there
              rcases List.mem_cons.mp there with rfl | there
              · exact carry_last order a (front a here)
              · exact behind a (front a here) b there
          · rename_i unswapped
            obtain ⟨same, inOrder⟩ := carry_unswapped order (Bool.eq_false_iff.mpr unswapped)
            rw [List.append_cons, same]
            exact List.pairwise_append.mpr ⟨inOrder, sorted, behind⟩

end Passes

end Sorting
