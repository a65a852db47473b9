import PicoApConfigure.Sorting.Bubble
import PicoApConfigure.Wifi.Cdll

/-!
# Sorting the list of access points

Translation of `compare_rssi` and `bubblesort` of `find_local_ssid.c`; `rssi` is the signal
strength in the node around a `struct cdll`.  Printing is left out.
-/

namespace PicoApConfigure.Wifi

open Sorting

variable {α : Type} [DecidableEq α]

/-- `compare_rssi`. -/
def compareRssi (rssi : α → Int) (nodea nodeb : α) : Int :=
  if rssi nodea < rssi nodeb then 1 else 0

/-- The traversal of `bubblesort` up to `last`: the links, `curr` and `swapped`. -/
def bubblePass (compar : α → α → Int) (last : α) :
    (fuel : Nat) → Links α → (curr : α) → (swapped : Bool) → Option (Links α × α × Bool)
  | 0, _, _, _ => none
  | fuel + 1, links, curr, swapped =>
      if links.next curr ≠ last then
        if compar curr (links.next curr) > 0 then
          bubblePass compar last fuel (cdllSwapNodes links curr (links.next curr)) curr true
        else
          bubblePass compar last fuel links (links.next curr) swapped
      else
        some (links, curr, swapped)

/-- The outer loop of `bubblesort`. -/
def bubbleLoop (compar : α → α → Int) (head : α) :
    (fuel : Nat) → Links α → (last : α) → Option (Links α)
  | 0, _, _ => none
  | fuel + 1, links, last => do
      let (links, curr, swapped) ← bubblePass compar last (fuel + 1) links (links.next head) false
      if swapped = true then bubbleLoop compar head fuel links curr
      else return links

/-- `bubblesort`. -/
def bubblesort (fuel : Nat) (links : Links α) (head : α) (compar : α → α → Int) :
    Option (α × Links α) :=
  if cdllEmpty links head then some (head, links)
  else (bubbleLoop compar head fuel links head).map (head, ·)

/-! ## The loops -/

section Loops

variable {compar : α → α → Int} {fuel : Nat} {links : Links α} {head x : α}
  {done xs settled nodes : List α} {swapped : Bool}

/-- Links that differ at most in the list of `head`. -/
def SameOutside (head : α) (nodes : List α) (links links' : Links α) : Prop :=
  ∀ node ∉ head :: nodes, links'.next node = links.next node ∧ links'.prev node = links.prev node

omit [DecidableEq α] in
theorem SameOutside.trans {links' links'' : Links α} {nodes' : List α}
    (left : SameOutside head nodes links links') (right : SameOutside head nodes' links' links'')
    (perm : nodes'.Perm nodes) : SameOutside head nodes links links'' := by
  intro node outside
  have outside' : node ∉ head :: nodes' := fun member =>
    outside ((perm.cons head).mem_iff.mp member)
  obtain ⟨next, prev⟩ := left node outside
  obtain ⟨next', prev'⟩ := right node outside'
  exact ⟨next'.trans next, prev'.trans prev⟩

/-- One pass over the links is one pass over the list of the nodes. -/
theorem bubblePass_carry (ring : Ring links head (done ++ x :: (xs ++ settled)))
    (enough : xs.length < fuel) :
    ∃ links', bubblePass compar ((settled ++ [head]).head (by simp)) fuel links x swapped =
        some (links', (carry (0 < compar · ·) x xs).2.1,
          swapped || (carry (0 < compar · ·) x xs).2.2) ∧
      Ring links' head (done ++ ((carry (0 < compar · ·) x xs).1 ++
        (carry (0 < compar · ·) x xs).2.1 :: settled)) ∧
      SameOutside head (done ++ x :: (xs ++ settled)) links links' := by
  induction xs generalizing fuel links x done swapped with
  | nil =>
      obtain ⟨fuel, rfl⟩ := Nat.exists_eq_add_one.mpr enough
      have arrived : links.next x = (settled ++ [head]).head (by simp) :=
        (Linked.append.mp ring.linked).2.next_eq
      refine ⟨links, ?_, ring, fun _ _ => ⟨rfl, rfl⟩⟩
      rw [bubblePass, if_neg (not_not.mpr arrived), carry, Bool.or_false]
  | cons y ys ih =>
      obtain ⟨fuel, rfl⟩ := Nat.exists_eq_add_one.mpr (Nat.zero_lt_of_lt enough)
      have shorter : ys.length < fuel := Nat.lt_of_succ_lt_succ enough
      have next : links.next x = y := (Linked.append.mp ring.linked).2.1
      have further : y ≠ (settled ++ [head]).head (by simp) := by
        have member : (settled ++ [head]).head (by simp) ∈ (ys ++ settled) ++ [head] := by
          rw [List.append_assoc]
          exact List.mem_append_right _ (List.head_mem _)
        exact (ring.after_ne _ member).2.symm
      rw [bubblePass, next, if_pos further, carry]
      by_cases out : 0 < compar x y
      · rw [if_pos out, if_pos out]
        have ring' : Ring (cdllSwapNodes links x y) head ((done ++ [y]) ++ x :: (ys ++ settled)) :=
          by
          rw [List.append_assoc]
          exact cdllSwapNodes_ring ring
        obtain ⟨links', pass, rest, same⟩ := @ih fuel _ x _ true ring' shorter
        refine ⟨links', ?_, ?_, ?_⟩
        · rw [pass, Bool.true_or, Bool.or_true]
        · simpa using rest
        · refine SameOutside.trans (fun node => cdllSwapNodes_outside ring) same ?_
          rw [List.append_assoc]
          exact (List.Perm.swap x y _).append_left done
      · rw [if_neg out, if_neg out]
        have ring' : Ring links head ((done ++ [x]) ++ y :: (ys ++ settled)) := by
          rw [List.append_assoc]
          exact ring
        obtain ⟨links', pass, rest, same⟩ := @ih fuel _ y _ swapped ring' shorter
        refine ⟨links', pass, ?_, ?_⟩
        · simpa using rest
        · simpa using same

/-- The loop over the links settles the list of the nodes. -/
theorem bubbleLoop_settle (ring : Ring links head (x :: xs ++ settled))
    (enough : xs.length < fuel) :
    ∃ links', bubbleLoop compar head fuel links ((settled ++ [head]).head (by simp)) =
        some links' ∧
      Ring links' head (settle (0 < compar · ·) fuel (x :: xs) settled) ∧
      SameOutside head (x :: xs ++ settled) links links' := by
  induction fuel generalizing links x xs settled with
  | zero => exact absurd enough (Nat.not_lt_zero _)
  | succ fuel ih =>
      have first : links.next head = x := ring.linked.1
      obtain ⟨links', pass, ring', same⟩ :=
        @bubblePass_carry _ _ compar _ _ _ _ [] _ _ false ring enough
      rw [List.nil_append] at ring' same
      rw [bubbleLoop, first, pass, settle_cons]
      simp only [Option.bind_eq_bind, Option.bind_some, Bool.false_or]
      split
      · rename_i swapped
        obtain ⟨z, zs, front⟩ := List.exists_cons_of_ne_nil (carry_swapped swapped)
        have length : (carry (0 < compar · ·) x xs).1.length = xs.length := carry_length
        have perm := @carry_perm _ (0 < compar · ·) _ x xs
        rw [front] at ring' length perm ⊢
        obtain ⟨links'', loop, ring'', same'⟩ := @ih _ z zs _ ring' (by simp at length; omega)
        refine ⟨links'', loop, ring'', same.trans same' ?_⟩
        have whole := perm.append_right settled
        rwa [List.append_assoc] at whole
      · exact ⟨links', rfl, ring', same⟩

end Loops

/-! ## The order of the result -/

section Order

variable {compar : α → α → Int} {fuel : Nat} {links : Links α} {head : α} {nodes : List α}

/-- `nodes'` are `nodes` in the order of `compar`; those that compare equal keep theirs. -/
structure StablySorted (compar : α → α → Int) (nodes nodes' : List α) : Prop where
  perm : nodes'.Perm nodes
  ordered : nodes'.Pairwise fun a b => ¬0 < compar a b
  stable : ∀ a b, List.Sublist [a, b] nodes → ¬0 < compar a b → ¬0 < compar b a →
    List.Sublist [a, b] nodes'

theorem bubblesort_sorts (ring : Ring links head nodes)
    (order : StrictWeakOrderOn (0 < compar · ·) nodes) (enough : nodes.length ≤ fuel) :
    ∃ links' nodes', bubblesort fuel links head compar = some (head, links') ∧
      Ring links' head nodes' ∧ StablySorted compar nodes nodes' ∧
      SameOutside head nodes links links' := by
  cases nodes with
  | nil =>
      refine ⟨links, [], ?_, ring, ⟨.refl _, .nil, fun _ _ pair _ _ => pair⟩, fun _ _ => ⟨rfl, rfl⟩⟩
      rw [bubblesort, if_pos (ring.empty_iff.mpr rfl)]
  | cons x xs =>
      have occupied : ¬cdllEmpty links head := fun empty => by cases ring.empty_iff.mp empty
      have whole : x :: xs ++ [] = x :: xs := List.append_nil _
      rw [← whole] at ring
      obtain ⟨links', loop, ring', same⟩ := @bubbleLoop_settle _ _ compar _ _ _ _ _ [] ring enough
      refine ⟨links', _, ?_, ring', ⟨?_, ?_, ?_⟩, ?_⟩
      · rw [bubblesort, if_neg occupied]
        exact congrArg (Option.map (head, ·)) loop
      · have perm := @settle_perm _ (0 < compar · ·) _ fuel (x :: xs) []
        rwa [whole] at perm
      · exact settle_sorted order enough .nil fun _ _ _ impossible => by cases impossible
      · intro a b pair fine _
        rw [← whole] at pair
        exact settle_keeps a b pair fine
      · rwa [whole] at same

omit [DecidableEq α] in
theorem compareRssi_pos {rssi : α → Int} {a b : α} :
    0 < compareRssi rssi a b ↔ rssi a < rssi b := by
  rw [compareRssi]
  split <;> simp_all

omit [DecidableEq α] in
theorem compareRssi_order (rssi : α → Int) (nodes : List α) :
    StrictWeakOrderOn (0 < compareRssi rssi · ·) nodes := by
  constructor
  · intro a _
    rw [compareRssi_pos]
    exact Int.lt_irrefl _
  · intro a _ b _ c _
    simp only [compareRssi_pos]
    exact Int.lt_trans
  · intro a _ b _ c _
    simp only [compareRssi_pos]
    omega

omit [DecidableEq α] in
theorem StablySorted.descending {rssi : α → Int} {nodes' : List α}
    (sorted : StablySorted (compareRssi rssi) nodes nodes') :
    nodes'.Pairwise fun a b => rssi b ≤ rssi a := by
  refine sorted.ordered.imp ?_
  intro a b fine
  rw [compareRssi_pos] at fine
  exact Int.not_lt.mp fine

/-- `bubblesort` returns for every list and sorts it stably in place; with `compare_rssi` the
strongest access point comes first. -/
theorem bubblesort_correct (ring : Ring links head nodes) (enough : nodes.length ≤ fuel) :
    (∀ compar : α → α → Int, StrictWeakOrderOn (0 < compar · ·) nodes →
      ∃ links' nodes', bubblesort fuel links head compar = some (head, links') ∧
        Ring links' head nodes' ∧ StablySorted compar nodes nodes' ∧
        SameOutside head nodes links links') ∧
    ∀ rssi : α → Int,
      ∃ links' nodes', bubblesort fuel links head (compareRssi rssi) = some (head, links') ∧
        Ring links' head nodes' ∧ StablySorted (compareRssi rssi) nodes nodes' ∧
        nodes'.Pairwise fun a b => rssi b ≤ rssi a := by
  constructor
  · intro compar order
    exact bubblesort_sorts ring order enough
  · intro rssi
    obtain ⟨links', nodes', result, ring', sorted, _⟩ :=
      bubblesort_sorts ring (compareRssi_order rssi nodes) enough
    exact ⟨links', nodes', result, ring', sorted, sorted.descending⟩

end Order

/-- A circle of four nodes. -/
def circleOfFour : Links Nat where
  next node := (node + 1) % 4
  prev node := (node + 3) % 4

/-- Three access points behind their head, the weakest one first. -/
theorem bubblesort_correct_three :
    (∀ compar : Nat → Nat → Int, StrictWeakOrderOn (0 < compar · ·) [1, 2, 3] →
      ∃ links' nodes', bubblesort 3 circleOfFour 0 compar = some (0, links') ∧
        Ring links' 0 nodes' ∧ StablySorted compar [1, 2, 3] nodes' ∧
        SameOutside 0 [1, 2, 3] circleOfFour links') ∧
    ∀ rssi : Nat → Int,
      ∃ links' nodes', bubblesort 3 circleOfFour 0 (compareRssi rssi) = some (0, links') ∧
        Ring links' 0 nodes' ∧ StablySorted (compareRssi rssi) [1, 2, 3] nodes' ∧
        nodes'.Pairwise fun a b => rssi b ≤ rssi a :=
  bubblesort_correct ⟨by decide, rfl, rfl, rfl, rfl, rfl, rfl, rfl, rfl⟩ (Nat.le_refl 3)

end PicoApConfigure.Wifi
