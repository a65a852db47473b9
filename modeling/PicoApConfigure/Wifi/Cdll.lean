import Mathlib.Data.List.Nodup
import Mathlib.Logic.Function.Basic

/-!
# Circular doubly linked lists

Translation of `cdll.c`.  A `struct cdll *` is an element of an arbitrary type; `Links` holds the
two fields of every node.
-/

namespace PicoApConfigure.Wifi

variable {α : Type}

/-- The fields of every `struct cdll`. -/
structure Links (α : Type) where
  next : α → α
  prev : α → α

section Code

variable [DecidableEq α]

/-- `node->next = value` -/
def Links.setNext (links : Links α) (node value : α) : Links α :=
  { links with next := Function.update links.next node value }

/-- `node->prev = value` -/
def Links.setPrev (links : Links α) (node value : α) : Links α :=
  { links with prev := Function.update links.prev node value }

/-- `cdll_empty`. -/
def cdllEmpty (links : Links α) (head : α) : Prop := head = links.next head

instance (links : Links α) (head : α) : Decidable (cdllEmpty links head) :=
  inferInstanceAs (Decidable (_ = _))

/-- `cdll_init`. -/
def cdllInit (links : Links α) (listhead : α) : Links α :=
  (links.setNext listhead listhead).setPrev listhead listhead

/-- `cdll_add_node`. -/
def cdllAddNode (links : Links α) (new prev next : α) : Links α :=
  (((links.setPrev next new).setNext new next).setPrev new prev).setNext prev new

/-- `cdll_insert_node_head`. -/
def cdllInsertNodeHead (links : Links α) (newnode head : α) : Links α :=
  cdllAddNode links newnode head (links.next head)

/-- `cdll_insert_node_tail`. -/
def cdllInsertNodeTail (links : Links α) (newnode head : α) : Links α :=
  cdllAddNode links newnode (links.prev head) head

/-- `cdll_delete_node`. -/
def cdllDeleteNode (links : Links α) (list : α) : Links α :=
  let links := links.setNext (links.prev list) (links.next list)
  let links := links.setPrev (links.next list) (links.prev list)
  cdllInit links list

/-- `cdll_swap_nodes`. -/
def cdllSwapNodes (links : Links α) (oldfirst newfirst : α) : Links α :=
  if oldfirst ≠ newfirst then
    cdllInsertNodeTail (cdllDeleteNode links newfirst) newfirst oldfirst
  else links

end Code

/-! ## Well-formed lists -/

/-- `nodes` lead from `first` to `last`, and back. -/
def Linked (links : Links α) : (first : α) → (nodes : List α) → (last : α) → Prop
  | first, [], last => links.next first = last ∧ links.prev last = first
  | first, node :: nodes, last =>
      links.next first = node ∧ links.prev node = first ∧ Linked links node nodes last

/-- The list of `head` consists of `nodes`. -/
structure Ring (links : Links α) (head : α) (nodes : List α) : Prop where
  nodup : (head :: nodes).Nodup
  linked : Linked links head nodes head

namespace Linked

variable {links links' : Links α} {first node last : α} {nodes before after : List α}

theorem append : Linked links first (before ++ node :: after) last ↔
    Linked links first before node ∧ Linked links node after last := by
  induction before generalizing first with
  | nil => exact (and_assoc).symm
  | cons head rest ih =>
      rw [List.cons_append, Linked, Linked, ih]
      constructor
      · rintro ⟨next, prev, left, right⟩
        exact ⟨⟨next, prev, left⟩, right⟩
      · rintro ⟨⟨next, prev, left⟩, right⟩
        exact ⟨next, prev, left, right⟩

/-- The first node behind `first`. -/
theorem next_eq (linked : Linked links first nodes last) :
    links.next first = (nodes ++ [last]).head (by simp) := by
  cases nodes with
  | nil => exact linked.1
  | cons node nodes => exact linked.1

/-- The last node before `last`. -/
theorem prev_eq (linked : Linked links first nodes last) :
    links.prev last = (first :: nodes).getLast (by simp) := by
  induction nodes generalizing first with
  | nil => exact linked.2
  | cons node nodes ih =>
      rw [List.getLast_cons (by simp)]
      exact ih linked.2.2

theorem next_mem (linked : Linked links first nodes last) :
    links.next first ∈ nodes ++ [last] := by
  rw [linked.next_eq]
  exact List.head_mem _

theorem prev_mem (linked : Linked links first nodes last) :
    links.prev last ∈ first :: nodes := by
  rw [linked.prev_eq]
  exact List.getLast_mem _

/-- Other links that agree along the way. -/
theorem congr (linked : Linked links first nodes last)
    (next : ∀ node ∈ first :: nodes, links'.next node = links.next node)
    (prev : ∀ node ∈ nodes ++ [last], links'.prev node = links.prev node) :
    Linked links' first nodes last := by
  induction nodes generalizing first with
  | nil =>
      refine ⟨?_, ?_⟩
      · rw [next first List.mem_cons_self]
        exact linked.1
      · rw [prev last List.mem_cons_self]
        exact linked.2
  | cons node nodes ih =>
      refine ⟨?_, ?_, ih linked.2.2 ?_ ?_⟩
      · rw [next first List.mem_cons_self]
        exact linked.1
      · rw [prev node List.mem_cons_self]
        exact linked.2.1
      · intro other member
        exact next other (List.mem_cons_of_mem _ member)
      · intro other member
        exact prev other (List.mem_cons_of_mem _ member)

/-- The way leads to another node at its end. -/
theorem redirect_last {last' : α} (linked : Linked links first nodes last)
    (distinct : (first :: nodes).Nodup)
    (next : ∀ node ∈ first :: nodes, node ≠ links.prev last → links'.next node = links.next node)
    (prev : ∀ node ∈ nodes, links'.prev node = links.prev node)
    (there : links'.next (links.prev last) = last') (back : links'.prev last' = links.prev last) :
    Linked links' first nodes last' := by
  induction nodes generalizing first with
  | nil =>
      rw [linked.2] at there back
      exact ⟨there, back⟩
  | cons node nodes ih =>
      have away : first ≠ links.prev last := by
        intro same
        exact (List.nodup_cons.mp distinct).1 (same ▸ linked.2.2.prev_mem)
      refine ⟨?_, ?_, ih linked.2.2 (List.nodup_cons.mp distinct).2 ?_ ?_⟩
      · rw [next first List.mem_cons_self away]
        exact linked.1
      · rw [prev node List.mem_cons_self]
        exact linked.2.1
      · intro other member
        exact next other (List.mem_cons_of_mem _ member)
      · intro other member
        exact prev other (List.mem_cons_of_mem _ member)

/-- The way comes from another node at its start. -/
theorem redirect_first {first' : α} (linked : Linked links first nodes last)
    (distinct : (nodes ++ [last]).Nodup)
    (next : ∀ node ∈ nodes, links'.next node = links.next node)
    (prev : ∀ node ∈ nodes ++ [last], node ≠ links.next first → links'.prev node = links.prev node)
    (there : links'.next first' = links.next first)
    (back : links'.prev (links.next first) = first') :
    Linked links' first' nodes last := by
  cases nodes with
  | nil =>
      rw [linked.1] at there back
      exact ⟨there, back⟩
  | cons node nodes =>
      rw [linked.1] at there back prev
      refine ⟨there, back, linked.2.2.congr next ?_⟩
      intro other member
      refine prev other (List.mem_cons_of_mem _ member) ?_
      rintro rfl
      exact (List.nodup_cons.mp distinct).1 member

end Linked

namespace Ring

variable {links : Links α} {head x y : α} {nodes before after : List α}

theorem initial [DecidableEq α] (links : Links α) (head : α) :
    Ring (cdllInit links head) head [] := by
  refine ⟨List.nodup_singleton head, ?_, ?_⟩ <;> simp [cdllInit, Links.setNext, Links.setPrev]

theorem empty_iff [DecidableEq α] (ring : Ring links head nodes) :
    cdllEmpty links head ↔ nodes = [] := by
  rw [cdllEmpty]
  cases nodes with
  | nil => exact ⟨fun _ => rfl, fun _ => ring.linked.1.symm⟩
  | cons node nodes =>
      rw [ring.linked.1]
      constructor
      · rintro rfl
        exact absurd List.mem_cons_self (List.nodup_cons.mp ring.nodup).1
      · exact fun impossible => by cases impossible

theorem pair_ne (ring : Ring links head (before ++ x :: y :: after)) : x ≠ y := by
  rintro rfl
  have inner := (List.nodup_append.mp (List.nodup_cons.mp ring.nodup).2).2.1
  exact (List.nodup_cons.mp inner).1 List.mem_cons_self

theorem before_ne (ring : Ring links head (before ++ x :: y :: after)) :
    ∀ node ∈ head :: before, node ≠ x ∧ node ≠ y := by
  obtain ⟨notHead, inner⟩ := List.nodup_cons.mp ring.nodup
  have apart := (List.nodup_append.mp inner).2.2
  intro node member
  rcases List.mem_cons.mp member with rfl | member
  · exact ⟨fun same => notHead (by simp [same]), fun same => notHead (by simp [same])⟩
  · exact ⟨apart node member x (by simp), apart node member y (by simp)⟩

theorem after_ne (ring : Ring links head (before ++ x :: y :: after)) :
    ∀ node ∈ after ++ [head], node ≠ x ∧ node ≠ y := by
  have inner := (List.nodup_append.mp (List.nodup_cons.mp ring.nodup).2).2.1
  obtain ⟨notX, rest⟩ := List.nodup_cons.mp inner
  have notY := (List.nodup_cons.mp rest).1
  intro node member
  rcases List.mem_append.mp member with member | member
  · exact ⟨fun same => notX (by simp [← same, member]), fun same => notY (same ▸ member)⟩
  · rw [List.mem_singleton.mp member]
    exact ring.before_ne head List.mem_cons_self

end Ring

/-! ## The operations -/

section Operations

variable [DecidableEq α] {links : Links α} {head x y : α} {nodes before after : List α}

/-- A node that is not in the list becomes its last one. -/
theorem cdllInsertNodeTail_ring {newnode : α} (ring : Ring links head nodes)
    (fresh : newnode ∉ head :: nodes) :
    Ring (cdllInsertNodeTail links newnode head) head (nodes ++ [newnode]) := by
  have apart : ∀ node ∈ head :: nodes, node ≠ newnode := by
    rintro node member rfl
    exact fresh member
  have last := ring.linked.prev_mem
  constructor
  · rw [← List.cons_append]
    exact List.nodup_append.mpr ⟨ring.nodup, List.nodup_singleton newnode, by simpa using apart⟩
  · rw [Linked.append]
    constructor
    · refine ring.linked.redirect_last ring.nodup ?_ ?_ ?_ ?_
      · intro node member other
        simp [cdllInsertNodeTail, cdllAddNode, Links.setNext, Links.setPrev,
          Function.update_of_ne, other, apart node member]
      · intro node member
        have behind : node ≠ head := by
          rintro rfl
          exact (List.nodup_cons.mp ring.nodup).1 member
        simp [cdllInsertNodeTail, cdllAddNode, Links.setNext, Links.setPrev,
          Function.update_of_ne, behind, apart node (List.mem_cons_of_mem _ member)]
      · simp [cdllInsertNodeTail, cdllAddNode, Links.setNext, Links.setPrev]
      · simp [cdllInsertNodeTail, cdllAddNode, Links.setNext, Links.setPrev]
    · have self := apart head List.mem_cons_self
      have other := (apart _ last).symm
      constructor <;> simp [cdllInsertNodeTail, cdllAddNode, Links.setNext, Links.setPrev,
        Function.update_of_ne, self, other]

/-- The `next` fields after a swap of `x` with the node `y` behind it. -/
theorem cdllSwapNodes_next (distinct : x ≠ y) (prev : links.prev y = x)
    (away : links.next y ≠ x) (node : α) :
    (cdllSwapNodes links x y).next node =
      if node = links.prev x then y
      else if node = y then x
      else if node = x then links.next y
      else links.next node := by
  simp only [cdllSwapNodes, if_pos distinct, cdllInsertNodeTail, cdllAddNode, cdllDeleteNode,
    cdllInit, Links.setNext, Links.setPrev, prev, Function.update_of_ne distinct,
    Function.update_of_ne distinct.symm, Function.update_of_ne away.symm]
  simp only [Function.update_apply]
  grind

/-- The `prev` fields after a swap of `x` with the node `y` behind it. -/
theorem cdllSwapNodes_prev (distinct : x ≠ y) (prev : links.prev y = x)
    (away : links.next y ≠ x) (away' : links.next y ≠ y) (node : α) :
    (cdllSwapNodes links x y).prev node =
      if node = links.next y then x
      else if node = x then y
      else if node = y then links.prev x
      else links.prev node := by
  simp only [cdllSwapNodes, if_pos distinct, cdllInsertNodeTail, cdllAddNode, cdllDeleteNode,
    cdllInit, Links.setNext, Links.setPrev, prev, Function.update_of_ne distinct,
    Function.update_of_ne distinct.symm, Function.update_of_ne away.symm]
  simp only [Function.update_apply]
  grind

/-- A swap of two neighbours. -/
theorem cdllSwapNodes_ring (ring : Ring links head (before ++ x :: y :: after)) :
    Ring (cdllSwapNodes links x y) head (before ++ y :: x :: after) := by
  have perm : (head :: (before ++ y :: x :: after)).Perm (head :: (before ++ x :: y :: after)) :=
    ((List.Perm.swap x y after).append_left before).cons head
  have nodup := perm.nodup_iff.mpr ring.nodup
  obtain ⟨front, rest⟩ := Linked.append.mp ring.linked
  obtain ⟨next, prev, back⟩ := rest
  obtain ⟨notHead, inner⟩ := List.nodup_cons.mp ring.nodup
  obtain ⟨left, right, apart⟩ := List.nodup_append.mp inner
  have rightAfter := (List.nodup_cons.mp (List.nodup_cons.mp right).2).2
  have distinct := ring.pair_ne
  have early := ring.before_ne
  have late := ring.after_ne
  have sides : ∀ node ∈ before, node ∉ after ++ [head] := by
    intro node member other
    rcases List.mem_append.mp other with other | other
    · exact apart node member node (by simp [other]) rfl
    · exact notHead (by simp [← List.mem_singleton.mp other, member])
  have p := front.prev_mem
  have s := back.next_mem
  have next' := cdllSwapNodes_next distinct prev (late _ s).1
  have prev' := cdllSwapNodes_prev distinct prev (late _ s).1 (late _ s).2
  refine ⟨nodup, Linked.append.mpr ⟨?_, ?_, ?_, ?_⟩⟩
  · -- The way to the pair now ends in `y`.
    apply front.redirect_last (List.nodup_cons.mpr ⟨fun member => notHead (by simp [member]), left⟩)
    · intro node member other
      rw [next', if_neg other, if_neg (early node member).2, if_neg (early node member).1]
    · intro node member
      have other := early node (List.mem_cons_of_mem _ member)
      have away : node ≠ links.next y := fun same => sides node member (same ▸ s)
      rw [prev', if_neg away, if_neg other.1, if_neg other.2]
    · rw [next', if_pos rfl]
    · rw [prev', if_neg (late _ s).2.symm, if_neg distinct.symm, if_pos rfl]
  · rw [next', if_neg (early _ p).2.symm, if_pos rfl]
  · rw [prev', if_neg (late _ s).1.symm, if_pos rfl]
  · -- The way from the pair now starts in `x`.
    have rest : (after ++ [head]).Nodup :=
      List.nodup_append.mpr ⟨rightAfter, List.nodup_singleton head, by
        rintro node member _ other rfl
        exact notHead (by simp [← List.mem_singleton.mp other, member])⟩
    apply back.redirect_first rest
    · intro node member
      have other := late node (List.mem_append_left _ member)
      have away : node ≠ links.prev x := by
        intro same
        rcases List.mem_cons.mp (same ▸ p) with rfl | earlier
        · exact notHead (by simp [member])
        · exact sides node earlier (List.mem_append_left _ member)
      rw [next', if_neg away, if_neg other.2, if_neg other.1]
    · intro node member other
      rw [prev', if_neg other, if_neg (late node member).1, if_neg (late node member).2]
    · rw [next', if_neg (early _ p).1.symm, if_neg distinct, if_pos rfl]
    · rw [prev', if_pos rfl]

/-- A swap in a list leaves other nodes alone. -/
theorem cdllSwapNodes_outside (ring : Ring links head (before ++ x :: y :: after)) {node : α}
    (outside : node ∉ head :: (before ++ x :: y :: after)) :
    (cdllSwapNodes links x y).next node = links.next node ∧
      (cdllSwapNodes links x y).prev node = links.prev node := by
  obtain ⟨front, _, prev, back⟩ := Linked.append.mp ring.linked
  have p := front.prev_mem
  have s := back.next_mem
  have late := ring.after_ne _ s
  have away : ∀ other ∈ head :: (before ++ x :: y :: after), node ≠ other := by
    rintro other member rfl
    exact outside member
  have notP := away (links.prev x) (by simp at p ⊢; tauto)
  have notS := away (links.next y) (by simp at s ⊢; tauto)
  have notX := away x (by simp)
  have notY := away y (by simp)
  constructor
  · rw [cdllSwapNodes_next ring.pair_ne prev late.1, if_neg notP, if_neg notY, if_neg notX]
  · rw [cdllSwapNodes_prev ring.pair_ne prev late.1 late.2, if_neg notS, if_neg notX, if_neg notY]

end Operations

end PicoApConfigure.Wifi
