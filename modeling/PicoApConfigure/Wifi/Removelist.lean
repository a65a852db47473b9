import PicoApConfigure.Wifi.Cdll

/-!
# List operations on circular lists

The operations of `cdll.c` do on a well-formed list what the operations on its sequence of nodes do,
and `removelist` of `find_local_ssid.c` frees every node once.
-/

namespace PicoApConfigure.Wifi

variable {α : Type}

section Code

variable [DecidableEq α]

/-- The loop of `removelist`; `freed` are the nodes that have been freed, in this order.  Touching
one of them again is undefined. -/
def removelistLoop (p : α) : (fuel : Nat) → (vlist : α) → Links α → (freed : List α) →
    Option (Links α × List α)
  | 0, _, _, _ => none
  | fuel + 1, vlist, links, freed =>
      if vlist = p then
        some (links, freed)
      else if vlist ∈ freed ∨ links.next vlist ∈ freed ∨ links.prev vlist ∈ freed then
        none
      else
        let nextVlist := links.next vlist
        removelistLoop p fuel nextVlist (cdllDeleteNode links vlist) (freed ++ [vlist])

/-- `removelist`. -/
def removelist (fuel : Nat) (links : Links α) (p : α) : Option (Links α × List α) :=
  removelistLoop p fuel (links.next p) links []

end Code

section Operations

variable {links : Links α} {head node newnode : α} {nodes before after : List α}

namespace Ring

/-- The neighbours of a node of the list. -/
theorem neighbours (ring : Ring links head (before ++ node :: after)) :
    links.prev node ∈ head :: before ∧ links.next node ∈ after ++ [head] ∧
      (∀ other ∈ head :: before, other ≠ node) ∧ (∀ other ∈ after ++ [head], other ≠ node) ∧
      ∀ other ∈ before, other ∉ after ++ [head] := by
  obtain ⟨front, back⟩ := Linked.append.mp ring.linked
  obtain ⟨notHead, inner⟩ := List.nodup_cons.mp ring.nodup
  obtain ⟨-, right, apart⟩ := List.nodup_append.mp inner
  have notAfter := (List.nodup_cons.mp right).1
  refine ⟨front.prev_mem, back.next_mem, ?_, ?_, ?_⟩
  · intro other member
    rcases List.mem_cons.mp member with rfl | member
    · exact fun same => notHead (by simp [same])
    · exact apart other member node List.mem_cons_self
  · intro other member
    rcases List.mem_append.mp member with member | member
    · exact fun same => notAfter (same ▸ member)
    · rw [List.mem_singleton.mp member]
      exact fun same => notHead (by simp [same])
  · intro other member late
    rcases List.mem_append.mp late with late | late
    · exact apart other member other (List.mem_cons_of_mem _ late) rfl
    · exact notHead (by simp [← List.mem_singleton.mp late, member])

end Ring

variable [DecidableEq α]

/-- A node that is not in the list becomes its first one. -/
theorem cdllInsertNodeHead_ring (ring : Ring links head nodes) (fresh : newnode ∉ head :: nodes) :
    Ring (cdllInsertNodeHead links newnode head) head (newnode :: nodes) := by
  have apart : ∀ node ∈ head :: nodes, node ≠ newnode := by
    rintro node member rfl
    exact fresh member
  obtain ⟨notHead, distinct⟩ := List.nodup_cons.mp ring.nodup
  have self := apart head List.mem_cons_self
  constructor
  · apply List.nodup_cons.mpr
    constructor
    · intro member
      rcases List.mem_cons.mp member with same | member
      · exact self same
      · exact notHead member
    · exact List.nodup_cons.mpr ⟨fun member => fresh (List.mem_cons_of_mem _ member), distinct⟩
  · refine ⟨?_, ?_, ?_⟩
    · simp [cdllInsertNodeHead, cdllAddNode, Links.setNext, Links.setPrev]
    · simp [cdllInsertNodeHead, cdllAddNode, Links.setNext, Links.setPrev]
    · have around : (nodes ++ [head]).Nodup :=
        (List.perm_append_singleton head nodes).nodup_iff.mpr ring.nodup
      apply ring.linked.redirect_first around
      · intro node member
        have behind : node ≠ head := by
          rintro rfl
          exact notHead member
        simp [cdllInsertNodeHead, cdllAddNode, Links.setNext, Links.setPrev,
          Function.update_of_ne, behind, apart node (List.mem_cons_of_mem _ member)]
      · intro node member other
        have inList : node ∈ head :: nodes := by
          rcases List.mem_append.mp member with member | member
          · exact List.mem_cons_of_mem _ member
          · rw [List.mem_singleton.mp member]
            exact List.mem_cons_self
        simp [cdllInsertNodeHead, cdllAddNode, Links.setNext, Links.setPrev,
          Function.update_of_ne, other, apart node inList]
      · simp [cdllInsertNodeHead, cdllAddNode, Links.setNext, Links.setPrev,
          Function.update_of_ne, self.symm]
      · have first : links.next head ≠ newnode := by
          have member := ring.linked.next_mem
          rcases List.mem_append.mp member with member | member
          · exact apart _ (List.mem_cons_of_mem _ member)
          · rw [List.mem_singleton.mp member]
            exact self
        simp [cdllInsertNodeHead, cdllAddNode, Links.setNext, Links.setPrev,
          Function.update_of_ne, first]

/-- The `next` fields after a deletion. -/
theorem cdllDeleteNode_next (away : links.prev node ≠ node) (other : α) :
    (cdllDeleteNode links node).next other =
      if other = node then node
      else if other = links.prev node then links.next node
      else links.next other := by
  simp only [cdllDeleteNode, cdllInit, Links.setNext, Links.setPrev, Function.update_apply,
    if_neg away.symm]

/-- The `prev` fields after a deletion. -/
theorem cdllDeleteNode_prev (away : links.prev node ≠ node) (other : α) :
    (cdllDeleteNode links node).prev other =
      if other = node then node
      else if other = links.next node then links.prev node
      else links.prev other := by
  simp only [cdllDeleteNode, cdllInit, Links.setNext, Links.setPrev, Function.update_apply,
    if_neg away.symm]

/-- A deleted node is a list of its own. -/
theorem cdllDeleteNode_single (away : links.prev node ≠ node) :
    Ring (cdllDeleteNode links node) node [] := by
  refine ⟨List.nodup_singleton node, ?_, ?_⟩
  · rw [cdllDeleteNode_next away, if_pos rfl]
  · rw [cdllDeleteNode_prev away, if_pos rfl]

/-- Deleting a node takes it out of the list. -/
theorem cdllDeleteNode_ring (ring : Ring links head (before ++ node :: after)) :
    Ring (cdllDeleteNode links node) head (before ++ after) := by
  obtain ⟨p, s, early, late, sides⟩ := ring.neighbours
  obtain ⟨front, back⟩ := Linked.append.mp ring.linked
  obtain ⟨notHead, inner⟩ := List.nodup_cons.mp ring.nodup
  have left := (List.nodup_append.mp inner).1
  have away := early _ p
  have next := cdllDeleteNode_next away
  have prev := cdllDeleteNode_prev away
  have kept : (before ++ after).Sublist (before ++ node :: after) :=
    (List.sublist_cons_self node after).append_left before
  -- The way to the node now ends where the way from it led.
  have front' : Linked (cdllDeleteNode links node) head before (links.next node) := by
    apply front.redirect_last (List.nodup_cons.mpr ⟨fun member => notHead (by simp [member]), left⟩)
    · intro other member differs
      rw [next, if_neg (early other member), if_neg differs]
    · intro other member
      have elsewhere : other ≠ links.next node := fun same => sides other member (same ▸ s)
      rw [prev, if_neg (early other (List.mem_cons_of_mem _ member)), if_neg elsewhere]
    · rw [next, if_neg away, if_pos rfl]
    · rw [prev, if_neg (late _ s), if_pos rfl]
  refine ⟨List.nodup_cons.mpr ⟨fun member => notHead (kept.subset member), inner.sublist kept⟩, ?_⟩
  cases after with
  | nil =>
      rw [back.1] at front'
      rwa [List.append_nil]
  | cons following after =>
      obtain ⟨first, -, rest⟩ := back
      rw [first] at front'
      refine Linked.append.mpr ⟨front', rest.congr ?_ ?_⟩
      · intro other member
        have behind : other ∈ (following :: after) ++ [head] := List.mem_append_left _ member
        have elsewhere : other ≠ links.prev node := by
          intro same
          rcases List.mem_cons.mp (same ▸ p) with rfl | earlier
          · exact notHead (by simp at member ⊢; tauto)
          · exact sides other earlier behind
        rw [next, if_neg (late other behind), if_neg elsewhere]
      · intro other member
        have behind : other ∈ (following :: after) ++ [head] := List.mem_cons_of_mem _ member
        have elsewhere : other ≠ links.next node := by
          rintro rfl
          have distinct : (following :: after ++ [head]).Nodup :=
            (List.perm_append_singleton head _).nodup_iff.mpr
              (ring.nodup.sublist (List.Sublist.cons_cons head
                ((List.sublist_cons_self node _).trans (List.sublist_append_right before _))))
          exact (List.nodup_cons.mp distinct).1 (first ▸ member)
        rw [prev, if_neg (late other behind), if_neg elsewhere]

/-- The rest of the list is freed node by node, from the first one on. -/
theorem removelistLoop_frees {freed : List α} (ring : Ring links head nodes)
    (gone : ∀ node ∈ freed, node ∉ head :: nodes) {fuel : Nat} (enough : nodes.length < fuel) :
    ∃ links', removelistLoop head fuel (links.next head) links freed =
        some (links', freed ++ nodes) ∧ Ring links' head [] := by
  induction nodes generalizing links freed fuel with
  | nil =>
      cases fuel with
      | zero => cases enough
      | succ fuel =>
          refine ⟨links, ?_, ring⟩
          rw [removelistLoop, if_pos ring.linked.1, List.append_nil]
  | cons node nodes ih =>
      cases fuel with
      | zero => cases enough
      | succ fuel =>
          have split : Ring links head ([] ++ node :: nodes) := ring
          obtain ⟨p, s, early, late, -⟩ := split.neighbours
          have rest := cdllDeleteNode_ring split
          have first := ring.linked.1
          have away := early _ p
          have inList : links.next node ∈ head :: node :: nodes := by
            simp only [List.mem_append, List.mem_cons] at s ⊢
            tauto
          have prev : links.prev node = head := ring.linked.2.1
          have untouched : ¬(node ∈ freed ∨ links.next node ∈ freed ∨ links.prev node ∈ freed) := by
            rintro (member | member | member)
            · exact gone _ member (by simp)
            · exact gone _ member inList
            · exact gone _ member (by simp [prev])
          have gone' : ∀ other ∈ freed ++ [node], other ∉ head :: nodes := by
            intro other member inRest
            rcases List.mem_append.mp member with member | member
            · apply gone other member
              simp only [List.mem_cons] at inRest ⊢
              tauto
            · rw [List.mem_singleton.mp member] at inRest
              have distinct := ring.nodup
              simp only [List.nodup_cons, List.mem_cons] at distinct inRest
              tauto
          obtain ⟨links', loop, empty⟩ := ih rest gone' (Nat.lt_of_succ_lt_succ enough)
          -- the deletion has linked the head to the node behind
          have next : (cdllDeleteNode links node).next head = links.next node := by
            rw [cdllDeleteNode_next away, if_neg (early head List.mem_cons_self), prev, if_pos rfl]
          refine ⟨links', ?_, empty⟩
          rw [next] at loop
          rw [removelistLoop, first, if_neg (early head List.mem_cons_self).symm, if_neg untouched,
            loop, List.append_assoc, List.singleton_append]

end Operations

/-- The operations refine the operations on the sequence of nodes: a new node comes to the front or
to the end, a deleted node is taken out and alone, two neighbours change places and nothing else
changes, and `removelist` frees the nodes in their order, each once, and leaves the head alone. -/
theorem cdll_refines_list [DecidableEq α] {links : Links α} {head : α} {nodes : List α}
    (ring : Ring links head nodes) :
    (∀ newnode, newnode ∉ head :: nodes →
      Ring (cdllInsertNodeHead links newnode head) head (newnode :: nodes) ∧
      Ring (cdllInsertNodeTail links newnode head) head (nodes ++ [newnode])) ∧
    (∀ node ∈ nodes, Ring (cdllDeleteNode links node) head (nodes.erase node) ∧
      Ring (cdllDeleteNode links node) node []) ∧
    (∀ before a b after, nodes = before ++ a :: b :: after → links.next a = b ∧
      Ring (cdllSwapNodes links a (links.next a)) head (before ++ b :: a :: after) ∧
      ∀ node ∉ head :: nodes,
        (cdllSwapNodes links a (links.next a)).next node = links.next node ∧
        (cdllSwapNodes links a (links.next a)).prev node = links.prev node) ∧
    ∀ fuel > nodes.length, ∃ links', removelist fuel links head = some (links', nodes) ∧
      nodes.Nodup ∧ Ring links' head [] := by
  refine ⟨?_, ?_, ?_, ?_⟩
  · intro newnode fresh
    exact ⟨cdllInsertNodeHead_ring ring fresh, cdllInsertNodeTail_ring ring fresh⟩
  · intro node member
    obtain ⟨before, after, rfl⟩ := List.append_of_mem member
    obtain ⟨p, -, early, -, -⟩ := ring.neighbours
    have notBefore : node ∉ before := fun inside =>
      early node (List.mem_cons_of_mem _ inside) rfl
    rw [List.erase_append_right _ notBefore, List.erase_cons_head]
    exact ⟨cdllDeleteNode_ring ring, cdllDeleteNode_single (early _ p)⟩
  · rintro before a b after rfl
    have next : links.next a = b := (Linked.append.mp ring.linked).2.1
    rw [next]
    refine ⟨rfl, cdllSwapNodes_ring ring, ?_⟩
    intro node outside
    exact cdllSwapNodes_outside ring outside
  · intro fuel enough
    obtain ⟨links', frees, empty⟩ := @removelistLoop_frees _ _ _ _ _ [] ring (by simp) _ enough
    exact ⟨links', frees, (List.nodup_cons.mp ring.nodup).2, empty⟩

/-- A list of two nodes. -/
def pairOfNodes : Links Nat :=
  cdllInsertNodeTail (cdllInsertNodeTail (cdllInit ⟨id, id⟩ 0) 1 0) 2 0

theorem pairOfNodes_ring : Ring pairOfNodes 0 [1, 2] :=
  cdllInsertNodeTail_ring (cdllInsertNodeTail_ring (Ring.initial ⟨id, id⟩ 0) (by decide))
    (by decide)

theorem cdll_refines_list_pair :
    (∀ newnode, newnode ∉ [0, 1, 2] →
      Ring (cdllInsertNodeHead pairOfNodes newnode 0) 0 [newnode, 1, 2] ∧
      Ring (cdllInsertNodeTail pairOfNodes newnode 0) 0 [1, 2, newnode]) ∧
    (∀ node ∈ [1, 2], Ring (cdllDeleteNode pairOfNodes node) 0 ([1, 2].erase node) ∧
      Ring (cdllDeleteNode pairOfNodes node) node []) ∧
    (∀ before a b after, [1, 2] = before ++ a :: b :: after → pairOfNodes.next a = b ∧
      Ring (cdllSwapNodes pairOfNodes a (pairOfNodes.next a)) 0 (before ++ b :: a :: after) ∧
      ∀ node ∉ [0, 1, 2],
        (cdllSwapNodes pairOfNodes a (pairOfNodes.next a)).next node = pairOfNodes.next node ∧
        (cdllSwapNodes pairOfNodes a (pairOfNodes.next a)).prev node = pairOfNodes.prev node) ∧
    ∀ fuel > 2, ∃ links', removelist fuel pairOfNodes 0 = some (links', [1, 2]) ∧
      [1, 2].Nodup ∧ Ring links' 0 [] :=
  cdll_refines_list pairOfNodes_ring

end PicoApConfigure.Wifi
