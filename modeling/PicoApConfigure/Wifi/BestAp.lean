import PicoApConfigure.FlashIo.Credentials
import PicoApConfigure.Wifi.Bubblesort
import PicoApConfigure.Wifi.StartUp

/-!
# Trying the access points

Translation of `scan_find_best_ap` over the nodes of `knownnodes` and the flash.  `data` is the
`struct my_params` around a `struct cdll`.  Every call may find other content in its password
buffer, on its stack and in the page buffer.
-/

namespace PicoApConfigure.Wifi

open Nor RingBuffer FlashIo

/-- A network name in memory. -/
def Ssid.text (ssid : Ssid) : Memory := store (fun _ => 0) 0 ssid.bytes

namespace BestAp

variable {α : Type} [DecidableEq α]

/-- Loop of `scan_find_best_ap` from the node `ll` on. -/
def scanFindBestApLoop (links : Links α) (head : α) (data : α → MyParams) (stack : Stack) :
    (fuel : Nat) → (ll : α) → (best : Option α) → (password pagebuff : Memory) →
      FlashProg (Option α × Memory × Memory)
  | 0, _, _, _, _ => .stuck
  | fuel + 1, ll, best, password, pagebuff =>
      if ll = head then
        return (best, password, pagebuff)
      else if (data ll).found = 0 then do
        let best := best.getD ll
        let best := if (data ll).res.rssi > (data best).res.rssi then ll else best
        let (err, password, pagebuff) ← flashIoFindMatchingSsid fuel (data best).res.ssid.text
          password stack pagebuff
        if err < 0 then
          scanFindBestApLoop links head data stack fuel (links.next ll) none password pagebuff
        else
          return (some best, password, pagebuff)
      else
        scanFindBestApLoop links head data stack fuel (links.next ll) best password pagebuff

/-- `scan_find_best_ap`: the node around the result, the nodes and the password afterwards. -/
def scanFindBestAp (fuel : Nat) (links : Links α) (head : α) (data : α → MyParams)
    (password : Memory) (stack : Stack) (pagebuff : Memory) :
    FlashProg (Option α × (α → MyParams) × Memory × Memory) := do
  let (best, password, pagebuff) ← scanFindBestApLoop links head data stack fuel (links.next head)
    none (store password 0 [0]) pagebuff
  match best with
  | some best =>
      return (some best, Function.update data best { data best with found := 42 }, password,
        pagebuff)
  | none => return (none, data, password, pagebuff)

/-! ## The credentials -/

/-- The string in a buffer. -/
def HoldsString (buffer : Memory) (text : List Byte) : Prop :=
  slice buffer 0 (text.length + 1) = text ++ [0]

/-- What `flash_io_find_matching_ssid` returns for a network with or without a password. -/
def Answers (err : Int) (pw : Memory) : Option (List Byte) → Prop
  | none => err < 0
  | some password => 0 ≤ err ∧ HoldsString pw password

/-- For the `names` the flash holds the same credentials in all its `contents`: the lookups answer
with them, and leave one of these contents behind. -/
def FixedCredentials (region : Nat → Prop) (credentials : Credentials) (names : Ssid → Prop)
    (contents : Memory → Prop) : Prop :=
  ∀ memory, contents memory → ∀ ssid, names ssid → ∀ pw stack pagebuff,
    ∃ writes err pw' pagebuff', FlashProg.Completes region
        (fun fuel => flashIoFindMatchingSsid fuel ssid.text pw stack pagebuff) memory writes
        (err, pw', pagebuff') ∧
      contents (replay writes memory) ∧ Answers err pw' (credentials ssid)

section Lookup

/-- A lookup that fails leaves the password alone. -/
theorem findMatchingLoop_keeps (ss pw : Memory) (sslen fuel : Nat) :
    ∀ (terr : Int) (rb : RbT) (pagebuff : Memory),
      (findMatchingLoop ss sslen fuel terr rb pw pagebuff).Yields
        fun result => result.1 < 0 → result.2.1 = pw := by
  induction fuel with
  | zero => exact fun _ _ _ => .stuck
  | succ fuel ih =>
      intro terr rb pagebuff
      rw [findMatchingLoop]
      split
      · exact .pure fun _ => rfl
      refine .bind_any ?_
      rintro ⟨terr, rb, pagebuff⟩
      dsimp only
      split
      · exact .pure fun _ => rfl
      · rename_i found
        refine .bind_any ?_
        rintro ⟨_, rb, pagebuff⟩
        refine .bind_any ?_
        intro ssidlen
        split
        · refine .bind_any ?_
          intro pwEnd
          exact .pure fun failed => absurd failed found
        · exact ih terr rb pagebuff

theorem flashIoFindMatchingSsid_keeps (fuel : Nat) (ss pw : Memory) (stack : Stack)
    (pagebuff : Memory) :
    (flashIoFindMatchingSsid fuel ss pw stack pagebuff).Yields
      fun result => result.1 < 0 → result.2.1 = pw := by
  rw [flashIoFindMatchingSsid]
  refine .bind_any ?_
  intro sslen
  refine .bind_any ?_
  rintro ⟨terr, pagebuff⟩
  dsimp only
  split
  · exact .pure fun _ => rfl
  · refine .bind_any ?_
    rintro ⟨terr, rb⟩
    dsimp only
    split
    · exact .stuck
    · exact findMatchingLoop_keeps ss pw sslen fuel terr.code rb pagebuff

end Lookup

/-! ## One call -/

section Calls

variable {region : Nat → Prop} {credentials : Credentials} {names : Ssid → Prop}
  {contents : Memory → Prop} {links : Links α} {head : α} {data : α → MyParams} {memory : Memory}
  {nodes done rest : List α}

/-- The node has not been tried and the flash has a password for its network. -/
def Untried (credentials : Credentials) (data : α → MyParams) (node : α) : Prop :=
  (data node).found = 0 ∧ credentials (data node).res.ssid ≠ none

instance (credentials : Credentials) (data : α → MyParams) (node : α) :
    Decidable (Untried credentials data node) :=
  inferInstanceAs (Decidable (_ ∧ _))

/-- The password that the flash has for the network of a node, if there is a node. -/
def passwordOf (credentials : Credentials) (data : α → MyParams) (node : Option α) : List Byte :=
  (node.bind fun node => credentials (data node).res.ssid).getD []

/-- The loop stops at the first such node. -/
theorem scanFindBestApLoop_finds (fixed : FixedCredentials region credentials names contents)
    (stack : Stack) (ring : Ring links head (done ++ rest))
    (named : ∀ node ∈ rest, names (data node).res.ssid) :
    ∀ {memory password : Memory} (pagebuff : Memory), contents memory → HoldsString password [] →
      ∃ writes password' pagebuff', FlashProg.Completes region
          (fun fuel => scanFindBestApLoop links head data stack fuel
            ((rest ++ [head]).head (by simp)) none password pagebuff) memory writes
          (rest.find? fun node => Untried credentials data node, password', pagebuff') ∧
        contents (replay writes memory) ∧
        HoldsString password' (passwordOf credentials data
          (rest.find? fun node => Untried credentials data node)) := by
  induction rest generalizing done with
  | nil =>
      intro memory password pagebuff held empty
      refine ⟨[], password, pagebuff, .succ ?_, held, empty⟩
      simp only [List.nil_append, List.head_cons, scanFindBestApLoop, if_true]
      exact (FlashProg.Exec.pure _).completes
  | cons node rest ih =>
      intro memory password pagebuff held empty
      have apart : node ≠ head := by
        rintro rfl
        exact (List.nodup_cons.mp ring.nodup).1 (by simp)
      have next : links.next node = (rest ++ [head]).head (by simp) := 
        (Linked.append.mp ring.linked).2.next_eq
      have ring' : Ring links head ((done ++ [node]) ++ rest) := by
        rw [List.append_assoc]
        exact ring
      have onward := @ih _ ring' fun other member => named other (List.mem_cons_of_mem _ member)
      by_cases fresh : (data node).found = 0
      · obtain ⟨writes, err, pw, pagebuff', lookup, held', answers⟩ :=
          fixed memory held _ (named node List.mem_cons_self) password stack pagebuff
        cases known : credentials (data node).res.ssid with
        | none =>
            -- the lookup leaves the password empty
            rw [known] at answers
            have failed : err < 0 := answers
            have kept : pw = password := by
              obtain ⟨bound, exec⟩ := lookup
              exact flashIoFindMatchingSsid_keeps _ _ _ _ _ _ _ _ _ (exec bound (Nat.le_refl _))
                failed
            subst kept
            have unknown : ¬Untried credentials data node := fun untried => untried.2 known
            obtain ⟨writes', password', pagebuff'', completes, held'', result⟩ :=
              onward pagebuff' held' empty
            refine ⟨writes ++ writes', password', pagebuff'', .succ ?_, ?_, ?_⟩
            · simp only [List.cons_append, List.head_cons, scanFindBestApLoop, if_neg apart,
                if_pos fresh, Option.getD_none, gt_iff_lt, Int.lt_irrefl, if_false,
                List.find?_cons, decide_eq_false unknown]
              refine lookup.bind ?_
              simp only [if_pos failed, next]
              exact completes
            · rwa [replay_append]
            · rw [List.find?_cons, decide_eq_false unknown]
              exact result
        | some text =>
            rw [known] at answers
            obtain ⟨succeeded, holds⟩ := answers
            have untried : Untried credentials data node := ⟨fresh, by simp [known]⟩
            have shows : ¬err < 0 := Int.not_lt.mpr succeeded
            refine ⟨writes, pw, pagebuff', .succ ?_, held', ?_⟩
            · simp only [List.cons_append, List.head_cons, scanFindBestApLoop, if_neg apart,
                if_pos fresh, Option.getD_none, gt_iff_lt, Int.lt_irrefl, if_false,
                List.find?_cons, decide_eq_true untried]
              rw [← List.append_nil writes]
              refine lookup.bind ?_
              simp only [if_neg shows]
              exact (FlashProg.Exec.pure _).completes
            · rw [List.find?_cons, decide_eq_true untried]
              simp only [passwordOf, Option.bind_some, known, Option.getD_some]
              exact holds
      · have tried : ¬Untried credentials data node := fun untried => fresh untried.1
        obtain ⟨writes, password', pagebuff', completes, result⟩ := onward pagebuff held empty
        refine ⟨writes, password', pagebuff', .succ ?_, ?_⟩
        · simp only [List.cons_append, List.head_cons, scanFindBestApLoop, if_neg apart,
            if_neg fresh, next, List.find?_cons, decide_eq_false tried]
          exact completes
        · rw [List.find?_cons, decide_eq_false tried]
          exact result

/-- `node->found = 42;` -/
def marked (data : α → MyParams) (node : α) : α → MyParams :=
  Function.update data node { data node with found := 42 }

/-- A call returns the first node that has not been tried and has a password. -/
theorem scanFindBestAp_finds (fixed : FixedCredentials region credentials names contents)
    (ring : Ring links head nodes) (named : ∀ node ∈ nodes, names (data node).res.ssid)
    (held : contents memory) (password : Memory) (stack : Stack) (pagebuff : Memory) :
    ∃ writes password' pagebuff', FlashProg.Completes region
        (fun fuel => scanFindBestAp fuel links head data password stack pagebuff) memory writes
        (nodes.find? fun node => Untried credentials data node,
          ((nodes.find? fun node => Untried credentials data node).elim data (marked data)),
          password', pagebuff') ∧
      contents (replay writes memory) ∧
      HoldsString password' (passwordOf credentials data
        (nodes.find? fun node => Untried credentials data node)) := by
  have first : links.next head = (nodes ++ [head]).head (by simp) := ring.linked.next_eq
  have empty : HoldsString (store password 0 [0]) [] := rfl
  obtain ⟨writes, password', pagebuff', loop, held', holds⟩ :=
    @scanFindBestApLoop_finds _ _ _ _ _ _ _ _ _ [] nodes fixed stack ring named memory _ pagebuff
    held
      empty
  refine ⟨writes, password', pagebuff', ?_, held', holds⟩
  simp only [scanFindBestAp, first]
  rw [← List.append_nil writes]
  refine loop.bind ?_
  cases nodes.find? fun node => Untried credentials data node with
  | none => exact (FlashProg.Exec.pure _).completes
  | some best => exact (FlashProg.Exec.pure _).completes

end Calls

/-! ## Sequences of calls -/

/-- The nodes and the flash. -/
structure Device (α : Type) where
  data : α → MyParams
  memory : Memory

/-- A call of `scan_find_best_ap`: the buffers and the stack it finds, and what it returns. -/
structure Call (α : Type) where
  password : Memory
  stack : Stack
  pagebuff : Memory
  result : Option α
  returned : Memory
  writes : List Op

/-- The call takes the device from `before` to `after`. -/
structure Step (region : Nat → Prop) (links : Links α) (head : α) (before : Device α)
    (call : Call α) (after : Device α) : Prop where
  completes : ∃ pagebuff, FlashProg.Completes region
    (fun fuel => scanFindBestAp fuel links head before.data call.password call.stack call.pagebuff)
    before.memory call.writes (call.result, after.data, call.returned, pagebuff)
  memory_eq : after.memory = replay call.writes before.memory

section Sequence

variable {region : Nat → Prop} {credentials : Credentials} {names : Ssid → Prop}
  {contents : Memory → Prop} {links : Links α} {head : α} {data : α → MyParams} {memory : Memory}
  {nodes known : List α} {calls : List (Call α)} {device : Device α} {k : Nat}

/-- Of a list without repetition the first element behind a part of it. -/
theorem find_not_mem_take (distinct : known.Nodup) (k : Nat) :
    known.find? (fun node => decide (node ∉ known.take k)) = known[k]? := by
  have whole := List.take_append_drop k known
  have before : (known.take k).find? (fun node => decide (node ∉ known.take k)) = none := by
    rw [List.find?_eq_none]
    intro node member
    simpa using member
  have behind : (known.drop k).find? (fun node => decide (node ∉ known.take k)) =
      (known.drop k).head? := by
    cases rest : known.drop k with
    | nil => rfl
    | cons node rest' =>
        rw [← whole, rest] at distinct
        have fresh : node ∉ known.take k := fun member =>
          (List.nodup_append.mp distinct).2.2 node member node List.mem_cons_self rfl
        rw [List.find?_cons, decide_eq_true fresh]
        rfl
  calc known.find? (fun node => decide (node ∉ known.take k))
      = (known.take k ++ known.drop k).find? (fun node => decide (node ∉ known.take k)) := by
        rw [whole]
    _ = (known.drop k).head? := by rw [List.find?_append, before, Option.none_or, behind]
    _ = known[k]? := List.head?_drop

/-- The nodes after `k` calls: the first `k` known ones are marked. -/
structure Marked (data : α → MyParams) (known : List α) (k : Nat) (now : α → MyParams) : Prop where
  res : ∀ node, (now node).res = (data node).res
  found : ∀ node, (now node).found = if node ∈ known.take k then 42 else (data node).found

theorem Marked.start (data : α → MyParams) (known : List α) : Marked data known 0 data := by
  refine ⟨fun _ => rfl, ?_⟩
  intro node
  rw [List.take_zero, if_neg List.not_mem_nil]

/-- The nodes whose network the flash has a password for. -/
def knownNodes (credentials : Credentials) (data : α → MyParams) (nodes : List α) : List α :=
  nodes.filter fun node => credentials (data node).res.ssid ≠ none

/-- The first node that can be tried after `k` calls. -/
theorem Marked.find {now : α → MyParams}
    (marks : Marked data (knownNodes credentials data nodes) k now) (distinct : nodes.Nodup)
    (fresh : ∀ node ∈ nodes, (data node).found = 0) :
    (nodes.find? fun node => Untried credentials now node) =
      (knownNodes credentials data nodes)[k]? := by
  have distinct' : (knownNodes credentials data nodes).Nodup := distinct.filter _
  have same : ∀ node ∈ nodes, decide (Untried credentials now node) =
      (decide (node ∉ (knownNodes credentials data nodes).take k) &&
        decide (credentials (data node).res.ssid ≠ none)) := by
    intro node member
    rw [← Bool.decide_and]
    refine decide_eq_decide.mpr ?_
    rw [Untried, marks.found, marks.res, fresh node member]
    split <;> simp_all
  rw [← find_not_mem_take distinct' k, ← List.head?_filter, ← List.head?_filter,
    List.filter_congr same, ← List.filter_filter]
  rfl

theorem Marked.step {now : α → MyParams} (marks : Marked data known k now) :
    Marked data known (k + 1) (known[k]?.elim now (marked now)) := by
  cases entry : known[k]? with
  | none =>
      have all : known.take (k + 1) = known.take k := by
        rw [List.take_of_length_le, List.take_of_length_le]
        · exact List.getElem?_eq_none_iff.mp entry
        · have := List.getElem?_eq_none_iff.mp entry
          omega
      refine ⟨marks.res, ?_⟩
      rw [all]
      exact marks.found
  | some best =>
      have more : known.take (k + 1) = known.take k ++ [best] := by
        rw [List.take_add_one, entry]
        rfl
      constructor
      · intro node
        by_cases here : node = best
        · subst here
          simp [marked, marks.res]
        · simp [marked, Function.update_of_ne here, marks.res]
      · intro node
        rw [more]
        by_cases here : node = best
        · subst here
          simp [marked]
        · simp [marked, marks.found, here]

omit [DecidableEq α] in
theorem passwordOf_congr {now : α → MyParams} (same : ∀ node, (now node).res = (data node).res)
    (node : Option α) : passwordOf credentials now node = passwordOf credentials data node := by
  cases node with
  | none => rfl
  | some node => simp only [passwordOf, Option.bind_some, same]

/-- What a sequence of calls has done to the nodes and the flash, and what it has returned. -/
structure Tried (credentials : Credentials) (contents : Memory → Prop) (data : α → MyParams)
    (known : List α) (calls : List (Call α)) (device : Device α) : Prop where
  marks : Marked data known calls.length device.data
  held : contents device.memory
  returned : ∀ (i : Nat) (call : Call α), calls[i]? = some call → call.result = known[i]? ∧
    HoldsString call.returned (passwordOf credentials data known[i]?)

/-- The call after a sequence of calls returns, with the next known node. -/
theorem Tried.next (tried : Tried credentials contents data (knownNodes credentials data nodes)
    calls
    device) (fixed : FixedCredentials region credentials names contents)
    (ring : Ring links head nodes) (named : ∀ node ∈ nodes, names (data node).res.ssid)
    (fresh : ∀ node ∈ nodes, (data node).found = 0) (password : Memory) (stack : Stack)
    (pagebuff : Memory) :
    ∃ writes password' pagebuff', FlashProg.Completes region
        (fun fuel => scanFindBestAp fuel links head device.data password stack pagebuff)
        device.memory writes
        ((knownNodes credentials data nodes)[calls.length]?,
          (knownNodes credentials data nodes)[calls.length]?.elim device.data (marked device.data),
          password', pagebuff') ∧
      contents (replay writes device.memory) ∧
      HoldsString password'
        (passwordOf credentials data (knownNodes credentials data nodes)[calls.length]?) := by
  have distinct := (List.nodup_cons.mp ring.nodup).2
  have named' : ∀ node ∈ nodes, names (device.data node).res.ssid := by
    intro node member
    rw [tried.marks.res]
    exact named node member
  have call := scanFindBestAp_finds fixed ring named' tried.held password stack pagebuff
  rwa [tried.marks.find distinct fresh, passwordOf_congr tried.marks.res] at call

theorem Tried.step (tried : Tried credentials contents data (knownNodes credentials data nodes)
    calls
    device) (fixed : FixedCredentials region credentials names contents)
    (ring : Ring links head nodes) (named : ∀ node ∈ nodes, names (data node).res.ssid)
    (fresh : ∀ node ∈ nodes, (data node).found = 0) {call : Call α} {after : Device α}
    (step : Step region links head device call after) :
    Tried credentials contents data (knownNodes credentials data nodes) (calls ++ [call]) after :=
    by
  obtain ⟨⟨pagebuff, completes⟩, memory_eq⟩ := step
  obtain ⟨writes, password', pagebuff', next, held, holds⟩ :=
    tried.next fixed ring named fresh call.password call.stack call.pagebuff
  obtain ⟨same, equal⟩ := completes.unique next
  simp only [Prod.mk.injEq] at equal
  obtain ⟨result, nodes', returned, -⟩ := equal
  refine ⟨?_, ?_, ?_⟩
  · rw [List.length_append, List.length_singleton, nodes']
    exact tried.marks.step
  · rw [memory_eq, same]
    exact held
  · intro i other entry
    rcases Nat.lt_trichotomy i calls.length with earlier | rfl | later
    · rw [List.getElem?_append_left earlier] at entry
      exact tried.returned i other entry
    · obtain rfl : call = other := by simpa using entry
      exact ⟨result, returned ▸ holds⟩
    · rw [List.getElem?_eq_none (by simp; omega)] at entry
      cases entry

/-- What holds of every new node and is kept when a node is improved holds of all nodes. -/
theorem scanned_forall {keep : MyParams → Prop}
    (new : ∀ result, Audible result → keep ⟨0, ⟨result.ssid, result.channel, result.rssi⟩⟩)
    (improved : ∀ node result, keep node → keep (node.improve result))
    (results : List (Option ScanResult)) : ∀ node ∈ scanned results, keep node := by
  induction results using List.reverseRecOn with
  | nil => simp [scanned]
  | append_singleton results result ih =>
      rw [scanned_append]
      cases result with
      | none => exact ih
      | some result =>
          rw [scanAllResult]
          split
          · exact ih
          next audible =>
            split
            · intro node member
              rcases List.mem_append.mp member with old | added
              · exact ih node old
              · rw [List.mem_singleton.mp added]
                exact new result (Decidable.not_not.mp (mt not_audible_iff.mpr audible))
            split
            · rename_i better _
              intro node member
              obtain ⟨i, entry⟩ := List.getElem?_of_mem member
              rw [List.getElem?_modify] at entry
              obtain ⟨old, here, rfl⟩ := Option.map_eq_some_iff.mp entry
              have kept := ih old (List.mem_of_getElem? here)
              split
              · exact improved old result kept
              · exact kept
            · exact ih

theorem scanned_found (results : List (Option ScanResult)) :
    ∀ node ∈ scanned results, node.found = 0 :=
  scanned_forall (fun _ _ => rfl) (fun _ _ fresh => fresh) results

/-- Successive calls of `scan_find_best_ap` on the sorted list of a scan return the nodes whose
network `flash_io_find_matching_ssid` finds, the strongest first and each one once, with their
passwords, and then no node and an empty password. -/
theorem access_points_tried {results : List (Option ScanResult)} {fuel : Nat}
    (ring : Ring links head nodes) (built : nodes.map data = scanned results)
    (enough : nodes.length ≤ fuel)
    (fixed : FixedCredentials region credentials (fun ssid => ∃ node ∈ nodes,
      (data node).res.ssid = ssid) contents)
    (held : contents memory) :
    ∃ (links' : Links α) (known : List α), bubblesort fuel links head
    (compareRssi fun node => (data node).res.rssi) =
        some (head, links') ∧
      known.Nodup ∧
      (∀ node, node ∈ known ↔ node ∈ nodes ∧ credentials (data node).res.ssid ≠ none) ∧
      known.Pairwise (fun a b => (data b).res.rssi ≤ (data a).res.rssi) ∧
      ∀ calls device, Run (Step region links' head) ⟨data, memory⟩ calls device →
        (∀ (i : Nat) (call : Call α), calls[i]? = some call → call.result = known[i]? ∧
          HoldsString call.returned (passwordOf credentials data known[i]?)) ∧
        ∀ password stack pagebuff, ∃ call after, call.password = password ∧ call.stack = stack ∧
          call.pagebuff = pagebuff ∧ Step region links' head device call after := by
  obtain ⟨links', nodes', sorted, ring', order, descending⟩ :=
    (bubblesort_correct ring enough).2 fun node => (data node).res.rssi
  have same : ∀ node, node ∈ nodes' ↔ node ∈ nodes := fun node => order.perm.mem_iff
  have fresh : ∀ node ∈ nodes', (data node).found = 0 := by
    intro node member
    refine scanned_found results _ ?_
    rw [← built]
    exact List.mem_map_of_mem ((same node).mp member)
  have named : ∀ node ∈ nodes', ∃ other ∈ nodes, (data other).res.ssid = (data node).res.ssid :=
    fun node member => ⟨node, (same node).mp member, rfl⟩
  have distinct := (List.nodup_cons.mp ring'.nodup).2
  refine ⟨links', knownNodes credentials data nodes', sorted, distinct.filter _, ?_,
    descending.filter _, ?_⟩
  · intro node
    rw [knownNodes, List.mem_filter, same, decide_eq_true_eq]
  · intro calls device run
    have start : Tried credentials contents data (knownNodes credentials data nodes') []
        ⟨data, memory⟩ := by
      refine ⟨Marked.start _ _, held, ?_⟩
      intro i call impossible
      simp at impossible
    have tried := run.invariant
      (Tried credentials contents data (knownNodes credentials data nodes')) start
      fun _ _ _ _ _ tried step => tried.step fixed ring' named fresh step
    refine ⟨tried.returned, ?_⟩
    intro password stack pagebuff
    obtain ⟨writes, password', pagebuff', completes, -⟩ :=
      tried.next fixed ring' named fresh password stack pagebuff
    exact ⟨⟨password, stack, pagebuff, _, password', writes⟩, ⟨_, replay writes device.memory⟩, rfl,
      rfl, rfl, ⟨pagebuff', completes⟩, rfl⟩

end Sequence

/-! ## Stored credentials -/

theorem text_isName (ssid : Ssid) : IsName ssid.text ssid.name := by
  obtain ⟨behind, split⟩ := ssid.bytes_eq
  have stored := holds_store (fun _ => 0) 0 ssid.bytes
  rw [← Ssid.text, split, holds_append, Nat.zero_add] at stored
  exact ⟨stored.1, holds_iff.mp stored.2 0 (Nat.succ_pos _), ssid.name_text⟩

theorem name_short (ssid : Ssid) : ssid.name.length < flashPageSize := by
  have shorter : ssid.name.length ≤ ssid.bytes.length := (List.takeWhile_prefix _).length_le
  have length := ssid.length_eq
  simp only [flashPageSize]
  omega

/-- In a ring with a blank header that opens and holds every network once, the credentials are the
stored ones. -/
theorem fixedCredentials_saved {ring : Geometry} {cells : Nat → Option Sector} {start : Nat}
    {log : List Sector} {entries : List (List Byte × List Byte)}
    (ordered : Ordered ring cells start log)
    (opens : Opens ring persistentTable (persistentLen / flashSectorSize))
    (unfilled : Unfilled ring log) (saved : Saved (tape log) entries)
    (distinct : (entries.map Prod.fst).Nodup) :
    FixedCredentials ring.extended (fun ssid => storedPassword entries ssid.name)
      (fun ssid => ssid.name ≠ []) fun memory =>
        RingHolds memory ring cells ∧ OpensGood memory ring cells start log := by
  rintro memory ⟨holds, good⟩ ssid positive pw stack pagebuff
  obtain ⟨err, pw', pagebuff', lookup, none, found⟩ := flashIoFindMatchingSsid_looks holds ordered
    opens good unfilled saved distinct (text_isName ssid) positive
    (ssid_fits opens (Nat.succ_pos _) (name_short ssid)) pw stack pagebuff
  refine ⟨[], err, pw', pagebuff', lookup, ⟨holds, good⟩, ?_⟩
  dsimp only
  cases stored : storedPassword entries ssid.name with
  | none => exact none stored
  | some password => exact found password stored

theorem FixedCredentials.mono {region : Nat → Prop} {credentials : Credentials}
    {names fewer : Ssid → Prop} {contents : Memory → Prop}
    (fixed : FixedCredentials region credentials names contents)
    (some : ∀ ssid, fewer ssid → names ssid) :
    FixedCredentials region credentials fewer contents :=
  fun memory held ssid name => fixed memory held ssid (some ssid name)

/-! ## Three networks -/

/-- A network whose name and password have one letter each. -/
def networkRequest (letter password : Byte) : Request where
  id := ssidByte
  data := fun i => if i = 0 then letter else if i = 2 then password else 0
  size := 4
  id_ne := ssidByte_ne
  size_pos := letterSize_pos

theorem networkRequest_short (letter password : Byte) :
    (networkRequest letter password).size ≤ 4088 :=
  (by decide : 4 ≤ 4088)

theorem networkRequest_keeps {letter password : Byte} (first : letter ≠ 0)
    (second : password ≠ 0) :
    Keeps ((networkRequest letter password).whole (networkRequest_short letter password)) [letter]
      [password] where
  wanted := ⟨rfl, (by decide : decide (rbHeaderNotSmudged &&& rbHeaderNotSmudged ≠ 0) = true)⟩
  unsplit := (by decide : decide (rbHeaderNotSmudged &&& rbHeaderSplit ≠ 0) = false)
  payload := rfl
  name_text := by simpa using first.symm
  password_text := by simpa using second.symm
  page := (by decide : 4 ≤ 256)

/-- The networks `a` and `b` in the flash. -/
def twoNetworks : List (List Byte × List Byte) := [([97], [120]), ([98], [121])]

/-- A scan that hears `c`, `a` and `b`. -/
def threeResults : List (Option ScanResult) :=
  [some ⟨pairSsid 99 0, 1, -40⟩, some ⟨pairSsid 97 0, 6, -70⟩, some ⟨pairSsid 98 0, 11, -50⟩]

/-- Its nodes behind the head 0. -/
def threeNodes (node : Nat) : MyParams :=
  (scanned threeResults).getD (node - 1) ⟨0, ⟨pairSsid 99 0, 1, -40⟩⟩

/-- `b` is tried before `a`, and `c` is not tried. -/
theorem access_points_tried_three : ∃ events device cells sector,
    Run (CountedStep quadRing) (RingBuffer.Device.blank quadRing) events device ∧
    InOrder quadRing device cells 0 [sector] ∧ Saved (tape [sector]) twoNetworks ∧
    ∃ (links' : Links Nat) (known : List Nat),
      bubblesort 3 circleOfFour 0 (compareRssi fun node => (threeNodes node).res.rssi) =
        some (0, links') ∧
      known.Nodup ∧
      (∀ node, node ∈ known ↔ node ∈ [1, 2, 3] ∧
        storedPassword twoNetworks (threeNodes node).res.ssid.name ≠ none) ∧
      known.Pairwise (fun a b => (threeNodes b).res.rssi ≤ (threeNodes a).res.rssi) ∧
      ∀ calls after, Run (Step quadRing.extended links' 0) ⟨threeNodes, device.memory⟩ calls after →
        (∀ (i : Nat) (call : Call Nat), calls[i]? = some call → call.result = known[i]? ∧
          HoldsString call.returned (passwordOf
            (fun ssid => storedPassword twoNetworks ssid.name) threeNodes known[i]?)) ∧
        ∀ password stack pagebuff, ∃ call later, call.password = password ∧ call.stack = stack ∧
          call.pagebuff = pagebuff ∧ Step quadRing.extended links' 0 after call later := by
  obtain ⟨events, device, cells, sector, run, inOrder, equal⟩ :=
    @pair_appended (networkRequest 97 120) (networkRequest 98 121) rfl rfl
  have opens : Opens quadRing persistentTable (persistentLen / flashSectorSize) :=
    ⟨by decide, by decide⟩
  have saved : Saved (tape [sector]) twoNetworks := by
    rw [equal]
    refine .entry (networkRequest_keeps (by decide) (by decide)) ?_
      (.entry (networkRequest_keeps (by decide) (by decide)) rfl .done)
    rw [continuation, if_neg]
    rintro ⟨closes, -⟩
    cases closes
  have cell : cells 0 = some sector := inOrder.ordered.cell 0 (by decide)
  have good : OpensGood device.memory quadRing cells 0 [sector] :=
    ⟨by rw [cell]; rfl, fun _ impossible => absurd impossible (Nat.lt_irrefl 0)⟩
  have named : ∀ ssid, (∃ node ∈ [1, 2, 3], (threeNodes node).res.ssid = ssid) →
      ssid.name ≠ [] := by
    rintro ssid ⟨node, member, rfl⟩
    revert node
    decide
  have fixed := (fixedCredentials_saved inOrder.ordered opens (.inl (by decide : 1 < 4)) saved
    (by decide)).mono named
  have ring : Ring circleOfFour 0 [1, 2, 3] :=
    ⟨by decide, rfl, rfl, rfl, rfl, rfl, rfl, rfl, rfl⟩
  have built : [1, 2, 3].map threeNodes = scanned threeResults := by decide
  exact ⟨events, device, cells, sector, run, inOrder, saved,
    access_points_tried ring built (Nat.le_refl 3) fixed ⟨inOrder.holds, good⟩⟩

end BestAp

end PicoApConfigure.Wifi
