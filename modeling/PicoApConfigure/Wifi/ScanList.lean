import PicoApConfigure.Nor.Memory
import Mathlib.Data.List.Induction
import Mathlib.Data.List.Nodup
import Mathlib.Data.List.ReduceOption

/-!
# The list of scan results

Translation of the scan part of `find_local_ssid.c`.  The circular list `knownnodes` is
the list of its data nodes from the head on, so that `cdll_insert_node_tail` appends.
-/

namespace PicoApConfigure.Wifi

open Nor

/-! ## Names -/

/-- The characters of a C string before its terminating NUL. -/
def cString (bytes : List Byte) : List Byte := bytes.takeWhile (· ≠ 0)

/-- `strlen`. -/
def strlen (bytes : List Byte) : Nat := (cString bytes).length

/-- A network name in an array of `LWIP_POST_BUFSIZE` bytes. -/
structure Ssid where
  bytes : List Byte
  length_eq : bytes.length = 32
  terminated : (0 : Byte) ∈ bytes
  deriving DecidableEq

namespace Ssid

/-- The network name. -/
def name (ssid : Ssid) : List Byte := cString ssid.bytes

/-- `memcmp(left, right, size)` finds no difference. -/
def sameBytes (left right : Ssid) (size : Nat) : Bool :=
  left.bytes.take size = right.bytes.take size

theorem take_strlen (ssid : Ssid) : ssid.bytes.take (strlen ssid.bytes) = ssid.name := by
  rw [strlen, name, cString]
  exact List.prefix_iff_eq_take.mp (List.takeWhile_prefix _) |>.symm

theorem name_text (ssid : Ssid) : 0 ∉ ssid.name := by
  rw [name, cString]
  intro member
  have other := List.all_eq_true.mp List.all_takeWhile _ member
  simp at other

/-- Behind the name there is a terminator. -/
theorem bytes_eq (ssid : Ssid) : ∃ behind, ssid.bytes = ssid.name ++ 0 :: behind := by
  have split : ssid.name ++ ssid.bytes.dropWhile (· ≠ 0) = ssid.bytes :=
    List.takeWhile_append_dropWhile
  have first := List.head?_dropWhile_not (· ≠ 0) ssid.bytes
  cases rest : ssid.bytes.dropWhile (· ≠ 0) with
  | nil =>
      rw [rest, List.append_nil] at split
      exact absurd (split ▸ ssid.terminated) ssid.name_text
  | cons byte behind =>
      rw [rest] at first split
      obtain rfl : byte = 0 := by simpa using first
      exact ⟨behind, split.symm⟩

/-- The comparison of two names by length and bytes. -/
theorem sameBytes_iff (left right : Ssid) :
    (strlen right.bytes = strlen left.bytes ∧
      sameBytes left right (strlen right.bytes) = true) ↔ left.name = right.name := by
  rw [sameBytes, decide_eq_true_iff]
  constructor
  · rintro ⟨length, equal⟩
    rwa [length, take_strlen, ← length, take_strlen] at equal
  · intro equal
    have length : strlen right.bytes = strlen left.bytes := congrArg List.length equal.symm
    refine ⟨length, ?_⟩
    rw [length, take_strlen, ← length, take_strlen]
    exact equal

end Ssid

/-! ## The scan -/

/-- `cyw43_ev_scan_result_t`. -/
structure ScanResult where
  ssid : Ssid
  channel : Nat
  rssi : Int
  deriving DecidableEq

/-- `struct my_scan_result`. -/
structure MyScanResult where
  ssid : Ssid
  channel : Nat
  rssi : Int
  deriving DecidableEq

/-- `struct my_params`, the data of a list node. -/
structure MyParams where
  found : Int
  res : MyScanResult
  deriving DecidableEq

/-- `LOCAL_SCAN_MIN_RSSI`. -/
def localScanMinRssi : Int := -80

/-- `unique_ssid`. -/
def uniqueSsid : List MyParams → Ssid → Bool
  | [], _ => true
  | node :: rest, ssid =>
      if strlen node.res.ssid.bytes = strlen ssid.bytes ∧
          ssid.sameBytes node.res.ssid (strlen node.res.ssid.bytes) = true then
        false
      else uniqueSsid rest ssid

/-- `better_rssi`: the position of the node it returns. -/
def betterRssi : List MyParams → Ssid → Int → Option Nat
  | [], _, _ => none
  | node :: rest, ssid, rssi =>
      if strlen node.res.ssid.bytes = strlen ssid.bytes ∧ rssi > node.res.rssi then
        some 0
      else (betterRssi rest ssid rssi).map (· + 1)

/-- `better->channel = result->channel; better->rssi = result->rssi;` -/
def MyParams.improve (node : MyParams) (result : ScanResult) : MyParams :=
  { node with res := { node.res with channel := result.channel, rssi := result.rssi } }

/-- `scan_all_result`. -/
def scanAllResult (knownnodes : List MyParams) : Option ScanResult → List MyParams
  | none => knownnodes
  | some result =>
      if result.rssi < localScanMinRssi ∨ strlen result.ssid.bytes = 0 then knownnodes
      else if uniqueSsid knownnodes result.ssid = true then
        knownnodes ++ [{ found := 0, res :=
          { ssid := result.ssid, channel := result.channel, rssi := result.rssi } }]
      else
        match betterRssi knownnodes result.ssid result.rssi with
        | some better => knownnodes.modify better (·.improve result)
        | none => knownnodes

/-- The list after a scan has delivered its results. -/
def scanned (results : List (Option ScanResult)) : List MyParams :=
  results.foldl scanAllResult []

/-! ## What the list should hold -/

/-- `result` is taken into account. -/
def Audible (result : ScanResult) : Prop :=
  localScanMinRssi ≤ result.rssi ∧ result.ssid.name ≠ []

instance (result : ScanResult) : Decidable (Audible result) :=
  inferInstanceAs (Decidable (_ ∧ _))

/-- The results that a scan takes into account. -/
def heard (results : List (Option ScanResult)) : List ScanResult :=
  results.reduceOption.filter fun result => Audible result

/-- A list of names with one more seen. -/
def addName (names : List (List Byte)) (name : List Byte) : List (List Byte) :=
  if name ∈ names then names else names ++ [name]

/-- The networks heard of, in order of first occurrence. -/
def networks (results : List ScanResult) : List (List Byte) :=
  (results.map (·.ssid.name)).foldl addName []

/-- One node for each network, with its strongest result. -/
structure Strongest (results : List ScanResult) (nodes : List MyParams) : Prop where
  names : nodes.map (·.res.ssid.name) = networks results
  attained : ∀ node ∈ nodes, ∃ result ∈ results, result.ssid.name = node.res.ssid.name ∧
    result.rssi = node.res.rssi ∧ result.channel = node.res.channel
  strongest : ∀ node ∈ nodes, ∀ result ∈ results, result.ssid.name = node.res.ssid.name →
    result.rssi ≤ node.res.rssi

/-- Some other network has a name of the same length and a weaker signal than the result, and
the network of the result does not stand before it with a weaker signal, too. -/
def Displaced (nodes : List MyParams) (result : ScanResult) : Prop :=
  ∃ before node after, nodes = before ++ node :: after ∧
    node.res.ssid.name ≠ result.ssid.name ∧
    strlen node.res.ssid.bytes = strlen result.ssid.bytes ∧ node.res.rssi < result.rssi ∧
    ∀ own ∈ before, own.res.ssid.name = result.ssid.name → result.rssi ≤ own.res.rssi

/-! ## The two searches -/

section Searches

variable {nodes before after : List MyParams} {node : MyParams} {ssid : Ssid} {rssi : Int}

theorem uniqueSsid_iff : uniqueSsid nodes ssid = true ↔
    ssid.name ∉ nodes.map (·.res.ssid.name) := by
  induction nodes with
  | nil => simp [uniqueSsid]
  | cons node rest ih =>
      rw [uniqueSsid, List.map_cons, List.mem_cons, not_or]
      by_cases same : ssid.name = node.res.ssid.name
      · rw [if_pos ((ssid.sameBytes_iff node.res.ssid).mpr same)]
        exact ⟨(fun impossible => by cases impossible), fun both => absurd same both.1⟩
      · rw [if_neg fun found => same ((ssid.sameBytes_iff node.res.ssid).mp found), ih]
        exact ⟨fun other => ⟨same, other⟩, fun both => both.2⟩

theorem betterRssi_none (none : betterRssi nodes ssid rssi = none) :
    ∀ node ∈ nodes, strlen node.res.ssid.bytes = strlen ssid.bytes → rssi ≤ node.res.rssi := by
  induction nodes with
  | nil => simp
  | cons first rest ih =>
      rw [betterRssi] at none
      split at none
      · cases none
      · rename_i weaker
        intro node member length
        rcases List.mem_cons.mp member with rfl | later
        · by_contra above
          exact weaker ⟨length, by omega⟩
        · exact ih (Option.map_eq_none_iff.mp none) node later length

/-- The search stops at the first node of that length with a weaker signal. -/
theorem betterRssi_some {better : Nat} (found : betterRssi nodes ssid rssi = some better) :
    ∃ before node after, nodes = before ++ node :: after ∧ before.length = better ∧
      strlen node.res.ssid.bytes = strlen ssid.bytes ∧ node.res.rssi < rssi ∧
      ∀ earlier ∈ before, strlen earlier.res.ssid.bytes = strlen ssid.bytes →
        rssi ≤ earlier.res.rssi := by
  induction nodes generalizing better with
  | nil => cases found
  | cons first rest ih =>
      rw [betterRssi] at found
      split at found
      · rename_i hit
        cases found
        exact ⟨[], first, rest, rfl, rfl, hit.1, hit.2, by simp⟩
      · rename_i passed
        obtain ⟨position, inner, rfl⟩ := Option.map_eq_some_iff.mp found
        obtain ⟨before, node, after, rfl, rfl, length, weaker, earlier⟩ := ih inner
        refine ⟨first :: before, node, after, rfl, rfl, length, weaker, ?_⟩
        intro other member same
        rcases List.mem_cons.mp member with rfl | later
        · by_contra above
          exact passed ⟨same, by omega⟩
        · exact earlier other later same

theorem modify_middle (change : MyParams → MyParams) :
    (before ++ node :: after).modify before.length change = before ++ change node :: after := by
  rw [List.modify_eq_take_cons_drop (by simp)]
  simp

end Searches

/-! ## One result -/

section Step

variable {results : List ScanResult} {nodes : List MyParams} {result : ScanResult}

theorem networks_append (results : List ScanResult) (result : ScanResult) :
    networks (results ++ [result]) = addName (networks results) result.ssid.name := by
  simp [networks, List.foldl_append]

theorem networks_nodup (results : List ScanResult) : (networks results).Nodup := by
  induction results using List.reverseRecOn with
  | nil => exact List.nodup_nil
  | append_singleton results result ih =>
      rw [networks_append, addName]
      split
      · exact ih
      · rename_i fresh
        exact List.nodup_append.mpr ⟨ih, List.nodup_singleton _, by
          rintro left member right same rfl
          exact fresh (List.mem_singleton.mp same ▸ member)⟩

theorem mem_networks {name : List Byte} :
    name ∈ networks results ↔ ∃ result ∈ results, result.ssid.name = name := by
  induction results using List.reverseRecOn with
  | nil => simp [networks]
  | append_singleton results result ih =>
      have split : name ∈ networks (results ++ [result]) ↔
          name ∈ networks results ∨ name = result.ssid.name := by
        rw [networks_append, addName]
        split
        · rename_i known
          exact ⟨.inl, fun either => either.elim id fun same => same ▸ known⟩
        · rw [List.mem_append, List.mem_singleton]
      rw [split, ih]
      constructor
      · rintro (⟨found, member, same⟩ | rfl)
        · exact ⟨found, List.mem_append_left _ member, same⟩
        · exact ⟨result, by simp, rfl⟩
      · rintro ⟨found, member, same⟩
        rcases List.mem_append.mp member with old | new
        · exact .inl ⟨found, old, same⟩
        · rw [List.mem_singleton.mp new] at same
          exact .inr same.symm

/-- A network that is heard for the first time. -/
theorem Strongest.fresh (strongest : Strongest results nodes)
    (unknown : result.ssid.name ∉ networks results) :
    Strongest (results ++ [result]) (nodes ++ [{ found := 0, res :=
      { ssid := result.ssid, channel := result.channel, rssi := result.rssi } }]) := by
  refine ⟨?_, ?_, ?_⟩
  · rw [networks_append, addName, if_neg unknown, List.map_append, strongest.names]
    rfl
  · intro node member
    rcases List.mem_append.mp member with old | new
    · obtain ⟨source, known, equal⟩ := strongest.attained node old
      exact ⟨source, List.mem_append_left _ known, equal⟩
    · rw [List.mem_singleton.mp new]
      exact ⟨result, by simp, rfl, rfl, rfl⟩
  · intro node member other known same
    rcases List.mem_append.mp member with old | new
    · rcases List.mem_append.mp known with before | last
      · exact strongest.strongest node old other before same
      · rw [List.mem_singleton.mp last] at same
        refine absurd ?_ unknown
        rw [same, ← strongest.names]
        exact List.mem_map_of_mem old
    · rw [List.mem_singleton.mp new] at same ⊢
      rcases List.mem_append.mp known with before | last
      · exact absurd (mem_networks.mpr ⟨other, before, same⟩) unknown
      · cases List.mem_singleton.mp last
        exact Int.le_refl _

/-- A result that is no stronger than what its network has. -/
theorem Strongest.weaker (strongest : Strongest results nodes)
    (known : result.ssid.name ∈ networks results)
    (weak : ∀ node ∈ nodes, node.res.ssid.name = result.ssid.name →
      result.rssi ≤ node.res.rssi) : Strongest (results ++ [result]) nodes := by
  refine ⟨?_, ?_, ?_⟩
  · rw [networks_append, addName, if_pos known]
    exact strongest.names
  · intro node member
    obtain ⟨source, before, equal⟩ := strongest.attained node member
    exact ⟨source, List.mem_append_left _ before, equal⟩
  · intro node member other heard same
    rcases List.mem_append.mp heard with before | last
    · exact strongest.strongest node member other before same
    · rw [List.mem_singleton.mp last] at same ⊢
      exact weak node member same.symm

/-- A result that replaces a weaker one of its network. -/
theorem Strongest.improve {before after : List MyParams} {node : MyParams}
    (strongest : Strongest results (before ++ node :: after))
    (own : node.res.ssid.name = result.ssid.name) (weaker : node.res.rssi < result.rssi) :
    Strongest (results ++ [result]) (before ++ node.improve result :: after) := by
  have names := strongest.names
  have known : result.ssid.name ∈ networks results := by
    rw [← own, ← names]
    exact List.mem_map_of_mem (by simp)
  have distinct := networks_nodup results
  rw [← names, List.map_append, List.map_cons, List.nodup_middle, List.nodup_cons,
    ← List.map_append] at distinct
  have others : ∀ other ∈ before ++ after, other.res.ssid.name ≠ result.ssid.name := by
    intro other member same
    refine distinct.1 ?_
    rw [own, ← same]
    exact List.mem_map_of_mem member
  have split : ∀ other ∈ before ++ node.improve result :: after,
      other = node.improve result ∨ other ∈ before ++ after := by
    intro other member
    rcases List.mem_append.mp member with left | right
    · exact .inr (List.mem_append_left _ left)
    · rcases List.mem_cons.mp right with rfl | right
      · exact .inl rfl
      · exact .inr (List.mem_append_right _ right)
  have widen : ∀ other ∈ before ++ after, other ∈ before ++ node :: after := by
    intro other member
    rcases List.mem_append.mp member with left | right
    · exact List.mem_append_left _ left
    · exact List.mem_append_right _ (List.mem_cons_of_mem _ right)
  refine ⟨?_, ?_, ?_⟩
  · rw [networks_append, addName, if_pos known, ← names]
    simp [MyParams.improve]
  · intro other member
    rcases split other member with rfl | rest
    · exact ⟨result, by simp, own.symm, rfl, rfl⟩
    · obtain ⟨source, old, equal⟩ := strongest.attained other (widen other rest)
      exact ⟨source, List.mem_append_left _ old, equal⟩
  · intro other member source heard same
    rcases split other member with rfl | rest
    · change source.ssid.name = node.res.ssid.name at same
      change source.rssi ≤ result.rssi
      rcases List.mem_append.mp heard with old | new
      · have bound := strongest.strongest node (by simp) source old same
        omega
      · cases List.mem_singleton.mp new
        exact Int.le_refl _
    · rcases List.mem_append.mp heard with old | new
      · exact strongest.strongest other (widen other rest) source old same
      · rw [List.mem_singleton.mp new] at same
        exact absurd same.symm (others other rest)

/-- A result that is written into the node of another network. -/
theorem Strongest.misplaced {before after : List MyParams} {node : MyParams}
    (strongest : Strongest results (before ++ node :: after))
    (other : node.res.ssid.name ≠ result.ssid.name) (weaker : node.res.rssi < result.rssi) :
    ¬Strongest (results ++ [result]) (before ++ node.improve result :: after) := by
  intro wrong
  obtain ⟨source, heard, same, level, _⟩ := wrong.attained (node.improve result) (by simp)
  change source.ssid.name = node.res.ssid.name at same
  change source.rssi = result.rssi at level
  rcases List.mem_append.mp heard with old | new
  · have bound := strongest.strongest node (by simp) source old same
    omega
  · rw [List.mem_singleton.mp new] at same
    exact other same.symm

end Step

/-! ## All results of a scan -/

section Scan

variable {results : List (Option ScanResult)} {result : ScanResult}

theorem scanned_append (results : List (Option ScanResult)) (result : Option ScanResult) :
    scanned (results ++ [result]) = scanAllResult (scanned results) result := by
  simp [scanned, List.foldl_append]

theorem heard_append (results : List (Option ScanResult)) (result : ScanResult) :
    heard (results ++ [some result]) =
      if Audible result then heard results ++ [result] else heard results := by
  rw [heard, List.reduceOption_append, List.filter_append, ← heard]
  by_cases audible : Audible result
  · rw [if_pos audible]
    simpa [List.reduceOption] using audible
  · rw [if_neg audible]
    simpa [List.reduceOption] using audible

theorem heard_append_none (results : List (Option ScanResult)) :
    heard (results ++ [none]) = heard results := by
  rw [heard, List.reduceOption_append, List.filter_append, ← heard]
  simp [List.reduceOption]

theorem strlen_eq_zero (ssid : Ssid) : strlen ssid.bytes = 0 ↔ ssid.name = [] :=
  List.length_eq_zero_iff

theorem not_audible_iff : result.rssi < localScanMinRssi ∨ strlen result.ssid.bytes = 0 ↔
    ¬Audible result := by
  rw [Audible, not_and_or, Int.not_le, strlen_eq_zero, not_not]

/-- What one audible result does to a list that is right so far. -/
theorem Strongest.step (strongest : Strongest (heard results) (scanned results))
    (audible : Audible result) :
    Strongest (heard results ++ [result]) (scanAllResult (scanned results) (some result)) ↔
      (result.ssid.name ∈ networks (heard results) → ¬Displaced (scanned results) result) := by
  have names := strongest.names
  generalize scanned results = nodes at strongest names
  rw [scanAllResult, if_neg (not_audible_iff.not.mpr (not_not_intro audible))]
  by_cases known : result.ssid.name ∈ networks (heard results)
  · have repeated : ¬uniqueSsid nodes result.ssid = true := by
      rw [uniqueSsid_iff, names]
      exact not_not_intro known
    rw [if_neg repeated]
    cases search : betterRssi nodes result.ssid result.rssi with
    | none =>
        have level := betterRssi_none search
        refine iff_of_true (strongest.weaker known fun node member same => ?_) fun _ => ?_
        · exact level node member (congrArg List.length same)
        · rintro ⟨before, node, after, rfl, _, length, weaker, _⟩
          have bound := level node (by simp) length
          omega
    | some better =>
        obtain ⟨before, node, after, rfl, rfl, length, weaker, earlier⟩ := betterRssi_some search
        dsimp only
        rw [modify_middle]
        by_cases own : node.res.ssid.name = result.ssid.name
        · refine iff_of_true (strongest.improve own weaker) fun _ => ?_
          rintro ⟨before', node', after', split, differs, length', weaker', shielded⟩
          -- the node that is hit stands before every other one that is weaker
          rcases List.append_eq_append_iff.mp split with ⟨run, rfl, right⟩ | ⟨run, rfl, right⟩
          · cases run with
            | nil =>
                rw [List.nil_append] at right
                obtain ⟨rfl, _⟩ := List.cons_eq_cons.mp right
                exact differs own
            | cons first run =>
                obtain ⟨rfl, _⟩ := List.cons_eq_cons.mp right
                have bound := shielded node (by simp) own
                omega
          · cases run with
            | nil =>
                rw [List.nil_append] at right
                obtain ⟨rfl, _⟩ := List.cons_eq_cons.mp right
                exact differs own
            | cons first run =>
                obtain ⟨rfl, _⟩ := List.cons_eq_cons.mp right
                have bound := earlier node' (by simp) length'
                omega
        · refine iff_of_false (strongest.misplaced own weaker) fun spared => spared known ?_
          refine ⟨before, node, after, rfl, own, length, weaker, fun other member same => ?_⟩
          exact earlier other member (congrArg List.length same)
  · have fresh : uniqueSsid nodes result.ssid = true := by
      rw [uniqueSsid_iff, names]
      exact known
    rw [if_pos fresh]
    exact iff_of_true (strongest.fresh known) fun impossible => absurd impossible known

/-- The list is right after every part of a scan if and only if no result for a network that is
in the list already finds another one there to replace. -/
theorem scan_strongest_iff (results : List (Option ScanResult)) :
    (∀ early late, results = early ++ late → Strongest (heard early) (scanned early)) ↔
      ∀ early result late, results = early ++ some result :: late → Audible result →
        result.ssid.name ∈ networks (heard early) → ¬Displaced (scanned early) result := by
  constructor
  · intro right early result late split audible
    have before := right early _ split
    have after := right (early ++ [some result]) late (by simp [split])
    rw [heard_append, if_pos audible, scanned_append] at after
    exact (before.step audible).mp after
  · intro spared early
    induction early using List.reverseRecOn with
    | nil =>
        intro _ _
        exact ⟨rfl, by simp [scanned], by simp [scanned]⟩
    | append_singleton early last ih =>
        intro late split
        have before := ih (last :: late) (by simp [split])
        rw [scanned_append]
        cases last with
        | none =>
            rw [heard_append_none]
            exact before
        | some result =>
            rw [heard_append]
            by_cases audible : Audible result
            · rw [if_pos audible]
              exact (before.step audible).mpr
                (spared early result late (by simp [split]) audible)
            · rw [if_neg audible, scanAllResult, if_pos (not_audible_iff.mpr audible)]
              exact before

end Scan

/-! ## A wrong network -/

/-- A network name of two characters. -/
def pairSsid (first second : Byte) : Ssid where
  bytes := first :: second :: List.replicate 30 0
  length_eq := by simp
  terminated := by simp

/-- The second result of the second network goes to the first one. -/
theorem scan_wrong_network :
    ¬Strongest (heard [some ⟨pairSsid 97 97, 1, -50⟩, some ⟨pairSsid 98 98, 6, -60⟩,
        some ⟨pairSsid 98 98, 11, -40⟩])
      (scanned [some ⟨pairSsid 97 97, 1, -50⟩, some ⟨pairSsid 98 98, 6, -60⟩,
        some ⟨pairSsid 98 98, 11, -40⟩]) := by
  intro strongest
  obtain ⟨source, member, same, level, _⟩ := strongest.attained
    ⟨0, pairSsid 97 97, 11, -40⟩ (by decide)
  have only : ∀ source ∈ heard [some ⟨pairSsid 97 97, 1, -50⟩, some ⟨pairSsid 98 98, 6, -60⟩,
      some ⟨pairSsid 98 98, 11, -40⟩], source.ssid.name = (pairSsid 97 97).name →
      source.rssi ≠ -40 := by decide
  exact only source member same level

end PicoApConfigure.Wifi
