import PicoApConfigure.Nor.Run
import PicoApConfigure.Wifi.ScanList

/-!
# Joining a network

Translation of `scan_find_best_ap` and of the connection loops of `main`.  The flash is
seen through `flash_io_find_matching_ssid`: the password it has for a network name.
What the user enters while the device is an access point may change that.
-/

namespace PicoApConfigure.Wifi

open Nor

/-- What `flash_io_find_matching_ssid` finds. -/
abbrev Credentials := Ssid → Option (List Byte)

/-! ## The strongest known network -/

/-- Loop of `scan_find_best_ap` from the node at `position` on. -/
def scanFindBestApLoop (flash : Credentials) :
    (position : Nat) → (best : Option (Nat × MyParams)) → List MyParams → Option (Nat × MyParams)
  | _, best, [] => best
  | position, best, test :: rest =>
      if test.found = 0 then
        let best := best.getD (position, test)
        let best := if test.res.rssi > best.2.res.rssi then (position, test) else best
        match flash best.2.res.ssid with
        | none => scanFindBestApLoop flash (position + 1) none rest
        | some _ => some best
      else scanFindBestApLoop flash (position + 1) best rest

/-- `scan_find_best_ap`: the position of the node it returns, the password it copies and the
list with that node marked. -/
def scanFindBestAp (flash : Credentials) (knownnodes : List MyParams) :
    Option Nat × List Byte × List MyParams :=
  match scanFindBestApLoop flash 0 none knownnodes with
  | some (position, best) =>
      (some position, (flash best.res.ssid).getD [],
        knownnodes.modify position ({ · with found := 42 }))
  | none => (none, [], knownnodes)

/-! ## The loops of `main` -/

/-- `PICO_ERROR_CONNECT_FAILED`. -/
def picoErrorConnectFailed : Int := -8

/-- The retries of one connection; `tries` are the results of
`cyw43_arch_wifi_connect_timeout_ms`. -/
def connectLoop (tries : Nat → Int) : (remaining i : Nat) → (conres : Int) → Int
  | 0, _, conres => conres
  | remaining + 1, i, _ =>
      if tries i ≠ picoErrorConnectFailed then tries i
      else connectLoop tries remaining (i + 1) (tries i)

/-- What the loops do to the outside. -/
inductive Act where
  | scan (nodes : List MyParams)
  | attempt (position : Nat) (ssid : List Byte) (password : List Byte) (conres : Int)
  | accessPoint (flash : Credentials)

/-- State of the loops. -/
structure StartUp where
  knownnodes : List MyParams
  flash : Credentials
  wifiPassword : List Byte
  inner : Bool
  connected : Bool
  trace : List Act

/-- `be_access_point`, which returns with `flash` as the new credentials. -/
def StartUp.beAccessPoint (state : StartUp) (flash : Credentials) : StartUp :=
  { state with flash, trace := state.trace ++ [.accessPoint state.flash] }

/-- One pass of the outer loop up to the inner one. -/
def StartUp.outerPass (state : StartUp) (nodes : List MyParams) : StartUp :=
  { state with knownnodes := nodes, inner := true, trace := state.trace ++ [.scan nodes] }

/-- One pass of the inner loop. -/
def StartUp.innerPass (state : StartUp) (tries : Nat → Int) (flash : Credentials) : StartUp :=
  let (likelyAP, password, knownnodes) := scanFindBestAp state.flash state.knownnodes
  let state := { state with knownnodes, wifiPassword := password }
  match likelyAP with
  | some position =>
      let ssid := (knownnodes[position]?.map (·.res.ssid.bytes)).getD []
      let conres := connectLoop tries 4 0 0
      let state := { state with
        trace := state.trace ++ [Act.attempt position ssid password conres] }
      if conres ≠ 0 then state.beAccessPoint flash
      else { state with connected := true, inner := false, knownnodes := [] }
  | none => { state.beAccessPoint flash with inner := false, knownnodes := [] }

/-- The environment of a pass: what the scan finds, how the connection goes, and which
credentials are in flash after an access point session. -/
inductive Pass where
  | outer (nodes : List MyParams)
  | inner (tries : Nat → Int) (flash : Credentials)

/-- A pass of the loops.  A scan delivers nodes that have not been tried. -/
inductive StartUp.Step : StartUp → Pass → StartUp → Prop
  | outer {state : StartUp} {nodes : List MyParams} (outside : state.inner = false)
      (unconnected : state.connected = false) (untried : ∀ node ∈ nodes, node.found = 0) :
      Step state (.outer nodes) (state.outerPass nodes)
  | inner {state : StartUp} {tries : Nat → Int} {flash : Credentials}
      (inside : state.inner = true) :
      Step state (.inner tries flash) (state.innerPass tries flash)

/-- The state before the loops. -/
def StartUp.initial (flash : Credentials) : StartUp where
  knownnodes := []
  flash := flash
  wifiPassword := []
  inner := false
  connected := false
  trace := []

/-! ## The documented order -/

/-- The networks of the last scan and the positions tried since. -/
def sinceScan (trace : List Act) : List MyParams × List Nat :=
  trace.foldl (fun (seen : List MyParams × List Nat) (act : Act) =>
    match act with
    | .scan nodes => (nodes, [])
    | .attempt position _ _ _ => (seen.1, position :: seen.2)
    | .accessPoint _ => seen) ([], [])

/-- The device is an access point only after every discovered network with credentials has been
tried since the last scan. -/
def LastResort (trace : List Act) : Prop :=
  ∀ before flash after, trace = before ++ .accessPoint flash :: after →
    ∀ (position : Nat) (node : MyParams), (sinceScan before).1[position]? = some node →
      flash node.res.ssid ≠ none → position ∈ (sinceScan before).2

/-- After an access point session there is a scan before the next connection attempt. -/
def ScansAgain (trace : List Act) : Prop :=
  ∀ before flash between position ssid password conres after,
    trace = before ++ .accessPoint flash :: (between ++ .attempt position ssid password conres ::
      after) → ∃ nodes, Act.scan nodes ∈ between

/-- A connection fails only when no other network that has not been tried has credentials,
neither before nor after the access point session. -/
def StartUp.FailsLast (state : StartUp) : Pass → Prop
  | .outer _ => True
  | .inner tries flash => connectLoop tries 4 0 0 ≠ 0 →
      ∀ (position : Nat) (node : MyParams), state.knownnodes[position]? = some node →
        node.found = 0 → state.flash node.res.ssid ≠ none →
        ∀ (other : Nat) (node' : MyParams), other ≠ position →
          state.knownnodes[other]? = some node' → node'.found = 0 →
          state.flash node'.res.ssid = none ∧ flash node'.res.ssid = none

section Search

variable {flash : Credentials} {nodes : List MyParams} {position : Nat}

theorem scanFindBestApLoop_some {offset : Nat} {best : MyParams}
    (found : scanFindBestApLoop flash offset none nodes = some (position, best)) :
    ∃ i, position = offset + i ∧ nodes[i]? = some best ∧ best.found = 0 ∧
      flash best.res.ssid ≠ none := by
  induction nodes generalizing offset with
  | nil => cases found
  | cons test rest ih =>
      rw [scanFindBestApLoop] at found
      split at found
      · rename_i fresh
        simp only [Option.getD_none, gt_iff_lt, Int.lt_irrefl, if_false] at found
        split at found
        · obtain ⟨i, rfl, entry, known⟩ := ih found
          exact ⟨i + 1, by omega, by simpa using entry, known⟩
        · rename_i password known
          cases found
          exact ⟨0, rfl, rfl, fresh, by rw [known]; simp⟩
      · obtain ⟨i, rfl, entry, known⟩ := ih found
        exact ⟨i + 1, by omega, by simpa using entry, known⟩

theorem scanFindBestApLoop_none {offset : Nat}
    (none : scanFindBestApLoop flash offset none nodes = none) :
    ∀ node ∈ nodes, node.found = 0 → flash node.res.ssid = .none := by
  induction nodes generalizing offset with
  | nil => simp
  | cons test rest ih =>
      rw [scanFindBestApLoop] at none
      split at none
      · simp only [Option.getD_none, gt_iff_lt, Int.lt_irrefl, if_false] at none
        split at none
        · rename_i unknown
          intro node member fresh
          rcases List.mem_cons.mp member with rfl | later
          · exact unknown
          · exact ih none node later fresh
        · cases none
      · rename_i tried
        intro node member fresh
        rcases List.mem_cons.mp member with rfl | later
        · exact absurd fresh tried
        · exact ih none node later fresh

/-- The network that is tried next. -/
theorem scanFindBestAp_some {password : List Byte} {marked : List MyParams}
    (found : scanFindBestAp flash nodes = (some position, password, marked)) :
    ∃ best, nodes[position]? = some best ∧ best.found = 0 ∧ flash best.res.ssid ≠ none ∧
      marked = nodes.modify position ({ · with found := 42 }) := by
  rw [scanFindBestAp] at found
  split at found
  · rename_i place best search
    cases found
    obtain ⟨i, rfl, entry, fresh, known⟩ := scanFindBestApLoop_some search
    rw [Nat.zero_add] at *
    exact ⟨best, entry, fresh, known, rfl⟩
  · cases found

theorem scanFindBestAp_none {password : List Byte} {marked : List MyParams}
    (none : scanFindBestAp flash nodes = (.none, password, marked)) :
    marked = nodes ∧ ∀ node ∈ nodes, node.found = 0 → flash node.res.ssid = .none := by
  rw [scanFindBestAp] at none
  split at none
  · cases none
  · rename_i search
    cases none
    exact ⟨rfl, scanFindBestApLoop_none search⟩

/-- An entry of a list with one node marked. -/
theorem marked_entry {other : Nat} {node : MyParams}
    (entry : (nodes.modify position ({ · with found := 42 }))[other]? = some node) :
    ∃ old, nodes[other]? = some old ∧ node.res = old.res ∧
      (other = position ∧ node.found = 42 ∨ other ≠ position ∧ node = old) := by
  rw [List.getElem?_modify] at entry
  obtain ⟨old, here, rfl⟩ := Option.map_eq_some_iff.mp entry
  by_cases same : position = other
  · refine ⟨old, here, ?_, .inl ⟨same.symm, ?_⟩⟩ <;> rw [if_pos same]
  · refine ⟨old, here, ?_, .inr ⟨fun equal => same equal.symm, ?_⟩⟩ <;> rw [if_neg same]

theorem marked_res (nodes : List MyParams) (position : Nat) :
    (nodes.modify position ({ · with found := 42 })).map (·.res) = nodes.map (·.res) := by
  refine List.ext_getElem? fun other => ?_
  rw [List.getElem?_map, List.getElem?_map, List.getElem?_modify]
  cases nodes[other]? with
  | none => rfl
  | some node =>
      simp only [Option.map_eq_map, Option.map_some]
      split <;> rfl

end Search

/-! ## One pass -/

section Passes

variable {state state' : StartUp} {pass : Pass} {trace : List Act} {flash : Credentials}

theorem sinceScan_append (trace : List Act) (act : Act) :
    sinceScan (trace ++ [act]) = match act with
      | .scan nodes => (nodes, [])
      | .attempt position _ _ _ => ((sinceScan trace).1, position :: (sinceScan trace).2)
      | .accessPoint _ => sinceScan trace := by
  rw [sinceScan, List.foldl_append]
  cases act <;> rfl

/-- A decomposition of a longer trace at an act ends in that act or is one of the trace. -/
theorem split_append (before : List Act) {after : List Act} {act last : Act}
    (split : trace ++ [last] = before ++ act :: after) :
    (before = trace ∧ act = last ∧ after = []) ∨
      ∃ after', after = after' ++ [last] ∧ trace = before ++ act :: after' := by
  rcases List.eq_nil_or_concat after with rfl | ⟨after', final, rfl⟩
  · have parts := List.append_inj' split rfl
    exact .inl ⟨parts.1.symm, (List.singleton_inj.mp parts.2).symm, rfl⟩
  · rw [List.concat_eq_append] at split ⊢
    have regroup : trace ++ [last] = (before ++ act :: after') ++ [final] := by
      rw [split, List.append_assoc, List.cons_append]
    have parts := List.append_inj' regroup rfl
    rw [List.singleton_inj.mp parts.2]
    exact .inr ⟨after', rfl, parts.1⟩

theorem LastResort.append (resort : LastResort trace) {act : Act}
    (last : ∀ flash, act = .accessPoint flash → ∀ position node,
      (sinceScan trace).1[position]? = some node → flash node.res.ssid ≠ none →
        position ∈ (sinceScan trace).2) : LastResort (trace ++ [act]) := by
  intro before flash after split position node entry known
  rcases split_append _ split with ⟨rfl, equal, _⟩ | ⟨after', _, inner⟩
  · exact last flash equal.symm position node entry known
  · exact resort before flash after' inner position node entry known

/-- There was an access point session since the last scan. -/
def SessionSince (trace : List Act) : Prop :=
  ∃ before flash between, trace = before ++ .accessPoint flash :: between ∧
    ∀ nodes, Act.scan nodes ∉ between

theorem ScansAgain.append (again : ScansAgain trace) {act : Act}
    (last : ∀ position ssid password conres, act = .attempt position ssid password conres →
      ¬SessionSince trace) : ScansAgain (trace ++ [act]) := by
  intro before flash between position ssid password conres after split
  rcases split_append
    (before ++ .accessPoint flash :: between) (by simpa using split) with
    ⟨rfl, equal, _⟩ | ⟨after', _, inner⟩
  · by_contra unscanned
    exact last position ssid password conres equal.symm
      ⟨before, flash, between, rfl, not_exists.mp unscanned⟩
  · exact again before flash between position ssid password conres after' (by simpa using inner)

theorem SessionSince.append {act : Act} (session : SessionSince (trace ++ [act])) :
    (∃ flash, act = .accessPoint flash) ∨
      (SessionSince trace ∧ ∀ nodes, act ≠ .scan nodes) := by
  obtain ⟨before, flash, between, split, unscanned⟩ := session
  rcases split_append _ split with ⟨_, rfl, _⟩ | ⟨between', rfl, inner⟩
  · exact .inl ⟨flash, rfl⟩
  · refine .inr ⟨⟨before, flash, between', inner, fun nodes member => ?_⟩, fun nodes equal => ?_⟩
    · exact unscanned nodes (List.mem_append_left _ member)
    · exact unscanned nodes (by rw [equal]; simp)

/-- What holds between the passes of the loops when connections fail last. -/
structure StartUp.Inv (state : StartUp) : Prop where
  resort : LastResort state.trace
  again : ScansAgain state.trace
  listed : state.inner = true →
    (sinceScan state.trace).1.map (·.res) = state.knownnodes.map (·.res)
  tried : state.inner = true → ∀ position node, state.knownnodes[position]? = some node →
    node.found ≠ 0 → position ∈ (sinceScan state.trace).2
  settled : state.inner = true → SessionSince state.trace → ∀ node ∈ state.knownnodes,
    node.found = 0 → state.flash node.res.ssid = none

theorem StartUp.Inv.initial (flash : Credentials) : (StartUp.initial flash).Inv := by
  have outside : (StartUp.initial flash).inner ≠ true := by simp [StartUp.initial]
  refine ⟨?_, ?_, fun inside => absurd inside outside, fun inside => absurd inside outside,
    fun inside => absurd inside outside⟩
  · intro before _ after split
    exact absurd split.symm (by simp [StartUp.initial])
  · intro before _ between _ _ _ _ after split
    exact absurd split.symm (by simp [StartUp.initial])

theorem StartUp.Inv.outer (inv : state.Inv) {nodes : List MyParams}
    (untried : ∀ node ∈ nodes, node.found = 0) : (state.outerPass nodes).Inv := by
  refine ⟨inv.resort.append (fun _ impossible => by cases impossible),
    inv.again.append (fun _ _ _ _ impossible => by cases impossible), fun _ => ?_, fun _ => ?_,
    fun _ session => ?_⟩
  · rw [StartUp.outerPass, sinceScan_append]
  · intro position node entry tried
    exact absurd (untried node (List.mem_of_getElem? entry)) tried
  · rcases session.append with ⟨_, impossible⟩ | ⟨_, other⟩
    · cases impossible
    · exact absurd rfl (other nodes)

/-- The networks that are left when the device becomes an access point. -/
theorem StartUp.Inv.entry (inv : state.Inv) (inside : state.inner = true) {position : Nat}
    {node : MyParams} (entry : (sinceScan state.trace).1[position]? = some node) :
    ∃ listed, state.knownnodes[position]? = some listed ∧ listed.res = node.res := by
  have same := congrArg (·[position]?) (inv.listed inside)
  simp only [List.getElem?_map, entry, Option.map_some] at same
  obtain ⟨listed, found, equal⟩ := Option.map_eq_some_iff.mp same.symm
  exact ⟨listed, found, equal⟩

theorem StartUp.Inv.nothingKnown (inv : state.Inv) (inside : state.inner = true)
    (none : ∀ node ∈ state.knownnodes, node.found = 0 → state.flash node.res.ssid = none) :
    LastResort (state.trace ++ [.accessPoint state.flash]) := by
  refine inv.resort.append fun flash equal position node entry known => ?_
  cases equal
  obtain ⟨listed, found, same⟩ := inv.entry inside entry
  refine inv.tried inside position listed found fun fresh => known ?_
  rw [← same]
  exact none listed (List.mem_of_getElem? found) fresh

/-- A pass of the inner loop in which a connection, if it fails, is the last one. -/
theorem StartUp.Inv.inner (inv : state.Inv) {tries : Nat → Int} {flash : Credentials}
    (inside : state.inner = true) (last : state.FailsLast (.inner tries flash)) :
    (state.innerPass tries flash).Inv := by
  rcases equal : scanFindBestAp state.flash state.knownnodes with ⟨likelyAP, password, marked⟩
  simp only [StartUp.innerPass, equal]
  cases likelyAP with
  | none =>
      obtain ⟨rfl, none⟩ := scanFindBestAp_none equal
      refine ⟨inv.nothingKnown inside none, inv.again.append fun _ _ _ _ impossible => ?_,
        fun impossible => ?_, fun impossible => ?_, fun impossible => ?_⟩ <;> cases impossible
  | some position =>
      obtain ⟨best, here, fresh, known, rfl⟩ := scanFindBestAp_some equal
      have unsettled : ¬SessionSince state.trace := fun session =>
        known (inv.settled inside session best (List.mem_of_getElem? here) fresh)
      dsimp only
      rw [StartUp.FailsLast] at last
      generalize connectLoop tries 4 0 0 = conres at last
      have again := @ScansAgain.append _ inv.again (.attempt position
        ((((state.knownnodes.modify position ({ · with found := 42 }))[position]?).map
          (·.res.ssid.bytes)).getD []) password conres) fun _ _ _ _ _ => unsettled
      have resort := @LastResort.append _ inv.resort (.attempt position
        ((((state.knownnodes.modify position ({ · with found := 42 }))[position]?).map
          (·.res.ssid.bytes)).getD []) password conres) (fun _ impossible => by cases impossible)
      split
      · rename_i failed
        have alone := last failed position best here fresh known
        refine ⟨resort.append ?_, again.append (fun _ _ _ _ impossible => by cases impossible),
          fun _ => ?_, fun _ => ?_, fun _ _ => ?_⟩
        · intro flash equal other node entry credentials
          cases equal
          rw [sinceScan_append] at entry ⊢
          obtain ⟨listed, found, same⟩ := inv.entry inside entry
          by_cases tried : other = position
          · exact tried ▸ List.mem_cons_self
          · refine List.mem_cons_of_mem _ (inv.tried inside other listed found fun fresh => ?_)
            rw [← same] at credentials
            exact credentials (alone other listed tried found fresh).1
        · rw [StartUp.beAccessPoint, sinceScan_append, sinceScan_append]
          dsimp only
          rw [marked_res]
          exact inv.listed inside
        · intro other node entry found
          rw [StartUp.beAccessPoint, sinceScan_append, sinceScan_append]
          obtain ⟨old, listed, _, ⟨rfl, _⟩ | ⟨_, rfl⟩⟩ := marked_entry entry
          · exact List.mem_cons_self
          · exact List.mem_cons_of_mem _ (inv.tried inside other node listed found)
        · intro node member fresh
          obtain ⟨other, entry⟩ := List.getElem?_of_mem member
          obtain ⟨old, listed, _, ⟨_, marked⟩ | ⟨away, rfl⟩⟩ := marked_entry entry
          · rw [fresh] at marked
            cases marked
          · exact (alone other node away listed fresh).2
      · exact ⟨resort, again, (fun impossible => by cases impossible),
          (fun impossible => by cases impossible), (fun impossible => by cases impossible)⟩

end Passes

/-! ## Every run of the loops -/

/-- Two networks that have just been found. -/
def twoNetworks : List MyParams :=
  [⟨0, pairSsid 97 97, 1, -50⟩, ⟨0, pairSsid 98 98, 6, -60⟩]

end PicoApConfigure.Wifi
