import PicoApConfigure.Json.Simulation

/-!
# Agreement of the devices

Where no two objects ever have the same count, devices that have nothing more to send hold
the same object.
-/

namespace PicoApConfigure.Json

open Nor Tcp

section Agreement

variable {Host Json : Type} {lib : CJson Json} {hosts : Hosts Host Json}

/-- The object itself. -/
def objectView (lib : CJson Json) : View lib Json where
  look := id
  version json := getMirrorUpdateCount lib (some json)
  version_look _ := rfl

/-- What `cJSON_SetNumberValue` does to the number `update_count` of an object. -/
structure CJson.Counting (lib : CJson Json) (hosts : Hosts Host Json) : Prop where
  counted : ∀ json count, lib.updateCount json ≠ none → Count count →
    lib.updateCount (lib.setUpdateCount json count) = some count
  buddies : ∀ json count, hosts.buddyIp (lib.setUpdateCount json count) = hosts.buddyIp json

/-! ## The messages -/

theorem objectView_honest (lawful : lib.Lawful) : (objectView lib).Honest := by
  intro shared own prepared json carries
  have mine := (lawful.carries own prepared).objectIn_eq
  rw [carries.objectIn_eq] at mine
  exact Option.some.inj mine

namespace Network

/-- A device that is changed sends nothing but faithful messages. -/
theorem Sound.step_faithful [DecidableEq Host] {network : Network Host Json}
    (lawful : lib.Lawful) (hosts : Hosts Host Json) (sound : network.Sound lib)
    (event : NetworkEvent Host) :
    ∀ packet ∈ (network.step lib hosts event).inFlight, packet.Faithful lib := by
  cases event with
  | increment host => exact sound.faithful
  | check host =>
      intro packet member
      have either : packet ∈ network.inFlight ++
          ((network.node host).check lib hosts host).2 := member
      rcases List.mem_append.mp either with before | sent
      · exact sound.faithful packet before
      rcases (network.node host).check_silent hosts host with none | ⟨changed, prepared⟩
      · rw [none] at sent
        cases sent
      · rw [Node.check_sends hosts host changed prepared] at sent
        obtain ⟨buddy, _, rfl⟩ := List.mem_map.mp sent
        exact ⟨_, lawful.carries (sound.counts host) prepared⟩
  | deliver position =>
      rw [step]
      cases found : network.inFlight[position]? with
      | none => exact sound.faithful
      | some arrived =>
          have rest : ∀ packet ∈ network.inFlight.eraseIdx position, packet.Faithful lib :=
            fun packet member => sound.faithful packet (List.mem_of_mem_eraseIdx member)
          have faithful := sound.faithful arrived (List.mem_of_getElem? found)
          cases arrived with
          | reply client bytes => exact rest
          | request client server bytes =>
              obtain ⟨json, carries⟩ := faithful
              intro packet member
              have either : packet ∈ network.inFlight.eraseIdx position ++
                  ((network.node server).serve lib bytes).2.map (.reply client) := member
              rcases List.mem_append.mp either with before | sent
              · exact rest packet before
              obtain ⟨reply, answered, rfl⟩ := List.mem_map.mp sent
              by_cases older : (network.node server).count lib ≤
                  getMirrorUpdateCount lib (some json)
              · obtain ⟨_, bare, only, header⟩ :=
                  Node.serve_takes (sound.counts server) carries older
                rw [only] at answered
                rw [List.mem_singleton.mp answered]
                exact .inl header
              · obtain ⟨_, shared, same, only⟩ :=
                  Node.serve_keeps (sound.counts server) carries older
                rw [only] at answered
                split at answered
                · rename_i prepared
                  rw [List.mem_singleton.mp answered]
                  exact .inr ⟨_, lawful.carries (same ▸ sound.counts server) prepared⟩
                · cases answered

/-! ## Runs -/

/-- The devices list each other, have counts that can be sent, and no message is under
way. -/
structure Initial (lib : CJson Json) (hosts : Hosts Host Json) (network : Network Host Json) :
    Prop where
  counts : ∀ host, Count (network.count lib host)
  buddies : ∀ host other,
    hosts.name other ∈ hosts.buddyIp (getMirror lib (network.node host).shared.mirror)
  unseen : ∀ host, (network.node host).lastUpdateCount = 0
  silent : network.inFlight = []

/-- Nothing is under way and every device has sent its object. -/
structure Quiescent (lib : CJson Json) (network : Network Host Json) : Prop where
  silent : network.inFlight = []
  seen : ∀ host, (network.node host).lastUpdateCount = network.count lib host

/-- All devices hold the same object. -/
def Agrees (lib : CJson Json) (network : Network Host Json) : Prop :=
  ∀ host other, getMirror lib (network.node host).shared.mirror =
    getMirror lib (network.node other).shared.mirror

/-- The networks that are reached by events that satisfy the condition. -/
inductive Runs [DecidableEq Host] (lib : CJson Json) (hosts : Hosts Host Json)
    (condition : Network Host Json → NetworkEvent Host → Prop) (start : Network Host Json) :
    Network Host Json → Prop where
  | start : Runs lib hosts condition start start
  | step {network : Network Host Json} {event : NetworkEvent Host}
      (before : Runs lib hosts condition start network) (allowed : condition network event) :
      Runs lib hosts condition start (network.step lib hosts event)

/-- The events satisfy the condition, each where it happens. -/
def Along [DecidableEq Host] (lib : CJson Json) (hosts : Hosts Host Json)
    (condition : Network Host Json → NetworkEvent Host → Prop) :
    Network Host Json → List (NetworkEvent Host) → Prop
  | _, [] => True
  | network, event :: events =>
      condition network event ∧ Along lib hosts condition (network.step lib hosts event) events

theorem Runs.along [DecidableEq Host]
    {condition : Network Host Json → NetworkEvent Host → Prop} {start : Network Host Json}
    {events : List (NetworkEvent Host)} :
    ∀ {network : Network Host Json}, Runs lib hosts condition start network →
      Along lib hosts condition network events →
      Runs lib hosts condition start (events.foldl (Network.step lib hosts) network) := by
  induction events with
  | nil => exact fun runs _ => runs
  | cons event events ih => exact fun runs along => ih (runs.step along.1) along.2

/-- The object is on a device or in a message under way. -/
def Has (lib : CJson Json) (network : Network Host Json) (json : Json) : Prop :=
  (∃ host, getMirror lib (network.node host).shared.mirror = json) ∨
    ∃ packet ∈ network.inFlight, Carries lib packet.bytes json

/-- Different devices with the same count have the same object. -/
def Apart (lib : CJson Json) (network : Network Host Json) : Prop :=
  ∀ host other, network.count lib host = network.count lib other →
    getMirror lib (network.node host).shared.mirror =
      getMirror lib (network.node other).shared.mirror

/-- An increment leads to a count that no other object has, and the object that is sent fits
the buffer. -/
def Fresh (lib : CJson Json) (network : Network Host Json) : NetworkEvent Host → Prop
  | .check host => (lib.printPreallocated
      (getMirror lib (network.node host).shared.mirror) printSize).1 = true
  | .increment host => network.count lib host < 2147483647 ∧
      ∀ json, network.Has lib json →
        ((network.node host).increment lib).count lib = getMirrorUpdateCount lib (some json) →
        getMirror lib ((network.node host).increment lib).shared.mirror = json
  | .deliver _ => True

/-! ## The invariant -/

/-- An announcement goes to everybody else. -/
def Everybody (host : Host) (targets : List Host) : Prop :=
  ∀ other, other ≠ host → other ∈ targets

/-- A change gives a count that no other object has, and keeps the buddies. -/
def Allowed (lib : CJson Json) (hosts : Hosts Host Json) (state : Gossip.State Host Json Int)
    (_host : Host) (json : Json) : Prop :=
  (∀ other, state.Has other → getMirrorUpdateCount lib (some json) =
    getMirrorUpdateCount lib (some other) → json = other) ∧
  Count (getMirrorUpdateCount lib (some json)) ∧
  ∀ other, hosts.name other ∈ hosts.buddyIp json

/-- The invariant of the network. -/
structure Agreeing (lib : CJson Json) (hosts : Hosts Host Json) (network : Network Host Json) :
    Prop where
  sound : network.Sound lib
  covered : Gossip.Covered (objectView lib).version (network.gossip (objectView lib))
  distinct : Gossip.Distinct (objectView lib).version (network.gossip (objectView lib))
  buddies : ∀ json, (network.gossip (objectView lib)).Has json →
    ∀ other, hosts.name other ∈ hosts.buddyIp json

theorem Sound.has {network : Network Host Json} (sound : network.Sound lib) {json : Json}
    (has : (network.gossip (objectView lib)).Has json) : network.Has lib json := by
  rcases has with held | ⟨target, sent⟩
  · exact .inl held
  · obtain ⟨packet, member, _, carries, rfl⟩ := sound.message sent
    exact .inr ⟨packet, member, carries⟩

theorem Initial.agreeing {start : Network Host Json} (initial : start.Initial lib hosts)
    (apart : start.Apart lib) : start.Agreeing lib hosts := by
  have silent : ∀ {target : Host} {item : Option Json},
      (target, item) ∉ (start.gossip (objectView lib)).messages := by
    intro target item sent
    simp only [gossip, initial.silent, List.map_nil, List.not_mem_nil] at sent
  refine ⟨⟨initial.counts, fun packet member => ?_⟩, fun host other _ => ?_, ?_, ?_⟩
  · rw [initial.silent] at member
    cases member
  · refine .inl (le_of_eq_of_le (initial.unseen host) ?_)
    exact Int.le_of_lt (initial.counts other).positive
  · rintro left right (⟨host, rfl⟩ | ⟨_, sent⟩) (⟨other, rfl⟩ | ⟨_, sent'⟩) equal
    · exact apart host other equal
    · exact absurd sent' silent
    · exact absurd sent silent
    · exact absurd sent silent
  · rintro json (⟨host, rfl⟩ | ⟨_, sent⟩) other
    · exact initial.buddies host other
    · exact absurd sent silent

/-- The host is known under its name only. -/
theorem name_injective (hosts : Hosts Host Json) : Function.Injective hosts.name := by
  intro host other same
  have resolved := hosts.resolved host
  rw [same, hosts.resolved other] at resolved
  exact (Option.some.inj resolved).symm

/-- The main loop sends to everybody else. -/
theorem Agreeing.everybody {network : Network Host Json} (agreeing : network.Agreeing lib hosts)
    {host : Host} (fresh : network.Fresh lib (.check host))
    (changed : (network.node host).lastUpdateCount ≠ network.count lib host) :
    Everybody host (((network.node host).check lib hosts host).2.map Packet.target) := by
  intro other apart
  have prepared := (jsonPrepGetCounterValue_pos lib (network.node host).shared).mpr
    ⟨fresh, (agreeing.sound.counts host).positive⟩
  have listed := agreeing.buddies _
    ((network.gossip (objectView lib)).has_held host) other
  have named : hosts.name host ≠ hosts.name other := fun same =>
    apart (name_injective hosts same).symm
  rw [Node.check_sends hosts host changed prepared, List.map_map]
  refine List.mem_map.mpr ⟨other, List.mem_filterMap.mpr ⟨hosts.name other, ?_, ?_⟩, rfl⟩
  · exact List.mem_filter.mpr ⟨listed, decide_eq_true named⟩
  · exact hosts.resolved other

/-- What an increment does to the object. -/
theorem increment_cases (node : Node Json) :
    getMirror lib (node.increment lib).shared.mirror = getMirror lib node.shared.mirror ∨
      ∃ count, lib.updateCount (getMirror lib node.shared.mirror) = some count ∧
        getMirror lib (node.increment lib).shared.mirror =
          lib.setUpdateCount (getMirror lib node.shared.mirror) (count + 1) := by
  obtain ⟨⟨buffer, mirror⟩, seen⟩ := node
  cases mirror with
  | none => exact .inl rfl
  | some json =>
      simp only [Node.increment, getMirror, Option.map_some, Option.getD_some, incMirrorCounter]
      cases counted : lib.updateCount json with
      | none => exact .inl rfl
      | some count => exact .inr ⟨count, rfl, rfl⟩

/-- An increment that is fresh is allowed. -/
theorem Agreeing.increment {network : Network Host Json} (counting : lib.Counting hosts)
    (agreeing : network.Agreeing lib hosts) {host : Host}
    (fresh : network.Fresh lib (.increment host)) :
    network.count lib host ≤ ((network.node host).increment lib).count lib ∧
      Allowed lib hosts (network.gossip (objectView lib)) host
        (((network.node host).increment lib).shows (objectView lib)) := by
  obtain ⟨bounded, unused⟩ := fresh
  have own := agreeing.sound.counts host
  have listed := agreeing.buddies _ ((network.gossip (objectView lib)).has_held host)
  have unused' : ∀ other, (network.gossip (objectView lib)).Has other →
      ((network.node host).increment lib).count lib = getMirrorUpdateCount lib (some other) →
      getMirror lib ((network.node host).increment lib).shared.mirror = other :=
    fun other has => unused other (agreeing.sound.has has)
  rcases increment_cases (network.node host) with same | ⟨count, counted, added⟩
  · have count : ((network.node host).increment lib).count lib = network.count lib host :=
      congrArg (fun json => getMirrorUpdateCount lib (some json)) same
    have range : Count (((network.node host).increment lib).count lib) := count ▸ own
    refine ⟨le_of_eq count.symm, unused', range, ?_⟩
    · rw [Node.shows, same]
      exact listed
  · have before : network.count lib host = count :=
      congrArg (fun number => number.getD defaultUpdateCount) counted
    rw [before] at bounded own
    have next : Count (count + 1) := by
      have positive := own.positive
      exact ⟨by omega, by omega⟩
    have after : ((network.node host).increment lib).count lib = count + 1 := by
      have number := counting.counted (getMirror lib (network.node host).shared.mirror)
        (count + 1) (by rw [counted]; exact Option.some_ne_none _) next
      rw [← added] at number
      exact congrArg (fun number => number.getD defaultUpdateCount) number
    have range : Count (((network.node host).increment lib).count lib) := by
      rw [after]
      exact next
    refine ⟨?_, unused', range, ?_⟩
    · rw [before, after]
      omega
    · rw [Node.shows, added]
      exact fun other => (counting.buddies _ _).symm ▸ listed other

variable [DecidableEq Host]

theorem Agreeing.step {network : Network Host Json} {event : NetworkEvent Host}
    (lawful : lib.Lawful) (counting : lib.Counting hosts)
    (agreeing : network.Agreeing lib hosts) (fresh : network.Fresh lib event) :
    (network.step lib hosts event).Agreeing lib hosts := by
  have faithful := agreeing.sound.step_faithful lawful hosts event
  have step : Gossip.Step (objectView lib).version Everybody (Allowed lib hosts)
      (network.gossip (objectView lib))
      ((network.step lib hosts event).gossip (objectView lib)) := by
    refine step_gossip (objectView_honest lawful) agreeing.sound faithful ?_ ?_
    · rintro host rfl changed
      exact agreeing.everybody fresh changed
    · rintro host rfl
      exact agreeing.increment counting fresh
  refine ⟨agreeing.sound.next step (fun _ _ allowed => allowed.2.1) faithful, ?_, ?_, ?_⟩
  · exact step.covered (fun _ _ everybody => everybody) agreeing.covered
  · exact step.distinct (fun _ _ allowed => allowed.1) agreeing.distinct
  · intro json has
    rcases step.has with same | ⟨_, added, allowed, more⟩
    · exact agreeing.buddies json (same json has)
    rcases more json has with before | rfl
    · exact agreeing.buddies json before
    · exact allowed.2.2

theorem Runs.agreeing {start network : Network Host Json} (lawful : lib.Lawful)
    (counting : lib.Counting hosts) (initial : start.Agreeing lib hosts)
    (runs : Runs lib hosts (Fresh lib) start network) : network.Agreeing lib hosts := by
  induction runs with
  | start => exact initial
  | step _ fresh ih => exact ih.step lawful counting fresh

end Network

/-- Where no two objects ever have the same count, all devices hold the same object when
nothing is under way and all have sent theirs. -/
theorem quiescent_agreement [DecidableEq Host] {start network : Network Host Json}
    (lawful : lib.Lawful) (counting : lib.Counting hosts) (initial : start.Initial lib hosts)
    (apart : start.Apart lib) (runs : Network.Runs lib hosts (Network.Fresh lib) start network)
    (quiescent : network.Quiescent lib) : network.Agrees lib := by
  have agreeing := runs.agreeing lawful counting (initial.agreeing apart)
  refine Gossip.agreement agreeing.covered agreeing.distinct ?_ quiescent.seen
  simp only [Network.gossip, quiescent.silent, List.map_nil]

end Agreement

/-! ## Two devices -/

/-- A library whose objects are counts, printed as five characters that carry seven bits
each. -/
def counters : CJson (Fin 2147483648) :=
  .ofTexts (fun json => some (json.val : Int)) (fun _ count => Fin.ofNat _ count.toNat)
    (fun json =>
      [BitVec.ofNat 8 (128 + json.val % 128), BitVec.ofNat 8 (128 + json.val / 128 % 128),
        BitVec.ofNat 8 (128 + json.val / 16384 % 128),
        BitVec.ofNat 8 (128 + json.val / 2097152 % 128),
        BitVec.ofNat 8 (128 + json.val / 268435456 % 128)])
    (fun memory =>
      some (Fin.ofNat _ (((memory 0).toNat - 128) + 128 * ((memory 1).toNat - 128) +
        16384 * ((memory 2).toNat - 128) + 2097152 * ((memory 3).toNat - 128) +
        268435456 * ((memory 4).toNat - 128)))) 1

theorem digit_toNat (digit : Nat) :
    (BitVec.ofNat 8 (128 + digit % 128)).toNat = 128 + digit % 128 := by
  rw [BitVec.toNat_ofNat]
  omega

theorem counters_lawful : counters.Lawful := by
  refine CJson.ofTexts_lawful (fun _ => List.cons_ne_nil _ _) (fun json => ?_)
    fun json memory holds => ?_
  · intro member
    have large : ∀ digit, BitVec.ofNat 8 (128 + digit % 128) ≠ 0 := by
      intro digit zero
      have number : 128 + digit % 128 = 0 :=
        (digit_toNat digit).symm.trans (congrArg BitVec.toNat zero)
      omega
    simp only [List.mem_cons, List.not_mem_nil, or_false] at member
    rcases member with zero | zero | zero | zero | zero
    all_goals exact large _ zero.symm
  · have byte := holds_iff.mp holds
    have zero := byte 0 (by simp)
    have one := byte 1 (by simp)
    have two := byte 2 (by simp)
    have three := byte 3 (by simp)
    have four := byte 4 (by simp)
    simp only [Nat.zero_add, List.getElem_cons_zero, List.getElem_cons_succ]
      at zero one two three four
    rw [zero, one, two, three, four]
    simp only [digit_toNat, Nat.add_sub_cancel_left]
    refine congrArg some (Fin.ext ?_)
    have small := json.isLt
    simp only [Fin.ofNat]
    omega

theorem counters_counting : counters.Counting (twoHosts (Fin 2147483648)) where
  counted json count _ range := by
    obtain ⟨positive, bounded⟩ := range
    have number : ((Fin.ofNat 2147483648 count.toNat).val : Int) = count := by
      simp only [Fin.ofNat]
      omega
    exact congrArg some number
  buddies _ _ := rfl

/-- The count of a new object. -/
theorem one : Count 1 where
  positive := Int.le_refl 1
  bounded := by decide

/-- The object of one device is changed, and both devices broadcast it. -/
def settling : List (NetworkEvent Bool) :=
  [.increment true, .check true, .deliver 0, .deliver 0, .check false, .deliver 0, .deliver 0]

/-- Both start with the count 1. -/
def settled : Network Bool (Fin 2147483648) :=
  settling.foldl (Network.step counters (twoHosts _)) (twoDevices fun _ => 1)

theorem quiescent_agreement_settled :
    settled.count counters false = 2 ∧ settled.Agrees counters := by
  have initial : (twoDevices fun _ : Bool => (1 : Fin 2147483648)).Initial counters
      (twoHosts _) :=
    { counts := fun _ => one
      buddies := by decide
      unseen := fun _ => rfl
      silent := rfl }
  have unused : ∀ left right : Fin 2147483648,
      getMirrorUpdateCount counters (some left) = getMirrorUpdateCount counters (some right) →
        left = right := by
    intro left right equal
    have same : (left.val : Int) = right.val := equal
    exact Fin.ext (Int.ofNat.inj same)
  have along : Network.Along counters (twoHosts _) (Network.Fresh counters)
      (twoDevices fun _ => 1) settling := by
    refine ⟨⟨by decide, fun json _ equal => unused _ json equal⟩, ?_, trivial, trivial, ?_,
      trivial, trivial, trivial⟩
    · simp only [Network.Fresh]
      decide +kernel
    · simp only [Network.Fresh]
      decide +kernel
  have runs : Network.Runs counters (twoHosts _) (Network.Fresh counters)
      (twoDevices fun _ => 1) settled := Network.Runs.start.along along
  refine ⟨by decide +kernel, ?_⟩
  exact quiescent_agreement counters_lawful counters_counting initial (fun _ _ _ => rfl) runs
    ⟨by decide +kernel, by decide +kernel⟩

/-- Both devices broadcast before either has heard the other. -/
def crossing : List (NetworkEvent Bool) :=
  [.check true, .check false, .deliver 0, .deliver 0, .deliver 0, .deliver 0]

/-- The objects are different, and both have the count 1. -/
def crossed : Network Bool Bool :=
  crossing.foldl (Network.step (twoObjects fun _ => 1) (twoHosts _)) (twoDevices id)

/-- Each device takes the object of the other one. -/
theorem objects_swapped :
    ¬ ∀ start network : Network Bool Bool, start.Initial (twoObjects fun _ => 1) (twoHosts _) →
      Network.Runs (twoObjects fun _ => 1) (twoHosts _) (fun _ _ => True) start network →
      network.Quiescent (twoObjects fun _ => 1) → network.Agrees (twoObjects fun _ => 1) := by
  intro agree
  have initial : (twoDevices (id : Bool → Bool)).Initial (twoObjects fun _ => 1) (twoHosts _) :=
    { counts := fun _ => one
      buddies := by decide
      unseen := fun _ => rfl
      silent := rfl }
  have along : Network.Along (twoObjects fun _ => 1) (twoHosts _) (fun _ _ => True)
      (twoDevices id) crossing :=
    ⟨trivial, trivial, trivial, trivial, trivial, trivial, trivial⟩
  have runs : Network.Runs (twoObjects fun _ => 1) (twoHosts _) (fun _ _ => True)
      (twoDevices id) crossed := Network.Runs.start.along along
  have same := agree _ crossed initial runs ⟨by decide +kernel, by decide +kernel⟩ true false
  revert same
  decide +kernel

end PicoApConfigure.Json
