import PicoApConfigure.Gossip.Rounds
import PicoApConfigure.Json.Simulation
import Mathlib.Algebra.BigOperators.Group.Finset.Basic
import Mathlib.Algebra.Order.BigOperators.Group.Finset
import Mathlib.Data.Fintype.Card
import Mathlib.Data.Int.Interval

/-!
# Updates stop spreading

Without local changes the counts only grow, up to the largest one there is, and a device
broadcasts only when it finds a new count.
-/

namespace PicoApConfigure.Json

open Nor Tcp

section Propagation

variable {Host Json : Type} {lib : CJson Json} {hosts : Hosts Host Json}

/-- The count of an object. -/
def countView (lib : CJson Json) : View lib Int where
  look json := getMirrorUpdateCount lib (some json)
  version := id
  version_look _ := rfl

/-- The header that `json_prep_get_counter_value` leaves holds the count. -/
theorem dataVersionField_prepared {shared : Shared Json}
    (prepared : 0 < (jsonPrepGetCounterValue lib shared).1) :
    dataVersionField (jsonPrepGetCounterValue lib shared).2.buffer =
      uint32 (getMirrorUpdateCount lib shared.mirror) := by
  obtain ⟨ready, _⟩ := (jsonPrepGetCounterValue_pos lib shared).mp prepared
  simp only [jsonPrepGetCounterValue, if_pos ready]
  have holds := holds_store (store shared.buffer headerSize
    (lib.printPreallocated (getMirror lib shared.mirror) printSize).2) 0
    (TcpJsonHeader.bytes
      { protocolVersion := jsonProtocolVersion
        size := ((lib.printPreallocated (getMirror lib shared.mirror) printSize).2.takeWhile
          (· ≠ 0)).length + headerSize
        dataVersion := uint32 (getMirrorUpdateCount lib shared.mirror) })
  rw [TcpJsonHeader.bytes, holds_append, holds_append] at holds
  exact wordAt_of_holds holds.2.2 (uint32_lt _)

theorem Count.uint32_inj {left right : Int} (first : Count left) (second : Count right)
    (equal : uint32 left = uint32 right) : left = right :=
  Int.le_antisymm ((first.uint32_le second).mp (Nat.le_of_eq equal))
    ((second.uint32_le first).mp (Nat.le_of_eq equal.symm))

theorem countView_honest : (countView lib).Honest := by
  intro shared own prepared json carries
  obtain ⟨request, bytes, version, _⟩ := carries.message
  have holds : Holds (jsonPrepGetCounterValue lib shared).2.buffer 0 request.bytes := by
    rw [← bytes]
    exact holds_messageIn _
  have fields := Message.fields (List.prefix_refl _) (by
    rw [Message.bytes_length]
    exact request.toMessage.headerSize_le_size) holds
  have equal : uint32 (getMirrorUpdateCount lib (some json)) =
      uint32 (getMirrorUpdateCount lib shared.mirror) := by
    rw [← version, ← fields.2, dataVersionField_prepared prepared]
  exact carries.count.uint32_inj own equal

/-! ## Runs without local changes -/

namespace Network

/-- The counts on the devices and in the messages under way. -/
def Present (lib : CJson Json) (network : Network Host Json) (count : Int) : Prop :=
  (∃ host, network.count lib host = count) ∨
    ∃ packet ∈ network.inFlight, ∃ json, Carries lib packet.bytes json ∧
      getMirrorUpdateCount lib (some json) = count

theorem Sound.present {network : Network Host Json} (sound : network.Sound lib) {count : Int}
    (has : (network.gossip (countView lib)).Has count) : network.Present lib count := by
  rcases has with ⟨host, rfl⟩ | ⟨target, sent⟩
  · exact .inl ⟨host, rfl⟩
  · obtain ⟨packet, member, json, carries, equal⟩ := sound.message sent
    exact .inr ⟨packet, member, json, carries, equal⟩

variable [DecidableEq Host]

/-- One event without a local change. -/
structure Quiet (lib : CJson Json) (hosts : Hosts Host Json) (network : Network Host Json)
    (event : NetworkEvent Host) : Prop where
  unchanged : ∀ host, event ≠ .increment host
  faithful : ∀ packet ∈ (network.step lib hosts event).inFlight, packet.Faithful lib

/-- What such an event does to the counts. -/
theorem Quiet.gossip {network : Network Host Json} {event : NetworkEvent Host}
    (quiet : network.Quiet lib hosts event) (sound : network.Sound lib) :
    Gossip.Step (countView lib).version (fun _ _ => True) (fun _ _ _ => False)
      (network.gossip (countView lib)) ((network.step lib hosts event).gossip (countView lib)) :=
  step_gossip countView_honest sound quiet.faithful (fun _ _ _ => trivial)
    fun host changed => absurd changed (quiet.unchanged host)

/-- Nothing above `largest`. -/
structure Below (lib : CJson Json) (largest : Int) (network : Network Host Json) : Prop where
  sound : network.Sound lib
  below : ∀ count, (network.gossip (countView lib)).Has count → count ≤ largest

theorem Below.step {largest : Int} {network : Network Host Json} {event : NetworkEvent Host}
    (below : network.Below lib largest) (quiet : network.Quiet lib hosts event) :
    (network.step lib hosts event).Below lib largest := by
  have step := quiet.gossip below.sound
  refine ⟨below.sound.next step (fun _ _ => False.elim) quiet.faithful, fun count has => ?_⟩
  rcases step.has with same | ⟨_, _, impossible, _⟩
  · exact below.below count (same count has)
  · exact impossible.elim

/-- Only the main loop changes what a device has seen. -/
theorem step_lastUpdateCount (network : Network Host Json) {event : NetworkEvent Host}
    {host : Host} (other : event ≠ .check host) :
    ((network.step lib hosts event).node host).lastUpdateCount =
      (network.node host).lastUpdateCount := by
  have kept : ∀ (changed : Host) (node : Node Json),
      node.lastUpdateCount = (network.node changed).lastUpdateCount →
      (Function.update network.node changed node host).lastUpdateCount =
        (network.node host).lastUpdateCount := by
    intro changed node same
    by_cases own : host = changed
    · subst own
      rw [Function.update_self]
      exact same
    · rw [Function.update_of_ne own]
  cases event with
  | check checked =>
      have apart : host ≠ checked := fun same => other (same ▸ rfl)
      exact congrArg Node.lastUpdateCount (Function.update_of_ne apart _ _)
  | increment changed => exact kept changed _ rfl
  | deliver position =>
      rw [step]
      split
      · rename_i packet _
        cases packet with
        | request client server bytes => exact kept server _ rfl
        | reply client bytes => exact kept client _ rfl
      · rfl

/-- The main loop watches the count of its device. -/
theorem Quiet.watches {network : Network Host Json} {event : NetworkEvent Host}
    (quiet : network.Quiet lib hosts event) (sound : network.Sound lib) (host : Host) :
    Gossip.Watches (step lib hosts) (fun network => network.count lib host)
      (fun network => (network.node host).lastUpdateCount) (· = .check host) network event where
  mono := (quiet.gossip sound).mono host
  looking := by
    rintro rfl
    obtain ⟨mirror, seen⟩ := (network.node host).check_fst hosts host
    have own : ((network.step lib hosts (.check host)).node host) =
        ((network.node host).check lib hosts host).1 := Function.update_self _ _ _
    simp only [count, own]
    refine ⟨?_, seen⟩
    rw [Node.count, mirror]
    rfl
  away other := network.step_lastUpdateCount other

/-- A run without local changes in which every message is faithful. -/
theorem Below.run {largest : Int} {events : List (NetworkEvent Host)}
    (still : ∀ host, .increment host ∉ events) :
    ∀ {network : Network Host Json}, network.Below lib largest →
      (∀ later ∈ Gossip.states (Network.step lib hosts) network events,
        ∀ packet ∈ later.inFlight, packet.Faithful lib) →
      (∀ later ∈ Gossip.states (Network.step lib hosts) network events, later.Below lib largest) ∧
        ∀ host, Gossip.Watched (Network.step lib hosts) (fun network => network.count lib host)
          (fun network => (network.node host).lastUpdateCount) (· = .check host) network
            events := by
  induction events with
  | nil =>
      intro network below _
      refine ⟨fun later member => ?_, fun _ => trivial⟩
      rw [List.mem_singleton.mp member]
      exact below
  | cons event events ih =>
      intro network below faithful
      have quiet : network.Quiet lib hosts event :=
        { unchanged := fun host same => still host (same ▸ List.mem_cons_self)
          faithful := faithful _ (List.mem_cons_of_mem _ (Gossip.mem_states_self _ _)) }
      obtain ⟨rest, watched⟩ := ih (fun host member => still host (List.mem_cons_of_mem _ member))
        (below.step quiet) fun later member => faithful later (List.mem_cons_of_mem _ member)
      refine ⟨fun later member => ?_, fun host => ⟨quiet.watches below.sound host, watched host⟩⟩
      rcases List.mem_cons.mp member with rfl | member
      · exact below
      · exact rest later member

/-- How many rounds of `tcp_client_json_update_buddies` the device starts. -/
def rounds (lib : CJson Json) (hosts : Hosts Host Json) (start : Network Host Json)
    (events : List (NetworkEvent Host)) (host : Host) : Nat :=
  Gossip.rounds (Network.step lib hosts) (fun network => network.count lib host)
    (fun network => (network.node host).lastUpdateCount) (· = .check host) start events

/-- The different counts of the device. -/
def counts (lib : CJson Json) (hosts : Hosts Host Json) (start : Network Host Json)
    (events : List (NetworkEvent Host)) (host : Host) : Finset Int :=
  Gossip.values (Network.step lib hosts) (fun network => network.count lib host) start events

end Network

/-- Without local changes the counts never decrease and none exceeds the largest one at the
start; a device starts at most one round for every count it takes and one more, so there is
a bound on the rounds of all runs. -/
theorem propagation_stops [DecidableEq Host] [Fintype Host] {start : Network Host Json}
    {events : List (NetworkEvent Host)} {largest : Int} (sound : start.Sound lib)
    (greatest : IsGreatest {count | start.Present lib count} largest)
    (still : ∀ host, .increment host ∉ events)
    (faithful : ∀ network ∈ Gossip.states (Network.step lib hosts) start events,
      ∀ packet ∈ network.inFlight, packet.Faithful lib) :
    (∀ host, (Gossip.states (Network.step lib hosts) start events).Pairwise
      fun before after => before.count lib host ≤ after.count lib host) ∧
    (∀ network ∈ Gossip.states (Network.step lib hosts) start events,
      ∀ host, network.count lib host ≤ largest) ∧
    (∀ host, start.rounds lib hosts events host ≤ (start.counts lib hosts events host).card + 1) ∧
    ∑ host, start.rounds lib hosts events host ≤ Fintype.card Host * (largest.toNat + 1) := by
  have below : start.Below lib largest := ⟨sound, fun count has => greatest.2 (sound.present has)⟩
  obtain ⟨all, watched⟩ := below.run still faithful
  have most : ∀ network ∈ Gossip.states (Network.step lib hosts) start events,
      ∀ host, network.count lib host ≤ largest := fun network member host =>
    (all network member).below _ ((network.gossip (countView lib)).has_held host)
  have rounds : ∀ host, start.rounds lib hosts events host ≤
      (start.counts lib hosts events host).card := fun host => (watched host).rounds_le
  refine ⟨fun host => (watched host).pairwise, most,
    fun host => Nat.le_succ_of_le (rounds host), ?_⟩
  have few : ∀ host, start.rounds lib hosts events host ≤ largest.toNat + 1 := by
    intro host
    have range : start.counts lib hosts events host ⊆ Finset.Icc 1 largest := by
      intro count member
      obtain ⟨network, reached, rfl⟩ := List.mem_map.mp (List.mem_toFinset.mp member)
      exact Finset.mem_Icc.mpr
        ⟨((all network reached).sound.counts host).positive, most network reached host⟩
    have size := Finset.card_le_card range
    rw [Int.card_Icc, Int.add_sub_cancel] at size
    exact Nat.le_succ_of_le (Nat.le_trans (rounds host) size)
  calc ∑ host, start.rounds lib hosts events host
      ≤ ∑ _host : Host, (largest.toNat + 1) := Finset.sum_le_sum fun host _ => few host
    _ = Fintype.card Host * (largest.toNat + 1) := by
        rw [Finset.sum_const_nat fun _ _ => rfl, Finset.card_univ]

end Propagation

/-! ## Two devices -/

/-- The device with the larger count broadcasts, and the other one takes its object. -/
def spreading : List (NetworkEvent Bool) := [.check true, .deliver 0, .deliver 0]

/-- The message of the object with the larger count. -/
def spreadMessage : List Byte :=
  messageIn (jsonPrepGetCounterValue (twoObjects smallCount)
    { buffer := fun _ => 0, mirror := some true }).2.buffer

theorem spreading_faithful :
    ∀ network ∈ Gossip.states (Network.step (twoObjects smallCount) (twoHosts _))
      (twoDevices id) spreading,
    ∀ packet ∈ network.inFlight, packet.Faithful (twoObjects smallCount) := by
  have messages : ∀ network ∈ Gossip.states (Network.step (twoObjects smallCount) (twoHosts _))
      (twoDevices id) spreading,
      ∀ packet ∈ network.inFlight, packet = .request true false spreadMessage ∨
        packet = .reply true (bareHeader 2 (by decide)).bytes := by
    decide +kernel
  have carries : Carries (twoObjects smallCount) spreadMessage true :=
    (twoObjects_lawful smallCount).carries ⟨by decide, by decide⟩ (by decide +kernel)
  intro network reached packet member
  rcases messages network reached packet member with rfl | rfl
  · exact ⟨true, carries⟩
  · exact .inl ⟨2, by decide, rfl⟩

theorem propagation_stops_spreading :
    (∀ network ∈ Gossip.states (Network.step (twoObjects smallCount) (twoHosts _))
      (twoDevices id) spreading, ∀ host, network.count (twoObjects smallCount) host ≤ 2) ∧
    ∀ host, (twoDevices id).rounds (twoObjects smallCount) (twoHosts _) spreading host ≤
      ((twoDevices id).counts (twoObjects smallCount) (twoHosts _) spreading host).card + 1 := by
  have counts : ∀ host, Count ((twoDevices id).count (twoObjects smallCount) host) := by
    intro host
    cases host with
    | false => exact ⟨by decide, by decide⟩
    | true => exact ⟨by decide, by decide⟩
  have sound : (twoDevices id).Sound (twoObjects smallCount) :=
    ⟨counts, (fun _ impossible => by cases impossible)⟩
  have greatest : IsGreatest
      {count | (twoDevices id).Present (twoObjects smallCount) count} 2 := by
    refine ⟨.inl ⟨true, by decide⟩, ?_⟩
    rintro count (⟨host, rfl⟩ | ⟨_, impossible, _⟩)
    · cases host with
      | false => decide
      | true => decide
    · cases impossible
  obtain ⟨_, most, few, _⟩ := propagation_stops sound greatest (by decide) spreading_faithful
  exact ⟨most, few⟩

end PicoApConfigure.Json
