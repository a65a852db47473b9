import PicoApConfigure.Json.Network

/-!
# The devices gossip

The network refines gossip about what a view shows of the objects, be it the object itself
or its count.
-/

namespace PicoApConfigure.Json

open Nor Tcp

/-- What is looked at in an object; its count can be seen. -/
structure View {Json : Type} (lib : CJson Json) (Item : Type) where
  look : Json → Item
  version : Item → Int
  version_look : ∀ json, version (look json) = getMirrorUpdateCount lib (some json)

section Simulation

variable {Host Json Item : Type} {lib : CJson Json}
  {hosts : Hosts Host Json} (view : View lib Item)

/-- The message of an object looks like the object. -/
def View.Honest : Prop :=
  ∀ shared : Shared Json, Count (getMirrorUpdateCount lib shared.mirror) →
    0 < (jsonPrepGetCounterValue lib shared).1 → ∀ json,
    Carries lib (messageIn (jsonPrepGetCounterValue lib shared).2.buffer) json →
      view.look json = view.look (getMirror lib shared.mirror)

@[simp] theorem View.version_getMirror (mirror : Option Json) :
    view.version (view.look (getMirror lib mirror)) = getMirrorUpdateCount lib mirror :=
  view.version_look _

namespace Node

/-- What a device shows. -/
def shows (node : Node Json) : Item := view.look (getMirror lib node.shared.mirror)

theorem version_shows (node : Node Json) : view.version (node.shows view) = node.count lib :=
  view.version_getMirror _

end Node

/-- What a message shows. -/
def Packet.shows (packet : Packet Host) : Host × Option Item :=
  (packet.target, (objectIn lib packet.bytes).map view.look)

namespace Network

/-- The gossip of the network. -/
def gossip (network : Network Host Json) : Gossip.State Host Item Int where
  held host := (network.node host).shows view
  told host := (network.node host).lastUpdateCount
  messages := network.inFlight.map (Packet.shows view)

/-- All messages under way are faithful, and all counts can be sent. -/
structure Sound (lib : CJson Json) (network : Network Host Json) : Prop where
  counts : ∀ host, Count (network.count lib host)
  faithful : ∀ packet ∈ network.inFlight, packet.Faithful lib

variable {view} {network : Network Host Json} {reached : Host → List Host → Prop}
  {changes : Gossip.State Host Item Int → Host → Item → Prop}

/-! ### The main loop -/

/-- What the main loop sends shows the device's own object. -/
theorem check_shows (honest : view.Honest) (host : Host) {node : Node Json}
    (own : Count (node.count lib))
    (faithful : ∀ packet ∈ (node.check lib hosts host).2, packet.Faithful lib) :
    (node.check lib hosts host).2.map (Packet.shows view) =
      ((node.check lib hosts host).2.map Packet.target).map fun target =>
        (target, some (node.shows view)) := by
  rw [List.map_map]
  refine List.map_congr_left fun packet member => ?_
  rcases node.check_silent hosts host with none | ⟨changed, prepared⟩
  · rw [none] at member
    cases member
  · have carries := faithful packet member
    rw [Node.check_sends hosts host changed prepared] at member
    obtain ⟨buddy, _, rfl⟩ := List.mem_map.mp member
    obtain ⟨json, carries⟩ := carries
    have same := honest node.shared own prepared json carries
    simp only [Packet.shows, Packet.target, Packet.bytes, carries.objectIn_eq, Option.map_some,
      Function.comp_apply, same]
    rfl

/-! ### Messages -/

/-- A message that arrives is taken out of those under way. -/
theorem split_at {packets : List (Packet Host)} {position : Nat} {packet : Packet Host}
    (found : packets[position]? = some packet) :
    ∃ before after, packets = before ++ packet :: after ∧
      packets.eraseIdx position = before ++ after := by
  obtain ⟨inside, rfl⟩ := List.getElem?_eq_some_iff.mp found
  refine ⟨packets.take position, packets.drop (position + 1), ?_, ?_⟩
  · rw [List.getElem_cons_drop, List.take_append_drop]
  · exact List.eraseIdx_eq_take_drop_succ packets position

/-- The versions in the view are the counts. -/
theorem newer_eq (node : Node Json) (json : Json) :
    Gossip.newer view.version (node.shows view) (view.look json) =
      if node.count lib ≤ getMirrorUpdateCount lib (some json) then view.look json
      else node.shows view := by
  rw [Gossip.newer, Node.version_shows, view.version_look]

/-- A server shows the newer object after an exchange, and nothing else is sent back. -/
theorem serve_shows {node : Node Json} {bytes : List Byte} {json : Json} (honest : view.Honest)
    (own : Count (node.count lib)) (carries : Carries lib bytes json)
    (faithful : ∀ reply ∈ (node.serve lib bytes).2, Bare reply ∨ ∃ json, Carries lib reply json) :
    (node.serve lib bytes).1.shows view =
        Gossip.newer view.version (node.shows view) (view.look json) ∧
      ∀ reply ∈ (node.serve lib bytes).2, ∀ item, (objectIn lib reply).map view.look = some item →
        item = Gossip.newer view.version (node.shows view) (view.look json) := by
  rw [newer_eq]
  by_cases older : node.count lib ≤ getMirrorUpdateCount lib (some json)
  · obtain ⟨mirror, bare, sent, header⟩ := Node.serve_takes own carries older
    rw [if_pos older, Node.shows, mirror, sent]
    refine ⟨rfl, fun reply member item shown => ?_⟩
    rw [List.mem_singleton.mp member, header.objectIn_eq] at shown
    cases shown
  · obtain ⟨mirror, shared, same, sent⟩ := Node.serve_keeps own carries older
    rw [if_neg older, Node.shows, mirror]
    refine ⟨rfl, fun reply member item shown => ?_⟩
    have answer := faithful reply member
    rw [sent] at member
    split at member
    · rename_i prepared
      rw [List.mem_singleton.mp member] at shown answer
      rcases answer with bare | ⟨other, carries⟩
      · rw [bare.objectIn_eq] at shown
        cases shown
      · have looks := honest shared (same ▸ own) prepared other carries
        rw [carries.objectIn_eq, Option.map_some] at shown
        rw [← Option.some.inj shown, looks, same]
        rfl
    · cases member

/-- Items come from messages that carry them. -/
theorem Sound.message (sound : network.Sound lib) {target : Host} {item : Item}
    (sent : (target, some item) ∈ (network.gossip view).messages) :
    ∃ packet ∈ network.inFlight, ∃ json, Carries lib packet.bytes json ∧
      view.look json = item := by
  obtain ⟨packet, member, equal⟩ := List.mem_map.mp sent
  have shown : (objectIn lib packet.bytes).map view.look = some item :=
    congrArg Prod.snd equal
  have carries : Bare packet.bytes ∨ ∃ json, Carries lib packet.bytes json := by
    have faithful := sound.faithful packet member
    cases packet with
    | request => exact .inr faithful
    | reply => exact faithful
  rcases carries with bare | ⟨json, carries⟩
  · rw [bare.objectIn_eq] at shown
    cases shown
  · rw [carries.objectIn_eq] at shown
    exact ⟨packet, member, json, carries, Option.some.inj shown⟩

/-- What is in the gossip has a count that can be sent. -/
theorem Sound.count (sound : network.Sound lib) {item : Item}
    (present : (network.gossip view).Has item) : Count (view.version item) := by
  rcases present with ⟨host, rfl⟩ | ⟨target, sent⟩
  · exact (Node.version_shows view (network.node host)).symm ▸ sound.counts host
  · obtain ⟨_, _, json, carries, rfl⟩ := sound.message sent
    rw [view.version_look]
    exact carries.count

/-! ### Steps -/

variable [DecidableEq Host]

theorem gossip_withNode (view : View lib Item) (network : Network Host Json) (host : Host)
    (node : Node Json) (packets : List (Packet Host)) :
    gossip view { (network.withNode host node) with inFlight := packets } =
      { held := Function.update (network.gossip view).held host (node.shows view)
        told := Function.update (network.gossip view).told host node.lastUpdateCount
        messages := packets.map (Packet.shows view) } := by
  have field : ∀ {Value : Type} (read : Node Json → Value),
      (fun other => read (Function.update network.node host node other)) =
        Function.update (fun other => read (network.node other)) host (read node) := by
    intro Value read
    funext other
    by_cases same : other = host
    · rw [same, Function.update_self, Function.update_self]
    · rw [Function.update_of_ne same, Function.update_of_ne same]
  have held := field (Node.shows view)
  have told := field Node.lastUpdateCount
  simp only [gossip, withNode]
  rw [held, told]

theorem step_check {host : Host} (honest : view.Honest)
    (own : Count (network.count lib host))
    (faithful : ∀ packet ∈ ((network.node host).check lib hosts host).2, packet.Faithful lib)
    (reaches : (network.node host).lastUpdateCount ≠ network.count lib host →
      reached host (((network.node host).check lib hosts host).2.map Packet.target)) :
    Gossip.Step view.version reached changes (network.gossip view)
      ((network.step lib hosts (.check host)).gossip view) := by
  obtain ⟨mirror, seen⟩ := (network.node host).check_fst hosts host
  have shows : ((network.node host).check lib hosts host).1.shows view =
      (network.gossip view).held host := by
    rw [Node.shows, mirror]
    rfl
  have version : (network.node host).count lib =
      view.version ((network.gossip view).held host) := (Node.version_shows view _).symm
  simp only [step]
  rw [gossip_withNode, shows, seen, version, Function.update_eq_self, List.map_append]
  by_cases changed : (network.node host).lastUpdateCount = (network.node host).count lib
  · have silent : ((network.node host).check lib hosts host).2 = [] := by
      rcases (network.node host).check_silent hosts host with none | ⟨differs, _⟩
      · exact none
      · exact absurd changed differs
    have told : (network.gossip view).told host =
        view.version ((network.gossip view).held host) := changed.trans version
    rw [silent, ← told, Function.update_eq_self, List.map_nil, List.append_nil]
    exact .rest _
  · have sent := check_shows honest host own faithful
    rw [sent]
    exact .announce (reaches changed)

theorem step_increment {host : Host}
    (later : network.count lib host ≤ ((network.node host).increment lib).count lib)
    (allowed : changes (network.gossip view) host
      (((network.node host).increment lib).shows view)) :
    Gossip.Step view.version reached changes (network.gossip view)
      ((network.step lib hosts (.increment host)).gossip view) := by
  have told : Function.update (network.gossip view).told host
      ((network.node host).increment lib).lastUpdateCount = (network.gossip view).told :=
    Function.update_eq_self host (network.gossip view).told
  have after := gossip_withNode view network host ((network.node host).increment lib)
    network.inFlight
  rw [told] at after
  refine Eq.mpr (congrArg _ after) (.change ?_ allowed)
  rw [Node.version_shows]
  refine le_of_eq_of_le ?_ later
  exact Node.version_shows view _

theorem receive_request {before after : List (Packet Host)} {client server : Host}
    {bytes : List Byte} {json : Json} (honest : view.Honest)
    (own : Count (network.count lib server)) (carries : Carries lib bytes json)
    (found : network.inFlight = before ++ .request client server bytes :: after)
    (faithful : ∀ reply ∈ ((network.node server).serve lib bytes).2,
      Bare reply ∨ ∃ json, Carries lib reply json) :
    Gossip.Step view.version reached changes (network.gossip view)
      (({ network with inFlight := before ++ after }.receive lib
        (.request client server bytes)).gossip view) := by
  obtain ⟨shows, replies⟩ := serve_shows honest own carries faithful
  have messages : (network.gossip view).messages =
      before.map (Packet.shows view) ++ (server, some (view.look json)) ::
        after.map (Packet.shows view) := by
    simp only [gossip, found, List.map_append, List.map_cons, Packet.shows, Packet.target,
      Packet.bytes, carries.objectIn_eq, Option.map_some]
  have told : Function.update (network.gossip view).told server
      ((network.node server).serve lib bytes).1.lastUpdateCount = (network.gossip view).told :=
    Function.update_eq_self server (network.gossip view).told
  have next := gossip_withNode view network server ((network.node server).serve lib bytes).1
    (before ++ after ++ ((network.node server).serve lib bytes).2.map (.reply client))
  rw [told, shows, List.map_append, List.map_append, List.map_map] at next
  refine Eq.mpr (congrArg _ next) (.take messages fun target answer member => ?_)
  obtain ⟨reply, sent, equal⟩ := List.mem_map.mp member
  exact replies reply sent answer (congrArg Prod.snd equal)

theorem receive_reply {before after : List (Packet Host)} {client : Host} {bytes : List Byte}
    (own : Count (network.count lib client))
    (found : network.inFlight = before ++ .reply client bytes :: after)
    (faithful : Bare bytes ∨ ∃ json, Carries lib bytes json) :
    Gossip.Step view.version reached changes (network.gossip view)
      (({ network with inFlight := before ++ after }.receive lib
        (.reply client bytes)).gossip view) := by
  have told : Function.update (network.gossip view).told client
      ((network.node client).replied lib bytes).lastUpdateCount = (network.gossip view).told :=
    Function.update_eq_self client (network.gossip view).told
  have next := gossip_withNode view network client ((network.node client).replied lib bytes)
    (before ++ after)
  rw [told, List.map_append] at next
  refine Eq.mpr (congrArg _ next) ?_
  rcases faithful with bare | ⟨json, carries⟩
  · have messages : (network.gossip view).messages =
        before.map (Packet.shows view) ++ (client, none) :: after.map (Packet.shows view) := by
      simp only [gossip, found, List.map_append, List.map_cons, Packet.shows, Packet.target,
        Packet.bytes, bare.objectIn_eq, Option.map_none]
    have shows : ((network.node client).replied lib bytes).shows view =
        (network.gossip view).held client := by
      rw [Node.shows, Node.replied_bare bare]
      rfl
    rw [shows, Function.update_eq_self]
    exact .acknowledge messages
  · have messages : (network.gossip view).messages =
        before.map (Packet.shows view) ++ (client, some (view.look json)) ::
          after.map (Packet.shows view) := by
      simp only [gossip, found, List.map_append, List.map_cons, Packet.shows, Packet.target,
        Packet.bytes, carries.objectIn_eq, Option.map_some]
    have shows : ((network.node client).replied lib bytes).shows view =
        Gossip.newer view.version ((network.gossip view).held client) (view.look json) := by
      refine Eq.trans ?_ (newer_eq (network.node client) json).symm
      rw [Node.shows, Node.replied_carries own carries]
      split <;> rfl
    rw [shows, ← List.append_nil (before.map (Packet.shows view) ++ after.map (Packet.shows view))]
    exact .take messages (fun _ _ impossible => by cases impossible)

/-- The counts stay in range. -/
theorem Sound.next {after : Network Host Json} (sound : network.Sound lib)
    (step : Gossip.Step view.version reached changes (network.gossip view) (after.gossip view))
    (changed : ∀ host item, changes (network.gossip view) host item →
      Count (view.version item))
    (faithful : ∀ packet ∈ after.inFlight, packet.Faithful lib) : after.Sound lib where
  counts host := by
    have shown : Count (view.version ((after.gossip view).held host)) := by
      rcases step.has with same | ⟨_, added, allowed, more⟩
      · exact sound.count (same _ ((after.gossip view).has_held host))
      rcases more _ ((after.gossip view).has_held host) with before | new
      · exact sound.count before
      · rw [new]
        exact changed _ added allowed
    rw [Network.count, ← Node.version_shows view]
    exact shown
  faithful := faithful

/-- Every event is a step of the gossip. -/
theorem step_gossip (honest : view.Honest) (sound : network.Sound lib)
    {event : NetworkEvent Host}
    (faithful : ∀ packet ∈ (network.step lib hosts event).inFlight, packet.Faithful lib)
    (reaches : ∀ host, event = .check host →
      (network.node host).lastUpdateCount ≠ network.count lib host →
      reached host (((network.node host).check lib hosts host).2.map Packet.target))
    (changed : ∀ host, event = .increment host →
      network.count lib host ≤ ((network.node host).increment lib).count lib ∧
        changes (network.gossip view) host (((network.node host).increment lib).shows view)) :
    Gossip.Step view.version reached changes (network.gossip view)
      ((network.step lib hosts event).gossip view) := by
  cases event with
  | check host =>
      refine step_check honest (sound.counts host) (fun packet member => faithful packet ?_)
        (reaches host rfl)
      exact List.mem_append_right _ member
  | increment host =>
      obtain ⟨later, allowed⟩ := changed host rfl
      exact step_increment later allowed
  | deliver position =>
      rw [step] at faithful ⊢
      cases found : network.inFlight[position]? with
      | none => exact .rest _
      | some packet =>
          obtain ⟨before, after, split, rest⟩ := split_at found
          have arrived := sound.faithful packet (List.mem_of_getElem? found)
          simp only [found, rest] at faithful ⊢
          cases packet with
          | request client server bytes =>
              obtain ⟨json, carries⟩ := arrived
              refine receive_request honest (sound.counts server) carries split
                fun reply member => faithful (.reply client reply) ?_
              exact List.mem_append_right _ (List.mem_map.mpr ⟨reply, member, rfl⟩)
          | reply client bytes =>
              exact receive_reply (sound.counts client) split arrived

end Network

end Simulation

end PicoApConfigure.Json
