import PicoApConfigure.Gossip.Basic
import PicoApConfigure.Json.Exchange

/-!
# Devices that keep each other up to date

Every device checks its count in the main loop and sends its object to its buddies when the
count has changed.  A message and its reply are each delivered whole, in any order.
-/

namespace PicoApConfigure.Json

open Nor Tcp

/-- The host names and the list `buddy_ip` of an object. -/
structure Hosts (Host Json : Type) where
  name : Host → List Byte
  resolve : List Byte → Option Host
  resolved : ∀ host, resolve (name host) = some host
  buddyIp : Json → List (List Byte)

/-- A device: its buffer and mirror, and `last_update_count` of the main loop. -/
structure Node (Json : Type) where
  shared : Shared Json
  lastUpdateCount : Int

/-- A message under way. -/
inductive Packet (Host : Type) where
  | request (client server : Host) (bytes : List Byte)
  | reply (client : Host) (bytes : List Byte)
  deriving DecidableEq

namespace Packet

variable {Host : Type}

/-- Who gets the message. -/
def target : Packet Host → Host
  | .request _ server _ => server
  | .reply client _ => client

/-- What is sent. -/
def bytes : Packet Host → List Byte
  | .request _ _ bytes => bytes
  | .reply _ bytes => bytes

end Packet

section Network

variable {Host Json : Type} (lib : CJson Json) (hosts : Hosts Host Json)

/-- The message in the buffer, as `tcp_client_json_sending` writes it. -/
def messageIn (buffer : Memory) : List Byte := slice buffer 0 (uint16 (sizeField buffer))

theorem holds_messageIn (buffer : Memory) : Holds buffer 0 (messageIn buffer) := by
  rw [messageIn, Holds, slice_length]

/-- The device after a message has been reassembled at the start of its buffer. -/
def Shared.holding (bytes : List Byte) (shared : Shared Json) : Shared Json :=
  { shared with buffer := store shared.buffer 0 bytes }

namespace Node

/-- `get_mirror_update_count`. -/
def count (node : Node Json) : Int := getMirrorUpdateCount lib node.shared.mirror

/-- The server's side of an exchange, with the replies it writes. -/
def serve (bytes : List Byte) (node : Node Json) : Node Json × List (List Byte) :=
  let outcome := tcpServerJsonAnswer lib quiet (acceptIn 0 .zeroed) (node.shared.holding bytes)
  ({ node with shared := outcome.shared }, written outcome.calls)

/-- The client gets its reply. -/
def replied (bytes : List Byte) (node : Node Json) : Node Json :=
  let shared := node.shared.holding bytes
  { node with shared := tcpClientJsonHandleReply lib (int32 (sizeField shared.buffer)) shared }

/-- The update check of the main loop, with the objects that
`tcp_client_json_update_buddies` sends. -/
def check (host : Host) (node : Node Json) : Node Json × List (Packet Host) :=
  if node.lastUpdateCount ≠ node.count lib then
    let (prepared, shared) := jsonPrepGetCounterValue lib node.shared
    let buddies := (hosts.buddyIp (getMirror lib shared.mirror)).filter (hosts.name host ≠ ·)
    ({ shared, lastUpdateCount := node.count lib },
      if 0 < prepared then
        (buddies.filterMap hosts.resolve).map fun buddy =>
          .request host buddy (messageIn shared.buffer)
      else [])
  else
    ({ node with shared := { node.shared with
        mirror := some (getMirror lib node.shared.mirror) } }, [])

/-- The tag `u_cnt` of the web page increments the count. -/
def increment (node : Node Json) : Node Json :=
  { node with shared := { node.shared with
      mirror := some (getMirror lib (node.shared.mirror.map (incMirrorCounter lib))) } }

end Node

/-- The devices and the messages under way. -/
structure Network (Host Json : Type) where
  node : Host → Node Json
  inFlight : List (Packet Host)

/-- What happens next; a message under way is named by its position. -/
inductive NetworkEvent (Host : Type) where
  | check (host : Host)
  | increment (host : Host)
  | deliver (position : Nat)
  deriving DecidableEq

namespace Network

section Step

variable [DecidableEq Host]

/-- The device of a host is replaced. -/
def withNode (network : Network Host Json) (host : Host) (node : Node Json) :
    Network Host Json :=
  { network with node := Function.update network.node host node }

/-- A message arrives. -/
def receive (network : Network Host Json) : Packet Host → Network Host Json
  | .request client server bytes =>
      let (node, replies) := (network.node server).serve lib bytes
      let network := network.withNode server node
      { network with inFlight := network.inFlight ++ replies.map (.reply client) }
  | .reply client bytes => network.withNode client ((network.node client).replied lib bytes)

/-- What the event does. -/
def step (network : Network Host Json) : NetworkEvent Host → Network Host Json
  | .check host =>
      let (node, packets) := (network.node host).check lib hosts host
      let network := network.withNode host node
      { network with inFlight := network.inFlight ++ packets }
  | .increment host => network.withNode host ((network.node host).increment lib)
  | .deliver position =>
      match network.inFlight[position]? with
      | some packet =>
          { network with inFlight := network.inFlight.eraseIdx position }.receive lib packet
      | none => network

end Step

/-- The update count of a device. -/
def count (network : Network Host Json) (host : Host) : Int := (network.node host).count lib

end Network

/-! ## What the messages carry -/

/-- The message holds an object whose count is announced in the header. -/
structure Carries (bytes : List Byte) (json : Json) : Prop where
  message : ∃ request : Request, bytes = request.bytes ∧
    request.dataVersion = uint32 (getMirrorUpdateCount lib (some json)) ∧
    ∀ memory, Holds memory 0 request.text → lib.parse memory = some json
  count : Count (getMirrorUpdateCount lib (some json))

/-- The message is a bare header. -/
def Bare (bytes : List Byte) : Prop :=
  ∃ dataVersion version, bytes = (bareHeader dataVersion version).bytes

/-- Every text can be parsed, and its count is the version in its header. -/
def Packet.Faithful : Packet Host → Prop
  | .request _ _ bytes => ∃ json, Carries lib bytes json
  | .reply _ bytes => Bare bytes ∨ ∃ json, Carries lib bytes json

/-- The object of a message. -/
def objectIn (bytes : List Byte) : Option Json :=
  let buffer := store (fun _ => 0) 0 bytes
  if sizeField buffer ≤ headerSize then none else lib.parse (textOf buffer)

variable {lib}

/-- The fields of a message that stands in a buffer. -/
theorem Message.stored (message : Message) (buffer : Memory) :
    Holds (store buffer 0 message.bytes) 0 message.bytes ∧
      sizeField (store buffer 0 message.bytes) = message.size ∧
      dataVersionField (store buffer 0 message.bytes) = message.dataVersion := by
  have holds := holds_store buffer 0 message.bytes
  have fields := Message.fields (List.prefix_refl _) (by
    rw [Message.bytes_length]
    exact message.headerSize_le_size) holds
  exact ⟨holds, fields.1, fields.2⟩

theorem Carries.stored {bytes : List Byte} {json : Json} (carries : Carries lib bytes json)
    (buffer : Memory) :
    headerSize < sizeField (store buffer 0 bytes) ∧
      sizeField (store buffer 0 bytes) ≤ maxJsonBufSize ∧
      dataVersionField (store buffer 0 bytes) =
        uint32 (getMirrorUpdateCount lib (some json)) ∧
      lib.parse (textOf (store buffer 0 bytes)) = some json := by
  obtain ⟨request, rfl, version, parsed⟩ := carries.message
  obtain ⟨holds, size, field⟩ := request.toMessage.stored buffer
  rw [size, field, version]
  exact ⟨request.headerSize_lt_size, request.toMessage.size_le, rfl,
    parsed _ (holds_textOf holds)⟩

theorem Bare.stored {bytes : List Byte} (bare : Bare bytes) (buffer : Memory) :
    sizeField (store buffer 0 bytes) = headerSize := by
  obtain ⟨dataVersion, version, rfl⟩ := bare
  exact ((bareHeader dataVersion version).stored buffer).2.1

theorem Carries.holding {bytes : List Byte} {json : Json} (carries : Carries lib bytes json)
    (shared : Shared Json) :
    headerSize < sizeField (shared.holding bytes).buffer ∧
      sizeField (shared.holding bytes).buffer ≤ maxJsonBufSize ∧
      dataVersionField (shared.holding bytes).buffer =
        uint32 (getMirrorUpdateCount lib (some json)) ∧
      lib.parse (textOf (shared.holding bytes).buffer) = some json :=
  carries.stored shared.buffer

theorem Carries.objectIn_eq {bytes : List Byte} {json : Json} (carries : Carries lib bytes json) :
    objectIn lib bytes = some json := by
  obtain ⟨larger, _, _, parsed⟩ := carries.stored fun _ => 0
  simp only [objectIn]
  rw [if_neg (Nat.not_le.mpr larger)]
  exact parsed

theorem Bare.objectIn_eq {bytes : List Byte} (bare : Bare bytes) : objectIn lib bytes = none := by
  simp only [objectIn]
  rw [bare.stored]
  exact if_pos (Nat.le_refl _)

/-! ## What one device does -/

/-- The message of an object carries it. -/
theorem CJson.Lawful.carries (lawful : lib.Lawful) {shared : Shared Json}
    (own : Count (getMirrorUpdateCount lib shared.mirror))
    (prepared : 0 < (jsonPrepGetCounterValue lib shared).1) :
    Carries lib (messageIn (jsonPrepGetCounterValue lib shared).2.buffer)
      (getMirror lib shared.mirror) := by
  obtain ⟨ready, _⟩ := (jsonPrepGetCounterValue_pos lib shared).mp prepared
  obtain ⟨buffer, equal, holds⟩ := lawful.prepares shared ready
  have fields := Message.fields (List.prefix_refl _) (by
    rw [Message.bytes_length]
    exact Message.headerSize_le_size _) holds
  rw [equal]
  refine ⟨⟨lawful.request _ ready, slice_message holds fields.1, rfl, fun memory text => ?_⟩, own⟩
  exact lawful.parsed _ memory text

theorem jsonPrepGetCounterValue_mirror (shared : Shared Json) :
    (jsonPrepGetCounterValue lib shared).2.mirror = some (getMirror lib shared.mirror) := by
  rw [jsonPrepGetCounterValue]
  dsimp only
  split <;> rfl

theorem uint16_int32 (value : Nat) : uint16 (int32 value) = uint16 value := by
  rw [int32]
  split
  · rw [uint16, uint16]
    omega
  · rw [uint16, uint16]
    omega

namespace Node

variable {node : Node Json} {bytes : List Byte} {json : Json}

/-- A server whose object is not newer takes that of the client. -/
theorem serve_takes (own : Count (node.count lib)) (carries : Carries lib bytes json)
    (older : node.count lib ≤ getMirrorUpdateCount lib (some json)) :
    (node.serve lib bytes).1.shared.mirror = some json ∧
      ∃ bare, (node.serve lib bytes).2 = [bare] ∧ Bare bare := by
  obtain ⟨request, rfl, version, parsed⟩ := carries.message
  obtain ⟨holds, _, field⟩ := request.toMessage.stored node.shared.buffer
  have accepted : uint32 (getMirrorUpdateCount lib (node.shared.holding request.bytes).mirror) ≤
      dataVersionField (node.shared.holding request.bytes).buffer := by
    simp only [Shared.holding]
    rw [field, version]
    exact (own.uint32_le carries.count).mpr older
  simp only [serve]
  rw [tcpServerJsonAnswer_accepts lib quiet _ accepted]
  dsimp only
  rw [tcpServerJsonSend_shared, written_tcpServerJsonSend]
  refine ⟨parsed _ (holds_textOf holds), _, rfl, request.dataVersion, request.version, ?_⟩
  exact slice_message (holds_setSizeField holds) rfl

/-- A server whose object is newer keeps it, and sends it back where it can be printed. -/
theorem serve_keeps (own : Count (node.count lib)) (carries : Carries lib bytes json)
    (newer : ¬ node.count lib ≤ getMirrorUpdateCount lib (some json)) :
    (node.serve lib bytes).1.shared.mirror = some (getMirror lib node.shared.mirror) ∧
      ∃ shared : Shared Json, shared.mirror = some (getMirror lib node.shared.mirror) ∧
        (node.serve lib bytes).2 =
          if 0 < (jsonPrepGetCounterValue lib shared).1 then
            [messageIn (jsonPrepGetCounterValue lib shared).2.buffer]
          else [] := by
  obtain ⟨_, _, field, _⟩ := carries.holding node.shared
  have kept : ¬ uint32 (getMirrorUpdateCount lib (node.shared.holding bytes).mirror) ≤
      dataVersionField (node.shared.holding bytes).buffer := by
    rw [field]
    exact fun below => newer ((own.uint32_le carries.count).mp below)
  simp only [serve]
  rw [tcpServerJsonAnswer_keeps lib quiet _ kept]
  have mirror : (node.shared.holding bytes).mirror = node.shared.mirror := rfl
  dsimp only
  rw [mirror]
  refine ⟨?_, { buffer := setSizeField (node.shared.holding bytes).buffer (headerSize + 10)
                mirror := some (getMirror lib node.shared.mirror) }, rfl, ?_⟩
  · split
    · dsimp only
      rw [tcpServerJsonSend_shared, jsonPrepGetCounterValue_mirror]
      rfl
    · rw [tcpServerResult_shared, jsonPrepGetCounterValue_mirror]
      rfl
  · split
    · dsimp only
      rw [written_tcpServerJsonSend]
      dsimp only
      rw [uint16_int32]
      rfl
    · exact written_tcpServerResult _ _ _

/-- A bare header changes nothing but the buffer. -/
theorem replied_bare (bare : Bare bytes) :
    (node.replied lib bytes).shared.mirror = node.shared.mirror := by
  have size : sizeField (node.shared.holding bytes).buffer = headerSize :=
    bare.stored node.shared.buffer
  have header : int32 headerSize = headerSize := by decide
  simp only [replied, size, header]
  rw [tcpClientJsonHandleReply_bare]
  rfl

/-- A client takes an object that is not older than its own. -/
theorem replied_carries (own : Count (node.count lib)) (carries : Carries lib bytes json) :
    (node.replied lib bytes).shared.mirror =
      if node.count lib ≤ getMirrorUpdateCount lib (some json) then some json
      else some (getMirror lib node.shared.mirror) := by
  obtain ⟨larger, small, field, parsed⟩ := carries.holding node.shared
  have whole :
      ¬ uint32 (int32 (sizeField (node.shared.holding bytes).buffer)) ≤ headerSize := by
    rw [int32_of_small small, uint32]
    simp only [maxJsonBufSize] at small
    omega
  have mirror : getMirrorUpdateCount lib (node.shared.holding bytes).mirror = node.count lib :=
    rfl
  simp only [replied, tcpClientJsonHandleReply, if_neg whole, field, mirror]
  by_cases older : node.count lib ≤ getMirrorUpdateCount lib (some json)
  · rw [if_pos ((own.uint32_le carries.count).mpr older), if_pos older]
    exact parsed
  · rw [if_neg fun below => older ((own.uint32_le carries.count).mp below), if_neg older]
    rfl

/-- The main loop remembers the count it has seen. -/
theorem check_fst (hosts : Hosts Host Json) (host : Host) (node : Node Json) :
    (node.check lib hosts host).1.shared.mirror = some (getMirror lib node.shared.mirror) ∧
      (node.check lib hosts host).1.lastUpdateCount = node.count lib := by
  rw [check]
  split
  · exact ⟨jsonPrepGetCounterValue_mirror node.shared, rfl⟩
  · rename_i seen
    exact ⟨rfl, not_not.mp seen⟩

/-- What the main loop sends is the device's own object. -/
theorem check_sends (hosts : Hosts Host Json) (host : Host) {node : Node Json}
    (changed : node.lastUpdateCount ≠ node.count lib)
    (prepared : 0 < (jsonPrepGetCounterValue lib node.shared).1) :
    (node.check lib hosts host).2 =
      (((hosts.buddyIp (getMirror lib node.shared.mirror)).filter
        (hosts.name host ≠ ·)).filterMap hosts.resolve).map fun buddy =>
          .request host buddy (messageIn (jsonPrepGetCounterValue lib node.shared).2.buffer) := by
  simp only [check, if_pos changed, if_pos prepared, jsonPrepGetCounterValue_mirror]
  rfl

/-- When the main loop sends. -/
theorem check_silent (hosts : Hosts Host Json) (host : Host) (node : Node Json) :
    (node.check lib hosts host).2 = [] ∨ node.lastUpdateCount ≠ node.count lib ∧
      0 < (jsonPrepGetCounterValue lib node.shared).1 := by
  rw [check]
  split
  · rename_i changed
    dsimp only
    split
    · rename_i prepared
      exact .inr ⟨changed, prepared⟩
    · exact .inl rfl
  · exact .inl rfl

end Node

end Network

/-! ## Two devices -/

/-- Two devices whose objects list both. -/
def twoHosts (Json : Type) : Hosts Bool Json where
  name host := [if host = true then 1 else 0]
  resolve name := if name = [1] then some true else if name = [0] then some false else none
  resolved host := by cases host <;> rfl
  buddyIp _ := [[0], [1]]

/-- Two devices that have just started, with the objects they have. -/
def twoDevices {Json : Type} (json : Bool → Json) : Network Bool Json where
  node host := { shared := { buffer := fun _ => 0, mirror := some (json host) }
                 lastUpdateCount := 0 }
  inFlight := []

end PicoApConfigure.Json
