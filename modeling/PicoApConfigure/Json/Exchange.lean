import PicoApConfigure.Json.Reply

/-!
# One complete exchange

A client sends its object to a server, the server replies, and both end with the same
object.  Each device has its own buffer, and TCP cuts both messages anywhere.
-/

namespace PicoApConfigure.Json

open Nor Tcp

/-! ## Numbers of the protocol -/

/-- A count that `json_prep_get_counter_value` can send. -/
structure Count (count : Int) : Prop where
  positive : 1 ≤ count
  bounded : count ≤ 2147483647

theorem Count.uint32_le {left right : Int} (first : Count left) (second : Count right) :
    uint32 left ≤ uint32 right ↔ left ≤ right := by
  obtain ⟨positive, bounded⟩ := first
  obtain ⟨positive', bounded'⟩ := second
  simp only [uint32]
  omega

/-! ## Bare headers -/

/-- A message without a text. -/
def bareHeader (dataVersion : Nat) (version : dataVersion < 4294967296) : Message :=
  { dataVersion, text := [], version, fits := by decide }

/-- The header of a message with another size. -/
theorem holds_setSizeField {buffer : Memory} {message : Message}
    (holds : Holds buffer 0 message.bytes) :
    Holds (setSizeField buffer headerSize) 0
      (bareHeader message.dataVersion message.version).bytes := by
  have header := (holds_append.mp holds).1
  simp only [Message.header, TcpJsonHeader.bytes, holds_append, wordBytes_length] at header
  obtain ⟨protocol, _, version⟩ := header
  simp only [Message.bytes, Message.header, TcpJsonHeader.bytes, holds_append, wordBytes_length,
    bareHeader, holds_nil, and_true]
  refine ⟨?_, ?_, ?_⟩
  · refine protocol.congr fun query _ below => ?_
    rw [wordBytes_length] at below
    exact (store_of_lt _ _ (by omega)).symm
  · exact holds_store _ _ _
  · refine version.congr fun query above _ => ?_
    exact (store_of_le _ _ above).symm

section Exchange

variable {Json : Type} {lib : CJson Json}

theorem CJson.Lawful.request_count (lawful : lib.Lawful) {json : Json} {count : Int}
    (counted : lib.updateCount json = some count)
    (ready : (lib.printPreallocated json printSize).1 = true) :
    (lawful.request json ready).dataVersion = uint32 count := by
  simp only [CJson.Lawful.request, getMirrorUpdateCount, getMirror, Option.getD_some, counted]

theorem uint32_lt (value : Int) : uint32 value < 4294967296 := by
  rw [uint32]
  omega

/-- What is sent of a buffer that holds a message. -/
theorem slice_message {buffer : Memory} {message : Message} {size : Nat}
    (holds : Holds buffer 0 message.bytes) (equal : size = message.size) :
    slice buffer 0 (uint16 size) = message.bytes := by
  rw [equal, uint16_of_small message.size_le, ← Message.bytes_length]
  exact holds

/-- The server takes the client's object and sends a bare header. -/
theorem tcpServerJsonAnswer_taken (lawful : lib.Lawful) {x : Json}
    (ready : (lib.printPreallocated x printSize).1 = true) {shared : Shared Json}
    (holds : Holds shared.buffer 0 (lawful.request x ready).bytes)
    (newer : uint32 (getMirrorUpdateCount lib shared.mirror) ≤
      (lawful.request x ready).dataVersion) (replies : Replies) (client : ServerPerClient) :
    written (tcpServerJsonAnswer lib replies client shared).calls =
        [(bareHeader (lawful.request x ready).dataVersion
          (lawful.request x ready).version).bytes] ∧
      (tcpServerJsonAnswer lib replies client shared).shared.mirror = some x := by
  have fields := Message.fields (List.prefix_refl _) (by
    rw [Message.bytes_length]
    exact Message.headerSize_le_size _) holds
  have accepted := newer
  rw [← fields.2] at accepted
  rw [tcpServerJsonAnswer_accepts lib replies client accepted]
  refine ⟨?_, ?_⟩
  · dsimp only
    rw [written_tcpServerJsonSend]
    exact congrArg (fun bytes => [bytes]) (slice_message (holds_setSizeField holds) rfl)
  · dsimp only
    rw [tcpServerJsonSend_shared]
    exact lawful.parsed x _ (holds_textOf holds)

/-- The server keeps its own object and sends it back. -/
theorem tcpServerJsonAnswer_kept (lawful : lib.Lawful) {y : Json}
    (ready : (lib.printPreallocated y printSize).1 = true) {shared : Shared Json}
    (mirror : shared.mirror = some y)
    (positive : 0 < getMirrorUpdateCount lib (some y))
    (older : ¬ uint32 (getMirrorUpdateCount lib (some y)) ≤ dataVersionField shared.buffer)
    (replies : Replies) (client : ServerPerClient) :
    written (tcpServerJsonAnswer lib replies client shared).calls =
        [(lawful.request y ready).bytes] ∧
      (tcpServerJsonAnswer lib replies client shared).shared.mirror = some y := by
  rw [← mirror] at older
  rw [tcpServerJsonAnswer_keeps lib replies client older, mirror]
  obtain ⟨buffer, prepared, holds⟩ := lawful.prepares
    { buffer := setSizeField shared.buffer (headerSize + 10),
      mirror := some (getMirror lib (some y)) } ready
  have fields := Message.fields (List.prefix_refl _) (by
    rw [Message.bytes_length]
    exact Message.headerSize_le_size _) holds
  have count : 0 < getMirrorUpdateCount lib (some (getMirror lib (some y))) := positive
  dsimp only
  rw [prepared, if_pos count]
  refine ⟨?_, ?_⟩
  · dsimp only
    rw [written_tcpServerJsonSend, fields.1, int32_of_small (Message.size_le _)]
    exact congrArg (fun bytes => [bytes]) (slice_message holds rfl)
  · dsimp only
    rw [tcpServerJsonSend_shared]
    rfl

/-- A bare header leaves the client's object alone. -/
theorem tcpClientJsonHandleReply_bare (shared : Shared Json) :
    tcpClientJsonHandleReply lib headerSize shared = shared := by
  rw [tcpClientJsonHandleReply]
  exact if_pos (by decide)

/-- A newer object replaces that of the client. -/
theorem tcpClientJsonHandleReply_newer (lawful : lib.Lawful) {y : Json}
    (ready : (lib.printPreallocated y printSize).1 = true) {shared : Shared Json}
    (holds : Holds shared.buffer 0 (lawful.request y ready).bytes)
    (newer : uint32 (getMirrorUpdateCount lib shared.mirror) ≤
      (lawful.request y ready).dataVersion) :
    (tcpClientJsonHandleReply lib (lawful.request y ready).size shared).mirror = some y := by
  have fields := Message.fields (List.prefix_refl _) (by
    rw [Message.bytes_length]
    exact Message.headerSize_le_size _) holds
  have larger : ¬ uint32 (lawful.request y ready).size ≤ headerSize := by
    have long := (lawful.request y ready).headerSize_lt_size
    have small := (lawful.request y ready).toMessage.size_le
    simp only [uint32, maxJsonBufSize] at *
    omega
  rw [tcpClientJsonHandleReply, if_neg larger]
  dsimp only
  rw [if_pos (by rw [fields.2]; exact newer)]
  exact lawful.parsed y _ (holds_textOf holds)

end Exchange

/-! ## The exchange -/

/-- Two devices, and how TCP carries what they send. -/
structure Exchange where
  clientBuffer : Memory
  serverBuffer : Memory
  block : TcpClientT
  slot : ServerPerClient
  pcb : Pcb
  tpcb : Pcb
  sendReplies : Replies
  requestChunks : List (List Byte × Replies)
  acks : List Nat
  replyChunks : List (List Byte × Replies)

namespace Exchange

variable {Json : Type} (lib : CJson Json) (exchange : Exchange)

/-- The client prepares its message, connects and writes it. -/
def sending (x : Json) : Outcome (Option TcpClientT) Json :=
  let prepared :=
    jsonPrepGetCounterValue lib { buffer := exchange.clientBuffer, mirror := some x }
  jsonClientConnected exchange.sendReplies exchange.pcb .ok exchange.block prepared.2

/-- The server after some chunks of the message. -/
def server (y : Json) (chunks : List (List Byte × Replies)) : Receiving Json :=
  (Receiving.accepted exchange.tpcb exchange.slot
    { buffer := exchange.serverBuffer, mirror := some y }).deliverAll lib exchange.tpcb chunks

/-- The client after the acknowledgements and some chunks of the reply. -/
def client (x : Json) (chunks : List (List Byte × Replies)) : Replying Json :=
  ((Replying.mk (exchange.sending lib x).state (exchange.sending lib x).shared []).ackAll
    exchange.acks).receiveAll lib exchange.pcb chunks

/-- TCP carries exactly what is written, in chunks that are not empty. -/
structure Carries (x y : Json) : Prop where
  accepted : exchange.sendReplies.write = .ok
  request : ∀ bytes ∈ written (exchange.sending lib x).calls,
    Cut exchange.requestChunks bytes ∧ exchange.acks.sum = bytes.length
  acks : ∀ len ∈ exchange.acks, 0 < len
  reply : ∀ handled ∈ (exchange.server lib y exchange.requestChunks).handled,
    ∀ bytes ∈ handled.written, Cut exchange.replyChunks bytes

/-- The request and the reply are handled once, when their last byte arrives, and both
mirrors are `z`. -/
structure Agrees (x y z : Json) : Prop where
  serverWaits : (exchange.server lib y exchange.requestChunks.dropLast).handled = []
  serverOnce : (exchange.server lib y exchange.requestChunks).handled.length = 1
  clientWaits : (exchange.client lib x exchange.replyChunks.dropLast).handled = []
  clientOnce : (exchange.client lib x exchange.replyChunks).handled.length = 1
  serverMirror : (exchange.server lib y exchange.requestChunks).shared.mirror = some z
  clientMirror : (exchange.client lib x exchange.replyChunks).shared.mirror = some z

/-- The message is in the client's buffer when it is written. -/
theorem sending_eq (lawful : lib.Lawful) {x : Json}
    (ready : (lib.printPreallocated x printSize).1 = true)
    (accepted : exchange.sendReplies.write = .ok) :
    ∃ buffer, Holds buffer 0 (lawful.request x ready).bytes ∧
      (exchange.sending lib x).state = some { exchange.block with recvLen := 0, sentLen := 0 } ∧
      (exchange.sending lib x).shared = { buffer, mirror := some x } ∧
      written (exchange.sending lib x).calls = [(lawful.request x ready).bytes] := by
  obtain ⟨buffer, prepared, holds⟩ := lawful.prepares
    { buffer := exchange.clientBuffer, mirror := some x } ready
  have fields := Message.fields (List.prefix_refl _) (by
    rw [Message.bytes_length]
    exact Message.headerSize_le_size _) holds
  have unsent : 0 ≤ sizeField buffer := Nat.zero_le _
  refine ⟨buffer, holds, ?_⟩
  simp only [sending, prepared, jsonClientConnected, ne_eq, not_true_eq_false, if_false,
    tcpClientJsonSending, if_pos unsent, if_pos accepted]
  refine ⟨trivial, rfl, ?_⟩
  exact congrArg (fun bytes => [bytes]) (slice_message holds fields.1)

/-- Chunks that carry a message are not empty. -/
theorem cut_split {chunks : List (List Byte × Replies)} {message : Message}
    (cut : Cut chunks message.bytes) : ∃ front last, chunks = front ++ [last] := by
  rcases List.eq_nil_or_concat chunks with rfl | ⟨front, last, equal⟩
  · have empty := congrArg List.length cut.flat
    have long := message.headerSize_le_size
    rw [Message.bytes_length, List.map_nil, List.flatten_nil, List.length_nil] at empty
    rw [← empty] at long
    exact absurd long (by decide)
  · exact ⟨front, last, by rw [equal, List.concat_eq_append]⟩

/-- The client's side, from its message to its last chunk of the reply. -/
theorem client_eq (lawful : lib.Lawful) {x : Json}
    (ready : (lib.printPreallocated x printSize).1 = true)
    (accepted : exchange.sendReplies.write = .ok)
    (acked : exchange.acks.sum = (lawful.request x ready).size)
    (positive : ∀ len ∈ exchange.acks, 0 < len) {message : Message}
    {front : List (List Byte × Replies)} {last : List Byte × Replies}
    (cut : Cut (front ++ [last]) message.bytes) :
    (exchange.client lib x front).handled = [] ∧
      ∃ buffer, Holds buffer 0 message.bytes ∧
        exchange.client lib x (front ++ [last]) =
          { block := none
            shared := tcpClientJsonHandleReply lib message.size { buffer, mirror := some x }
            handled := [buffer] } := by
  obtain ⟨buffer, holds, state, shared, _⟩ := exchange.sending_eq lib lawful ready accepted
  have fields := Message.fields (List.prefix_refl _) (by
    rw [Message.bytes_length]
    exact Message.headerSize_le_size _) holds
  have some : exchange.acks ≠ [] := by
    intro empty
    have long := (lawful.request x ready).headerSize_lt_size
    rw [← acked, empty, List.sum_nil] at long
    exact absurd long (by decide)
  have total : 0 + exchange.acks.sum = (lawful.request x ready).size := by
    rw [Nat.zero_add]
    exact acked
  have acknowledged : (Replying.mk
      (.some { exchange.block with recvLen := 0, sentLen := 0 })
      (Shared.mk buffer (.some x)) []).ackAll exchange.acks = _ :=
    Replying.ackAll_message fields.1 positive some total
  have awaiting := awaiting_start
    { exchange.block with count := exchange.block.count + 1, recvLen := 0, sentLen := 0 }
    buffer (.some x) rfl
  simp only [client, state, shared, acknowledged]
  obtain ⟨waits, after, holds', complete⟩ := awaiting.receiveAll_complete lib cut
  exact ⟨waits, after, holds', complete⟩

/-- The server's side. -/
theorem server_eq {y : Json} {request : Request} {front : List (List Byte × Replies)}
    {last : List Byte × Replies} (cut : Cut (front ++ [last]) request.bytes) :
    (exchange.server lib y front).handled = [] ∧
      ∃ after final, exchange.server lib y (front ++ [last]) =
          { client := (tcpServerJsonAnswer lib last.2 after final).state
            shared := (tcpServerJsonAnswer lib last.2 after final).shared
            handled := [⟨final.buffer,
              written (tcpServerJsonAnswer lib last.2 after final).calls⟩] } ∧
        final.mirror = some y ∧ Holds final.buffer 0 request.bytes := by
  obtain ⟨waits, after, final, complete, _, mirror, assembling⟩ :=
    Receiving.first_message lib exchange.tpcb exchange.slot
      { buffer := exchange.serverBuffer, mirror := some y } cut
  exact ⟨waits, after, final, complete, mirror, assembling.holds⟩

/-- Both devices agree on what the answer leaves on the server and the reply on the client. -/
theorem Carries.agrees (lawful : lib.Lawful) {x y z : Json}
    (ready : (lib.printPreallocated x printSize).1 = true)
    {exchange : Exchange} (carries : exchange.Carries lib x y) (reply : Message)
    (answered : ∀ (replies : Replies) (client : ServerPerClient) (shared : Shared Json),
      shared.mirror = some y → Holds shared.buffer 0 (lawful.request x ready).bytes →
      written (tcpServerJsonAnswer lib replies client shared).calls = [reply.bytes] ∧
        (tcpServerJsonAnswer lib replies client shared).shared.mirror = some z)
    (replied : ∀ shared : Shared Json, shared.mirror = some x →
      Holds shared.buffer 0 reply.bytes →
      (tcpClientJsonHandleReply lib reply.size shared).mirror = some z) :
    exchange.Agrees lib x y z := by
  obtain ⟨_, _, _, _, sent⟩ := exchange.sending_eq lib lawful ready carries.accepted
  obtain ⟨cut, acked⟩ := carries.request _ (sent ▸ List.mem_singleton.mpr rfl)
  rw [Message.bytes_length] at acked
  obtain ⟨front, last, chunks⟩ := cut_split cut
  rw [chunks] at cut
  obtain ⟨serverWaits, after, final, served, mirror, holds⟩ := exchange.server_eq lib cut
  obtain ⟨bytes, serverMirror⟩ := answered last.2 after final mirror holds
  rw [bytes] at served
  have replyCut := carries.reply ⟨final.buffer, [reply.bytes]⟩
    (by rw [chunks, served]; exact List.mem_singleton.mpr rfl) _ (List.mem_singleton.mpr rfl)
  obtain ⟨replyFront, replyLast, replies⟩ := cut_split replyCut
  rw [replies] at replyCut
  obtain ⟨clientWaits, buffer, arrived, done⟩ :=
    exchange.client_eq lib lawful ready carries.accepted acked carries.acks replyCut
  refine ⟨?_, ?_, ?_, ?_, ?_, ?_⟩
  · rw [chunks, List.dropLast_concat]
    exact serverWaits
  · rw [chunks, served]
    rfl
  · rw [replies, List.dropLast_concat]
    exact clientWaits
  · rw [replies, done]
    rfl
  · rw [chunks, served]
    exact serverMirror
  · rw [replies, done]
    exact replied { buffer, mirror := some x } rfl arrived

end Exchange

/-- The count of an object. -/
theorem getMirrorUpdateCount_of {Json : Type} {lib : CJson Json} {json : Json} {count : Int}
    (counted : lib.updateCount json = some count) :
    getMirrorUpdateCount lib (some json) = count := by
  simp only [getMirrorUpdateCount, getMirror, Option.getD_some, counted]

/-- A complete exchange leaves both devices with the newer object, the client's where the
counts are equal. -/
theorem exchange_agrees {Json : Type} {lib : CJson Json} (lawful : lib.Lawful) {x y : Json}
    {a b : Int} (countX : lib.updateCount x = some a) (countY : lib.updateCount y = some b)
    (boundA : Count a) (boundB : Count b)
    (readyX : (lib.printPreallocated x printSize).1 = true)
    (readyY : (lib.printPreallocated y printSize).1 = true)
    {exchange : Exchange} (carries : exchange.Carries lib x y) :
    exchange.Agrees lib x y (if b ≤ a then x else y) ∧
      lib.updateCount (if b ≤ a then x else y) = some (max a b) := by
  have versionX := lawful.request_count countX readyX
  have versionY := lawful.request_count countY readyY
  have countedX := getMirrorUpdateCount_of countX
  have countedY := getMirrorUpdateCount_of countY
  by_cases newer : b ≤ a
  · rw [if_pos newer, Int.max_eq_left newer]
    refine ⟨?_, countX⟩
    refine carries.agrees lib lawful readyX (bareHeader _ (lawful.request x readyX).version)
      ?_ ?_
    · intro replies client shared mirror holds
      refine tcpServerJsonAnswer_taken lawful readyX holds ?_ replies client
      rw [mirror, countedY, versionX]
      exact (boundB.uint32_le boundA).mpr newer
    · intro shared mirror _
      exact (congrArg Shared.mirror (tcpClientJsonHandleReply_bare shared)).trans mirror
  · have older : a ≤ b := Int.le_of_lt (Int.not_le.mp newer)
    rw [if_neg newer, Int.max_eq_right older]
    refine ⟨?_, countY⟩
    refine carries.agrees lib lawful readyX (lawful.request y readyY).toMessage ?_ ?_
    · intro replies client shared mirror holds
      have fields := Message.fields (List.prefix_refl _) (by
        rw [Message.bytes_length]
        exact Message.headerSize_le_size _) holds
      refine tcpServerJsonAnswer_kept lawful readyY mirror ?_ ?_ replies client
      · rw [countedY]
        exact boundB.positive
      · rw [fields.2, countedY, versionX, boundB.uint32_le boundA]
        exact newer
    · intro shared mirror holds
      refine tcpClientJsonHandleReply_newer lawful readyY holds ?_
      rw [mirror, countedX, versionY]
      exact (boundA.uint32_le boundB).mpr older

/-- The client's object has the larger count. -/
def smallCount (json : Bool) : Int := if json = true then 2 else 1

/-- The server is one count behind, and the request comes in two chunks. -/
def smallExchange : Exchange where
  clientBuffer _ := 0
  serverBuffer _ := 0
  block := tcpClientInit
  slot := .zeroed
  pcb := 1
  tpcb := 2
  sendReplies := quiet
  requestChunks := [([1, 0, 0, 0, 13], quiet), ([0, 0, 0, 2, 0, 0, 0, 0x41], quiet)]
  acks := [13]
  replyChunks := [([1, 0, 0, 0, 12, 0, 0, 0, 2], quiet), ([0, 0, 0], quiet)]

theorem smallExchange_sends :
    written (smallExchange.sending (twoObjects smallCount) true).calls =
      [[1, 0, 0, 0, 13, 0, 0, 0, 2, 0, 0, 0, 0x41]] := by
  decide +kernel

theorem smallExchange_replies :
    (smallExchange.server (twoObjects smallCount) false smallExchange.requestChunks).handled.map
      Handled.written = [[[1, 0, 0, 0, 12, 0, 0, 0, 2, 0, 0, 0]]] := by
  decide +kernel

theorem smallExchange_carries : smallExchange.Carries (twoObjects smallCount) true false where
  accepted := rfl
  request := by
    rw [smallExchange_sends]
    intro bytes member
    rw [List.mem_singleton.mp member]
    exact ⟨⟨by decide, rfl⟩, rfl⟩
  acks := by decide
  reply := by
    intro handled member bytes sent
    have entry := List.mem_map_of_mem (f := Handled.written) member
    rw [smallExchange_replies] at entry
    rw [List.mem_singleton.mp entry] at sent
    rw [List.mem_singleton.mp sent]
    exact ⟨by decide, rfl⟩

theorem exchange_agrees_small :
    smallExchange.Agrees (twoObjects smallCount) true false true ∧
      (twoObjects smallCount).updateCount true = some 2 :=
  exchange_agrees (twoObjects_lawful smallCount) rfl rfl ⟨by decide, by decide⟩
    ⟨by decide, by decide⟩ (by decide) (by decide) smallExchange_carries

end PicoApConfigure.Json
