import PicoApConfigure.Json.Client

/-!
# Messages and their reassembly by the server

A message is a header and a text that fit the buffer.  The state of a connection after some
bytes of a message is computed from these bytes alone, so the cut into chunks does not
matter.
-/

namespace PicoApConfigure.Json

open Nor Tcp

/-- A header with the text behind it, which may be empty. -/
structure Message where
  dataVersion : Nat
  text : List Byte
  version : dataVersion < 4294967296
  fits : headerSize + text.length ≤ maxJsonBufSize

/-- A complete, well-formed message of a client. -/
structure Request extends Message where
  nonempty : text ≠ []

namespace Message

/-- The announced size. -/
def size (message : Message) : Nat := headerSize + message.text.length

/-- The header of the message. -/
def header (message : Message) : TcpJsonHeader :=
  { protocolVersion := jsonProtocolVersion, size := message.size,
    dataVersion := message.dataVersion }

/-- What is sent. -/
def bytes (message : Message) : List Byte := message.header.bytes ++ message.text

@[simp] theorem bytes_length (message : Message) : message.bytes.length = message.size := by
  rw [bytes, List.length_append, TcpJsonHeader.bytes_length]
  rfl

theorem headerSize_le_size (message : Message) : headerSize ≤ message.size :=
  Nat.le_add_right _ _

theorem size_le (message : Message) : message.size ≤ maxJsonBufSize := message.fits

end Message

theorem Request.headerSize_lt_size (request : Request) :
    headerSize < request.toMessage.size :=
  Nat.lt_add_of_pos_right (List.length_pos_iff.mpr request.nonempty)

/-! ## The header in the buffer -/

theorem wordAt_fields {buffer : Memory} {header : TcpJsonHeader}
    (holds : Holds buffer 0 header.bytes) (size : header.size < 4294967296)
    (version : header.dataVersion < 4294967296) :
    sizeField buffer = header.size ∧ dataVersionField buffer = header.dataVersion := by
  rw [TcpJsonHeader.bytes, holds_append, holds_append] at holds
  obtain ⟨_, sizeBytes, versionBytes⟩ := holds
  exact ⟨wordAt_of_holds sizeBytes size, wordAt_of_holds versionBytes version⟩

/-- The header fields once the first bytes of a message hold a header. -/
theorem Message.fields {message : Message} {buffer : Memory} {received : List Byte}
    (prefixed : received <+: message.bytes) (long : headerSize ≤ received.length)
    (holds : Holds buffer 0 received) :
    sizeField buffer = message.size ∧ dataVersionField buffer = message.dataVersion := by
  have header : message.header.bytes <+: received :=
    List.prefix_of_prefix_length_le (List.prefix_append _ _) prefixed long
  obtain ⟨behind, rfl⟩ := header
  have small : message.size < 4294967296 := Nat.lt_of_le_of_lt message.size_le (by decide)
  exact wordAt_fields (holds_append.mp holds).1 small message.version

/-- The text behind the header. -/
theorem holds_textOf {buffer : Memory} {message : Message}
    (holds : Holds buffer 0 message.bytes) : Holds (textOf buffer) 0 message.text := by
  have text := (holds_append.mp holds).2
  rw [TcpJsonHeader.bytes_length, holds_iff] at text
  rw [holds_iff]
  intro offset inside
  have byte := text offset inside
  rw [Nat.zero_add] at byte ⊢
  exact byte

/-! ## What is written -/

/-- The bytes of the writes among the calls. -/
def written (calls : List Call) : List (List Byte) :=
  calls.filterMap fun call =>
    match call with
    | .write _ bytes _ => some bytes
    | _ => none

section Written

variable {Json : Type}

theorem written_append (left right : List Call) :
    written (left ++ right) = written left ++ written right := List.filterMap_append

theorem written_tcpClientResult (replies : Replies) (client : TcpClientT)
    (shared : Shared Json) : written (tcpClientResult replies client shared).calls = [] := by
  simp only [tcpClientResult, tcpClientClose]
  split
  · simp only [closeOrAbort]
    split <;> rfl
  · rfl

theorem written_tcpServerResult (replies : Replies) (client : ServerPerClient)
    (shared : Shared Json) : written (tcpServerResult replies client shared).calls = [] := by
  rw [tcpServerResult, tcpCloseClient]
  split
  · simp only [closeOrAbort]
    split <;> rfl
  · rfl

theorem written_tcpServerJsonSend (replies : Replies) (tpcb : Option Pcb)
    (client : ServerPerClient) (shared : Shared Json) :
    written (tcpServerJsonSend replies tpcb client shared).calls =
      [slice shared.buffer 0 (uint16 client.sendSize)] := by
  simp only [tcpServerJsonSend]
  split
  · rfl
  split
  · rfl
  have failed := written_tcpServerResult replies
    { client with sentLen := 0, status := replies.write } shared
  simp only [written] at failed
  simp only [Outcome.after, written, List.filterMap_append, List.filterMap_cons, failed,
    List.filterMap_nil, List.append_nil]

theorem tcpServerResult_shared (replies : Replies) (client : ServerPerClient)
    (shared : Shared Json) : (tcpServerResult replies client shared).shared = shared := by
  rw [tcpServerResult, tcpCloseClient]
  split <;> rfl

theorem tcpServerJsonSend_shared (replies : Replies) (tpcb : Option Pcb)
    (client : ServerPerClient) (shared : Shared Json) :
    (tcpServerJsonSend replies tpcb client shared).shared = shared := by
  simp only [tcpServerJsonSend]
  split
  · rfl
  split
  · rfl
  · exact tcpServerResult_shared replies _ shared

end Written

/-! ## Prepared messages -/

section Prepared

variable {Json : Type} {lib : CJson Json}

/-- The message with an object that can be printed. -/
def CJson.Lawful.request (lawful : lib.Lawful) (json : Json)
    (ready : (lib.printPreallocated json printSize).1 = true) : Request where
  dataVersion := uint32 (getMirrorUpdateCount lib (some json))
  text := lib.print json
  version := by
    rw [uint32]
    omega
  fits := by
    have bounded := lawful.bounded json printSize
    rw [lawful.printed json printSize ready, List.length_append] at bounded
    simp only [printSize, headerSize, maxJsonBufSize] at *
    omega
  nonempty := lawful.nonempty json

/-- The length of a printed text. -/
theorem CJson.Lawful.strlen (lawful : lib.Lawful) (json : Json) :
    (lib.print json ++ [0]).takeWhile (· ≠ 0) = lib.print json := by
  have present : ∀ byte ∈ lib.print json, decide (byte ≠ 0) = true := by
    intro byte member
    refine decide_eq_true fun zero => lawful.terminated json ?_
    rw [← zero]
    exact member
  rw [List.takeWhile_append_of_pos present]
  exact List.append_nil _

/-- `json_prep_get_counter_value` leaves the message of the mirror in the buffer. -/
theorem CJson.Lawful.prepares (lawful : lib.Lawful) (shared : Shared Json)
    (ready : (lib.printPreallocated (getMirror lib shared.mirror) printSize).1 = true) :
    ∃ buffer, jsonPrepGetCounterValue lib shared =
        (getMirrorUpdateCount lib shared.mirror,
          { buffer, mirror := some (getMirror lib shared.mirror) }) ∧
      Holds buffer 0 (lawful.request (getMirror lib shared.mirror) ready).bytes := by
  have printed := lawful.printed _ _ ready
  simp only [jsonPrepGetCounterValue, if_pos ready, printed, lawful.strlen]
  refine ⟨_, rfl, ?_⟩
  rw [Message.bytes, holds_append]
  constructor
  · have header : (lawful.request (getMirror lib shared.mirror) ready).header =
        { protocolVersion := jsonProtocolVersion
          size := (lib.print (getMirror lib shared.mirror)).length + headerSize
          dataVersion := uint32 (getMirrorUpdateCount lib shared.mirror) } := by
      rw [Message.header, Message.size, Nat.add_comm headerSize]
      rfl
    rw [header]
    exact holds_store _ 0 _
  · have text := (holds_append.mp (holds_store shared.buffer headerSize
      (lib.print (getMirror lib shared.mirror) ++ [0]))).1
    refine text.congr fun query above _ => (store_of_le _ _ ?_).symm
    rw [TcpJsonHeader.bytes_length]
    exact above

end Prepared

/-! ## Conversions of small numbers -/

theorem int32_of_small {value : Nat} (small : value ≤ maxJsonBufSize) : int32 value = value := by
  simp only [maxJsonBufSize] at small
  rw [int32, if_pos (by omega)]
  omega

theorem uint16_of_small {value : Nat} (small : value ≤ maxJsonBufSize) :
    uint16 value = value := by
  simp only [maxJsonBufSize] at small
  rw [uint16]
  omega

theorem uint16_left {received : Nat} (small : received ≤ maxJsonBufSize) :
    uint16 (maxJsonBufSize - received) = maxJsonBufSize - received := by
  simp only [maxJsonBufSize] at small ⊢
  rw [uint16]
  omega

/-! ## The server -/

section Server

variable {Json : Type} (lib : CJson Json)

/-- The state of a connection after the first bytes of its first message. -/
structure Assembling (message : Message) (received : List Byte) (client : ServerPerClient)
    (shared : Shared Json) : Prop where
  recvLen : client.recvLen = received.length
  recvFlag : client.recvFlag = decide (headerSize < received.length)
  recvSize : client.recvSize = if headerSize < received.length then message.size else maxJsonBufSize
  holds : Holds shared.buffer 0 received

/-- A connection that has just been accepted. -/
theorem acceptIn_assembling (message : Message) (pcb : Pcb) (slot : ServerPerClient)
    (shared : Shared Json) : Assembling message [] (acceptIn pcb slot) shared where
  recvLen := rfl
  recvFlag := rfl
  recvSize := rfl
  holds := holds_nil _ _

/-- A chunk of the message is stored behind the bytes before it. -/
theorem Assembling.store {message : Message} {received chunk : List Byte}
    {client : ServerPerClient} {shared : Shared Json}
    (assembling : Assembling message received client shared) (some : chunk ≠ [])
    (prefixed : received ++ chunk <+: message.bytes) (tpcb : Pcb) :
    ∃ after, tcpServerJsonStore tpcb chunk client shared =
        (after, { shared with buffer := Nor.store shared.buffer received.length chunk },
          [.recved tpcb chunk.length]) ∧
      after.clientPcb = client.clientPcb ∧
      Assembling message (received ++ chunk) after
        { shared with buffer := Nor.store shared.buffer received.length chunk } := by
  have length := prefixed.length_le
  rw [List.length_append, Message.bytes_length] at length
  have fits := message.size_le
  have holds : Holds (Nor.store shared.buffer received.length chunk) 0 (received ++ chunk) := by
    rw [holds_append, Nat.zero_add]
    refine ⟨assembling.holds.congr fun query _ below => ?_, holds_store _ _ _⟩
    exact (store_of_lt _ _ (by omega)).symm
  have left : uint16 (maxJsonBufSize - received.length) = maxJsonBufSize - received.length :=
    uint16_left (by omega)
  have whole : chunk.take (maxJsonBufSize - received.length) = chunk :=
    List.take_of_length_le (by omega)
  have fields := fun long => Message.fields prefixed long holds
  rw [List.length_append] at fields
  simp only [tcpServerJsonStore, if_pos (List.length_pos_iff.mpr some), assembling.recvLen,
    assembling.recvFlag, left, whole, decide_eq_false_iff_not]
  refine ⟨_, rfl, ?_, ?_⟩
  · split <;> rfl
  have below : ¬ headerSize < received.length →
      headerSize < received.length + chunk.length →
      int32 (sizeField (Nor.store shared.buffer received.length chunk)) = message.size := by
    intro _ long
    rw [(fields (by omega)).1]
    exact int32_of_small fits
  by_cases headed : headerSize < received.length
  · have longer : headerSize < (received ++ chunk).length := by
      rw [List.length_append]
      omega
    rw [if_neg (fun both => both.1 headed)]
    refine ⟨(List.length_append).symm, ?_, ?_, holds⟩
    · simp only [decide_eq_true headed, decide_eq_true longer]
    · simp only [assembling.recvSize, if_pos headed, if_pos longer]
  · by_cases longer : headerSize < received.length + chunk.length
    · rw [if_pos ⟨headed, longer⟩]
      have longer' := longer
      rw [← List.length_append] at longer'
      refine ⟨(List.length_append).symm, (decide_eq_true longer').symm, ?_, holds⟩
      simp only [if_pos longer', below headed longer]
    · rw [if_neg (fun both => longer both.2)]
      have shorter := longer
      rw [← List.length_append] at shorter
      refine ⟨(List.length_append).symm, ?_, ?_, holds⟩
      · simp only [decide_eq_false headed, decide_eq_false shorter]
      · simp only [assembling.recvSize, if_neg headed, if_neg shorter]

/-! ### Runs -/

/-- A run of `tcp_server_json_check_freshness`: the buffer it was given, and what the same
callback wrote. -/
structure Handled where
  buffer : Memory
  written : List (List Byte)

/-- The buffer that `tcp_server_json_check_freshness` is given, where the chunk makes
`tcp_server_json_recv` call it. -/
def checkedBuffer (tpcb : Pcb) (chunk : List Byte) (client : ServerPerClient)
    (shared : Shared Json) : Option Memory :=
  let (client, shared, _) := tcpServerJsonStore tpcb chunk client shared
  if client.recvSize ≤ client.recvLen then some shared.buffer else none

/-- A connection, with the requests handled on it. -/
structure Receiving (Json : Type) where
  client : ServerPerClient
  shared : Shared Json
  handled : List Handled

namespace Receiving

/-- A connection that has just been accepted. -/
def accepted (pcb : Pcb) (slot : ServerPerClient) (shared : Shared Json) : Receiving Json :=
  { client := acceptIn pcb slot, shared, handled := [] }

/-- A chunk arrives. -/
def deliver (tpcb : Pcb) (receiving : Receiving Json) (chunk : List Byte × Replies) :
    Receiving Json :=
  let outcome := tcpServerJsonRecv lib chunk.2 tpcb (some chunk.1) .ok receiving.client
    receiving.shared
  { client := outcome.state
    shared := outcome.shared
    handled := receiving.handled ++
      match checkedBuffer tpcb chunk.1 receiving.client receiving.shared with
      | some buffer => [⟨buffer, written outcome.calls⟩]
      | none => [] }

/-- Chunks arrive one after the other. -/
def deliverAll (tpcb : Pcb) (receiving : Receiving Json)
    (chunks : List (List Byte × Replies)) : Receiving Json :=
  chunks.foldl (deliver lib tpcb) receiving

@[simp] theorem deliverAll_nil (tpcb : Pcb) (receiving : Receiving Json) :
    receiving.deliverAll lib tpcb [] = receiving := rfl

@[simp] theorem deliverAll_cons (tpcb : Pcb) (receiving : Receiving Json)
    (chunk : List Byte × Replies) (chunks : List (List Byte × Replies)) :
    receiving.deliverAll lib tpcb (chunk :: chunks) =
      (receiving.deliver lib tpcb chunk).deliverAll lib tpcb chunks := rfl

@[simp] theorem deliverAll_append (tpcb : Pcb) (receiving : Receiving Json)
    (left right : List (List Byte × Replies)) :
    receiving.deliverAll lib tpcb (left ++ right) =
      (receiving.deliverAll lib tpcb left).deliverAll lib tpcb right := List.foldl_append

end Receiving

/-- The chunks carry the bytes. -/
structure Cut (chunks : List (List Byte × Replies)) (bytes : List Byte) : Prop where
  some : ∀ chunk ∈ chunks, chunk.1 ≠ []
  flat : (chunks.map Prod.fst).flatten = bytes

theorem Cut.tail {chunk : List Byte × Replies} {chunks : List (List Byte × Replies)}
    {bytes : List Byte} (cut : Cut (chunk :: chunks) (chunk.1 ++ bytes)) : Cut chunks bytes where
  some := fun later member => cut.some later (List.mem_cons_of_mem _ member)
  flat := List.append_cancel_left cut.flat

/-- The chunk is not the last one of its message. -/
theorem Assembling.deliver_pending {message : Message} {received : List Byte}
    {receiving : Receiving Json} {chunk : List Byte × Replies}
    (assembling : Assembling message received receiving.client receiving.shared)
    (some : chunk.1 ≠ []) (prefixed : received ++ chunk.1 <+: message.bytes)
    (pending : (received ++ chunk.1).length < message.size) (tpcb : Pcb) :
    ∃ after shared, receiving.deliver lib tpcb chunk =
        { client := after, shared, handled := receiving.handled } ∧
      after.clientPcb = receiving.client.clientPcb ∧ shared.mirror = receiving.shared.mirror ∧
      Assembling message (received ++ chunk.1) after shared := by
  obtain ⟨after, stored, own, next⟩ := assembling.store some prefixed tpcb
  have short : ¬ after.recvSize ≤ after.recvLen := by
    have fits := message.size_le
    rw [next.recvSize, next.recvLen]
    split <;> omega
  refine ⟨after, { receiving.shared with
    buffer := Nor.store receiving.shared.buffer received.length chunk.1 }, ?_, own, rfl, next⟩
  simp only [Receiving.deliver, tcpServerJsonRecv, checkedBuffer, true_or, if_true, stored,
    if_neg short, List.append_nil]

/-- The chunk is the last one of its message. -/
theorem Assembling.deliver_complete {request : Request} {received : List Byte}
    {receiving : Receiving Json} {chunk : List Byte × Replies}
    (assembling : Assembling request.toMessage received receiving.client receiving.shared)
    (some : chunk.1 ≠ []) (complete : received ++ chunk.1 = request.bytes) (tpcb : Pcb) :
    ∃ after shared, receiving.deliver lib tpcb chunk =
        { client := (tcpServerJsonAnswer lib chunk.2 after shared).state
          shared := (tcpServerJsonAnswer lib chunk.2 after shared).shared
          handled := receiving.handled ++
            [⟨shared.buffer, written (tcpServerJsonAnswer lib chunk.2 after shared).calls⟩] } ∧
      after.clientPcb = receiving.client.clientPcb ∧ shared.mirror = receiving.shared.mirror ∧
      Assembling request.toMessage request.bytes after shared := by
  obtain ⟨after, stored, own, next⟩ := assembling.store some
    (complete ▸ List.prefix_refl _) tpcb
  rw [complete] at next
  have longer := request.headerSize_lt_size
  have full : after.recvSize = after.recvLen := by
    rw [next.recvSize, next.recvLen, Message.bytes_length, if_pos longer]
  refine ⟨after, { receiving.shared with
    buffer := Nor.store receiving.shared.buffer received.length chunk.1 }, ?_, own, rfl, next⟩
  simp only [Receiving.deliver, tcpServerJsonRecv, checkedBuffer, true_or, if_true, stored,
    if_pos (Int.le_of_eq full), Outcome.after, written, List.filterMap_append, List.filterMap_cons,
    List.filterMap_nil, List.nil_append]

/-- All chunks of a message but the last one: nothing is handled. -/
theorem Assembling.deliverAll_pending {message : Message} {tpcb : Pcb}
    {chunks : List (List Byte × Replies)} :
    ∀ {received : List Byte} {receiving : Receiving Json},
      Assembling message received receiving.client receiving.shared →
      (∀ chunk ∈ chunks, chunk.1 ≠ []) →
      received ++ (chunks.map Prod.fst).flatten <+: message.bytes →
      (received ++ (chunks.map Prod.fst).flatten).length < message.size →
      ∃ after shared, receiving.deliverAll lib tpcb chunks =
          { client := after, shared, handled := receiving.handled } ∧
        after.clientPcb = receiving.client.clientPcb ∧
        shared.mirror = receiving.shared.mirror ∧
        Assembling message (received ++ (chunks.map Prod.fst).flatten) after shared := by
  induction chunks with
  | nil =>
      intro received receiving assembling _ _ _
      refine ⟨receiving.client, receiving.shared, rfl, rfl, rfl, ?_⟩
      rw [List.map_nil, List.flatten_nil, List.append_nil]
      exact assembling
  | cons chunk chunks ih =>
      intro received receiving assembling some prefixed pending
      rw [List.map_cons, List.flatten_cons, ← List.append_assoc] at prefixed pending ⊢
      have first : received ++ chunk.1 <+: message.bytes :=
        (List.prefix_append _ _).trans prefixed
      have shorter : (received ++ chunk.1).length < message.size := by
        rw [List.length_append] at pending
        omega
      obtain ⟨client, shared, delivered, own, mirror, next⟩ :=
        assembling.deliver_pending lib (some chunk List.mem_cons_self) first shorter tpcb
      obtain ⟨after, final, rest, own', mirror', last⟩ :=
        @ih _ { client, shared, handled := receiving.handled } next
          (fun later member => some later (List.mem_cons_of_mem _ member)) prefixed pending
      refine ⟨after, final, ?_, own'.trans own, mirror'.trans mirror, last⟩
      rw [Receiving.deliverAll_cons, delivered]
      exact rest

/-- The first message of a connection: it is handled once, with its last chunk. -/
theorem Receiving.first_message {request : Request} (tpcb : Pcb) (slot : ServerPerClient)
    (shared : Shared Json) {front : List (List Byte × Replies)} {last : List Byte × Replies}
    (cut : Cut (front ++ [last]) request.bytes) :
    ((accepted tpcb slot shared).deliverAll lib tpcb front).handled = [] ∧
    ∃ after final, (accepted tpcb slot shared).deliverAll lib tpcb (front ++ [last]) =
        { client := (tcpServerJsonAnswer lib last.2 after final).state
          shared := (tcpServerJsonAnswer lib last.2 after final).shared
          handled := [⟨final.buffer,
            written (tcpServerJsonAnswer lib last.2 after final).calls⟩] } ∧
      after.clientPcb = some tpcb ∧ final.mirror = shared.mirror ∧
      Assembling request.toMessage request.bytes after final := by
  have flat := cut.flat
  rw [List.map_append, List.flatten_append, List.map_singleton, List.flatten_singleton] at flat
  have some := cut.some last (List.mem_append_right _ (List.mem_singleton.mpr rfl))
  have size := congrArg List.length flat
  rw [List.length_append, Message.bytes_length] at size
  have positive := List.length_pos_iff.mpr some
  have start : Assembling request.toMessage [] (accepted tpcb slot shared).client
      (accepted tpcb slot shared).shared := acceptIn_assembling _ tpcb slot shared
  have prefixed : [] ++ (front.map Prod.fst).flatten <+: request.bytes := by
    rw [List.nil_append, ← flat]
    exact List.prefix_append _ _
  have pending : ([] ++ (front.map Prod.fst).flatten).length < request.size := by
    rw [List.nil_append]
    omega
  obtain ⟨client, before, delivered, own, mirror, assembling⟩ :=
    start.deliverAll_pending lib
      (fun chunk member => cut.some chunk (List.mem_append_left _ member)) prefixed pending
  refine ⟨by rw [delivered]; rfl, ?_⟩
  have reached : Assembling request.toMessage (front.map Prod.fst).flatten
      (Receiving.mk client before []).client (Receiving.mk client before []).shared :=
    assembling
  obtain ⟨after, final, complete, own', mirror', next⟩ :=
    reached.deliver_complete lib some flat tpcb
  refine ⟨after, final, ?_, own'.trans own, mirror'.trans mirror, next⟩
  rw [deliverAll_append, delivered, deliverAll_cons, deliverAll_nil]
  exact complete

end Server

end PicoApConfigure.Json
