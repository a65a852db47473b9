import PicoApConfigure.Json.Reply
import PicoApConfigure.Json.Requests
import PicoApConfigure.Json.Ssi

/-!
# One device with one buffer

The JSON server, a JSON client and the web page of a device all use `json_buffer`.  The
events of the three come in any order; every text that is parsed is recorded together with
what the peer of its connection sent.
-/

namespace PicoApConfigure.Json

open Nor Tcp

/-- A text given to `cJSON_Parse`, the size announced for its message, and the text the
peer sent. -/
structure Parsed where
  text : Memory
  announced : Nat
  sent : List Byte

/-- The first `announced - 12` bytes are what the peer sent. -/
def Parsed.Intact (parsed : Parsed) : Prop :=
  slice parsed.text 0 (parsed.announced - headerSize) = parsed.sent

/-- A device.  `request` and `reply` are the messages of the peers of the two connections
with the parts that have arrived; `linked` says that the client is connected, and `unacked`
how much of what it wrote is not acknowledged. -/
structure Device (Json : Type) where
  server : ServerPerClient
  request : Option (Request × List Byte)
  client : Option TcpClientT
  linked : Bool
  unacked : Nat
  reply : Option (Message × List Byte)
  shared : Shared Json
  parses : List Parsed

/-- What happens on the device. -/
inductive DeviceEvent (Json : Type) where
  | accept (tpcb : Pcb) (request : Request)
  | chunk (tpcb : Pcb) (chunk : List Byte) (replies : Replies)
  | serverClosed (tpcb : Pcb) (replies : Replies)
  | serverSent (len : Nat)
  | serverPoll (replies : Replies)
  | serverError (err : ErrT) (replies : Replies)
  | opened (arg : Nat) (replies : Replies)
  | found (arg : Nat) (resolved : Bool) (replies : Replies)
  | connected (pcb : Pcb) (err : ErrT) (replies : Replies)
  | sent (len : Nat)
  | answered (reply : Message)
  | reply (pcb : Pcb) (chunk : List Byte) (replies : Replies)
  | clientClosed (pcb : Pcb) (replies : Replies)
  | clientPoll (pcb : Pcb) (replies : Replies)
  | clientError (err : ErrT) (replies : Replies)
  | ssi (iInsertLen : Int) (currentTagPart : Nat)
  /-- A local change of the object. -/
  | mirror (mirror : Option Json)

section Device

variable {Json : Type} (lib : CJson Json)

/-- How much was handed to the stack. -/
def acceptedBytes (calls : List Call) : Nat :=
  (calls.map fun call =>
    match call with
    | .write _ bytes .ok => bytes.length
    | _ => 0).sum

namespace Device

/-- The server is in the middle of a request. -/
def MidRequest (device : Device Json) : Prop :=
  ∃ request received, device.request = some (request, received) ∧ received ≠ []

/-- When the event can happen: the stack delivers what the peers sent, in order, and the
reply after the whole message was acknowledged. -/
def Enabled (device : Device Json) : DeviceEvent Json → Prop
  | .accept _ _ => device.server.clientPcb = none
  | .chunk tpcb chunk _ => device.server.clientPcb = some tpcb ∧ chunk ≠ [] ∧
      ∃ request received, device.request = some (request, received) ∧
        received ++ chunk <+: request.bytes
  | .serverClosed tpcb _ => device.server.clientPcb = some tpcb
  | .serverSent _ => device.server.clientPcb ≠ none
  | .serverPoll _ => device.server.clientPcb ≠ none
  | .serverError _ _ => device.server.clientPcb ≠ none
  | .opened _ _ => device.client = none
  | .found _ _ _ => device.client ≠ none ∧ device.linked = false
  | .connected _ _ _ => device.client ≠ none ∧ device.linked = false
  | .sent len => device.client ≠ none ∧ 0 < len ∧ len ≤ device.unacked
  | .answered _ => (∃ client, device.client = some client ∧ 0 < client.count) ∧
      device.reply = none
  | .reply _ chunk _ => chunk ≠ [] ∧
      (∃ client, device.client = some client ∧ 0 < client.count) ∧
      ∃ reply received, device.reply = some (reply, received) ∧
        received ++ chunk <+: reply.bytes
  | .clientClosed _ _ => device.client ≠ none
  | .clientPoll _ _ => device.client ≠ none
  | .clientError _ _ => device.client ≠ none
  | .ssi _ _ => True
  | .mirror _ => True

/-- A callback of the server; the request ends with its connection. -/
def serverCall (device : Device Json) (outcome : Outcome ServerPerClient Json) : Device Json :=
  { device with
    server := outcome.state
    shared := outcome.shared
    request := if outcome.state.clientPcb = none then none else device.request }

/-- A callback of the client. -/
def clientCall (device : Device Json) (outcome : Outcome (Option TcpClientT) Json) :
    Device Json :=
  match outcome.state with
  | none =>
      { device with client := none, linked := false, unacked := 0, reply := none,
                    shared := outcome.shared }
  | some client =>
      { device with client := some client, shared := outcome.shared,
                    unacked := device.unacked + acceptedBytes outcome.calls }

/-- What the server parses with a chunk. -/
def serverParses (device : Device Json) (tpcb : Pcb) (chunk : List Byte)
    (request : Request) : List Parsed :=
  let (client, shared, _) := tcpServerJsonStore tpcb chunk device.server device.shared
  if client.recvSize ≤ client.recvLen ∧
      uint32 (getMirrorUpdateCount lib shared.mirror) ≤ dataVersionField shared.buffer then
    [⟨textOf shared.buffer, client.recvSize.toNat, request.text⟩]
  else []

/-- What the client parses with a chunk. -/
def clientParses (device : Device Json) (client : TcpClientT) (pcb : Pcb) (chunk : List Byte)
    (reply : Message) : List Parsed :=
  let (client, shared, _) := tcpClientJsonStore pcb chunk client device.shared
  if sizeField shared.buffer ≤ client.recvLen ∧
      ¬ uint32 (int32 (sizeField shared.buffer)) ≤ headerSize ∧
      uint32 (getMirrorUpdateCount lib shared.mirror) ≤ dataVersionField shared.buffer then
    [⟨textOf shared.buffer, sizeField shared.buffer, reply.text⟩]
  else []

/-- A chunk of a request. -/
def receive (device : Device Json) (tpcb : Pcb) (chunk : List Byte) (replies : Replies) :
    Device Json :=
  match device.request with
  | none => device
  | some (request, received) =>
      let arrived := received ++ chunk
      let next := { device with
        request := if arrived.length < request.size then some (request, arrived) else none
        parses := device.parses ++ device.serverParses lib tpcb chunk request }
      next.serverCall
        (tcpServerJsonRecv lib replies tpcb (some chunk) .ok device.server device.shared)

/-- A chunk of a reply. -/
def receiveReply (device : Device Json) (pcb : Pcb) (chunk : List Byte) (replies : Replies) :
    Device Json :=
  match device.client, device.reply with
  | some client, some (reply, received) =>
      let next := { device with
        reply := some (reply, received ++ chunk)
        parses := device.parses ++ device.clientParses lib client pcb chunk reply }
      next.clientCall (tcpClientJsonRecv lib replies pcb (some chunk) client device.shared)
  | _, _ => device

/-- A callback of the client, where there is one. -/
def onClient (device : Device Json)
    (callback : TcpClientT → Shared Json → Outcome (Option TcpClientT) Json) : Device Json :=
  match device.client with
  | none => device
  | some client => device.clientCall (callback client device.shared)

/-- What the event does. -/
def step (device : Device Json) : DeviceEvent Json → Device Json
  | .accept tpcb request =>
      { device with server := acceptIn tpcb device.server, request := some (request, []) }
  | .chunk tpcb chunk replies => device.receive lib tpcb chunk replies
  | .serverClosed tpcb replies =>
      device.serverCall
        (tcpServerJsonRecv lib replies tpcb none .ok device.server device.shared)
  | .serverSent len => { device with server := tcpServerJsonSent len device.server }
  | .serverPoll replies => device.serverCall (tcpServerPoll replies device.server device.shared)
  | .serverError err replies =>
      device.serverCall (tcpServerErr replies err device.server device.shared)
  | .opened arg replies =>
      let (count, shared) := jsonPrepGetCounterValue lib device.shared
      if 0 < count then
        { device with shared }.clientCall (tcpClientJsonInitOpen replies arg shared)
      else { device with shared }
  | .found arg resolved replies => device.onClient (dnsFound replies arg resolved)
  | .connected pcb err replies =>
      { device with linked := true }.onClient (jsonClientConnected replies pcb err)
  | .sent len =>
      { device with unacked := device.unacked - len }.onClient (tcpClientJsonSent len)
  | .answered reply => { device with reply := some (reply, []) }
  | .reply pcb chunk replies => device.receiveReply lib pcb chunk replies
  | .clientClosed pcb replies => device.onClient (tcpClientJsonRecv lib replies pcb none)
  | .clientPoll pcb replies => device.onClient (tcpJsonPoll replies pcb)
  | .clientError err replies => device.onClient (tcpClientErr replies err)
  | .ssi iInsertLen currentTagPart =>
      { device with shared := (ssiHandlerJson lib iInsertLen currentTagPart device.shared).2 }
  | .mirror mirror => { device with shared := { device.shared with mirror } }

/-- A device that has just started. -/
def started (shared : Shared Json) : Device Json :=
  { server := .zeroed, request := none, client := none, linked := false, unacked := 0,
    reply := none, shared, parses := [] }

end Device

/-- The states of a device whose events satisfy the condition. -/
inductive Running (condition : Device Json → DeviceEvent Json → Prop) : Device Json → Prop where
  | started (shared : Shared Json) : Running condition (.started shared)
  | step {device : Device Json} {event : DeviceEvent Json} (before : Running condition device)
      (enabled : device.Enabled event) (allowed : condition device event) :
      Running condition (device.step lib event)

/-- The client has written a message whose reply is not complete. -/
def Device.ClientRelies (device : Device Json) : Prop :=
  ∃ client, device.client = some client ∧
    (0 < client.count ∨ 0 < client.sentLen ∨ 0 < device.unacked)

/-- The buffer is not changed while another activity of the device relies on it, and no poll
repeats a message that was accepted. -/
def Device.Alone (device : Device Json) : DeviceEvent Json → Prop
  | .chunk _ _ _ => ¬ device.ClientRelies
  | .opened _ _ => ¬ device.MidRequest
  | .ssi _ currentTagPart => currentTagPart = 0 → ¬ device.ClientRelies ∧ ¬ device.MidRequest
  | .sent len => ∀ client, device.client = some client →
      sizeField device.shared.buffer ≤ client.sentLen + len → ¬ device.MidRequest
  | .clientPoll _ _ => ∀ client, device.client = some client → client.status = .mem →
      client.count = 0 ∧ client.sentLen = 0 ∧ device.unacked = 0
  | _ => True

end Device

end PicoApConfigure.Json
