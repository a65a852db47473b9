import PicoApConfigure.Json.Handler
import PicoApConfigure.Tcp.Lwip

/-!
# The JSON server

Translation of `picow_tcp_server.c` with the callbacks that `tcp_json.c` registers for the
JSON port.  The program opens the server without a completed callback.
-/

namespace PicoApConfigure.Json

open Nor Tcp

/-- What a callback leaves behind: its connection, the shared data, the calls it made and
the value it returned. -/
structure Outcome (State Json : Type) where
  state : State
  shared : Shared Json
  calls : List Call
  result : ErrT

/-- The outcome when `calls` were made before. -/
def Outcome.after {State Json : Type} (calls : List Call) (outcome : Outcome State Json) :
    Outcome State Json :=
  { outcome with calls := calls ++ outcome.calls }

/-- `struct server_per_client`. -/
structure ServerPerClient where
  clientPcb : Option Pcb
  status : ErrT
  recvSize : Int
  recvFlag : Bool
  sendSize : Int
  count : Nat
  recvLen : Nat
  sentLen : Nat
  deriving DecidableEq

/-- An unused slot has no `client_pcb`. -/
def ServerPerClient.isFree (client : ServerPerClient) : Bool := client.clientPcb.isNone

/-- A slot as `calloc` leaves it. -/
def ServerPerClient.zeroed : ServerPerClient :=
  { clientPcb := none, status := .ok, recvSize := 0, recvFlag := false, sendSize := 0,
    count := 0, recvLen := 0, sentLen := 0 }

section Server

variable {Json : Type} (lib : CJson Json)

/-- `tcp_close_client`. -/
def tcpCloseClient (replies : Replies) (client : ServerPerClient) (shared : Shared Json) :
    Outcome ServerPerClient Json :=
  match client.clientPcb with
  | some pcb =>
      let (closing, err) := closeOrAbort replies pcb
      { state := { client with clientPcb := none }, shared,
        calls := unregister pcb ++ closing, result := err }
  | none => { state := client, shared, calls := [], result := .ok }

/-- `tcp_server_result`. -/
def tcpServerResult (replies : Replies) (client : ServerPerClient) (shared : Shared Json) :
    Outcome ServerPerClient Json :=
  tcpCloseClient replies client shared

/-- `tcp_server_json_send`. -/
def tcpServerJsonSend (replies : Replies) (tpcb : Option Pcb) (client : ServerPerClient)
    (shared : Shared Json) : Outcome ServerPerClient Json :=
  let client := { client with sentLen := 0 }
  let write := Call.write tpcb (slice shared.buffer 0 (uint16 client.sendSize)) replies.write
  if replies.write = .ok then { state := client, shared, calls := [write], result := .ok }
  else
    let client := { client with status := replies.write }
    if replies.write = .mem then
      -- left to `tcp_server_poll`
      { state := client, shared, calls := [write], result := .ok }
    else (tcpServerResult replies client shared).after [write]

/-- `tcp_server_json_accept`. -/
def tcpServerJsonAccept (client : ServerPerClient) : ServerPerClient :=
  { client with recvSize := maxJsonBufSize, recvLen := 0, sendSize := 0, recvFlag := false }

/-- `tcp_server_json_sent`. -/
def tcpServerJsonSent (len : Nat) (client : ServerPerClient) : ServerPerClient :=
  { client with sentLen := client.sentLen + len }

/-- The first part of `tcp_server_json_recv`: the chunk goes into the buffer. -/
def tcpServerJsonStore (tpcb : Pcb) (chunk : List Byte) (client : ServerPerClient)
    (shared : Shared Json) : ServerPerClient × Shared Json × List Call :=
  if 0 < chunk.length then
    let bufferLeft := uint16 (maxJsonBufSize - client.recvLen)
    let stored := chunk.take bufferLeft
    let buffer := store shared.buffer client.recvLen stored
    let recvLen := client.recvLen + stored.length
    let client := { client with recvLen }
    let client :=
      if client.recvFlag = false ∧ headerSize < recvLen then
        { client with recvFlag := true, recvSize := int32 (sizeField buffer) }
      else client
    (client, { shared with buffer }, [.recved tpcb chunk.length])
  else (client, shared, [])

/-- The second part of `tcp_server_json_recv`: the message in the buffer is answered. -/
def tcpServerJsonAnswer (replies : Replies) (client : ServerPerClient)
    (shared : Shared Json) : Outcome ServerPerClient Json :=
  let (sendSize, shared) := tcpServerJsonCheckFreshness lib shared
  let client := { client with sendSize }
  if sendSize < 0 then tcpServerResult replies client shared
  else if (headerSize : Int) < sendSize then
    let (count, shared) := jsonPrepGetCounterValue lib shared
    if 0 < count then
      let client := { client with sendSize := int32 (sizeField shared.buffer) }
      { tcpServerJsonSend replies client.clientPcb client shared with result := .ok }
    else tcpServerResult replies client shared
  else { tcpServerJsonSend replies client.clientPcb client shared with result := .ok }

/-- `tcp_server_json_recv`; `p` is the text of the `pbuf`, `none` where it is `NULL`. -/
def tcpServerJsonRecv (replies : Replies) (tpcb : Pcb) (p : Option (List Byte)) (err : ErrT)
    (client : ServerPerClient) (shared : Shared Json) : Outcome ServerPerClient Json :=
  if err = .ok ∨ err = .abrt then
    match p with
    | none => tcpServerResult replies client shared
    | some chunk =>
        let (client, shared, calls) := tcpServerJsonStore tpcb chunk client shared
        if client.recvSize ≤ client.recvLen then
          (tcpServerJsonAnswer lib replies client shared).after calls
        else { state := client, shared, calls, result := .ok }
  else { state := client, shared, calls := [], result := .ok }

/-- `tcp_server_poll`. -/
def tcpServerPoll (replies : Replies) (client : ServerPerClient) (shared : Shared Json) :
    Outcome ServerPerClient Json :=
  if client.status = .mem then
    { tcpServerJsonSend replies client.clientPcb client shared with result := .ok }
  else { state := client, shared, calls := [], result := .ok }

/-- `tcp_server_err`. -/
def tcpServerErr (replies : Replies) (err : ErrT) (client : ServerPerClient)
    (shared : Shared Json) : Outcome ServerPerClient Json :=
  if err ≠ .abrt then tcpServerResult replies client shared
  else { state := client, shared, calls := [], result := .ok }

/-- The part of `tcp_server_accept` that takes a free slot. -/
def acceptIn (pcb : Pcb) (client : ServerPerClient) : ServerPerClient :=
  tcpServerJsonAccept { client with clientPcb := some pcb, count := 0 }

/-- `tcp_server_accept` on the slots of the server. -/
def tcpServerAccept (replies : Replies) (clientPcb : Option Pcb) (err : ErrT)
    (perAccept : List ServerPerClient) : List ServerPerClient × List Call × ErrT :=
  match clientPcb with
  | none =>
      -- `tcp_server_result` is given the server in place of a slot; what it takes for
      -- `client_pcb` is the server's `completed_callback`, which is `NULL`
      (perAccept, [], .val)
  | some pcb =>
      if err ≠ .ok then (perAccept, [], .val)
      else
        match perAccept.findIdx? ServerPerClient.isFree with
        | none => (perAccept, [.close pcb replies.close], .mem)
        | some slot =>
            (perAccept.modify slot (acceptIn pcb),
              [.arg pcb (some slot), .register .sent pcb true, .register .recv pcb true,
                .register .poll pcb true, .register .err pcb true], .ok)

/-! ## The two answers -/

/-- The client's object is taken, and a bare header is sent back. -/
theorem tcpServerJsonAnswer_accepts (replies : Replies) (client : ServerPerClient)
    {shared : Shared Json}
    (accepted : uint32 (getMirrorUpdateCount lib shared.mirror) ≤ dataVersionField shared.buffer) :
    tcpServerJsonAnswer lib replies client shared =
      { tcpServerJsonSend replies client.clientPcb { client with sendSize := headerSize }
          { buffer := setSizeField shared.buffer headerSize,
            mirror := lib.parse (textOf shared.buffer) } with result := .ok } := by
  have negative : ¬ (headerSize : Int) < 0 := by decide
  have smaller : ¬ (headerSize : Int) < headerSize := Int.lt_irrefl _
  simp only [tcpServerJsonAnswer, tcpServerJsonCheckFreshness, if_pos accepted, if_neg negative,
    if_neg smaller]

/-- The server keeps its own object and sends it back, where it can be printed. -/
theorem tcpServerJsonAnswer_keeps (replies : Replies) (client : ServerPerClient)
    {shared : Shared Json}
    (older : ¬ uint32 (getMirrorUpdateCount lib shared.mirror) ≤ dataVersionField shared.buffer) :
    tcpServerJsonAnswer lib replies client shared =
      let kept : Shared Json :=
        { buffer := setSizeField shared.buffer (headerSize + 10),
          mirror := some (getMirror lib shared.mirror) }
      let prepared := jsonPrepGetCounterValue lib kept
      if 0 < prepared.1 then
        { tcpServerJsonSend replies client.clientPcb
            { client with sendSize := int32 (sizeField prepared.2.buffer) } prepared.2 with
          result := .ok }
      else tcpServerResult replies { client with sendSize := headerSize + 10 } prepared.2 := by
  have negative : ¬ ((headerSize : Int) + 10 < 0) := by decide
  have larger : (headerSize : Int) < headerSize + 10 := by decide
  simp only [tcpServerJsonAnswer, tcpServerJsonCheckFreshness, if_neg older, if_neg negative,
    if_pos larger]

end Server

end PicoApConfigure.Json
