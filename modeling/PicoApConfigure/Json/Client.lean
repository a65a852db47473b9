import PicoApConfigure.Json.Server

/-!
# The JSON client

Translation of `picow_tcp_client.c` with the callbacks that `tcp_json.c` passes to
`tcp_client_open`.  The block's private header and its buffer are both `json_buffer`.  A
callback that runs `json_client_complete` leaves no block.
-/

namespace PicoApConfigure.Json

open Nor Tcp

/-- `TCP_CLIENT_T`. -/
structure TcpClientT where
  tcpPcb : Option Pcb
  status : ErrT
  count : Nat
  recvLen : Nat
  sentLen : Nat
  busy : Bool
  deriving DecidableEq

/-- A block as `tcp_client_init` leaves it. -/
def tcpClientInit : TcpClientT :=
  { tcpPcb := none, status := .ok, count := 0, recvLen := 0, sentLen := 0, busy := false }

section Client

variable {Json : Type} (lib : CJson Json)

/-- The block stays, nothing else happens. -/
def Outcome.stay (client : TcpClientT) (shared : Shared Json) :
    Outcome (Option TcpClientT) Json :=
  { state := some client, shared, calls := [], result := .ok }

/-- `tcp_client_close`. -/
def tcpClientClose (replies : Replies) (client : TcpClientT) :
    TcpClientT × List Call × ErrT :=
  match client.tcpPcb with
  | some pcb =>
      let (closing, err) := closeOrAbort replies pcb
      ({ client with tcpPcb := none }, unregister pcb ++ closing, err)
  | none => (client, [], .ok)

/-- `json_client_complete`, which frees the block. -/
def jsonClientComplete (_client : TcpClientT) : Option TcpClientT := none

/-- `tcp_client_result`. -/
def tcpClientResult (replies : Replies) (client : TcpClientT) (shared : Shared Json) :
    Outcome (Option TcpClientT) Json :=
  let (client, calls, err) := tcpClientClose replies client
  let client := { client with busy := false }
  { state := jsonClientComplete client, shared, calls, result := err }

/-- `tcp_client_json_sending`. -/
def tcpClientJsonSending (replies : Replies) (pcb : Pcb) (client : TcpClientT)
    (shared : Shared Json) : Outcome (Option TcpClientT) Json :=
  if client.sentLen ≤ sizeField shared.buffer then
    let size := uint16 (sizeField shared.buffer)
    let write := Call.write (some pcb) (slice shared.buffer 0 size) replies.write
    if replies.write = .ok then
      { state := some client, shared, calls := [write], result := .ok }
    else
      let client := { client with status := replies.write }
      if replies.write = .mem then
        -- left to `tcp_json_poll`
        { state := some client, shared, calls := [write], result := .ok }
      else (tcpClientResult replies client shared).after [write]
  else .stay client shared

/-- `tcp_json_poll`. -/
def tcpJsonPoll (replies : Replies) (pcb : Pcb) (client : TcpClientT) (shared : Shared Json) :
    Outcome (Option TcpClientT) Json :=
  if client.status = .mem then
    { tcpClientJsonSending replies pcb client shared with result := .ok }
  else .stay client shared

/-- `tcp_client_json_sent`. -/
def tcpClientJsonSent (len : Nat) (client : TcpClientT) (shared : Shared Json) :
    Outcome (Option TcpClientT) Json :=
  let client := { client with sentLen := client.sentLen + len }
  if sizeField shared.buffer ≤ client.sentLen then
    .stay { client with count := client.count + 1, recvLen := 0, sentLen := 0 }
      { shared with buffer := setSizeField shared.buffer maxJsonBufSize }
  else .stay client shared

/-- The first part of `tcp_client_json_recv`: the chunk goes into the buffer. -/
def tcpClientJsonStore (pcb : Pcb) (chunk : List Byte) (client : TcpClientT)
    (shared : Shared Json) : TcpClientT × Shared Json × List Call :=
  if 0 < chunk.length then
    let bufferLeft := uint16 (sizeField shared.buffer - client.recvLen)
    let stored := chunk.take bufferLeft
    let buffer := store shared.buffer client.recvLen stored
    let buffer :=
      if client.recvLen = 0 ∧ headerSize ≤ stored.length then
        setSizeField buffer (sizeField buffer)
      else buffer
    ({ client with recvLen := client.recvLen + stored.length }, { shared with buffer },
      [.recved pcb chunk.length])
  else (client, shared, [])

/-- `tcp_client_json_recv`. -/
def tcpClientJsonRecv (replies : Replies) (pcb : Pcb) (p : Option (List Byte))
    (client : TcpClientT) (shared : Shared Json) : Outcome (Option TcpClientT) Json :=
  match p with
  | none => tcpClientResult replies client shared
  | some chunk =>
      let (client, shared, calls) := tcpClientJsonStore pcb chunk client shared
      if sizeField shared.buffer ≤ client.recvLen then
        let shared := tcpClientJsonHandleReply lib (int32 (sizeField shared.buffer)) shared
        (tcpClientResult replies client shared).after calls
      else { state := some client, shared, calls, result := .ok }

/-- `json_client_connected`. -/
def jsonClientConnected (replies : Replies) (pcb : Pcb) (err : ErrT) (client : TcpClientT)
    (shared : Shared Json) : Outcome (Option TcpClientT) Json :=
  if err ≠ .ok then tcpClientResult replies client shared
  else tcpClientJsonSending replies pcb { client with recvLen := 0, sentLen := 0 } shared

/-- `tcp_client_err`. -/
def tcpClientErr (replies : Replies) (err : ErrT) (client : TcpClientT)
    (shared : Shared Json) : Outcome (Option TcpClientT) Json :=
  if err ≠ .abrt then tcpClientResult replies { client with tcpPcb := none } shared
  else .stay client shared

/-- `client_request_common` on the block `arg`. -/
def clientRequestCommon (replies : Replies) (arg : Nat) (client : TcpClientT)
    (shared : Shared Json) : Outcome (Option TcpClientT) Json :=
  match replies.new with
  | none =>
      { state := some { client with tcpPcb := none }, shared, calls := [.new none],
        result := .ok }
  | some pcb =>
      { state := some { client with tcpPcb := some pcb }, shared,
        calls := [.new (some pcb), .arg pcb (some arg), .register .poll pcb true,
          .register .sent pcb true, .register .recv pcb true, .register .err pcb true,
          .connect pcb replies.connect],
        result := .ok }

/-- `dns_found`; `found` says whether the query gave an address. -/
def dnsFound (replies : Replies) (arg : Nat) (found : Bool) (client : TcpClientT)
    (shared : Shared Json) : Outcome (Option TcpClientT) Json :=
  if found = true then clientRequestCommon replies arg client shared
  else tcpClientResult replies client shared

/-- `tcp_client_open`. -/
def tcpClientOpen (replies : Replies) (arg : Nat) (client : TcpClientT)
    (shared : Shared Json) : Outcome (Option TcpClientT) Json :=
  let client := { client with status := .ok, count := 0, recvLen := 0, sentLen := 0,
                              busy := true }
  if replies.dns = .ok then clientRequestCommon replies arg client shared
  else if replies.dns ≠ .inprogress then tcpClientResult replies client shared
  else .stay client shared

/-- `tcp_client_json_init_open`.  The block comes from `tcp_client_init`, which clears the
busy flag, so the branch for a busy block is not taken. -/
def tcpClientJsonInitOpen (replies : Replies) (arg : Nat) (shared : Shared Json) :
    Outcome (Option TcpClientT) Json :=
  tcpClientOpen replies arg tcpClientInit shared

end Client

end PicoApConfigure.Json
