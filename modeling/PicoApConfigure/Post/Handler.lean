import PicoApConfigure.FlashIo.Code

/-!
# Forms posted to the web server

Translation of `httpd_post_receive_data` and `httpd_post_finished` of `post_handler.c` with the
functions they call.  A `pbuf` chain is the list of its bytes; what lwIP does with a chain is the
structure `PbufLib`.  The arrays are memories from their first byte on, so an access behind the
end of one sees what lies there.  Printing, the page that is answered with and the name given to
the network interface are left out.
-/

namespace PicoApConfigure.Post

open Nor FlashIo RingBuffer

/-- Conversion to `u16_t`. -/
def u16 (value : Int) : Nat := (value % 65536).toNat

/-- The characters of a string literal. -/
def chars (text : String) : List Byte := text.toList.map fun char => BitVec.ofNat 8 char.toNat

/-- A chain of `pbuf`s, as the bytes of its payload; `tot_len` is their number. -/
abbrev Pbuf := List Byte

/-- The functions of lwIP on a chain. -/
structure PbufLib where
  /-- `pbuf_memfind(p, mem, mem_len, start_offset)`. -/
  memfind : Pbuf → (mem : List Byte) → (startOffset : Nat) → Nat
  /-- `pbuf_get_contiguous(p, buffer, bufsize, len, offset)`: what is in memory at the pointer it
  returns, which may be `buffer` or point into the payload. -/
  getContiguous : Pbuf → (buffer : Memory) → (bufsize len offset : Nat) → Option Memory

/-- `LWIP_POST_BUFSIZE`, the size of `wifi_ssid` and `wifi_password`. -/
def postBufsize : Nat := 32

/-- The size of `local_host_name`. -/
def hostNameSize : Nat := 20

/-! ## Escapes -/

/-- `isspace`. -/
def isSpace (char : Byte) : Bool := char = 0x20 ∨ (0x09 ≤ char ∧ char ≤ 0x0d)

/-- The value of a hexadecimal digit. -/
def hexDigit (char : Byte) : Option Nat :=
  if 0x30 ≤ char ∧ char ≤ 0x39 then some (char.toNat - 0x30)
  else if 0x41 ≤ char ∧ char ≤ 0x46 then some (char.toNat - 0x41 + 10)
  else if 0x61 ≤ char ∧ char ≤ 0x66 then some (char.toNat - 0x61 + 10)
  else none

/-- The number that the leading hexadecimal digits spell behind `value`. -/
def hexNumber (value : Nat) : List Byte → Nat
  | [] => value
  | char :: rest =>
      match hexDigit char with
      | some digit => hexNumber (16 * value + digit) rest
      | none => value

/-- `strtol(text, NULL, 16)`.  Of a text of two characters a prefix `0x` leaves no digits, which
gives the same zero. -/
def strtol (text : List Byte) : Int :=
  match text.dropWhile isSpace with
  | 0x2d :: digits => -(hexNumber 0 digits : Int)
  | 0x2b :: digits => hexNumber 0 digits
  | digits => hexNumber 0 digits

/-- `strncpy(substr, source, 2)`, as the string that is in `substr` then. -/
def substrOf (memory : Memory) (source : Nat) : List Byte :=
  (slice memory source 2).takeWhile (· ≠ 0)

/-- The loop of `squash_hex_string`; `loop` and `output` are counted from the start of the memory,
which both pointers point into. -/
def squashLoop : (fuel : Nat) → Memory → (loop output : Nat) → FlashProg Memory
  | 0, _, _, _ => .stuck
  | fuel + 1, memory, loop, output =>
      if memory loop = 0 then
        return store memory output [0]
      else if memory loop = 0x25 then
        let s := strtol (substrOf memory (loop + 1))
        -- `sprintf` puts a NUL behind the character
        squashLoop fuel (store memory output [BitVec.ofInt 8 s, 0]) (loop + 3) (output + 1)
      else
        squashLoop fuel (store memory output [memory loop]) (loop + 1) (output + 1)

/-- `squash_hex_string`, with the same buffer as input and output. -/
def squashHexString (fuel : Nat) (memory : Memory) : FlashProg Memory := squashLoop fuel memory 0 0

section Handler

variable (lib : PbufLib)

/-- `get_post_string`: whether it returns a pointer, and the buffer. -/
def getPostString (fuel : Nat) (p : Pbuf) (destmem : Memory) (destlen srclen srcOffset : Nat) :
    FlashProg (Bool × Memory) :=
  match lib.getContiguous p destmem destlen srclen srcOffset with
  | none => return (false, destmem)
  | some wPtr => do
      let destmem := store destmem 0 (slice wPtr 0 destlen)
      let destmem := store destmem srclen [0]
      let destmem ← squashHexString fuel destmem
      return (true, destmem)

/-- `check_field`: the offset of the field and the length of its value. -/
def checkField (p : Pbuf) (mem : List Byte) : Nat × Nat :=
  match mem.findIdx? (· = 0x3d) with
  | none => (0xffff, 0xffff)
  | some mptr =>
      let memLen := mptr + 1
      let nameOffset := lib.memfind p (mem.take memLen) 0
      if nameOffset ≠ 0xffff then
        let value := u16 (nameOffset + memLen)
        let tmp := lib.memfind p [0x26] value
        let lenStr := if tmp ≠ 0xffff then u16 ((tmp : Int) - value) else u16
          ((p.length : Int) - value)
        (if lenStr > 0 ∧ lenStr < postBufsize then value else nameOffset, lenStr)
      else (nameOffset, 0xffff)

/-- The variables of the handler and the page buffer of `flash_io.c`.  A connection is the address
of its state, and `none` is `NULL`. -/
structure PostState where
  wifiSsid : Memory
  wifiPassword : Memory
  localHostName : Memory
  configChanged : Int
  currentConnection : Option Nat
  validConnection : Option Nat
  validJson : Option Nat
  validConfig : Option Nat
  pagebuff : Memory

/-- The status codes of the handler. -/
inductive Err where
  | ok
  | val
  deriving DecidableEq, Repr

/-- The branch of `httpd_post_receive_data` for a form with credentials. -/
def storeCredentials (fuel : Nat) (stack : Stack) (connection : Nat) (p : Pbuf)
    (ssid pass host : Nat × Nat) (state : PostState) : FlashProg PostState := do
  let (wSsid, wifiSsid) ←
    getPostString lib fuel p state.wifiSsid postBufsize ssid.2 ssid.1
  let (wPass, wifiPassword) ←
    getPostString lib fuel p state.wifiPassword postBufsize pass.2 pass.1
  let (wHost, localHostName) ←
    getPostString lib fuel p state.localHostName hostNameSize host.2 host.1
  let state := { state with wifiSsid, wifiPassword, localHostName }
  if wSsid ∧ wPass ∧ wHost then
    -- the pointers are the arrays themselves, so the copies change nothing
    let state := { state with
      wifiSsid := store state.wifiSsid ssid.2 [0]
      wifiPassword := store state.wifiPassword pass.2 [0] }
    let (_, pagebuff) ← flashIoWriteSsid fuel state.wifiSsid state.wifiPassword stack state.pagebuff
    let state := { state with pagebuff, localHostName := store state.localHostName host.2 [0] }
    let (_, pagebuff) ← flashIoWriteHostname fuel state.localHostName host.2 stack state.pagebuff
    return { state with pagebuff, validConnection := some connection }
  else
    return state

/-- The branch of `httpd_post_receive_data` for a form with a name, once the name is found. -/
def storeName (fuel : Nat) (stack : Stack) (connection : Nat) (p : Pbuf) (offset len : Nat)
    (state : PostState) : FlashProg PostState := do
  let (ts, localHostName) ← getPostString lib fuel p state.localHostName hostNameSize len offset
  let state := { state with localHostName }
  if ts then
    let (_, pagebuff) ← flashIoWriteHostname fuel state.localHostName (len + 1) stack state.pagebuff
    return { state with pagebuff, validConfig := some connection }
  else
    return state

/-- The branch of `httpd_post_receive_data` for what is no form with credentials. -/
def storeConfig (fuel : Nat) (stack : Stack) (connection : Nat) (p : Pbuf) (state : PostState) :
    FlashProg PostState :=
  let (offset, len) := checkField lib p (chars "config=")
  if offset ≠ 0xffff then storeName lib fuel stack connection p offset len state
  else return state

/-- `httpd_post_receive_data`. -/
def httpdPostReceiveData (fuel : Nat) (stack : Stack) (connection : Nat) (p : Pbuf)
    (state : PostState) : FlashProg (Err × PostState) :=
  if state.currentConnection = some connection then do
    let ssid := checkField lib p (chars "ssid=")
    let pass := checkField lib p (chars "pass=")
    let host := checkField lib p (chars "host=")
    let state ←
      if (ssid.2 > 0 ∧ ssid.2 < postBufsize) ∧ (pass.2 > 0 ∧ pass.2 < postBufsize) ∧
          (host.2 > 0 ∧ host.2 < postBufsize) then
        storeCredentials lib fuel stack connection p ssid pass host state
      else
        storeConfig lib fuel stack connection p state
    return (.ok, state)
  else
    return (.val, state)

/-- `httpd_post_finished`. -/
def httpdPostFinished (connection : Nat) (state : PostState) : PostState :=
  if state.currentConnection = some connection then
    let state :=
      if state.validConnection = some connection then { state with configChanged := 1 } else state
    { state with currentConnection := none, validConnection := none }
  else state

/-- The calls for a body that arrives in `pieces`. -/
def receivePieces (fuel : Nat) (stack : Stack) (connection : Nat) :
    (pieces : List Pbuf) → PostState → FlashProg PostState
  | [], state => return state
  | piece :: pieces, state => do
      let (_, state) ← httpdPostReceiveData lib fuel stack connection piece state
      receivePieces fuel stack connection pieces state

/-- A form: its body in pieces, and the end of it. -/
def postForm (fuel : Nat) (stack : Stack) (connection : Nat) (pieces : List Pbuf)
    (state : PostState) : FlashProg PostState := do
  let state ← receivePieces lib fuel stack connection pieces state
  return httpdPostFinished connection state

end Handler

end PicoApConfigure.Post
