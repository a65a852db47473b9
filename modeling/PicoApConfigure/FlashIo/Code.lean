import PicoApConfigure.RingBuffer.Code

/-!
# Entries of the configuration flash

Translation of `flash_io.c`.  The page buffer `pagebuff` is handed from call to call; printing is
left out.  What is on the stack before a function has written it is handed in as well.
-/

namespace PicoApConfigure.FlashIo

open Nor RingBuffer

/-- The loop of `read_flash_ids`. -/
def readFlashIdsLoop (id : Byte) : (fuel : Nat) → (loopcount : Nat) → RbT → (pagebuff : Memory) →
    FlashProg (Int × Memory)
  | 0, _, _, _ => .stuck
  | fuel + 1, loopcount, rb, pagebuff => do
      let (err, rb, pagebuff) ← rbRead fuel rb id pagebuff flashPageSize
      if err ≤ 0 then
        return (loopcount, pagebuff)
      else
        readFlashIdsLoop id fuel (loopcount + 1) rb pagebuff

/-- `read_flash_ids`; `rb` is the uninitialised control block on the stack. -/
def readFlashIds (fuel : Nat) (id : Int) (flashBuf flashLen : Nat) (rb : RbT) (pagebuff : Memory) :
    FlashProg (Int × Memory) := do
  let (err, rb) ← rbRecreate rb flashBuf (flashLen / flashSectorSize) .createInitIfFail
  if err ≠ .ok then
    return (err.code, pagebuff)
  else
    readFlashIdsLoop (BitVec.ofInt 8 id) fuel 0 rb pagebuff

/-- The loop of `read_flash_id_n` and the read behind it; `count` entries are still to be
skipped. -/
def readFlashIdNLoop (id : Byte) (fuel : Nat) : (count : Nat) → RbT → (pagebuff : Memory) →
    FlashProg (Int × Memory)
  | 0, rb, pagebuff => do
      let (err, _, pagebuff) ← rbRead fuel rb id pagebuff flashPageSize
      return (err, pagebuff)
  | count + 1, rb, pagebuff => do
      let (err, rb, pagebuff) ← rbRead fuel rb id pagebuff flashPageSize
      if err ≤ 0 then
        return (err, pagebuff)
      else
        readFlashIdNLoop id fuel count rb pagebuff

/-- `read_flash_id_n`. -/
def readFlashIdN (fuel : Nat) (id : Int) (flashBuf flashLen : Nat) (n : Int) (rb : RbT)
    (pagebuff : Memory) : FlashProg (Int × Memory) := do
  let (err, rb) ← rbRecreate rb flashBuf (flashLen / flashSectorSize) .createInitIfFail
  if err ≠ .ok then
    return (err.code, pagebuff)
  else
    readFlashIdNLoop (BitVec.ofInt 8 id) fuel (n - 1).toNat rb pagebuff

/-- `read_flash_id_latest`. -/
def readFlashIdLatest (fuel : Nat) (id : Int) (flashBuf flashLen : Nat) (rb : RbT)
    (pagebuff : Memory) : FlashProg (Int × Memory) := do
  let (err, pagebuff) ← readFlashIds fuel id flashBuf flashLen rb pagebuff
  if err ≤ 0 then
    return (err, pagebuff)
  else
    readFlashIdN fuel id flashBuf flashLen err rb pagebuff

/-- `flash_io_write_flash_id`.  The status of `rb_append` is only printed. -/
def flashIoWriteFlashId (fuel : Nat) (id : Int) (flashBuf flashLen : Nat) (buff : Memory)
    (blen : Nat) (trb : RbT) (pagebuff : Memory) : FlashProg (Int × Memory) := do
  let (err, pagebuff) ← readFlashIdLatest fuel id flashBuf flashLen trb pagebuff
  if u32 err = blen ∧ slice pagebuff 0 blen = slice buff 0 blen then
    return (0, pagebuff)
  else
    let (err, trb) ← rbRecreate trb flashBuf (flashLen / flashSectorSize) .createInitIfFail
    if err ≠ .ok ∧ err ≠ .blankHdr then
      return (err.code, pagebuff)
    else
      let (_, trb) ← rbAppend fuel { trb with rbPage := pagebuff } (BitVec.ofInt 8 id) buff blen
        pagebuff true
      return (blen, trb.rbPage)

/-- `__PERSISTENT_TABLE`: `SSID_BUFF` and `NAME_BUFF` are the same ring. -/
def persistentTable : Nat := 0x101FC000

/-- `SSID_ID`. -/
def ssidId : Int := 1

/-- `HOSTNAME_ID`. -/
def hostnameId : Int := 2

/-- `strlen` of the string at `position`, counted from the start of the memory. -/
def strlen : (fuel : Nat) → Memory → (position : Nat) → FlashProg Nat
  | 0, _, _ => .stuck
  | fuel + 1, memory, position =>
      if memory position = 0 then return position else strlen fuel memory (position + 1)

/-- The loop of `flash_io_erase_redundant_ssids`. -/
def eraseRedundantLoop (ss : Memory) (sslen : Nat) : (fuel : Nat) → (terr : Int) → RbT →
    (pagebuff : Memory) → FlashProg (Int × Memory)
  | 0, _, _, _ => .stuck
  | fuel + 1, terr, rb, pagebuff =>
      if terr < 0 ∨ sslen = 0 then
        return (terr, pagebuff)
      else do
        let (terr, rb, pagebuff) ← rbFind fuel rb (BitVec.ofInt 8 ssidId) ss sslen pagebuff
        if terr < 0 then
          if terr = RbError.blankHdr.code ∨ terr = RbError.hdrIdNotFound.code then
            return (0, pagebuff)
          else
            return (terr, pagebuff)
        else
          let (nextSsid, rb, pagebuff) ←
            rbFind fuel rb (BitVec.ofInt 8 ssidId) ss sslen pagebuff
          if nextSsid ≥ 0 then
            let rb := { rb with next := terr.toNat, rbPage := pagebuff }
            let (_, rb) ← rbDelete fuel rb (BitVec.ofInt 8 ssidId) ss sslen pagebuff
            eraseRedundantLoop ss sslen fuel terr rb rb.rbPage
          else if nextSsid = RbError.blankHdr.code ∨ nextSsid = RbError.hdrIdNotFound.code then
            return (0, pagebuff)
          else
            return (nextSsid, pagebuff)

/-- `flash_io_erase_redundant_ssids`. -/
def flashIoEraseRedundantSsids (fuel : Nat) (ss : Memory) (rb : RbT) (pagebuff : Memory) :
    FlashProg (Int × Memory) := do
  let length ← strlen fuel ss 0
  let (terr, rb) ← rbRecreate rb persistentTable (persistentLen / flashSectorSize) .createFail
  if terr ≠ .ok ∧ terr ≠ .blankHdr then
    return (terr.code, pagebuff)
  else
    eraseRedundantLoop ss (length + 1) fuel terr.code rb pagebuff

/-- What is on the stack where a call keeps its `rb_t` and `flash_io_write_ssid` its
`tempssid`. -/
structure Stack where
  rb : RbT
  tempssid : Memory

/-- `flash_io_write_ssid`. -/
def flashIoWriteSsid (fuel : Nat) (ss pw : Memory) (stack : Stack) (pagebuff : Memory) :
    FlashProg (Int × Memory) := do
  let length ← strlen fuel ss 0
  let s1len := length + 1
  let tempssid := store stack.tempssid 0 (slice ss 0 s1len)
  let length ← strlen fuel pw 0
  let s2len := length + 1
  let tempssid := store tempssid s1len (slice pw 0 s2len)
  let (terr, pagebuff) ← flashIoWriteFlashId fuel ssidId persistentTable persistentLen tempssid
    (s1len + s2len) stack.rb pagebuff
  if terr > 0 then
    let (_, pagebuff) ← flashIoEraseRedundantSsids fuel ss stack.rb pagebuff
    return (terr, pagebuff)
  else
    return (terr, pagebuff)

/-- `flash_io_write_hostname`. -/
def flashIoWriteHostname (fuel : Nat) (hostname : Memory) (nlen : Nat) (stack : Stack)
    (pagebuff : Memory) : FlashProg (Int × Memory) := do
  let (terr, pagebuff) ← flashIoWriteFlashId fuel hostnameId persistentTable persistentLen hostname
    nlen stack.rb pagebuff
  if terr > 0 then
    let (_, pagebuff) ← flashIoEraseRedundantSsids fuel hostname stack.rb pagebuff
    return (terr, pagebuff)
  else
    return (terr, pagebuff)

/-- The loop of `flash_io_find_matching_ssid`; `pw` is the caller's buffer for the password. -/
def findMatchingLoop (ss : Memory) (sslen : Nat) : (fuel : Nat) → (terr : Int) → RbT →
    (pw pagebuff : Memory) → FlashProg (Int × Memory × Memory)
  | 0, _, _, _, _ => .stuck
  | fuel + 1, terr, rb, pw, pagebuff =>
      if terr < 0 ∨ sslen = 0 then
        return (terr, pw, pagebuff)
      else do
        let (terr, rb, pagebuff) ← rbFind fuel rb (BitVec.ofInt 8 ssidId) ss sslen pagebuff
        if terr < 0 then
          return (terr, pw, pagebuff)
        else
          let (_, rb, pagebuff) ← rbRead fuel { rb with next := terr.toNat }
            (BitVec.ofInt 8 ssidId) pagebuff flashPageSize
          let ssidlen ← strlen fuel pagebuff 0
          if sslen = ssidlen then
            let pwEnd ← strlen fuel pagebuff (ssidlen + 1)
            let pwlen := pwEnd - (ssidlen + 1)
            return (terr, store pw 0 (slice pagebuff (ssidlen + 1) (pwlen + 1)), pagebuff)
          else
            findMatchingLoop ss sslen fuel terr rb pw pagebuff

/-- `flash_io_find_matching_ssid`.  After `exit` nothing is returned. -/
def flashIoFindMatchingSsid (fuel : Nat) (ss pw : Memory) (stack : Stack) (pagebuff : Memory) :
    FlashProg (Int × Memory × Memory) := do
  let sslen ← strlen fuel ss 0
  let (terr, pagebuff) ← flashIoEraseRedundantSsids fuel ss stack.rb pagebuff
  if terr < 0 then
    return (terr, pw, pagebuff)
  else
    let (terr, rb) ← rbRecreate stack.rb persistentTable (persistentLen / flashSectorSize)
      .createFail
    if terr ≠ .ok ∧ terr ≠ .blankHdr then
      .stuck
    else
      findMatchingLoop ss sslen fuel terr.code rb pw pagebuff

end PicoApConfigure.FlashIo
