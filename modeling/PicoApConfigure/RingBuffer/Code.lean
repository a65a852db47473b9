import PicoApConfigure.Nor.Program
import PicoApConfigure.RingBuffer.Header

/-!
# The ring buffer code

Translation of `ring_buffer.c`.  Flash is reached only through the three device
operations; the `rb_t` control block is passed and returned.  Pointers to caller
memory are byte memories, so a read past the end of an array sees whatever lies
behind it.  `rb_page` is represented by the contents of the buffer it points to.

Offsets and sizes are natural numbers: `rb_create` bounds a ring by the flash
size, far below `2 ^ 32`.  Where the source wraps, `u32` is written out.  The
unbounded loops take a `fuel` argument and get stuck when it runs out.
-/

namespace PicoApConfigure.RingBuffer

open Nor

/-- Conversion to `uint32_t`. -/
def u32 (value : Int) : Nat := (value % 4294967296).toNat

/-- `rb_t`. -/
structure RbT where
  baseAddress : Nat
  numberOfBytes : Nat
  next : Nat
  lastWrote : Nat
  sectorIndex : Nat
  rbPage : Memory

/-- `init_choices`. -/
inductive InitChoice where
  | createFail
  | createInitIfFail
  | createInitAlways
  deriving DecidableEq, Repr

/-- `rb_incr`: the next ring address, skipping to the next sector when no header
and data byte would fit. -/
def rbIncr (oldlen len maxlen : Nat) : Nat :=
  let nextaddr :=
    if len > flashSectorSize then
      flashSector oldlen + flashSectorSize
    else if modSector oldlen + len > flashSectorSize - (headerSize + 1) then
      flashSector oldlen + flashSectorSize
    else
      oldlen + len
  if nextaddr ≥ maxlen then 0 else nextaddr

/-- `nextincr`. -/
def nextincr (rb : RbT) (incr : Nat) : RbT :=
  let next := rb.next + incr
  { rb with next := if next ≥ rb.numberOfBytes then 0 else next }

/-- `fetch_and_check_header`: status, fetched header and the control block, whose
cursor has moved over a sector header. -/
def fetchAndCheckHeader (rb : RbT) (jumpto : Int) :
    FlashProg (RbError × RbHeader × RbT) := do
  let nextoffs := u32 (rb.next + jumpto)
  FlashProg.check (nextoffs < rb.numberOfBytes)
  let word ← FlashProg.readBytes (rb.baseAddress + nextoffs) headerSize
  if modSector nextoffs = 0 then
    let t := isSectorHeaderGood (RbSectorHeader.ofBytes word)
    if t ≠ .ok then
      return (t, RbHeader.ofBytes word, rb)
    else
      let rb := { rb with next := rb.next + headerSize }
      let word ← FlashProg.readBytes (rb.baseAddress + u32 (rb.next + jumpto)) headerSize
      return (isHeaderGood (RbHeader.ofBytes word), RbHeader.ofBytes word, rb)
  else
    return (isHeaderGood (RbHeader.ofBytes word), RbHeader.ofBytes word, rb)

/-- `count_blanks`, on the memory-mapped flash. -/
def countBlanks (address : Nat) (value : Byte) : (maxscan : Nat) → FlashProg Nat
  | 0 => return 0
  | maxscan + 1 => do
      let byte ← FlashProg.readBytes address 1
      if byte ≠ [value] then
        return 0
      else
        let rest ← countBlanks (address + 1) value maxscan
        return rest + 1

/-- `sector_blank_scan`. -/
def sectorBlankScan (rb : RbT) : FlashProg Nat := do
  let sizeInSector := flashSectorSize - modSector rb.next
  let blanks ← countBlanks (rb.baseAddress + rb.next) 0xff sizeInSector
  if blanks = sizeInSector then
    let offs := flashSector rb.next + flashSectorSize
    let offs := if offs ≥ rb.numberOfBytes then 0 else offs
    let nextblanks ← countBlanks (rb.baseAddress + offs) 0xff flashSectorSize
    return blanks + nextblanks
  else
    return blanks

/-- Loop of `rb_findnext_writeable`. -/
def findnextWriteableLoop (origrb : Nat) : (fuel : Nat) → RbT → FlashProg (RbError × RbT)
  | 0, _ => .stuck
  | fuel + 1, rb => do
      let rb :=
        if modSector rb.next > flashSectorSize - headerSize - 1 then
          nextincr rb (flashSectorSize - modSector rb.next)
        else rb
      let (hdrRes, hdr, rb) ← fetchAndCheckHeader rb 0
      if hdrRes ≠ .ok then
        return (hdrRes, rb)
      else
        let rb := { rb with next := rbIncr rb.next (hdr.len + headerSize) rb.numberOfBytes }
        if rb.next = origrb then
          return (.hdrLoop, { rb with next := flashSector rb.next })
        else
          findnextWriteableLoop origrb fuel rb

/-- `rb_findnext_writeable`. -/
def rbFindnextWriteable (fuel : Nat) (rb : RbT) : FlashProg (RbError × RbT) := do
  FlashProg.check (rb.next < rb.numberOfBytes)
  findnextWriteableLoop rb.next fuel rb

/-- Loop of `rb_find_ring_oldest_sector`; `remaining` sectors are still to be
scanned, the highest of them next. -/
def findRingOldestLoop : (remaining : Nat) → (oldnext oldestSectorNumber : Nat) →
    (hdrRes : RbError) → RbT → FlashProg (RbError × RbT)
  | 0, oldnext, _, hdrRes, rb => return (hdrRes, { rb with next := oldnext })
  | remaining + 1, oldnext, oldestSectorNumber, _, rb => do
      let rb := { rb with next := flashSectorSize * remaining }
      let word ← FlashProg.readBytes (rb.baseAddress + rb.next) headerSize
      let hdr := RbSectorHeader.ofBytes word
      let hdrRes := isSectorHeaderGood hdr
      if hdrRes = .ok then
        let older := hdr.getIndex < oldestSectorNumber
        let oldnext := if older then rb.next else oldnext
        let oldestSectorNumber := if older then hdr.getIndex else oldestSectorNumber
        let rb :=
          if hdr.getIndex ≥ rb.sectorIndex then { rb with sectorIndex := hdr.getIndex }
          else rb
        findRingOldestLoop remaining oldnext oldestSectorNumber hdrRes rb
      else if hdrRes = .blankHdr then
        findRingOldestLoop remaining oldnext oldestSectorNumber hdrRes rb
      else
        return (hdrRes, rb)

/-- `rb_find_ring_oldest_sector`. -/
def rbFindRingOldestSector (rb : RbT) : FlashProg (RbError × RbT) :=
  findRingOldestLoop (rb.numberOfBytes / flashSectorSize) 0 rbIndexMask .badHdr rb

/-- First loop of `rb_check_sector_ring`: number of blank sectors, last blank
sector and status; `remaining` sectors are still to be scanned, `i` next. -/
def checkHeadersLoop : (remaining i : Nat) → (blankcount lastBlankSector : Nat) →
    (checkStatus : RbError) → RbT → FlashProg (Nat × Nat × RbError × RbT)
  | 0, _, blankcount, lastBlankSector, checkStatus, rb =>
      return (blankcount, lastBlankSector, checkStatus, rb)
  | remaining + 1, i, blankcount, lastBlankSector, checkStatus, rb => do
      let rb := { rb with next := i }
      let word ← FlashProg.readBytes (rb.baseAddress + rb.next) headerSize
      let hdr := RbSectorHeader.ofBytes word
      let hdrRes := isSectorHeaderGood hdr
      if hdrRes = .ok then
        let rb :=
          if hdr.getIndex ≥ rb.sectorIndex then { rb with sectorIndex := hdr.getIndex }
          else rb
        checkHeadersLoop remaining (i + flashSectorSize) blankcount lastBlankSector
          checkStatus rb
      else if hdrRes = .blankHdr then
        checkHeadersLoop remaining (i + flashSectorSize) (blankcount + 1) i checkStatus rb
      else
        checkHeadersLoop remaining (i + flashSectorSize) blankcount lastBlankSector
          .badHdr rb

/-- Second loop of `rb_check_sector_ring`. -/
def checkOrderLoop (lastBlankSector : Nat) : (remaining i low : Nat) → RbT →
    FlashProg (RbError × RbT)
  | 0, _, _, rb => return (.ok, rb)
  | remaining + 1, i, low, rb => do
      let next := i + lastBlankSector
      let rb := { rb with
        next := if next > rb.numberOfBytes then next - rb.numberOfBytes else next }
      let word ← FlashProg.readBytes (rb.baseAddress + rb.next) headerSize
      let hdr := RbSectorHeader.ofBytes word
      if isSectorHeaderGood hdr = .ok then
        if hdr.getIndex < low then
          return (.badHdr, rb)
        else
          checkOrderLoop lastBlankSector remaining (i + flashSectorSize) hdr.getIndex rb
      else
        return (.ok, rb)

/-- `rb_check_sector_ring`. -/
def rbCheckSectorRing (rb : RbT) : FlashProg (RbError × RbT) := do
  let sectors := rb.numberOfBytes / flashSectorSize
  let (blankcount, lastBlankSector, checkStatus, rb) ← checkHeadersLoop sectors 0 0 0 .ok rb
  let (lastBlankSector, rb) ←
    if blankcount = 0 then do
      let (_, rb) ← rbFindRingOldestSector rb
      pure (rb.next, rb)
    else pure (lastBlankSector, rb)
  if checkStatus = .ok then
    checkOrderLoop lastBlankSector sectors 0 0 rb
  else
    return (checkStatus, rb)

/-- `rb_partial`: program what fits in the page; the rest is returned. -/
def rbPartial (rb : RbT) (data : List Byte) : FlashProg (List Byte × RbT) := do
  let pagerem := flashPageSize - modPage rb.next
  let wrlen := min pagerem data.length
  let page := store rb.rbPage (modPage rb.next) (data.take wrlen)
  FlashProg.progBytes (rb.baseAddress + flashPage rb.next) (slice page 0 flashPageSize)
  let rb := { rb with rbPage := store page 0 (blanks flashPageSize) }
  return (data.drop wrlen, nextincr rb wrlen)

/-- The `while (remaining)` loop of `rb_append_page`. -/
def appendPageLoop : (fuel : Nat) → RbT → List Byte → FlashProg (RbError × RbT)
  | 0, _, _ => .stuck
  | fuel + 1, rb, data => do
      let (remaining, rb) ← rbPartial rb data
      if remaining = [] then
        return (.ok, rb)
      else
        appendPageLoop fuel rb remaining

/-- `rb_append_page`.  Every pass writes at least one byte, so the length of the
data bounds the loop. -/
def rbAppendPage (rb : RbT) (data : List Byte) : FlashProg (RbError × RbT) :=
  let rb := { rb with rbPage := store rb.rbPage 0 (blanks flashPageSize) }
  appendPageLoop (data.length + 1) rb data

/-- `make_sector_header`: the next sector index and the header that carries it. -/
def makeSectorHeader (rb : RbT) : RbSectorHeader × RbT :=
  let rb := { rb with sectorIndex := (rb.sectorIndex + 1) % 4294967296 }
  (sectorHeaderFor rb.sectorIndex, rb)

/-- `write_headers`.  A refusal of `make_header` is overwritten by the status of
the write. -/
def writeHeaders (rb : RbT) (hdr : RbHeader) (size : Nat) (flag : Byte) :
    FlashProg (RbError × RbHeader × RbT) := do
  let rb := { rb with lastWrote := rb.next }
  let (hdrRes, rb) ←
    if modSector rb.next = 0 then
      let (rbsh, rb) := makeSectorHeader rb
      rbAppendPage rb rbsh.bytes
    else pure (.ok, rb)
  if hdrRes ≠ .ok then
    return (hdrRes, hdr, rb)
  else
    let (_, hdr) := makeHeader hdr hdr.id size
    let hdr := { hdr with crc := hdr.crc ||| flag }
    let (hdrRes, rb) ← rbAppendPage rb hdr.bytes
    return (hdrRes, hdr, rb)

/-- The branch of `rb_sector_append` for a write that fits this flash sector. -/
def appendInSector (rb : RbT) (hdr : RbHeader) (data : Memory) (size : Nat) :
    FlashProg (RbError × RbT) := do
  let (hdrRes, _, rb) ← writeHeaders rb hdr size rbHeaderNotSmudged
  if hdrRes ≠ .ok then
    return (hdrRes, rb)
  else
    rbAppendPage rb (slice data 0 size)

/-- The branch of `rb_sector_append` for a write that spans two sectors; `again` is the
recursive call for a remainder. -/
def appendAcross (again : RbT → RbHeader → Memory → Nat → FlashProg (RbError × RbT))
    (rb : RbT) (hdr : RbHeader) (data : Memory) (size : Nat) : FlashProg (RbError × RbT) := do
  let sizeInFirstSector := min (flashSectorSize - modSector rb.next - headerSize) size
  let nextsector := flashSector rb.next + flashSectorSize
  let nextsector := if nextsector ≥ rb.numberOfBytes then 0 else nextsector
  let savenext := rb.next
  let (hdrRes, _, rb) ← fetchAndCheckHeader rb ((nextsector : Int) - rb.next)
  if hdrRes = .blankHdr then
    let (hdrRes, hdr, rb) ← writeHeaders rb hdr sizeInFirstSector rbHeaderNotSmudged
    if hdrRes ≠ .ok then
      return (hdrRes, rb)
    else
      let (hdrRes, rb) ← rbAppendPage rb (slice data 0 sizeInFirstSector)
      if hdrRes ≠ .ok then
        return (hdrRes, rb)
      else
        let sizeInSecondSector :=
          min (size - sizeInFirstSector) (flashSectorSize - modSector rb.next - headerSize)
        let (_, hdr, rb) ← writeHeaders rb hdr sizeInSecondSector
          (rbHeaderSplit ||| rbHeaderNotSmudged)
        -- the source pointer advances by the second size, not the first
        let (hdrRes, rb) ←
          rbAppendPage rb (slice data sizeInSecondSector sizeInSecondSector)
        if size - sizeInFirstSector - sizeInSecondSector > 0 then
          again rb hdr
            (fun offset => data (sizeInSecondSector + sizeInFirstSector + offset))
            (size - sizeInSecondSector - sizeInFirstSector)
        else
          return (hdrRes, rb)
  else
    let rb := { rb with next := savenext }
    if hdrRes = .ok then
      return (.wrappedSectorUsed, rb)
    else
      return (hdrRes, rb)

/-- `rb_sector_append`; `data` is the caller's memory from the data pointer on. -/
def rbSectorAppend : (fuel : Nat) → RbT → RbHeader → (data : Memory) → (size : Nat) →
    FlashProg (RbError × RbT)
  | 0, _, _, _, _ => .stuck
  | fuel + 1, rb, hdr, data, size => do
      let sizeNeeded := size + headerSize
      if size = 0 ∨ hdr.id = 0xff ∨ sizeNeeded > rb.numberOfBytes ∨ size > rbMaxAppendSize then
        return (.badCallerData, rb)
      else
        let blankCnt ← sectorBlankScan rb
        if blankCnt < sizeNeeded then
          return (.full, rb)
        else if sizeNeeded < flashSectorSize - modSector rb.next then
          appendInSector rb hdr data size
        else
          appendAcross (rbSectorAppend fuel) rb hdr data size

/-- One pass of `rb_append` from the result of `rb_findnext_writeable` on; `oldnext` is the
cursor saved at entry and `again` the next pass. -/
def appendAtWriteable (id : Byte) (data : Memory) (size : Nat) (eraseIfFull : Bool)
    (oldnext fuel : Nat) (again : RbT → FlashProg (RbError × RbT)) (hdrRes : RbError)
    (rb : RbT) : FlashProg (RbError × RbT) := do
  let (hdrRes, rb) ←
    if hdrRes = .hdrLoop ∧ eraseIfFull = true then do
      let (_, rb) ← rbFindRingOldestSector rb
      FlashProg.eraseBytes (rb.baseAddress + rb.next) flashSectorSize
      pure (.blankHdr, rb)
    else pure (hdrRes, rb)
  if hdrRes = .blankHdr then
    let rbh : RbHeader := { len := 0, id, crc := 0 }
    let (hdrRes, rb) ← rbSectorAppend fuel rb rbh data size
    if (hdrRes = .wrappedSectorUsed ∨ hdrRes = .full) ∧ eraseIfFull = true then
      let (_, rb) ← rbFindRingOldestSector rb
      FlashProg.eraseBytes (rb.baseAddress + rb.next) flashSectorSize
      again rb
    else
      return (hdrRes, { rb with next := oldnext })
  else
    return (hdrRes, { rb with next := oldnext })

/-- The retry loop of `rb_append`. -/
def rbAppendLoop (id : Byte) (data : Memory) (size : Nat) (eraseIfFull : Bool)
    (oldnext : Nat) : (fuel : Nat) → RbT → FlashProg (RbError × RbT)
  | 0, _ => .stuck
  | fuel + 1, rb => do
      let (hdrRes, rb) ← rbFindRingOldestSector rb
      if hdrRes ≠ .ok ∧ hdrRes ≠ .blankHdr then
        return (hdrRes, rb)
      else
        let (hdrRes, rb) ← rbFindnextWriteable fuel rb
        appendAtWriteable id data size eraseIfFull oldnext fuel
          (rbAppendLoop id data size eraseIfFull oldnext fuel) hdrRes rb

/-- `rb_append`. -/
def rbAppend (fuel : Nat) (rb : RbT) (id : Byte) (data : Memory) (size : Nat)
    (pagebuffer : Memory) (eraseIfFull : Bool) : FlashProg (RbError × RbT) :=
  if size = 0 ∨ id = 0xff ∨ size > rb.numberOfBytes - headerSize then
    return (.badCallerData, rb)
  else
    rbAppendLoop id data size eraseIfFull rb.next fuel { rb with rbPage := pagebuffer }

/-- Argument check of `rb_read`, shared by `rb_find`. -/
def rbReadRejects (rb : RbT) (id : Byte) (size : Nat) : Prop :=
  size = 0 ∨ id = 0xff ∨ id = 0 ∨ size > rb.numberOfBytes - headerSize

instance (rb : RbT) (id : Byte) (size : Nat) : Decidable (rbReadRejects rb id size) :=
  inferInstanceAs (Decidable (_ ∨ _ ∨ _ ∨ _))

/-- The end of `rb_read`, with the cursor behind the piece that was copied: when that is a
sector start, maybe the data is split into the new sector.  `again` is the recursive
call. -/
def readContinuation
    (again : Nat → RbT → Memory → Nat → Nat → FlashProg (Int × RbT × Memory)) (id : Byte)
    (rb : RbT) (data : Memory) (offset readSize remainingSize : Nat) :
    FlashProg (Int × RbT × Memory) := do
  if modSector rb.next = 0 then
    let (prefetch, hdr, rb) ← fetchAndCheckHeader rb 0
    if prefetch ≠ .ok ∧ prefetch ≠ .blankHdr then
      return (prefetch.code, rb, data)
    else if hdr.id = id ∧ hdr.crc &&& rbHeaderSplit ≠ 0 then
      let (res, rb, data) ←
        if rbReadRejects rb id remainingSize then
          pure (RbError.badCallerData.code, rb, data)
        else
          again (flashSector rb.next) rb data (offset + readSize) remainingSize
      return (if res > 0 then readSize + res else readSize, rb, data)
    else
      return (readSize, rb, data)
  else
    return (readSize, rb, data)

/-- Loop of `rb_read`: the status or length, the control block and the caller's
buffer.  The continuation piece is read by the recursive call of the source, at
`offset` in the same buffer. -/
def rbReadLoop (id : Byte) : (fuel : Nat) → (orignext : Nat) → RbT → (data : Memory) →
    (offset size : Nat) → FlashProg (Int × RbT × Memory)
  | 0, _, _, _, _, _ => .stuck
  | fuel + 1, orignext, rb, data, offset, size => do
      let (hdrRes, hdr, rb) ← fetchAndCheckHeader rb 0
      if hdrRes ≠ .ok then
        return (hdrRes.code, rb, data)
      else if hdr.id ≠ id ∨ hdr.crc &&& rbHeaderNotSmudged = 0 then
        let rb := { rb with next := rbIncr rb.next (hdr.len + headerSize) rb.numberOfBytes }
        if orignext = rb.next then
          return (RbError.hdrIdNotFound.code, rb, data)
        else
          rbReadLoop id fuel orignext rb data offset size
      else
        let readSize := min hdr.len size
        let rb := { rb with next := rb.next + headerSize }
        let bytes ← FlashProg.readBytes (rb.baseAddress + rb.next) readSize
        let data := store data offset bytes
        let rb := { rb with next := rbIncr rb.next hdr.len rb.numberOfBytes }
        readContinuation (rbReadLoop id fuel) id rb data offset readSize (size - readSize)

/-- `rb_read`. -/
def rbRead (fuel : Nat) (rb : RbT) (id : Byte) (data : Memory) (size : Nat) :
    FlashProg (Int × RbT × Memory) :=
  if rbReadRejects rb id size then
    return (RbError.badCallerData.code, rb, data)
  else
    rbReadLoop id fuel (flashSector rb.next) rb data 0 size

/-- Loop of `rb_find`. -/
def rbFindLoop (id : Byte) (data : Memory) (size : Nat) (orignext : Nat) :
    (fuel : Nat) → RbT → (scratch : Memory) → FlashProg (Int × RbT × Memory)
  | 0, _, _ => .stuck
  | fuel + 1, rb, scratch => do
      let (hdrRes, hdr, rb) ← fetchAndCheckHeader rb 0
      if hdrRes ≠ .ok then
        return (hdrRes.code, rb, scratch)
      else if hdr.id ≠ id ∨ hdr.crc &&& rbHeaderNotSmudged = 0 then
        let rb := { rb with next := rbIncr rb.next (hdr.len + headerSize) rb.numberOfBytes }
        if orignext = rb.next then
          return (RbError.hdrIdNotFound.code, rb, scratch)
        else
          rbFindLoop id data size orignext fuel rb scratch
      else
        let oldnext := rb.next
        let (res, rb, scratch) ← rbRead fuel rb id scratch size
        if res > 0 then
          if slice data 0 size = slice scratch 0 size then
            return ((oldnext : Int), rb, scratch)
          else
            rbFindLoop id data size orignext fuel rb scratch
        else
          return (res, rb, scratch)

/-- `rb_find`. -/
def rbFind (fuel : Nat) (rb : RbT) (id : Byte) (data : Memory) (size : Nat)
    (scratch : Memory) : FlashProg (Int × RbT × Memory) :=
  if rbReadRejects rb id size then
    return (RbError.badCallerData.code, rb, scratch)
  else
    rbFindLoop id data size (flashSector rb.next) fuel rb scratch

/-- `rb_smudge`. -/
def rbSmudge (rb : RbT) (offsetToSmudge : Nat) : FlashProg (RbError × RbT) := do
  let savenext := rb.next
  let rb := { rb with next := offsetToSmudge }
  let (hdrRes, hdr, rb) ← fetchAndCheckHeader rb 0
  if hdrRes ≠ .ok then
    return (hdrRes, rb)
  else
    let crc := hdr.crc &&& ~~~rbHeaderNotSmudged
    -- `offsetof(rb_header, crc)` is 3
    let (res, rb) ← rbAppendPage { rb with next := rb.next + 3 } [crc]
    return (res, { rb with next := savenext })

/-- `rb_delete`; the page buffer doubles as the scratch buffer of the search. -/
def rbDelete (fuel : Nat) (rb : RbT) (id : Byte) (data : Memory) (size : Nat)
    (pagebuffer : Memory) : FlashProg (Int × RbT) :=
  if id = 0 ∨ id = 0xff then
    return (RbError.badCallerData.code, rb)
  else do
    let rb := { rb with rbPage := pagebuffer }
    let oldnext := rb.next
    let (hdrErr, rb) ← rbFindRingOldestSector rb
    if hdrErr ≠ .ok then
      return (hdrErr.code, rb)
    else
      let (res, rb, scratch) ← rbFind fuel rb id data size rb.rbPage
      let rb := { rb with rbPage := scratch }
      if res < 0 then
        return (res, { rb with next := oldnext })
      else
        let (res, rb) ← rbSmudge rb res.toNat
        return (res.code, { rb with next := oldnext })

/-- `rb_create`. -/
def rbCreate (rb : RbT) (baseAddress numberOfSectors : Nat) (initChoice : InitChoice) :
    FlashProg (RbError × RbT) :=
  if numberOfSectors > picoFlashSizeBytes / flashSectorSize ∨ numberOfSectors < 1 then
    return (.badCallerData, rb)
  else
    let rb := { rb with
      baseAddress := baseAddress % xipBase
      numberOfBytes := numberOfSectors * flashSectorSize
      next := 0 }
    if initChoice = .createInitAlways then do
      FlashProg.eraseBytes rb.baseAddress rb.numberOfBytes
      return (.ok, rb)
    else do
      let (hdrErr, rb) ← rbCheckSectorRing rb
      if hdrErr = .ok then
        rbFindRingOldestSector rb
      else
        return (hdrErr, rb)

/-- `rb_recreate`. -/
def rbRecreate (rb : RbT) (baseAddress numberOfSectors : Nat) (initChoice : InitChoice) :
    FlashProg (RbError × RbT) := do
  let (err, rb) ← rbCreate rb baseAddress numberOfSectors initChoice
  if initChoice ≠ .createFail ∧ ¬(err = .ok ∨ err = .blankHdr ∨ err = .hdrLoop) then
    rbCreate rb baseAddress numberOfSectors .createInitAlways
  else
    return (err, rb)

end PicoApConfigure.RingBuffer
