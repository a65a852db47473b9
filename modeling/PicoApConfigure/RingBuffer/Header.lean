import PicoApConfigure.Nor.Memory

/-!
# Headers of the flash ring

Every sector of a ring starts with a four-byte sector header and every record
with a four-byte data header (`ring_buffer.h`).  Both carry a five-bit CRC, and
the three upper bits of the data header's CRC byte are flags.
-/

namespace PicoApConfigure.RingBuffer

open Nor

/-- `FLASH_SECTOR_SIZE`, the erase granularity. -/
@[simp] def flashSectorSize : Nat := 4096

/-- `FLASH_PAGE_SIZE`, the programming granularity. -/
@[simp] def flashPageSize : Nat := 256

/-- `XIP_BASE`, the system address at which the flash is mapped. -/
@[simp] def xipBase : Nat := 0x10000000

/-- `PICO_FLASH_SIZE_BYTES` of the `pico_w` board. -/
@[simp] def picoFlashSizeBytes : Nat := 2 * 1024 * 1024

/-- `__PERSISTENT_LEN`, the length of the persistent region in `memmap_custom.ld`. -/
@[simp] def persistentLen : Nat := 16 * 1024

/-- `sizeof(rb_header)`, also `sizeof(rb_sector_header)`. -/
@[simp] def headerSize : Nat := 4

/-- `RB_MAX_APPEND_SIZE`. -/
@[simp] def rbMaxAppendSize : Nat := flashSectorSize - headerSize - headerSize

/-- `RB_INDEX_MASK`. -/
@[simp] def rbIndexMask : Nat := 0xffffff

/-- `RB_HEADER_SPLIT`. -/
def rbHeaderSplit : Byte := 0x80

/-- `RB_HEADER_NOT_SMUDGED`. -/
def rbHeaderNotSmudged : Byte := 0x40

/-- `RB_HEADER_UNUSED`. -/
def rbHeaderUnused : Byte := 0x20

/-- `MOD_SECTOR`. -/
def modSector (address : Nat) : Nat := address &&& (flashSectorSize - 1)

/-- `MOD_PAGE`. -/
def modPage (address : Nat) : Nat := address &&& (flashPageSize - 1)

/-- `FLASH_PAGE`. -/
def flashPage (address : Nat) : Nat := address / flashPageSize * flashPageSize

/-- `FLASH_SECTOR`. -/
def flashSector (address : Nat) : Nat := address / flashSectorSize * flashSectorSize

@[simp] theorem modSector_eq (address : Nat) : modSector address = address % 4096 :=
  Nat.and_two_pow_sub_one_eq_mod address 12

@[simp] theorem modPage_eq (address : Nat) : modPage address = address % 256 :=
  Nat.and_two_pow_sub_one_eq_mod address 8

@[simp] theorem flashPage_eq (address : Nat) : flashPage address = 256 * (address / 256) :=
  Nat.mul_comm _ _

@[simp] theorem flashSector_eq (address : Nat) :
    flashSector address = 4096 * (address / 4096) := Nat.mul_comm _ _

/-- `rb_errors_t`. -/
inductive RbError where
  | ok
  | badCallerData
  | badSector
  | blankHdr
  | badHdr
  | wrappedSectorUsed
  | hdrLoop
  | hdrIdNotFound
  | full
  deriving DecidableEq, Repr

/-- Numeric value of a status, for the functions that return it in an `int`. -/
def RbError.code : RbError → Int
  | .ok => 0
  | .badCallerData => -1
  | .badSector => -2
  | .blankHdr => -3
  | .badHdr => -4
  | .wrappedSectorUsed => -5
  | .hdrLoop => -6
  | .hdrIdNotFound => -7
  | .full => -8

theorem RbError.code_neg {status : RbError} (failed : status ≠ .ok) :
    status.code < 0 := by
  cases status <;> simp_all [RbError.code]

/-! ## CRC -/

/-- `crc_t`. Bits above the fifth never reach the result. -/
abbrev Crc := BitVec 8

/-- `crc_init`. -/
def crcInit : Crc := 0x1f

/-- `crc_finalize`. -/
def crcFinalize (crc : Crc) : Crc := crc ^^^ 0x1f

/-- Body of the inner loop of `crc_update`, for data bit `i` of `c`. -/
def crcUpdateBit (c : Byte) (crc : Crc) (i : Nat) : Crc :=
  let bit : Crc := (crc &&& 0x10) ^^^ (if c.getLsbD i then 0x10 else 0)
  if bit ≠ 0 then (crc <<< 1) ^^^ 0x05 else crc <<< 1

/-- Body of the outer loop of `crc_update`. -/
def crcUpdateByte (crc : Crc) (c : Byte) : Crc :=
  (List.range 8).foldl (crcUpdateBit c) crc &&& 0x1f

/-- `crc_update`. -/
def crcUpdate (crc : Crc) (data : List Byte) : Crc :=
  data.foldl crcUpdateByte crc &&& 0x1f

/-- The CRC of a message, as every caller computes it. -/
def crcOf (data : List Byte) : Crc := crcFinalize (crcUpdate crcInit data)

/-- A CRC fits in the five low bits. -/
theorem crcOf_low (data : List Byte) : crcOf data &&& 0x1f = crcOf data := by
  rw [crcOf, crcUpdate, crcFinalize]
  generalize data.foldl crcUpdateByte crcInit = crc
  revert crc
  decide

theorem crcOf_ne_blank (data : List Byte) : crcOf data ≠ blankByte := by
  intro equal
  have low := crcOf_low data
  rw [equal] at low
  revert low
  decide

/-! ## Data headers -/

/-- `rb_header`. -/
structure RbHeader where
  len : Nat
  id : Byte
  crc : Byte
  deriving DecidableEq, Repr

namespace RbHeader

/-- The three bytes the CRC covers. -/
def crcBytes (len : Nat) (id : Byte) : List Byte :=
  [BitVec.ofNat 8 len, BitVec.ofNat 8 (len / 256), id]

/-- In-memory image of the structure, little endian. -/
def bytes (header : RbHeader) : List Byte :=
  crcBytes header.len header.id ++ [header.crc]

/-- The structure overlaid on four bytes. -/
def ofBytes (word : List Byte) : RbHeader where
  len := (word.getD 0 0).toNat + 256 * (word.getD 1 0).toNat
  id := word.getD 2 0
  crc := word.getD 3 0

@[simp] theorem bytes_length (header : RbHeader) : header.bytes.length = 4 := rfl

theorem ofBytes_bytes {header : RbHeader} (lenBound : header.len < 65536) :
    ofBytes header.bytes = header := by
  cases header with
  | mk len id crc =>
      simp only [ofBytes, bytes, crcBytes, List.cons_append, List.nil_append,
        List.getD_cons_zero, List.getD_cons_succ, BitVec.toNat_ofNat, mk.injEq,
        and_true]
      simp only at lenBound
      omega

end RbHeader

/-- `is_crc_good`. -/
def isCrcGood (rbh : RbHeader) : RbError :=
  if rbh.crc &&& ~~~(rbHeaderSplit ||| rbHeaderNotSmudged ||| rbHeaderUnused) ≠
      crcOf (RbHeader.crcBytes rbh.len rbh.id) then
    .badHdr
  else .ok

/-- `is_header_good`. -/
def isHeaderGood (rbh : RbHeader) : RbError :=
  if rbh.id = 0xff ∧ rbh.crc = 0xff ∧ rbh.len = 0xffff then .blankHdr
  else if rbh.id = 0xff ∨ rbh.len = 0 ∨ rbh.len > persistentLen then .badHdr
  else isCrcGood rbh

/-- `make_header`, which leaves the header alone when it refuses. -/
def makeHeader (rbh : RbHeader) (id : Byte) (size : Nat) : RbError × RbHeader :=
  if size = 0 ∨ id = 0xff then (.badCallerData, rbh)
  else
    let len := size % 65536
    (.ok, { len, id, crc := crcOf (RbHeader.crcBytes len id) })

/-- Four erased bytes seen as a data header. -/
def RbHeader.blank : RbHeader := { len := 0xffff, id := 0xff, crc := 0xff }

theorem RbHeader.ofBytes_blank :
    RbHeader.ofBytes (blanks 4) = RbHeader.blank := by decide

@[simp] theorem isHeaderGood_blank : isHeaderGood .blank = .blankHdr := by
  simp [isHeaderGood, RbHeader.blank]

/-- A genuine header is accepted whatever its flag bits. -/
theorem isHeaderGood_ok {len : Nat} {id flags : Byte} (idBound : id ≠ 0xff)
    (lenPos : 0 < len) (lenBound : len ≤ rbMaxAppendSize)
    (flagsHigh : flags &&& 0x1f = 0) :
    isHeaderGood { len, id, crc := crcOf (RbHeader.crcBytes len id) ||| flags } = .ok := by
  have masked : (crcOf (RbHeader.crcBytes len id) ||| flags) &&&
      ~~~(rbHeaderSplit ||| rbHeaderNotSmudged ||| rbHeaderUnused) =
        crcOf (RbHeader.crcBytes len id) := by
    have mask : ~~~(rbHeaderSplit ||| rbHeaderNotSmudged ||| rbHeaderUnused) =
        (0x1f : Byte) := by decide
    rw [mask, BitVec.and_or_distrib_right, flagsHigh, crcOf_low]
    exact BitVec.or_zero
  simp only [rbMaxAppendSize, flashSectorSize, headerSize] at lenBound
  rw [isHeaderGood, if_neg (fun blank => idBound blank.1), if_neg (by
    simp only [idBound, persistentLen, false_or]
    omega)]
  simp only [isCrcGood, masked, ne_eq, not_true_eq_false, if_false]

/-! ## Sector headers -/

/-- `rb_sector_header`: 24 bits of index above 8 bits of CRC. -/
structure RbSectorHeader where
  header : Nat
  deriving DecidableEq, Repr

namespace RbSectorHeader

/-- `get_crc`. -/
def getCrc (p : RbSectorHeader) : Nat := p.header &&& 0xff

/-- `get_index`. -/
def getIndex (p : RbSectorHeader) : Nat := p.header >>> 8

/-- `set_index`. -/
def setIndex (p : RbSectorHeader) (n : Nat) : RbSectorHeader :=
  { header := ((n &&& rbIndexMask) <<< 8) ||| p.getCrc }

/-- `set_crc`. -/
def setCrc (p : RbSectorHeader) (n : Nat) : RbSectorHeader :=
  { header := (p.getIndex <<< 8) ||| (n &&& 0xff) }

/-- In-memory image of the structure, little endian. -/
def bytes (p : RbSectorHeader) : List Byte :=
  [BitVec.ofNat 8 p.header, BitVec.ofNat 8 (p.header / 256),
    BitVec.ofNat 8 (p.header / 65536), BitVec.ofNat 8 (p.header / 16777216)]

/-- The structure overlaid on four bytes. -/
def ofBytes (word : List Byte) : RbSectorHeader where
  header := (word.getD 0 0).toNat + 256 * (word.getD 1 0).toNat +
    65536 * (word.getD 2 0).toNat + 16777216 * (word.getD 3 0).toNat

/-- The four bytes of an index word, over which the CRC is taken. -/
def indexBytes (index : Nat) : List Byte :=
  [BitVec.ofNat 8 index, BitVec.ofNat 8 (index / 256),
    BitVec.ofNat 8 (index / 65536), BitVec.ofNat 8 (index / 16777216)]

@[simp] theorem bytes_length (p : RbSectorHeader) : p.bytes.length = 4 := rfl

theorem getCrc_eq (p : RbSectorHeader) : p.getCrc = p.header % 256 :=
  Nat.and_two_pow_sub_one_eq_mod p.header 8

theorem getIndex_eq (p : RbSectorHeader) : p.getIndex = p.header / 256 :=
  Nat.shiftRight_eq_div_pow p.header 8

theorem setIndex_header (p : RbSectorHeader) (n : Nat) :
    (p.setIndex n).header = n % 16777216 * 256 + p.header % 256 := by
  have masked : n &&& rbIndexMask = n % 16777216 :=
    Nat.and_two_pow_sub_one_eq_mod n 24
  rw [setIndex, masked, getCrc_eq, ← Nat.shiftLeft_add_eq_or_of_lt (by omega),
    Nat.shiftLeft_eq]

theorem setCrc_header (p : RbSectorHeader) (n : Nat) :
    (p.setCrc n).header = p.header / 256 * 256 + n % 256 := by
  have masked : n &&& 0xff = n % 256 := Nat.and_two_pow_sub_one_eq_mod n 8
  rw [setCrc, masked, getIndex_eq, ← Nat.shiftLeft_add_eq_or_of_lt (by omega),
    Nat.shiftLeft_eq]

end RbSectorHeader

/-- `is_sector_header_good`. -/
def isSectorHeaderGood (shdr : RbSectorHeader) : RbError :=
  if shdr.header = 0xffffffff then .blankHdr
  else if (crcOf (RbSectorHeader.indexBytes shdr.getIndex)).toNat = shdr.getCrc then .ok
  else .badHdr

/-- The header `make_sector_header` builds for the counter value `index`. -/
def sectorHeaderFor (index : Nat) : RbSectorHeader :=
  let shdr : RbSectorHeader := { header := 0 }
  let shdr := shdr.setIndex index
  shdr.setCrc (crcOf (RbSectorHeader.indexBytes shdr.getIndex)).toNat

theorem sectorHeaderFor_header (index : Nat) :
    (sectorHeaderFor index).header = index % 16777216 * 256 +
      (crcOf (RbSectorHeader.indexBytes (index % 16777216))).toNat := by
  have crcBound := (crcOf (RbSectorHeader.indexBytes (index % 16777216))).isLt
  simp only [sectorHeaderFor, RbSectorHeader.setCrc_header,
    RbSectorHeader.getIndex_eq, RbSectorHeader.setIndex_header]
  have cleaned : (index % 16777216 * 256 + 0 % 256) / 256 = index % 16777216 := by omega
  rw [cleaned]
  omega

theorem sectorHeaderFor_crc_lt (index : Nat) :
    (sectorHeaderFor index).header % 256 < 32 := by
  rw [sectorHeaderFor_header]
  have low := crcOf_low (RbSectorHeader.indexBytes (index % 16777216))
  have bound : (crcOf (RbSectorHeader.indexBytes (index % 16777216))).toNat < 32 := by
    rw [← low, BitVec.toNat_and]
    exact Nat.lt_of_le_of_lt Nat.and_le_right (by decide)
  omega

@[simp] theorem getIndex_sectorHeaderFor (index : Nat) :
    (sectorHeaderFor index).getIndex = index % 16777216 := by
  have crcBound := (crcOf (RbSectorHeader.indexBytes (index % 16777216))).isLt
  rw [RbSectorHeader.getIndex_eq, sectorHeaderFor_header]
  omega

/-- A generated sector header is accepted. -/
@[simp] theorem isSectorHeaderGood_sectorHeaderFor (index : Nat) :
    isSectorHeaderGood (sectorHeaderFor index) = .ok := by
  have crcBound := (crcOf (RbSectorHeader.indexBytes (index % 16777216))).isLt
  have crcSmall := sectorHeaderFor_crc_lt index
  rw [isSectorHeaderGood, if_neg (by omega), if_pos]
  rw [getIndex_sectorHeaderFor, RbSectorHeader.getCrc_eq, sectorHeaderFor_header]
  omega

theorem RbSectorHeader.ofBytes_bytes {p : RbSectorHeader}
    (bound : p.header < 4294967296) : ofBytes p.bytes = p := by
  cases p with
  | mk header =>
      simp only [ofBytes, bytes, List.getD_cons_zero, List.getD_cons_succ,
        BitVec.toNat_ofNat, mk.injEq]
      simp only at bound
      omega

@[simp] theorem ofBytes_sectorHeaderFor (index : Nat) :
    RbSectorHeader.ofBytes (sectorHeaderFor index).bytes = sectorHeaderFor index := by
  apply RbSectorHeader.ofBytes_bytes
  have crcBound := (crcOf (RbSectorHeader.indexBytes (index % 16777216))).isLt
  rw [sectorHeaderFor_header]
  omega

theorem isSectorHeaderGood_blank :
    isSectorHeaderGood (RbSectorHeader.ofBytes (blanks 4)) =
      .blankHdr := by
  decide

end PicoApConfigure.RingBuffer
