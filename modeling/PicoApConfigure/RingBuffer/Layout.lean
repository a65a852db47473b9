import Mathlib.Algebra.Order.Ring.Nat
import PicoApConfigure.RingBuffer.Code

/-!
# What a formed ring looks like in flash

A formed ring is an array of sectors, each either erased or made of a sector
header, a chain of data headers with their payloads, and erased bytes up to the
sector end.  `RingHolds` states that a flash carries such an array; everything
the ring code does is later described on the array alone.
-/

namespace PicoApConfigure.RingBuffer

open Nor

/-! ## Fragments -/

/-- One data header with the payload behind it: a whole record or one piece of a
record that spans two sectors. -/
structure Fragment where
  id : Byte
  flags : Byte
  payload : List Byte
  id_ne : id ≠ 0xff
  flags_high : flags &&& 0x1f = 0
  payload_pos : 0 < payload.length
  payload_le : payload.length ≤ 4088
  deriving DecidableEq

namespace Fragment

/-- The data header of a fragment. -/
def header (fragment : Fragment) : RbHeader where
  len := fragment.payload.length
  id := fragment.id
  crc := crcOf (RbHeader.crcBytes fragment.payload.length fragment.id) ||| fragment.flags

/-- Flash image of a fragment. -/
def bytes (fragment : Fragment) : List Byte :=
  fragment.header.bytes ++ fragment.payload

/-- Flash bytes taken by a fragment. -/
def size (fragment : Fragment) : Nat := 4 + fragment.payload.length

/-- The fragment has not been deleted. -/
def live (fragment : Fragment) : Bool := fragment.flags &&& rbHeaderNotSmudged ≠ 0

/-- The fragment continues a record of the previous sector. -/
def split (fragment : Fragment) : Bool := fragment.flags &&& rbHeaderSplit ≠ 0

@[simp] theorem bytes_length (fragment : Fragment) :
    fragment.bytes.length = fragment.size := by
  simp [bytes, size]

theorem size_pos (fragment : Fragment) : 5 ≤ fragment.size := by
  have := fragment.payload_pos
  simp only [size]
  omega

@[simp] theorem header_len (fragment : Fragment) :
    fragment.header.len = fragment.payload.length := rfl

@[simp] theorem header_id (fragment : Fragment) : fragment.header.id = fragment.id := rfl

theorem header_ofBytes (fragment : Fragment) :
    RbHeader.ofBytes fragment.header.bytes = fragment.header := by
  have := fragment.payload_le
  exact RbHeader.ofBytes_bytes (by simp only [header_len]; omega)

theorem header_good (fragment : Fragment) : isHeaderGood fragment.header = .ok :=
  isHeaderGood_ok fragment.id_ne fragment.payload_pos fragment.payload_le
    fragment.flags_high

theorem crcOf_and_high (data : List Byte) {mask : Byte}
    (high : (0x1f : Byte) &&& mask = 0) : crcOf data &&& mask = 0 := by
  rw [← crcOf_low, BitVec.and_assoc, high]
  exact BitVec.and_zero

@[simp] theorem header_smudged (fragment : Fragment) :
    fragment.header.crc &&& rbHeaderNotSmudged = 0 ↔ fragment.live = false := by
  rw [header, BitVec.and_or_distrib_right, crcOf_and_high _ (by decide), live]
  simp

@[simp] theorem header_split (fragment : Fragment) :
    fragment.header.crc &&& rbHeaderSplit ≠ 0 ↔ fragment.split = true := by
  rw [header, BitVec.and_or_distrib_right, crcOf_and_high _ (by decide), split]
  simp

end Fragment

/-- Flash bytes taken by a chain of fragments. -/
def fragsSize (frags : List Fragment) : Nat := (frags.map Fragment.size).sum

@[simp] theorem fragsSize_nil : fragsSize [] = 0 := rfl

@[simp] theorem fragsSize_cons (fragment : Fragment) (frags : List Fragment) :
    fragsSize (fragment :: frags) = fragment.size + fragsSize frags := by
  simp [fragsSize]

@[simp] theorem fragsSize_append (left right : List Fragment) :
    fragsSize (left ++ right) = fragsSize left + fragsSize right := by
  simp [fragsSize]

@[simp] theorem fragsBytes_length (frags : List Fragment) :
    (frags.flatMap Fragment.bytes).length = fragsSize frags := by
  induction frags with
  | nil => rfl
  | cons fragment frags ih => simp [ih]

/-! ## Sectors -/

/-- A sector in use. -/
structure Sector where
  index : Nat
  frags : List Fragment
  index_lt : index < 16777216
  fits : 4 + fragsSize frags ≤ 4096
  deriving DecidableEq

namespace Sector

/-- Bytes in use, the sector header included. -/
def used (sector : Sector) : Nat := 4 + fragsSize sector.frags

/-- No further data header fits: the walk goes on in the next sector. -/
def isFull (sector : Sector) : Bool := 4091 < sector.used

/-- The bytes in use. -/
def content (sector : Sector) : List Byte :=
  (sectorHeaderFor sector.index).bytes ++ sector.frags.flatMap Fragment.bytes

/-- Flash image of the sector. -/
def image (sector : Sector) : List Byte :=
  sector.content ++ blanks (4096 - sector.used)

@[simp] theorem content_length (sector : Sector) :
    sector.content.length = sector.used := by
  rw [content, List.length_append, fragsBytes_length]
  rfl

@[simp] theorem image_length (sector : Sector) : sector.image.length = 4096 := by
  have := sector.fits
  simp only [image, List.length_append, content_length, blanks_length, used]
  omega

theorem isFull_iff (sector : Sector) : sector.isFull = true ↔ 4091 < sector.used := by
  simp [isFull]

theorem not_isFull_iff (sector : Sector) :
    sector.isFull = false ↔ sector.used ≤ 4091 := by
  simp [isFull]

/-- The sector with one more fragment at the end of its chain. -/
def push (sector : Sector) (fragment : Fragment)
    (fits : sector.used + fragment.size ≤ 4096) : Sector where
  index := sector.index
  frags := sector.frags ++ [fragment]
  index_lt := sector.index_lt
  fits := by
    simp only [used] at fits
    simp only [fragsSize_append, fragsSize_cons, fragsSize_nil]
    omega

@[simp] theorem push_used (sector : Sector) (fragment : Fragment)
    (fits : sector.used + fragment.size ≤ 4096) :
    (sector.push fragment fits).used = sector.used + fragment.size := by
  simp [push, used, Nat.add_assoc]

@[simp] theorem push_index (sector : Sector) (fragment : Fragment)
    (fits : sector.used + fragment.size ≤ 4096) :
    (sector.push fragment fits).index = sector.index := rfl

theorem push_content (sector : Sector) (fragment : Fragment)
    (fits : sector.used + fragment.size ≤ 4096) :
    (sector.push fragment fits).content = sector.content ++ fragment.bytes := by
  simp [push, content]

end Sector

/-! ## Rings -/

/-- Place and length of a ring, within what `rb_create` accepts. -/
structure Geometry where
  base : Nat
  sectors : Nat
  sectors_pos : 0 < sectors
  sectors_le : sectors ≤ 512

namespace Geometry

/-- Addresses of the ring. -/
def region (ring : Geometry) (query : Nat) : Prop :=
  ring.base ≤ query ∧ query < ring.base + 4096 * ring.sectors

/-- Flash address of sector `k`. -/
def sectorAddr (ring : Geometry) (k : Nat) : Nat := ring.base + 4096 * k

/-- The sector after `k` in ring order. -/
def succ (ring : Geometry) (k : Nat) : Nat := if k + 1 = ring.sectors then 0 else k + 1

theorem succ_lt (ring : Geometry) {k : Nat} (inRing : k < ring.sectors) :
    ring.succ k < ring.sectors := by
  simp only [succ]
  split
  · exact ring.sectors_pos
  · omega

theorem succ_cases (ring : Geometry) {k : Nat} (inRing : k < ring.sectors) :
    (k + 1 = ring.sectors ∧ ring.succ k = 0) ∨
      (k + 1 < ring.sectors ∧ ring.succ k = k + 1) := by
  simp only [succ]
  by_cases last : k + 1 = ring.sectors
  · exact .inl ⟨last, if_pos last⟩
  · exact .inr ⟨by omega, if_neg last⟩

/-- A read, program or erase of a range inside one sector stays in the ring. -/
theorem within_read (ring : Geometry) {k : Nat} (offset : Nat) (size : Nat)
    (inRing : k < ring.sectors)
    (inSector : offset + size ≤ 4096) :
    (Op.read (ring.base + (4096 * k + offset)) size).Within ring.region := by
  intro query touches
  simp only [Op.Touches] at touches
  have : 4096 * (k + 1) ≤ 4096 * ring.sectors := Nat.mul_le_mul_left _ inRing
  simp only [region]
  omega

theorem region_of_sector (ring : Geometry) {k : Nat} (inRing : k < ring.sectors)
    {query : Nat} (inside : ring.sectorAddr k ≤ query ∧ query < ring.sectorAddr k + 4096) :
    ring.region query := by
  have : 4096 * (k + 1) ≤ 4096 * ring.sectors := Nat.mul_le_mul_left _ inRing
  simp only [sectorAddr] at inside
  simp only [region]
  omega

end Geometry

/-- The control block has been opened on the ring. -/
structure OnRing (rb : RbT) (ring : Geometry) : Prop where
  base_eq : rb.baseAddress = ring.base
  bytes_eq : rb.numberOfBytes = 4096 * ring.sectors

/-- Flash image of a sector slot. -/
def cellImage : Option Sector → List Byte
  | none => blanks 4096
  | some sector => sector.image

@[simp] theorem cellImage_length (cell : Option Sector) :
    (cellImage cell).length = 4096 := by
  cases cell with
  | none => exact blanks_length 4096
  | some sector => exact sector.image_length

/-- The flash carries the formed ring `cells`. -/
def RingHolds (memory : Memory) (ring : Geometry) (cells : Nat → Option Sector) : Prop :=
  ∀ k < ring.sectors, Holds memory (ring.sectorAddr k) (cellImage (cells k))

/-- Every byte of the ring is erased. -/
def RingBlank (memory : Memory) (ring : Geometry) : Prop :=
  RingHolds memory ring fun _ => none

theorem holds_content {memory : Memory} {ring : Geometry} {cells : Nat → Option Sector}
    (holds : RingHolds memory ring cells) {k : Nat} (inRing : k < ring.sectors)
    {sector : Sector} (cell : cells k = some sector) :
    Holds memory (ring.sectorAddr k) sector.content := by
  have image := holds k inRing
  rw [cell, cellImage, Sector.image, holds_append] at image
  exact image.1

theorem holds_tail {memory : Memory} {ring : Geometry} {cells : Nat → Option Sector}
    (holds : RingHolds memory ring cells) {k : Nat} (inRing : k < ring.sectors)
    {sector : Sector} (cell : cells k = some sector) :
    Holds memory (ring.sectorAddr k + sector.used)
      (blanks (4096 - sector.used)) := by
  have image := holds k inRing
  rw [cell, cellImage, Sector.image, holds_append, Sector.content_length] at image
  exact image.2

theorem holds_blank_cell {memory : Memory} {ring : Geometry}
    {cells : Nat → Option Sector} (holds : RingHolds memory ring cells) {k : Nat}
    (inRing : k < ring.sectors) (cell : cells k = none) :
    Holds memory (ring.sectorAddr k) (blanks 4096) := by
  have image := holds k inRing
  rwa [cell, cellImage] at image

theorem holds_sectorHeader {memory : Memory} {address : Nat} {sector : Sector}
    (holds : Holds memory address sector.content) :
    Holds memory address (sectorHeaderFor sector.index).bytes := by
  rw [Sector.content, holds_append] at holds
  exact holds.1

/-- A fragment is found behind the fragments before it. -/
theorem holds_fragment {memory : Memory} {address : Nat} {sector : Sector}
    (holds : Holds memory address sector.content) (before : List Fragment) {after : List Fragment}
    {fragment : Fragment} (frags : sector.frags = before ++ fragment :: after) :
    Holds memory (address + (4 + fragsSize before)) fragment.bytes := by
  rw [Sector.content, holds_append, frags, List.flatMap_append, holds_append,
    List.flatMap_cons, holds_append, RbSectorHeader.bytes_length,
    fragsBytes_length] at holds
  rw [← Nat.add_assoc]
  exact holds.2.2.1

/-- Replace one cell of the array. -/
def setCell (cells : Nat → Option Sector) (k : Nat) (cell : Option Sector) :
    Nat → Option Sector :=
  fun query => if query = k then cell else cells query

@[simp] theorem setCell_self (cells : Nat → Option Sector) (k : Nat)
    (cell : Option Sector) : setCell cells k cell k = cell := by
  simp [setCell]

theorem setCell_of_ne (cells : Nat → Option Sector) {k query : Nat}
    (cell : Option Sector) (ne : query ≠ k) : setCell cells k cell query = cells query := by
  simp [setCell, ne]

theorem RingHolds.congr {memory other : Memory} {ring : Geometry} {cells : Nat → Option Sector}
    (holds : RingHolds memory ring cells)
    (agree : ∀ query, ring.region query → memory query = other query) :
    RingHolds other ring cells := by
  intro k inRing
  refine (holds k inRing).congr fun query lower upper => agree query ?_
  rw [cellImage_length] at upper
  exact ring.region_of_sector inRing ⟨lower, upper⟩

section Update

variable {memory : Memory} {ring : Geometry} {cells : Nat → Option Sector} {k : Nat}

/-- Changing one sector changes one cell. -/
theorem RingHolds.set (holds : RingHolds memory ring cells) {cell : Option Sector}
    {changed : Memory}
    (elsewhere : ∀ query, ¬(ring.sectorAddr k ≤ query ∧ query < ring.sectorAddr k + 4096) →
      changed query = memory query)
    (here : Holds changed (ring.sectorAddr k) (cellImage cell)) :
    RingHolds changed ring (setCell cells k cell) := by
  intro other inRing
  by_cases equal : other = k
  · subst equal
    rw [setCell_self]
    exact here
  · rw [setCell_of_ne _ _ equal]
    refine (holds other inRing).congr fun query lower upper => (elsewhere query ?_).symm
    rw [cellImage_length] at upper
    simp only [Geometry.sectorAddr] at lower upper ⊢
    omega

theorem program_elsewhere (offset : Nat) {bytes : List Byte}
    (fits : offset + bytes.length ≤ 4096) (query : Nat)
    (outside : ¬(ring.sectorAddr k ≤ query ∧ query < ring.sectorAddr k + 4096)) :
    program memory (ring.sectorAddr k + offset) bytes query = memory query := by
  by_cases below : query < ring.sectorAddr k
  · exact program_of_lt _ _ (by omega)
  · exact program_of_le _ _ (by omega)

/-- Erasing a sector empties its cell. -/
theorem RingHolds.erase (holds : RingHolds memory ring cells) :
    RingHolds (eraseRange memory (ring.sectorAddr k) 4096) ring (setCell cells k none) := by
  refine holds.set (fun query outside => ?_) (holds_eraseRange _ _ _)
  by_cases below : query < ring.sectorAddr k
  · exact eraseRange_of_lt _ _ below
  · exact eraseRange_of_le _ (by omega)

end Update

end PicoApConfigure.RingBuffer
