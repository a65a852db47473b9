import PicoApConfigure.RingBuffer.Layout

/-!
# Fetching headers

What `fetch_and_check_header` returns on any flash contents, and on the positions
of a formed ring: a fragment, the blank end of a sector, a sector start.
-/

namespace PicoApConfigure.RingBuffer

open Nor

/-- The data header found at an address. -/
def dataWord (memory : Memory) (address : Nat) : RbHeader :=
  RbHeader.ofBytes (slice memory address 4)

/-- The sector header found at an address. -/
def sectorWord (memory : Memory) (address : Nat) : RbSectorHeader :=
  RbSectorHeader.ofBytes (slice memory address 4)

/-- Status of the sector header at an address. -/
def sectorStatus (memory : Memory) (address : Nat) : RbError :=
  isSectorHeaderGood (sectorWord memory address)

theorem u32_of_lt {value : Int} {target : Nat} (equal : value = target)
    (bound : target < 4294967296) : u32 value = target := by
  subst equal
  simp only [u32]
  omega

section Fetch

variable {rb : RbT} {ring : Geometry} {memory : Memory} {k : Nat}

theorem Geometry.offset_lt (ring : Geometry) {k offset : Nat} (inRing : k < ring.sectors)
    (inSector : offset < 4096) : 4096 * k + offset < 4096 * ring.sectors := by
  have : 4096 * (k + 1) ≤ 4096 * ring.sectors := Nat.mul_le_mul_left _ inRing
  omega

theorem Geometry.offset_lt_u32 (ring : Geometry) {k offset : Nat}
    (inRing : k < ring.sectors) (inSector : offset < 4096) :
    4096 * k + offset < 4294967296 := by
  have := ring.offset_lt inRing inSector
  have := ring.sectors_le
  omega

theorem Geometry.start_lt (ring : Geometry) {k : Nat} (inRing : k < ring.sectors) :
    4096 * k < 4096 * ring.sectors := by
  omega

theorem Geometry.start_lt_u32 (ring : Geometry) {k : Nat} (inRing : k < ring.sectors) :
    4096 * k < 4294967296 := by
  have := ring.sectors_le
  omega

theorem Geometry.within_start (ring : Geometry) {k : Nat} (inRing : k < ring.sectors) :
    (Op.read (ring.base + 4096 * k) 4).Within ring.region := by
  have within := ring.within_read 0 4 inRing (by omega)
  rwa [Nat.add_zero] at within

variable (memory) in
/-- A fetch inside a sector reads the word there. -/
theorem fetch_inside (on : OnRing rb ring) (inRing : k < ring.sectors) {offset : Nat}
    (positive : 0 < offset) (inSector : offset + 4 ≤ 4096) (jumpto : Int)
    (target : (rb.next : Int) + jumpto = (4096 * k + offset : Nat)) :
    (fetchAndCheckHeader rb jumpto).Exec ring.region memory []
      (isHeaderGood (dataWord memory (ring.sectorAddr k + offset)),
        dataWord memory (ring.sectorAddr k + offset), rb) := by
  have nextoffs : u32 (rb.next + jumpto) = 4096 * k + offset :=
    u32_of_lt target (ring.offset_lt_u32 inRing (by omega))
  have address : ring.base + (4096 * k + offset) = ring.sectorAddr k + offset := by
    rw [Geometry.sectorAddr, Nat.add_assoc]
  simp only [fetchAndCheckHeader, nextoffs, on.base_eq, on.bytes_eq, headerSize,
    modSector_eq]
  refine FlashProg.Exec.bind_read (FlashProg.Exec.check ?_) ?_
  · exact decide_eq_true (ring.offset_lt inRing (by omega))
  refine FlashProg.Exec.bind_read
    (FlashProg.Exec.readBytes (ring.within_read _ _ inRing inSector)) ?_
  rw [if_neg (by omega), address]
  exact FlashProg.Exec.pure _

/-- A fetch at a sector start stops at a sector header that is not good. -/
theorem fetch_start_stop (on : OnRing rb ring) (inRing : k < ring.sectors) (jumpto : Int)
    (target : (rb.next : Int) + jumpto = (4096 * k : Nat))
    (bad : sectorStatus memory (ring.sectorAddr k) ≠ .ok) :
    (fetchAndCheckHeader rb jumpto).Exec ring.region memory []
      (sectorStatus memory (ring.sectorAddr k), dataWord memory (ring.sectorAddr k),
        rb) := by
  have nextoffs : u32 (rb.next + jumpto) = 4096 * k :=
    u32_of_lt target (ring.start_lt_u32 inRing)
  have start := ring.start_lt inRing
  have within := ring.within_start inRing
  simp only [fetchAndCheckHeader, nextoffs, on.base_eq, on.bytes_eq, headerSize,
    modSector_eq]
  refine FlashProg.Exec.bind_read (FlashProg.Exec.check (decide_eq_true start)) ?_
  refine FlashProg.Exec.bind_read (FlashProg.Exec.readBytes within) ?_
  rw [if_pos (by omega)]
  exact (if_pos bad).symm ▸ FlashProg.Exec.pure _

/-- A fetch at a good sector header goes on to the first data header. -/
theorem fetch_start_next (on : OnRing rb ring) (inRing : k < ring.sectors) (jumpto : Int)
    (target : (rb.next : Int) + jumpto = (4096 * k : Nat))
    (good : sectorStatus memory (ring.sectorAddr k) = .ok) :
    (fetchAndCheckHeader rb jumpto).Exec ring.region memory []
      (isHeaderGood (dataWord memory (ring.sectorAddr k + 4)),
        dataWord memory (ring.sectorAddr k + 4), { rb with next := rb.next + 4 }) := by
  have nextoffs : u32 (rb.next + jumpto) = 4096 * k :=
    u32_of_lt target (ring.start_lt_u32 inRing)
  have nextoffs' : u32 ((rb.next + 4 : Nat) + jumpto) = 4096 * k + 4 :=
    u32_of_lt (by omega) (ring.offset_lt_u32 inRing (by omega))
  have start := ring.start_lt inRing
  have within := ring.within_start inRing
  have within' := ring.within_read 4 4 inRing (by omega)
  simp only [fetchAndCheckHeader, nextoffs, on.base_eq, on.bytes_eq, headerSize,
    modSector_eq]
  refine FlashProg.Exec.bind_read (FlashProg.Exec.check (decide_eq_true start)) ?_
  refine FlashProg.Exec.bind_read (FlashProg.Exec.readBytes within) ?_
  rw [if_pos (by omega)]
  have proceed : ¬isSectorHeaderGood
      (RbSectorHeader.ofBytes (slice memory (ring.base + 4096 * k) 4)) ≠ .ok :=
    not_not_intro good
  rw [if_neg proceed, nextoffs']
  refine FlashProg.Exec.bind_read (FlashProg.Exec.readBytes within') ?_
  rw [← Nat.add_assoc]
  exact FlashProg.Exec.pure _

end Fetch

/-! ## Words of a formed ring -/

theorem dataWord_of_holds {memory : Memory} {address : Nat} {header : RbHeader}
    (holds : Holds memory address header.bytes) (lenBound : header.len < 65536) :
    dataWord memory address = header := by
  have word : slice memory address 4 = header.bytes :=
    holds.slice_eq header.bytes_length
  rw [dataWord, word, RbHeader.ofBytes_bytes lenBound]

theorem dataWord_blank {memory : Memory} {address : Nat}
    (blank : Holds memory address (blanks 4)) : dataWord memory address = .blank := by
  have word : slice memory address 4 = blanks 4 := blank.slice_eq (blanks_length 4)
  rw [dataWord, word, RbHeader.ofBytes_blank]

theorem sectorStatus_blank {memory : Memory} {address : Nat}
    (blank : Holds memory address (blanks 4)) : sectorStatus memory address = .blankHdr := by
  have word : slice memory address 4 = blanks 4 := blank.slice_eq (blanks_length 4)
  rw [sectorStatus, sectorWord, word, isSectorHeaderGood_blank]

theorem sectorWord_of_holds {memory : Memory} {address index : Nat}
    (holds : Holds memory address (sectorHeaderFor index).bytes) :
    sectorWord memory address = sectorHeaderFor index := by
  have word : slice memory address 4 = (sectorHeaderFor index).bytes :=
    holds.slice_eq (RbSectorHeader.bytes_length _)
  rw [sectorWord, word, ofBytes_sectorHeaderFor]

theorem sectorStatus_of_holds {memory : Memory} {address index : Nat}
    (holds : Holds memory address (sectorHeaderFor index).bytes) :
    sectorStatus memory address = .ok := by
  rw [sectorStatus, sectorWord_of_holds holds, isSectorHeaderGood_sectorHeaderFor]

/-- Status of the data header at an address. -/
def headerStatus (memory : Memory) (address : Nat) : RbError :=
  isHeaderGood (dataWord memory address)

/-- What the scans and the readers see of a formed ring: nothing is said about the
bytes behind the header position at which a sector ends.  A header torn by a power
cut may stand there. -/
structure Carries (memory : Memory) (ring : Geometry) (cells : Nat → Option Sector) :
    Prop where
  erased : ∀ k < ring.sectors, cells k = none →
    Holds memory (ring.sectorAddr k) (blanks 4)
  content : ∀ k < ring.sectors, ∀ sector, cells k = some sector →
    Holds memory (ring.sectorAddr k) sector.content
  ended : ∀ k < ring.sectors, ∀ sector, cells k = some sector → sector.isFull = false →
    headerStatus memory (ring.sectorAddr k + sector.used) ≠ .ok
  unfilled : ∀ k < ring.sectors, ∀ sector, cells k = some sector → sector.frags = [] →
    dataWord memory (ring.sectorAddr k + 4) = .blank

section Positions

variable {memory : Memory} {ring : Geometry} {cells : Nat → Option Sector} {k : Nat}
  {sector : Sector}

/-- The header word behind the last fragment of a sector that is not full. -/
theorem dataWord_end (holds : RingHolds memory ring cells) (inRing : k < ring.sectors)
    (cell : cells k = some sector) (room : sector.isFull = false) :
    dataWord memory (ring.sectorAddr k + sector.used) = .blank := by
  rw [Sector.not_isFull_iff] at room
  exact dataWord_blank ((holds_tail holds inRing cell).blanks_sub (by omega) (by omega))

theorem RingHolds.carries (holds : RingHolds memory ring cells) :
    Carries memory ring cells where
  erased k inRing none :=
    (holds_blank_cell holds inRing none).blanks_sub (by omega) (by omega)
  content k inRing sector cell := holds_content holds inRing cell
  ended k inRing sector cell room := by
    rw [headerStatus, dataWord_end holds inRing cell room, isHeaderGood_blank]
    decide
  unfilled k inRing sector cell empty := by
    have used : sector.used = 4 := by rw [Sector.used, empty, fragsSize_nil]
    rw [← used]
    exact dataWord_end holds inRing cell (by rw [Sector.not_isFull_iff]; omega)

/-- The header word at a fragment of a formed ring. -/
theorem Carries.dataWord_fragment (carries : Carries memory ring cells)
    (inRing : k < ring.sectors) (cell : cells k = some sector)
    (before : List Fragment) {after : List Fragment} {fragment : Fragment}
    (frags : sector.frags = before ++ fragment :: after) :
    dataWord memory (ring.sectorAddr k + (4 + fragsSize before)) = fragment.header := by
  have image := holds_fragment (carries.content k inRing sector cell) _ frags
  rw [Fragment.bytes, holds_append] at image
  have := fragment.payload_le
  exact dataWord_of_holds image.1 (by simp only [Fragment.header_len]; omega)

/-- The payload of a fragment of a formed ring. -/
theorem Carries.payload (carries : Carries memory ring cells) (inRing : k < ring.sectors)
    (cell : cells k = some sector) {before after : List Fragment} {fragment : Fragment}
    (frags : sector.frags = before ++ fragment :: after) :
    Holds memory (ring.sectorAddr k + (4 + fragsSize before) + 4) fragment.payload := by
  have image := holds_fragment (carries.content k inRing sector cell) _ frags
  rw [Fragment.bytes, holds_append, RbHeader.bytes_length] at image
  exact image.2

theorem Carries.sectorStatus_none (carries : Carries memory ring cells)
    (inRing : k < ring.sectors) (cell : cells k = none) :
    sectorStatus memory (ring.sectorAddr k) = .blankHdr :=
  sectorStatus_blank (carries.erased k inRing cell)

theorem Carries.sectorStatus_some (carries : Carries memory ring cells)
    (inRing : k < ring.sectors) (cell : cells k = some sector) :
    sectorStatus memory (ring.sectorAddr k) = .ok :=
  sectorStatus_of_holds (holds_sectorHeader (carries.content k inRing sector cell))

theorem Carries.sectorWord_some (carries : Carries memory ring cells)
    (inRing : k < ring.sectors) (cell : cells k = some sector) :
    (sectorWord memory (ring.sectorAddr k)).getIndex = sector.index := by
  rw [sectorWord_of_holds (holds_sectorHeader (carries.content k inRing sector cell)),
    getIndex_sectorHeaderFor]
  exact Nat.mod_eq_of_lt sector.index_lt

end Positions

end PicoApConfigure.RingBuffer
