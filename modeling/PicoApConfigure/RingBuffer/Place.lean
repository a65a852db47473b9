import PicoApConfigure.RingBuffer.AppendPage
import PicoApConfigure.RingBuffer.Walk

/-!
# Placing a record

`rb_sector_append` is called with the cursor at the first blank header position.
What it does depends on the sector the cursor is in, on whether the next sector is
erased and on the size of the record; `Places` lists the outcomes with the writes
that lead to them.
-/

namespace PicoApConfigure.RingBuffer

open Nor

/-! ## Writes of one fragment -/

/-- The page programs that put a data header and payload bytes into sector `k`. -/
def putWrites (ring : Geometry) (k offset : Nat) (header : RbHeader) (payload : List Byte) :
    List Op :=
  pageWrites 256 ring.base (4096 * k + offset) header.bytes ++
    pageWrites 256 ring.base (4096 * k + (offset + 4)) payload

/-- The same for the first fragment of an erased sector, behind a sector header. -/
def openWrites (ring : Geometry) (k index : Nat) (header : RbHeader)
    (payload : List Byte) : List Op :=
  pageWrites 256 ring.base (4096 * k) (sectorHeaderFor index).bytes ++
    putWrites ring k 4 header payload

theorem replay_putWrites (ring : Geometry) (k offset : Nat) (header : RbHeader)
    (payload : List Byte) (memory : Memory) :
    replay (putWrites ring k offset header payload) memory =
      program memory (ring.sectorAddr k + offset) (header.bytes ++ payload) := by
  rw [putWrites, replay_append, replay_pageWrites (by decide), replay_pageWrites (by decide),
    program_append, Geometry.sectorAddr, RbHeader.bytes_length]
  simp only [Nat.add_assoc]

theorem replay_openWrites (ring : Geometry) (k index : Nat) (header : RbHeader)
    (payload : List Byte) (memory : Memory) :
    replay (openWrites ring k index header payload) memory =
      program memory (ring.sectorAddr k)
        ((sectorHeaderFor index).bytes ++ (header.bytes ++ payload)) := by
  rw [openWrites, replay_append, replay_pageWrites (by decide), replay_putWrites]
  conv => rhs; rw [program_append, RbSectorHeader.bytes_length]
  rfl

theorem sectorHeaderFor_mod (index : Nat) :
    sectorHeaderFor (index % 16777216) = sectorHeaderFor index := by
  have left := sectorHeaderFor_header (index % 16777216)
  have right := sectorHeaderFor_header index
  rw [Nat.mod_mod] at left
  cases equal : sectorHeaderFor index with
  | mk header =>
      cases equal' : sectorHeaderFor (index % 16777216) with
      | mk header' =>
          rw [equal] at right
          rw [equal'] at left
          rw [RbSectorHeader.mk.injEq]
          exact left.trans right.symm

/-- A sector header never starts with an erased byte. -/
theorem sectorHeaderFor_ne_blank {memory : Memory} {address index : Nat}
    (holds : Holds memory address (sectorHeaderFor index).bytes) :
    memory address ≠ blankByte := by
  have first := holds_iff.mp holds 0 (by simp)
  have low := sectorHeaderFor_crc_lt index
  rw [Nat.add_zero] at first
  rw [first]
  intro equal
  have value := congrArg BitVec.toNat equal
  simp only [RbSectorHeader.bytes, List.getElem_cons_zero, BitVec.toNat_ofNat,
    blankByte] at value
  rw [show (0xff : Byte).toNat = 255 from rfl] at value
  omega

/-! ## Updating the array -/

section Update

variable {memory : Memory} {ring : Geometry} {cells : Nat → Option Sector} {k : Nat}

/-- Programming a fragment behind the last one of a sector.  The payload may end in
bytes that are left erased. -/
theorem RingHolds.push (holds : RingHolds memory ring cells) (inRing : k < ring.sectors)
    {sector : Sector} (cell : cells k = some sector) {fragment : Fragment}
    (fits : sector.used + fragment.size ≤ 4096) (payload : List Byte) (left : Nat)
    (written : fragment.payload = payload ++ blanks left) :
    RingHolds (program memory (ring.sectorAddr k + sector.used)
      (fragment.header.bytes ++ payload)) ring
      (setCell cells k (some (sector.push fragment fits))) := by
  have size : fragment.size = 4 + (payload.length + left) := by
    rw [Fragment.size, written, List.length_append, blanks_length]
  have content := holds_content holds inRing cell
  have tail := holds_tail holds inRing cell
  have length : (fragment.header.bytes ++ payload).length = 4 + payload.length := by
    rw [List.length_append, RbHeader.bytes_length]
  refine holds.set (program_elsewhere _ (by omega)) ?_
  rw [cellImage, Sector.image, Sector.push_content, Sector.push_used, Fragment.bytes,
    written, List.append_assoc, holds_append, ← List.append_assoc,
    List.append_assoc _ (blanks left), holds_append, Sector.content_length, length, ← blanks_add]
  refine ⟨content.program_of_disjoint (.inr (by simp [Sector.content_length])), ?_, ?_⟩
  · exact holds_program (tail.blanks_sub (by omega) (by omega))
  · refine (tail.blanks_sub (by omega) (by omega)).program_of_disjoint (.inl ?_)
    omega

theorem index_mod_lt (index : Nat) : index % 16777216 < 16777216 :=
  Nat.mod_lt _ (by decide)

theorem Fragment.fits_alone (fragment : Fragment) : 4 + fragsSize [fragment] ≤ 4096 := by
  have := fragment.payload_le
  simp only [fragsSize_cons, fragsSize_nil, Fragment.size]
  omega

/-- A sector with one fragment. -/
def Sector.single (index : Nat) (fragment : Fragment) : Sector where
  index := index % 16777216
  frags := [fragment]
  index_lt := index_mod_lt index
  fits := fragment.fits_alone

/-- Programming a fragment into an erased sector. -/
theorem RingHolds.open (holds : RingHolds memory ring cells) (inRing : k < ring.sectors)
    (cell : cells k = none) (index : Nat) {fragment : Fragment} {payload : List Byte}
    (left : Nat) (written : fragment.payload = payload ++ blanks left) :
    RingHolds (program memory (ring.sectorAddr k)
      ((sectorHeaderFor index).bytes ++ (fragment.header.bytes ++ payload))) ring
      (setCell cells k (some (Sector.single index fragment))) := by
  have size : fragment.size = 4 + (payload.length + left) := by
    rw [Fragment.size, written, List.length_append, blanks_length]
  have bound : fragment.size ≤ 4092 := by
    have := fragment.payload_le
    rw [Fragment.size]
    omega
  have blank := holds_blank_cell holds inRing cell
  have length : ((sectorHeaderFor index).bytes ++
      (fragment.header.bytes ++ payload)).length = 8 + payload.length := by
    simp only [List.length_append, RbSectorHeader.bytes_length, RbHeader.bytes_length]
    omega
  have image : (Sector.single index fragment).image =
      ((sectorHeaderFor index).bytes ++ (fragment.header.bytes ++ payload)) ++
        blanks (4096 - (8 + payload.length)) := by
    have used : 4096 - (Sector.single index fragment).used = 4092 - fragment.size := by
      simp only [Sector.used, Sector.single, fragsSize_cons, fragsSize_nil]
      omega
    have rest : 4096 - (8 + payload.length) = left + (4092 - fragment.size) := by omega
    rw [Sector.image, used, rest, blanks_add, Sector.content]
    simp only [Sector.single, sectorHeaderFor_mod, List.flatMap_cons, List.flatMap_nil,
      Fragment.bytes, written, List.append_assoc, List.append_nil]
  refine holds.set (program_elsewhere 0 (by omega)) ?_
  rw [cellImage, image, holds_append, length]
  refine ⟨holds_program (blank.blanks_sub (by omega) (by omega)), ?_⟩
  refine (blank.blanks_sub (by omega) (by omega)).program_of_disjoint (.inl ?_)
  omega

end Update

/-! ## Requests and the fragments they become -/

theorem notSmudged_high : rbHeaderNotSmudged &&& 0x1f = 0 := by decide

theorem splitNotSmudged_high : (rbHeaderSplit ||| rbHeaderNotSmudged) &&& 0x1f = 0 := by
  decide

/-- Arguments of an append that pass the first check of `rb_append`, up to the bound
on the size. -/
structure Request where
  id : Byte
  data : Memory
  size : Nat
  id_ne : id ≠ 0xff
  size_pos : 0 < size

namespace Request

/-- A fragment that carries `len` bytes of the caller's data. -/
def piece (request : Request) (flags : Byte) (start len : Nat)
    (high : flags &&& 0x1f = 0) (positive : 0 < len) (short : len ≤ 4088) : Fragment where
  id := request.id
  flags := flags
  payload := slice request.data start len
  id_ne := request.id_ne
  flags_high := high
  payload_pos := by simpa using positive
  payload_le := by simpa using short

/-- The whole record in one fragment. -/
def whole (request : Request) (short : request.size ≤ 4088) : Fragment :=
  request.piece rbHeaderNotSmudged 0 request.size notSmudged_high request.size_pos short

/-- First piece of a record that spans two sectors. -/
def head (request : Request) (first : Nat) (positive : 0 < first) (short : first ≤ 4088) :
    Fragment :=
  request.piece rbHeaderNotSmudged 0 first notSmudged_high positive short

/-- Second piece of a record that spans two sectors, as the code takes it from the
caller's data: `second` bytes from `second` on. -/
def tail (request : Request) (second : Nat) (positive : 0 < second) (short : second ≤ 4088) :
    Fragment :=
  request.piece (rbHeaderSplit ||| rbHeaderNotSmudged) second second splitNotSmudged_high
    positive short

/-- What a record that exactly fills its sector leaves in the next one: the header of
the first piece again, marked as a continuation, with nothing behind it. -/
def phantom (request : Request) (short : request.size ≤ 4088) : Fragment where
  id := request.id
  flags := rbHeaderSplit ||| rbHeaderNotSmudged
  payload := blanks request.size
  id_ne := request.id_ne
  flags_high := splitNotSmudged_high
  payload_pos := by simpa using request.size_pos
  payload_le := by simpa using short

end Request

/-! ## Counting blanks -/

section Blanks

variable {ring : Geometry} {memory : Memory} {k offset : Nat}

theorem readByte_exec (inRing : k < ring.sectors) (inSector : offset < 4096) :
    (FlashProg.readBytes (ring.sectorAddr k + offset) 1).Exec ring.region memory []
      [memory (ring.sectorAddr k + offset)] := by
  refine FlashProg.Exec.readBytes fun query touches => ring.region_of_sector inRing ?_
  simp only [Op.Touches] at touches
  omega

theorem countBlanks_blank_exec (inRing : k < ring.sectors) {size : Nat}
    (inSector : offset + size ≤ 4096)
    (blank : Holds memory (ring.sectorAddr k + offset) (blanks size)) :
    (countBlanks (ring.sectorAddr k + offset) 0xff size).Exec ring.region memory []
      size := by
  induction size generalizing offset with
  | zero => exact FlashProg.Exec.pure _
  | succ size ih =>
      have first := holds_blanks_iff.mp blank (ring.sectorAddr k + offset) (Nat.le_refl _)
        (by omega)
      have rest := @ih (offset + 1) (by omega)
        (blank.blanks_sub (by omega) (by omega))
      rw [countBlanks]
      refine FlashProg.Exec.bind_read (readByte_exec inRing (by omega)) ?_
      rw [first, if_neg (by simp [blankByte])]
      exact FlashProg.Exec.bind_read rest (FlashProg.Exec.pure _)

theorem countBlanks_written_exec (inRing : k < ring.sectors) (inSector : offset < 4096)
    (size : Nat) (written : memory (ring.sectorAddr k + offset) ≠ blankByte) :
    (countBlanks (ring.sectorAddr k + offset) 0xff size).Exec ring.region memory [] 0 := by
  cases size with
  | zero => exact FlashProg.Exec.pure _
  | succ size =>
      rw [countBlanks]
      refine FlashProg.Exec.bind_read (readByte_exec inRing inSector) ?_
      rw [if_pos (by simpa using written)]
      exact FlashProg.Exec.pure _

variable {rb : RbT} {cells : Nat → Option Sector}

/-- Blank bytes the next sector adds. -/
def nextBlanks (cell : Option Sector) : Nat :=
  match cell with
  | none => 4096
  | some _ => 0

/-- The blank scan at a cursor with nothing but erased bytes up to the sector end. -/
theorem sectorBlankScan_exec (on : OnRing rb ring) (holds : RingHolds memory ring cells)
    (inRing : k < ring.sectors) (next : rb.next = 4096 * k + offset) (inside : offset < 4096)
    (blank : Holds memory (ring.sectorAddr k + offset) (blanks (4096 - offset))) :
    (sectorBlankScan rb).Exec ring.region memory []
      (4096 - offset + nextBlanks (cells (ring.succ k))) := by
  have position : rb.next % 4096 = offset := by omega
  have sector : 4096 * (rb.next / 4096) = 4096 * k := by omega
  have address : rb.baseAddress + rb.next = ring.sectorAddr k + offset := by
    rw [on.base_eq, next, Geometry.sectorAddr, Nat.add_assoc]
  have wrapped := ring.wrapped_succ inRing
  have following : rb.baseAddress + 4096 * ring.succ k = ring.sectorAddr (ring.succ k) + 0 := by
    rw [on.base_eq]
    rfl
  have inRing' := ring.succ_lt inRing
  simp only [sectorBlankScan, flashSectorSize, modSector_eq, flashSector_eq, position, sector,
    on.bytes_eq, wrapped, address, following]
  refine FlashProg.Exec.bind_read (countBlanks_blank_exec inRing (by omega) blank) ?_
  rw [if_pos rfl]
  cases cell : cells (ring.succ k) with
  | none =>
      have erased := holds_blank_cell holds inRing' cell
      exact FlashProg.Exec.bind_read
        (countBlanks_blank_exec inRing' (by omega) erased)
        (FlashProg.Exec.pure _)
  | some other =>
      have written := sectorHeaderFor_ne_blank
        (holds_sectorHeader (holds_content holds inRing' cell))
      exact FlashProg.Exec.bind_read
        (countBlanks_written_exec inRing' (by omega) _ written)
        (FlashProg.Exec.pure _)

end Blanks

/-! ## Writing headers -/

/-- The value of the index counter after its increment. -/
def nextIndex (index : Nat) : Nat := (index + 1) % 4294967296

/-- The data header `write_headers` programs. -/
def flagged (hdr : RbHeader) (size : Nat) (flag : Byte) : RbHeader :=
  let made := (makeHeader hdr hdr.id size).2
  { made with crc := made.crc ||| flag }

theorem flagged_piece (request : Request) {hdr : RbHeader} (id : hdr.id = request.id)
    {flags : Byte} (high : flags &&& 0x1f = 0) (start : Nat) {len : Nat} (positive : 0 < len)
    (short : len ≤ 4088) :
    flagged hdr len flags = (request.piece flags start len high positive short).header := by
  have small : len % 65536 = len := Nat.mod_eq_of_lt (by omega)
  have refused : ¬(len = 0 ∨ request.id = 0xff) := by
    rintro (zero | blank)
    · omega
    · exact request.id_ne blank
  rw [flagged, id, makeHeader, if_neg refused]
  simp only [Fragment.header, Request.piece, small, slice_length]

/-- `make_header` refuses the size zero, so the header of the first piece stays. -/
theorem flagged_phantom (request : Request) (short : request.size ≤ 4088) :
    flagged (request.whole short).header 0 (rbHeaderSplit ||| rbHeaderNotSmudged) =
      (request.phantom short).header := by
  have flags : rbHeaderNotSmudged ||| (rbHeaderSplit ||| rbHeaderNotSmudged) =
      rbHeaderSplit ||| rbHeaderNotSmudged := by decide
  rw [flagged, makeHeader, if_pos (.inl rfl)]
  simp only [Fragment.header, Request.whole, Request.piece, Request.phantom, slice_length,
    blanks_length, BitVec.or_assoc, flags]

section WriteHeaders

variable {rb : RbT} {ring : Geometry} {memory : Memory} {k : Nat}

/-- `write_headers` inside a sector. -/
theorem writeHeaders_put_exec (on : OnRing rb ring) (inRing : k < ring.sectors)
    {offset : Nat} (next : rb.next = 4096 * k + offset) (positive : 0 < offset)
    (room : offset + 4 < 4096) (hdr : RbHeader) (size : Nat) (flag : Byte) :
    ∃ rb', OnRing rb' ring ∧ rb'.next = 4096 * k + (offset + 4) ∧
      rb'.sectorIndex = rb.sectorIndex ∧
      (writeHeaders rb hdr size flag).Exec ring.region memory
        (pageWrites 256 ring.base (4096 * k + offset) (flagged hdr size flag).bytes)
        (.ok, flagged hdr size flag, rb') := by
  have append := rbAppendPage_exec
    { rb with lastWrote := rb.next } memory _ ⟨on.base_eq, on.bytes_eq⟩ inRing next
    ((flagged hdr size flag).bytes) (by omega)
    (by rw [RbHeader.bytes_length]; omega)
  rw [RbHeader.bytes_length, ring.place_of_lt (by omega)] at append
  refine ⟨{ rb with
    lastWrote := rb.next
    next := 4096 * k + (offset + 4)
    rbPage := cleanPage rb.rbPage }, ⟨on.base_eq, on.bytes_eq⟩, rfl, rfl, ?_⟩
  simp only [writeHeaders, modSector_eq]
  rw [if_neg (by omega)]
  refine FlashProg.Exec.bind_read (FlashProg.Exec.pure _) ?_
  rw [if_neg (by simp)]
  have ran := @FlashProg.Exec.bind _ _ _ _ _ (fun result => Pure.pure
    (result.1, flagged hdr size flag, result.2)) _ _ _ _ append (FlashProg.Exec.pure _)
  rw [List.append_nil] at ran
  exact ran

/-- `write_headers` at the start of a sector. -/
theorem writeHeaders_open_exec (on : OnRing rb ring) (inRing : k < ring.sectors)
    (next : rb.next = 4096 * k) (hdr : RbHeader) (size : Nat) (flag : Byte) :
    ∃ rb', OnRing rb' ring ∧ rb'.next = 4096 * k + 8 ∧
      rb'.sectorIndex = nextIndex rb.sectorIndex ∧
      (writeHeaders rb hdr size flag).Exec ring.region memory
        (pageWrites 256 ring.base (4096 * k)
            (sectorHeaderFor (nextIndex rb.sectorIndex)).bytes ++
          pageWrites 256 ring.base (4096 * k + 4) (flagged hdr size flag).bytes)
        (.ok, flagged hdr size flag, rb') := by
  have sector := rbAppendPage_exec
    { rb with lastWrote := rb.next, sectorIndex := nextIndex rb.sectorIndex } memory 0
    ⟨on.base_eq, on.bytes_eq⟩ inRing next ((sectorHeaderFor (nextIndex rb.sectorIndex)).bytes)
    (by omega)
    (by rw [RbSectorHeader.bytes_length]; omega)
  rw [RbSectorHeader.bytes_length, ring.place_of_lt (by omega), Nat.add_zero,
    Nat.zero_add] at sector
  have append := rbAppendPage_exec
    { rb with
      lastWrote := rb.next
      sectorIndex := nextIndex rb.sectorIndex
      next := 4096 * k + 4
      rbPage := cleanPage rb.rbPage } (replay (pageWrites 256 ring.base (4096 * k)
      (sectorHeaderFor (nextIndex rb.sectorIndex)).bytes) memory) _ ⟨on.base_eq, on.bytes_eq⟩
      inRing rfl ((flagged hdr size flag).bytes) (by omega)
    (by rw [RbHeader.bytes_length]; omega)
  rw [RbHeader.bytes_length, ring.place_of_lt (by omega)] at append
  refine ⟨{ rb with
    lastWrote := rb.next
    next := 4096 * k + 8
    sectorIndex := nextIndex rb.sectorIndex
    rbPage := cleanPage (cleanPage rb.rbPage) }, ⟨on.base_eq, on.bytes_eq⟩, rfl, rfl, ?_⟩
  simp only [writeHeaders, modSector_eq]
  rw [if_pos (by omega)]
  refine sector.bind ?_
  rw [if_neg (by simp)]
  have ran := @FlashProg.Exec.bind _ _ _ _ _ (fun result => Pure.pure
    (result.1, flagged hdr size flag, result.2)) _ _ _ _ append (FlashProg.Exec.pure _)
  rw [List.append_nil] at ran
  exact ran

end WriteHeaders

end PicoApConfigure.RingBuffer
