import PicoApConfigure.RingBuffer.AppendPage
import PicoApConfigure.RingBuffer.Walk

/-!
# `rb_smudge`

Deleting a record clears one flag bit in its header.  The header byte is programmed
in place, which needs no erase.
-/

namespace PicoApConfigure.RingBuffer

open Nor

namespace Fragment

/-- The fragment after `rb_smudge`. -/
def smudged (fragment : Fragment) : Fragment where
  id := fragment.id
  flags := fragment.flags &&& ~~~rbHeaderNotSmudged
  payload := fragment.payload
  id_ne := fragment.id_ne
  flags_high := by
    rw [BitVec.and_assoc, BitVec.and_comm (~~~rbHeaderNotSmudged), ← BitVec.and_assoc,
      fragment.flags_high]
    exact BitVec.zero_and
  payload_pos := fragment.payload_pos
  payload_le := fragment.payload_le

@[simp] theorem smudged_size (fragment : Fragment) : fragment.smudged.size = fragment.size :=
  rfl

@[simp] theorem smudged_payload (fragment : Fragment) :
    fragment.smudged.payload = fragment.payload := rfl

@[simp] theorem smudged_id (fragment : Fragment) : fragment.smudged.id = fragment.id := rfl

@[simp] theorem smudged_live (fragment : Fragment) : fragment.smudged.live = false := by
  have cleared : ~~~rbHeaderNotSmudged &&& rbHeaderNotSmudged = 0 := by decide
  rw [live, smudged, BitVec.and_assoc, cleared]
  simp

@[simp] theorem smudged_split (fragment : Fragment) :
    fragment.smudged.split = fragment.split := by
  have kept : ~~~rbHeaderNotSmudged &&& rbHeaderSplit = rbHeaderSplit := by decide
  rw [split, smudged, BitVec.and_assoc, kept, split]

/-- The CRC byte `rb_smudge` programs. -/
theorem smudged_crc (fragment : Fragment) :
    fragment.header.crc &&& ~~~rbHeaderNotSmudged = fragment.smudged.header.crc := by
  have mask : (0x1f : Byte) &&& ~~~rbHeaderNotSmudged = 0x1f := by decide
  have low := crcOf_low (RbHeader.crcBytes fragment.payload.length fragment.id)
  have kept : crcOf (RbHeader.crcBytes fragment.payload.length fragment.id) &&&
      ~~~rbHeaderNotSmudged =
        crcOf (RbHeader.crcBytes fragment.payload.length fragment.id) := by
    rw [← low, BitVec.and_assoc, mask, low]
  simp only [header, smudged, BitVec.and_or_distrib_right, kept]

end Fragment

/-- A sector in which one fragment has been smudged. -/
def Sector.smudge (sector : Sector) (before : List Fragment) (fragment : Fragment)
    (after : List Fragment) (frags : sector.frags = before ++ fragment :: after) : Sector where
  index := sector.index
  frags := before ++ fragment.smudged :: after
  index_lt := sector.index_lt
  fits := by
    have fits := sector.fits
    simpa [frags] using fits

/-- One fragment of the ring loses its liveness. -/
inductive Smudges (ring : Geometry) (cells : Nat → Option Sector) :
    (Nat → Option Sector) → Prop
  | mk {k : Nat} {sector : Sector} {before after : List Fragment} {fragment : Fragment}
      (inRing : k < ring.sectors) (cell : cells k = some sector)
      (frags : sector.frags = before ++ fragment :: after) :
      Smudges ring cells (setCell cells k (some (sector.smudge before fragment after frags)))

section Smudge

variable {rb : RbT} {ring : Geometry} {memory : Memory} {cells : Nat → Option Sector}
  {k : Nat} {sector : Sector} {before after : List Fragment} {fragment : Fragment}

@[simp] theorem Sector.smudge_used (frags : sector.frags = before ++ fragment :: after) :
    (sector.smudge before fragment after frags).used = sector.used := by
  simp [Sector.used, Sector.smudge, frags]

/-- Programming the cleared CRC byte smudges the fragment. -/
theorem RingHolds.smudge (holds : RingHolds memory ring cells) (inRing : k < ring.sectors)
    (cell : cells k = some sector) (frags : sector.frags = before ++ fragment :: after) :
    RingHolds (program memory (ring.sectorAddr k + (4 + fragsSize before) + 3)
      [fragment.header.crc &&& ~~~rbHeaderNotSmudged]) ring
      (setCell cells k (some (sector.smudge before fragment after frags))) := by
  have bound := fragment_offset frags
  have positive := fragment.size_pos
  have content := holds_content holds inRing cell
  have tail := holds_tail holds inRing cell
  have size : fragment.size = 4 + fragment.payload.length := rfl
  have old : ∀ changed : Fragment, changed.bytes =
      RbHeader.crcBytes changed.header.len changed.header.id ++ [changed.header.crc] ++
        changed.payload := fun changed => rfl
  have crcLength : ∀ len id, (RbHeader.crcBytes len id).length = 3 := fun _ _ => rfl
  rw [Sector.content, frags, List.flatMap_append, List.flatMap_cons, old] at content
  simp only [holds_append, RbSectorHeader.bytes_length, fragsBytes_length, List.length_append,
    crcLength, List.length_singleton] at content
  obtain ⟨header, first, ⟨⟨crcBytes, crc⟩, payload⟩, rest⟩ := content
  have crcAddress : ring.sectorAddr k + 4 + fragsSize before + 3 =
      ring.sectorAddr k + (4 + fragsSize before) + 3 := by omega
  have crcByte : memory (ring.sectorAddr k + (4 + fragsSize before) + 3) =
      fragment.header.crc := by
    rw [← crcAddress]
    have value := holds_iff.mp crc 0 (by simp)
    simpa using value
  refine holds.set (program_elsewhere
    (4 + fragsSize before + 3) (by simp only [List.length_singleton]; omega)) ?_
  rw [cellImage, Sector.image, Sector.smudge_used, Sector.content]
  simp only [Sector.smudge, List.flatMap_append, List.flatMap_cons, old, holds_append,
    RbSectorHeader.bytes_length, fragsBytes_length, List.length_append, crcLength,
    List.length_singleton, Fragment.smudged_payload]
  have used : sector.used = 4 + (fragsSize before + (3 + 1 + fragment.payload.length +
      fragsSize after)) := by
    simp only [Sector.used, frags, fragsSize_append, fragsSize_cons]
    omega
  refine ⟨⟨?_, ?_, ⟨⟨?_, ?_⟩, ?_⟩, ?_⟩, ?_⟩
  · exact header.program_of_disjoint (.inr (by simp only [RbSectorHeader.bytes_length]; omega))
  · exact first.program_of_disjoint (.inr (by simp only [fragsBytes_length]; omega))
  · exact crcBytes.program_of_disjoint (.inr (by simp only [crcLength]; omega))
  · rw [crcAddress, holds_iff]
    intro position inBounds
    have here : position = 0 := by simpa using inBounds
    subst here
    rw [program_at _ _ (by simp), Nat.add_zero, crcByte]
    simp only [List.getElem_singleton, ← Fragment.smudged_crc, ← BitVec.and_assoc,
      BitVec.and_self]
  · exact payload.program_of_disjoint (.inl (by simp only [List.length_singleton]; omega))
  · exact rest.program_of_disjoint (.inl (by simp only [List.length_singleton]; omega))
  · rw [← used]
    exact tail.program_of_disjoint (.inl (by simp only [List.length_singleton]; omega))

variable (rb) in
/-- `rb_smudge` at the address of a fragment. -/
theorem rbSmudge_exec (on : OnRing rb ring) (holds : RingHolds memory ring cells)
    (inRing : k < ring.sectors) (cell : cells k = some sector)
    (frags : sector.frags = before ++ fragment :: after) :
    ∃ rb', OnRing rb' ring ∧ rb'.next = rb.next ∧ rb'.sectorIndex = rb.sectorIndex ∧
      (rbSmudge rb (4096 * k + (4 + fragsSize before))).Exec ring.region memory
        (pageWrites 256 ring.base (4096 * k + (4 + fragsSize before + 3))
          [fragment.header.crc &&& ~~~rbHeaderNotSmudged]) (.ok, rb') := by
  have bound := fragment_offset frags
  have positive := fragment.size_pos
  have fetched := @fetch_fragment { rb with next := 4096 * k + (4 + fragsSize before) } _ _ _ _ _
    ⟨on.base_eq, on.bytes_eq⟩ holds.carries inRing cell _ _ _ frags (StandsAt.header _ _)
  have written := rbAppendPage_exec
    { rb with next := 4096 * k + (4 + fragsSize before) + 3 } memory _
    ⟨on.base_eq, on.bytes_eq⟩ inRing (Nat.add_assoc _ _ _)
    [fragment.header.crc &&& ~~~rbHeaderNotSmudged] (by omega)
    (by simp only [List.length_singleton]; omega)
  refine ⟨{ rb with rbPage := cleanPage rb.rbPage }, ⟨on.base_eq, on.bytes_eq⟩, rfl, rfl, ?_⟩
  simp only [rbSmudge]
  refine FlashProg.Exec.bind_read fetched ?_
  simp only [ne_eq, not_true_eq_false, if_false]
  have ran := @FlashProg.Exec.bind _ _ _ _ _ (fun result => Pure.pure
    (result.1, { result.2 with next := rb.next })) _ _ _ _ written (FlashProg.Exec.pure _)
  rw [List.append_nil] at ran
  exact ran

end Smudge

end PicoApConfigure.RingBuffer
