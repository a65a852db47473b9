import PicoApConfigure.RingBuffer.Ordered

/-!
# The log a flash carries is determined

The images of two arrays of sectors differ where the arrays do: a data header says how long its
fragment is, and no data header is blank.  The log begins with the lowest index.
-/

namespace PicoApConfigure.RingBuffer

open Nor

/-- The flag bits of a header with its checksum removed. -/
theorem flags_of_high : ∀ flags : Byte, flags &&& 0x1f = 0 → flags &&& 0xe0 = flags := by
  decide +kernel

/-- A fragment is its header and its payload. -/
theorem Fragment.ext_header {left right : Fragment} (header : left.header = right.header)
    (payload : left.payload = right.payload) : left = right := by
  have id : left.id = right.id := congrArg RbHeader.id header
  have flags : ∀ fragment : Fragment, fragment.header.crc &&& 0xe0 = fragment.flags := by
    intro fragment
    rw [Fragment.header, BitVec.and_or_distrib_right, Fragment.crcOf_and_high _ (by decide)]
    simpa using flags_of_high _ fragment.flags_high
  have same : left.flags = right.flags := by
    rw [← flags left, ← flags right, header]
  cases left
  cases right
  simp only at id same payload
  subst id same payload
  rfl

/-- A fragment is no run of erased bytes. -/
theorem Fragment.bytes_ne_blanks (fragment : Fragment) (rest : List Byte) (size : Nat) :
    fragment.bytes ++ rest ≠ blanks size := by
  intro equal
  have third := congrArg (fun bytes : List Byte => bytes[2]?) equal
  have id : (fragment.bytes ++ rest)[2]? = some fragment.id := by
    simp [Fragment.bytes, RbHeader.bytes, RbHeader.crcBytes]
  simp only [id, blanks, List.getElem?_replicate] at third
  split at third
  · exact fragment.id_ne (Option.some.inj third)
  · cases third

/-- A chain of fragments with erased bytes behind it has one reading. -/
theorem frags_unique {left : List Fragment} :
    ∀ {right : List Fragment} {size size' : Nat},
      left.flatMap Fragment.bytes ++ blanks size = right.flatMap Fragment.bytes ++ blanks size' →
      left = right := by
  induction left with
  | nil =>
      intro right size size' equal
      cases right with
      | nil => rfl
      | cons fragment right =>
          rw [List.flatMap_nil, List.nil_append, List.flatMap_cons, List.append_assoc] at equal
          exact absurd equal.symm (fragment.bytes_ne_blanks _ _)
  | cons fragment left ih =>
      intro right size size' equal
      cases right with
      | nil =>
          rw [List.flatMap_nil, List.nil_append, List.flatMap_cons, List.append_assoc] at equal
          exact absurd equal (fragment.bytes_ne_blanks _ _)
      | cons other right =>
          simp only [List.flatMap_cons, List.append_assoc, Fragment.bytes] at equal
          obtain ⟨bytes, rest⟩ := List.append_inj equal (by simp)
          have header : fragment.header = other.header := by
            rw [← fragment.header_ofBytes, ← other.header_ofBytes, bytes]
          have length : fragment.payload.length = other.payload.length :=
            congrArg RbHeader.len header
          obtain ⟨payload, behind⟩ := List.append_inj rest length
          rw [Fragment.ext_header header payload, ih behind]

theorem Sector.image_inj {left right : Sector} (equal : left.image = right.image) :
    left = right := by
  simp only [Sector.image, Sector.content, List.append_assoc] at equal
  obtain ⟨bytes, rest⟩ := List.append_inj equal (by simp)
  have index : left.index = right.index := by
    have header : sectorHeaderFor left.index = sectorHeaderFor right.index := by
      rw [← ofBytes_sectorHeaderFor, bytes, ofBytes_sectorHeaderFor]
    have indices := congrArg RbSectorHeader.getIndex header
    rwa [getIndex_sectorHeaderFor, getIndex_sectorHeaderFor, Nat.mod_eq_of_lt left.index_lt,
      Nat.mod_eq_of_lt right.index_lt] at indices
  have frags := frags_unique rest
  cases left
  cases right
  simp only at index frags
  subst index frags
  rfl

/-- A flash carries one array of sectors. -/
theorem RingHolds.unique {memory : Memory} {ring : Geometry} {cells other : Nat → Option Sector}
    (holds : RingHolds memory ring cells) (holds' : RingHolds memory ring other) {k : Nat}
    (inRing : k < ring.sectors) : cells k = other k := by
  have written : ∀ {cells other : Nat → Option Sector} {sector : Sector},
      RingHolds memory ring cells → RingHolds memory ring other → cells k = some sector →
      other k ≠ none := by
    intro cells other sector holds holds' cell none
    exact sectorHeaderFor_ne_blank (holds_sectorHeader (holds_content holds inRing cell))
      (holds_blanks_iff.mp (holds_blank_cell holds' inRing none) _ (Nat.le_refl _) (by omega))
  cases cell : cells k with
  | none =>
      cases cell' : other k with
      | none => rfl
      | some sector => exact absurd cell (written holds' holds cell')
  | some sector =>
      cases cell' : other k with
      | none => exact absurd cell' (written holds holds' cell)
      | some sector' =>
          have image := holds k inRing
          have image' := holds' k inRing
          rw [cell, cellImage, Holds] at image
          rw [cell', cellImage, Holds] at image'
          rw [Sector.image_length] at image image'
          rw [Sector.image_inj (image.symm.trans image')]

theorem oldestScan_congr {indices other : Nat → Option Nat} (remaining : Nat) :
    ∀ {oldest lowest : Nat}, (∀ k < remaining, indices k = other k) →
      oldestScan indices remaining oldest lowest = oldestScan other remaining oldest lowest := by
  induction remaining with
  | zero => intros; rfl
  | succ remaining ih =>
      intro oldest lowest same
      have below : ∀ k < remaining, indices k = other k := fun k bound => same k (by omega)
      simp only [oldestScan, same remaining (Nat.lt_succ_self _), ih below]

/-- A flash carries one log. -/
theorem Ordered.unique {memory : Memory} {ring : Geometry} {cells other : Nat → Option Sector}
    {start start' : Nat} {log log' : List Sector} (holds : RingHolds memory ring cells)
    (ordered : Ordered ring cells start log) (holds' : RingHolds memory ring other)
    (ordered' : Ordered ring other start' log') : start = start' ∧ log = log' := by
  have same : ∀ k < ring.sectors, cells k = other k := fun k inRing => holds.unique holds' inRing
  have starts : start = start' := by
    rw [← ordered.oldest_eq, ← ordered'.oldest_eq]
    exact oldestScan_congr _ fun k inRing => by rw [indexOf, indexOf, same k inRing]
  subst starts
  refine ⟨rfl, List.ext_getElem? fun distance => ?_⟩
  by_cases inRing : distance < ring.sectors
  · rw [← ordered.cell distance inRing, ← ordered'.cell distance inRing]
    exact same _ (ring.ahead_lt ordered.start_lt (Nat.le_of_lt inRing))
  · have := ordered.length_le
    have := ordered'.length_le
    rw [List.getElem?_eq_none (by omega), List.getElem?_eq_none (by omega)]

end PicoApConfigure.RingBuffer
