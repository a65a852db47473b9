import PicoApConfigure.Nor.Pages
import PicoApConfigure.RingBuffer.Fetch

/-!
# Writing bytes into a sector

`rb_append_page` issues the page programs of its data and moves the cursor behind
it, to the next sector when it reaches the sector end.
-/

namespace PicoApConfigure.RingBuffer

open Nor

/-- The ring offset `offset` bytes into sector `k`, where the end of a sector is the
start of the next one. -/
def Geometry.place (ring : Geometry) (k offset : Nat) : Nat :=
  if offset < 4096 then 4096 * k + offset else 4096 * ring.succ k

theorem Geometry.place_of_lt (ring : Geometry) {k offset : Nat} (inside : offset < 4096) :
    ring.place k offset = 4096 * k + offset := if_pos inside

theorem Geometry.place_end (ring : Geometry) (k : Nat) :
    ring.place k 4096 = 4096 * ring.succ k := if_neg (by omega)

/-- The page buffer after `memset`. -/
def cleanPage (page : Memory) : Memory := store page 0 (blanks 256)

@[simp] theorem cleanPage_cleanPage (page : Memory) :
    cleanPage (cleanPage page) = cleanPage page :=
  store_store_of_subset page (Nat.le_refl 0) (Nat.le_refl _)

theorem store_cleanPage (page : Memory) {offset : Nat} {chunk : List Byte}
    (fits : offset + chunk.length ≤ 256) :
    store (store (cleanPage page) offset chunk) 0 (blanks 256) = cleanPage page := by
  rw [store_store_of_subset _ (Nat.zero_le _) (by rw [blanks_length]; omega)]
  exact cleanPage_cleanPage page

/-- The bytes `rb_partial` programs. -/
theorem slice_store_cleanPage (page : Memory) {offset : Nat} {chunk : List Byte}
    (fits : offset + chunk.length ≤ 256) :
    slice (store (cleanPage page) offset chunk) 0 256 = pageImage 256 offset chunk := by
  have clean : ∀ query < 256, cleanPage page query = blankByte := by
    intro query below
    have := holds_blanks_iff.mp (holds_store page 0 (blanks 256)) query (by omega)
      (by omega)
    exact this
  have image : Holds (store (cleanPage page) offset chunk) 0 (pageImage 256 offset chunk) := by
    rw [pageImage, holds_append, holds_append]
    refine ⟨⟨?_, ?_⟩, ?_⟩
    · rw [holds_blanks_iff]
      intro query _ below
      rw [store_of_lt _ _ (by omega)]
      exact clean query (by omega)
    · rw [blanks_length, Nat.zero_add]
      exact holds_store _ _ _
    · rw [holds_blanks_iff, List.length_append, blanks_length]
      intro query above below
      rw [store_of_le _ _ (by omega)]
      exact clean query (by omega)
  exact image.slice_eq (pageImage_length fits)

section AppendPage

variable {rb : RbT} {ring : Geometry} {memory : Memory} {k offset : Nat}

theorem nextincr_place (on : OnRing rb ring) (inRing : k < ring.sectors)
    (next : rb.next = 4096 * k + offset) (amount : Nat) (inside : offset < 4096)
    (fits : offset + amount ≤ 4096) :
    nextincr rb amount = { rb with next := ring.place k (offset + amount) } := by
  have bound := ring.offset_lt inRing inside
  have target : (if rb.next + amount ≥ rb.numberOfBytes then 0 else rb.next + amount) =
      ring.place k (offset + amount) := by
    rw [on.bytes_eq, next]
    unfold Geometry.place
    by_cases atEnd : offset + amount < 4096
    · have := ring.offset_lt inRing atEnd
      rw [if_neg (by omega), if_pos atEnd, Nat.add_assoc]
    · have wrapped : 4096 * ring.succ k =
          if k + 1 = ring.sectors then 0 else 4096 * (k + 1) := by
        rw [Geometry.succ]
        split <;> simp
      rw [if_neg atEnd, wrapped]
      by_cases last : k + 1 = ring.sectors
      · rw [if_pos last, if_pos (by omega)]
      · have := ring.start_lt (k := k + 1) (by omega)
        have boundary : 4096 * k + offset + amount = 4096 * (k + 1) := by omega
        rw [if_neg last, boundary, if_neg (by omega)]
  rw [nextincr, target]

/-- The page that holds a byte of a sector lies in that sector. -/
theorem page_in_sector {k offset : Nat} (next : Nat) (next_eq : next = 4096 * k + offset)
    (inside : offset < 4096) :
    4096 * k ≤ 256 * (next / 256) ∧ 256 * (next / 256 + 1) ≤ 4096 * k + 4096 := by
  subst next_eq
  constructor <;> omega

theorem pageWrites_within {data : List Byte}
    (inside : offset < 4096) (fits : offset + data.length ≤ 4096) {op : Op}
    (member : op ∈ pageWrites 256 ring.base (4096 * k + offset) data) {query : Nat}
    (touches : op.Touches query) :
    ring.sectorAddr k ≤ query ∧ query < ring.sectorAddr k + 4096 := by
  have bounds := pageWrites_touches (by omega) _ data member touches
  have first := page_in_sector (k := k) _ rfl inside
  have last := page_in_sector (k := k) (4096 * k + offset + (data.length - 1))
    (Nat.add_assoc _ _ _) (by omega)
  rw [Geometry.sectorAddr]
  omega

private theorem appendPageLoop_exec (inRing : k < ring.sectors) :
    ∀ (fuel : Nat) (data : List Byte) (rb : RbT) (offset : Nat) (memory : Memory),
      data.length < fuel → OnRing rb ring → rb.next = 4096 * k + offset →
      offset < 4096 → offset + data.length ≤ 4096 → cleanPage rb.rbPage = rb.rbPage →
      (appendPageLoop fuel rb data).Exec ring.region memory
        (pageWrites 256 ring.base rb.next data)
        (.ok, { rb with next := ring.place k (offset + data.length) }) := by
  intro fuel
  induction fuel with
  | zero => intro data rb offset memory tooShort; omega
  | succ fuel ih =>
      intro data rb offset memory enough on next inside fits clean
      have takeMin : ∀ limit, data.take (min limit data.length) = data.take limit := by
        intro limit
        rw [List.take_eq_take_iff]
        omega
      have chunkFits : rb.next % 256 + (data.take (256 - rb.next % 256)).length ≤ 256 := by
        rw [List.length_take]
        omega
      have headWithin : (Op.prog (rb.baseAddress + 256 * (rb.next / 256))
          (pageImage 256 (rb.next % 256) (data.take (256 - rb.next % 256)))).Within
            ring.region := by
        intro query touches
        simp only [Op.Touches, pageImage_length chunkFits, on.base_eq] at touches
        have page := page_in_sector _ next inside
        apply ring.region_of_sector inRing
        rw [Geometry.sectorAddr]
        omega
      -- one pass programs the rest of the page and moves the cursor behind it
      have pass : (rbPartial rb data).Exec ring.region memory
          [Op.prog (rb.baseAddress + 256 * (rb.next / 256))
            (pageImage 256 (rb.next % 256) (data.take (256 - rb.next % 256)))]
          (data.drop (min (256 - rb.next % 256) data.length),
            { rb with next :=
                ring.place k (offset + min (256 - rb.next % 256) data.length) }) := by
        have advanced := nextincr_place on inRing next (min (256 - rb.next % 256) data.length)
          inside (by omega)
        simp only [rbPartial, flashPageSize, modPage_eq, flashPage_eq, takeMin]
        rw [← clean, slice_store_cleanPage _ chunkFits, store_cleanPage _ chunkFits, clean,
          advanced]
        exact (FlashProg.Exec.progBytes headWithin).bind (FlashProg.Exec.pure _)
      rw [appendPageLoop, pageWrites, ← on.base_eq]
      by_cases last : data.length ≤ 256 - rb.next % 256
      · have wrlen : min (256 - rb.next % 256) data.length = data.length := by omega
        rw [wrlen, List.drop_length] at pass
        rw [if_pos (.inl last)]
        exact pass.bind (FlashProg.Exec.pure _)
      · have wrlen : min (256 - rb.next % 256) data.length = 256 - rb.next % 256 := by omega
        have more : data.drop (256 - rb.next % 256) ≠ [] := by
          rw [ne_eq, List.drop_eq_nil_iff]
          omega
        have placed : ring.place k (offset + (256 - rb.next % 256)) =
            rb.next + (256 - rb.next % 256) := by
          rw [ring.place_of_lt (by omega), next, Nat.add_assoc]
        have total : offset + (256 - rb.next % 256) +
            (data.drop (256 - rb.next % 256)).length = offset + data.length := by
          rw [List.length_drop]
          omega
        rw [wrlen, placed] at pass
        rw [if_neg (by omega)]
        refine pass.bind ?_
        have rest := ih (data.drop (256 - rb.next % 256))
          { rb with next := rb.next + (256 - rb.next % 256) }
          (offset + (256 - rb.next % 256))
          (replay [Op.prog (rb.baseAddress + 256 * (rb.next / 256)) (pageImage 256
            (rb.next % 256) (data.take (256 - rb.next % 256)))] memory)
          (by rw [List.length_drop]; omega) ⟨on.base_eq, on.bytes_eq⟩
          (by rw [next, Nat.add_assoc]) (by omega) (by omega) clean
        rw [total, ← on.base_eq] at rest
        simp only [more, if_false]
        exact rest

variable (rb) (memory) (offset) in
/-- `rb_append_page` programs its data page by page. -/
theorem rbAppendPage_exec (on : OnRing rb ring) (inRing : k < ring.sectors)
    (next : rb.next = 4096 * k + offset) (data : List Byte) (inside : offset < 4096)
    (fits : offset + data.length ≤ 4096) :
    (rbAppendPage rb data).Exec ring.region memory
      (pageWrites 256 ring.base (4096 * k + offset) data)
      (.ok, { rb with
        next := ring.place k (offset + data.length)
        rbPage := cleanPage rb.rbPage }) := by
  have loop := appendPageLoop_exec inRing (data.length + 1) data
    { rb with rbPage := cleanPage rb.rbPage } offset memory (by omega)
    ⟨on.base_eq, on.bytes_eq⟩ next inside fits (cleanPage_cleanPage _)
  change (rbAppendPage rb data).Exec ring.region memory
    (pageWrites 256 ring.base rb.next data) _ at loop
  rw [next] at loop
  exact loop

end AppendPage

end PicoApConfigure.RingBuffer
