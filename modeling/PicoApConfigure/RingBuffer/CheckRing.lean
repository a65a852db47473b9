import Mathlib.Tactic.IntervalCases
import PicoApConfigure.RingBuffer.AnyAppend

/-!
# What `rb_check_sector_ring` accepts

The check is meant to accept the rings whose sector indices go up in ring order
behind one run of blank sectors.  It starts at a blank sector if there is one and
returns at the first blank sector it meets, so there it never sees the order; and
where it goes around the ring it looks at the word behind the ring instead of at
sector 0.
-/

namespace PicoApConfigure.RingBuffer

open Nor

/-! ## Order -/

/-- The sectors in use stand in one run, blank sectors in the rest, and the indices of the run
do not decrease. -/
structure OrderedFrom (ring : Geometry) (indices : Nat → Option Nat) (start count : Nat) :
    Prop where
  start_lt : start < ring.sectors
  count_le : count ≤ ring.sectors
  used : ∀ d < count, (indices (ring.ahead start d)).isSome
  blank : ∀ d < ring.sectors, count ≤ d → indices (ring.ahead start d) = none
  rises : ∀ d, d + 1 < count → ∀ left right, indices (ring.ahead start d) = some left →
    indices (ring.ahead start (d + 1)) = some right → left ≤ right

/-- A ring in order, wherever it starts. -/
def WellOrdered (ring : Geometry) (indices : Nat → Option Nat) : Prop :=
  ∃ start count, OrderedFrom ring indices start count

section Order

variable {ring : Geometry} {indices : Nat → Option Nat}

/-- The scan of used sectors in terms of neighbours. -/
theorem ascends_iff {remaining : Nat} :
    ∀ {k low : Nat}, (∀ j, k ≤ j → j < k + remaining → (indices j).isSome) →
      (ascends indices remaining k low = true ↔
        (∀ index, 0 < remaining → indices k = some index → low ≤ index) ∧
        ∀ j, k ≤ j → j + 1 < k + remaining → ∀ left right, indices j = some left →
          indices (j + 1) = some right → left ≤ right) := by
  induction remaining with
  | zero =>
      intro k low used
      exact iff_of_true rfl ⟨fun _ positive => absurd positive (by omega),
        fun j low high => by omega⟩
  | succ remaining ih =>
      intro k low used
      obtain ⟨index, entry⟩ := Option.isSome_iff_exists.mp (used k (Nat.le_refl _) (by omega))
      have later := @ih (k + 1) index fun j low high => used j (by omega) (by omega)
      rw [ascends, entry]
      simp only [Bool.and_eq_true, decide_eq_true_eq]
      rw [later]
      constructor
      · rintro ⟨first, second, rest⟩
        refine ⟨fun other _ equal => by cases equal; exact first,
          fun j above below left right leftEntry rightEntry => ?_⟩
        rcases Nat.eq_or_lt_of_le above with rfl | above
        · rw [entry] at leftEntry
          cases leftEntry
          exact second right (by omega) rightEntry
        · exact rest j above (by omega) left right leftEntry rightEntry
      · rintro ⟨first, rest⟩
        exact ⟨first index (by omega) rfl,
          fun other positive equal => rest k (Nat.le_refl _) (by omega) index other entry equal,
          fun j above below => rest j (by omega) (by omega)⟩

/-- Where every sector is in use the run is the whole ring. -/
theorem OrderedFrom.count_eq {start count : Nat} (ordered : OrderedFrom ring indices start count)
    (used : ∀ k < ring.sectors, (indices k).isSome) : count = ring.sectors := by
  have bound := ordered.count_le
  by_cases short : count < ring.sectors
  · have none := ordered.blank count short (Nat.le_refl _)
    have some := used _ (ring.ahead_lt ordered.start_lt bound)
    rw [none] at some
    cases some
  · omega

/-- The first index of the run is the lowest. -/
theorem OrderedFrom.least {start count : Nat} (ordered : OrderedFrom ring indices start count)
    {first : Nat} (entry : indices start = some first) {d : Nat} (bound : d < count) :
    ∀ index, indices (ring.ahead start d) = some index → first ≤ index := by
  induction d with
  | zero =>
      intro index equal
      rw [ring.ahead_zero ordered.start_lt, entry] at equal
      cases equal
      exact Nat.le_refl _
  | succ d ih =>
      intro index equal
      obtain ⟨previous, before⟩ := Option.isSome_iff_exists.mp (ordered.used d (by omega))
      exact Nat.le_trans (ih (by omega) previous before)
        (ordered.rises d bound previous index before equal)

/-- The sector the scan settles on comes no earlier in the ring than the start of the run, unless
every index has the value the scan starts with. -/
theorem OrderedFrom.start_le {start count : Nat} (ordered : OrderedFrom ring indices start count)
    (used : ∀ k < ring.sectors, (indices k).isSome) :
    start ≤ oldestSector indices ring.sectors ∨
      ∀ k < ring.sectors, ∀ index, indices k = some index → rbIndexMask ≤ index := by
  rcases oldestSector_spec indices ring.sectors with ⟨-, masked⟩ | ⟨low, inRing, found, -, above⟩
  · exact .inr masked
  · refine .inl (Nat.le_of_not_lt fun before => ?_)
    obtain ⟨first, entry⟩ := Option.isSome_iff_exists.mp (used start ordered.start_lt)
    obtain ⟨d, bound, place⟩ := ring.exists_ahead ordered.start_lt inRing
    have lower := ordered.least entry (ordered.count_eq used ▸ bound) low
      (by rw [place]; exact found)
    have higher := (above start ordered.start_lt first entry).2 before
    omega

/-- A ring in order ascends from the sector the scan settles on to the ring end. -/
theorem WellOrdered.tail (ordered : WellOrdered ring indices)
    (small : ∀ k < ring.sectors, ∀ index, indices k = some index → index ≤ rbIndexMask)
    (used : ∀ k < ring.sectors, (indices k).isSome) :
    ascends indices (ring.sectors - oldestSector indices ring.sectors)
      (oldestSector indices ring.sectors) 0 = true := by
  obtain ⟨start, count, ordered⟩ := ordered
  have inRing := oldestSector_lt indices ring.sectors_pos
  refine (ascends_iff fun j low high => used j (by omega)).mpr ⟨fun _ _ _ => Nat.zero_le _, ?_⟩
  intro j low high left right leftEntry rightEntry
  rcases ordered.start_le used with before | masked
  · have whole := ordered.count_eq used
    have place : ring.ahead start (j - start) = j := by
      rw [Geometry.ahead, if_pos (by omega)]
      omega
    have following : ring.ahead start (j - start + 1) = j + 1 := by
      rw [Geometry.ahead, if_pos (by omega)]
      omega
    exact ordered.rises (j - start) (by omega) left right (by rw [place]; exact leftEntry)
      (by rw [following]; exact rightEntry)
  · have top := masked (j + 1) (by omega) right rightEntry
    have bound := small j (by omega) left leftEntry
    omega

/-- Ascending sectors from sector 0 on are a ring in order. -/
theorem wellOrdered_of_ascends (used : ∀ k < ring.sectors, (indices k).isSome)
    (rises : ascends indices ring.sectors 0 0 = true) : WellOrdered ring indices := by
  have neighbours := ((ascends_iff fun j _ high => used j (by omega)).mp rises).2
  have place : ∀ d < ring.sectors, ring.ahead 0 d = d := by
    intro d bound
    rw [Geometry.ahead, if_pos (by omega), Nat.zero_add]
  refine ⟨0, ring.sectors, ring.sectors_pos, Nat.le_refl _, fun d bound => ?_,
    fun d bound above => by omega, fun d bound => ?_⟩
  · rw [place d bound]
    exact used d bound
  · rw [place d (by omega), place (d + 1) bound]
    exact neighbours d (Nat.zero_le _) (by omega)

end Order

/-! ## The code -/

section CheckRing

variable {rb : RbT} {ring : Geometry} {memory : Memory} {indices : Nat → Option Nat}

/-- The first loop: its status tells whether a header is corrupt. -/
private theorem checkHeadersLoop_any (remaining : Nat) :
    ∀ (scanned blankcount last : Nat) (status : RbError) (rb : RbT), OnRing rb ring →
      scanned + remaining = ring.sectors →
      FlashProg.Finishes (fun _ => checkHeadersLoop remaining (4096 * scanned) blankcount last
        status rb) memory fun writes result => writes = [] ∧ OnRing result.2.2.2 ring ∧
          (status = .badHdr ∨ (∃ k, scanned ≤ k ∧ k < ring.sectors ∧
            sectorStatus memory (ring.sectorAddr k) = .badHdr) → result.2.2.1 = .badHdr) := by
  induction remaining with
  | zero =>
      intro scanned blankcount last status rb on total
      refine .pure ⟨rfl, on, ?_⟩
      rintro (bad | ⟨k, low, high, _⟩)
      · exact bad
      · omega
  | succ remaining ih =>
      intro scanned blankcount last status rb on total
      have inRing : scanned < ring.sectors := by omega
      have word := @readSectorWord_exec rb ring memory ring.region on (fun _ inside => inside)
        scanned inRing
      have status_eq : isSectorHeaderGood (RbSectorHeader.ofBytes
          (slice memory (rb.baseAddress + 4096 * scanned) 4)) =
          sectorStatus memory (ring.sectorAddr scanned) := by
        rw [on.base_eq]
        rfl
      have raised := raiseIndex_eq { rb with next := 4096 * scanned }
        (RbSectorHeader.ofBytes (slice memory (rb.baseAddress + 4096 * scanned) 4)).getIndex
      have following : 4096 * scanned + 4096 = 4096 * (scanned + 1) := by omega
      have on' : ∀ index, OnRing { rb with next := 4096 * scanned, sectorIndex := index } ring :=
        fun _ => ⟨on.base_eq, on.bytes_eq⟩
      have later : ∀ k, scanned ≤ k → k ≠ scanned → scanned + 1 ≤ k := fun k low other => by omega
      simp only at raised
      simp only [checkHeadersLoop, flashSectorSize, headerSize, following]
      refine word.bind_finishes ?_
      rw [status_eq]
      rcases sectorStatus_cases memory (ring.sectorAddr scanned) with ok | blank | corrupt
      · simp only [ok, if_true, raised]
        refine (ih (scanned + 1) blankcount last status _ (on' _) (by omega)).mono
          fun writes result holds => ⟨holds.1, holds.2.1, ?_⟩
        rintro (bad | ⟨k, low, high, bad⟩)
        · exact holds.2.2 (.inl bad)
        · refine holds.2.2 (.inr ⟨k, later k low fun same => ?_, high, bad⟩)
          rw [same, ok] at bad
          cases bad
      · simp only [blank, reduceCtorEq, if_false, if_true]
        refine (ih (scanned + 1) (blankcount + 1) (4096 * scanned) status _
          (on' rb.sectorIndex) (by omega)).mono
          fun writes result holds => ⟨holds.1, holds.2.1, ?_⟩
        rintro (bad | ⟨k, low, high, bad⟩)
        · exact holds.2.2 (.inl bad)
        · refine holds.2.2 (.inr ⟨k, later k low fun same => ?_, high, bad⟩)
          rw [same, blank] at bad
          cases bad
      · simp only [corrupt, reduceCtorEq, if_false]
        exact (ih (scanned + 1) blankcount last .badHdr _ (on' rb.sectorIndex) (by omega)).mono
          fun writes result holds => ⟨holds.1, holds.2.1, fun _ => holds.2.2 (.inl rfl)⟩

/-- A corrupt header makes the check fail. -/
theorem rbCheckSectorRing_bad (on : OnRing rb ring) {k : Nat} (inRing : k < ring.sectors)
    (bad : sectorStatus memory (ring.sectorAddr k) = .badHdr) :
    FlashProg.Finishes (fun _ => rbCheckSectorRing rb) memory
      fun _ result => result.1 = .badHdr := by
  have sectors : rb.numberOfBytes / 4096 = ring.sectors := by
    rw [on.bytes_eq]
    omega
  have scan : ∀ rb, OnRing rb ring → ∃ status rb',
      (rbFindRingOldestSector rb).Exec ring.region memory [] (status, rb') := by
    intro rb on
    rcases goodHeaders_or_lastBad memory ring with good | ⟨last, lastBad⟩
    · exact ⟨_, _, rbFindRingOldestSector_exec on good.headersAre fun _ inside => inside⟩
    · obtain ⟨index, exec⟩ := rbFindRingOldestSector_bad on lastBad
      exact ⟨_, _, exec⟩
  have headers := @checkHeadersLoop_any ring memory ring.sectors 0 0 0 .ok rb on (by omega)
  simp only [rbCheckSectorRing, flashSectorSize, sectors]
  refine headers.bind ?_
  rintro writes ⟨blankcount, last, status, rb'⟩ ⟨rfl, on', corrupt⟩
  have failed : status = .badHdr := corrupt (.inr ⟨k, Nat.zero_le _, inRing, bad⟩)
  subst failed
  simp only [replay_nil]
  by_cases none : blankcount = 0
  · obtain ⟨status, rb'', exec⟩ := scan rb' on'
    simp only [none, if_true]
    refine exec.bind_finishes ?_
    simp only [reduceCtorEq, if_false]
    exact FlashProg.Exec.bind_finishes (@FlashProg.Exec.pure _ (fun _ => True) _ _) (.pure rfl)
  · simp only [none, reduceCtorEq, if_false]
    exact FlashProg.Exec.bind_finishes (@FlashProg.Exec.pure _ (fun _ => True) _ _) (.pure rfl)

/-- The order scan behind the word behind the ring: it goes on with sector 1. -/
private theorem checkOrderLoop_wrapped (headers : HeadersAre memory ring indices)
    (used : ∀ k < ring.sectors, (indices k).isSome) (start distance : Nat) :
    ∀ (i k low : Nat) (rb : RbT), OnRing rb ring → 0 < k → k + distance ≤ ring.sectors →
      i + 4096 * start = 4096 * (ring.sectors + k) →
      ∃ next, (checkOrderLoop (4096 * start) distance i low rb).Exec ring.region memory []
        (if ascends indices distance k low = true then .ok else .badHdr, { rb with next }) := by
  induction distance with
  | zero =>
      intro i k low rb on positive bound place
      exact ⟨rb.next, FlashProg.Exec.pure _⟩
  | succ distance ih =>
      intro i k low rb on positive bound place
      have inRing : k < ring.sectors := by omega
      obtain ⟨index, entry⟩ := Option.isSome_iff_exists.mp (used k inRing)
      have on' : OnRing { rb with next := 4096 * k } ring := ⟨on.base_eq, on.bytes_eq⟩
      have word := @readSectorWord_exec _ _ memory ring.region on' (fun _ inside => inside) _
        inRing
      have valid := sectorStatus_entry on' headers inRing
      have value := sectorIndex_entry on' headers inRing entry
      have offset : (if i + 4096 * start > rb.numberOfBytes then
          i + 4096 * start - rb.numberOfBytes else i + 4096 * start) = 4096 * k := by
        rw [on.bytes_eq, place, if_pos (by omega)]
        omega
      rw [entry, entryStatus] at valid
      rw [ascends, entry]
      simp only [checkOrderLoop, flashSectorSize, headerSize, offset]
      simp only at word valid value
      by_cases low_le : low ≤ index
      · obtain ⟨next, exec⟩ := ih (i + 4096) (k + 1) index { rb with next := 4096 * k } on'
          (by omega) (by omega) (by omega)
        refine ⟨next, word.bind_read ?_⟩
        rw [valid, value, if_pos rfl, if_neg (by omega)]
        simpa only [low_le, decide_true, Bool.true_and] using exec
      · refine ⟨4096 * k, word.bind_read ?_⟩
        rw [valid, value, if_pos rfl, if_pos (by omega)]
        simp only [low_le, decide_false, Bool.false_and, Bool.false_eq_true, if_false]
        exact FlashProg.Exec.pure _

/-- What lets the order scan pass once it goes around the ring: the word behind the ring is no
sector header, or its index fits between those of the last sector and of sector 1. -/
def BehindPasses (memory : Memory) (ring : Geometry) (indices : Nat → Option Nat) : Prop :=
  sectorStatus memory ring.behind = .ok →
    (∀ last, indices (ring.sectors - 1) = some last →
      last ≤ (sectorWord memory ring.behind).getIndex) ∧
    ascends indices (oldestSector indices ring.sectors - 1) 1
      (sectorWord memory ring.behind).getIndex = true

open Classical in
/-- The check of a ring without blank sector that does not start with sector 0. -/
theorem rbCheckSectorRing_around (on : OnRing rb ring) (headers : HeadersAre memory ring indices)
    (used : ∀ k < ring.sectors, (indices k).isSome)
    (rotated : 0 < oldestSector indices ring.sectors)
    (rises : ascends indices (ring.sectors - oldestSector indices ring.sectors)
      (oldestSector indices ring.sectors) 0 = true) :
    ∃ rb', rb'.sectorIndex = topIndex indices (List.range ring.sectors) rb.sectorIndex ∧
      (rbCheckSectorRing rb).Exec ring.extended memory []
        (if BehindPasses memory ring indices then .ok else .badHdr, rb') := by
  have bound := oldestSector_lt indices ring.sectors_pos
  obtain ⟨rb', -, top, exec⟩ := @rbCheckSectorRing_wraps_exec _ _ _ _ on headers used
    rises (if BehindPasses memory ring indices then .ok else .badHdr) fun last rb' on' newest => by
      obtain ⟨previous, rest⟩ : ∃ previous, oldestSector indices ring.sectors = previous + 1 :=
        ⟨oldestSector indices ring.sectors - 1, by omega⟩
      have on'' : OnRing { rb' with next := 4096 * ring.sectors } ring :=
        ⟨on'.base_eq, on'.bytes_eq⟩
      by_cases good : sectorStatus memory ring.behind = .ok
      · by_cases fits : last ≤ (sectorWord memory ring.behind).getIndex
        · obtain ⟨next, wrapped⟩ := checkOrderLoop_wrapped headers used
            (oldestSector indices ring.sectors) previous
            (4096 * (ring.sectors - oldestSector indices ring.sectors) + 4096) 1
            (sectorWord memory ring.behind).getIndex _ on'' (by omega) (by omega) (by omega)
          have passes : BehindPasses memory ring indices ↔
              ascends indices previous 1 (sectorWord memory ring.behind).getIndex = true := by
            simp only [BehindPasses, good, newest, rest, Nat.add_sub_cancel, true_implies,
              Option.some.injEq, forall_eq', fits, true_and]
          refine ⟨next, ?_⟩
          rw [rest] at wrapped ⊢
          refine checkOrderLoop_behind on' (by omega) last ?_
          rw [if_pos good, if_neg (by omega)]
          simp only [passes]
          exact wrapped.mono fun _ inside => .inl inside
        · have fails : ¬BehindPasses memory ring indices := fun passes =>
            fits ((passes good).1 last newest)
          refine ⟨4096 * ring.sectors, ?_⟩
          rw [rest]
          refine checkOrderLoop_behind on' (by omega) last ?_
          rw [if_pos good, if_pos (by omega), if_neg fails]
          exact FlashProg.Exec.pure _
      · have passes : BehindPasses memory ring indices := fun ok => absurd ok good
        refine ⟨4096 * ring.sectors, ?_⟩
        rw [rest]
        refine checkOrderLoop_behind on' (by omega) last ?_
        rw [if_neg good, if_pos passes]
        exact FlashProg.Exec.pure _
  exact ⟨rb', top, exec⟩

/-! ## When the check is right -/

theorem getIndex_le_mask (memory : Memory) (address : Nat) :
    (sectorWord memory address).getIndex ≤ rbIndexMask := by
  rw [RbSectorHeader.getIndex_eq, sectorWord, RbSectorHeader.ofBytes, rbIndexMask]
  have bounds := fun place => ((slice memory address 4).getD place 0).isLt
  have := bounds 0
  have := bounds 1
  have := bounds 2
  have := bounds 3
  simp only
  omega

theorem headerIndex_le_mask {k index : Nat} (entry : headerIndex memory ring k = some index) :
    index ≤ rbIndexMask := by
  simp only [headerIndex] at entry
  split at entry
  · cases entry
    exact getIndex_le_mask memory _
  · cases entry

/-- The contents on which the check answers right.  Corrupt headers are always noticed.  Where
a sector is blank the order must be right, since it is not looked at.  Where no sector is blank,
the oldest one is not sector 0 and the sectors behind it ascend to the ring end, the answer is
that of the word behind the ring. -/
structure CheckSees (memory : Memory) (ring : Geometry) : Prop where
  blank : GoodHeaders memory ring → (∃ k < ring.sectors, headerIndex memory ring k = none) →
    WellOrdered ring (headerIndex memory ring)
  around : GoodHeaders memory ring →
    (∀ k < ring.sectors, (headerIndex memory ring k).isSome) →
    0 < oldestSector (headerIndex memory ring) ring.sectors →
    ascends (headerIndex memory ring)
      (ring.sectors - oldestSector (headerIndex memory ring) ring.sectors)
      (oldestSector (headerIndex memory ring) ring.sectors) 0 = true →
    (BehindPasses memory ring (headerIndex memory ring) ↔
      WellOrdered ring (headerIndex memory ring))

/-- The check answers `RB_OK` exactly for well-ordered contents, and `RB_BAD_HDR` for all
others, on exactly the contents of `CheckSees`. -/
theorem check_accepts_wellOrdered_iff (memory : Memory) (on : OnRing rb ring) :
    FlashProg.Finishes (fun _ => rbCheckSectorRing rb) memory (fun _ result =>
        (result.1 = .ok ↔
          GoodHeaders memory ring ∧ WellOrdered ring (headerIndex memory ring)) ∧
        (result.1 ≠ .ok → result.1 = .badHdr)) ↔
      CheckSees memory ring := by
  by_cases good : GoodHeaders memory ring
  · have headers := good.headersAre
    by_cases blank : ∃ k < ring.sectors, headerIndex memory ring k = none
    · obtain ⟨rb', -, -, exec⟩ := rbCheckSectorRing_blank_exec on headers blank
      rw [exec.finishes_iff]
      constructor
      · rintro ⟨answer, -⟩
        refine ⟨fun _ _ => (answer.mp rfl).2, fun _ used => ?_⟩
        obtain ⟨k, inRing, none⟩ := blank
        have some := used k inRing
        rw [none] at some
        cases some
      · intro sees
        exact ⟨iff_of_true rfl ⟨good, sees.blank good blank⟩, fun failed => absurd rfl failed⟩
    have used : ∀ k < ring.sectors, (headerIndex memory ring k).isSome := by
      intro k inRing
      rw [Option.isSome_iff_ne_none]
      exact fun none => blank ⟨k, inRing, none⟩
    have inRing := oldestSector_lt (headerIndex memory ring) ring.sectors_pos
    have noBlank : GoodHeaders memory ring →
        (∃ k < ring.sectors, headerIndex memory ring k = none) →
        WellOrdered ring (headerIndex memory ring) := fun _ none => absurd none blank
    by_cases rises : ascends (headerIndex memory ring)
        (ring.sectors - oldestSector (headerIndex memory ring) ring.sectors)
        (oldestSector (headerIndex memory ring) ring.sectors) 0 = true
    · by_cases first : oldestSector (headerIndex memory ring) ring.sectors = 0
      · rw [first, Nat.sub_zero] at rises
        obtain ⟨rb', -, -, exec⟩ := rbCheckSectorRing_first_exec on headers used first rises
        rw [exec.finishes_iff]
        refine iff_of_true ⟨iff_of_true rfl ⟨good, wellOrdered_of_ascends used rises⟩,
          fun failed => absurd rfl failed⟩ ⟨noBlank, fun _ _ rotated => ?_⟩
        omega
      · have rotated : 0 < oldestSector (headerIndex memory ring) ring.sectors := by omega
        obtain ⟨rb', -, exec⟩ := rbCheckSectorRing_around on headers used rotated rises
        rw [exec.finishes_iff]
        by_cases passes : BehindPasses memory ring (headerIndex memory ring)
        · rw [if_pos passes]
          constructor
          · rintro ⟨answer, -⟩
            exact ⟨noBlank, fun _ _ _ _ => iff_of_true passes (answer.mp rfl).2⟩
          · intro sees
            exact ⟨iff_of_true rfl ⟨good, (sees.around good used rotated rises).mp passes⟩,
              fun failed => absurd rfl failed⟩
        · rw [if_neg passes]
          constructor
          · rintro ⟨answer, -⟩
            refine ⟨noBlank, fun _ _ _ _ => iff_of_false passes fun ordered => ?_⟩
            cases answer.mpr ⟨good, ordered⟩
          · intro sees
            refine ⟨iff_of_false (by simp) fun ordered => passes ?_, fun _ => rfl⟩
            exact (sees.around good used rotated rises).mpr ordered.2
    · obtain ⟨rb', -, -, exec⟩ := rbCheckSectorRing_descends_exec on headers used
        (Bool.eq_false_iff.mpr rises)
      rw [exec.finishes_iff]
      refine iff_of_true ⟨iff_of_false (by simp) fun ordered => rises ?_, fun _ => rfl⟩
        ⟨noBlank, fun _ _ _ falls => absurd falls rises⟩
      exact ordered.2.tail (fun k _ index entry => headerIndex_le_mask entry) used
  · obtain ⟨k, inRing, bad⟩ : ∃ k < ring.sectors,
        sectorStatus memory (ring.sectorAddr k) = .badHdr := by
      simpa [GoodHeaders] using good
    refine iff_of_true ((rbCheckSectorRing_bad on inRing bad).mono fun _ result failed => ?_)
      ⟨fun sound => absurd sound good, fun sound => absurd sound good⟩
    rw [failed]
    exact ⟨iff_of_false (by decide) fun accepted => good accepted.1, fun _ => rfl⟩

/-- Four sectors at the end of the flash. -/
def quadRing : Geometry where
  base := 0x1FC000
  sectors := 4
  sectors_pos := by decide
  sectors_le := by decide

/-- Sectors 0 and 2 of the ring are in use, in the wrong order and with blank sectors between
them. -/
def scatteredFlash : Memory :=
  store (store (fun _ => blankByte) (quadRing.sectorAddr 0) (sectorHeaderFor 5).bytes)
    (quadRing.sectorAddr 2) (sectorHeaderFor 3).bytes

theorem scatteredFlash_index :
    headerIndex scatteredFlash quadRing 0 = some 5 ∧
      headerIndex scatteredFlash quadRing 1 = none ∧
      headerIndex scatteredFlash quadRing 2 = some 3 ∧
      headerIndex scatteredFlash quadRing 3 = none := by
  refine ⟨?_, ?_, ?_, ?_⟩ <;> decide +kernel

theorem scatteredFlash_good : GoodHeaders scatteredFlash quadRing := by
  intro k inRing
  have bound : k < 4 := inRing
  interval_cases k <;> decide +kernel

theorem check_accepts_scattered :
    FlashProg.Finishes (fun _ => rbCheckSectorRing (opened .zeroed quadRing)) scatteredFlash
        (fun _ result =>
          (result.1 = .ok ↔ GoodHeaders scatteredFlash quadRing ∧
            WellOrdered quadRing (headerIndex scatteredFlash quadRing)) ∧
          (result.1 ≠ .ok → result.1 = .badHdr)) ↔
      CheckSees scatteredFlash quadRing :=
  check_accepts_wellOrdered_iff scatteredFlash (onRing_opened _ _)

/-- Sectors out of order and scattered over the ring pass the check. -/
theorem scattered_sectors_accepted :
    (∃ rb', (rbCheckSectorRing (opened .zeroed quadRing)).Exec quadRing.region scatteredFlash []
      (.ok, rb')) ∧
    ¬WellOrdered quadRing (headerIndex scatteredFlash quadRing) := by
  obtain ⟨zero, one, two, three⟩ := scatteredFlash_index
  constructor
  · obtain ⟨rb', -, -, exec⟩ := rbCheckSectorRing_blank_exec (onRing_opened .zeroed quadRing)
      scatteredFlash_good.headersAre ⟨1, by decide, one⟩
    exact ⟨rb', exec⟩
  · rintro ⟨start, count, ordered⟩
    have bound : start < 4 := ordered.start_lt
    by_cases several : 2 ≤ count
    · have first := ordered.used 0 (by omega)
      have second := ordered.used 1 (by omega)
      interval_cases start <;> simp [Geometry.ahead, quadRing] at first second <;>
        simp_all [quadRing]
    · have second := ordered.blank 1 (by decide) (by omega)
      have third := ordered.blank 2 (by decide) (by omega)
      have fourth := ordered.blank 3 (by decide) (by omega)
      interval_cases start <;> simp [Geometry.ahead, quadRing] at second third fourth <;>
        simp_all [quadRing]

end CheckRing

end PicoApConfigure.RingBuffer
