import PicoApConfigure.RingBuffer.Fetch

/-!
# Walking along the fragments

Three loops of the code move a cursor from one data header to the next: the
search for the write position, the reader and the finder.  They skip a fragment
in the same way, so the walk is described once, on the array of sectors, and each
loop only says what one pass does.
-/

namespace PicoApConfigure.RingBuffer

open Nor

/-- The ring offset at which a walk goes on after `offset` bytes of sector `k`. -/
def Geometry.resume (ring : Geometry) (k offset : Nat) : Nat :=
  if offset ≤ 4091 then 4096 * k + offset else 4096 * ring.succ k

theorem Geometry.resume_of_le (ring : Geometry) {k offset : Nat} (room : offset ≤ 4091) :
    ring.resume k offset = 4096 * k + offset := if_pos room

theorem Geometry.resume_of_lt (ring : Geometry) {k offset : Nat} (full : 4091 < offset) :
    ring.resume k offset = 4096 * ring.succ k := if_neg (by omega)

theorem Geometry.wrapped_succ (ring : Geometry) {k : Nat} (inRing : k < ring.sectors) :
    (if 4096 * k + 4096 ≥ 4096 * ring.sectors then 0 else 4096 * k + 4096) =
      4096 * ring.succ k := by
  rw [Geometry.succ]
  by_cases last : k + 1 = ring.sectors
  · rw [if_pos last, if_pos (by omega)]
  · rw [if_neg last, if_neg (by omega)]
    omega

theorem rbIncr_resume (ring : Geometry) {k offset : Nat} (len : Nat) (inRing : k < ring.sectors)
    (inside : offset < 4096) :
    rbIncr (4096 * k + offset) len (4096 * ring.sectors) = ring.resume k (offset + len) := by
  have sector : 4096 * ((4096 * k + offset) / 4096) = 4096 * k := by omega
  have position : (4096 * k + offset) % 4096 = offset := by omega
  simp only [rbIncr, flashSectorSize, headerSize, flashSector_eq, modSector_eq, sector,
    position]
  by_cases fits : offset + len ≤ 4091
  · have bound := ring.offset_lt inRing (by omega)
    have next : (if len > 4096 then 4096 * k + 4096
        else if offset + len > 4096 - (4 + 1) then 4096 * k + 4096
        else 4096 * k + offset + len) = 4096 * k + (offset + len) := by
      rw [if_neg (by omega), if_neg (by omega), Nat.add_assoc]
    rw [next, if_neg (by omega), ring.resume_of_le fits]
  · have next : (if len > 4096 then 4096 * k + 4096
        else if offset + len > 4096 - (4 + 1) then 4096 * k + 4096
        else 4096 * k + offset + len) = 4096 * k + 4096 := by
      by_cases long : len > 4096
      · rw [if_pos long]
      · rw [if_neg long, if_pos (by omega)]
    rw [next, ring.wrapped_succ inRing, ring.resume_of_lt (by omega)]

/-- The cursor stands at a data header position: on it, or on the sector header in
front of the first one. -/
def StandsAt (k offset next : Nat) : Prop :=
  next = 4096 * k + offset ∨ (offset = 4 ∧ next = 4096 * k)

theorem StandsAt.start (k : Nat) : StandsAt k 4 (4096 * k) := .inr ⟨rfl, rfl⟩

theorem StandsAt.header (k offset : Nat) : StandsAt k offset (4096 * k + offset) := .inl rfl

/-- A data header that ends where the sector is used up to leaves room for itself. -/
theorem fragment_offset {sector : Sector} {before after : List Fragment}
    {fragment : Fragment} (frags : sector.frags = before ++ fragment :: after) :
    4 + fragsSize before + fragment.size ≤ sector.used ∧ sector.used ≤ 4096 := by
  have fits := sector.fits
  simp only [Sector.used, frags, fragsSize_append, fragsSize_cons] at fits ⊢
  omega

/-- Skipping a fragment from its header. -/
theorem rbIncr_fragment {rb : RbT} {ring : Geometry} (on : OnRing rb ring) {k : Nat}
    {sector : Sector} {before after : List Fragment} {fragment : Fragment}
    (inRing : k < ring.sectors) (frags : sector.frags = before ++ fragment :: after) :
    rbIncr (4096 * k + (4 + fragsSize before)) (fragment.payload.length + 4)
        rb.numberOfBytes =
      ring.resume k (4 + fragsSize before + fragment.size) := by
  have bound := fragment_offset frags
  have positive := fragment.size_pos
  rw [on.bytes_eq, rbIncr_resume ring _ inRing (by omega), Fragment.size,
    Nat.add_comm 4 fragment.payload.length]

/-- Skipping the payload of a fragment behind its header. -/
theorem rbIncr_payload {rb : RbT} {ring : Geometry} (on : OnRing rb ring) {k : Nat}
    {sector : Sector} {before after : List Fragment} {fragment : Fragment}
    (inRing : k < ring.sectors) (frags : sector.frags = before ++ fragment :: after) :
    rbIncr (4096 * k + (4 + fragsSize before) + 4) fragment.payload.length
        rb.numberOfBytes =
      ring.resume k (4 + fragsSize before + fragment.size) := by
  have bound := fragment_offset frags
  have positive := fragment.size_pos
  have size : fragment.size = 4 + fragment.payload.length := rfl
  have shifted : 4 + fragsSize before + 4 + fragment.payload.length =
      4 + fragsSize before + fragment.size := by omega
  rw [on.bytes_eq, Nat.add_assoc, rbIncr_resume ring _ inRing (by omega), shifted]

section Fetching

variable {rb : RbT} {ring : Geometry} {memory : Memory} {cells : Nat → Option Sector}
  {k : Nat} {sector : Sector}

/-- Fetching at a data header position moves the cursor onto it. -/
theorem fetch_standing (on : OnRing rb ring) (carries : Carries memory ring cells)
    (inRing : k < ring.sectors) (cell : cells k = some sector) {offset : Nat}
    (stands : StandsAt k offset rb.next) (positive : 0 < offset) (room : offset + 4 ≤ 4096) :
    (fetchAndCheckHeader rb 0).Exec ring.region memory []
      (headerStatus memory (ring.sectorAddr k + offset),
        dataWord memory (ring.sectorAddr k + offset),
        { rb with next := 4096 * k + offset }) := by
  rcases stands with here | ⟨rfl, start⟩
  · have fetched := fetch_inside memory on inRing positive room
      0 (by rw [here]; omega)
    rw [← here]
    exact fetched
  · have fetched := fetch_start_next on inRing 0 (by rw [start]; omega)
      (carries.sectorStatus_some inRing cell)
    rw [start] at fetched
    exact fetched

/-- Fetching the header of a fragment. -/
theorem fetch_fragment (on : OnRing rb ring) (carries : Carries memory ring cells)
    (inRing : k < ring.sectors) (cell : cells k = some sector)
    {before after : List Fragment} {fragment : Fragment}
    (frags : sector.frags = before ++ fragment :: after)
    (stands : StandsAt k (4 + fragsSize before) rb.next) :
    (fetchAndCheckHeader rb 0).Exec ring.region memory []
      (.ok, fragment.header, { rb with next := 4096 * k + (4 + fragsSize before) }) := by
  have bound := fragment_offset frags
  have := fragment.size_pos
  have fetched := fetch_standing on carries inRing cell stands (by omega) (by omega)
  rwa [headerStatus, carries.dataWord_fragment inRing cell _ frags,
    fragment.header_good] at fetched

variable (rb) in
/-- Fetching behind the last fragment of a sector that is not full. -/
theorem fetch_end (on : OnRing rb ring) (carries : Carries memory ring cells)
    (inRing : k < ring.sectors) (cell : cells k = some sector)
    (room : sector.isFull = false) (stands : StandsAt k sector.used rb.next) :
    (fetchAndCheckHeader rb 0).Exec ring.region memory []
      (headerStatus memory (ring.sectorAddr k + sector.used),
        dataWord memory (ring.sectorAddr k + sector.used),
        { rb with next := 4096 * k + sector.used }) := by
  rw [Sector.not_isFull_iff] at room
  refine fetch_standing on carries inRing cell stands ?_ (by omega)
  simp only [Sector.used]
  omega

/-- Fetching at the start of an erased sector. -/
theorem fetch_erased (on : OnRing rb ring) (carries : Carries memory ring cells)
    (inRing : k < ring.sectors) (cell : cells k = none) (start : rb.next = 4096 * k) :
    (fetchAndCheckHeader rb 0).Exec ring.region memory [] (.blankHdr, .blank, rb) := by
  have status := carries.sectorStatus_none inRing cell
  have fetched := fetch_start_stop on inRing
    0 (by rw [start]; omega) (by rw [status]; decide)
  rwa [status, dataWord_blank (carries.erased k inRing cell)] at fetched

end Fetching

/-! ## Cursors -/

section Cursors

variable {ring : Geometry} {cells : Nat → Option Sector}

/-- Offsets a cursor may have: the start of an erased sector, a fragment, or the
position behind the last fragment of a sector that is not full. -/
inductive Cursor (ring : Geometry) (cells : Nat → Option Sector) : Nat → Prop
  | erased {k : Nat} (inRing : k < ring.sectors) (cell : cells k = none) :
      Cursor ring cells (4096 * k)
  | fragment {k next : Nat} {sector : Sector} {before after : List Fragment}
      {fragment : Fragment} (inRing : k < ring.sectors) (cell : cells k = some sector)
      (frags : sector.frags = before ++ fragment :: after)
      (stands : StandsAt k (4 + fragsSize before) next) : Cursor ring cells next
  | ended {k next : Nat} {sector : Sector} (inRing : k < ring.sectors)
      (cell : cells k = some sector) (room : sector.isFull = false)
      (stands : StandsAt k sector.used next) : Cursor ring cells next

/-- The first fragment of a sector is a cursor. -/
theorem Cursor.first {k next : Nat} {sector : Sector} {after : List Fragment}
    {fragment : Fragment} (inRing : k < ring.sectors) (cell : cells k = some sector)
    (frags : sector.frags = fragment :: after) (stands : StandsAt k 4 next) :
    Cursor ring cells next :=
  @Cursor.fragment _ _ _ _ _ [] after fragment inRing cell frags stands

/-- Every sector start is a cursor. -/
theorem Cursor.start {k : Nat} (inRing : k < ring.sectors) :
    Cursor ring cells (4096 * k) := by
  cases cell : cells k with
  | none => exact .erased inRing cell
  | some sector =>
      cases frags : sector.frags with
      | nil =>
          have used : sector.used = 4 := by rw [Sector.used, frags, fragsSize_nil]
          refine .ended inRing cell ?_ ?_
          · rw [Sector.not_isFull_iff]
            omega
          · rw [used]
            exact StandsAt.start k
      | cons fragment after =>
          exact .first inRing cell frags (StandsAt.start k)

/-- The position behind a fragment is a cursor. -/
theorem Cursor.behind {k : Nat} {sector : Sector} {before after : List Fragment}
    {fragment : Fragment} (inRing : k < ring.sectors) (cell : cells k = some sector)
    (frags : sector.frags = before ++ fragment :: after) :
    Cursor ring cells (ring.resume k (4 + fragsSize before + fragment.size)) := by
  have offset : 4 + fragsSize before + fragment.size =
      4 + fragsSize (before ++ [fragment]) := by simp [Nat.add_assoc]
  by_cases room : 4 + fragsSize before + fragment.size ≤ 4091
  · rw [ring.resume_of_le room, offset]
    cases after with
    | nil =>
        have used : sector.used = 4 + fragsSize (before ++ [fragment]) := by
          rw [Sector.used, frags]
        refine .ended inRing cell ?_ ?_
        · rw [Sector.not_isFull_iff]
          omega
        · rw [used]
          exact StandsAt.header _ _
    | cons following after =>
        have next : sector.frags = (before ++ [fragment]) ++ following :: after := by
          rw [frags, List.append_assoc, List.singleton_append]
        exact .fragment inRing cell next (StandsAt.header _ _)
  · rw [ring.resume_of_lt (by omega)]
    exact Cursor.start (ring.succ_lt inRing)

theorem Cursor.lt {next : Nat} (cursor : Cursor ring cells next) :
    next < 4096 * ring.sectors := by
  cases cursor with
  | erased inRing _ => exact ring.start_lt inRing
  | fragment inRing _ frags stands =>
      have := fragment_offset frags
      have := Fragment.size_pos ‹Fragment›
      rcases stands with rfl | ⟨_, rfl⟩
      · exact ring.offset_lt inRing (by omega)
      · exact ring.start_lt inRing
  | ended inRing _ room stands =>
      rw [Sector.not_isFull_iff] at room
      rcases stands with rfl | ⟨_, rfl⟩
      · exact ring.offset_lt inRing (by omega)
      · exact ring.start_lt inRing

/-! ## Skipping -/

/-- A walk from one offset to another past fragments that satisfy `skip`, during
which the cursor never comes to `home`. -/
inductive Skips (ring : Geometry) (cells : Nat → Option Sector) (skip : Fragment → Prop)
    (home : Nat) : Nat → Nat → Prop
  | refl (next : Nat) : Skips ring cells skip home next next
  | step {k next final : Nat} {sector : Sector} {before after : List Fragment}
      {fragment : Fragment} (inRing : k < ring.sectors) (cell : cells k = some sector)
      (frags : sector.frags = before ++ fragment :: after)
      (stands : StandsAt k (4 + fragsSize before) next) (skipped : skip fragment)
      (away : ring.resume k (4 + fragsSize before + fragment.size) ≠ home)
      (rest : Skips ring cells skip home
        (ring.resume k (4 + fragsSize before + fragment.size)) final) :
      Skips ring cells skip home next final

variable {skip : Fragment → Prop} {home : Nat}

theorem Skips.trans {left middle right : Nat} (first : Skips ring cells skip home left middle)
    (second : Skips ring cells skip home middle right) :
    Skips ring cells skip home left right := by
  induction first with
  | refl => exact second
  | step inRing cell frags stands skipped away _ ih =>
      exact .step inRing cell frags stands skipped away (ih second)

/-- Where a walk can end. -/
inductive WalkEnd (ring : Geometry) (cells : Nat → Option Sector) (skip : Fragment → Prop)
    (home : Nat) : Nat → Prop
  | erased {k : Nat} (inRing : k < ring.sectors) (cell : cells k = none) :
      WalkEnd ring cells skip home (4096 * k)
  | ended {k next : Nat} {sector : Sector} (inRing : k < ring.sectors)
      (cell : cells k = some sector) (room : sector.isFull = false)
      (stands : StandsAt k sector.used next) : WalkEnd ring cells skip home next
  | lost {k next : Nat} {sector : Sector} {before after : List Fragment}
      {fragment : Fragment} (inRing : k < ring.sectors) (cell : cells k = some sector)
      (frags : sector.frags = before ++ fragment :: after)
      (stands : StandsAt k (4 + fragsSize before) next) (skipped : skip fragment)
      (back : ring.resume k (4 + fragsSize before + fragment.size) = home) :
      WalkEnd ring cells skip home next
  | found {k next : Nat} {sector : Sector} {before after : List Fragment}
      {fragment : Fragment} (inRing : k < ring.sectors) (cell : cells k = some sector)
      (frags : sector.frags = before ++ fragment :: after)
      (stands : StandsAt k (4 + fragsSize before) next) (found : ¬skip fragment) :
      WalkEnd ring cells skip home next

/-- Bytes between a cursor and the sector start `home`, going around the ring. -/
def Geometry.distance (ring : Geometry) (next home : Nat) : Nat :=
  if next < home then home - next else home + 4096 * ring.sectors - next

theorem Geometry.distance_resume (ring : Geometry) {k next offset size home : Nat}
    (inRing : k < ring.sectors) (homeInRing : home < ring.sectors)
    (stands : StandsAt k offset next) (positive : 0 < size) (inside : offset < 4096)
    (away : ring.resume k (offset + size) ≠ 4096 * home) :
    ring.distance (ring.resume k (offset + size)) (4096 * home) <
      ring.distance next (4096 * home) := by
  have low : 4096 * k ≤ next ∧ next ≤ 4096 * k + offset := by
    rcases stands with rfl | ⟨_, rfl⟩ <;> omega
  unfold Geometry.distance
  by_cases room : offset + size ≤ 4091
  · rw [ring.resume_of_le room] at away ⊢
    split <;> split <;> omega
  · rw [ring.resume_of_lt (by omega)] at away ⊢
    rcases ring.succ_cases inRing with ⟨last, succ⟩ | ⟨more, succ⟩
    · rw [succ] at away ⊢
      split <;> split <;> omega
    · rw [succ] at away ⊢
      split <;> split <;> omega

variable (skip) in
/-- Every walk ends. -/
theorem Skips.exists_end {homeSector : Nat} (homeInRing : homeSector < ring.sectors)
    (skips : ∀ fragment, Decidable (skip fragment)) {next : Nat}
    (cursor : Cursor ring cells next) :
    ∃ final, Skips ring cells skip (4096 * homeSector) next final ∧
      WalkEnd ring cells skip (4096 * homeSector) final := by
  induction measure : ring.distance next (4096 * homeSector) using Nat.strongRecOn
    generalizing next with
  | ind distance ih =>
      subst measure
      cases cursor with
      | erased inRing cell => exact ⟨_, .refl _, .erased inRing cell⟩
      | ended inRing cell room stands => exact ⟨_, .refl _, .ended inRing cell room stands⟩
      | @fragment k _ sector before after fragment inRing cell frags stands =>
          have := fragment_offset frags
          have := fragment.size_pos
          by_cases skipped : skip fragment
          · by_cases back : ring.resume k (4 + fragsSize before + fragment.size) =
                4096 * homeSector
            · exact ⟨_, .refl _, .lost inRing cell frags stands skipped back⟩
            · have closer := ring.distance_resume inRing homeInRing stands
                (by omega) (by omega) back
              obtain ⟨final, rest, walkEnd⟩ :=
                ih _ closer (Cursor.behind inRing cell frags) rfl
              exact ⟨final, .step inRing cell frags stands skipped back rest, walkEnd⟩
          · exact ⟨_, .refl _, .found inRing cell frags stands skipped⟩

/-- A walk past a run of fragments of one sector. -/
theorem Skips.run {k next : Nat} {sector : Sector} (before : List Fragment) {run : List Fragment}
    (after : List Fragment)
    (inRing : k < ring.sectors) (cell : cells k = some sector)
    (frags : sector.frags = before ++ run ++ after) (nonempty : run ≠ [])
    (stands : StandsAt k (4 + fragsSize before) next)
    (skipped : ∀ fragment ∈ run, skip fragment)
    (homeSector : Nat)
    (away : ring.resume k (4 + fragsSize (before ++ run)) ≠ 4096 * homeSector) :
    Skips ring cells skip (4096 * homeSector) next
      (ring.resume k (4 + fragsSize (before ++ run))) := by
  induction run generalizing before next with
  | nil => exact absurd rfl nonempty
  | cons fragment run ih =>
      have split : sector.frags = before ++ fragment :: (run ++ after) := by
        rw [frags, List.append_assoc, List.cons_append]
      have offset : 4 + fragsSize before + fragment.size =
          4 + fragsSize (before ++ [fragment]) := by simp [Nat.add_assoc]
      cases run with
      | nil =>
          refine .step inRing cell split stands (skipped fragment (by simp)) ?_ ?_
          · rwa [offset]
          · rw [offset]
            exact .refl _
      | cons following run =>
          have bound := @fragment_offset _ (before ++ [fragment]) (run ++ after) following
            (by rw [frags]; simp)
          have := following.size_pos
          have reached := @Geometry.resume_of_le ring k (4 + fragsSize (before ++ [fragment]))
            (by omega)
          have rest := ih (before ++ [fragment]) (by rw [frags]; simp) (by simp)
            (StandsAt.header _ _) (fun other member => skipped other (by simp [member]))
            (by simpa using away)
          refine .step inRing cell split stands (skipped fragment (by simp)) ?_ ?_
          · rw [offset, reached]
            omega
          · rw [offset, reached]
            simpa using rest

/-- A walk inside one sector, up to a fragment of it. -/
theorem Skips.within {k next homeSector : Nat} {sector : Sector}
    (before : List Fragment) {run after : List Fragment} {fragment : Fragment}
    (inRing : k < ring.sectors)
    (cell : cells k = some sector)
    (frags : sector.frags = before ++ run ++ fragment :: after)
    (stands : StandsAt k (4 + fragsSize before) next)
    (skipped : ∀ fragment ∈ run, skip fragment) :
    ∃ reached, StandsAt k (4 + fragsSize (before ++ run)) reached ∧
      Skips ring cells skip (4096 * homeSector) next reached := by
  cases run with
  | nil => exact ⟨next, by simpa using stands, .refl _⟩
  | cons following run =>
      have bound := fragment_offset frags
      have := fragment.size_pos
      have reached := @Geometry.resume_of_le ring k (4 + fragsSize (before ++ following :: run))
        (by omega)
      refine ⟨_, StandsAt.header _ _, ?_⟩
      rw [← reached]
      refine Skips.run _ _ inRing cell frags (by simp) stands skipped _ ?_
      rw [reached]
      omega

/-! ## Going around the ring -/

/-- The sector `distance` sectors after `start`. -/
def Geometry.ahead (ring : Geometry) (start distance : Nat) : Nat :=
  if start + distance < ring.sectors then start + distance
  else start + distance - ring.sectors

theorem Geometry.ahead_zero (ring : Geometry) {start : Nat} (inRing : start < ring.sectors) :
    ring.ahead start 0 = start := by
  rw [Geometry.ahead, if_pos (by omega), Nat.add_zero]

theorem Geometry.ahead_all (ring : Geometry) (start : Nat) :
    ring.ahead start ring.sectors = start := by
  rw [Geometry.ahead, if_neg (by omega), Nat.add_sub_cancel]

theorem Geometry.ahead_lt (ring : Geometry) {start distance : Nat}
    (inRing : start < ring.sectors) (bound : distance ≤ ring.sectors) :
    ring.ahead start distance < ring.sectors := by
  rw [Geometry.ahead]
  split <;> omega

theorem Geometry.ahead_succ (ring : Geometry) {start : Nat} (distance : Nat)
    (inRing : start < ring.sectors) (bound : distance < ring.sectors) :
    ring.succ (ring.ahead start distance) = ring.ahead start (distance + 1) := by
  simp only [Geometry.ahead, Geometry.succ]
  split <;> split <;> split <;> omega

theorem Geometry.ahead_ahead (ring : Geometry) {start left right : Nat}
    (start_lt : start < ring.sectors) (bound : left + right < ring.sectors) :
    ring.ahead (ring.ahead start left) right = ring.ahead start (left + right) := by
  simp only [Geometry.ahead]
  split <;> split <;> split <;> omega

theorem Geometry.ahead_inj (ring : Geometry) {start left right : Nat}
    (leftBound : left < ring.sectors)
    (rightBound : right < ring.sectors)
    (equal : ring.ahead start left = ring.ahead start right) : left = right := by
  simp only [Geometry.ahead] at equal
  split at equal <;> split at equal <;> omega

/-- Every sector is some way ahead. -/
theorem Geometry.exists_ahead (ring : Geometry) {start k : Nat}
    (inRing : start < ring.sectors) (target : k < ring.sectors) :
    ∃ distance < ring.sectors, ring.ahead start distance = k := by
  by_cases later : start ≤ k
  · exact ⟨k - start, by omega, by rw [Geometry.ahead, if_pos (by omega)]; omega⟩
  · refine ⟨k + ring.sectors - start, by omega, ?_⟩
    rw [Geometry.ahead, if_neg (by omega)]
    omega

/-- The sector slot has no room for another data header. -/
def cellFull : Option Sector → Bool
  | none => false
  | some sector => sector.isFull

theorem cellFull_iff {cell : Option Sector} :
    cellFull cell = true ↔ ∃ sector, cell = some sector ∧ 4091 < sector.used := by
  cases cell with
  | none => simp [cellFull]
  | some sector => simp [cellFull, Sector.isFull]

/-- A walk through a full sector comes to the start of the next one. -/
theorem Skips.sector {k homeSector : Nat} (inRing : k < ring.sectors)
    (full : cellFull (cells k) = true)
    (all : ∀ sector, cells k = some sector → ∀ fragment ∈ sector.frags, skip fragment)
    (away : ring.succ k ≠ homeSector) :
    Skips ring cells skip (4096 * homeSector) (4096 * k) (4096 * ring.succ k) := by
  obtain ⟨sector, cell, used⟩ := cellFull_iff.mp full
  have resumed := ring.resume_of_lt (k := k) used
  have nonempty : sector.frags ≠ [] := by
    intro empty
    rw [Sector.used, empty, fragsSize_nil] at used
    omega
  rw [← resumed]
  refine Skips.run [] [] inRing cell (by simp)
    nonempty (StandsAt.start k) (all sector cell) _ ?_
  change ring.resume k sector.used ≠ _
  rw [resumed]
  omega

/-- A walk through full sectors. -/
theorem Skips.sectors {start : Nat} (inRing : start < ring.sectors) {distance : Nat}
    (bound : distance < ring.sectors)
    (full : ∀ passed < distance, cellFull (cells (ring.ahead start passed)) = true)
    (all : ∀ passed < distance, ∀ sector, cells (ring.ahead start passed) = some sector →
      ∀ fragment ∈ sector.frags, skip fragment) :
    Skips ring cells skip (4096 * start) (4096 * start)
      (4096 * ring.ahead start distance) := by
  induction distance with
  | zero =>
      rw [ring.ahead_zero inRing]
      exact .refl _
  | succ distance ih =>
      have first := ih (by omega) (fun passed before => full passed (by omega))
        fun passed before => all passed (by omega)
      have next := ring.ahead_succ distance inRing (by omega)
      refine first.trans ?_
      rw [← next]
      refine Skips.sector (ring.ahead_lt inRing (by omega)) (full distance (by omega))
        (all distance (by omega)) ?_
      rw [next]
      intro equal
      have := @Geometry.ahead_inj ring _ _ 0 bound (by omega)
        (by rw [equal, ring.ahead_zero inRing])
      omega

end Cursors

end PicoApConfigure.RingBuffer
