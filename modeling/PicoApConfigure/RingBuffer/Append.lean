import PicoApConfigure.RingBuffer.Writeable

/-!
# `rb_append`

An append looks for the write position and places the record there.  When there is
no room and the caller allows it, the oldest sector is erased and the append starts
over.  `Appends` relates the array of sectors before and after, together with the
writes in between; the code realises it on every formed ring.
-/

namespace PicoApConfigure.RingBuffer

open Nor

/-- The sector an append starts its search in and erases when the ring is full. -/
def oldest (ring : Geometry) (cells : Nat → Option Sector) : Nat :=
  oldestSector (indexOf cells) ring.sectors

/-- The index counter after the headers have been scanned. -/
def topOf (ring : Geometry) (cells : Nat → Option Sector) (index : Nat) : Nat :=
  topIndex (indexOf cells) (List.range ring.sectors).reverse index

/-- The outcome of an append whose arguments pass the first check. -/
inductive Appends (ring : Geometry) (request : Request) (eraseIfFull : Bool) :
    (Nat → Option Sector) → Nat → List Op → RbError → (Nat → Option Sector) → Nat → Prop
  /-- The record is placed, or refused and the caller does not allow an erase. -/
  | placed {cells changed : Nat → Option Sector} {index index' k : Nat} {writes : List Op}
      {status : RbError} (frontier : Frontier ring cells (oldest ring cells) k)
      (places : Places ring cells k request (topOf ring cells index) writes status changed
        index')
      (final : status = .wrappedSectorUsed ∨ status = .full → eraseIfFull = false) :
      Appends ring request eraseIfFull cells index writes status changed index'
  /-- Every sector is full and the caller does not allow an erase. -/
  | refused {cells : Nat → Option Sector} {index : Nat} (full : AllFull ring cells)
      (keep : eraseIfFull = false) :
      Appends ring request eraseIfFull cells index [] .hdrLoop cells (topOf ring cells index)
  /-- Every sector is full: the oldest one is erased and written right away. -/
  | overwrite {cells changed : Nat → Option Sector} {index index' : Nat} {writes : List Op}
      {status : RbError} (full : AllFull ring cells) (erases : eraseIfFull = true)
      (places : Places ring (setCell cells (oldest ring cells) none) (oldest ring cells)
        request (topOf ring cells index) writes status changed index') :
      Appends ring request eraseIfFull cells index
        (.erase (ring.sectorAddr (oldest ring cells)) 4096 :: writes) status changed index'
  /-- There is no room for the record: the oldest sector is erased and the append starts
  over. -/
  | retry {cells changed : Nat → Option Sector} {index index' refusedIndex k : Nat}
      {writes : List Op} {status refusal : RbError}
      (frontier : Frontier ring cells (oldest ring cells) k)
      (places : Places ring cells k request (topOf ring cells index) [] refusal cells
        refusedIndex)
      (noRoom : refusal = .wrappedSectorUsed ∨ refusal = .full)
      (erases : eraseIfFull = true)
      (again : Appends ring request eraseIfFull (setCell cells (oldest ring cells) none)
        (topOf ring cells index) writes status changed index') :
      Appends ring request eraseIfFull cells index
        (.erase (ring.sectorAddr (oldest ring cells)) 4096 :: writes) status changed index'

section Append

variable {rb : RbT} {ring : Geometry} {memory : Memory} {cells changed : Nat → Option Sector}
  {request : Request} {eraseIfFull : Bool} {index index' : Nat} {writes : List Op}
  {status : RbError}

theorem oldest_lt (ring : Geometry) (cells : Nat → Option Sector) :
    oldest ring cells < ring.sectors :=
  oldestSector_lt _ ring.sectors_pos

/-- Scanning a second time changes nothing. -/
theorem topOf_topOf (ring : Geometry) (cells : Nat → Option Sector) (index : Nat) :
    topOf ring cells (topOf ring cells index) = topOf ring cells index := by
  apply Nat.le_antisymm
  · refine topIndex_le (Nat.le_refl _) fun k member value used => ?_
    exact le_topIndex_of_mem _ member used
  · exact le_topIndex _ _ _

/-! ## There is always an outcome -/

/-- Number of sectors in use among the first `count`. -/
def usedCount (cells : Nat → Option Sector) : (count : Nat) → Nat
  | 0 => 0
  | count + 1 => usedCount cells count + if (cells count).isSome then 1 else 0

theorem usedCount_setCell_none (cells : Nat → Option Sector) (k count : Nat) :
    usedCount (setCell cells k none) count +
        (if k < count ∧ (cells k).isSome then 1 else 0) = usedCount cells count := by
  induction count with
  | zero => simp [usedCount]
  | succ count ih =>
      simp only [usedCount]
      by_cases equal : count = k
      · subst equal
        rw [setCell_self]
        simp only [Nat.lt_irrefl, false_and, if_false, Nat.lt_succ_self, true_and] at ih ⊢
        simp only [Option.isSome_none, Bool.false_eq_true, if_false]
        omega
      · have bounds : k < count + 1 ↔ k < count := by omega
        simp only [setCell_of_ne _ _ equal, bounds]
        omega

theorem Places.not_full_of_erased {k : Nat} (places : Places ring cells k request index writes
    status changed index') (erased : cells k = none) :
    status ≠ .wrappedSectorUsed ∧ status ≠ .full := by
  cases places with
  | oversize => simp
  | fresh => simp
  | _ => simp_all

/-- A refusal changes nothing. -/
theorem Places.refused {k : Nat} (places : Places ring cells k request index writes status
    changed index') (noRoom : status = .wrappedSectorUsed ∨ status = .full) :
    writes = [] ∧ changed = cells ∧ index' = index := by
  cases places with
  | full => exact ⟨rfl, rfl, rfl⟩
  | wrapped => exact ⟨rfl, rfl, rfl⟩
  | _ => simp at noRoom

/-- Every append has an outcome: each erase leaves one sector less in use. -/
theorem Appends.exists (request : Request) (eraseIfFull : Bool) (cells : Nat → Option Sector)
    (index : Nat) :
    ∃ writes status changed index',
      Appends ring request eraseIfFull cells index writes status changed index' := by
  induction count : usedCount cells ring.sectors using Nat.strongRecOn
    generalizing cells index with
  | ind count ih =>
      subst count
      have inRing := oldest_lt ring cells
      rcases frontier_or_allFull inRing with ⟨k, frontier⟩ | full
      · obtain ⟨writes, status, changed, index', places⟩ :=
          Places.exists ring _ request (topOf ring cells index) frontier.room
        by_cases stuck : (status = .wrappedSectorUsed ∨ status = .full) ∧ eraseIfFull = true
        · obtain ⟨noRoom, erases⟩ := stuck
          obtain ⟨noWrites, kept, keptIndex⟩ := places.refused noRoom
          rw [noWrites, kept, keptIndex] at places
          have used : (cells (oldest ring cells)).isSome := by
            cases cell : cells (oldest ring cells) with
            | some sector => rfl
            | none =>
                have here : Frontier ring cells (oldest ring cells) (oldest ring cells) :=
                  ⟨0, ring.sectors_pos, ring.ahead_zero inRing, by simp [cell, cellFull],
                    fun _ impossible => absurd impossible (Nat.not_lt_zero _)⟩
                rw [frontier.unique here] at places
                have refused := places.not_full_of_erased cell
                rcases noRoom with equal | equal
                · exact absurd equal refused.1
                · exact absurd equal refused.2
          have fewer := usedCount_setCell_none cells (oldest ring cells) ring.sectors
          rw [if_pos ⟨inRing, used⟩] at fewer
          obtain ⟨rest, status', changed', index'', again⟩ :=
            ih _ (by omega) (setCell cells (oldest ring cells) none) (topOf ring cells index)
              rfl
          exact ⟨_, _, _, _, .retry frontier places noRoom erases again⟩
        · refine ⟨_, _, _, _, .placed frontier places fun noRoom => ?_⟩
          cases erases : eraseIfFull with
          | false => rfl
          | true => exact absurd ⟨noRoom, erases⟩ stuck
      · cases erases : eraseIfFull with
        | false => exact ⟨_, _, _, _, .refused full rfl⟩
        | true =>
            obtain ⟨writes, status, changed, index', places⟩ :=
              Places.exists (k := oldest ring cells)
              _ (setCell cells (oldest ring cells) none) request (topOf ring cells index) (by simp)
            exact ⟨_, _, _, _, .overwrite full rfl places⟩

/-! ## What an append leaves in flash -/

theorem replay_erase (holds : RingHolds memory ring cells) (k : Nat) (rest : List Op) :
    RingHolds (eraseRange memory (ring.sectorAddr k) 4096) ring (setCell cells k none) ∧
      replay (.erase (ring.sectorAddr k) 4096 :: rest) memory =
        replay rest (eraseRange memory (ring.sectorAddr k) 4096) :=
  ⟨holds.erase, rfl⟩

theorem Appends.holds (appends : Appends ring request eraseIfFull cells index writes status
    changed index') :
    ∀ {memory : Memory}, RingHolds memory ring cells →
      RingHolds (replay writes memory) ring changed := by
  induction appends with
  | placed frontier places _ =>
      intro memory holds
      exact places.holds holds (frontier.lt (oldest_lt ring _))
  | refused _ _ =>
      intro memory holds
      exact holds
  | overwrite _ _ places =>
      intro memory holds
      exact places.holds holds.erase (oldest_lt ring _)
  | retry _ _ _ _ _ ih =>
      intro memory holds
      exact ih holds.erase

theorem Filled.setCell_none (filled : Filled ring cells) (k : Nat) :
    Filled ring (setCell cells k none) := by
  intro other inRing sector cell
  by_cases equal : other = k
  · subst equal
    simp at cell
  · rw [setCell_of_ne _ _ equal] at cell
    exact filled other inRing sector cell

theorem Filled.setCell_some (filled : Filled ring cells) (k : Nat) {sector : Sector}
    (nonempty : sector.frags ≠ []) : Filled ring (setCell cells k (some sector)) := by
  intro other inRing found cell
  by_cases equal : other = k
  · subst equal
    rw [setCell_self] at cell
    cases cell
    exact nonempty
  · rw [setCell_of_ne _ _ equal] at cell
    exact filled other inRing found cell

theorem Places.filled {k : Nat} (places : Places ring cells k request index writes status
    changed index') (filled : Filled ring cells) : Filled ring changed := by
  cases places with
  | oversize => exact filled
  | full => exact filled
  | wrapped => exact filled
  | fresh => exact filled.setCell_some _ (by simp [Sector.single])
  | inside => exact filled.setCell_some _ (by simp [Sector.push])
  | split =>
      exact (filled.setCell_some _ (by simp [Sector.push])).setCell_some _
        (by simp [Sector.single])
  | exact =>
      exact (filled.setCell_some _ (by simp [Sector.push])).setCell_some _
        (by simp [Sector.single])

theorem Appends.filled (appends : Appends ring request eraseIfFull cells index writes status
    changed index') (filled : Filled ring cells) : Filled ring changed := by
  induction appends with
  | placed _ places _ => exact places.filled filled
  | refused _ _ => exact filled
  | overwrite _ _ places => exact places.filled (filled.setCell_none _)
  | retry _ _ _ _ _ ih => exact ih (filled.setCell_none _)

/-! ## The code realises the outcome -/

variable (rb) (memory) in
private theorem eraseOldest_exec (on : OnRing rb ring) (k : Nat) (inRing : k < ring.sectors)
    (next : rb.next = 4096 * k) :
    (FlashProg.eraseBytes (rb.baseAddress + rb.next) flashSectorSize).Exec ring.region memory
      [.erase (ring.sectorAddr k) 4096] () := by
  have address : rb.baseAddress + rb.next = ring.sectorAddr k := by
    rw [on.base_eq, next, Geometry.sectorAddr]
  rw [address]
  exact FlashProg.Exec.eraseBytes fun query touches => ring.region_of_sector inRing touches

/-- The scan for the oldest sector on a formed ring. -/
theorem findOldest_exec (on : OnRing rb ring) (holds : RingHolds memory ring cells) :
    (rbFindRingOldestSector rb).Exec ring.region memory []
      (entryStatus (indexOf cells 0),
        { rb with
          next := 4096 * oldest ring cells
          sectorIndex := topOf ring cells rb.sectorIndex }) :=
  rbFindRingOldestSector_exec on holds.carries.headersAre fun _ inside => inside

/-- One pass up to the write position. -/
private theorem rbAppendLoop_search (on : OnRing rb ring) (holds : RingHolds memory ring cells)
    {oldnext : Nat} {found : RbError} {next : Nat}
    (search : FlashProg.Completes ring.region (fun fuel => rbFindnextWriteable fuel
      { rb with
        next := 4096 * oldest ring cells
        sectorIndex := topOf ring cells rb.sectorIndex }) memory []
      (found, { rb with next, sectorIndex := topOf ring cells rb.sectorIndex }))
    {value : RbError × RbT}
    (rest : FlashProg.Completes ring.region (fun fuel => appendAtWriteable request.id
      request.data request.size eraseIfFull oldnext fuel (rbAppendLoop request.id request.data
        request.size eraseIfFull oldnext fuel) found
      { rb with next, sectorIndex := topOf ring cells rb.sectorIndex }) memory writes value) :
    FlashProg.Completes ring.region (fun fuel => rbAppendLoop request.id request.data
      request.size eraseIfFull oldnext fuel rb) memory writes value := by
  refine FlashProg.Completes.succ ?_
  simp only [rbAppendLoop]
  refine FlashProg.Completes.bind_read (findOldest_exec on holds) ?_
  have accepted : ¬(entryStatus (indexOf cells 0) ≠ .ok ∧
      entryStatus (indexOf cells 0) ≠ .blankHdr) := by
    rcases entryStatus_eq_ok_or (indexOf cells 0) with equal | equal <;> simp [equal]
  simp only [if_neg accepted]
  exact search.bind rest

variable (rb) (eraseIfFull) in
/-- Placing a record and returning to the caller. -/
private theorem appendAtWriteable_placed (on : OnRing rb ring)
    (holds : RingHolds memory ring cells) (filled : Filled ring cells) {k : Nat}
    (inRing : k < ring.sectors) (room : ∀ sector, cells k = some sector → sector.isFull = false)
    (next : rb.next = 4096 * k + usedBytes (cells k))
    (places : Places ring cells k request rb.sectorIndex writes status changed index')
    (final : status = .wrappedSectorUsed ∨ status = .full → eraseIfFull = false)
    (oldnext : Nat) :
    ∃ rb', OnRing rb' ring ∧ rb'.next = oldnext ∧ rb'.sectorIndex = index' ∧
      ∀ again : Nat → RbT → FlashProg (RbError × RbT), FlashProg.Completes ring.region
        (fun fuel => appendAtWriteable request.id request.data request.size eraseIfFull oldnext
          fuel (again fuel) .blankHdr rb) memory writes (status, rb') := by
  obtain ⟨rb', on', index, exec⟩ := rbSectorAppend_exec on holds filled inRing room next places
    { len := 0, id := request.id, crc := 0 } rfl
  refine ⟨{ rb' with next := oldnext }, ⟨on'.base_eq, on'.bytes_eq⟩, rfl, index,
    fun again => .once fun fuel => ?_⟩
  have returns : ¬((status = .wrappedSectorUsed ∨ status = .full) ∧ eraseIfFull = true) := by
    rintro ⟨noRoom, erases⟩
    rw [final noRoom] at erases
    cases erases
  simp only [appendAtWriteable, reduceCtorEq, false_and, if_false]
  refine FlashProg.Exec.bind_read (FlashProg.Exec.pure _) ?_
  simp only [if_true]
  rw [← List.append_nil writes]
  refine (exec fuel).bind ?_
  simp only [if_neg returns]
  exact FlashProg.Exec.pure _

variable (rb) in
/-- Erasing the oldest sector of a full ring and placing the record there. -/
private theorem appendAtWriteable_overwrite (on : OnRing rb ring)
    (holds : RingHolds memory ring cells) (next : rb.next = 4096 * oldest ring cells)
    (scanned : topOf ring cells rb.sectorIndex = rb.sectorIndex) {oldnext : Nat}
    {again : Nat → RbT → FlashProg (RbError × RbT)} {value : RbError × RbT}
    (rest : FlashProg.Completes ring.region (fun fuel => appendAtWriteable request.id
      request.data request.size true oldnext fuel (again fuel) .blankHdr rb)
      (eraseRange memory (ring.sectorAddr (oldest ring cells)) 4096) writes value) :
    FlashProg.Completes ring.region (fun fuel => appendAtWriteable request.id request.data
      request.size true oldnext fuel (again fuel) .hdrLoop rb) memory
      (.erase (ring.sectorAddr (oldest ring cells)) 4096 :: writes) value := by
  have found := findOldest_exec on holds
  rw [scanned, ← next] at found
  have emptied := eraseOldest_exec _ memory on (oldest ring cells)
    (oldest_lt ring cells) next
  obtain ⟨bound, rest⟩ := rest
  refine ⟨bound, fun fuel enough => ?_⟩
  have rest := rest fuel enough
  simp only [appendAtWriteable, reduceCtorEq, and_true, if_false] at rest
  simp only [appendAtWriteable, and_true, if_true]
  refine FlashProg.Exec.bind_read found ?_
  exact emptied.bind rest

variable (rb) in
/-- Erasing the oldest sector after a refusal and starting over. -/
private theorem appendAtWriteable_retry (on : OnRing rb ring)
    (holds : RingHolds memory ring cells) (filled : Filled ring cells) {k : Nat}
    (inRing : k < ring.sectors) (room : ∀ sector, cells k = some sector → sector.isFull = false)
    (next : rb.next = 4096 * k + usedBytes (cells k)) {refusal : RbError}
    (places : Places ring cells k request rb.sectorIndex [] refusal cells index')
    (noRoom : refusal = .wrappedSectorUsed ∨ refusal = .full)
    (scanned : topOf ring cells rb.sectorIndex = rb.sectorIndex) (oldnext : Nat) :
    ∃ rb', OnRing rb' ring ∧ rb'.sectorIndex = rb.sectorIndex ∧
      ∀ (again : Nat → RbT → FlashProg (RbError × RbT)) (value : RbError × RbT),
        FlashProg.Completes ring.region (fun fuel => again fuel rb')
          (eraseRange memory (ring.sectorAddr (oldest ring cells)) 4096) writes value →
        FlashProg.Completes ring.region (fun fuel => appendAtWriteable request.id request.data
          request.size true oldnext fuel (again fuel) .blankHdr rb) memory
          (.erase (ring.sectorAddr (oldest ring cells)) 4096 :: writes) value := by
  have kept := (places.refused noRoom).2.2
  obtain ⟨rb', on', index, exec⟩ := rbSectorAppend_exec on holds filled inRing room next places
    { len := 0, id := request.id, crc := 0 } rfl
  have found := findOldest_exec on' holds
  rw [index, kept, scanned] at found
  refine ⟨{ rb' with next := 4096 * oldest ring cells, sectorIndex := rb.sectorIndex },
    ⟨on'.base_eq, on'.bytes_eq⟩, rfl, fun again value rest => ?_⟩
  have emptied := eraseOldest_exec
    { rb' with next := 4096 * oldest ring cells, sectorIndex := rb.sectorIndex } memory
    ⟨on'.base_eq, on'.bytes_eq⟩ (oldest ring cells) (oldest_lt ring cells) rfl
  have placed : FlashProg.Completes ring.region (fun fuel => rbSectorAppend fuel rb
      { len := 0, id := request.id, crc := 0 } request.data request.size) memory []
      (refusal, rb') := .once exec
  simp only [appendAtWriteable, reduceCtorEq, and_true, if_false]
  refine FlashProg.Completes.bind_read (FlashProg.Exec.pure _) ?_
  simp only [if_true]
  refine placed.bind ?_
  simp only [if_pos noRoom]
  refine FlashProg.Completes.bind_read found ?_
  exact emptied.completes.bind rest

private theorem rbAppendLoop_completes {oldnext : Nat}
    (appends : Appends ring request eraseIfFull cells index writes status changed index') :
    ∀ (rb : RbT) {memory : Memory}, OnRing rb ring → rb.sectorIndex = index →
      RingHolds memory ring cells → Filled ring cells →
      ∃ rb', OnRing rb' ring ∧ rb'.next = oldnext ∧ rb'.sectorIndex = index' ∧
        FlashProg.Completes ring.region
          (fun fuel => rbAppendLoop request.id request.data request.size eraseIfFull oldnext
            fuel rb) memory writes (status, rb') := by
  induction appends with
  | @placed cells changed index index' k writes status frontier places final =>
      intro rb memory on indexed holds filled
      subst indexed
      have search := rbFindnextWriteable_completes
        { rb with
          next := 4096 * oldest ring cells
          sectorIndex := topOf ring cells rb.sectorIndex } ⟨on.base_eq, on.bytes_eq⟩ holds
          (oldest_lt ring cells) rfl frontier
      obtain ⟨rb', on', next, index, completes⟩ := appendAtWriteable_placed
        { rb with
          next := 4096 * k + usedBytes (cells k)
          sectorIndex := topOf ring cells rb.sectorIndex } _ ⟨on.base_eq, on.bytes_eq⟩ holds filled
          (frontier.lt (oldest_lt ring cells))
        frontier.room rfl places final oldnext
      exact ⟨rb', on', next, index, rbAppendLoop_search on holds search (completes _)⟩
  | @refused cells index full keep =>
      intro rb memory on indexed holds filled
      subst indexed
      have search := rbFindnextWriteable_loop_completes
        { rb with
          next := 4096 * oldest ring cells
          sectorIndex := topOf ring cells rb.sectorIndex } ⟨on.base_eq, on.bytes_eq⟩ holds
          (oldest_lt ring cells) rfl full
      refine ⟨{ rb with
        next := oldnext
        sectorIndex := topOf ring cells rb.sectorIndex }, ⟨on.base_eq, on.bytes_eq⟩, rfl, rfl,
        rbAppendLoop_search on holds search ?_⟩
      simp only [appendAtWriteable, keep]
      exact (FlashProg.Exec.pure _).completes
  | @overwrite cells changed index index' writes status full erases places =>
      intro rb memory on indexed holds filled
      subst indexed
      have inRing := oldest_lt ring cells
      have search := rbFindnextWriteable_loop_completes
        { rb with
          next := 4096 * oldest ring cells
          sectorIndex := topOf ring cells rb.sectorIndex } ⟨on.base_eq, on.bytes_eq⟩ holds inRing
          rfl full
      obtain ⟨rb', on', next, index, completes⟩ := appendAtWriteable_placed
        { rb with
          next := 4096 * oldest ring cells
          sectorIndex := topOf ring cells rb.sectorIndex } true ⟨on.base_eq, on.bytes_eq⟩
          holds.erase (filled.setCell_none _) inRing (by simp)
        (by rw [setCell_self]; rfl) places (by
          have refused := places.not_full_of_erased (setCell_self _ _ _)
          rintro (equal | equal)
          · exact absurd equal refused.1
          · exact absurd equal refused.2) oldnext
      subst erases
      refine ⟨rb', on', next, index, rbAppendLoop_search on holds search ?_⟩
      exact appendAtWriteable_overwrite
        { rb with
          next := 4096 * oldest ring cells
          sectorIndex := topOf ring cells rb.sectorIndex } ⟨on.base_eq, on.bytes_eq⟩ holds rfl
          (topOf_topOf ring cells _)
        (completes fun fuel => rbAppendLoop request.id request.data request.size true oldnext
          fuel)
  | @retry cells changed index index' refusedIndex k writes status refusal frontier places noRoom
      erases _ ih =>
      intro rb memory on indexed holds filled
      subst indexed
      subst erases
      have search := rbFindnextWriteable_completes
        { rb with
          next := 4096 * oldest ring cells
          sectorIndex := topOf ring cells rb.sectorIndex } ⟨on.base_eq, on.bytes_eq⟩ holds
          (oldest_lt ring cells) rfl frontier
      obtain ⟨rb', on', index, retried⟩ := appendAtWriteable_retry
        { rb with
          next := 4096 * k + usedBytes (cells k)
          sectorIndex := topOf ring cells rb.sectorIndex } ⟨on.base_eq, on.bytes_eq⟩ holds filled
          (frontier.lt (oldest_lt ring cells))
        frontier.room rfl places noRoom (topOf_topOf ring cells _) oldnext
      obtain ⟨final, onFinal, nextFinal, indexFinal, completes⟩ :=
        ih _ on' index holds.erase (filled.setCell_none _)
      exact ⟨final, onFinal, nextFinal, indexFinal,
        rbAppendLoop_search on holds search (retried _ _ completes)⟩

/-- The arguments `rb_append` accepts. -/
def Request.Fits (request : Request) (ring : Geometry) : Prop :=
  request.size + 4 ≤ 4096 * ring.sectors

theorem Request.fits_of_short (request : Request) (ring : Geometry)
    (short : request.size ≤ 4088) : request.Fits ring := by
  have := ring.sectors_pos
  simp only [Request.Fits]
  omega

variable (request) in
/-- An append runs as `Appends` says. -/
theorem rbAppend_completes (on : OnRing rb ring) (holds : RingHolds memory ring cells)
    (filled : Filled ring cells) (fits : request.Fits ring)
    (appends : Appends ring request eraseIfFull cells rb.sectorIndex writes status changed
      index') (pagebuffer : Memory) :
    ∃ rb', OnRing rb' ring ∧ rb'.next = rb.next ∧ rb'.sectorIndex = index' ∧
      FlashProg.Completes ring.region (fun fuel => rbAppend fuel rb request.id request.data
        request.size pagebuffer eraseIfFull) memory writes (status, rb') := by
  obtain ⟨rb', on', next, index, completes⟩ := rbAppendLoop_completes
    appends { rb with rbPage := pagebuffer } ⟨on.base_eq, on.bytes_eq⟩ rfl holds filled
  have accepted : ¬(request.size = 0 ∨ request.id = 0xff ∨
      request.size > rb.numberOfBytes - headerSize) := by
    have := request.size_pos
    simp only [Request.Fits] at fits
    simp only [on.bytes_eq, headerSize]
    rintro (zero | blank | large)
    · omega
    · exact request.id_ne blank
    · omega
  refine ⟨rb', on', next, index, ?_⟩
  simp only [rbAppend, if_neg accepted]
  exact completes

end Append

end PicoApConfigure.RingBuffer
