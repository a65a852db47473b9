import PicoApConfigure.RingBuffer.Append

/-!
# Rings in order

The rings the code writes are logs: from the oldest sector on the sectors in use
follow each other with increasing indices, all but the newest one are full, and the
rest of the ring is erased.  An append extends the log at its end and, when the ring
is full, drops the oldest sector first.
-/

namespace PicoApConfigure.RingBuffer

open Nor

/-- The array of sectors is the log `log`, which starts in sector `start`. -/
structure Ordered (ring : Geometry) (cells : Nat → Option Sector) (start : Nat)
    (log : List Sector) : Prop where
  start_lt : start < ring.sectors
  length_le : log.length ≤ ring.sectors
  cell : ∀ distance < ring.sectors, cells (ring.ahead start distance) = log[distance]?
  ascending : log.Pairwise fun older newer => older.index < newer.index
  bounded : ∀ sector ∈ log, sector.index < rbIndexMask
  closed : ∀ sector ∈ log.dropLast, sector.isFull = true
  nonempty : ∀ sector ∈ log, sector.frags ≠ []
  blank : log = [] → start = 0

/-- The log grows by one record: the writes and the new log.  `index` is the index a new
sector gets. -/
inductive Grows (ring : Geometry) (start : Nat) (request : Request) (index : Nat) :
    List Sector → List Op → List Sector → Prop
  | fresh {log : List Sector} (short : request.size ≤ 4088)
      (room : log.length < ring.sectors)
      (closed : ∀ sector ∈ log, sector.isFull = true) :
      Grows ring start request index log
        (openWrites ring (ring.ahead start log.length) index (request.whole short).header
          (request.whole short).payload)
        (log ++ [Sector.single index (request.whole short)])
  | inside {older : List Sector} {newest : Sector} (short : request.size ≤ 4088)
      (room : request.size + 4 < 4096 - newest.used)
      (fits : newest.used + (request.whole short).size ≤ 4096) :
      Grows ring start request index (older ++ [newest])
        (putWrites ring (ring.ahead start older.length) newest.used
          (request.whole short).header (request.whole short).payload)
        (older ++ [newest.push (request.whole short) fits])
  | split {older : List Sector} {newest : Sector} (short : request.size ≤ 4088)
      (spills : 4096 - newest.used < request.size + 4)
      (erased : older.length + 1 < ring.sectors) {first second : Nat}
      (sizes : first + second = request.size)
      (filled : newest.used + 4 + first = 4096) (firstPos : 0 < first)
      (secondPos : 0 < second) (firstShort : first ≤ 4088) (secondShort : second ≤ 4088)
      (fits : newest.used + (request.head first firstPos firstShort).size ≤ 4096) :
      Grows ring start request index (older ++ [newest])
        (putWrites ring (ring.ahead start older.length) newest.used
            (request.head first firstPos firstShort).header
            (request.head first firstPos firstShort).payload ++
          openWrites ring (ring.ahead start (older.length + 1)) index
            (request.tail second secondPos secondShort).header
            (request.tail second secondPos secondShort).payload)
        (older ++ [newest.push (request.head first firstPos firstShort) fits,
          Sector.single index (request.tail second secondPos secondShort)])
  | exact {older : List Sector} {newest : Sector} (short : request.size ≤ 4088)
      (filled : newest.used + 4 + request.size = 4096)
      (erased : older.length + 1 < ring.sectors)
      (fits : newest.used + (request.whole short).size ≤ 4096) :
      Grows ring start request index (older ++ [newest])
        (putWrites ring (ring.ahead start older.length) newest.used
            (request.whole short).header (request.whole short).payload ++
          openWrites ring (ring.ahead start (older.length + 1)) index
            (request.phantom short).header [])
        (older ++ [newest.push (request.whole short) fits,
          Sector.single index (request.phantom short)])

/-- Outcome of an append on the log: the writes, the status, and where the log starts and
what it is afterwards. -/
inductive LogAppends (ring : Geometry) (request : Request) (eraseIfFull : Bool)
    (index start : Nat) (log : List Sector) :
    List Op → RbError → Nat → List Sector → Prop
  | refused {status : RbError} (failed : status ≠ .ok) (keep : eraseIfFull = false)
      (used : log.length = ring.sectors) :
      LogAppends ring request eraseIfFull index start log [] status start log
  /-- The record is longer than any sector can hold. -/
  | rejected (long : 4088 < request.size) :
      LogAppends ring request eraseIfFull index start log [] .badCallerData start log
  /-- The same on a full ring: the oldest sector is erased all the same. -/
  | dropped {first : Sector} {rest : List Sector} (long : 4088 < request.size)
      (erases : eraseIfFull = true) (used : log.length = ring.sectors)
      (split : log = first :: rest) :
      LogAppends ring request eraseIfFull index start log [.erase (ring.sectorAddr start) 4096]
        .badCallerData (ring.ahead start 1) rest
  | grown {writes : List Op} {changed : List Sector}
      (grows : Grows ring start request index log writes changed) :
      LogAppends ring request eraseIfFull index start log writes .ok start changed
  | replaced {writes : List Op} {first : Sector} {rest changed : List Sector}
      (erases : eraseIfFull = true) (used : log.length = ring.sectors)
      (split : log = first :: rest)
      (grows : Grows ring (ring.ahead start 1) request index rest writes changed) :
      LogAppends ring request eraseIfFull index start log
        (.erase (ring.sectorAddr start) 4096 :: writes) .ok (ring.ahead start 1) changed

section Ordered

variable {ring : Geometry} {cells : Nat → Option Sector} {start : Nat} {log : List Sector}

/-- Where the cells of an ordered ring come from. -/
theorem Ordered.mem_of_cell (ordered : Ordered ring cells start log) {k : Nat}
    (inRing : k < ring.sectors) {sector : Sector} (used : cells k = some sector) :
    ∃ distance < log.length, ring.ahead start distance = k ∧ log[distance]? = some sector := by
  obtain ⟨distance, bound, rfl⟩ := ring.exists_ahead ordered.start_lt inRing
  rw [ordered.cell distance bound] at used
  exact ⟨distance, (List.getElem?_eq_some_iff.mp used).1, rfl, used⟩

theorem Ordered.filled (ordered : Ordered ring cells start log) : Filled ring cells := by
  intro k inRing sector used
  obtain ⟨distance, _, _, found⟩ := ordered.mem_of_cell inRing used
  exact ordered.nonempty sector (List.mem_of_getElem? found)

/-- The scan finds the start of the log. -/
theorem Ordered.oldest_eq (ordered : Ordered ring cells start log) :
    oldest ring cells = start := by
  have positive := ring.sectors_pos
  rcases oldestSector_spec (indexOf cells) ring.sectors with
    ⟨zero, above⟩ | ⟨index, bound, found, low, least⟩
  · cases equal : log with
    | nil => rw [oldest, zero, ordered.blank equal]
    | cons first rest =>
        have used : cells start = some first := by
          have cell := ordered.cell 0 positive
          rwa [ring.ahead_zero ordered.start_lt, equal] at cell
        have large := above start ordered.start_lt first.index (by simp [indexOf, used])
        have small := ordered.bounded first (by simp [equal])
        omega
  · obtain ⟨sector, used, sameIndex⟩ : ∃ sector,
        cells (oldest ring cells) = some sector ∧ sector.index = index := by
      simpa [indexOf, oldest] using found
    obtain ⟨distance, before, place, entry⟩ := ordered.mem_of_cell bound used
    cases distance with
    | zero => rw [oldest, ← place, ring.ahead_zero ordered.start_lt]
    | succ distance =>
        have first : log[0]? = some log[0] := List.getElem?_eq_getElem (by omega)
        have older : log[0].index < sector.index := by
          have sorted := List.pairwise_iff_getElem.mp ordered.ascending 0 (distance + 1)
            (by omega) before (by omega)
          have equal := (List.getElem?_eq_some_iff.mp entry).2
          rwa [equal] at sorted
        have cell := ordered.cell 0 positive
        rw [ring.ahead_zero ordered.start_lt, first] at cell
        have := least start ordered.start_lt log[0].index (by simp [indexOf, cell])
        omega

/-- No sector of the ring has an index above the scanned one. -/
theorem Ordered.index_le_top (ordered : Ordered ring cells start log) (cached : Nat)
    {sector : Sector} (member : sector ∈ log) : sector.index ≤ topOf ring cells cached := by
  obtain ⟨distance, bound, found⟩ := List.getElem_of_mem member
  have inRing : distance < ring.sectors := Nat.lt_of_lt_of_le bound ordered.length_le
  have cell := ordered.cell distance inRing
  rw [List.getElem?_eq_getElem bound, found] at cell
  refine le_topIndex_of_mem cached (k := ring.ahead start distance) ?_
    (by simp [indexOf, cell])
  rw [List.mem_reverse, List.mem_range]
  exact ring.ahead_lt ordered.start_lt (Nat.le_of_lt inRing)

theorem Ordered.top_le (ordered : Ordered ring cells start log) {cached bound : Nat}
    (cachedLe : cached ≤ bound) (below : ∀ sector ∈ log, sector.index ≤ bound) :
    topOf ring cells cached ≤ bound := by
  refine topIndex_le cachedLe fun k member index found => ?_
  obtain ⟨sector, used, rfl⟩ : ∃ sector, cells k = some sector ∧ sector.index = index := by
    simpa [indexOf] using found
  rw [List.mem_reverse, List.mem_range] at member
  obtain ⟨distance, _, _, entry⟩ := ordered.mem_of_cell member used
  exact below sector (List.mem_of_getElem? entry)

/-! ## The end of the log -/

theorem Ordered.full_before (ordered : Ordered ring cells start log) {distance : Nat}
    (before : distance + 1 < log.length) :
    cellFull (cells (ring.ahead start distance)) = true := by
  have inRing : distance < ring.sectors := by have := ordered.length_le; omega
  rw [ordered.cell distance inRing, List.getElem?_eq_getElem (by omega)]
  have kept : distance < log.dropLast.length := by
    rw [List.length_dropLast]
    omega
  have member := List.getElem_mem kept
  rw [List.getElem_dropLast] at member
  exact ordered.closed _ member

/-- A newest sector with room is the frontier. -/
theorem Ordered.frontier_newest {older : List Sector} {newest : Sector}
    (ordered : Ordered ring cells start (older ++ [newest]))
    (room : newest.isFull = false) :
    Frontier ring cells start (ring.ahead start older.length) ∧
      cells (ring.ahead start older.length) = some newest := by
  have bound : older.length < ring.sectors := by
    have := ordered.length_le
    rw [List.length_append, List.length_singleton] at this
    omega
  have used := ordered.cell older.length bound
  rw [List.getElem?_concat_length] at used
  refine ⟨⟨older.length, bound, rfl, by rw [used]; exact room, fun passed before => ?_⟩, used⟩
  refine ordered.full_before ?_
  rw [List.length_append, List.length_singleton]
  omega

theorem Ordered.full_all (ordered : Ordered ring cells start log)
    (closed : ∀ sector ∈ log, sector.isFull = true) {distance : Nat}
    (bound : distance < log.length) :
    cellFull (cells (ring.ahead start distance)) = true := by
  have inRing : distance < ring.sectors := Nat.lt_of_lt_of_le bound ordered.length_le
  rw [ordered.cell distance inRing, List.getElem?_eq_getElem bound]
  exact closed _ (List.getElem_mem bound)

/-- When the newest sector is full, the frontier is the erased sector behind it. -/
theorem Ordered.frontier_erased (ordered : Ordered ring cells start log)
    (closed : ∀ sector ∈ log, sector.isFull = true) (room : log.length < ring.sectors) :
    Frontier ring cells start (ring.ahead start log.length) ∧
      cells (ring.ahead start log.length) = none := by
  have erased := ordered.cell log.length room
  rw [List.getElem?_eq_none (Nat.le_refl _)] at erased
  exact ⟨⟨log.length, room, rfl, by rw [erased]; rfl,
    fun passed before => ordered.full_all closed before⟩, erased⟩

theorem Ordered.allFull (ordered : Ordered ring cells start log)
    (closed : ∀ sector ∈ log, sector.isFull = true) (all : log.length = ring.sectors) :
    AllFull ring cells := by
  intro k inRing
  obtain ⟨distance, bound, rfl⟩ := ring.exists_ahead ordered.start_lt inRing
  exact ordered.full_all closed (by omega)

/-- The sector behind the newest one is erased unless the ring is used up. -/
theorem Ordered.next_erased {older : List Sector} {newest : Sector}
    (ordered : Ordered ring cells start (older ++ [newest])) :
    cells (ring.succ (ring.ahead start older.length)) = none ↔
      older.length + 1 < ring.sectors := by
  have length := ordered.length_le
  rw [List.length_append, List.length_singleton] at length
  rw [ring.ahead_succ _ ordered.start_lt (by omega)]
  constructor
  · intro erased
    by_contra last
    have all : older.length + 1 = ring.sectors := by omega
    have first := ordered.cell 0 ring.sectors_pos
    rw [ring.ahead_zero ordered.start_lt, List.getElem?_eq_getElem (by simp)] at first
    rw [all, ring.ahead_all, first] at erased
    cases erased
  · intro room
    rw [ordered.cell _ room, List.getElem?_eq_none (by simp)]

/-! ## Changing the log -/

/-- Changing the newest sector. -/
theorem Ordered.set_newest {older : List Sector} {newest changed : Sector}
    (ordered : Ordered ring cells start (older ++ [newest]))
    (sameIndex : changed.index = newest.index) (filled : changed.frags ≠ []) :
    Ordered ring (setCell cells (ring.ahead start older.length) (some changed)) start
      (older ++ [changed]) := by
  have length := ordered.length_le
  rw [List.length_append, List.length_singleton] at length
  refine ⟨ordered.start_lt, by simpa using length, fun distance bound => ?_, ?_, ?_, ?_, ?_,
    by simp⟩
  · by_cases here : distance = older.length
    · subst here
      rw [setCell_self, List.getElem?_concat_length]
    · rw [setCell_of_ne _ _ fun equal => here (ring.ahead_inj bound (by omega) equal),
        ordered.cell distance bound]
      by_cases before : distance < older.length
      · rw [List.getElem?_append_left before, List.getElem?_append_left before]
      · rw [List.getElem?_eq_none (by simp; omega), List.getElem?_eq_none (by simp; omega)]
  · have ascending := ordered.ascending
    rw [List.pairwise_append] at ascending ⊢
    refine ⟨ascending.1, List.pairwise_singleton _ _, fun sector member last final => ?_⟩
    rw [List.mem_singleton] at final
    subst final
    rw [sameIndex]
    exact ascending.2.2 sector member newest (by simp)
  · intro sector member
    rcases List.mem_append.mp member with old | last
    · exact ordered.bounded sector (by simp [old])
    · rw [List.mem_singleton] at last
      subst last
      rw [sameIndex]
      exact ordered.bounded newest (by simp)
  · have closed := ordered.closed
    rwa [List.dropLast_concat] at closed ⊢
  · intro sector member
    rcases List.mem_append.mp member with old | last
    · exact ordered.nonempty sector (by simp [old])
    · rw [List.mem_singleton] at last
      subst last
      exact filled

/-- Adding a sector behind full ones. -/
theorem Ordered.extend (ordered : Ordered ring cells start log)
    (closed : ∀ sector ∈ log, sector.isFull = true) (room : log.length < ring.sectors)
    {added : Sector} (newest : ∀ sector ∈ log, sector.index < added.index)
    (bounded : added.index < rbIndexMask) (filled : added.frags ≠ []) :
    Ordered ring (setCell cells (ring.ahead start log.length) (some added)) start
      (log ++ [added]) := by
  refine ⟨ordered.start_lt, by rw [List.length_append, List.length_singleton]; omega,
    fun distance bound => ?_, ?_, ?_, ?_, ?_, by simp⟩
  · by_cases here : distance = log.length
    · subst here
      rw [setCell_self, List.getElem?_concat_length]
    · rw [setCell_of_ne _ _ fun equal => here (ring.ahead_inj bound room equal),
        ordered.cell distance bound]
      by_cases before : distance < log.length
      · rw [List.getElem?_append_left before]
      · rw [List.getElem?_eq_none (by omega), List.getElem?_eq_none (by simp; omega)]
  · rw [List.pairwise_append]
    refine ⟨ordered.ascending, List.pairwise_singleton _ _, fun sector member last final => ?_⟩
    rw [List.mem_singleton] at final
    subst final
    exact newest sector member
  · intro sector member
    rcases List.mem_append.mp member with old | last
    · exact ordered.bounded sector old
    · rw [List.mem_singleton] at last
      subst last
      exact bounded
  · rwa [List.dropLast_concat]
  · intro sector member
    rcases List.mem_append.mp member with old | last
    · exact ordered.nonempty sector old
    · rw [List.mem_singleton] at last
      subst last
      exact filled

theorem Geometry.ahead_one_ahead (ring : Geometry) {start distance : Nat}
    (inRing : start < ring.sectors) (bound : distance < ring.sectors) :
    ring.ahead (ring.ahead start 1) distance = ring.ahead start (distance + 1) := by
  simp only [Geometry.ahead]
  split <;> split <;> split <;> omega

/-- Erasing the oldest sector of a ring that is used up. -/
theorem Ordered.drop {first : Sector} {rest : List Sector}
    (ordered : Ordered ring cells start (first :: rest))
    (all : (first :: rest).length = ring.sectors) :
    Ordered ring (setCell cells start none) (ring.ahead start 1) rest := by
  have inRing := ordered.start_lt
  have positive := ring.sectors_pos
  rw [List.length_cons] at all
  refine ⟨ring.ahead_lt inRing (by omega), by omega, fun distance bound => ?_,
    (List.pairwise_cons.mp ordered.ascending).2,
    fun sector member => ordered.bounded sector (by simp [member]), ?_,
    fun sector member => ordered.nonempty sector (by simp [member]), ?_⟩
  · rw [ring.ahead_one_ahead inRing bound]
    by_cases last : distance + 1 = ring.sectors
    · rw [last, ring.ahead_all, setCell_self, List.getElem?_eq_none (by omega)]
    · have elsewhere : ring.ahead start (distance + 1) ≠ start := by
        intro equal
        have := @Geometry.ahead_inj ring _ (distance + 1) 0 (by omega) (by omega)
          (by rw [equal, ring.ahead_zero inRing])
        omega
      rw [setCell_of_ne _ _ elsewhere, ordered.cell _ (by omega), List.getElem?_cons_succ]
  · intro sector member
    refine ordered.closed sector ?_
    cases rest with
    | nil => simp at member
    | cons second rest =>
        rw [List.dropLast_cons_cons]
        exact List.mem_cons_of_mem _ member
  · intro empty
    subst empty
    simp only [List.length_nil, Nat.zero_add] at all
    rw [Geometry.ahead, if_neg (by omega)]
    omega

/-! ## Appending -/

variable {request : Request} {eraseIfFull : Bool} {writes : List Op} {status : RbError}
  {changed : Nat → Option Sector} {top index index' : Nat}

/-- Either the newest sector has room, or the log ends with a full sector. -/
theorem Ordered.newest_cases (ordered : Ordered ring cells start log) :
    (∀ sector ∈ log, sector.isFull = true) ∨
      ∃ older newest, log = older ++ [newest] ∧ newest.isFull = false := by
  rcases List.eq_nil_or_concat log with rfl | ⟨older, newest, rfl⟩
  · exact .inl fun sector member => absurd member List.not_mem_nil
  · rw [List.concat_eq_append] at ordered ⊢
    cases room : newest.isFull with
    | false => exact .inr ⟨older, newest, rfl, room⟩
    | true =>
        left
        intro sector member
        rcases List.mem_append.mp member with old | last
        · exact ordered.closed sector (by rwa [List.dropLast_concat])
        · rw [List.mem_singleton] at last
          subst last
          exact room

theorem nextIndex_eq {bound : Nat} (small : bound + 1 < rbIndexMask) :
    nextIndex bound = bound + 1 := by
  simp only [rbIndexMask] at small
  exact Nat.mod_eq_of_lt (by omega)

/-- Placing a record behind full sectors. -/
private theorem Ordered.place_erased (ordered : Ordered ring cells start log)
    (closed : ∀ sector ∈ log, sector.isFull = true) (room : log.length < ring.sectors)
    (above : ∀ sector ∈ log, sector.index ≤ top) (small : top + 1 < rbIndexMask)
    (short : request.size ≤ 4088)
    (places : Places ring cells (ring.ahead start log.length) request top writes status changed
      index') :
    status = .ok ∧ index' = top + 1 ∧ ∃ log',
      Grows ring start request (top + 1) log writes log' ∧ Ordered ring changed start log' := by
  have erased := (ordered.frontier_erased closed room).2
  have next := nextIndex_eq small
  cases places with
  | oversize long => omega
  | fresh _ _ =>
      rw [next]
      refine ⟨rfl, rfl, _, .fresh short room closed, ?_⟩
      refine ordered.extend closed room (fun sector member => ?_) ?_ (by simp [Sector.single])
      · have := above sector member
        simp only [rbIndexMask] at small
        simp only [Sector.single]
        omega
      · simp only [rbIndexMask] at small ⊢
        simp only [Sector.single]
        omega
  | inside _ cell => rw [erased] at cell; cases cell
  | split _ cell => rw [erased] at cell; cases cell
  | exact _ cell => rw [erased] at cell; cases cell
  | full _ cell => rw [erased] at cell; cases cell
  | wrapped _ cell => rw [erased] at cell; cases cell

/-- Filling the newest sector and starting the next one. -/
private theorem Ordered.fill_extend {older : List Sector} {newest filled added : Sector}
    (ordered : Ordered ring cells start (older ++ [newest]))
    (sameIndex : filled.index = newest.index) (carries : filled.frags ≠ [])
    (full : filled.isFull = true) (room : older.length + 1 < ring.sectors)
    (above : ∀ sector ∈ older ++ [newest], sector.index < added.index)
    (bounded : added.index < rbIndexMask) (nonempty : added.frags ≠ []) :
    Ordered ring (setCell (setCell cells (ring.ahead start older.length) (some filled))
      (ring.ahead start (older.length + 1)) (some added)) start (older ++ [filled, added]) := by
  have closed : ∀ sector ∈ older ++ [filled], sector.isFull = true := by
    intro sector member
    rcases List.mem_append.mp member with old | last
    · exact ordered.closed sector (by rwa [List.dropLast_concat])
    · rw [List.mem_singleton] at last
      subst last
      exact full
  have grown := (ordered.set_newest sameIndex carries).extend closed
    (by rw [List.length_append, List.length_singleton]; exact room)
    (fun sector member => by
      rcases List.mem_append.mp member with old | last
      · exact above sector (by simp [old])
      · rw [List.mem_singleton] at last
        subst last
        rw [sameIndex]
        exact above newest (by simp)) bounded nonempty
  rw [List.length_append, List.length_singleton, List.append_assoc,
    List.singleton_append] at grown
  exact grown

/-- Placing a record behind the last fragment of the newest sector. -/
private theorem Ordered.place_newest {older : List Sector} {newest : Sector}
    (ordered : Ordered ring cells start (older ++ [newest]))
    (notFull : newest.isFull = false)
    (above : ∀ sector ∈ older ++ [newest], sector.index ≤ top)
    (small : top + 1 < rbIndexMask) (short : request.size ≤ 4088)
    (places : Places ring cells (ring.ahead start older.length) request top writes status
      changed index') :
    (status = .ok ∧ top ≤ index' ∧ index' ≤ top + 1 ∧ ∃ log',
      Grows ring start request (top + 1) (older ++ [newest]) writes log' ∧
        Ordered ring changed start log') ∨
    ((status = .wrappedSectorUsed ∨ status = .full) ∧ writes = [] ∧ changed = cells ∧
      index' = top ∧ (older ++ [newest]).length = ring.sectors) := by
  obtain ⟨_, used⟩ := ordered.frontier_newest notFull
  have next := nextIndex_eq small
  have length := ordered.length_le
  have sameSector : ∀ {sector : Sector},
      cells (ring.ahead start older.length) = some sector → sector = newest := by
    intro sector cell
    rw [used] at cell
    exact (Option.some.inj cell).symm
  have bounds : ∀ fragment, (Sector.single (top + 1) fragment).index = top + 1 := by
    intro fragment
    simp only [rbIndexMask] at small
    simp only [Sector.single]
    omega
  rw [List.length_append, List.length_singleton] at length
  cases places with
  | oversize long => omega
  | fresh _ cell => rw [used] at cell; cases cell
  | @inside sector _ cell room fits =>
      obtain rfl := sameSector cell
      exact .inl ⟨rfl, Nat.le_refl _, by omega, _, .inside short room fits,
        ordered.set_newest rfl (by simp [Sector.push])⟩
  | @split sector _ cell spills erased first second sizes filled firstPos secondPos firstShort
      secondShort fits =>
      obtain rfl := sameSector cell
      have free := ordered.next_erased.mp erased
      have succ := ring.ahead_succ older.length ordered.start_lt (by omega)
      rw [next, succ]
      refine .inl ⟨rfl, by omega, Nat.le_refl _, _, .split short spills free sizes filled firstPos
        secondPos firstShort secondShort fits, ?_⟩
      refine ordered.fill_extend rfl (by simp [Sector.push]) ?_ free (fun other member => ?_) ?_
        (by simp [Sector.single])
      · rw [Sector.isFull_iff, Sector.push_used]
        simp only [Fragment.size, Request.head, Request.piece, slice_length]
        omega
      · rw [bounds]
        have := above other member
        omega
      · rwa [bounds]
  | @exact sector _ cell filled erased fits =>
      obtain rfl := sameSector cell
      have free := ordered.next_erased.mp erased
      have succ := ring.ahead_succ older.length ordered.start_lt (by omega)
      rw [next, succ]
      refine .inl ⟨rfl, by omega, Nat.le_refl _, _, .exact short filled free fits, ?_⟩
      refine ordered.fill_extend rfl (by simp [Sector.push]) ?_ free (fun other member => ?_) ?_
        (by simp [Sector.single])
      · rw [Sector.isFull_iff, Sector.push_used]
        simp only [Fragment.size, Request.whole, Request.piece, slice_length]
        omega
      · rw [bounds]
        have := above other member
        omega
      · rwa [bounds]
  | @full sector _ cell spills nextUsed =>
      refine .inr ⟨.inr rfl, rfl, rfl, rfl, ?_⟩
      have taken := ordered.next_erased.not.mp nextUsed
      rw [List.length_append, List.length_singleton]
      omega
  | @wrapped sector _ cell filled nextUsed =>
      refine .inr ⟨.inl rfl, rfl, rfl, rfl, ?_⟩
      have taken := ordered.next_erased.not.mp nextUsed
      rw [List.length_append, List.length_singleton]
      omega

/-- With an erased sector left, an append always finds room. -/
theorem Ordered.appends_room (ordered : Ordered ring cells start log)
    (room : log.length < ring.sectors) (small : topOf ring cells index + 1 < rbIndexMask)
    (short : request.size ≤ 4088)
    (appends : Appends ring request eraseIfFull cells index writes status changed index') :
    status = .ok ∧ topOf ring cells index ≤ index' ∧ index' ≤ topOf ring cells index + 1 ∧
      ∃ log', Grows ring start request (topOf ring cells index + 1) log writes log' ∧
        Ordered ring changed start log' := by
  have oldestEq := ordered.oldest_eq
  have above : ∀ sector ∈ log, sector.index ≤ topOf ring cells index :=
    fun sector member => ordered.index_le_top index member
  rcases ordered.newest_cases with closed | ⟨older, newest, rfl, notFull⟩
  · obtain ⟨here, _⟩ := ordered.frontier_erased closed room
    cases appends with
    | placed frontier places _ =>
        rw [oldestEq] at frontier
        rw [frontier.unique here] at places
        obtain ⟨ok, next, grown⟩ := ordered.place_erased closed room above small short places
        exact ⟨ok, by omega, by omega, grown⟩
    | refused full _ => exact absurd full (here.not_allFull ordered.start_lt)
    | overwrite full _ _ => exact absurd full (here.not_allFull ordered.start_lt)
    | retry frontier places noRoom _ _ =>
        rw [oldestEq] at frontier
        rw [frontier.unique here] at places
        have ok := (ordered.place_erased closed room above small short places).1
        rw [ok] at noRoom
        simp at noRoom
  · obtain ⟨here, _⟩ := ordered.frontier_newest notFull
    cases appends with
    | placed frontier places _ =>
        rw [oldestEq] at frontier
        rw [frontier.unique here] at places
        rcases ordered.place_newest notFull above small short places with
          ⟨ok, low, high, grown⟩ | ⟨_, _, _, _, used⟩
        · exact ⟨ok, low, high, grown⟩
        · omega
    | refused full _ => exact absurd full (here.not_allFull ordered.start_lt)
    | overwrite full _ _ => exact absurd full (here.not_allFull ordered.start_lt)
    | retry frontier places noRoom _ _ =>
        rw [oldestEq] at frontier
        rw [frontier.unique here] at places
        rcases ordered.place_newest notFull above small short places with
          ⟨ok, _⟩ | ⟨_, _, _, _, used⟩
        · rw [ok] at noRoom
          simp at noRoom
        · omega

/-- Erasing a sector does not raise the scanned index. -/
theorem topOf_setCell_none (ring : Geometry) (cells : Nat → Option Sector) (k index : Nat) :
    topOf ring (setCell cells k none) (topOf ring cells index) = topOf ring cells index := by
  apply Nat.le_antisymm
  · refine topIndex_le (Nat.le_refl _) fun other member value used => ?_
    have kept : indexOf cells other = some value := by
      by_cases equal : other = k
      · subst equal
        simp [indexOf] at used
      · simpa [indexOf, setCell_of_ne _ _ equal] using used
    exact le_topIndex_of_mem _ member kept
  · exact le_topIndex _ _ _

theorem Ordered.used_of_allFull (ordered : Ordered ring cells start log)
    (full : AllFull ring cells) : log.length = ring.sectors := by
  by_contra short
  have room : log.length < ring.sectors := by
    have := ordered.length_le
    omega
  have erased := ordered.cell log.length room
  have used := full _ (ring.ahead_lt ordered.start_lt (Nat.le_of_lt room))
  rw [erased, List.getElem?_eq_none (Nat.le_refl _)] at used
  cases used

/-- Only the check for room precedes the refusal of a record that is too long. -/
private theorem Places.long {k : Nat}
    (places : Places ring cells k request index writes status changed index')
    (long : 4088 < request.size) :
    writes = [] ∧ status = .badCallerData ∧ changed = cells ∧ index' = index := by
  cases places with
  | oversize => exact ⟨rfl, rfl, rfl, rfl⟩
  | fresh short | inside short | split short | exact short | full short | wrapped short => omega

private theorem Ordered.appends_long (ordered : Ordered ring cells start log)
    (long : 4088 < request.size)
    (appends : Appends ring request eraseIfFull cells index writes status changed index') :
    topOf ring cells index = index' ∧
      ∃ start' log', LogAppends ring request eraseIfFull (topOf ring cells index + 1) start log
        writes status start' log' ∧ Ordered ring changed start' log' := by
  cases appends with
  | placed _ places _ =>
      obtain ⟨rfl, rfl, rfl, rfl⟩ := places.long long
      exact ⟨rfl, start, log, .rejected long, ordered⟩
  | refused full keep =>
      exact ⟨rfl, start, log, .refused (by simp) keep (ordered.used_of_allFull full), ordered⟩
  | overwrite full erases places =>
      obtain ⟨rfl, rfl, rfl, rfl⟩ := places.long long
      have used := ordered.used_of_allFull full
      have positive := ring.sectors_pos
      obtain ⟨first, rest, rfl⟩ : ∃ first rest, log = first :: rest :=
        List.exists_cons_of_length_pos (by omega)
      rw [ordered.oldest_eq]
      exact ⟨rfl, _, rest, .dropped long erases used rfl, ordered.drop used⟩
  | retry _ places noRoom _ _ =>
      obtain ⟨_, rfl, _, _⟩ := places.long long
      simp at noRoom

private theorem Ordered.appends_short (ordered : Ordered ring cells start log)
    (small : topOf ring cells index + 1 < rbIndexMask) (short : request.size ≤ 4088)
    (appends : Appends ring request eraseIfFull cells index writes status changed index') :
    topOf ring cells index ≤ index' ∧ index' ≤ topOf ring cells index + 1 ∧
      ∃ start' log', LogAppends ring request eraseIfFull (topOf ring cells index + 1) start log
        writes status start' log' ∧ Ordered ring changed start' log' := by
  by_cases room : log.length < ring.sectors
  · obtain ⟨rfl, low, high, log', grows, ordered'⟩ :=
      ordered.appends_room room small short appends
    exact ⟨low, high, start, log', .grown grows, ordered'⟩
  have used : log.length = ring.sectors := by have := ordered.length_le; omega
  have oldestEq := ordered.oldest_eq
  have positive := ring.sectors_pos
  have above : ∀ sector ∈ log, sector.index ≤ topOf ring cells index :=
    fun sector member => ordered.index_le_top index member
  obtain ⟨first, rest, split⟩ : ∃ first rest, log = first :: rest :=
    List.exists_cons_of_length_pos (by omega)
  -- after an erase of the oldest sector there is room
  have dropped : Ordered ring (setCell cells start none) (ring.ahead start 1) rest := by
    subst split
    exact ordered.drop used
  have restRoom : rest.length < ring.sectors := by
    rw [split, List.length_cons] at used
    omega
  have keptTop := topOf_setCell_none ring cells start index
  rcases ordered.newest_cases with closed | ⟨older, newest, newestEq, notFull⟩
  · have full := ordered.allFull closed used
    have noFrontier : ∀ k, ¬Frontier ring cells (oldest ring cells) k := fun k frontier =>
      frontier.not_allFull (oldest_lt ring cells) full
    cases appends with
    | placed frontier _ _ => exact absurd frontier (noFrontier _)
    | retry frontier _ _ _ _ => exact absurd frontier (noFrontier _)
    | refused _ keep =>
        exact ⟨Nat.le_refl _, by omega, start, log, .refused (by simp) keep used, ordered⟩
    | overwrite _ erases places =>
        rw [oldestEq] at places ⊢
        have closedRest : ∀ sector ∈ rest, sector.isFull = true := fun sector member =>
          closed sector (by simp [split, member])
        have last : ring.ahead (ring.ahead start 1) rest.length = start := by
          rw [split, List.length_cons] at used
          rw [ring.ahead_one_ahead ordered.start_lt restRoom, used, ring.ahead_all]
        have placed := dropped.place_erased closedRest restRoom
          (fun sector member => above sector (by simp [split, member])) small short
          (by rw [last]; exact places)
        obtain ⟨rfl, next, log', grows, ordered'⟩ := placed
        exact ⟨by omega, by omega, _, log', .replaced erases used split grows, ordered'⟩
  · obtain ⟨here, _⟩ := (newestEq ▸ ordered).frontier_newest notFull
    cases appends with
    | refused full _ => exact absurd full (here.not_allFull ordered.start_lt)
    | overwrite full _ _ => exact absurd full (here.not_allFull ordered.start_lt)
    | placed frontier places final =>
        rw [oldestEq] at frontier
        rw [frontier.unique here] at places
        rcases (newestEq ▸ ordered).place_newest notFull (newestEq ▸ above) small short
            places with ⟨rfl, low, high, log', grows, ordered'⟩ |
            ⟨noRoom, rfl, rfl, rfl, _⟩
        · exact ⟨low, high, start, log', .grown (newestEq ▸ grows), ordered'⟩
        · refine ⟨Nat.le_refl _, by omega, start, log,
            .refused ?_ (final noRoom) used, ordered⟩
          rcases noRoom with rfl | rfl <;> simp
    | retry frontier places noRoom erases again =>
        rw [oldestEq] at again ⊢
        obtain ⟨rfl, low, high, log', grows, ordered'⟩ :=
          dropped.appends_room restRoom (by rw [keptTop]; exact small) short again
        rw [keptTop] at low high grows
        exact ⟨low, high, _, log', .replaced erases used split grows, ordered'⟩

/-- An append on an ordered ring: it is refused, or it extends the log, or it drops the
oldest sector and extends the rest. -/
theorem Ordered.appends (ordered : Ordered ring cells start log)
    (small : topOf ring cells index + 1 < rbIndexMask)
    (appends : Appends ring request eraseIfFull cells index writes status changed index') :
    topOf ring cells index ≤ index' ∧ index' ≤ topOf ring cells index + 1 ∧
      ∃ start' log', LogAppends ring request eraseIfFull (topOf ring cells index + 1) start log
        writes status start' log' ∧ Ordered ring changed start' log' := by
  by_cases short : request.size ≤ 4088
  · exact ordered.appends_short small short appends
  · obtain ⟨same, outcome⟩ := ordered.appends_long (by omega) appends
    exact ⟨by omega, by omega, outcome⟩

end Ordered

end PicoApConfigure.RingBuffer
