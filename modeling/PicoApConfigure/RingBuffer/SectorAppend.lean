import PicoApConfigure.RingBuffer.Place

/-!
# `rb_sector_append`

The outcomes of `rb_sector_append` on a formed ring.  `Places` is the table: for
every layout the writes that are issued, the status, the resulting array of
sectors and the resulting index counter.  The code follows it exactly.
-/

namespace PicoApConfigure.RingBuffer

open Nor

/-- Every sector in use carries at least one fragment. -/
def Filled (ring : Geometry) (cells : Nat → Option Sector) : Prop :=
  ∀ k < ring.sectors, ∀ sector, cells k = some sector → sector.frags ≠ []

/-- Bytes in use in a sector slot; the first blank header position when the sector is
not full. -/
def usedBytes : Option Sector → Nat
  | none => 0
  | some sector => sector.used

/-- Outcomes of appending `request` with the cursor at the end of sector `k`. -/
inductive Places (ring : Geometry) (cells : Nat → Option Sector) (k : Nat)
    (request : Request) (index : Nat) :
    List Op → RbError → (Nat → Option Sector) → Nat → Prop
  /-- The record is longer than any sector can hold. -/
  | oversize (long : 4088 < request.size) :
      Places ring cells k request index [] .badCallerData cells index
  /-- The sector is erased: it gets a header and the whole record. -/
  | fresh (short : request.size ≤ 4088) (cell : cells k = none) :
      Places ring cells k request index
        (openWrites ring k (nextIndex index) (request.whole short).header
          (request.whole short).payload) .ok
        (setCell cells k (some (Sector.single (nextIndex index) (request.whole short))))
        (nextIndex index)
  /-- The record fits behind the last fragment of the sector. -/
  | inside {sector : Sector} (short : request.size ≤ 4088) (cell : cells k = some sector)
      (room : request.size + 4 < 4096 - sector.used)
      (fits : sector.used + (request.whole short).size ≤ 4096) :
      Places ring cells k request index
        (putWrites ring k sector.used (request.whole short).header
          (request.whole short).payload) .ok
        (setCell cells k (some (sector.push (request.whole short) fits))) index
  /-- The record is split over this sector and the erased next one. -/
  | split {sector : Sector} (short : request.size ≤ 4088) (cell : cells k = some sector)
      (spills : 4096 - sector.used < request.size + 4) (erased : cells (ring.succ k) = none)
      {first second : Nat} (sizes : first + second = request.size)
      (filled : sector.used + 4 + first = 4096) (firstPos : 0 < first)
      (secondPos : 0 < second) (firstShort : first ≤ 4088) (secondShort : second ≤ 4088)
      (fits : sector.used + (request.head first firstPos firstShort).size ≤ 4096) :
      Places ring cells k request index
        (putWrites ring k sector.used (request.head first firstPos firstShort).header
            (request.head first firstPos firstShort).payload ++
          openWrites ring (ring.succ k) (nextIndex index)
            (request.tail second secondPos secondShort).header
            (request.tail second secondPos secondShort).payload) .ok
        (setCell (setCell cells k
            (some (sector.push (request.head first firstPos firstShort) fits)))
          (ring.succ k) (some (Sector.single (nextIndex index)
            (request.tail second secondPos secondShort))))
        (nextIndex index)
  /-- The record ends with the sector: the next one gets a header for nothing. -/
  | exact {sector : Sector} (short : request.size ≤ 4088) (cell : cells k = some sector)
      (filled : sector.used + 4 + request.size = 4096)
      (erased : cells (ring.succ k) = none)
      (fits : sector.used + (request.whole short).size ≤ 4096) :
      Places ring cells k request index
        (putWrites ring k sector.used (request.whole short).header
            (request.whole short).payload ++
          openWrites ring (ring.succ k) (nextIndex index) (request.phantom short).header
            []) .ok
        (setCell (setCell cells k (some (sector.push (request.whole short) fits)))
          (ring.succ k) (some (Sector.single (nextIndex index) (request.phantom short))))
        (nextIndex index)
  /-- The rest of the sector is too small and the next one is in use. -/
  | full {sector : Sector} (short : request.size ≤ 4088) (cell : cells k = some sector)
      (spills : 4096 - sector.used < request.size + 4) (used : cells (ring.succ k) ≠ none) :
      Places ring cells k request index [] .full cells index
  /-- The record would end with the sector and the next one is in use. -/
  | wrapped {sector : Sector} (short : request.size ≤ 4088) (cell : cells k = some sector)
      (filled : sector.used + 4 + request.size = 4096)
      (used : cells (ring.succ k) ≠ none) :
      Places ring cells k request index [] .wrappedSectorUsed cells index

section SectorAppend

variable {rb : RbT} {ring : Geometry} {memory : Memory} {cells : Nat → Option Sector}
  {k : Nat}

variable (ring) (cells) in
/-- There is an outcome for every layout. -/
theorem Places.exists (request : Request) (index : Nat)
    (room : ∀ sector, cells k = some sector → sector.isFull = false) :
    ∃ writes status changed index', Places ring cells k request index writes status changed
      index' := by
  by_cases short : request.size ≤ 4088
  · cases cell : cells k with
    | none => exact ⟨_, _, _, _, .fresh short cell⟩
    | some sector =>
        have notFull := (Sector.not_isFull_iff sector).mp (room sector cell)
        have size : (request.whole short).size = 4 + request.size := by
          simp [Fragment.size, Request.whole, Request.piece]
        by_cases inside : request.size + 4 < 4096 - sector.used
        · exact ⟨_, _, _, _, .inside short cell inside (by omega)⟩
        by_cases filled : sector.used + 4 + request.size = 4096
        · cases next : cells (ring.succ k) with
          | none => exact ⟨_, _, _, _, .exact short cell filled next (by omega)⟩
          | some other => exact ⟨_, _, _, _, .wrapped short cell filled (by simp [next])⟩
        · cases next : cells (ring.succ k) with
          | none =>
              have positive := request.size_pos
              have sizes : (4092 - sector.used) + (request.size - (4092 - sector.used)) =
                  request.size := by omega
              refine ⟨_, _, _, _, .split short cell (by omega) next sizes
                (by omega) (by omega) (by omega) ?_ (by omega) ?_⟩
              · simp only [Sector.used]
                omega
              · simp only [Fragment.size, Request.head, Request.piece, slice_length]
                omega
          | some other => exact ⟨_, _, _, _, .full short cell (by omega) (by simp [next])⟩
  · exact ⟨_, _, _, _, .oversize (by omega)⟩

/-- What a record placed at a sector end leaves in flash. -/
theorem Places.holds {request : Request} {index index' : Nat} {writes : List Op}
    {status : RbError} {changed : Nat → Option Sector}
    (places : Places ring cells k request index writes status changed index')
    (holds : RingHolds memory ring cells) (inRing : k < ring.sectors) :
    RingHolds (replay writes memory) ring changed := by
  have inRing' := ring.succ_lt inRing
  cases places with
  | oversize => exact holds
  | full => exact holds
  | wrapped => exact holds
  | fresh short cell =>
      rw [replay_openWrites]
      exact holds.open inRing cell _ 0 (by simp)
  | inside short cell room fits =>
      rw [replay_putWrites]
      exact holds.push inRing cell fits _ 0 (by simp)
  | split short cell spills erased sizes filled firstPos secondPos firstShort secondShort fits =>
      have pushed := holds.push inRing cell fits ((request.head _ firstPos firstShort).payload) 0
        (by simp)
      have elsewhere : ring.succ k ≠ k := by
        intro equal
        rw [equal, cell] at erased
        cases erased
      rw [replay_append, replay_putWrites, replay_openWrites]
      refine pushed.open inRing' ?_ _ 0 (by simp)
      rw [setCell_of_ne _ _ elsewhere]
      exact erased
  | exact short cell filled erased fits =>
      have pushed := holds.push inRing cell fits ((request.whole short).payload) 0 (by simp)
      have elsewhere : ring.succ k ≠ k := by
        intro equal
        rw [equal, cell] at erased
        cases erased
      rw [replay_append, replay_putWrites, replay_openWrites]
      refine pushed.open inRing' ?_ _ _ rfl
      rw [setCell_of_ne _ _ elsewhere]
      exact erased

/-- Nothing but erased bytes follow the end of a sector. -/
theorem blank_behind (holds : RingHolds memory ring cells) (inRing : k < ring.sectors) :
    Holds memory (ring.sectorAddr k + usedBytes (cells k))
      (blanks (4096 - usedBytes (cells k))) := by
  cases cell : cells k with
  | none => exact holds_blank_cell holds inRing cell
  | some sector => exact holds_tail holds inRing cell

/-- The peek at the next sector when it is erased. -/
private theorem fetchNext_erased (on : OnRing rb ring) (holds : RingHolds memory ring cells)
    (inRing : k < ring.sectors) (erased : cells k = none) :
    (fetchAndCheckHeader rb ((4096 * k : Nat) - (rb.next : Int))).Exec ring.region memory []
      (.blankHdr, .blank, rb) := by
  have carries := holds.carries
  have status := carries.sectorStatus_none inRing erased
  have fetched := fetch_start_stop on inRing ((4096 * k : Nat) - (rb.next : Int)) (by omega)
    (by rw [status]; decide)
  rwa [status, dataWord_blank (carries.erased k inRing erased)] at fetched

/-- The peek at the next sector when it is in use. -/
private theorem fetchNext_used (on : OnRing rb ring) (holds : RingHolds memory ring cells)
    (filled : Filled ring cells) (inRing : k < ring.sectors) (used : cells k ≠ none) :
    ∃ header, (fetchAndCheckHeader rb ((4096 * k : Nat) - (rb.next : Int))).Exec ring.region
      memory [] (.ok, header, { rb with next := rb.next + 4 }) := by
  obtain ⟨sector, cell⟩ := Option.ne_none_iff_exists'.mp used
  cases frags : sector.frags with
  | nil => exact absurd frags (filled k inRing sector cell)
  | cons fragment after =>
      have carries := holds.carries
      have fetched := fetch_start_next on inRing ((4096 * k : Nat) - (rb.next : Int)) (by omega)
        (carries.sectorStatus_some inRing cell)
      have word := carries.dataWord_fragment inRing cell [] frags
      rw [fragsSize_nil, Nat.add_zero] at word
      rw [word, fragment.header_good] at fetched
      exact ⟨_, fetched⟩

/-- A data header with its payload inside a sector. -/
private theorem put_exec (on : OnRing rb ring) (inRing : k < ring.sectors) {offset : Nat}
    (next : rb.next = 4096 * k + offset) (positive : 0 < offset) (room : offset + 4 < 4096)
    (hdr : RbHeader) (size : Nat) (flag : Byte) (payload : List Byte)
    (fits : offset + 4 + payload.length ≤ 4096) :
    ∃ rb' rb'', OnRing rb'' ring ∧
      rb''.next = ring.place k (offset + 4 + payload.length) ∧
      rb''.sectorIndex = rb.sectorIndex ∧
      (writeHeaders rb hdr size flag).Exec ring.region memory
        (pageWrites 256 ring.base (4096 * k + offset) (flagged hdr size flag).bytes)
        (.ok, flagged hdr size flag, rb') ∧
      ∀ memory, (rbAppendPage rb' payload).Exec ring.region memory
        (pageWrites 256 ring.base (4096 * k + (offset + 4)) payload) (.ok, rb'') := by
  obtain ⟨rb', on', next', index', headers⟩ :=
    writeHeaders_put_exec on inRing next positive room hdr size flag
  exact ⟨rb', { rb' with
    next := ring.place k (offset + 4 + payload.length)
    rbPage := cleanPage rb'.rbPage }, ⟨on'.base_eq, on'.bytes_eq⟩, rfl, index', headers,
    fun memory => rbAppendPage_exec _ _ _ on' inRing next' _ (by omega) fits⟩

variable (memory) in
/-- A data header with its payload in an erased sector. -/
private theorem open_exec (on : OnRing rb ring) (inRing : k < ring.sectors)
    (next : rb.next = 4096 * k) (hdr : RbHeader) (size : Nat) (flag : Byte)
    (payload : List Byte) (fits : 8 + payload.length ≤ 4096) :
    ∃ rb' rb'', OnRing rb'' ring ∧ rb''.sectorIndex = nextIndex rb.sectorIndex ∧
      (writeHeaders rb hdr size flag).Exec ring.region memory
        (pageWrites 256 ring.base (4096 * k)
            (sectorHeaderFor (nextIndex rb.sectorIndex)).bytes ++
          pageWrites 256 ring.base (4096 * k + 4) (flagged hdr size flag).bytes)
        (.ok, flagged hdr size flag, rb') ∧
      ∀ memory, (rbAppendPage rb' payload).Exec ring.region memory
        (pageWrites 256 ring.base (4096 * k + 8) payload) (.ok, rb'') := by
  obtain ⟨rb', on', next', index', headers⟩ :=
    writeHeaders_open_exec on inRing next hdr size flag
  exact ⟨rb', { rb' with
    next := ring.place k (8 + payload.length)
    rbPage := cleanPage rb'.rbPage }, ⟨on'.base_eq, on'.bytes_eq⟩, index', headers,
    fun memory => rbAppendPage_exec _ _ _ on' inRing next' _ (by omega) fits⟩

section Outcomes

variable {request : Request} {hdr : RbHeader}

/-- A record that fits behind the last fragment. -/
private theorem appendInSector_put_exec (on : OnRing rb ring) (inRing : k < ring.sectors)
    {offset : Nat} (next : rb.next = 4096 * k + offset) (positive : 0 < offset)
    (short : request.size ≤ 4088) (room : request.size + 4 < 4096 - offset)
    (id : hdr.id = request.id) :
    ∃ rb', OnRing rb' ring ∧ rb'.sectorIndex = rb.sectorIndex ∧
      (appendInSector rb hdr request.data request.size).Exec ring.region memory
        (putWrites ring k offset (request.whole short).header (request.whole short).payload)
        (.ok, rb') := by
  have framed := flagged_piece request id notSmudged_high 0 request.size_pos short
  obtain ⟨rb', rb'', on', _, index, headers, payload⟩ := put_exec on inRing
    next positive (by omega) hdr request.size rbHeaderNotSmudged
      (slice request.data 0 request.size) (by rw [slice_length]; omega)
  refine ⟨rb'', on', index, ?_⟩
  rw [framed] at headers
  refine headers.bind ?_
  simp only [ne_eq, not_true_eq_false, if_false]
  exact payload _

/-- A record that goes into an erased sector. -/
private theorem appendInSector_open_exec (on : OnRing rb ring) (inRing : k < ring.sectors)
    (next : rb.next = 4096 * k) (short : request.size ≤ 4088) (id : hdr.id = request.id) :
    ∃ rb', OnRing rb' ring ∧ rb'.sectorIndex = nextIndex rb.sectorIndex ∧
      (appendInSector rb hdr request.data request.size).Exec ring.region memory
        (openWrites ring k (nextIndex rb.sectorIndex) (request.whole short).header
          (request.whole short).payload) (.ok, rb') := by
  have framed := flagged_piece request id notSmudged_high 0 request.size_pos short
  obtain ⟨rb', rb'', on', index, headers, payload⟩ := open_exec memory on inRing
    next hdr request.size rbHeaderNotSmudged (slice request.data 0 request.size)
      (by rw [slice_length]; omega)
  refine ⟨rb'', on', index, ?_⟩
  rw [framed] at headers
  have whole := @FlashProg.Exec.bind _ _ _ _ _ (fun result => if result.1 ≠ RbError.ok then
      Pure.pure (result.1, result.2.2)
    else rbAppendPage result.2.2 (slice request.data 0 request.size)) _ _ _ _ headers (by
      rw [if_neg (by simp)]
      exact payload _)
  rw [List.append_assoc] at whole
  exact whole

variable (hdr) in
/-- The second sector is in use: nothing is written. -/
private theorem appendAcross_used_exec (on : OnRing rb ring)
    (holds : RingHolds memory ring cells) (filled : Filled ring cells)
    (inRing : k < ring.sectors) {offset : Nat} (next : rb.next = 4096 * k + offset)
    (inside : offset < 4096) (used : cells (ring.succ k) ≠ none)
    (again : RbT → RbHeader → Memory → Nat → FlashProg (RbError × RbT)) (data : Memory)
    (size : Nat) :
    (appendAcross again rb hdr data size).Exec ring.region memory []
      (.wrappedSectorUsed, rb) := by
  have sector : 4096 * (rb.next / 4096) = 4096 * k := by omega
  have wrapped := ring.wrapped_succ inRing
  obtain ⟨header, peek⟩ := fetchNext_used on holds filled (ring.succ_lt inRing) used
  simp only [appendAcross, flashSectorSize, flashSector_eq, sector, on.bytes_eq, wrapped]
  refine FlashProg.Exec.bind_read peek ?_
  exact FlashProg.Exec.pure _

/-- The record is written in two pieces; `second` is what `make_header` is asked for in
the second sector. -/
private theorem appendAcross_erased_exec (on : OnRing rb ring)
    (holds : RingHolds memory ring cells) (inRing : k < ring.sectors) {offset : Nat}
    (next : rb.next = 4096 * k + offset) (positive : 0 < offset)
    (erased : cells (ring.succ k) = none) {first : Nat} (second : Nat)
    (sizes : first + second = request.size) (filled : offset + 4 + first = 4096)
    (firstPos : 0 < first) (short : request.size ≤ 4088) (firstShort : first ≤ 4088)
    (id : hdr.id = request.id) :
    ∃ rb', OnRing rb' ring ∧ rb'.sectorIndex = nextIndex rb.sectorIndex ∧
      ∀ again, (appendAcross again rb hdr request.data request.size).Exec ring.region memory
        (putWrites ring k offset (request.head first firstPos firstShort).header
            (request.head first firstPos firstShort).payload ++
          openWrites ring (ring.succ k) (nextIndex rb.sectorIndex)
            (flagged (request.head first firstPos firstShort).header second
              (rbHeaderSplit ||| rbHeaderNotSmudged))
            (slice request.data second second)) (.ok, rb') := by
  have sector : 4096 * (rb.next / 4096) = 4096 * k := by omega
  have position : rb.next % 4096 = offset := by omega
  have wrapped := ring.wrapped_succ inRing
  have inRing' := ring.succ_lt inRing
  have peek := fetchNext_erased on holds inRing' erased
  have firstSize : min (4096 - offset - 4) request.size = first := by omega
  have framed := flagged_piece request id notSmudged_high 0 firstPos firstShort
  -- the first piece ends with the sector, so the cursor is at the next sector start
  obtain ⟨rb₁, rb₂, on₂, next₂, index₂, firstHeaders, firstPayload⟩ := put_exec
    on inRing next positive (by omega) hdr first rbHeaderNotSmudged (slice request.data 0 first)
    (by rw [slice_length]; omega)
  rw [slice_length, filled, ring.place_end] at next₂
  have secondPosition : rb₂.next % 4096 = 0 := by omega
  have secondSize : min (request.size - first) (4096 - 0 - 4) = second := by omega
  obtain ⟨rb₃, rb₄, on₄, index₄, secondHeaders, secondPayload⟩ := open_exec
    _ on₂ inRing' next₂ (request.head first firstPos firstShort).header second
    (rbHeaderSplit ||| rbHeaderNotSmudged)
    (slice request.data second second) (by rw [slice_length]; omega)
  rw [framed] at firstHeaders
  rw [index₂] at secondHeaders index₄
  refine ⟨rb₄, on₄, index₄, fun again => ?_⟩
  simp only [appendAcross, flashSectorSize, headerSize, flashSector_eq, modSector_eq, sector,
    position, on.bytes_eq, wrapped, firstSize]
  refine FlashProg.Exec.bind_read peek ?_
  simp only [if_true, putWrites, openWrites, List.append_assoc]
  refine firstHeaders.bind ?_
  simp only [ne_eq, not_true_eq_false, if_false]
  refine (firstPayload _).bind ?_
  simp only [secondPosition, secondSize, not_true_eq_false, if_false]
  rw [← replay_append]
  rw [← List.append_assoc]
  refine secondHeaders.bind ?_
  have nothingLeft : ¬request.size - first - second > 0 := by omega
  simp only [nothingLeft, if_false]
  have finish := (secondPayload (replay (pageWrites 256 ring.base (4096 * ring.succ k)
      (sectorHeaderFor (nextIndex rb.sectorIndex)).bytes ++
    pageWrites 256 ring.base (4096 * ring.succ k + 4) (flagged (request.head first firstPos
      firstShort).header second (rbHeaderSplit ||| rbHeaderNotSmudged)).bytes)
    (replay (putWrites ring k offset (request.head first firstPos firstShort).header
      (request.head first firstPos firstShort).payload) memory))).bind
    (FlashProg.Exec.pure _)
  rw [List.append_nil] at finish
  exact finish

end Outcomes

/-- The code places a record as the table says. -/
theorem rbSectorAppend_exec (on : OnRing rb ring) (holds : RingHolds memory ring cells)
    (filled : Filled ring cells) (inRing : k < ring.sectors)
    (room : ∀ sector, cells k = some sector → sector.isFull = false)
    (next : rb.next = 4096 * k + usedBytes (cells k)) {request : Request} {index' : Nat}
    {writes : List Op} {status : RbError} {changed : Nat → Option Sector}
    (places : Places ring cells k request rb.sectorIndex writes status changed index')
    (hdr : RbHeader) (id : hdr.id = request.id) :
    ∃ rb', OnRing rb' ring ∧ rb'.sectorIndex = index' ∧
      ∀ fuel, (rbSectorAppend (fuel + 1) rb hdr request.data request.size).Exec ring.region
        memory writes (status, rb') := by
  have nonempty := ring.sectors_pos
  have positive := request.size_pos
  have inside : usedBytes (cells k) < 4096 := by
    cases cell : cells k with
    | none => simp [usedBytes]
    | some sector =>
        have notFull := (Sector.not_isFull_iff sector).mp (room sector cell)
        simp only [usedBytes]
        omega
  have position : rb.next % 4096 = usedBytes (cells k) := by omega
  by_cases long : 4088 < request.size
  · cases places with
    | oversize =>
        have rejected : request.size > rbMaxAppendSize := by
          simp only [rbMaxAppendSize, flashSectorSize, headerSize]
          omega
        refine ⟨rb, on, rfl, fun fuel => ?_⟩
        rw [rbSectorAppend, if_pos (.inr (.inr (.inr rejected)))]
        exact FlashProg.Exec.pure _
    | _ => omega
  have accepted : ¬(request.size = 0 ∨ hdr.id = 0xff ∨
      request.size + headerSize > rb.numberOfBytes ∨ request.size > rbMaxAppendSize) := by
    simp only [headerSize, rbMaxAppendSize, flashSectorSize, on.bytes_eq, id]
    rintro (zero | blank | large | long)
    · omega
    · exact request.id_ne blank
    · omega
    · omega
  have scan := sectorBlankScan_exec on holds inRing next inside (blank_behind holds inRing)
  simp only [rbSectorAppend, if_neg accepted]
  simp only [headerSize, flashSectorSize, modSector_eq, position]
  cases places with
  | oversize => exact absurd ‹_› long
  | fresh short cell =>
      rw [cell, usedBytes, Nat.add_zero] at next
      obtain ⟨rb', on', index, exec⟩ := appendInSector_open_exec on inRing
        next short id
      refine ⟨rb', on', index, fun fuel => FlashProg.Exec.bind_read scan ?_⟩
      rw [cell, usedBytes, if_neg (by omega), if_pos (by omega)]
      exact exec
  | @inside sector short cell fits =>
      rw [cell, usedBytes] at next
      obtain ⟨rb', on', index, exec⟩ := appendInSector_put_exec on inRing
        next (by simp only [Sector.used]; omega) short fits id
      refine ⟨rb', on', index, fun fuel => FlashProg.Exec.bind_read scan ?_⟩
      rw [cell, usedBytes, if_neg (by omega), if_pos (by omega)]
      exact exec
  | @split sector short cell spills erased first second sizes filled' firstPos secondPos
      firstShort secondShort fits =>
      rw [cell, usedBytes] at next
      obtain ⟨rb', on', index, exec⟩ := appendAcross_erased_exec on holds
        inRing next (by simp only [Sector.used]; omega) erased _ sizes filled' firstPos short
        firstShort id
      have framed : flagged (request.head first firstPos firstShort).header second
          (rbHeaderSplit ||| rbHeaderNotSmudged) =
            (request.tail second secondPos secondShort).header :=
        flagged_piece request rfl splitNotSmudged_high _ secondPos secondShort
      refine ⟨rb', on', index, fun fuel => FlashProg.Exec.bind_read scan ?_⟩
      rw [cell, erased, usedBytes, nextBlanks, if_neg (by omega), if_neg (by omega)]
      rw [framed] at exec
      exact exec _
  | @exact sector short cell filled' erased fits =>
      rw [cell, usedBytes] at next
      obtain ⟨rb', on', index, exec⟩ := appendAcross_erased_exec on holds
        inRing next (by simp only [Sector.used]; omega) erased 0 rfl filled' positive short short id
      have framed := flagged_phantom request short
      refine ⟨rb', on', index, fun fuel => FlashProg.Exec.bind_read scan ?_⟩
      rw [cell, erased, usedBytes, nextBlanks, if_neg (by omega), if_neg (by omega)]
      rw [show request.head request.size positive short = request.whole short from rfl, framed,
        slice_zero] at exec
      exact exec _
  | @full sector short cell spills used =>
      refine ⟨rb, on, rfl, fun fuel => FlashProg.Exec.bind_read scan ?_⟩
      obtain ⟨other, next'⟩ := Option.ne_none_iff_exists'.mp used
      rw [cell, next', usedBytes, nextBlanks, if_pos (by omega)]
      exact FlashProg.Exec.pure _
  | @wrapped sector short cell filled' used =>
      rw [cell, usedBytes] at next
      have refused := appendAcross_used_exec hdr on holds filled inRing next
        (by omega) used
      refine ⟨rb, on, rfl, fun fuel => FlashProg.Exec.bind_read scan ?_⟩
      rw [cell, usedBytes, if_neg (by omega), if_neg (by omega)]
      exact refused _ _ _

end SectorAppend

end PicoApConfigure.RingBuffer
