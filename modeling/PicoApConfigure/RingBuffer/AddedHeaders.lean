import Mathlib.Algebra.BigOperators.Group.Finset.Basic
import PicoApConfigure.RingBuffer.Overwrite
import PicoApConfigure.RingBuffer.Unique

/-!
# The headers an append adds

A successful append is meant to leave one data header, or two for a record that
spans two sectors, each with exactly the payload bytes behind it that were
programmed.  A record that ends with its sector leaves a second header without
payload.  Where a record lands is a matter of the sectors alone; `LandsAt` says it.
-/

namespace PicoApConfigure.RingBuffer

open Nor

/-! ## Payload of a ring -/

/-- Payload bytes the data headers of a sector slot speak of. -/
def payloadBytes : Option Sector → Nat
  | none => 0
  | some sector => (sector.frags.map fun fragment => fragment.payload.length).sum

/-- Payload bytes the data headers of the ring speak of. -/
def ringPayload (ring : Geometry) (cells : Nat → Option Sector) : Nat :=
  ∑ k ∈ Finset.range ring.sectors, payloadBytes (cells k)

section Payload

variable {ring : Geometry} {cells changed : Nat → Option Sector} {k : Nat}

theorem ringPayload_congr (agree : ∀ j < ring.sectors, changed j = cells j) :
    ringPayload ring changed = ringPayload ring cells :=
  Finset.sum_congr rfl fun j member => by rw [agree j (Finset.mem_range.mp member)]

/-- Changing one sector changes the payload by that of the sector. -/
theorem ringPayload_change (inRing : k < ring.sectors)
    (others : ∀ j < ring.sectors, j ≠ k → changed j = cells j) :
    ringPayload ring changed + payloadBytes (cells k) =
      ringPayload ring cells + payloadBytes (changed k) := by
  have member := Finset.mem_range.mpr inRing
  have rest : ∑ j ∈ (Finset.range ring.sectors).erase k, payloadBytes (changed j) =
      ∑ j ∈ (Finset.range ring.sectors).erase k, payloadBytes (cells j) := by
    refine Finset.sum_congr rfl fun j other => ?_
    obtain ⟨ne, inside⟩ := Finset.mem_erase.mp other
    rw [others j (Finset.mem_range.mp inside) ne]
  rw [ringPayload, ringPayload, ← Finset.add_sum_erase _ _ member,
    ← Finset.add_sum_erase _ (fun j => payloadBytes (cells j)) member, rest]
  omega

end Payload

/-! ## Records and their headers -/

/-- `fragment` becomes the last one of the chain in sector `k`: `writes` program its header with
its payload right behind it, in an erased sector behind a sector header. -/
inductive Joins (ring : Geometry) (cells : Nat → Option Sector) (k : Nat)
    (fragment : Fragment) : List Op → Sector → Prop
  | behind {sector grown : Sector} (cell : cells k = some sector)
      (frags : grown.frags = sector.frags ++ [fragment]) :
      Joins ring cells k fragment
        (putWrites ring k sector.used fragment.header fragment.payload) grown
  | first {index : Nat} {grown : Sector} (cell : cells k = none)
      (frags : grown.frags = [fragment]) :
      Joins ring cells k fragment
        (openWrites ring k index fragment.header fragment.payload) grown

/-- A record of `size` bytes has been added to the chain of data headers: one header without
`SPLIT`, or one without and one with it at the start of the next sector. -/
inductive AddsRecord (ring : Geometry) (cells changed : Nat → Option Sector) (id : Byte)
    (size : Nat) : List Op → Prop
  | whole {k : Nat} {fragment : Fragment} {programs : List Op} {grown : Sector}
      (inRing : k < ring.sectors) (joins : Joins ring cells k fragment programs grown)
      (sameId : fragment.id = id) (unsplit : fragment.split = false)
      (length : fragment.payload.length = size) (here : changed k = some grown)
      (others : ∀ j < ring.sectors, j ≠ k → changed j = cells j) :
      AddsRecord ring cells changed id size programs
  | pieces {k : Nat} {head tail : Fragment} {first second : List Op} {grown opened : Sector}
      (inRing : k < ring.sectors) (apart : ring.succ k ≠ k)
      (joinsHead : Joins ring cells k head first grown)
      (joinsTail : Joins ring cells (ring.succ k) tail second opened)
      (start : cells (ring.succ k) = none) (headId : head.id = id) (tailId : tail.id = id)
      (unsplit : head.split = false) (split : tail.split = true)
      (lengths : head.payload.length + tail.payload.length = size)
      (here : changed k = some grown) (next : changed (ring.succ k) = some opened)
      (others : ∀ j < ring.sectors, j ≠ k → j ≠ ring.succ k → changed j = cells j) :
      AddsRecord ring cells changed id size (first ++ second)

section Adds

variable {ring : Geometry} {cells changed : Nat → Option Sector} {k : Nat} {id : Byte}
  {size : Nat} {programs : List Op} {fragment : Fragment} {grown : Sector}

theorem Joins.payload (joins : Joins ring cells k fragment programs grown) :
    payloadBytes (some grown) = payloadBytes (cells k) + fragment.payload.length := by
  cases joins with
  | behind cell frags => simp [payloadBytes, cell, frags]
  | first cell frags => simp [payloadBytes, cell, frags]

theorem Joins.programs_isErase (joins : Joins ring cells k fragment programs grown) {op : Op}
    (member : op ∈ programs) : op.isErase = false := by
  cases joins with
  | behind => exact putWrites_isErase member
  | first => exact openWrites_isErase member

/-- The lengths in the added headers sum up to the size of the record. -/
theorem AddsRecord.payload (adds : AddsRecord ring cells changed id size programs) :
    ringPayload ring changed = ringPayload ring cells + size := by
  cases adds with
  | @whole k fragment _ grown inRing joins sameId unsplit length here others =>
      have change := ringPayload_change inRing others
      rw [here, joins.payload, length] at change
      omega
  | @pieces k head tail first second grown opened inRing apart joinsHead joinsTail start headId
      tailId unsplit split lengths here next others =>
      have middle := @ringPayload_change ring cells (setCell cells k (some grown)) k inRing
        fun j _ ne => setCell_of_ne _ _ ne
      have change := @ringPayload_change ring (setCell cells k (some grown)) changed
        (ring.succ k) (ring.succ_lt inRing) fun j bound ne => by
          by_cases same : j = k
          · rw [same, setCell_self, here]
          · rw [setCell_of_ne _ _ same]
            exact others j bound same ne
      rw [setCell_self, joinsHead.payload] at middle
      rw [setCell_of_ne _ _ apart, next, joinsTail.payload] at change
      omega

theorem AddsRecord.programs_isErase (adds : AddsRecord ring cells changed id size programs)
    {op : Op}
    (member : op ∈ programs) : op.isErase = false := by
  cases adds with
  | whole _ joins => exact joins.programs_isErase member
  | pieces _ _ joinsHead joinsTail =>
      rcases List.mem_append.mp member with head | tail
      · exact joinsHead.programs_isErase head
      · exact joinsTail.programs_isErase tail

end Adds

/-! ## Where a record lands -/

/-- The record fits behind the fragments of sector `k`, or the next sector can take the rest. -/
def HasRoom (ring : Geometry) (cells : Nat → Option Sector) (k size : Nat) : Prop :=
  ∀ sector, cells k = some sector →
    size + 4 < 4096 - sector.used ∨ cells (ring.succ k) = none

/-- The sector an append starts writing in, with the sectors as they are by then.  It is the
first one with room for a header, going round from the oldest; as long as there is no such sector
or it is too small, the oldest sector is erased. -/
inductive LandsAt (ring : Geometry) (size : Nat) (eraseIfFull : Bool) :
    (Nat → Option Sector) → (Nat → Option Sector) → Nat → Prop
  | here {cells : Nat → Option Sector} {k : Nat}
      (frontier : Frontier ring cells (oldest ring cells) k) (room : HasRoom ring cells k size) :
      LandsAt ring size eraseIfFull cells cells k
  | around {cells : Nat → Option Sector} (full : AllFull ring cells)
      (erases : eraseIfFull = true) :
      LandsAt ring size eraseIfFull cells (setCell cells (oldest ring cells) none)
        (oldest ring cells)
  | retry {cells erased : Nat → Option Sector} {k landing : Nat}
      (frontier : Frontier ring cells (oldest ring cells) k)
      (noRoom : ¬HasRoom ring cells k size) (erases : eraseIfFull = true)
      (again : LandsAt ring size eraseIfFull (setCell cells (oldest ring cells) none) erased
        landing) :
      LandsAt ring size eraseIfFull cells erased landing

section Lands

variable {ring : Geometry} {cells changed erased : Nat → Option Sector} {k : Nat}
  {request : Request} {index index' : Nat} {writes programs : List Op} {status : RbError}
  {eraseIfFull : Bool}

theorem LandsAt.unique {size : Nat} {other : Nat → Option Sector} {landing : Nat}
    (lands : LandsAt ring size eraseIfFull cells erased k)
    (lands' : LandsAt ring size eraseIfFull cells other landing) :
    erased = other ∧ k = landing := by
  induction lands with
  | @here cells k frontier room =>
      cases lands' with
      | here frontier' _ => exact ⟨rfl, frontier.unique frontier'⟩
      | around full _ => exact absurd full (frontier.not_allFull (oldest_lt ring _))
      | retry frontier' noRoom _ _ =>
          rw [frontier.unique frontier'] at room
          exact absurd room noRoom
  | around full _ =>
      cases lands' with
      | here frontier' _ => exact absurd full (frontier'.not_allFull (oldest_lt ring _))
      | around => exact ⟨rfl, rfl⟩
      | retry frontier' _ _ _ => exact absurd full (frontier'.not_allFull (oldest_lt ring _))
  | @retry cells erased k landing frontier noRoom _ _ ih =>
      cases lands' with
      | here frontier' room =>
          rw [frontier.unique frontier'] at noRoom
          exact absurd room noRoom
      | around full _ => exact absurd full (frontier.not_allFull (oldest_lt ring _))
      | retry _ _ _ again => exact ih again

/-- A record that could be placed had room, and one that was refused had none. -/
theorem Places.hasRoom_iff (places : Places ring cells k request index writes status changed
    index') (short : request.size ≤ 4088) : HasRoom ring cells k request.size ↔ status = .ok := by
  cases places with
  | oversize long => omega
  | fresh _ cell => exact iff_of_true (fun sector used => by simp [cell] at used) rfl
  | inside _ cell room _ =>
      refine iff_of_true (fun sector used => .inl ?_) rfl
      rw [cell] at used
      cases used
      exact room
  | split _ _ _ erased => exact iff_of_true (fun _ _ => .inr erased) rfl
  | exact _ _ _ erased _ => exact iff_of_true (fun _ _ => .inr erased) rfl
  | full _ cell spills used =>
      refine iff_of_false (fun room => ?_) (by decide)
      rcases room _ cell with fits | erased
      · omega
      · exact used erased
  | wrapped _ cell filled used =>
      refine iff_of_false (fun room => ?_) (by decide)
      rcases room _ cell with fits | erased
      · omega
      · exact used erased

/-- A successful append erases sectors and then places the record where it lands. -/
theorem Appends.lands
    (appends : Appends ring request eraseIfFull cells index writes status changed index')
    (short : request.size ≤ 4088) (ok : status = .ok) :
    ∃ erased k top erases programs, k < ring.sectors ∧
      LandsAt ring request.size eraseIfFull cells erased k ∧ writes = erases ++ programs ∧
      (∀ op ∈ erases, op.isErase = true) ∧
      (∀ {memory : Memory}, RingHolds memory ring cells →
        RingHolds (replay erases memory) ring erased) ∧
      Places ring erased k request top programs .ok changed index' := by
  induction appends with
  | @placed cells changed index index' k writes status frontier places _ =>
      subst ok
      exact ⟨cells, k, _, [], writes, frontier.lt (oldest_lt ring cells),
        .here frontier ((places.hasRoom_iff short).mpr rfl), rfl, by simp, fun holds => holds,
        places⟩
  | refused => cases ok
  | @overwrite cells changed index index' writes status full erases places =>
      subst ok
      exact ⟨_, _, _, [.erase (ring.sectorAddr (oldest ring cells)) 4096], writes,
        oldest_lt ring cells, .around full erases, rfl, by simp [Op.isErase],
        fun holds => holds.erase, places⟩
  | @retry cells changed index index' refusedIndex k writes status refusal frontier places noRoom
      erases _ ih =>
      obtain ⟨erased, landing, top, first, programs, inRing, lands, rfl, onlyErases, holdsErased,
        placed⟩ := ih ok
      have refused : ¬HasRoom ring cells k request.size := by
        rw [places.hasRoom_iff short]
        rcases noRoom with rfl | rfl <;> decide
      refine ⟨erased, landing, top, .erase (ring.sectorAddr (oldest ring cells)) 4096 :: first,
        programs, inRing, .retry frontier refused erases lands, rfl, ?_,
        fun holds => holdsErased holds.erase, placed⟩
      intro op member
      rcases List.mem_cons.mp member with rfl | later
      · rfl
      · exact onlyErases op later

end Lands

/-! ## Exact fits -/

/-- The record ends with the sector it lands in. -/
def EndsSector (cells : Nat → Option Sector) (k size : Nat) : Prop :=
  ∃ sector, cells k = some sector ∧ sector.used + 4 + size = 4096

theorem Request.piece_split (request : Request) {flags : Byte} (start : Nat) {len : Nat}
    (high : flags &&& 0x1f = 0) (positive : 0 < len) (short : len ≤ 4088) :
    (request.piece flags start len high positive short).split = true ↔
      flags &&& rbHeaderSplit ≠ 0 := decide_eq_true_iff

theorem Request.whole_split (request : Request) (short : request.size ≤ 4088) :
    (request.whole short).split = false :=
  Bool.eq_false_iff.mpr ((request.piece_split _ _ _ _).not.mpr (by decide))

theorem Request.head_split (request : Request) {first : Nat} (positive : 0 < first)
    (short : first ≤ 4088) : (request.head first positive short).split = false :=
  Bool.eq_false_iff.mpr ((request.piece_split _ _ _ _).not.mpr (by decide))

theorem Request.tail_split (request : Request) {second : Nat} (positive : 0 < second)
    (short : second ≤ 4088) : (request.tail second positive short).split = true :=
  (request.piece_split _ _ _ _).mpr (by decide)

section Exact

variable {ring : Geometry} {cells changed : Nat → Option Sector} {k : Nat}
  {request : Request} {index index' : Nat} {programs : List Op}

theorem Places.programs_isErase {status : RbError}
    (places : Places ring cells k request index programs status changed index') {op : Op}
    (member : op ∈ programs) : op.isErase = false := by
  cases places with
  | oversize => cases member
  | fresh => exact openWrites_isErase member
  | inside => exact putWrites_isErase member
  | split | exact =>
      rcases List.mem_append.mp member with put | opened
      · exact putWrites_isErase put
      · exact openWrites_isErase opened
  | full => cases member
  | wrapped => cases member

/-- A record that does not end with its sector leaves its own headers. -/
theorem Places.adds (places : Places ring cells k request index programs .ok changed index')
    (inRing : k < ring.sectors) (loose : ¬EndsSector cells k request.size) :
    AddsRecord ring cells changed request.id request.size programs := by
  cases places with
  | fresh short cell =>
      have joins := @Joins.first ring cells k (request.whole short) (nextIndex index)
        (Sector.single (nextIndex index) (request.whole short)) cell rfl
      refine .whole inRing joins rfl (request.whole_split short) ?_ (setCell_self _ _ _)
        fun j _ ne =>
        setCell_of_ne _ _ ne
      exact slice_length _ _ _
  | @inside sector short cell room fits =>
      have joins := @Joins.behind ring cells k (request.whole short) sector
        (sector.push (request.whole short) fits) cell rfl
      refine .whole inRing joins rfl (request.whole_split short) ?_ (setCell_self _ _ _)
        fun j _ ne =>
        setCell_of_ne _ _ ne
      exact slice_length _ _ _
  | @split sector short cell spills erased first second sizes filled firstPos secondPos
      firstShort secondShort fits =>
      have apart : ring.succ k ≠ k := by
        intro equal
        rw [equal, cell] at erased
        cases erased
      have joinsHead := @Joins.behind ring cells k (request.head first firstPos firstShort) sector
        (sector.push (request.head first firstPos firstShort) fits) cell rfl
      have joinsTail := @Joins.first ring cells (ring.succ k)
        (request.tail second secondPos secondShort) (nextIndex index)
        (Sector.single (nextIndex index) (request.tail second secondPos secondShort)) erased rfl
      refine .pieces inRing apart joinsHead joinsTail erased rfl rfl
        (request.head_split firstPos firstShort) (request.tail_split secondPos secondShort) ?_ ?_
        (setCell_self _ _ _) fun j _ ne neNext => ?_
      · simp only [Request.head, Request.tail, Request.piece, slice_length]
        exact sizes
      · rw [setCell_of_ne _ _ (Ne.symm apart), setCell_self]
      · rw [setCell_of_ne _ _ neNext, setCell_of_ne _ _ ne]
  | exact short cell filled => exact absurd ⟨_, cell, filled⟩ loose

/-- A record that ends with its sector is counted twice by the headers. -/
theorem Places.payload_exact
    (places : Places ring cells k request index programs .ok changed index')
    (inRing : k < ring.sectors) (ends : EndsSector cells k request.size) :
    ringPayload ring changed = ringPayload ring cells + 2 * request.size := by
  obtain ⟨used, equal, whole⟩ := ends
  have positive := request.size_pos
  cases places with
  | fresh _ cell =>
      rw [cell] at equal
      cases equal
  | inside _ cell room =>
      rw [cell] at equal
      cases equal
      omega
  | split _ cell _ _ sizes filled =>
      rw [cell] at equal
      cases equal
      omega
  | @exact sector short cell filled erased fits =>
      have apart : ring.succ k ≠ k := by
        intro same
        rw [same, cell] at erased
        cases erased
      have middle := @ringPayload_change ring cells
        (setCell cells k (some (sector.push (request.whole short) fits))) k inRing
        fun j _ ne => setCell_of_ne _ _ ne
      have change := @ringPayload_change ring
        (setCell cells k (some (sector.push (request.whole short) fits)))
        (setCell (setCell cells k (some (sector.push (request.whole short) fits))) (ring.succ k)
          (some (Sector.single (nextIndex index) (request.phantom short)))) (ring.succ k)
        (ring.succ_lt inRing) fun j _ ne => setCell_of_ne _ _ ne
      have grown : payloadBytes (some (sector.push (request.whole short) fits)) =
          payloadBytes (cells k) + request.size := by
        simp [payloadBytes, cell, Sector.push, Request.whole, Request.piece]
      have opened : payloadBytes (some (Sector.single (nextIndex index)
          (request.phantom short))) = request.size := by
        simp [payloadBytes, Sector.single, Request.phantom]
      rw [setCell_self, grown] at middle
      rw [setCell_of_ne _ _ apart, erased, setCell_self, opened] at change
      simp only [payloadBytes] at change
      omega

end Exact

/-! ## The append in a run -/

/-- What the operations `writes` of an append did to the chain of data headers: after the erases
a record of `size` bytes was added, header by header. -/
def AppendAdds (ring : Geometry) (memory : Memory) (writes : List Op) (final : Memory)
    (id : Byte) (size : Nat) : Prop :=
  ∃ erases programs cells changed, writes = erases ++ programs ∧
    (∀ op ∈ erases, op.isErase = true) ∧ RingHolds (replay erases memory) ring cells ∧
    RingHolds final ring changed ∧ AddsRecord ring cells changed id size programs

/-- Operations split into erases and others in one way only. -/
theorem erases_unique {left right left' right' : List Op} (equal : left ++ right = left' ++ right')
    (leftErases : ∀ op ∈ left, op.isErase = true) (rightOther : ∀ op ∈ right, op.isErase = false)
    (leftErases' : ∀ op ∈ left', op.isErase = true)
    (rightOther' : ∀ op ∈ right', op.isErase = false) : left = left' := by
  have kept : ∀ {before after : List Op}, (∀ op ∈ before, op.isErase = true) →
      (∀ op ∈ after, op.isErase = false) → (before ++ after).filter Op.isErase = before := by
    intro before after erases others
    rw [List.filter_append, List.filter_eq_self.mpr erases,
      List.filter_eq_nil_iff.mpr fun op member => by simp [others op member], List.append_nil]
  rw [← kept leftErases rightOther, equal, kept leftErases' rightOther']

section Run

variable {ring : Geometry} {first device after : Device} {events : List Event}
  {request : Request} {cells : Nat → Option Sector} {writes : List Op}

/-- An append that runs as `Appends` says is a step. -/
theorem Formed.append_step {changed : Nat → Option Sector} {index' : Nat} {status : RbError}
    {eraseIfFull : Bool} (formed : Formed ring device cells) (fits : request.Fits ring)
    (appends : Appends ring request eraseIfFull cells device.rb.sectorIndex writes status changed
      index') (pagebuffer : Memory) :
    ∃ after, Step ring device ⟨.append request.id request.data request.size pagebuffer eraseIfFull,
        status.code, writes⟩ after ∧ Formed ring after changed ∧
      after.rb.sectorIndex = index' := by
  obtain ⟨rb', on', -, index, completes⟩ :=
    rbAppend_completes request formed.on formed.holds formed.filled fits appends pagebuffer
  have ran := completes.map fun result => (result.1.code, result.2)
  exact ⟨⟨rb', replay writes device.memory⟩, ⟨trivial, ran.mono fun _ _ => trivial, rfl⟩,
    ⟨on', appends.holds formed.holds, appends.filled formed.filled⟩, index⟩

/-- What a successful append leaves where its record lands. -/
private theorem appendAdds_landed {memory : Memory} {erased changed : Nat → Option Sector}
    {k top index' : Nat} {erases programs : List Op} (inRing : k < ring.sectors)
    (onlyErases : ∀ op ∈ erases, op.isErase = true)
    (holdsErased : RingHolds (replay erases memory) ring erased)
    (places : Places ring erased k request top programs .ok changed index')
    (holdsAfter : RingHolds after.memory ring changed) :
    AppendAdds ring memory (erases ++ programs) after.memory request.id request.size ↔
      ¬EndsSector erased k request.size := by
  constructor
  · rintro ⟨erases', programs', cells', changed', equal, onlyErases', holds', holdsAfter', adds⟩
      ends
    obtain rfl := erases_unique equal onlyErases (fun op member => places.programs_isErase member)
      onlyErases' fun op member => adds.programs_isErase member
    have before : ringPayload ring cells' = ringPayload ring erased :=
      ringPayload_congr fun j bound => holds'.unique holdsErased bound
    have behind : ringPayload ring changed' = ringPayload ring changed :=
      ringPayload_congr fun j bound => holdsAfter'.unique holdsAfter bound
    have counted := places.payload_exact inRing ends
    have added := adds.payload
    have positive := request.size_pos
    omega
  · intro loose
    exact ⟨erases, programs, erased, changed, rfl, onlyErases, holdsErased, holdsAfter,
      places.adds inRing loose⟩

/-- On every reachable ring a successful append adds exactly the headers of its record, unless
the record ends with the sector it lands in. -/
theorem append_adds_record_iff (started : Started ring first)
    (run : Run (Step ring) first events device) (next : Nat) (request : Request)
    (short : request.size ≤ rbMaxAppendSize) {pagebuffer : Memory} {eraseIfFull : Bool}
    (step : Step ring { device with rb := { device.rb with next } }
      ⟨.append request.id request.data request.size pagebuffer eraseIfFull, RbError.ok.code,
        writes⟩ after)
    (holds : RingHolds device.memory ring cells) :
    AppendAdds ring device.memory writes after.memory request.id request.size ↔
      ∀ erased k, LandsAt ring request.size eraseIfFull cells erased k →
        ¬EndsSector erased k request.size := by
  obtain ⟨original, formed⟩ := started.formed.run run
  have filled : Filled ring cells := by
    intro k inRing sector cell
    rw [holds.unique formed.holds inRing] at cell
    exact formed.filled k inRing sector cell
  have on : OnRing { device.rb with next } ring := ⟨formed.on.base_eq, formed.on.bytes_eq⟩
  rcases step.append on holds filled with
    ⟨-, failed, -⟩ | ⟨request', status, changed, sameId, -, sameSize, -, result, holdsAfter, -, -,
      appends⟩
  · cases failed
  have ok : status = .ok := by
    cases status <;> first | rfl | cases result
  obtain ⟨erased, k, top, erases, programs, inRing, lands, rfl, onlyErases, holdsErased, places⟩ :=
    appends.lands (by rw [sameSize]; exact short) ok
  rw [← sameId, ← sameSize,
    appendAdds_landed inRing onlyErases (holdsErased holds) places holdsAfter]
  constructor
  · intro loose other landing landsOther
    obtain ⟨rfl, rfl⟩ := lands.unique landsOther
    exact loose
  · exact fun loose => loose erased k lands

end Run

/-- The sectors of the pair behind a first record of 4000 bytes. -/
def oneRecordCells : Nat → Option Sector :=
  setCell (fun _ => none) 0
    (some (Sector.single 1 ((zeroRequest 4000 (by decide)).whole (by decide))))

/-- A first record goes into the first sector of an erased ring. -/
theorem first_append : ∃ writes after,
    Step pairRing (Device.blank pairRing)
      ⟨.append 1 (fun _ => 0) 4000 (fun _ => 0) false, RbError.ok.code, writes⟩ after ∧
    Formed pairRing after oneRecordCells ∧ after.rb.sectorIndex = 1 := by
  have blank := (@started_blank pairRing (by decide)).formed
  have frontier : Frontier pairRing (fun _ => none) (oldest pairRing fun _ => none) 0 :=
    ⟨0, by decide, by decide, rfl, fun _ impossible => absurd impossible (Nat.not_lt_zero _)⟩
  obtain ⟨after, step, formed, index⟩ := blank.append_step
    ((zeroRequest 4000 (by decide)).fits_of_short pairRing (by decide))
    (.placed frontier (.fresh (by decide) rfl) fun _ => rfl) fun _ => 0
  exact ⟨_, after, step, formed, index⟩

theorem oneRecord_used (sector : Sector) (cell : oneRecordCells 0 = some sector) :
    sector.used = 4008 := by
  rw [oneRecordCells, setCell_self] at cell
  cases cell
  exact single_zeroRequest_used 1 4000 (by decide) (by decide)

theorem oneRecord_frontier :
    Frontier pairRing oneRecordCells (oldest pairRing oneRecordCells) 0 := by
  have notFull : cellFull (oneRecordCells 0) = false := by
    rw [oneRecordCells, setCell_self, cellFull, Sector.not_isFull_iff,
      single_zeroRequest_used 1 4000 (by decide) (by decide)]
    decide
  exact ⟨0, by decide, by decide, notFull, fun _ impossible => absurd impossible
    (Nat.not_lt_zero _)⟩

theorem append_adds_first_record : ∃ writes after,
    Step pairRing (Device.blank pairRing)
      ⟨.append 1 (fun _ => 0) 4000 (fun _ => 0) false, RbError.ok.code, writes⟩ after ∧
    (AppendAdds pairRing (Device.blank pairRing).memory writes after.memory 1 4000 ↔
      ∀ erased k, LandsAt pairRing 4000 false (fun _ => none) erased k →
        ¬EndsSector erased k 4000) := by
  obtain ⟨writes, after, step, -, -⟩ := first_append
  exact ⟨writes, after, step, append_adds_record_iff (@started_blank pairRing (by decide))
    .nil 0 (zeroRequest 4000 (by decide)) (by decide) step (ringBlank_const pairRing)⟩

/-- A record that ends with its sector leaves a second header with nothing behind it. -/
theorem exact_record_adds_phantom : ∃ (events : List Event) (device : Device) (writes : List Op)
    (after : Device),
    Run (Step pairRing) (Device.blank pairRing) events device ∧
    Step pairRing device
      ⟨.append 1 (fun _ => 0) 84 (fun _ => 0) false, RbError.ok.code, writes⟩ after ∧
    ¬AppendAdds pairRing device.memory writes after.memory 1 84 := by
  obtain ⟨written, device, one, formed, index⟩ := first_append
  have cell : oneRecordCells 0 =
      some (Sector.single 1 ((zeroRequest 4000 (by decide)).whole (by decide))) :=
    setCell_self _ _ _
  have used := oneRecord_used _ cell
  have places := @Places.exact pairRing _ 0 (zeroRequest 84 (by decide))
    (topOf pairRing oneRecordCells device.rb.sectorIndex) _ (by decide) cell
    (by rw [used]; rfl) rfl (by rw [used]; simp
    [Fragment.size, Request.whole, Request.piece, zeroRequest])
  obtain ⟨after, step, formedAfter, -⟩ := formed.append_step
    ((zeroRequest 84 (by decide)).fits_of_short pairRing (by decide))
    (.placed oneRecord_frontier places fun _ => rfl) fun _ => 0
  refine ⟨_, device, _, after, .snoc .nil one, step, ?_⟩
  have holds : RingHolds (replay [] device.memory) pairRing oneRecordCells := formed.holds
  have landed := appendAdds_landed (by decide) (by simp) holds places formedAfter.holds
  rw [List.nil_append] at landed
  exact landed.not.mpr (not_not_intro ⟨_, cell, by rw [used]; rfl⟩)

end PicoApConfigure.RingBuffer
