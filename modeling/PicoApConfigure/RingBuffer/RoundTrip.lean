import PicoApConfigure.RingBuffer.Entries
import PicoApConfigure.RingBuffer.Overwrite
import PicoApConfigure.RingBuffer.Reopen
import PicoApConfigure.RingBuffer.Unique

/-!
# What is appended is read back

While no sector is erased the log starts in sector 0 and holds one entry for each append.  A ring
with a blank header is opened again at that sector, and the reads from there go through the
entries in the order of the appends.
-/

namespace PicoApConfigure.RingBuffer

open Nor

/-! ## Records -/

/-- An append of a record that succeeds and erases no sector. -/
inductive Appended : Event → Prop
  | mk {id : Byte} {data pagebuffer : Memory} {size : Nat} {eraseIfFull : Bool}
      {writes : List Op} (idPos : id ≠ 0) (idNe : id ≠ 0xff) (sizePos : 0 < size)
      (short : size ≤ rbMaxAppendSize) (keeps : writes.filter Op.isErase = []) :
      Appended ⟨.append id data size pagebuffer eraseIfFull, RbError.ok.code, writes⟩

/-- The record of an append for `id`. -/
def Event.record (id : Byte) (event : Event) : Option (List Byte) :=
  match event.call with
  | .append other data size _ _ => if other = id then some (slice data 0 size) else none
  | _ => none

/-- The records of `id` in the order of their appends. -/
def recordsOf (id : Byte) (events : List Event) : List (List Byte) :=
  events.filterMap (Event.record id)

/-- Some header of the ring is blank. -/
def HasBlankHeader (ring : Geometry) (memory : Memory) : Prop :=
  ∃ cells, RingHolds memory ring cells ∧ ¬AllFull ring cells

/-- Whatever control block the ring is opened with again, reads of `size` bytes return for every id
its records in the order of the appends, and then fail. -/
def ReturnsRecords (ring : Geometry) (device : Device) (size : Nat) (events : List Event) : Prop :=
  ∀ (block : RbT) (baseAddress numberOfSectors : Nat) (choice : InitChoice) (id : Byte)
    (data : Memory), Opens ring baseAddress numberOfSectors → choice ≠ .createInitAlways →
    id ≠ 0 → id ≠ 0xff → ∃ result reopened,
      Step ring device ⟨.create block baseAddress numberOfSectors choice, result, []⟩ reopened ∧
      (result = RbError.ok.code ∨ result = RbError.blankHdr.code) ∧
      ReadsBack ring reopened.memory id size reopened.rb data (recordsOf id events)

/-- The append stores its record whole on the log that the flash carries. -/
def KeepsRecord (ring : Geometry) (memory : Memory) : Call → Prop
  | .append _ data size _ _ => ∀ cells start log, RingHolds memory ring cells →
      Ordered ring cells start log → StoresWhole (writeOffset log) data size
  | _ => True

/-- A step whose append stores its record whole. -/
def KeepingStep (ring : Geometry) (before : Device) (event : Event) (after : Device) : Prop :=
  Step ring before event after ∧ KeepsRecord ring before.memory event.call

/-- A request with the entry it became. -/
structure Placement where
  request : Request
  offset : Option Nat
  entry : Entry
  id_ne : request.id ≠ 0
  stored : Stored request offset entry

/-- What a run of appends from `first` has stored. -/
structure Recorded (ring : Geometry) (first : Device) (events : List Event) (device : Device)
    (cells : Nat → Option Sector) (log : List Sector) (placements : List Placement) : Prop where
  inOrder : InOrder ring device cells 0 log
  cached : device.rb.sectorIndex ≤ placements.length
  indices : ∀ sector ∈ log, sector.index ≤ placements.length
  tape_eq : tape log = (placements.map Placement.entry).flatMap Entry.marks
  count : placements.length = events.length
  records : ∀ id, recordsOf id events = (placements.filter fun placement =>
    placement.request.id = id).map fun placement => placement.request.record
  whole : (∀ placement ∈ placements, StoresWhole placement.offset placement.request.data
    placement.request.size) ↔ Run (KeepingStep ring) first events device

section RoundTrip

variable {ring : Geometry} {first device before after : Device} {event : Event}
  {events : List Event} {cells : Nat → Option Sector} {start : Nat} {log : List Sector}
  {placements : List Placement} {size : Nat} {memory : Memory}

/-- The device after a call is determined. -/
theorem Step.unique {after' : Device} (step : Step ring before event after)
    (step' : Step ring before event after') : after = after' := by
  have rb := congrArg Prod.snd (step.completes.unique step'.completes).2
  have memory := step.memory_eq.trans step'.memory_eq.symm
  cases after
  cases after'
  simp only at rb memory
  rw [rb, memory]

/-! ## How many records there are -/

@[simp] theorem marks_length (offset : Nat) (frags : List Fragment) :
    (marks offset frags).length = frags.length := by
  induction frags generalizing offset with
  | nil => rfl
  | cons fragment frags ih => simp only [marks, List.length_cons, ih]

theorem frags_length_le (frags : List Fragment) : 5 * frags.length ≤ fragsSize frags := by
  induction frags with
  | nil => simp
  | cons fragment frags ih =>
      have := fragment.size_pos
      rw [List.length_cons, fragsSize_cons]
      omega

theorem tape_length_le (log : List Sector) : 5 * (tape log).length ≤ 4096 * log.length := by
  induction log with
  | nil => simp
  | cons sector log ih =>
      have := frags_length_le sector.frags
      have := sector.fits
      rw [tape_cons, List.length_append, marks_length, List.length_cons]
      omega

theorem length_le_marks (entries : List Entry) :
    entries.length ≤ (entries.flatMap Entry.marks).length := by
  induction entries with
  | nil => simp
  | cons entry entries ih =>
      rw [List.flatMap_cons, List.length_append, List.length_cons]
      cases entry <;> simp only [Entry.marks, List.length_cons, List.length_nil] <;> omega

theorem Recorded.few (recorded : Recorded ring first events device cells log placements) :
    5 * placements.length ≤ 4096 * ring.sectors := by
  have entries := length_le_marks (placements.map Placement.entry)
  have bytes := tape_length_le log
  have length := recorded.inOrder.ordered.length_le
  rw [recorded.tape_eq] at bytes
  rw [List.length_map] at entries
  omega

/-! ## Runs of appends -/

/-- An erased ring that has just been opened. -/
theorem Recorded.nil (inOrder : InOrder ring first cells 0 [])
    (fresh : first.rb.sectorIndex = 0) : Recorded ring first [] first cells [] [] where
  inOrder := inOrder
  cached := by rw [fresh]; exact Nat.zero_le _
  indices := by simp
  tape_eq := rfl
  count := rfl
  records := by simp [recordsOf]
  whole := iff_of_true (by simp) .nil

/-- An append puts one entry behind the others. -/
theorem Recorded.step (recorded : Recorded ring first events device cells log placements)
    (run : Run (Step ring) first events device) (step : Step ring device event after)
    (appended : Appended event) :
    ∃ cells' log' placement,
      Recorded ring first (events ++ [event]) after cells' log' (placements ++ [placement]) := by
  have few := recorded.few
  have limit := ring.sectors_le
  obtain ⟨⟨on, holds, ordered⟩, cached, indices, tape_eq, count, records, whole⟩ := recorded
  obtain @⟨id, data, pagebuffer, size, eraseIfFull, writes, idPos, idNe, sizePos, short, keeps⟩ :=
    appended
  rcases step.append on holds ordered.filled with
    ⟨_, refused, _, _⟩ |
      ⟨request, status, changed, rfl, rfl, rfl, fits, code, holds', on', _, appends⟩
  · simp [RbError.code] at refused
  obtain rfl : status = .ok := by
    by_contra failed
    have negative := RbError.code_neg failed
    rw [← code] at negative
    simp [RbError.code] at negative
  have top := ordered.top_le cached indices
  obtain ⟨_, high, start', log', outcome, ordered'⟩ :=
    ordered.appends (by simp only [rbIndexMask]; omega) appends
  -- nothing is erased, so the log has grown
  obtain ⟨rfl, grows⟩ : start' = 0 ∧ Grows ring 0 request
      (topOf ring cells device.rb.sectorIndex + 1) log writes log' := by
    cases outcome with
    | refused failed => exact absurd rfl failed
    | grown grows => exact ⟨rfl, grows⟩
    | replaced => simp [Op.isErase] at keeps
  obtain ⟨entry, stored, grown⟩ := grows.stored
  have kept : KeepsRecord ring device.memory
      (.append request.id request.data request.size pagebuffer eraseIfFull) ↔
        StoresWhole (writeOffset log) request.data request.size := by
    constructor
    · intro all
      exact all cells 0 log holds ordered
    · intro one cells' start' log' holds' ordered'
      rw [← (Ordered.unique holds ordered holds' ordered').2]
      exact one
  refine ⟨changed, log', ⟨request, writeOffset log, entry, idPos, stored⟩,
    ⟨on', holds', ordered'⟩, ?_, ?_, ?_, ?_, ?_, ?_⟩
  · rw [List.length_append, List.length_singleton]
    omega
  · rw [List.length_append, List.length_singleton]
    exact grows.index_le (by omega) fun sector member => Nat.le_succ_of_le (indices sector member)
  · rw [grown, tape_eq]
    simp
  · simpa using count
  · intro id
    rw [recordsOf, List.filterMap_append, ← recordsOf, records id, List.filter_append,
      List.map_append]
    by_cases same : request.id = id
    · simp [Event.record, same, Request.record]
    · simp [Event.record, same]
  · simp only [List.mem_append, List.mem_singleton]
    constructor
    · intro all
      have earlier := whole.mp fun placement member => all placement (.inl member)
      exact earlier.snoc ⟨step, kept.mpr (all _ (.inr rfl))⟩
    · intro strong placement member
      obtain ⟨middle, earlier, last⟩ := strong.snoc_inv
      have weaker : Run (Step ring) first events middle := earlier.mono fun _ _ _ step => step.1
      obtain rfl := @Run.unique _ _ (Step ring) _ _ _ _ (fun _ _ _ _ => Step.unique) weaker run
      rcases member with old | rfl
      · exact whole.mpr earlier placement old
      · exact kept.mp last.2

theorem Recorded.run (inOrder : InOrder ring first cells 0 [])
    (fresh : first.rb.sectorIndex = 0) (run : Run (Step ring) first events device)
    (appended : ∀ event ∈ events, Appended event) :
    ∃ cells log placements, Recorded ring first events device cells log placements := by
  induction run with
  | nil => exact ⟨_, _, _, .nil inOrder fresh⟩
  | @snoc events event middle final run step ih =>
      obtain ⟨cells, log, placements, recorded⟩ := ih fun event member =>
        appended event (by simp [member])
      obtain ⟨cells', log', placement, recorded'⟩ := recorded.step run step
        (appended event (by simp))
      exact ⟨cells', log', _, recorded'⟩

theorem recordsOf_short (appended : ∀ event ∈ events, Appended event) (id : Byte) :
    ∀ bytes ∈ recordsOf id events, bytes.length ≤ rbMaxAppendSize := by
  intro bytes member
  obtain ⟨event, listed, record⟩ := List.mem_filterMap.mp member
  obtain @⟨other, data, pagebuffer, size, eraseIfFull, writes, _, _, _, short, _⟩ :=
    appended event listed
  simp only [Event.record, Option.ite_none_right_eq_some, Option.some.injEq] at record
  rw [← record.2, slice_length]
  exact short

/-! ## Reading the records back -/

/-- The list functions that follow one id agree if their values do. -/
theorem flatMap_eq_map_iff {α β : Type} {many : α → List β} {one : α → β} (items : List α)
    (nonempty : ∀ item ∈ items, many item ≠ []) :
    items.flatMap many = items.map one ↔ ∀ item ∈ items, many item = [one item] := by
  have longer : ∀ items : List α, (∀ item ∈ items, many item ≠ []) →
      items.length ≤ (items.flatMap many).length := by
    intro items
    induction items with
    | nil => simp
    | cons item items ih =>
        intro nonempty
        have first := List.length_pos_iff.mpr (nonempty item (by simp))
        have rest := ih fun other member => nonempty other (by simp [member])
        rw [List.flatMap_cons, List.length_append, List.length_cons]
        omega
  induction items with
  | nil => simp
  | cons item items ih =>
      have rest : items.flatMap many = items.map one ↔ ∀ item ∈ items, many item = [one item] :=
        ih fun other member => nonempty other (by simp [member])
      rw [List.flatMap_cons, List.map_cons, List.forall_mem_cons]
      constructor
      · intro equal
        have length := longer items fun other member => nonempty other (by simp [member])
        have total := congrArg List.length equal
        rw [List.length_append, List.length_cons, List.length_map] at total
        have single : (many item).length = 1 := by
          have := List.length_pos_iff.mpr (nonempty item (by simp))
          omega
        obtain ⟨value, found⟩ := List.length_eq_one_iff.mp single
        rw [found, List.singleton_append, List.cons.injEq] at equal
        rw [found, equal.1]
        exact ⟨rfl, rest.mp equal.2⟩
      · rintro ⟨first, others⟩
        rw [first, rest.mpr others, List.singleton_append]

/-- A blank header is one of the newest sector or of an erased one. -/
theorem HasBlankHeader.unfilled (blank : HasBlankHeader ring memory)
    (holds : RingHolds memory ring cells) (ordered : Ordered ring cells start log) :
    Unfilled ring log := by
  obtain ⟨other, holds', notFull⟩ := blank
  by_contra filled
  simp only [Unfilled, not_or, Nat.not_lt, not_exists, not_and] at filled
  obtain ⟨long, newest⟩ := filled
  have length := ordered.length_le
  have used : log.length = ring.sectors := by omega
  refine notFull fun k inRing => ?_
  rw [← holds.unique holds' inRing]
  refine ordered.allFull (ordered.newest_cases.resolve_right ?_) used k inRing
  rintro ⟨older, last, rfl, room⟩
  exact newest last (by simp) room

theorem Recorded.chronicle (recorded : Recorded ring first events device cells log placements) :
    Chronicle (tape log) (placements.map Placement.entry) where
  tape_eq := recorded.tape_eq
  formed := by
    intro entry member
    obtain ⟨placement, _, rfl⟩ := List.mem_map.mp member
    exact placement.stored.formed
  unsplit := by
    intro entry member
    obtain ⟨placement, _, rfl⟩ := List.mem_map.mp (List.mem_of_mem_tail member)
    exact placement.stored.unsplit

/-- What is read back for an id comes from its own entries. -/
theorem readings_filter (id : Byte) (size : Nat) (placements : List Placement) :
    (placements.map Placement.entry).flatMap (Entry.readings id size) =
      (placements.filter fun placement => placement.request.id = id).flatMap fun placement =>
        placement.entry.readings placement.request.id size := by
  induction placements with
  | nil => rfl
  | cons placement placements ih =>
      rw [List.map_cons, List.flatMap_cons, ih]
      by_cases same : placement.request.id = id
      · rw [List.filter_cons_of_pos (by simpa using same), List.flatMap_cons, same]
      · rw [List.filter_cons_of_neg (by simpa using same), placement.stored.readings_other same,
          List.nil_append]

/-- The ring opens at the start of its log. -/
theorem Recorded.reopens (recorded : Recorded ring first events device cells log placements)
    {baseAddress numberOfSectors : Nat} {choice : InitChoice}
    (opens : Opens ring baseAddress numberOfSectors) (keeps : choice ≠ .createInitAlways)
    (block : RbT) :
    ∃ result rb',
      Step ring device ⟨.create block baseAddress numberOfSectors choice, result, []⟩
        ⟨rb', device.memory⟩ ∧
      (result = RbError.ok.code ∨ result = RbError.blankHdr.code) ∧ OnRing rb' ring ∧
      Position ring 0 log 0 rb'.next (tape log) := by
  obtain ⟨_, holds, ordered⟩ := recorded.inOrder
  obtain ⟨rb', on', next, _, create⟩ := ordered.create_exec block holds (.inr (.inl rfl)) opens
    keeps
  have returns := create.completes.map fun result => (result.1.code, result.2)
  have position := ordered.begins
  rw [← next] at position
  refine ⟨(entryStatus (indexOf cells 0)).code, rb', ⟨opens, returns, rfl⟩, ?_, on', position⟩
  rcases entryStatus_eq_ok_or (indexOf cells 0) with good | blank
  · exact .inl (by rw [good])
  · exact .inr (by rw [blank])

/-- Arguments that `rb_read` does not accept return nothing. -/
theorem ReadsBack.rejected {rb : RbT} {id : Byte} (on : OnRing rb ring)
    (rejected : ¬ReadFits ring id size) (data : Memory) :
    ReadsBack ring memory id size rb data [] :=
  .done (by simp [RbError.code]) (rbRead_refused on rejected data)

/-- The records come back if and only if the buffer is not too large for the ring and every append
has stored its record whole. -/
theorem Recorded.returns_iff (recorded : Recorded ring first events device cells log placements)
    (blank : HasBlankHeader ring device.memory)
    (large : ∀ id, ∀ bytes ∈ recordsOf id events, bytes.length ≤ size)
    (address : ∃ baseAddress numberOfSectors, Opens ring baseAddress numberOfSectors) :
    ReturnsRecords ring device size events ↔
      (events = [] ∨ size + 4 ≤ 4096 * ring.sectors) ∧
        Run (KeepingStep ring) first events device := by
  obtain ⟨_, holds, ordered⟩ := recorded.inOrder
  have unfilled := blank.unfilled holds ordered
  have count := recorded.count
  -- what is read back, for arguments that are accepted
  have readsBack : ∀ {id : Byte} {rb : RbT} (data : Memory), ReadFits ring id size →
      OnRing rb ring → Position ring 0 log 0 rb.next (tape log) →
      ReadsBack ring device.memory id size rb data
        ((placements.filter fun placement => placement.request.id = id).flatMap fun placement =>
          placement.entry.readings placement.request.id size) := by
    intro id rb data fits on position
    rw [← readings_filter]
    exact (recorded.chronicle.tapeReads fits.1).readsBack holds ordered unfilled fits on position
      data
  have sizes : ∀ placement ∈ placements, placement.request.size ≤ size := by
    intro placement member
    have listed : placement.request.record ∈ recordsOf placement.request.id events := by
      rw [recorded.records]
      exact List.mem_map_of_mem (List.mem_filter.mpr ⟨member, by simp⟩)
    have bound := large _ _ listed
    rwa [Request.record, slice_length] at bound
  have nonempty : ∀ placement ∈ placements,
      placement.entry.readings placement.request.id size ≠ [] :=
    fun placement _ => placement.stored.readings_ne_nil
  have agree : ∀ id, ((placements.filter fun placement => placement.request.id = id).flatMap
      fun placement => placement.entry.readings placement.request.id size) =
        recordsOf id events ↔
      ∀ placement ∈ placements.filter fun placement => placement.request.id = id,
        placement.entry.readings placement.request.id size = [placement.request.record] := by
    intro id
    rw [recorded.records]
    exact flatMap_eq_map_iff _ fun placement member =>
      nonempty placement (List.mem_of_mem_filter member)
  rw [← recorded.whole]
  constructor
  · intro returns
    by_cases none : events = []
    · rw [none, List.length_nil, List.length_eq_zero_iff] at count
      exact ⟨.inl none, by simp [count]⟩
    obtain ⟨baseAddress, numberOfSectors, opens⟩ := address
    -- for each placement, open the ring and read the records of its id
    have each : ∀ placement ∈ placements, size + 4 ≤ 4096 * ring.sectors ∧
        StoresWhole placement.offset placement.request.data placement.request.size := by
      intro placement member
      obtain ⟨_, reopened, step, _, reads⟩ := returns .zeroed baseAddress numberOfSectors
        .createFail
        placement.request.id (fun _ => 0) opens (by simp) placement.id_ne placement.request.id_ne
      obtain ⟨_, rb', step', _, on, position⟩ := recorded.reopens opens
        (by simp : InitChoice.createFail ≠ .createInitAlways) .zeroed
      have same := congrArg Prod.snd (step.completes.unique step'.completes).2
      simp only at same
      rw [step.memory_eq, same, replay_nil] at reads
      by_cases fits : ReadFits ring placement.request.id size
      · have equal := (readsBack (fun _ => 0) fits on position).unique reads
        have whole := (agree _).mp equal placement (List.mem_filter.mpr ⟨member, by simp⟩)
        exact ⟨fits.2.2.2, (placement.stored.readings_iff (sizes placement member)).mp whole⟩
      · have empty := (ReadsBack.rejected on fits _).unique reads
        have listed : placement.request.record ∈ recordsOf placement.request.id events := by
          rw [recorded.records]
          exact List.mem_map_of_mem (List.mem_filter.mpr ⟨member, by simp⟩)
        rw [← empty] at listed
        cases listed
    obtain ⟨placement, member⟩ : ∃ placement, placement ∈ placements := by
      refine List.exists_mem_of_length_pos ?_
      rw [count]
      exact List.length_pos_iff.mpr none
    exact ⟨.inr (each placement member).1, fun placement member => (each placement member).2⟩
  · rintro ⟨accepted, whole⟩ block baseAddress numberOfSectors choice id data opens keeps idPos idNe
    obtain ⟨result, rb', step, status, on, position⟩ := recorded.reopens opens keeps block
    refine ⟨result, ⟨rb', device.memory⟩, step, status, ?_⟩
    by_cases fits : ReadFits ring id size
    · rw [← (agree id).mpr fun placement member =>
        (placement.stored.readings_iff (sizes placement (List.mem_of_mem_filter member))).mpr
          (whole placement (List.mem_of_mem_filter member))]
      exact readsBack data fits on position
    · -- only a ring without records is read with a buffer that is refused
      have none : placements = [] := by
        by_contra some
        obtain ⟨placement, member⟩ := List.exists_mem_of_ne_nil placements some
        have := sizes placement member
        have := placement.request.size_pos
        refine fits ⟨by omega, idNe, idPos, accepted.resolve_left ?_⟩
        rintro rfl
        rw [List.length_nil, List.length_eq_zero_iff] at count
        exact some count
      rw [recorded.records, none]
      exact .rejected on fits data

/-- Opening an erased ring with a zeroed control block leaves the index counter at zero. -/
theorem opened_index {start : Device} {baseAddress numberOfSectors : Nat} {choice : InitChoice}
    {result : Int} {writes : List Op} (erased : RingBlank start.memory ring)
    (opens : Step ring start ⟨.create .zeroed baseAddress numberOfSectors choice, result, writes⟩
      first) : first.rb.sectorIndex = 0 := by
  have place := opens.place
  by_cases always : choice = .createInitAlways
  · subst always
    have created := (@rbCreate_always_exec _ start.memory _ _ place RbT.zeroed).completes.map
      fun result => (result.1.code, result.2)
    have same := congrArg Prod.snd (opens.completes.unique created).2
    simp only at same
    rw [same]
    rfl
  · have ordered := ordered_blank ring
    obtain ⟨rb', _, _, index, create⟩ := ordered.create_exec .zeroed erased (.inr (.inl rfl)) place
      always
    have created := create.completes.map fun result => (result.1.code, result.2)
    have same := congrArg Prod.snd (opens.completes.unique created).2
    simp only at same
    have none : ∀ (sectors : List Nat), topIndex (indexOf fun _ => none) sectors 0 = 0 := fun _ =>
      Nat.le_antisymm (topIndex_le (Nat.le_refl _) (by simp [indexOf])) (Nat.zero_le _)
    rw [same, index, topOf, RbT.zeroed, none, none]

/-- The records of a run of appends that erases nothing come back if and only if the buffer is
one that `rb_read` accepts and every append stores its record whole. -/
theorem records_return_iff {start : Device} {baseAddress numberOfSectors : Nat}
    {choice : InitChoice} {result : Int} {writes : List Op} (erased : RingBlank start.memory ring)
    (opens : Step ring start ⟨.create .zeroed baseAddress numberOfSectors choice, result, writes⟩
      first)
    (run : Run (Step ring) first events device) (appended : ∀ event ∈ events, Appended event)
    (left : HasBlankHeader ring device.memory)
    (large : ∀ id, ∀ bytes ∈ recordsOf id events, bytes.length ≤ size) :
    ReturnsRecords ring device size events ↔
      (events = [] ∨ size + 4 ≤ 4096 * ring.sectors) ∧
        Run (KeepingStep ring) first events device := by
  have started : Started ring first := ⟨start, _, erased, rfl, opens⟩
  obtain ⟨cells, log, placements, recorded⟩ :=
    Recorded.run started.inOrder (opened_index erased opens) run appended
  exact recorded.returns_iff left large ⟨_, _, opens.place⟩

end RoundTrip

/-! ## A record that goes over a sector end -/

/-- A newest sector with room has a blank header. -/
theorem InOrder.blank_of_newest {ring : Geometry} {device : Device}
    {cells : Nat → Option Sector} {start : Nat} {older : List Sector} {newest : Sector}
    (inOrder : InOrder ring device cells start (older ++ [newest]))
    (room : newest.isFull = false) : HasBlankHeader ring device.memory := by
  have length := inOrder.ordered.length_le
  rw [List.length_append, List.length_singleton] at length
  refine ⟨cells, inOrder.holds, fun full => ?_⟩
  have last := full _ (ring.ahead_lt inOrder.ordered.start_lt
    (by omega : older.length ≤ ring.sectors))
  rw [inOrder.ordered.cell older.length (by omega), List.getElem?_concat_length, cellFull,
    room] at last
  cases last

theorem split_appends (request : Request) (size : request.size = 4088) :
    ∃ before device cells log writes writes',
      Step pairRing (Device.blank pairRing)
        (appendEvent (zeroRequest 4000 (by decide)) writes) before ∧
      Step pairRing before (appendEvent request writes') device ∧
      writes.filter Op.isErase = [] ∧ writes'.filter Op.isErase = [] ∧
      RingHolds before.memory pairRing cells ∧ Ordered pairRing cells 0 log ∧
      writeOffset log = some 4008 ∧ HasBlankHeader pairRing device.memory := by
  obtain ⟨before, device, cells, cells', index, index', writes, writes', fits, one, two, erases,
    erases', inOrder, counted, _⟩ := @split_log 4000 84 4004 (by decide) (by decide) (by decide)
      (by decide) (by decide) (by decide) request size rfl rfl
  have inOrder' := counted.inOrder
  have used := single_zeroRequest_used index 4000 (by decide) (by decide)
  have room : (Sector.single index ((zeroRequest 4000 (by decide)).whole (by decide))).isFull =
      false := by
    rw [Sector.not_isFull_iff, used]
    omega
  refine ⟨before, device, cells, _, writes, writes', one.1, two.1, erases, erases', inOrder.holds,
    inOrder.ordered, ?_, @InOrder.blank_of_newest _ _ _ _ [_] _ inOrder' ?_⟩
  · rw [writeOffset, List.getLast?_singleton, Option.bind_some, room, used]
    rfl
  · simp only [Sector.not_isFull_iff, Sector.used, Sector.single, fragsSize_cons, fragsSize_nil,
      Fragment.size, Request.tail, Request.piece, slice_length]
    omega

theorem appended_request {request : Request} {writes : List Op} (id : request.id = 1)
    (short : request.size ≤ 4088) (keeps : writes.filter Op.isErase = []) :
    Appended (appendEvent request writes) :=
  .mk (by rw [id]; decide) request.id_ne request.size_pos short keeps

theorem appended_pair {request : Request} {writes writes' : List Op}
    (erases : writes.filter Op.isErase = []) (erases' : writes'.filter Op.isErase = [])
    (id : request.id = 1) (short : request.size ≤ 4088) :
    ∀ event ∈ [appendEvent (zeroRequest 4000 (by decide)) writes, appendEvent request writes'],
      Appended event := by
  intro event member
  simp only [List.mem_cons, List.not_mem_nil, or_false] at member
  rcases member with rfl | rfl
  · exact appended_request rfl (by decide) erases
  · exact appended_request id short erases'

/-- Two records of zeros, the second one over the sector end, come back. -/
theorem records_return_zeros :
    ∃ writes writes' device,
      Run (Step pairRing) (Device.blank pairRing)
        [appendEvent (zeroRequest 4000 (by decide)) writes, appendEvent fillRequest writes']
        device ∧
      ReturnsRecords pairRing device 4088
        [appendEvent (zeroRequest 4000 (by decide)) writes, appendEvent fillRequest writes'] := by
  obtain ⟨before, device, cells, log, writes, writes', one, two, erases, erases', holds, ordered,
    offset, left⟩ := split_appends fillRequest rfl
  have keepsOne : KeepsRecord pairRing (Device.blank pairRing).memory
      (appendEvent (zeroRequest 4000 (by decide)) writes).call := by
    intro cells' start' log' holds' ordered'
    have same := (Ordered.unique (ringBlank_const pairRing) (ordered_blank pairRing) holds'
      ordered').2
    rw [← same]
    intro used none
    cases none
  have keepsTwo : KeepsRecord pairRing before.memory (appendEvent fillRequest writes').call := by
    intro cells' start' log' holds' ordered'
    rw [← (Ordered.unique holds ordered holds' ordered').2, offset]
    intro used equal
    cases equal
    exact ⟨by decide, fun _ => by simp [slice, fillRequest, zeroRequest]⟩
  have erased : RingBlank (Device.blank pairRing).memory pairRing := ringBlank_const pairRing
  have opens := @opens_blank pairRing (by decide)
  have run : Run (Step pairRing) (Device.blank pairRing)
      [appendEvent (zeroRequest 4000 (by decide)) writes, appendEvent fillRequest writes']
      device := .snoc (.snoc .nil one) two
  have keeping : Run (KeepingStep pairRing) (Device.blank pairRing)
      [appendEvent (zeroRequest 4000 (by decide)) writes, appendEvent fillRequest writes']
      device := .snoc (.snoc .nil ⟨one, keepsOne⟩) ⟨two, keepsTwo⟩
  have appended := @appended_pair fillRequest _ _ erases erases' rfl (by decide)
  exact ⟨writes, writes', device, run, (records_return_iff erased opens run appended left
    (recordsOf_short appended)).mpr ⟨.inr (by simp [pairRing]), keeping⟩⟩

/-- A record that counts up. -/
def countingRequest : Request where
  id := 1
  data := fun offset => BitVec.ofNat 8 offset
  size := 4088
  id_ne := fillRequest.id_ne
  size_pos := fillRequest.size_pos

/-- The second piece of a record is taken from the wrong place of the data, so the record does not
come back. -/
theorem second_piece_misplaced :
    RingBlank (Device.blank pairRing).memory pairRing ∧
    Step pairRing (Device.blank pairRing) ⟨.create .zeroed pairRing.base pairRing.sectors
      .createInitAlways, 0, [.erase pairRing.base (4096 * pairRing.sectors)]⟩
      (Device.blank pairRing) ∧
    ∃ events device, Run (Step pairRing) (Device.blank pairRing) events device ∧
      (∀ event ∈ events, Appended event) ∧ HasBlankHeader pairRing device.memory ∧
      (∀ id, ∀ bytes ∈ recordsOf id events, bytes.length ≤ 4088) ∧
      ¬ReturnsRecords pairRing device 4088 events := by
  obtain ⟨before, device, cells, log, writes, writes', one, two, erases, erases', holds, ordered,
    offset, left⟩ := split_appends countingRequest rfl
  have run : Run (Step pairRing) (Device.blank pairRing)
      [appendEvent (zeroRequest 4000 (by decide)) writes, appendEvent countingRequest writes']
      device := .snoc (.snoc .nil one) two
  have appended := @appended_pair countingRequest _ _ erases erases' rfl (by decide)
  refine ⟨ringBlank_const pairRing, opens_blank (by decide), _, device, run, appended, left,
    recordsOf_short appended, fun returns => ?_⟩
  obtain ⟨_, _, _, recorded⟩ := Recorded.run (started_blank (by decide)).inOrder rfl run appended
  have keeping := ((recorded.returns_iff left (recordsOf_short appended)
    ⟨_, _, Opens.self (by decide)⟩).mp returns).2
  obtain ⟨middle, earlier, step, keeps⟩ := @Run.snoc_inv _ _ _ _ _
    [appendEvent (zeroRequest 4000 (by decide)) writes] _ keeping
  have weaker : Run (Step pairRing) (Device.blank pairRing)
      [appendEvent (zeroRequest 4000 (by decide)) writes] middle :=
    earlier.mono fun _ _ _ step => step.1
  obtain rfl := @Run.unique _ _ (Step pairRing) _ _ _ _ (fun _ _ _ _ => Step.unique) weaker
    (.snoc .nil one)
  -- the first byte of the second piece is byte 4004 of the data instead of byte 84
  have pieces := (keeps cells 0 log holds ordered 4008 offset).2 (by decide)
  have first := congrArg (fun bytes : List Byte => bytes[0]?) pieces
  simp only [slice, List.getElem?_map, countingRequest] at first
  rw [List.getElem?_range (by decide)] at first
  simp at first

end PicoApConfigure.RingBuffer
