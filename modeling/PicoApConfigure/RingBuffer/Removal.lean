import PicoApConfigure.RingBuffer.Chronicles
import PicoApConfigure.RingBuffer.Counting
import PicoApConfigure.RingBuffer.Sweep

/-!
# What a deletion removes

`rb_delete` clears the live flag of one data header, the one at which its search reads what leaves
the data in the buffer.  The record is gone if that header is its only one and the bytes are its
own.
-/

namespace PicoApConfigure.RingBuffer

open Nor

/-- The records without the first one whose leading bytes are the data. -/
def removeFirst (data : Memory) (size : Nat) (records : List (List Byte)) : List (List Byte) :=
  records.eraseP fun bytes => decide (bytes.take size = slice data 0 size)

/-- The two devices open alike, and if they do open then reads of `size` bytes or more return for
every id the same records, for `id` less the first one whose leading bytes are the data. -/
def RemovesFirst (ring : Geometry) (before after : Device) (id : Byte) (data : Memory)
    (size : Nat) : Prop :=
  ∀ (block : RbT) (baseAddress numberOfSectors : Nat) (choice : InitChoice),
    Opens ring baseAddress numberOfSectors → choice ≠ .createInitAlways →
    ∃ (result : Int) (rb rb' : RbT),
      Step ring before ⟨.create block baseAddress numberOfSectors choice, result, []⟩
        ⟨rb, before.memory⟩ ∧
      Step ring after ⟨.create block baseAddress numberOfSectors choice, result, []⟩
        ⟨rb', after.memory⟩ ∧
      (result = RbError.ok.code → ∀ (other : Byte) (readSize : Nat) (buffer : Memory),
        size ≤ readSize → ∃ records,
          ReadsBack ring before.memory other readSize rb buffer records ∧
          ReadsBack ring after.memory other readSize rb' buffer
            (if other = id then removeFirst data size records else records))

/-- Where a read of the search leaves the data in the buffer, it is one of a record in one piece
that begins with the data.  A second piece whose first one is gone counts as a record. -/
def FindsWhole (ring : Geometry) (memory : Memory) (id : Byte) (data : Memory) (size : Nat)
    (pagebuffer : Memory) : Prop :=
  ∀ cells start log stops mark rest, RingHolds memory ring cells → Ordered ring cells start log →
    Stops id size (tape log) stops →
    firstShown data size pagebuffer stops = some (mark :: rest) →
    continuation mark rest = none ∧ (mark.fragment.split = false ∨ mark :: rest = tape log) ∧
      mark.fragment.payload.take size = slice data 0 size

section Removal

variable {ring : Geometry} {memory memory' : Memory} {cells changed : Nat → Option Sector}
  {start size readSize : Nat} {log log' : List Sector} {id : Byte} {data pagebuffer : Memory}
  {mark : Mark} {front rest chain : List Mark} {stops : List Stop}
  {entries earlier later : List Entry} {entry : Entry} {bytes : List Byte}

theorem removeFirst_length {records : List (List Byte)} (member : bytes ∈ records)
    (spells : bytes.take size = slice data 0 size) :
    (removeFirst data size records).length = records.length - 1 :=
  List.length_eraseP_of_mem member (decide_eq_true spells)

/-! ## Entries of a search -/

/-- The stops from one of them on. -/
theorem Stops.drop (listed : Stops id size chain stops) {j : Nat} {stop : Stop}
    (here : stops[j]? = some stop) : Stops id size stop.tape (stops.drop j) := by
  induction listed generalizing j with
  | done => cases here
  | skip _ _ ih => exact ih here
  | read wanted got later ih =>
      cases j with
      | zero =>
          obtain rfl := Option.some.inj here
          exact .read wanted got later
      | succ j => exact ih here

/-- A mark that has no second piece and is none is an entry. -/
theorem Chronicle.single_here (chronicle : Chronicle (front ++ mark :: rest) entries)
    (alone : continuation mark rest = none) (whole : mark.fragment.split = false ∨ front = []) :
    ∃ earlier later, entries = earlier ++ .single mark :: later ∧
      front = earlier.flatMap Entry.marks ∧ rest = later.flatMap Entry.marks := by
  obtain ⟨earlier, entry, later, rfl, cases'⟩ := chronicle.here
  have formed := chronicle.formed entry (by simp)
  rcases cases' with ⟨rfl, front, rest⟩ | ⟨tail, rfl, _, rfl⟩ | ⟨head, rfl, rfl, _⟩
  · exact ⟨earlier, later, rfl, front, rest⟩
  · -- the first piece of a record has a second one
    obtain ⟨closes, _, split, same, _⟩ := formed
    simp only [continuation, closes, same, split, and_self, if_true] at alone
    cases alone
  · -- the second piece is flagged as one
    obtain ⟨_, _, split, _, _⟩ := formed
    rcases whole with unsplit | empty
    · rw [unsplit] at split
      cases split
    · simp at empty

/-- No entry in front of the first one that shows the data begins with it. -/
theorem Chronicle.earlier_differ
    (chronicle : Chronicle chain (earlier ++ .single mark :: later))
    (listed : Stops id size chain stops) (positive : 0 < size)
    (shown : firstShown data size pagebuffer stops =
      some (mark :: later.flatMap Entry.marks)) :
    ∀ bytes ∈ earlier.flatMap (Entry.readings id size), bytes ≠ slice data 0 size := by
  obtain ⟨j, stop, here, tape, _, first⟩ := firstShown_some shown
  obtain ⟨bound, _⟩ := List.getElem?_eq_some_iff.mp here
  -- the reads of the whole tape, and those from the stop on
  have all := (listed.tapeReads positive).unique (chronicle.tapeReads positive)
  have behind := (listed.drop here).tapeReads positive
  rw [tape] at behind
  have suffix := behind.unique (chronicle.drop.tapeReads positive)
  rw [List.flatMap_append] at all
  have same : (stops.take j).map Stop.bytes = earlier.flatMap (Entry.readings id size) := by
    rw [← List.take_append_drop j stops, List.map_append, suffix] at all
    exact List.append_cancel_right all
  intro bytes member shows
  rw [← same] at member
  obtain ⟨stop', listed', rfl⟩ := List.mem_map.mp member
  obtain ⟨i, before, rfl⟩ := List.getElem_of_mem listed'
  rw [List.length_take] at before
  rw [List.getElem_take] at shows
  exact first i (by omega) (slice_leftIn pagebuffer (List.getElem?_eq_getElem (by omega)) shows)

/-- What a longer read gets begins with what a shorter one gets. -/
theorem Entry.readings_take (large : size ≤ readSize)
    (member : bytes ∈ entry.readings id readSize) : bytes.take size ∈ entry.readings id size := by
  have shorter : ∀ payload : List Byte, (payload.take readSize).take size = payload.take size :=
    fun payload => by rw [List.take_take, Nat.min_eq_left large]
  cases entry with
  | single mark =>
      by_cases wanted : Wanted id mark.fragment
      · rw [readings, if_pos wanted, List.mem_singleton] at member ⊢
        rw [member, shorter]
      · rw [readings, if_neg wanted] at member
        cases member
  | pair head tail =>
      by_cases wanted : Wanted id head.fragment
      · rw [readings, if_pos wanted] at member ⊢
        by_cases unfilled : head.fragment.payload.length < size
        · rw [if_pos (Nat.lt_of_lt_of_le unfilled large), List.mem_singleton] at member
          rw [if_pos unfilled, List.mem_singleton, member, List.take_append,
            List.take_of_length_le (Nat.le_of_lt unfilled), List.take_take,
            Nat.min_eq_left (Nat.sub_le_sub_right large _)]
        · have first : (head.fragment.payload ++ tail.fragment.payload.take
              (readSize - head.fragment.payload.length)).take size =
                head.fragment.payload.take size :=
            List.take_append_of_le_length (Nat.le_of_not_lt unfilled)
          rw [if_neg unfilled]
          split at member
          · rw [List.mem_singleton.mp member, first]
            exact List.mem_cons_self
          · simp only [List.mem_cons, List.not_mem_nil, or_false] at member ⊢
            exact member.imp (fun same => by rw [same, shorter]) fun same => by rw [same, shorter]
      · rw [readings, if_neg wanted] at member ⊢
        by_cases wantedTail : Wanted id tail.fragment
        · rw [if_pos wantedTail, List.mem_singleton] at member ⊢
          rw [member, shorter]
        · rw [if_neg wantedTail] at member
          cases member

/-! ## The tape without the record -/

theorem Chronicle.smudge (chronicle : Chronicle chain (earlier ++ .single mark :: later)) :
    Chronicle (earlier.flatMap Entry.marks ++ mark.smudge :: later.flatMap Entry.marks)
      (earlier ++ .single mark.smudge :: later) where
  tape_eq := by simp [Entry.marks]
  formed := by
    intro entry member
    rcases List.mem_append.mp member with before | behind
    · exact chronicle.formed entry (by simp [before])
    · rcases List.mem_cons.mp behind with rfl | behind
      · trivial
      · exact chronicle.formed entry (by simp [behind])
  unsplit := by
    intro entry member
    have unsplit := chronicle.unsplit
    cases earlier with
    | nil => exact unsplit entry member
    | cons first earlier =>
        simp only [List.cons_append, List.tail_cons, List.mem_append,
          List.mem_cons] at member unsplit
        rcases member with before | rfl | behind
        · exact unsplit entry (.inl before)
        · have split := unsplit _ (.inr (.inl rfl))
          simpa [Entry.first, Mark.smudge] using split
        · exact unsplit entry (.inr (.inr behind))

/-- Without the entry that a search finds its record is missing, and no other one. -/
theorem Chronicle.readings_smudge
    (chronicle : Chronicle chain (earlier ++ .single mark :: later))
    (listed : Stops id size chain stops) (positive : 0 < size) (wanted : Wanted id mark.fragment)
    (shown : firstShown data size pagebuffer stops = some (mark :: later.flatMap Entry.marks))
    (spelled : mark.fragment.payload.take size = slice data 0 size) (large : size ≤ readSize)
    (other : Byte) :
    (earlier ++ .single mark.smudge :: later).flatMap (Entry.readings other readSize) =
      if other = id then
        removeFirst data size
          ((earlier ++ .single mark :: later).flatMap (Entry.readings other readSize))
      else (earlier ++ .single mark :: later).flatMap (Entry.readings other readSize) := by
  have gone : (Entry.single mark.smudge).readings other readSize = [] := if_neg smudge_unwanted
  rw [List.flatMap_append, List.flatMap_append, List.flatMap_cons, List.flatMap_cons, gone,
    List.nil_append]
  by_cases same : other = id
  · subst same
    have here : (Entry.single mark).readings other readSize =
        [mark.fragment.payload.take readSize] := if_pos wanted
    have differ : ∀ bytes ∈ earlier.flatMap (Entry.readings other readSize),
        ¬decide (bytes.take size = slice data 0 size) = true := by
      intro bytes member spells
      obtain ⟨entry, listed', read⟩ := List.mem_flatMap.mp member
      exact chronicle.earlier_differ listed positive shown _
        (List.mem_flatMap.mpr ⟨entry, listed', Entry.readings_take large read⟩)
        (of_decide_eq_true spells)
    rw [if_pos rfl, here, removeFirst, List.eraseP_append_right _ differ, List.singleton_append,
      List.eraseP_cons_of_pos]
    rw [decide_eq_true_eq, List.take_take, Nat.min_eq_left large]
    exact spelled
  · have unwanted : (Entry.single mark).readings other readSize = [] :=
      if_neg fun also => same (also.1.symm.trans wanted.1)
    rw [if_neg same, unwanted, List.nil_append]

/-! ## Opening the ring before and after -/

theorem BehindFits.congr {turned turned' : Nat → Option Sector} (start_lt : start < ring.sectors)
    (word : sectorWord memory' ring.behind = sectorWord memory ring.behind)
    (same : ∀ k < ring.sectors, indexOf turned' k = indexOf turned k)
    (fits : BehindFits memory ring turned start) : BehindFits memory' ring turned' start := by
  intro good
  rw [sectorStatus, word] at good
  obtain ⟨before, behind⟩ := fits good
  have entry : ∀ {k : Nat} {sector : Sector}, k < ring.sectors → turned' k = some sector →
      ∃ other, turned k = some other ∧ other.index = sector.index := by
    intro k sector inRing cell
    have equal := same k inRing
    rw [indexOf, indexOf, cell] at equal
    obtain ⟨other, found, index⟩ := Option.map_eq_some_iff.mp equal.symm
    exact ⟨other, found, index⟩
  rw [word]
  constructor
  · intro last cell
    obtain ⟨other, found, index⟩ := entry (by have := ring.sectors_pos; omega) cell
    rw [← index]
    exact before other found
  · intro away second cell
    obtain ⟨other, found, index⟩ := entry (by omega) cell
    rw [← index]
    exact behind away other found

/-- Logs with the same indices have them in the same sectors. -/
theorem Ordered.indices_eq (ordered : Ordered ring cells start log)
    (ordered' : Ordered ring changed start log')
    (same : log'.map Sector.index = log.map Sector.index) :
    ∀ k < ring.sectors, indexOf changed k = indexOf cells k := by
  intro k inRing
  obtain ⟨distance, bound, rfl⟩ := ring.exists_ahead ordered.start_lt inRing
  rw [indexOf, indexOf, ordered.cell distance bound, ordered'.cell distance bound,
    ← List.getElem?_map, ← List.getElem?_map, same]

/-- Two rings in order with the same indices open alike. -/
theorem Ordered.opens_alike (ordered : Ordered ring cells start log)
    (ordered' : Ordered ring changed start log') (holds : RingHolds memory ring cells)
    (holds' : RingHolds memory' ring changed)
    (same : log'.map Sector.index = log.map Sector.index)
    (word : sectorWord memory' ring.behind = sectorWord memory ring.behind) (block : RbT)
    {baseAddress numberOfSectors : Nat} {choice : InitChoice}
    (opens : Opens ring baseAddress numberOfSectors) (keeps : choice ≠ .createInitAlways) :
    ∃ status rb rb',
      (rbCreate block baseAddress numberOfSectors choice).Exec ring.extended memory []
        (status, rb) ∧
      (rbCreate block baseAddress numberOfSectors choice).Exec ring.extended memory' []
        (status, rb') ∧
      (status = .ok → OnRing rb ring ∧ rb.next = 4096 * start ∧ OnRing rb' ring ∧
        rb'.next = 4096 * start) := by
  have indices := ordered.indices_eq ordered' same
  have length : log'.length = log.length := by
    simpa using congrArg List.length same
  have fits_iff : (log.length = ring.sectors → 0 < start → BehindFits memory ring cells start) ↔
      (log'.length = ring.sectors → 0 < start → BehindFits memory' ring changed start) := by
    rw [length]
    constructor
    · exact fun fits used away => (fits used away).congr ordered.start_lt word indices
    · exact fun fits used away => (fits used away).congr ordered.start_lt word.symm
        fun k inRing => (indices k inRing).symm
  by_cases fits : log.length = ring.sectors → 0 < start → BehindFits memory ring cells start
  · obtain ⟨rb, on, next, _, exec⟩ := ordered.rotated.create_good block ordered.inRingOrder holds
      opens keeps fits
    obtain ⟨rb', on', next', _, exec'⟩ := ordered'.rotated.create_good block ordered'.inRingOrder
      holds' opens keeps (fits_iff.mp fits)
    have oldestEq := ordered.oldest_eq
    have oldestEq' := ordered'.oldest_eq
    rw [oldest] at oldestEq oldestEq'
    rw [oldestEq] at next
    rw [oldestEq'] at next'
    rw [indices 0 ring.sectors_pos] at exec'
    exact ⟨_, rb, rb', exec, exec', fun _ => ⟨on, next, on', next'⟩⟩
  · obtain ⟨rb, exec⟩ := ordered.rotated.create_bad block ordered.inRingOrder holds opens keeps fits
    obtain ⟨rb', exec'⟩ := ordered'.rotated.create_bad block ordered'.inRingOrder holds' opens keeps
      (fits_iff.not.mp fits)
    exact ⟨_, rb, rb', exec, exec', fun ok => by cases ok⟩

/-! ## Deletions that succeed -/

theorem Stops.wanted (listed : Stops id size chain stops) :
    ∀ stop ∈ stops, ∃ mark rest, stop.tape = mark :: rest ∧ Wanted id mark.fragment := by
  induction listed with
  | done => simp
  | skip _ _ ih => exact ih
  | read wanted _ _ ih =>
      intro stop member
      rcases List.mem_cons.mp member with rfl | member
      · exact ⟨_, _, rfl, wanted⟩
      · exact ih stop member

/-- The control block that the search of `rb_delete` starts with. -/
def RbT.searching (rb : RbT) (ring : Geometry) (cells : Nat → Option Sector) (start : Nat)
    (pagebuffer : Memory) : RbT :=
  { rb with
    next := 4096 * start
    sectorIndex := topOf ring cells rb.sectorIndex
    rbPage := pagebuffer }

/-- `rb_delete` returns what its search does if that is an error. -/
theorem rbDelete_missed {rb found : RbT} {scratch : Memory} {value : Int}
    (on : OnRing rb ring) (holds : RingHolds memory ring cells)
    (ordered : Ordered ring cells start log) (valid : ¬(id = 0 ∨ id = 0xff))
    (opened : entryStatus (indexOf cells 0) = .ok)
    (find : FlashProg.Completes ring.region (fun fuel =>
      rbFind fuel (rb.searching ring cells start pagebuffer) id data size pagebuffer) memory []
      (value, found, scratch)) (negative : value < 0) :
    FlashProg.Completes ring.region (fun fuel => rbDelete fuel rb id data size pagebuffer) memory
      [] (value, { found with rbPage := scratch, next := rb.next }) := by
  have oldest := @findOldest_exec { rb with rbPage := pagebuffer } _ _ _
    ⟨on.base_eq, on.bytes_eq⟩ holds
  rw [opened, ordered.oldest_eq] at oldest
  simp only [rbDelete, if_neg valid]
  refine FlashProg.Completes.bind_read oldest ?_
  simp only [ne_eq, not_true_eq_false, if_false]
  refine @FlashProg.Completes.bind _ _ _ _ _ _ [] [] _ _ find ?_
  simp only [if_pos negative]
  exact (FlashProg.Exec.pure _).completes

/-- `rb_delete` returns an error if sector 0 is erased. -/
theorem rbDelete_erased {rb : RbT} (on : OnRing rb ring) (holds : RingHolds memory ring cells)
    (valid : ¬(id = 0 ∨ id = 0xff)) (erased : cells 0 = none) :
    ∃ rb', FlashProg.Completes ring.region (fun fuel => rbDelete fuel rb id data size pagebuffer)
      memory [] (RbError.blankHdr.code, rb') := by
  have oldest := @findOldest_exec { rb with rbPage := pagebuffer } _ _ _
    ⟨on.base_eq, on.bytes_eq⟩ holds
  have status : entryStatus (indexOf cells 0) = .blankHdr := by
    rw [indexOf, erased]
    rfl
  rw [status] at oldest
  refine ⟨{ rb with
    next := 4096 * RingBuffer.oldest ring cells
    sectorIndex := topOf ring cells rb.sectorIndex
    rbPage := pagebuffer }, ?_⟩
  simp only [rbDelete, if_neg valid]
  refine FlashProg.Completes.bind_read oldest ?_
  simp only [ne_eq, reduceCtorEq, not_false_eq_true, if_true]
  exact (FlashProg.Exec.pure _).completes

/-- `rb_delete` succeeds only where its search finds the data. -/
theorem rbDelete_found {rb rb' : RbT} {writes : List Op} (on : OnRing rb ring)
    (holds : RingHolds memory ring cells) (ordered : Ordered ring cells start log)
    (unfilled : Unfilled ring log)
    (returns : FlashProg.Completes (fun _ => True)
      (fun fuel => rbDelete fuel rb id data size pagebuffer) memory writes
      (RbError.ok.code, rb')) :
    (cells 0).isSome ∧ ReadFits ring id size ∧ ∃ stops mark rest,
      Stops id size (tape log) stops ∧ Wanted id mark.fragment ∧
        firstShown data size pagebuffer stops = some (mark :: rest) := by
  have differs : ∀ {region : Nat → Prop} {value : Int} {other : RbT}, value < 0 →
      ¬FlashProg.Completes region (fun fuel => rbDelete fuel rb id data size pagebuffer) memory []
        (value, other) := by
    intro region value other negative completes
    have same := congrArg Prod.fst (returns.unique completes).2
    simp only [RbError.code] at same
    omega
  have valid : ¬(id = 0 ∨ id = 0xff) := by
    intro bad
    refine @differs (fun _ => True) RbError.badCallerData.code rb (by decide) ?_
    simp only [rbDelete, if_pos bad]
    exact (FlashProg.Exec.pure _).completes
  have opened : (cells 0).isSome := by
    by_contra erased
    obtain ⟨_, completes⟩ := @rbDelete_erased _ _ _ size id data pagebuffer _ on holds valid
      (Option.not_isSome_iff_eq_none.mp erased)
    exact differs (by decide) completes
  have status : entryStatus (indexOf cells 0) = .ok := by
    rw [indexOf]
    obtain ⟨first, cell⟩ := Option.isSome_iff_exists.mp opened
    rw [cell]
    rfl
  have searching : OnRing (rb.searching ring cells start pagebuffer) ring :=
    ⟨on.base_eq, on.bytes_eq⟩
  have fits : ReadFits ring id size := by
    by_contra refused
    have find : FlashProg.Completes ring.region (fun fuel =>
        rbFind fuel (rb.searching ring cells start pagebuffer) id data size pagebuffer) memory []
        (RbError.badCallerData.code, rb.searching ring cells start pagebuffer, pagebuffer) := by
      simp only [rbFind, if_pos ((rbReadRejects_iff searching).mpr refused)]
      exact (FlashProg.Exec.pure _).completes
    exact differs (by decide) (rbDelete_missed on holds ordered valid status find (by decide))
  obtain ⟨stops, listed⟩ := Stops.exists id fits.1 (tape log)
  refine ⟨opened, fits, stops, ?_⟩
  cases shown : firstShown data size pagebuffer stops with
  | none =>
      -- the search comes to the blank header
      have ahead := ordered.begins.ahead ordered.laid unfilled
      have home : (rb.searching ring cells start pagebuffer).next / 4096 = start := by
        simp only [RbT.searching]
        omega
      obtain ⟨value, found, scratch, find, returns', ends, _⟩ :=
        @rbFind_completes _ _ _ (rb.searching ring cells start pagebuffer) _ _ _ _ data searching
          holds ordered.filled fits (by rw [home]; exact ahead) listed pagebuffer
      rw [ends shown] at find
      exact absurd (rbDelete_missed on holds ordered valid status find (by decide))
        (differs (by decide))
  | some found =>
      obtain ⟨i, stop, here, rfl, _⟩ := firstShown_some shown
      obtain ⟨mark, rest, tape, wanted⟩ := listed.wanted stop (List.mem_of_getElem? here)
      exact ⟨mark, rest, listed, wanted, by rw [tape]⟩

/-- `rb_delete` at the first read that leaves the data in the buffer. -/
theorem InOrder.delete_shown {device : Device} (inOrder : InOrder ring device cells start log)
    (unfilled : Unfilled ring log) (opened : (cells 0).isSome) (fits : ReadFits ring id size)
    (listed : Stops id size (tape log) stops)
    (shown : firstShown data size pagebuffer stops = some (mark :: rest)) :
    ∃ writes after changed older sector newer before behind,
      ∃ spot : Spot log older sector newer before behind mark rest,
        (∀ op ∈ writes, op.Within ring.region) ∧
        Step ring device ⟨.delete id data size pagebuffer, RbError.ok.code, writes⟩ after ∧
        InOrder ring after changed start
          (older ++ sector.smudge before mark.fragment behind spot.frags :: newer) := by
  obtain ⟨on, holds, ordered⟩ := inOrder
  obtain ⟨_, _, _, _, starts, _⟩ := @rbFind_shown _ _ _ _ _
    (device.rb.searching ring cells start pagebuffer) _ _ _ _ _ _ _ ⟨on.base_eq, on.bytes_eq⟩ holds
    ordered.laid fits ordered.begins listed pagebuffer shown (.inr unfilled)
  obtain ⟨older, sector, newer, before, behind, spot⟩ := starts.spot ordered.laid
  obtain ⟨changed, writes, rb', completes, on', _, holds', ordered'⟩ :=
    rbDelete_shown on holds ordered opened fits listed shown (.inr unfilled) spot
  have within : ∀ op ∈ writes, op.Within ring.region := by
    obtain ⟨bound, exec⟩ := completes
    exact (exec bound (Nat.le_refl _)).writes_within
  exact ⟨writes, ⟨rb', replay writes device.memory⟩, changed, older, sector, newer, before, behind,
    spot, within, ⟨trivial, completes.mono fun _ _ => trivial, rfl⟩, on', holds', ordered'⟩

end Removal

/-- Where the search of `rb_delete` finds a record in one piece, exactly this record is removed. -/
theorem delete_removes_first {ring : Geometry} {first device after : Device}
    {events : List Event} (started : Started ring first)
    (run : Run (CountedStep ring) first events device)
    (appends : ∀ event ∈ events, event.call.isAppend = true)
    (blank : HasBlankHeader ring device.memory) {id : Byte} {data pagebuffer : Memory} {size : Nat}
    {writes : List Op}
    (step : Step ring device ⟨.delete id data size pagebuffer, RbError.ok.code, writes⟩ after)
    (whole : FindsWhole ring device.memory id data size pagebuffer) :
    RemovesFirst ring device after id data size := by
  obtain ⟨cells, start, log, entries, ⟨⟨on, holds, ordered⟩, chronicle, _⟩⟩ :=
    Chronicled.run started run appends
  have unfilled := blank.unfilled holds ordered
  obtain ⟨opened, fits, stops, mark, rest, listed, wanted, shown⟩ :=
    rbDelete_found on holds ordered unfilled step.completes
  obtain ⟨alone, unsplit, spelled⟩ :=
    whole cells start log stops mark rest holds ordered listed shown
  obtain ⟨written, after', changed, older, sector, newer, before, behind, spot, within, step',
    on', holds', ordered'⟩ :=
    InOrder.delete_shown ⟨on, holds, ordered⟩ unfilled opened fits listed shown
  obtain ⟨rfl, -⟩ := step.completes.unique step'.completes
  obtain rfl := step.unique step'
  have word : sectorWord after.memory ring.behind = sectorWord device.memory ring.behind := by
    rw [sectorWord, sectorWord, step.memory_eq]
    congr 1
    refine slice_congr fun query lower _ => replay_of_not_touches fun op member touches => ?_
    have inside := within op member query touches
    simp only [Geometry.region, Geometry.behind] at inside lower
    omega
  -- it is an entry of its own
  rw [spot.tape_eq] at chronicle listed unsplit
  obtain ⟨earlier, later, rfl, front, rfl⟩ := chronicle.single_here alone
    (unsplit.imp_right List.self_eq_append_left.mp)
  have chronicle' : Chronicle
      (tape (older ++ sector.smudge before mark.fragment behind spot.frags :: newer))
      (earlier ++ .single mark.smudge :: later) := by
    rw [spot.smudge.tape_eq, front]
    exact chronicle.smudge
  intro block baseAddress numberOfSectors choice opens keeps
  obtain ⟨status, rb, rb', create, create', good⟩ := ordered.opens_alike ordered' holds holds'
    (by simp [spot.split, Sector.smudge]) word block opens keeps
  have returns := (create.completes.map fun result => (result.1.code, result.2)).mono
    fun _ _ => trivial
  have returns' := (create'.completes.map fun result => (result.1.code, result.2)).mono
    fun _ _ => trivial
  refine ⟨status.code, rb, rb', ⟨opens, returns, rfl⟩, ⟨opens, returns', rfl⟩,
    fun ok other readSize buffer large => ?_⟩
  obtain rfl : status = .ok := by
    by_contra failed
    have negative := RbError.code_neg failed
    rw [ok] at negative
    exact absurd negative (by decide)
  obtain ⟨on₁, next₁, on₂, next₂⟩ := good rfl
  by_cases accepted : ReadFits ring other readSize
  · have position := ordered.begins
    have position' := ordered'.begins
    rw [← next₁, spot.tape_eq] at position
    rw [← next₂] at position'
    refine ⟨_, (chronicle.tapeReads accepted.1).readsBack holds ordered unfilled accepted on₁
      position buffer, ?_⟩
    rw [← chronicle.readings_smudge listed fits.1 wanted shown spelled large other]
    exact (chronicle'.tapeReads accepted.1).readsBack holds' ordered' (unfilled.smudge spot)
      accepted on₂ position' buffer
  · refine ⟨[], .rejected on₁ accepted buffer, ?_⟩
    have none : (if other = id then removeFirst data size [] else []) = [] := by
      split <;> rfl
    rw [none]
    exact .rejected on₂ accepted buffer

/-! ## Two records, the second one in two pieces -/

/-- The first piece of a record behind the one of 4000 bytes. -/
def headMark (request : Request) : Mark := ⟨request.head 84 (by decide) (by decide), true⟩

/-- The second piece. -/
def tailMark (request : Request) : Mark := ⟨request.tail 4004 (by decide) (by decide), false⟩

section Split

variable {request : Request}

/-- The ring of `split_log`. -/
theorem split_reached (size : request.size = 4088) :
    ∃ events device cells log, Run (CountedStep pairRing) (Device.blank pairRing) events device ∧
      (∀ event ∈ events, event.call.isAppend = true) ∧ InOrder pairRing device cells 0 log ∧
      Unfilled pairRing log ∧ HasBlankHeader pairRing device.memory ∧ (cells 0).isSome ∧
      tape log = [oneRecordMark, headMark request, tailMark request] := by
  obtain ⟨before, device, cells, cells', index, index', writes, writes', fits, one, two, _, _, _,
    counted, _⟩ := @split_log 4000 84 4004 (by decide) (by decide) (by decide) (by decide)
    (by decide)
      (by decide) request size rfl rfl
  have inOrder := counted.inOrder
  have room : (Sector.single index' (request.tail 4004 (by decide) (by decide))).isFull = false :=
    by
    simp only [Sector.not_isFull_iff, Sector.used, Sector.single, fragsSize_cons, fragsSize_nil,
      Fragment.size, Request.tail, Request.piece, slice_length]
    omega
  have blank := @InOrder.blank_of_newest _ _ _ _ [_] _ inOrder room
  have first := inOrder.ordered.cell 0 (by decide)
  rw [pairRing.ahead_zero (by decide), List.getElem?_cons_zero] at first
  refine ⟨_, device, cells', _, .snoc (.snoc .nil one) two, ?_, inOrder,
    blank.unfilled inOrder.holds inOrder.ordered, blank, by rw [first]; rfl, ?_⟩
  · intro event member
    simp only [List.nil_append, List.mem_append, List.mem_singleton] at member
    rcases member with rfl | rfl <;> rfl
  · simp [tape, marks, Sector.push, Sector.single, Fragment.size, Request.whole, Request.head,
      Request.tail, Request.piece, oneRecordMark, headMark, tailMark, zeroRequest]

/-- The pieces of a record are read apart from what lies in front of them. -/
theorem headMark_alone (id : Byte) : continues id [headMark request, tailMark request] = false := by
  have unsplit : (headMark request).fragment.split = false := (Fragment.of_notSmudged rfl).1
  rw [continues, unsplit, Bool.and_false]

theorem oneRecordMark_payload : oneRecordMark.fragment.payload = slice (fun _ => 0) 0 4000 := by
  simp only [oneRecordMark, Request.whole, Request.piece, zeroRequest]

end Split

/-- A read that gets the data leaves it in the buffer. -/
theorem firstShown_here {data scratch : Memory} {size : Nat} {tape : List Mark}
    {bytes : List Byte} {stops : List Stop} (spelled : bytes = slice data 0 size) :
    firstShown data size scratch (⟨tape, bytes⟩ :: stops) = some tape := by
  have shown : slice data 0 size = slice (store scratch 0 bytes) 0 size :=
    @slice_leftIn size [⟨tape, bytes⟩] data scratch 0 _ rfl spelled
  rw [firstShown, if_pos shown]

/-- A read that fills the buffer with something else does not. -/
theorem firstShown_behind {data scratch : Memory} {tape : List Mark} {bytes : List Byte}
    {stops : List Stop} (other : slice data 0 bytes.length ≠ bytes) :
    firstShown data bytes.length scratch (⟨tape, bytes⟩ :: stops) =
      firstShown data bytes.length (store scratch 0 bytes) stops := by
  rw [firstShown, if_neg]
  rw [(holds_store scratch 0 bytes).slice_eq rfl]
  exact other

/-- Deleting the first of two records, which lies in one piece. -/
theorem delete_removes_first_zeros : ∃ events device after writes,
    Run (CountedStep pairRing) (Device.blank pairRing) events device ∧
    Step pairRing device ⟨.delete 1 (fun _ => 0) 10 (fun _ => 0), RbError.ok.code, writes⟩ after ∧
    RemovesFirst pairRing device after 1 (fun _ => 0) 10 := by
  obtain ⟨events, device, cells, log, run, appends, inOrder, unfilled, blank, opened, tapeEq⟩ :=
    @split_reached countingRequest rfl
  have got := @readTape_alone _ 1 10 oneRecordMark (@headMark_alone countingRequest 1) ⟨rfl, rfl⟩
  have listed : ∃ stops, Stops 1 10 (tape log) (⟨tape log, oneRecordMark.fragment.payload.take 10⟩
      :: stops) := by
    obtain ⟨stops, later⟩ := @Stops.exists 10 1 (by decide)
      [headMark countingRequest, tailMark countingRequest]
    rw [tapeEq]
    exact ⟨stops, .read ⟨rfl, rfl⟩ got later⟩
  obtain ⟨stops, listed⟩ := listed
  have spelled : oneRecordMark.fragment.payload.take 10 = slice (fun _ => 0) 0 10 := by
    have small : 10 ≤ 4000 := by omega
    rw [oneRecordMark_payload]
    exact slice_take _ _ small
  have shown := (@firstShown_here _ (fun _ => 0) _ (tape log) _ stops spelled).trans
    (congrArg some tapeEq)
  obtain ⟨writes, after, _, _, _, _, _, _, _, _, step, _⟩ :=
    inOrder.delete_shown unfilled opened ⟨by decide, by decide, by decide, by decide⟩ listed shown
  refine ⟨events, device, after, writes, run, step, delete_removes_first
    (started_blank (by decide)) run appends blank step ?_⟩
  intro cells' start' log' stops' mark rest holds' ordered' listed' shown'
  obtain ⟨rfl, rfl⟩ := Ordered.unique inOrder.holds inOrder.ordered holds' ordered'
  rw [tapeEq] at listed'
  cases listed' with
  | skip skipped => exact absurd ⟨rfl, rfl⟩ skipped
  | read wanted got' later =>
      have bytes := ReadResult.got.inj (congrArg Prod.fst (got'.symm.trans got))
      rw [firstShown_here (bytes.trans spelled), Option.some.injEq, List.cons.injEq] at shown'
      obtain ⟨rfl, rfl⟩ := shown'
      exact ⟨rfl, .inl rfl, spelled⟩

/-- The second piece of the record in the second place stays when that record is deleted. -/
theorem second_piece_stays : Started pairRing (Device.blank pairRing) ∧
    ∃ events device after writes,
      Run (CountedStep pairRing) (Device.blank pairRing) events device ∧
      (∀ event ∈ events, event.call.isAppend = true) ∧ HasBlankHeader pairRing device.memory ∧
      Step pairRing device
        ⟨.delete 1 countingRequest.data 10 (fun _ => 0), RbError.ok.code, writes⟩ after ∧
      ¬RemovesFirst pairRing device after 1 countingRequest.data 10 := by
  obtain ⟨events, device, cells, log, run, appends, inOrder, unfilled, blank, opened, tapeEq⟩ :=
    @split_reached countingRequest rfl
  have fits : ReadFits pairRing 1 10 := ⟨by decide, by decide, by decide, by decide⟩
  have wanted : Wanted 1 (headMark countingRequest).fragment := ⟨rfl, rfl⟩
  -- the search reads ten bytes of the first record, and then ten of the first piece of the second
  have first := @readTape_alone _ 1 10 oneRecordMark (@headMark_alone countingRequest 1) ⟨rfl, rfl⟩
  have length : (headMark countingRequest).fragment.payload.length = 84 := slice_length _ _ _
  have second : readTape 1 10 [headMark countingRequest, tailMark countingRequest] =
      (.got ((headMark countingRequest).fragment.payload.take 10), [tailMark countingRequest]) := by
    rw [readTape, if_pos wanted, if_neg]
    rw [length]
    omega
  obtain ⟨stops, later⟩ := @Stops.exists 10 1 (by decide) [tailMark countingRequest]
  have listed := Stops.read (⟨rfl, rfl⟩ : Wanted 1 oneRecordMark.fragment) first
    (.read wanted second later)
  have spelled : (headMark countingRequest).fragment.payload.take 10 =
      slice countingRequest.data 0 10 := by
    have small : 10 ≤ 84 := by omega
    exact slice_take _ _ small
  have zeros : oneRecordMark.fragment.payload.take 10 = slice (fun _ => 0) 0 10 := by
    have small : 10 ≤ 4000 := by omega
    rw [oneRecordMark_payload]
    exact slice_take _ _ small
  have shown := @firstShown_behind countingRequest.data (fun _ => 0)
    [oneRecordMark, headMark countingRequest, tailMark countingRequest] (slice (fun _ => 0) 0 10)
    (⟨[headMark countingRequest, tailMark countingRequest],
      (headMark countingRequest).fragment.payload.take 10⟩ :: stops) (by decide)
  rw [slice_length, firstShown_here spelled] at shown
  rw [zeros, ← tapeEq] at listed
  rw [← tapeEq] at shown
  obtain ⟨writes, after, changed, older, sector, newer, before, behind, spot, _, step, inOrder'⟩ :=
    inOrder.delete_shown unfilled opened fits listed shown
  refine ⟨started_blank (by decide), events, device, after, writes, run, appends, blank, step,
    fun removes => ?_⟩
  -- the tapes before and after
  have formed : ∀ head : Mark, head.closes = true → head.fragment.split = false →
      head.fragment.id = 1 → Chronicle [oneRecordMark, head, tailMark countingRequest]
        [.single oneRecordMark, .pair head (tailMark countingRequest)] := by
    intro head closes unsplit id
    refine ⟨rfl, ?_, ?_⟩
    · intro entry member
      simp only [List.mem_cons, List.not_mem_nil, or_false] at member
      rcases member with rfl | rfl
      · trivial
      · exact ⟨closes, unsplit, (Fragment.of_splitNotSmudged rfl).1, id.symm,
          fun _ => (Fragment.of_splitNotSmudged rfl).2⟩
    · simpa [Entry.first] using unsplit
  have unsplit : (headMark countingRequest).fragment.split = false := (Fragment.of_notSmudged rfl).1
  have chronicle := formed (headMark countingRequest) rfl unsplit rfl
  have chronicle' := formed (headMark countingRequest).smudge rfl
    (by simpa [Mark.smudge] using unsplit) rfl
  have front : [oneRecordMark] = tape older ++ marks 4 before := by
    have both := tapeEq.symm.trans spot.tape_eq
    exact @List.append_cancel_right _ [oneRecordMark] _ _ both
  have tapeEq' := spot.smudge.tape_eq
  rw [← front, List.singleton_append] at tapeEq'
  rw [← tapeEq] at chronicle
  rw [← tapeEq'] at chronicle'
  -- opening the ring before and after
  have place : Opens pairRing pairRing.base pairRing.sectors := Opens.self (by decide)
  obtain ⟨result, rb, rb', create, create', good⟩ := removes .zeroed _ _ .createFail place
    (by decide)
  obtain ⟨first', on, next, _, exec⟩ := inOrder.ordered.create_exec .zeroed inOrder.holds
    (.inr (.inl rfl)) place (by decide : InitChoice.createFail ≠ .createInitAlways)
  obtain ⟨second', on', next', _, exec'⟩ := inOrder'.ordered.create_exec .zeroed inOrder'.holds
    (.inr (.inl rfl)) place (by decide : InitChoice.createFail ≠ .createInitAlways)
  have status : entryStatus (indexOf cells 0) = .ok := by
    obtain ⟨sector, cell⟩ := Option.isSome_iff_exists.mp opened
    rw [indexOf, cell]
    rfl
  have value := (create.completes.unique
    (exec.completes.map fun result => (result.1.code, result.2))).2
  have value' := (create'.completes.unique
    (exec'.completes.map fun result => (result.1.code, result.2))).2
  rw [status, Prod.mk.injEq] at value
  obtain ⟨rfl, rfl⟩ := value
  obtain rfl : rb' = second' := congrArg Prod.snd value'
  have reads : ReadFits pairRing 1 4088 := ⟨by decide, by decide, by decide, by decide⟩
  have position := inOrder.ordered.begins
  have position' := inOrder'.ordered.begins
  rw [← next] at position
  rw [← next'] at position'
  obtain ⟨records, before', after'⟩ := good rfl 1 4088 (fun _ => 0) (by decide)
  have same := before'.unique ((chronicle.tapeReads reads.1).readsBack inOrder.holds
    inOrder.ordered unfilled reads on position _)
  have same' := after'.unique ((chronicle'.tapeReads reads.1).readsBack inOrder'.holds
    inOrder'.ordered (unfilled.smudge spot) reads on' position' _)
  rw [if_pos rfl, same] at same'
  -- the record is one before, and its second piece is one afterwards
  have one : (Entry.single oneRecordMark).readings 1 4088 =
      [oneRecordMark.fragment.payload.take 4088] := by
    rw [Entry.readings, if_pos ⟨rfl, rfl⟩]
  have whole : (Entry.pair (headMark countingRequest) (tailMark countingRequest)).readings 1 4088 =
      [(headMark countingRequest).fragment.payload ++
        (tailMark countingRequest).fragment.payload.take (4088 - 84)] := by
    rw [Entry.readings, if_pos wanted, length, if_pos (by omega)]
  have piece : (Entry.pair (headMark countingRequest).smudge (tailMark countingRequest)).readings 1
      4088 = [(tailMark countingRequest).fragment.payload.take 4088] := by
    rw [Entry.readings, if_neg smudge_unwanted, if_pos ⟨rfl, rfl⟩]
  simp only [List.flatMap_cons, List.flatMap_nil, one, whole, piece, List.append_nil,
    List.singleton_append] at same'
  have spells : ((headMark countingRequest).fragment.payload ++
      (tailMark countingRequest).fragment.payload.take (4088 - 84)).take 10 =
        slice countingRequest.data 0 10 := by
    rw [List.take_append_of_le_length (by rw [length]; omega), spelled]
  have lengths := congrArg List.length same'
  rw [removeFirst_length (List.mem_cons_of_mem _ (List.mem_singleton_self _)) spells] at lengths
  simp at lengths

end PicoApConfigure.RingBuffer
