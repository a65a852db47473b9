import PicoApConfigure.FlashIo.Code
import PicoApConfigure.RingBuffer.Counting
import PicoApConfigure.RingBuffer.FullSearch

/-!
# Searches and counts come to an end

`rb_find` and the loop of `read_flash_ids` end at a blank header.  In a ring without one they go
around until a skipped fragment brings them back to the start of a sector, and the count is right
if every read takes up one record.
-/

namespace PicoApConfigure.FlashIo

open Nor RingBuffer

/-- What lets `rb_recreate` report an ordered ring as good: sector 0 is in use, and where the check
goes around the ring end the word behind it does not disturb it. -/
structure OpensGood (memory : Memory) (ring : Geometry) (cells : Nat → Option Sector) (start : Nat)
    (log : List Sector) : Prop where
  used : (cells 0).isSome = true
  behind : log.length = ring.sectors → 0 < start → BehindFits memory ring cells start

/-- What lets reads from the start of the log end and count the live records of `id`. -/
inductive CountsLive (ring : Geometry) (cells : Nat → Option Sector) (log : List Sector)
    (id : Byte) : Prop
  | refused (rejects : ¬ReadFits ring id flashPageSize) (none : liveRecords id (tape log) = 0)
  | unfilled (fits : ReadFits ring id flashPageSize) (left : Unfilled ring log)
      (once : CountsOnce id flashPageSize (tape log))
  | around (fits : ReadFits ring id flashPageSize) (full : AllFull ring cells)
      (one : OneSector id log)

section Count

variable {ring : Geometry} {memory : Memory} {cells : Nat → Option Sector} {rb : RbT} {id : Byte}
  {data : Memory} {start : Nat} {log : List Sector} {found : List (List Byte)}

/-- The loop counts the reads that succeed. -/
theorem readsBack_counts (reads : ReadsBack ring memory id flashPageSize rb data found) :
    ∀ loopcount, ∃ pagebuff, FlashProg.Completes ring.region
      (fun fuel => readFlashIdsLoop id fuel loopcount rb data) memory []
      (((loopcount + found.length : Nat) : Int), pagebuff) := by
  induction reads with
  | @done rb rb' data data' status failed read =>
      intro loopcount
      obtain ⟨bound, read⟩ := read
      refine ⟨data', .succ ⟨bound, fun fuel enough => ?_⟩⟩
      simp only [readFlashIdsLoop]
      refine FlashProg.Exec.bind_read (read fuel enough) ?_
      rw [if_pos (by omega)]
      exact FlashProg.Exec.pure _
  | @next rb rb' data data' length rest positive read _ ih =>
      intro loopcount
      obtain ⟨pagebuff, restBound, more⟩ := ih (loopcount + 1)
      obtain ⟨readBound, read⟩ := read
      refine ⟨pagebuff, .succ ⟨max readBound restBound, fun fuel enough => ?_⟩⟩
      simp only [readFlashIdsLoop]
      refine FlashProg.Exec.bind_read (read fuel (by omega)) ?_
      rw [if_neg (by omega), List.length_cons, Nat.add_comm rest.length, ← Nat.add_assoc]
      exact more fuel (by omega)

/-- Reads from the start of the log get the live records, as far as they fit the page buffer. -/
theorem CountsLive.readsBack (counts : CountsLive ring cells log id)
    (holds : RingHolds memory ring cells) (ordered : Ordered ring cells start log)
    (on : OnRing rb ring) (next : rb.next = 4096 * start) (data : Memory) :
    ReadsBack ring memory id flashPageSize rb data
      ((liveBytes id (tape log)).map (List.take flashPageSize)) := by
  cases counts with
  | refused rejects none =>
      rw [← liveBytes_length, List.length_eq_zero_iff] at none
      rw [none]
      exact .done (by decide) (rbRead_refused on rejects data)
  | unfilled fits left once =>
      have position := ordered.begins
      rw [← next] at position
      exact (once.tapeReads fits.1).readsBack holds ordered left fits on position data
  | around fits full one => exact one.readsBack holds ordered full fits on next data

/-- A ring in order with sector 0 in use has a log. -/
theorem OpensGood.ne_nil (good : OpensGood memory ring cells start log)
    (ordered : Ordered ring cells start log) : log ≠ [] := by
  rintro rfl
  obtain ⟨distance, bound, place⟩ := ring.exists_ahead ordered.start_lt ring.sectors_pos
  have cell := ordered.cell distance bound
  have inUse := good.used
  rw [place] at cell
  rw [cell] at inUse
  cases inUse

/-- Opening such a ring leaves the cursor at the start of its log. -/
theorem OpensGood.recreate (good : OpensGood memory ring cells start log)
    (holds : RingHolds memory ring cells) (ordered : Ordered ring cells start log)
    {flashBuf flashLen : Nat} (opens : Opens ring flashBuf (flashLen / flashSectorSize))
    (block : RbT) {choice : InitChoice} (keeps : choice ≠ .createInitAlways) :
    ∃ rb, (rbRecreate block flashBuf (flashLen / flashSectorSize) choice).Exec ring.extended memory
        [] (.ok, rb) ∧ OnRing rb ring ∧ rb.next = 4096 * start := by
  obtain ⟨status, rb, create, ok, place⟩ := ordered.rotated.create block ordered.inRingOrder holds
    opens keeps (List.length_pos_iff.mpr (good.ne_nil ordered))
  obtain rfl := ok.mpr ⟨good.used, good.behind⟩
  obtain ⟨on, next⟩ := place rfl
  exact ⟨rb, rbRecreate_kept_exec (.inr (.inl rfl)) create, on, next⟩

/-- `read_flash_ids` counts what its reads get. -/
theorem OpensGood.readFlashIds (good : OpensGood memory ring cells start log)
    (holds : RingHolds memory ring cells) (ordered : Ordered ring cells start log)
    {flashBuf flashLen : Nat} (opens : Opens ring flashBuf (flashLen / flashSectorSize)) {id : Int}
    (block : RbT) (pagebuff : Memory)
    (reads : ∀ rb, OnRing rb ring → rb.next = 4096 * start →
      ReadsBack ring memory (BitVec.ofInt 8 id) flashPageSize rb pagebuff found) :
    ∃ pagebuff', FlashProg.Completes ring.extended
      (fun fuel => readFlashIds fuel id flashBuf flashLen block pagebuff) memory []
      ((found.length : Int), pagebuff') := by
  obtain ⟨rb, recreate, on, next⟩ := good.recreate holds ordered opens block
    (by decide : InitChoice.createInitIfFail ≠ .createInitAlways)
  obtain ⟨pagebuff', completes⟩ := readsBack_counts (reads rb on next) 0
  refine ⟨pagebuff', ?_⟩
  simp only [FlashIo.readFlashIds]
  refine FlashProg.Completes.bind_read recreate ?_
  simp only [ne_eq, not_true_eq_false, if_false]
  rw [Nat.zero_add] at completes
  exact completes.mono fun _ inside => .inl inside

/-- `read_flash_ids` returns the number of live records. -/
theorem readFlashIds_counts (holds : RingHolds memory ring cells)
    (ordered : Ordered ring cells start log) (good : OpensGood memory ring cells start log)
    {flashBuf flashLen : Nat} (opens : Opens ring flashBuf (flashLen / flashSectorSize)) {id : Int}
    (counts : CountsLive ring cells log (BitVec.ofInt 8 id)) (block : RbT) (pagebuff : Memory) :
    ∃ pagebuff', FlashProg.Completes ring.extended
      (fun fuel => readFlashIds fuel id flashBuf flashLen block pagebuff) memory []
      ((liveRecords (BitVec.ofInt 8 id) (tape log) : Int), pagebuff') := by
  obtain ⟨pagebuff', completes⟩ := good.readFlashIds holds ordered opens block pagebuff
    fun rb on next => counts.readsBack holds ordered on next pagebuff
  rw [List.length_map, liveBytes_length] at completes
  exact ⟨pagebuff', completes⟩

end Count

/-- On every reachable ring `rb_find` returns and `read_flash_ids` returns the number of live
records, where the conditions of `SearchEnds` and `CountsLive` hold. -/
theorem searches_return {ring : Geometry} {first device : Device} {events : List Event}
    (started : Started ring first) (run : Run (Step ring) first events device)
    {cells : Nat → Option Sector} (holds : RingHolds device.memory ring cells) :
    (∀ next id data size scratch, Cursor ring cells next →
      SearchEnds ring cells id data size next →
      ∃ result, FlashProg.Completes ring.region
        (fun fuel => rbFind fuel { device.rb with next } id data size scratch) device.memory []
        result) ∧
    ∀ start log flashBuf flashLen id block pagebuff, Ordered ring cells start log →
      OpensGood device.memory ring cells start log →
      Opens ring flashBuf (flashLen / flashSectorSize) →
      CountsLive ring cells log (BitVec.ofInt 8 id) →
      ∃ pagebuff', FlashProg.Completes ring.extended
        (fun fuel => readFlashIds fuel id flashBuf flashLen block pagebuff) device.memory []
        ((liveRecords (BitVec.ofInt 8 id) (tape log) : Int), pagebuff') := by
  obtain ⟨formedCells, formed⟩ := started.formed.run run
  have filled : Filled ring cells := fun k inRing sector cell =>
    formed.filled k inRing sector ((holds.unique formed.holds inRing).symm.trans cell)
  constructor
  · intro next id data size scratch cursor ends
    exact ends.returns formed.on holds filled cursor scratch
  · intro start log flashBuf flashLen id block pagebuff ordered good opens counts
    exact readFlashIds_counts holds ordered good opens counts block pagebuff

/-! ## Sectors that one record takes up -/

theorem fillRequest_short : fillRequest.size ≤ 4088 := Nat.le_refl _

/-- The record of `fillRequest`. -/
def fillFragment : Fragment := fillRequest.whole fillRequest_short

theorem fillFragment_wanted : Wanted 1 fillFragment := ⟨rfl, rfl⟩

theorem fillFragment_payload :
    fillFragment.payload = slice fillRequest.data 0 fillRequest.size := by
  simp only [fillFragment, Request.whole, Request.piece]

theorem whole_size {request : Request} (whole : request.size = 4088) :
    (request.whole (Nat.le_of_eq whole)).size = 4092 := by
  simp [Fragment.size, Request.whole, Request.piece, whole]

/-- The tape of a sector that one record takes up. -/
theorem whole_tape {request : Request} (whole : request.size = 4088) (index : Nat) :
    tape [Sector.single index (request.whole (Nat.le_of_eq whole))] =
      [⟨request.whole (Nat.le_of_eq whole), true⟩] := by
  have closes : decide (4091 < 4 + (request.whole (Nat.le_of_eq whole)).size) = true := by
    rw [whole_size whole]
    decide
  rw [tape_cons, tape_nil, List.append_nil]
  change [(⟨request.whole _, decide (4091 < 4 + (request.whole _).size)⟩ : Mark)] = _
  rw [closes]

theorem fillFragment_tape (index : Nat) :
    tape [Sector.single index fillFragment] = [⟨fillFragment, true⟩] := whole_tape rfl index

theorem searches_return_filled : ∃ events device cells index pagebuff,
    Run (Step pairRing) (Device.blank pairRing) events device ∧
    RingHolds device.memory pairRing cells ∧
    (∃ result, FlashProg.Completes pairRing.region (fun fuel =>
      rbFind fuel { device.rb with next := 0 } 1 (fun _ => 1) 1 fun _ => 0) device.memory []
      result) ∧
    FlashProg.Completes pairRing.extended
      (fun fuel => readFlashIds fuel 1 pairRing.base 8192 .zeroed fun _ => 0) device.memory []
      ((liveRecords 1 (tape [Sector.single index fillFragment]) : Int), pagebuff) := by
  obtain ⟨writes, device, cells, start, log, step, counted, -, index, -, -, outcome⟩ :=
    (counted_blank pairRing (by decide)).fill (by decide) (by simp) false (.inl (by decide))
  obtain ⟨rfl, rfl⟩ : start = 0 ∧ log = [Sector.single index fillFragment] := by
    rcases outcome with ⟨-, rfl, rfl⟩ | ⟨impossible, -⟩
    · exact ⟨rfl, rfl⟩
    · cases impossible
  have ordered := counted.inOrder.ordered
  have run : Run (Step pairRing) (Device.blank pairRing) _ device := .snoc .nil step.1
  obtain ⟨finds, reads⟩ := searches_return (@started_blank pairRing (by decide)) run
    counted.inOrder.holds
  have first := ordered.cell 0 (by decide)
  have second := ordered.cell 1 (by decide)
  have left : ¬AllFull pairRing cells := by
    intro full
    have closed := full (pairRing.ahead 0 1) (by decide)
    rw [second] at closed
    cases closed
  have good : OpensGood device.memory pairRing cells 0 [Sector.single index fillFragment] :=
    ⟨by rw [show (0 : Nat) = pairRing.ahead 0 0 from rfl, first]; rfl,
      fun _ impossible => absurd impossible (Nat.lt_irrefl 0)⟩
  have once : CountsOnce 1 flashPageSize (tape [Sector.single index fillFragment]) := by
    rw [fillFragment_tape]
    exact .single fillFragment_wanted rfl rfl .nil
  obtain ⟨pagebuff, count⟩ := reads 0 _ pairRing.base 8192 1 .zeroed (fun _ => 0) ordered good
    (Opens.self (by decide)) (.unfilled ⟨by decide, by decide, by decide, by decide⟩
      (.inl (show 1 < 2 by decide)) once)
  exact ⟨_, device, cells, index, pagebuff, run, counted.inOrder.holds,
    finds 0 1 (fun _ => 1) 1 (fun _ => 0) (Cursor.start (k := 0) (by decide)) (.blankHeader left),
    count⟩

/-- In a ring of two sectors that a record each takes up, a search for other data goes around and
around. -/
theorem find_never_returns : ∃ events device cells,
    Run (Step pairRing) (Device.blank pairRing) events device ∧
    RingHolds device.memory pairRing cells ∧ Cursor pairRing cells 0 ∧
    ¬∃ region writes result, FlashProg.Completes region (fun fuel =>
      rbFind fuel { device.rb with next := 0 } 1 (fun _ => 1) 1 fun _ => 0) device.memory writes
      result := by
  obtain ⟨writes, device, cells, start, log, step, counted, closed, index, -, -, outcome⟩ :=
    (counted_blank pairRing (by decide)).fill (by decide) (by simp) false (.inl (by decide))
  obtain ⟨rfl, rfl⟩ : start = 0 ∧ log = [Sector.single index fillFragment] := by
    rcases outcome with ⟨-, rfl, rfl⟩ | ⟨impossible, -⟩
    · exact ⟨rfl, rfl⟩
    · cases impossible
  obtain ⟨writes', device', cells', start', log', step', counted', closed', index', -, -,
    outcome'⟩ := counted.fill (by decide) closed false (.inl (show 1 < 2 by decide))
  obtain ⟨rfl, rfl⟩ : start' = 0 ∧ log' = [Sector.single index fillFragment,
      Sector.single index' fillFragment] := by
    rcases outcome' with ⟨-, rfl, rfl⟩ | ⟨impossible, -⟩
    · exact ⟨rfl, rfl⟩
    · cases impossible
  have ordered := counted'.inOrder.ordered
  have only : ∀ k < pairRing.sectors, ∀ sector, cells' k = some sector →
      sector.isFull = true ∧ sector.frags = [fillFragment] := by
    intro k inRing sector cell
    obtain ⟨distance, -, -, entry⟩ := ordered.mem_of_cell inRing cell
    have member := List.mem_of_getElem? entry
    refine ⟨closed' sector member, ?_⟩
    rcases List.mem_cons.mp member with rfl | member
    · rfl
    · rw [List.mem_singleton.mp member]
      rfl
  have cursor : Cursor pairRing cells' 0 := Cursor.start (k := 0) (by decide)
  refine ⟨_, device', cells', .snoc (.snoc .nil step.1) step'.1, counted'.inOrder.holds, cursor, ?_⟩
  refine Unfound.never ⟨?_, ?_, ?_⟩ counted'.inOrder.on counted'.inOrder.holds
    ⟨by decide, by decide, by decide, by decide⟩ cursor _
  · exact ordered.allFull closed' rfl
  · intro k inRing sector cell fragment member _
    rw [(only k inRing sector cell).2, List.mem_singleton] at member
    rw [member, fillFragment_payload, slice_length, slice_take _ _ (by decide)]
    exact ⟨by decide, by decide⟩
  · intro k inRing _ sector before last cell frags
    rw [(only k inRing sector cell).2] at frags
    have same := congrArg List.getLast? frags
    rw [List.getLast?_singleton, List.getLast?_append, List.getLast?_singleton] at same
    rw [← Option.some.inj same]
    exact fillFragment_wanted

end PicoApConfigure.FlashIo
