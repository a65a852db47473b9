import PicoApConfigure.FlashIo.ReadIds
import PicoApConfigure.RingBuffer.Latest
import PicoApConfigure.RingBuffer.Writers

/-!
# The latest record as it is read

`read_flash_id_latest` counts the reads that get bytes and then repeats as many, so it ends with
what the last of them got.
-/

namespace PicoApConfigure.FlashIo

open Nor RingBuffer

/-- What `read_flash_id_latest` finds in a ring in order: nothing where sector 0 is erased, and
elsewhere what the last of the reads from the start of the log gets. -/
inductive LatestRead (ring : Geometry) (cells : Nat → Option Sector) (start : Nat) (id : Byte) :
    Option (List Byte) → Prop
  | unused (blank : cells 0 = none) : LatestRead ring cells start id none
  | reads {found : List (List Byte)} (used : (cells 0).isSome = true)
      (all : ReadsAll ring cells id flashPageSize (4096 * start) found) :
      LatestRead ring cells start id found.getLast?

/-- The value returned and the page buffer say what was found. -/
def Finds (latest : Option (List Byte)) (err : Int) (pagebuff : Memory) : Prop :=
  match latest with
  | none => err = 0 ∨ err = RbError.blankHdr.code
  | some bytes => err = bytes.length ∧ slice pagebuff 0 bytes.length = bytes

theorem id_ne {id : Int} (low : 1 ≤ id) (high : id ≤ 254) :
    BitVec.ofInt 8 id ≠ 0xff ∧ BitVec.ofInt 8 id ≠ 0 := by
  constructor
  · intro equal
    have value := congrArg BitVec.toNat equal
    rw [BitVec.toNat_ofInt] at value
    simp at value
    omega
  · intro equal
    have value := congrArg BitVec.toNat equal
    rw [BitVec.toNat_ofInt] at value
    simp at value
    omega

/-- A page can be read for every id of an entry. -/
theorem pageFits (ring : Geometry) {id : Int} (low : 1 ≤ id) (high : id ≤ 254) :
    ReadFits ring (BitVec.ofInt 8 id) flashPageSize := by
  obtain ⟨notBlank, notZero⟩ := id_ne low high
  refine ⟨by decide, notBlank, notZero, ?_⟩
  have := ring.sectors_pos
  simp only [flashPageSize]
  omega

section Reading

variable {ring : Geometry} {memory : Memory} {cells : Nat → Option Sector} {start : Nat}
  {log : List Sector} {block : RbT} {flashBuf flashLen : Nat} {id : Int} {region : Nat → Prop}

theorem readFlashIdsLoop_quiet (id : Byte) (fuel : Nat) :
    ∀ (loopcount : Nat) (rb : RbT) (pagebuff : Memory),
      (readFlashIdsLoop id fuel loopcount rb pagebuff).Quiet fun _ => True := by
  induction fuel with
  | zero => exact fun _ _ _ => .stuck
  | succ fuel ih =>
      intro loopcount rb pagebuff
      rw [readFlashIdsLoop]
      refine (rbRead_quiet fuel rb id pagebuff flashPageSize).bind ?_
      rintro ⟨err, rb, pagebuff⟩ -
      dsimp only
      split
      · exact .pure trivial
      · exact ih _ _ _

theorem readFlashIdNLoop_quiet (id : Byte) (fuel count : Nat) :
    ∀ (rb : RbT) (pagebuff : Memory),
      (readFlashIdNLoop id fuel count rb pagebuff).Quiet fun _ => True := by
  induction count with
  | zero =>
      intro rb pagebuff
      rw [readFlashIdNLoop]
      exact (rbRead_quiet fuel rb id pagebuff flashPageSize).bind fun _ _ => .pure trivial
  | succ count ih =>
      intro rb pagebuff
      rw [readFlashIdNLoop]
      refine (rbRead_quiet fuel rb id pagebuff flashPageSize).bind ?_
      rintro ⟨err, rb, pagebuff⟩ -
      dsimp only
      split
      · exact .pure trivial
      · exact ih _ _

theorem readFlashIds_leaves {fuel : Nat} {pagebuff : Memory} {writes : List Op}
    {status : RbError} {rb : RbT} {value : Int × Memory} {other : Nat → Prop}
    (recreate : (rbRecreate block flashBuf (flashLen / flashSectorSize) .createInitIfFail).Exec
      other memory [] (status, rb))
    (exec : (readFlashIds fuel id flashBuf flashLen block pagebuff).Exec region memory writes
      value) : replay writes memory = memory := by
  have rest := FlashProg.Exec.of_bind_read recreate exec
  dsimp only at rest
  split at rest
  · rw [rest.1, replay_nil]
  · exact (FlashProg.Quiet.of_completes (fun _ => readFlashIdsLoop_quiet _ _ _ _ _)
      rest.completes).1

theorem readFlashIdN_leaves {fuel : Nat} {n : Int} {pagebuff : Memory} {writes : List Op}
    {status : RbError} {rb : RbT} {value : Int × Memory} {other : Nat → Prop}
    (recreate : (rbRecreate block flashBuf (flashLen / flashSectorSize) .createInitIfFail).Exec
      other memory [] (status, rb))
    (exec : (readFlashIdN fuel id flashBuf flashLen n block pagebuff).Exec region memory writes
      value) : replay writes memory = memory := by
  have rest := FlashProg.Exec.of_bind_read recreate exec
  dsimp only at rest
  split at rest
  · rw [rest.1, replay_nil]
  · exact (FlashProg.Quiet.of_completes (fun _ => readFlashIdNLoop_quiet _ _ _ _ _)
      rest.completes).1

/-- A ring that opens is left alone by `read_flash_id_latest`. -/
theorem readFlashIdLatest_leaves {pagebuff : Memory} {writes : List Op} {status : RbError}
    {rb : RbT} {value : Int × Memory} {other : Nat → Prop}
    (recreate : (rbRecreate block flashBuf (flashLen / flashSectorSize) .createInitIfFail).Exec
      other memory [] (status, rb))
    (read : FlashProg.Completes region
      (fun fuel => readFlashIdLatest fuel id flashBuf flashLen block pagebuff) memory writes
      value) : replay writes memory = memory := by
  obtain ⟨bound, exec⟩ := read
  obtain ⟨first, ⟨err, pagebuff'⟩, rest, rfl, counted, latest⟩ :=
    FlashProg.exec_bind_iff.mp (exec bound (Nat.le_refl _))
  have kept := readFlashIds_leaves recreate counted
  rw [replay_append, kept]
  rw [kept] at latest
  dsimp only at latest
  split at latest
  · rw [latest.1, replay_nil]
  · exact readFlashIdN_leaves recreate latest

/-- Opening a ring in order that passes the check. -/
theorem recreate_accepts (holds : RingHolds memory ring cells)
    (ordered : Ordered ring cells start log)
    (fits : log.length = ring.sectors → 0 < start → BehindFits memory ring cells start)
    (opens : Opens ring flashBuf (flashLen / flashSectorSize)) (block : RbT) {bound : Nat}
    (cached : block.sectorIndex ≤ bound) (stored : ∀ sector ∈ log, sector.index ≤ bound) :
    ∃ rb, OnRing rb ring ∧ topOf ring cells rb.sectorIndex ≤ bound ∧
      (rbRecreate block flashBuf (flashLen / flashSectorSize) .createInitIfFail).Exec
        ring.extended memory [] (entryStatus (indexOf cells 0), rb) := by
  obtain ⟨rb, on, -, index, create⟩ := ordered.rotated.create_good block ordered.inRingOrder holds
    opens (by decide : InitChoice.createInitIfFail ≠ .createInitAlways) fits
  have known := entryStatus_eq_ok_or (indexOf cells 0)
  have below : ∀ k ∈ List.range ring.sectors, ∀ index, indexOf cells k = some index →
      index ≤ bound := by
    intro k member index found
    obtain ⟨sector, used, rfl⟩ : ∃ sector, cells k = some sector ∧ sector.index = index := by
      simpa [indexOf] using found
    obtain ⟨distance, -, -, entry⟩ := ordered.mem_of_cell (List.mem_range.mp member) used
    exact stored sector (List.mem_of_getElem? entry)
  refine ⟨rb, on, ordered.top_le ?_ stored, rbRecreate_kept_exec (.inr known) create⟩
  rw [index]
  refine topIndex_le (topIndex_le cached below) ?_
  exact fun k member => below k (List.mem_reverse.mp member)

/-- After a repair there is nothing to read. -/
theorem readFlashIdLatest_repaired {failed : RbT}
    (opens : Opens ring flashBuf (flashLen / flashSectorSize))
    (bad : (rbCreate block flashBuf (flashLen / flashSectorSize) .createInitIfFail).Exec
      ring.extended memory [] (.badHdr, failed))
    (fits : ReadFits ring (BitVec.ofInt 8 id) flashPageSize) (pagebuff : Memory) :
    ∃ pagebuff', FlashProg.Completes ring.extended
      (fun fuel => readFlashIdLatest fuel id flashBuf flashLen block pagebuff) memory
      [.erase ring.base (4096 * ring.sectors)] (0, pagebuff') := by
  have recreate := rbRecreate_bad_exec opens (fun _ inside => .inl inside)
    (by decide : InitChoice.createInitIfFail ≠ .createFail) bad
  have erased := ringBlank_erase ring memory
  have on := onRing_opened failed ring
  have ordered := ordered_blank ring
  have begins := ordered.begins
  have reads := (@TapeReads.done (BitVec.ofInt 8 id) flashPageSize [] rfl).readsBack erased ordered
    (.inl ring.sectors_pos) fits on begins pagebuff
  obtain ⟨pagebuff', counts⟩ := readsBack_counts reads 0
  refine ⟨pagebuff', ?_⟩
  have counted : FlashProg.Completes ring.extended
      (fun fuel => readFlashIds fuel id flashBuf flashLen block pagebuff) memory
      [.erase ring.base (4096 * ring.sectors)] (0, pagebuff') := by
    simp only [readFlashIds]
    rw [← List.append_nil [Op.erase ring.base (4096 * ring.sectors)]]
    refine recreate.completes.bind ?_
    simp only [ne_eq, not_true_eq_false, if_false]
    exact counts.mono fun _ inside => .inl inside
  simp only [FlashIo.readFlashIdLatest]
  rw [← List.append_nil [Op.erase ring.base (4096 * ring.sectors)]]
  refine counted.bind ?_
  simp only [le_refl, if_true]
  exact (FlashProg.Exec.pure _).completes

theorem LatestRead.length_le {latest : Option (List Byte)} {id : Byte}
    (found : LatestRead ring cells start id latest) {bytes : List Byte}
    (some : latest = .some bytes) :
    bytes.length ≤ flashPageSize := by
  cases found with
  | unused => cases some
  | reads _ all => exact all.length_le bytes (List.mem_of_getLast? some)

/-- The reads again, as many of them as got bytes: the last one leaves its bytes in the buffer. -/
theorem readsBack_last {last : List Byte} {id : Byte} (earlier : List (List Byte)) :
    ∀ {rb : RbT} {data : Memory},
      ReadsBack ring memory id flashPageSize rb data (earlier ++ [last]) →
      ∃ pagebuff, FlashProg.Completes ring.region
          (fun fuel => readFlashIdNLoop id fuel earlier.length rb data) memory []
          ((last.length : Int), pagebuff) ∧
        slice pagebuff 0 last.length = last := by
  induction earlier with
  | nil =>
      intro rb data reads
      cases reads with
      | @next _ rb' _ data' length _ positive read _ =>
          refine ⟨data', ?_, by rw [slice_length]⟩
          simp only [List.length_nil, readFlashIdNLoop]
          rw [slice_length]
          exact read.map fun result => (result.1, result.2.2)
  | cons first earlier ih =>
      intro rb data reads
      cases reads with
      | @next _ rb' _ data' length _ positive read more =>
          obtain ⟨pagebuff, again, held⟩ := ih more
          refine ⟨pagebuff, ?_, held⟩
          simp only [List.length_cons, readFlashIdNLoop]
          rw [← List.append_nil ([] : List Op)]
          refine read.bind ?_
          have got : ¬((length : Int) ≤ 0) := by omega
          simp only [if_neg got]
          exact again

/-- In a ring with room there is something to find. -/
theorem LatestRead.exists (ordered : Ordered ring cells 0 log) (unfilled : Unfilled ring log)
    (low : 1 ≤ id) (high : id ≤ 254) :
    ∃ latest, LatestRead ring cells 0 (BitVec.ofInt 8 id) latest := by
  cases cell : cells 0 with
  | none => exact ⟨none, .unused cell⟩
  | some sector =>
      have page := pageFits ring low high
      obtain ⟨stops, listed⟩ := Stops.exists (BitVec.ofInt 8 id) page.1 (tape log)
      exact ⟨_, .reads (by rw [cell]; rfl)
        ((listed.tapeReads page.1).readsAll ordered.laid unfilled ordered.begins)⟩

/-- What `read_flash_id_latest` returns. -/
theorem LatestRead.read {latest : Option (List Byte)}
    (found : LatestRead ring cells start (BitVec.ofInt 8 id) latest)
    (holds : RingHolds memory ring cells) (ordered : Ordered ring cells start log)
    (fits : log.length = ring.sectors → 0 < start → BehindFits memory ring cells start)
    (opens : Opens ring flashBuf (flashLen / flashSectorSize)) (low : 1 ≤ id) (high : id ≤ 254)
    (block : RbT) (pagebuff : Memory) :
    ∃ err pagebuff', FlashProg.Completes ring.extended
        (fun fuel => readFlashIdLatest fuel id flashBuf flashLen block pagebuff) memory []
        (err, pagebuff') ∧
      Finds latest err pagebuff' := by
  cases found with
  | unused blank =>
      obtain ⟨rb, -, -, -, create⟩ := ordered.rotated.create_good block ordered.inRingOrder holds
        opens (by decide : InitChoice.createInitIfFail ≠ .createInitAlways) fits
      rw [indexOf, blank] at create
      have recreate := rbRecreate_kept_exec (.inr (.inr rfl)) create
      have counted : FlashProg.Completes ring.extended
          (fun fuel => readFlashIds fuel id flashBuf flashLen block pagebuff) memory []
          (RbError.blankHdr.code, pagebuff) := by
        simp only [readFlashIds]
        exact FlashProg.Completes.bind_read recreate (FlashProg.Exec.pure _).completes
      refine ⟨RbError.blankHdr.code, pagebuff, ?_, .inr rfl⟩
      simp only [FlashIo.readFlashIdLatest]
      rw [← List.append_nil ([] : List Op)]
      refine counted.bind ?_
      exact (FlashProg.Exec.pure _).completes
  | @reads found used all =>
      have good : OpensGood memory ring cells start log := ⟨used, fits⟩
      have page := pageFits ring low high
      obtain ⟨pagebuff', count⟩ := good.readFlashIds holds ordered opens block pagebuff
        fun rb on next => all.readsBack holds page on next pagebuff
      simp only [FlashIo.readFlashIdLatest]
      rw [← List.append_nil ([] : List Op)]
      rcases List.eq_nil_or_concat' found with rfl | ⟨earlier, last, rfl⟩
      · refine ⟨0, pagebuff', count.bind ?_, .inl rfl⟩
        exact (FlashProg.Exec.pure _).completes
      · obtain ⟨rb, recreate, on, next⟩ := good.recreate holds ordered opens block
          (by decide : InitChoice.createInitIfFail ≠ .createInitAlways)
        obtain ⟨pagebuff'', again, held⟩ := readsBack_last earlier
          (all.readsBack holds page on next pagebuff')
        rw [List.getLast?_concat]
        refine ⟨last.length, pagebuff'', count.bind ?_, rfl, held⟩
        have some : ¬(((earlier ++ [last]).length : Int) ≤ 0) := by
          rw [List.length_append, List.length_singleton]
          omega
        have skipped : (((earlier ++ [last]).length : Int) - 1).toNat = earlier.length := by
          rw [List.length_append, List.length_singleton]
          omega
        simp only [if_neg some, readFlashIdN, skipped]
        refine FlashProg.Completes.bind_read recreate ?_
        simp only [ne_eq, not_true_eq_false, if_false]
        exact again.mono fun _ inside => .inl inside

/-- A count that comes to an end has read everything. -/
theorem readFlashIdsLoop_readsAll (holds : RingHolds memory ring cells) {id : Byte}
    (page : ReadFits ring id flashPageSize) {region : Nat → Prop} (fuel : Nat) :
    ∀ {loopcount : Nat} {rb : RbT} {data : Memory} {writes : List Op} {value : Int × Memory},
      OnRing rb ring → Cursor ring cells rb.next →
      (readFlashIdsLoop id fuel loopcount rb data).Exec region memory writes value →
      ∃ found, ReadsAll ring cells id flashPageSize rb.next found := by
  induction fuel with
  | zero => exact fun _ _ exec => exec.elim
  | succ fuel ih =>
      intro loopcount rb data writes value on cursor exec
      have home : rb.next / 4096 < ring.sectors := by
        have := cursor.lt
        omega
      obtain ⟨result, next, reads⟩ := Reads.exists (fun _ => .blankHdr) id home cursor
        flashPageSize
      rw [readFlashIdsLoop] at exec
      obtain ⟨first, ⟨err, rb', data'⟩, rest, rfl, read, exec⟩ := FlashProg.exec_bind_iff.mp exec
      -- the read that ran is the one that `reads` describes
      have ran := @FlashProg.Exec.completes_of_extends _ _ _
        (fun fuel => rbRead fuel rb id data flashPageSize) _ _ _ read fun fuel =>
          rbRead_extends fuel rb id data flashPageSize
      obtain ⟨rfl, equal⟩ := ran.unique
        (rbRead_completes on holds.carries holds.endingsAre page reads data)
      cases equal
      cases result with
      | stopped status => exact ⟨[], .done reads⟩
      | got bytes =>
          have positive := reads.got_pos page.1
          have more : ¬(((ReadResult.got bytes).code : Int) ≤ 0) := by
            rw [ReadResult.code_got]
            omega
          simp only [if_neg more] at exec
          obtain ⟨found, later⟩ := @ih _ { rb with next } _ _ _ ⟨on.base_eq, on.bytes_eq⟩
            (reads.isCursor home) exec
          exact ⟨bytes :: found, .next reads later⟩

/-- Where `read_flash_id_latest` returns, its reads come to an end. -/
theorem LatestRead.of_exec (holds : RingHolds memory ring cells)
    (ordered : Ordered ring cells start log)
    (fits : log.length = ring.sectors → 0 < start → BehindFits memory ring cells start)
    (opens : Opens ring flashBuf (flashLen / flashSectorSize)) (low : 1 ≤ id) (high : id ≤ 254)
    {fuel : Nat} {pagebuff : Memory} {writes : List Op} {value : Int × Memory}
    (read : (readFlashIdLatest fuel id flashBuf flashLen block pagebuff).Exec region memory writes
      value) : ∃ latest, LatestRead ring cells start (BitVec.ofInt 8 id) latest := by
  cases cell : cells 0 with
  | none => exact ⟨none, .unused cell⟩
  | some sector =>
      have good : OpensGood memory ring cells start log := ⟨by rw [cell]; rfl, fits⟩
      obtain ⟨rb, recreate, on, next⟩ := good.recreate holds ordered opens block
        (by decide : InitChoice.createInitIfFail ≠ .createInitAlways)
      obtain ⟨_, _, _, -, counted, -⟩ := FlashProg.exec_bind_iff.mp read
      have loop := FlashProg.Exec.of_bind_read recreate counted
      simp only [ne_eq, not_true_eq_false, if_false] at loop
      obtain ⟨found, all⟩ := readFlashIdsLoop_readsAll holds (pageFits ring low high) fuel on
        (next ▸ Cursor.start ordered.start_lt) loop
      rw [next] at all
      exact ⟨_, .reads good.used all⟩

end Reading

end PicoApConfigure.FlashIo
