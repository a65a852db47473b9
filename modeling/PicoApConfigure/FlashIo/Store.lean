import PicoApConfigure.FlashIo.ReadIds

/-!
# Writing entries

What the writers of `flash_io.c` do in a ring whose records all lie in one sector with room left:
an entry whose id is not in the ring is appended, and the search for older copies of its text
leaves the ring alone if there is at most one network in it.
-/

namespace PicoApConfigure.FlashIo

open Nor RingBuffer

/-- Sector 0 is the only one in use. -/
structure OneSectorUsed (ring : Geometry) (memory : Memory) (cells : Nat → Option Sector)
    (sector : Sector) : Prop where
  holds : RingHolds memory ring cells
  ordered : Ordered ring cells 0 [sector]
  more : 1 < ring.sectors

section Ring

variable {ring : Geometry} {memory : Memory} {cells : Nat → Option Sector} {sector : Sector}
  {flashBuf flashLen : Nat}

theorem OneSectorUsed.cell (used : OneSectorUsed ring memory cells sector) :
    cells 0 = some sector := by
  have first := used.ordered.cell 0 ring.sectors_pos
  rwa [ring.ahead_zero ring.sectors_pos] at first

theorem OneSectorUsed.opensGood (used : OneSectorUsed ring memory cells sector) :
    OpensGood memory ring cells 0 [sector] where
  used := by
    rw [used.cell]
    rfl
  behind _ impossible := absurd impossible (Nat.lt_irrefl 0)

/-- Opening the ring. -/
theorem OneSectorUsed.recreate (used : OneSectorUsed ring memory cells sector)
    (opens : Opens ring flashBuf (flashLen / flashSectorSize)) (block : RbT) {choice : InitChoice}
    (keeps : choice ≠ .createInitAlways) :
    ∃ rb, (rbRecreate block flashBuf (flashLen / flashSectorSize) choice).Exec ring.extended memory
        [] (.ok, rb) ∧ OnRing rb ring ∧ rb.next = 0 := by
  obtain ⟨rb, recreate, on, next⟩ := used.opensGood.recreate used.holds used.ordered opens block
    keeps
  exact ⟨rb, recreate, on, next⟩

/-- No entry is counted where none has the id. -/
theorem countsOnce_unused {id : Byte} (size : Nat) {chain : List Mark}
    (unused : ∀ mark ∈ chain, ¬Wanted id mark.fragment) :
    CountsOnce id size chain ∧ liveRecords id chain = 0 := by
  induction chain with
  | nil => exact ⟨.nil, rfl⟩
  | cons mark rest ih =>
      have skipped := unused mark List.mem_cons_self
      obtain ⟨later, none⟩ := ih fun other member => unused other (List.mem_cons_of_mem _ member)
      have starts : ¬StartsRecord id mark rest := fun starts => skipped starts.1
      exact ⟨.other skipped later, by rw [liveRecords, if_neg starts, none]⟩

theorem mem_tape_single {mark : Mark} (member : mark ∈ tape [sector]) :
    mark.fragment ∈ sector.frags := by
  rw [tape_cons, tape_nil, List.append_nil] at member
  obtain ⟨before, after, frags, -⟩ := mem_marks member
  rw [frags]
  simp

/-- The latest entry of an id that is not in the ring. -/
theorem OneSectorUsed.readFlashIdLatest (used : OneSectorUsed ring memory cells sector)
    (opens : Opens ring flashBuf (flashLen / flashSectorSize)) {id : Int}
    (fits : ReadFits ring (BitVec.ofInt 8 id) flashPageSize)
    (unused : ∀ fragment ∈ sector.frags, ¬Wanted (BitVec.ofInt 8 id) fragment) (block : RbT)
    (pagebuff : Memory) :
    ∃ pagebuff', FlashProg.Completes ring.extended
      (fun fuel => readFlashIdLatest fuel id flashBuf flashLen block pagebuff) memory []
      (0, pagebuff') := by
  obtain ⟨once, none⟩ := @countsOnce_unused (BitVec.ofInt 8 id) flashPageSize (tape [sector])
    fun mark member => unused _ (mem_tape_single member)
  obtain ⟨pagebuff', counts⟩ := readFlashIds_counts used.holds used.ordered used.opensGood opens
    (.unfilled fits (.inl used.more) once) block pagebuff
  rw [none] at counts
  refine ⟨pagebuff', ?_⟩
  simp only [FlashIo.readFlashIdLatest]
  rw [← List.append_nil ([] : List Op)]
  refine counts.bind ?_
  simp only [Nat.cast_zero, le_refl, if_true]
  exact (FlashProg.Exec.pure _).completes

/-- An entry whose id is not in the ring is appended to the sector. -/
theorem OneSectorUsed.write (used : OneSectorUsed ring memory cells sector)
    (opens : Opens ring flashBuf (flashLen / flashSectorSize)) {id : Int} {request : Request}
    (sameId : request.id = BitVec.ofInt 8 id)
    (fits : ReadFits ring (BitVec.ofInt 8 id) flashPageSize)
    (unused : ∀ fragment ∈ sector.frags, ¬Wanted (BitVec.ofInt 8 id) fragment)
    (room : request.size + 4 < 4096 - sector.used) (short : request.size ≤ 4088) (block : RbT)
    (pagebuff : Memory) :
    ∃ writes pagebuff' cells' sector', FlashProg.Completes ring.extended
        (fun fuel => flashIoWriteFlashId fuel id flashBuf flashLen request.data request.size block
          pagebuff) memory writes ((request.size : Int), pagebuff') ∧
      OneSectorUsed ring (replay writes memory) cells' sector' ∧
      sector'.frags = sector.frags ++ [request.whole short] := by
  have size : (request.whole short).size = request.size + 4 := by
    simp [Fragment.size, Request.whole, Request.piece, Nat.add_comm]
  have inside : sector.used + (request.whole short).size ≤ 4096 := by omega
  have notFull : sector.isFull = false := by
    rw [sector.not_isFull_iff]
    have := request.size_pos
    omega
  obtain ⟨pagebuff', latest⟩ := used.readFlashIdLatest opens fits unused block pagebuff
  obtain ⟨rb, recreate, on, -⟩ := used.recreate opens block
    (by decide : InitChoice.createInitIfFail ≠ .createInitAlways)
  obtain ⟨frontier, cell⟩ := @Ordered.frontier_newest ring cells 0 [] sector used.ordered notFull
  have places := @Places.inside ring cells _ request (topOf ring cells rb.sectorIndex) _ short cell
    room inside
  have appends : Appends ring request true cells rb.sectorIndex _ .ok _ _ :=
    .placed (used.ordered.oldest_eq.symm ▸ frontier) places (by simp)
  obtain ⟨rb', on', -, -, append⟩ := rbAppend_completes request
    (⟨on.base_eq, on.bytes_eq⟩ : OnRing { rb with rbPage := pagebuff' } ring) used.holds
    used.ordered.filled (request.fits_of_short ring short) appends pagebuff'
  refine ⟨_, rb'.rbPage, _, sector.push (request.whole short) inside, ?_,
    ⟨appends.holds used.holds, ?_, used.more⟩, rfl⟩
  · simp only [flashIoWriteFlashId]
    rw [← List.nil_append (putWrites _ _ _ _ _)]
    refine latest.bind ?_
    have differs : ¬(u32 0 = request.size ∧
        slice pagebuff' 0 request.size = slice request.data 0 request.size) := by
      rintro ⟨zero, -⟩
      exact absurd request.size_pos (by rw [← zero]; decide)
    simp only [if_neg differs]
    refine FlashProg.Completes.bind_read recreate ?_
    simp only [ne_eq, not_true_eq_false, false_and, if_false]
    rw [← List.append_nil (putWrites _ _ _ _ _), ← sameId]
    refine (append.mono fun _ inRing => .inl inRing).bind ?_
    exact (FlashProg.Exec.pure _).completes
  · exact @Ordered.set_newest ring cells 0 [] sector _ used.ordered rfl (by simp [Sector.push])

/-- At most one record of a tape has the id. -/
def AtMostOne (id : Byte) (chain : List Mark) : Prop :=
  chain.Pairwise fun earlier later => Wanted id earlier.fragment → ¬Wanted id later.fragment

/-- Nothing is shown where no record has the id. -/
theorem stops_unused {id : Byte} (size : Nat) {chain : List Mark}
    (unused : ∀ mark ∈ chain, ¬Wanted id mark.fragment) : Stops id size chain [] := by
  induction chain with
  | nil => exact .done
  | cons mark rest ih =>
      exact .skip (unused mark List.mem_cons_self) (ih fun other member =>
        unused other (List.mem_cons_of_mem _ member))

/-- Behind the only record of an id there is none. -/
theorem AtMostOne.behind {id : Byte} {data scratch : Memory} {size : Nat} {chain found : List Mark}
    {stops : List Stop} (one : AtMostOne id chain) (listed : Stops id size chain stops)
    (shown : firstShown data size scratch stops = some found) :
    ∀ mark ∈ (readTape id size found).2, ¬Wanted id mark.fragment := by
  obtain ⟨i, stop, entry, rfl, -⟩ := firstShown_some shown
  have member := List.mem_of_getElem? entry
  clear shown entry
  induction listed with
  | done => cases member
  | skip skipped _ ih => exact ih (List.pairwise_cons.mp one).2 member
  | @read mark rest behind bytes stops wanted got later ih =>
      have others := (List.pairwise_cons.mp one).1
      have suffix : behind <:+ rest := by
        have shorter := readTape_length id (mark :: rest) size
        have suffix := readTape_suffix id (mark :: rest) size
        rw [got] at shorter suffix
        rcases List.suffix_cons_iff.mp suffix with same | suffix
        · rw [same] at shorter
          simp at shorter
        · exact suffix
      rcases List.mem_cons.mp member with rfl | member
      · rw [got]
        exact fun other inside => others other (suffix.subset inside) wanted
      · exact ih ((List.pairwise_cons.mp one).2.sublist suffix.sublist) member

/-- What `flash_io_erase_redundant_ssids` returns when a search fails. -/
def lastStatus (status : Int) : Int :=
  if status = RbError.blankHdr.code ∨ status = RbError.hdrIdNotFound.code then 0 else status

theorem lastStatus_exec (status : Int) (pagebuff : Memory) :
    (if status = RbError.blankHdr.code ∨ status = RbError.hdrIdNotFound.code then
        Pure.pure (0, pagebuff)
      else Pure.pure (status, pagebuff) : FlashProg (Int × Memory)).Exec ring.region memory []
      (lastStatus status, pagebuff) := by
  rw [lastStatus]
  split <;> exact FlashProg.Exec.pure _

/-- The loop ends with the first search if that one fails. -/
theorem eraseRedundantLoop_first {rb rb' : RbT} {ss pagebuff scratch : Memory} {sslen : Nat}
    {terr value : Int} (positive : 0 < sslen) (good : 0 ≤ terr)
    (find : FlashProg.Completes ring.region
      (fun fuel => rbFind fuel rb (BitVec.ofInt 8 ssidId) ss sslen pagebuff) memory []
      (value, rb', scratch)) (failed : value < 0) :
    FlashProg.Completes ring.region
      (fun fuel => eraseRedundantLoop ss sslen fuel terr rb pagebuff) memory []
      (lastStatus value, scratch) := by
  have enters : ¬(terr < 0 ∨ sslen = 0) := by omega
  refine .succ ?_
  simp only [eraseRedundantLoop, if_neg enters]
  rw [← List.append_nil ([] : List Op)]
  refine find.bind ?_
  simp only [if_pos failed]
  exact (lastStatus_exec value scratch).completes

/-- The search for older copies of a text ends at once if there is at most one network. -/
theorem eraseRedundantLoop_one (holds : RingHolds memory ring cells) (filled : Filled ring cells)
    {rb : RbT} {chain : List Mark} (on : OnRing rb ring)
    (ahead : Ahead ring cells (rb.next / 4096) 0 rb.next chain)
    (one : AtMostOne (BitVec.ofInt 8 ssidId) chain) (ss : Memory) {sslen : Nat}
    (positive : 0 < sslen) (pagebuff : Memory) :
    ∃ result, FlashProg.Completes ring.region
      (fun fuel => eraseRedundantLoop ss sslen fuel 0 rb pagebuff) memory [] result := by
  by_cases fits : ReadFits ring (BitVec.ofInt 8 ssidId) sslen
  swap
  · have refused : FlashProg.Completes ring.region (fun fuel => rbFind fuel rb
        (BitVec.ofInt 8 ssidId) ss sslen pagebuff) memory []
        (RbError.badCallerData.code, rb, pagebuff) := by
      simp only [rbFind, if_pos ((rbReadRejects_iff on).mpr fits)]
      exact (FlashProg.Exec.pure _).completes
    exact ⟨_, eraseRedundantLoop_first positive (Int.le_refl 0) refused (by decide)⟩
  obtain ⟨stops, listed⟩ := Stops.exists (BitVec.ofInt 8 ssidId) fits.1 chain
  obtain ⟨value, rb', scratch, first, returns, -, stands⟩ :=
    @rbFind_completes _ _ _ rb _ _ _ _ ss on holds filled fits ahead listed pagebuff
  rcases shown : firstShown ss sslen pagebuff stops with _ | found
  · rw [shown] at returns
    exact ⟨_, eraseRedundantLoop_first positive (Int.le_refl 0) first returns⟩
  · rw [shown] at returns
    obtain ⟨address, -, rfl, -⟩ := returns
    obtain ⟨on', later, ahead'⟩ := stands found shown
    have none := one.behind listed shown
    have rest := ahead'.rebase ahead.home_lt (Nat.le_refl later)
    rw [Nat.sub_self, ← ahead'.sector] at rest
    obtain ⟨value', rb'', scratch', second, returns', -, -⟩ :=
      @rbFind_completes _ _ _ rb' _ _ _ _ ss on' holds filled fits rest
        (stops_unused sslen none) scratch
    have failed : value' < 0 := returns'
    have enters : ¬((0 : Int) < 0 ∨ sslen = 0) := by omega
    have shows : ¬((address : Int) < 0) := by omega
    have hides : ¬(value' ≥ 0) := by omega
    refine ⟨(lastStatus value', scratch'), .succ ?_⟩
    simp only [eraseRedundantLoop, if_neg enters]
    rw [← List.append_nil ([] : List Op)]
    refine first.bind ?_
    simp only [if_neg shows]
    rw [← List.append_nil ([] : List Op)]
    refine second.bind ?_
    simp only [if_neg hides]
    exact (lastStatus_exec value' scratch').completes

/-- At most one of the fragments has the id. -/
def OneOf (id : Byte) (frags : List Fragment) : Prop :=
  frags.Pairwise fun earlier later => Wanted id earlier → ¬Wanted id later

/-- `strlen` returns the place of the first terminator. -/
theorem strlen_from {text : Memory} {position length : Nat}
    (terminated : text (position + length) = 0) (inside : ∀ i < length, text (position + i) ≠ 0) :
    FlashProg.Completes ring.extended (fun fuel => strlen fuel text position) memory []
      (position + length) := by
  induction length generalizing position with
  | zero =>
      have here : text position = 0 := terminated
      refine .once fun fuel => ?_
      rw [strlen, if_pos here]
      exact FlashProg.Exec.pure _
  | succ length ih =>
      have here : text position ≠ 0 := inside 0 (Nat.succ_pos _)
      have place : position + (length + 1) = position + 1 + length := by omega
      rw [place] at terminated ⊢
      refine .succ ?_
      simp only [strlen, if_neg here]
      refine ih terminated ?_
      intro i bound
      rw [Nat.add_assoc, Nat.add_comm 1 i]
      exact inside (i + 1) (by omega)

theorem strlen_eq {text : Memory} {length : Nat} (terminated : text length = 0)
    (inside : ∀ i < length, text i ≠ 0) :
    FlashProg.Completes ring.extended (fun fuel => strlen fuel text 0) memory [] length := by
  have ends := @strlen_from ring memory text 0 length (by rwa [Nat.zero_add])
    (by simpa only [Nat.zero_add] using inside)
  rwa [Nat.zero_add] at ends

theorem strlen_completes {text : Memory} {limit : Nat} (terminated : text limit = 0) :
    ∃ length ≤ limit, FlashProg.Completes ring.extended (fun fuel => strlen fuel text 0) memory []
      length := by
  have ends : ∃ i, text i = 0 := ⟨limit, terminated⟩
  exact ⟨Nat.find ends, Nat.find_min' ends terminated,
    strlen_eq (Nat.find_spec ends) fun i before => Nat.find_min ends before⟩

theorem OneOf.tape {id : Byte} (one : OneOf id sector.frags) : AtMostOne id (tape [sector]) := by
  have fragments := tape_fragments [sector]
  rw [List.flatMap_singleton] at fragments
  rw [OneOf, ← fragments, List.pairwise_map] at one
  exact one

/-- The search for older copies of a text leaves the ring as it is. -/
theorem OneSectorUsed.erase (used : OneSectorUsed ring memory cells sector)
    (opens : Opens ring persistentTable (persistentLen / flashSectorSize))
    (one : OneOf (BitVec.ofInt 8 ssidId) sector.frags) {ss : Memory} {limit : Nat}
    (terminated : ss limit = 0) (block : RbT) (pagebuff : Memory) :
    ∃ result, FlashProg.Completes ring.extended
      (fun fuel => flashIoEraseRedundantSsids fuel ss block pagebuff) memory [] result := by
  obtain ⟨length, -, measured⟩ := @strlen_completes ring memory ss limit terminated
  obtain ⟨rb, recreate, on, next⟩ := used.recreate opens block
    (by decide : InitChoice.createFail ≠ .createInitAlways)
  have position := used.ordered.begins
  have ahead : Ahead ring cells 0 0 rb.next (tape [sector]) := by
    rw [next]
    exact position.ahead used.ordered.laid (.inl used.more)
  have home : rb.next / 4096 = 0 := by rw [next]
  obtain ⟨result, loop⟩ := eraseRedundantLoop_one used.holds used.ordered.filled on
    (by rw [home]; exact ahead) one.tape ss length.succ_pos pagebuff
  refine ⟨result, ?_⟩
  simp only [flashIoEraseRedundantSsids]
  rw [← List.append_nil ([] : List Op)]
  refine measured.bind ?_
  refine FlashProg.Completes.bind_read recreate ?_
  simp only [ne_eq, not_true_eq_false, false_and, if_false]
  exact loop.mono fun _ inside => .inl inside

theorem OneOf.append {id : Byte} {frags : List Fragment} (one : OneOf id frags)
    {fragment : Fragment} (either : ¬Wanted id fragment ∨ ∀ earlier ∈ frags, ¬Wanted id earlier) :
    OneOf id (frags ++ [fragment]) := by
  refine List.pairwise_append.mpr ⟨one, List.pairwise_singleton _ _, ?_⟩
  intro earlier member later last wanted
  rw [List.mem_singleton.mp last]
  rcases either with other | unused
  · exact other
  · exact absurd wanted (unused earlier member)

theorem OneOf.of_unused {id : Byte} {frags : List Fragment}
    (unused : ∀ fragment ∈ frags, ¬Wanted id fragment) : OneOf id frags :=
  List.pairwise_of_forall_mem_list fun earlier member _ _ wanted =>
    absurd wanted (unused earlier member)

/-- An entry is appended and the search for older copies of its text leaves it alone. -/
theorem OneSectorUsed.writeErase (used : OneSectorUsed ring memory cells sector)
    (opens : Opens ring persistentTable (persistentLen / flashSectorSize)) {id : Int}
    {buff : Memory}
    {blen : Nat} (known : id = ssidId ∨ id = hostnameId) (positive : 0 < blen)
    (room : blen + 4 < 4096 - sector.used)
    (unused : ∀ fragment ∈ sector.frags, ¬Wanted (BitVec.ofInt 8 id) fragment)
    (one : OneOf (BitVec.ofInt 8 ssidId) sector.frags) {text : Memory} {limit : Nat}
    (terminated : text limit = 0) (block : RbT) (pagebuff : Memory) :
    ∃ writes result cells' sector' fragment, FlashProg.Completes ring.extended
        (fun fuel => do
          let (terr, pagebuff) ← flashIoWriteFlashId fuel id persistentTable persistentLen buff blen
            block pagebuff
          if terr > 0 then
            let (_, pagebuff) ← flashIoEraseRedundantSsids fuel text block pagebuff
            return (terr, pagebuff)
          else
            return (terr, pagebuff)) memory writes result ∧
      OneSectorUsed ring (replay writes memory) cells' sector' ∧
      sector'.frags = sector.frags ++ [fragment] ∧ fragment.id = BitVec.ofInt 8 id ∧
      fragment.payload.length = blen := by
  have short : blen ≤ 4088 := by
    have : sector.used = 4 + fragsSize sector.frags := rfl
    omega
  have other : BitVec.ofInt 8 id ≠ 0xff ∧ BitVec.ofInt 8 id ≠ 0 := by
    rcases known with rfl | rfl <;> decide
  have reads : ReadFits ring (BitVec.ofInt 8 id) flashPageSize := by
    have := used.more
    refine ⟨by decide, other.1, other.2, ?_⟩
    simp only [flashPageSize]
    omega
  obtain ⟨writes, pagebuff', cells', sector', write, used', frags⟩ := @OneSectorUsed.write
    ring memory cells sector persistentTable persistentLen used opens id
    ⟨BitVec.ofInt 8 id, buff, blen, other.1, positive⟩ rfl reads unused room short block pagebuff
  have one' : OneOf (BitVec.ofInt 8 ssidId) sector'.frags := by
    rw [frags]
    refine one.append ?_
    rcases known with rfl | rfl
    · exact .inr unused
    · have differs : BitVec.ofInt 8 hostnameId ≠ BitVec.ofInt 8 ssidId := by decide
      exact .inl fun wanted => differs wanted.1
  obtain ⟨result, erase⟩ := used'.erase opens one' terminated block pagebuff'
  refine ⟨writes, ((blen : Int), result.2), cells', sector', _, ?_, used', frags, rfl, by
    simp [Request.whole, Request.piece]⟩
  rw [← List.append_nil writes]
  refine write.bind ?_
  have stored : (blen : Int) > 0 := by omega
  simp only [if_pos stored]
  rw [← List.append_nil ([] : List Op)]
  refine erase.bind ?_
  exact (FlashProg.Exec.pure _).completes

/-- A name is stored if there is none in the ring. -/
theorem OneSectorUsed.writeHostname (used : OneSectorUsed ring memory cells sector)
    (opens : Opens ring persistentTable (persistentLen / flashSectorSize)) {hostname : Memory}
    {nlen limit : Nat} (positive : 0 < nlen) (room : nlen + 4 < 4096 - sector.used)
    (unused : ∀ fragment ∈ sector.frags, ¬Wanted (BitVec.ofInt 8 hostnameId) fragment)
    (one : OneOf (BitVec.ofInt 8 ssidId) sector.frags) (terminated : hostname limit = 0)
    (stack : Stack) (pagebuff : Memory) :
    ∃ writes result cells' sector' fragment, FlashProg.Completes ring.extended
        (fun fuel => flashIoWriteHostname fuel hostname nlen stack pagebuff) memory writes result ∧
      OneSectorUsed ring (replay writes memory) cells' sector' ∧
      sector'.frags = sector.frags ++ [fragment] ∧ fragment.payload.length = nlen := by
  obtain ⟨writes, result, cells', sector', fragment, write, used', frags, -, length⟩ :=
    used.writeErase opens (.inr rfl) positive room unused one terminated stack.rb pagebuff
  exact ⟨writes, result, cells', sector', fragment, write, used', frags, length⟩

/-- A network is stored if there is none in the ring. -/
theorem OneSectorUsed.writeSsid (used : OneSectorUsed ring memory cells sector)
    (opens : Opens ring persistentTable (persistentLen / flashSectorSize)) {ss pw : Memory}
    {ssEnd pwEnd : Nat} (room : ssEnd + pwEnd + 6 < 4096 - sector.used)
    (unused : ∀ fragment ∈ sector.frags, ¬Wanted (BitVec.ofInt 8 ssidId) fragment)
    (ssTerminated : ss ssEnd = 0) (pwTerminated : pw pwEnd = 0) (stack : Stack)
    (pagebuff : Memory) :
    ∃ writes result cells' sector' fragment, FlashProg.Completes ring.extended
        (fun fuel => flashIoWriteSsid fuel ss pw stack pagebuff) memory writes result ∧
      OneSectorUsed ring (replay writes memory) cells' sector' ∧
      sector'.frags = sector.frags ++ [fragment] ∧ fragment.id = BitVec.ofInt 8 ssidId ∧
      fragment.payload.length ≤ ssEnd + pwEnd + 2 := by
  obtain ⟨ssLength, ssBound, ssMeasured⟩ := @strlen_completes ring memory ss ssEnd ssTerminated
  obtain ⟨pwLength, pwBound, pwMeasured⟩ := @strlen_completes ring memory pw pwEnd pwTerminated
  obtain ⟨writes, result, cells', sector', fragment, write, used', frags, id, length⟩ :=
    @OneSectorUsed.writeErase ring memory cells sector used opens ssidId
      (store (store stack.tempssid 0 (slice ss 0 (ssLength + 1))) (ssLength + 1)
        (slice pw 0 (pwLength + 1))) (ssLength + 1 + (pwLength + 1)) (.inl rfl) (by omega)
        (by omega)
      unused (.of_unused unused) ss ssEnd ssTerminated stack.rb pagebuff
  refine ⟨writes, result, cells', sector', fragment, ?_, used', frags, id, by omega⟩
  simp only [flashIoWriteSsid]
  rw [← List.nil_append writes]
  refine ssMeasured.bind ?_
  rw [← List.nil_append writes]
  exact pwMeasured.bind write

end Ring

end PicoApConfigure.FlashIo
