import PicoApConfigure.FlashIo.Store
import PicoApConfigure.RingBuffer.Sweep

/-!
# Redundant networks

`flash_io_erase_redundant_ssids` in a ring in order: it returns with the newest record of the text
left, if the searches for the text are clear of disturbance and the last one of them fails.
-/

namespace PicoApConfigure.FlashIo

open Nor RingBuffer

/-- The byte that `SSID_ID` is in a header. -/
def ssidByte : Byte := BitVec.ofInt 8 ssidId

theorem ssidByte_ne : ssidByte ≠ 0xff := by decide

section Loop

variable {ring : Geometry} {memory : Memory} {cells : Nat → Option Sector} {start : Nat}
  {log : List Sector} {rb : RbT} {ss : Memory} {size : Nat} {mark : Mark} {rest : List Mark}
  {ending : Prop}

/-- The state of the loop: a tape whose first record that matches lies ahead of the cursor. -/
structure Sweeping (ring : Geometry) (ss : Memory) (size : Nat) (ending : Prop) (memory : Memory)
    (cells : Nat → Option Sector) (start : Nat) (log : List Sector) (rb : RbT) (mark : Mark)
    (rest : List Mark) : Prop where
  on : OnRing rb ring
  holds : RingHolds memory ring cells
  ordered : Ordered ring cells start log
  opened : (cells 0).isSome
  clear : Clear ssidByte ss size ending (tape log)
  ended : Ended ring ssidByte ss size log
  first : firstMatch ssidByte ss size (tape log) = some (mark :: rest)
  ahead : ∃ distance chain, Position ring start log distance rb.next chain ∧
    Clear ssidByte ss size ending chain ∧
    firstMatch ssidByte ss size chain = some (mark :: rest)

theorem Ordered.opened_iff (ordered : Ordered ring cells start log) :
    (cells 0).isSome ↔ ∃ distance < log.length, ring.ahead start distance = 0 := by
  obtain ⟨distance, bound, zero⟩ := ring.exists_ahead ordered.start_lt ring.sectors_pos
  have cell := ordered.cell distance bound
  rw [zero] at cell
  rw [cell]
  constructor
  · intro some
    rw [Option.isSome_iff_exists] at some
    obtain ⟨sector, entry⟩ := some
    exact ⟨distance, (List.getElem?_eq_some_iff.mp entry).1, zero⟩
  · rintro ⟨other, inLog, zero'⟩
    have length := ordered.length_le
    obtain rfl := ring.ahead_inj bound (by omega) (zero.trans zero'.symm)
    rw [List.getElem?_eq_getElem inLog]
    rfl

theorem Sweeping.isMatch (sweeping : Sweeping ring ss size ending memory cells start log rb mark
    rest) :
    IsMatch ssidByte ss size mark rest :=
  (firstMatch_some sweeping.first).1

theorem Sweeping.part (sweeping : Sweeping ring ss size ending memory cells start log rb mark rest)
    :
    mark :: rest <:+ tape log := by
  obtain ⟨front, split, -⟩ := firstMatch_split sweeping.first
  exact ⟨front, split.symm⟩

/-- Once an older record is deleted, the loop starts from there again. -/
theorem Sweeping.smudge (sweeping : Sweeping ring ss size ending memory cells start log rb mark
    rest)
    (text : IsText ss size) (small : size ≤ 4084) {older newer : List Sector} {sector : Sector}
    {before after : List Fragment} (spot : Spot log older sector newer before after mark rest)
    {later : Mark} {behind : List Mark}
    (more : firstMatch ssidByte ss size rest = some (later :: behind)) {memory' : Memory}
    {cells' : Nat → Option Sector} {rb' : RbT} (on : OnRing rb' ring)
    (holds : RingHolds memory' ring cells')
    (ordered : Ordered ring cells' start
      (older ++ sector.smudge before mark.fragment after spot.frags :: newer))
    (stands : rb'.next = 4096 * ring.ahead start older.length + (4 + fragsSize before)) :
    Sweeping ring ss size ending memory' cells' start
      (older ++ sector.smudge before mark.fragment after spot.frags :: newer) rb' later behind := by
  have first := sweeping.first
  have clear := sweeping.clear
  have wide := tape_wide small log
  have here : firstMatch ssidByte ss size (mark :: rest) = some (mark :: rest) :=
    if_pos sweeping.isMatch
  have length : (older ++ sector.smudge before mark.fragment after spot.frags :: newer).length =
      log.length :=
    (congrArg List.length spot.split).symm ▸ by simp
  refine ⟨on, holds, ordered, ?_, ?_, sweeping.ended.delete text small spot first (by simp [more]),
    ?_, older.length, mark.smudge :: rest, ?_, ?_, ?_⟩
  · rw [Ordered.opened_iff ordered, length]
    exact (Ordered.opened_iff sweeping.ordered).mp sweeping.opened
  · rw [spot.tape_eq] at first clear wide
    rw [spot.smudge.tape_eq]
    exact clear.delete first text wide
  · rw [spot.tape_eq] at first
    rw [spot.smudge.tape_eq]
    exact (firstMatch_delete first).trans more
  · rw [stands]
    exact spot.smudge.position ring start
  · rw [spot.tape_eq] at wide
    exact @Clear.delete _ _ _ _ mark [] rest (clear.of_first first) here text wide.of_append
  · exact (@firstMatch_delete _ _ _ mark [] rest here).trans more

/-- The loop deletes every record that matches but the newest one. -/
theorem eraseRedundantLoop_sweeps (fits : ReadFits ring ssidByte size) (text : IsText ss size)
    (small : size ≤ 4084) :
    ∀ {memory : Memory} {cells : Nat → Option Sector} {log : List Sector} {rb : RbT} {mark : Mark}
      {rest : List Mark} (pagebuff : Memory) {terr : Int}, 0 ≤ terr →
      Sweeping ring ss size ending memory cells start log rb mark rest →
      ∃ writes result cells' log', FlashProg.Completes ring.region
          (fun fuel => eraseRedundantLoop ss size fuel terr rb pagebuff) memory writes result ∧
        RingHolds (replay writes memory) ring cells' ∧ Ordered ring cells' start log' ∧
        NewestLeft ssidByte ss size (tape log) (tape log') := by
  intro memory cells log rb mark rest
  induction length : rest.length using Nat.strongRecOn generalizing memory cells log rb mark rest
  with
  | ind bound ih =>
      intro pagebuff terr good sweeping
      obtain ⟨on, holds, ordered, opened, clear, ended, first, distance, chain, position, clear',
        first'⟩ := sweeping
      have laid := ordered.laid
      have found : IsMatch ssidByte ss size mark rest := (firstMatch_some first).1
      have part : mark :: rest <:+ tape log := by
        obtain ⟨front, split, -⟩ := firstMatch_split first
        exact ⟨front, split.symm⟩
      obtain ⟨address, rb', scratch, find, starts, on', reached, position'⟩ :=
        rbFind_meets on holds laid fits position clear' first' (ended.left part found) pagebuff
      have enters : ¬(terr < 0 ∨ size = 0) := by
        have := text.positive
        omega
      have shows : ¬((address : Int) < 0) := by omega
      have onward := (clear.of_first first).onward found
      have uses := found.firstMatch_uses
      cases more : firstMatch ssidByte ss size rest with
      | none =>
          -- the record that was found is the newest one
          obtain ⟨value, rb'', scratch', second, failed⟩ :=
            ended.find_fails on' holds laid fits clear first more position' scratch
          have hides : ¬(value ≥ 0) := by omega
          refine ⟨[], (lastStatus value, scratch'), cells, log, ?_, holds, ordered, ?_⟩
          · refine .succ ?_
            simp only [eraseRedundantLoop, if_neg enters]
            rw [← List.append_nil ([] : List Op)]
            refine find.bind ?_
            simp only [if_neg shows]
            rw [← List.append_nil ([] : List Op)]
            refine second.bind ?_
            simp only [if_neg hides]
            exact (lastStatus_exec value scratch').completes
          · obtain ⟨front, split⟩ := part
            rw [← split] at first ⊢
            exact .single first more
      | some later =>
          obtain ⟨skipped, split, laterMatch, -⟩ := firstMatch_split more
          obtain ⟨second, behind, rfl⟩ : ∃ second behind, later = second :: behind := by
            cases later with
            | nil => exact laterMatch.elim
            | cons second behind => exact ⟨second, behind, rfl⟩
          have part' : second :: behind <:+ tape log :=
            (List.suffix_cons_iff.mpr (.inr ⟨skipped, split.symm⟩)).trans part
          obtain ⟨next, rb'', scratch', again, -, on'', -⟩ :=
            rbFind_meets on' holds laid fits position' onward (uses.trans more)
              (ended.left part' laterMatch) scratch
          obtain ⟨older, sector, newer, before, after, spot⟩ := starts.spot laid
          obtain ⟨cells', deleted, res, rb₃, delete, on₃, next_eq, holds', ordered'⟩ :=
            @rbDelete_meets _ _ _ _ _ { rb'' with next := address, rbPage := scratch' } _ _ _ _ _ _
            _
              _ _ _ _ ⟨on''.base_eq, on''.bytes_eq⟩ holds ordered opened fits clear first
              (ended.left part found) spot scratch'
          have state : Sweeping ring ss size ending (replay deleted memory) cells' start _ rb₃
            second
              behind :=
            Sweeping.smudge ⟨on, holds, ordered, opened, clear, ended, first, distance, chain,
              position, clear', first'⟩ text small spot more on₃ holds' ordered'
              (next_eq.trans (spot.address_eq laid starts))
          have shorter : behind.length < bound := by
            rw [← length, split]
            simp only [List.length_append, List.length_cons]
            omega
          obtain ⟨writes, result, cells'', log', loop, holds'', ordered'', newest⟩ :=
            ih _ shorter rfl rb₃.rbPage (by omega : (0 : Int) ≤ address) state
          refine ⟨deleted ++ writes, result, cells'', log', ?_, by rwa [replay_append], ordered'',
            ?_⟩
          · have goesOn : (next : Int) ≥ 0 := by omega
            refine .succ ?_
            simp only [eraseRedundantLoop, if_neg enters]
            rw [← List.nil_append (deleted ++ writes)]
            refine find.bind ?_
            simp only [if_neg shows]
            rw [← List.nil_append (deleted ++ writes)]
            refine again.bind ?_
            simp only [if_pos goesOn, Int.toNat_natCast]
            exact delete.bind loop
          · rw [spot.tape_eq] at first ⊢
            rw [spot.smudge.tape_eq] at newest
            exact newest.delete first more

end Loop

/-- What lets the search for older copies of a text leave the newest one: the text fits in the page
buffer, and searches for it come to every live copy of it and to nothing else, and to an end. -/
structure Cleanable (ring : Geometry) (ss : Memory) (size : Nat) (log : List Sector) : Prop where
  page : size ≤ flashPageSize
  clear : Clear ssidByte ss size True (tape log)
  ended : Ended ring ssidByte ss size log

section Erase

variable {ring : Geometry} {memory : Memory} {cells : Nat → Option Sector} {start : Nat}
  {log : List Sector} {ss : Memory} {length : Nat}

/-- `flash_io_erase_redundant_ssids` in a ring in order. -/
theorem eraseRedundantSsids_sweeps (holds : RingHolds memory ring cells)
    (ordered : Ordered ring cells start log)
    (opens : Opens ring persistentTable (persistentLen / flashSectorSize))
    (text : IsText ss (length + 1)) (live : firstMatch ssidByte ss (length + 1) (tape log) ≠ none)
    (cleanable : Cleanable ring ss (length + 1) log) (block : RbT) (pagebuff : Memory) :
    ∃ writes status pagebuff' cells' log', FlashProg.Completes ring.extended
        (fun fuel => flashIoEraseRedundantSsids fuel ss block pagebuff) memory writes
        (status, pagebuff') ∧
      RingHolds (replay writes memory) ring cells' ∧ Ordered ring cells' start log' ∧
      (status = 0 → NewestLeft ssidByte ss (length + 1) (tape log) (tape log')) := by
  obtain ⟨first, found⟩ := Option.ne_none_iff_exists'.mp live
  obtain ⟨mark, rest, rfl⟩ : ∃ mark rest, first = mark :: rest := by
    cases first with
    | nil => exact (firstMatch_some found).1.elim
    | cons mark rest => exact ⟨mark, rest, rfl⟩
  have used : log ≠ [] := by
    rintro rfl
    cases found
  have sectors : 4 = ring.sectors := opens.sectors_eq
  have fits : ReadFits ring ssidByte (length + 1) := by
    have := cleanable.page
    simp only [flashPageSize] at this
    refine ⟨Nat.succ_pos _, by decide, by decide, ?_⟩
    omega
  obtain ⟨status, rb, create, ok, place⟩ := ordered.rotated.create block ordered.inRingOrder holds
    opens (by decide : InitChoice.createFail ≠ .createInitAlways) (List.length_pos_iff.mpr used)
  have recreate := rbRecreate_kept_exec (.inl rfl) create
  have measured : FlashProg.Completes ring.extended (fun fuel => strlen fuel ss 0) memory []
      length := strlen_eq text.terminated text.inside
  simp only [flashIoEraseRedundantSsids]
  by_cases good : status = .ok
  · subst good
    obtain ⟨on, next⟩ := place rfl
    have begins := ordered.begins
    rw [← next] at begins
    obtain ⟨writes, result, cells', log', loop, holds', ordered', newest⟩ :=
      eraseRedundantLoop_sweeps fits text (by have := cleanable.page; simp at this; omega) pagebuff
        (Int.le_refl 0)
        ⟨on, holds, ordered, (ok.mp rfl).1, cleanable.clear, cleanable.ended, found, 0, tape log,
          begins, cleanable.clear, found⟩
    refine ⟨writes, result.1, result.2, cells', log', ?_, holds', ordered', fun _ => newest⟩
    rw [← List.nil_append writes]
    refine measured.bind ?_
    refine FlashProg.Completes.bind_read recreate ?_
    simp only [ne_eq, not_true_eq_false, false_and, if_false]
    exact loop.mono fun _ inside => .inl inside
  · -- the ring is left alone
    have failed := RbError.code_neg good
    refine ⟨[], status.code, pagebuff, cells, log, ?_, holds, ordered, fun zero => by omega⟩
    rw [← List.nil_append ([] : List Op)]
    refine measured.bind ?_
    refine FlashProg.Completes.bind_read recreate ?_
    by_cases blank : status = .blankHdr
    · simp only [blank, ne_eq, not_true_eq_false, and_false, if_false]
      refine .succ ?_
      simp only [eraseRedundantLoop, if_pos (.inl (by decide : RbError.blankHdr.code < 0) :
        RbError.blankHdr.code < 0 ∨ length + 1 = 0)]
      exact (FlashProg.Exec.pure _).completes
    · simp only [ne_eq, good, blank, not_false_eq_true, and_self, if_true]
      exact (FlashProg.Exec.pure _).completes

end Erase

/-- On every ring that is reached with room in the index counter,
`flash_io_erase_redundant_ssids` returns for every text with a live copy that is `Cleanable`, and if
it returns `RB_OK`, the newest copy is the only one left and no other record has changed. -/
theorem erase_leaves_newest {ring : Geometry} {first device : Device} {events : List Event}
    (started : Started ring first) (run : Run (CountedStep ring) first events device)
    (opens : Opens ring persistentTable (persistentLen / flashSectorSize)) :
    (∃ cells start log, InOrder ring device cells start log) ∧
      ∀ cells start log ss length block pagebuff, InOrder ring device cells start log →
        IsText ss (length + 1) → firstMatch ssidByte ss (length + 1) (tape log) ≠ none →
        Cleanable ring ss (length + 1) log →
        ∃ writes status pagebuff' cells' log', FlashProg.Completes ring.extended
            (fun fuel => flashIoEraseRedundantSsids fuel ss block pagebuff) device.memory writes
            (status, pagebuff') ∧
          RingHolds (replay writes device.memory) ring cells' ∧ Ordered ring cells' start log' ∧
          (status = 0 → NewestLeft ssidByte ss (length + 1) (tape log) (tape log')) := by
  refine ⟨started.inOrder.run run, ?_⟩
  intro cells start log ss length block pagebuff inOrder text live cleanable
  exact eraseRedundantSsids_sweeps inOrder.holds inOrder.ordered opens text live cleanable block
    pagebuff

/-! ## Two copies in a sector -/

/-- The text `a`. -/
def letterText : Memory := fun i => if i = 0 then 97 else 0

theorem letterText_isText : IsText letterText 2 := by
  refine ⟨by decide, rfl, ?_⟩
  intro i bound
  obtain rfl : i = 0 := by omega
  decide

theorem letterSize_pos : 0 < 4 := by decide

/-- The network `a` with a password of one letter. -/
def letterRequest (password : Byte) : Request where
  id := ssidByte
  data := fun i => if i = 0 then 97 else if i = 2 then password else 0
  size := 4
  id_ne := ssidByte_ne
  size_pos := letterSize_pos

theorem letterRequest_short (password : Byte) : (letterRequest password).size ≤ 4088 :=
  (by decide : 4 ≤ 4088)

/-- The mark of its record. -/
def letterMark (password : Byte) : Mark :=
  ⟨(letterRequest password).whole (letterRequest_short password), false⟩

theorem letterMark_isMatch (password : Byte) (rest : List Mark) :
    IsMatch ssidByte letterText 2 (letterMark password) rest := by
  have alone : continuation (letterMark password) rest = none := by
    cases rest with
    | nil => rfl
    | cons following rest =>
        rw [continuation, if_neg]
        rintro ⟨closes, -⟩
        cases closes
  refine ⟨⟨rfl, ?_⟩, ?_, by rw [alone]; rfl, ?_⟩
  · change decide (rbHeaderNotSmudged &&& rbHeaderNotSmudged ≠ 0) = true
    decide
  · change decide (rbHeaderNotSmudged &&& rbHeaderSplit ≠ 0) = false
    decide
  rw [recordBytes, alone]
  rfl

/-- A search comes to all copies of `a`. -/
theorem letterMarks_clear (passwords : List Byte) :
    Clear ssidByte letterText 2 True (passwords.map letterMark) := by
  induction passwords with
  | nil => exact .done
  | cons password passwords ih =>
      have read : readTape ssidByte 2 (letterMark password :: passwords.map letterMark) =
          (.got [97, 0], passwords.map letterMark) := by
        rw [readTape, if_pos (letterMark_isMatch password []).1, if_neg fun all =>
          Bool.false_ne_true all.1]
        rfl
      exact .hit (letterMark_isMatch password _) (.inr trivial) (by rwa [read])

/-- A ring that holds two records of four bytes. -/
theorem pair_appended {first second : Request} (size : first.size = 4) (size' : second.size = 4) :
    ∃ events device cells sector,
      Run (CountedStep quadRing) (Device.blank quadRing) events device ∧
      InOrder quadRing device cells 0 [sector] ∧
      tape [sector] = [⟨first.whole (by omega), false⟩, ⟨second.whole (by omega), false⟩] := by
  have short : first.size ≤ 4088 := by omega
  have short' : second.size ≤ 4088 := by omega
  have length : (first.whole short).size = 8 := by
    simp [Fragment.size, Request.whole, Request.piece, size]
  have length' : (second.whole short').size = 8 := by
    simp [Fragment.size, Request.whole, Request.piece, size']
  obtain ⟨index, writes, status, device, cells, start, log, -, -, step, outcome, counted, -⟩ :=
    (counted_blank quadRing (by decide)).append (by decide)
      (first.fits_of_short quadRing short) (fun _ => 0) true
  rcases outcome.of_closed (by simp) short with ⟨-, rfl, rfl, rfl⟩ | ⟨used, -⟩ | ⟨used, -⟩
  · obtain ⟨index', writes', status', device', cells', start', log', -, -, step', outcome',
      counted', -⟩ := counted.append (by decide) (second.fits_of_short quadRing short')
        (fun _ => 0) true
    have used : (Sector.single index (first.whole short)).used = 12 := by
      simp only [Sector.used, Sector.single, fragsSize_cons, fragsSize_nil, length]
    obtain ⟨rfl, rfl, fits, rfl⟩ := @LogAppends.of_inside _ _ _ _ _ _ [] _ _ _ _ outcome'
      (by rw [Sector.not_isFull_iff]; omega) short' (by rw [used]; omega) (by decide)
    refine ⟨_, device', cells', _, .snoc (.snoc .nil step) step', counted'.inOrder, ?_⟩
    simp [tape, Sector.push, Sector.single, marks, length, length']
  · cases used
  · cases used

/-- A ring that holds two copies of `a`. -/
theorem letters_appended : ∃ events device cells sector,
    Run (CountedStep quadRing) (Device.blank quadRing) events device ∧
    InOrder quadRing device cells 0 [sector] ∧
    tape [sector] = [letterMark 98, letterMark 99] :=
  @pair_appended (letterRequest 98) (letterRequest 99) rfl rfl

theorem erase_leaves_newest_letters : ∃ events device cells sector writes status pagebuff cells'
    log',
    Run (CountedStep quadRing) (Device.blank quadRing) events device ∧
    InOrder quadRing device cells 0 [sector] ∧
    tape [sector] = [letterMark 98, letterMark 99] ∧
    FlashProg.Completes quadRing.extended
      (fun fuel => flashIoEraseRedundantSsids fuel letterText .zeroed fun _ => 0) device.memory
      writes (status, pagebuff) ∧
    RingHolds (replay writes device.memory) quadRing cells' ∧ Ordered quadRing cells' 0 log' ∧
    (status = 0 → NewestLeft ssidByte letterText 2 [letterMark 98, letterMark 99] (tape log')) := by
  obtain ⟨events, device, cells, sector, run, inOrder, equal⟩ := letters_appended
  have opens : Opens quadRing persistentTable (persistentLen / flashSectorSize) :=
    ⟨by decide, by decide⟩
  have clear := letterMarks_clear [98, 99]
  have found : firstMatch ssidByte letterText 2 (tape [sector]) = some (tape [sector]) := by
    rw [equal]
    exact if_pos (letterMark_isMatch _ _)
  obtain ⟨writes, status, pagebuff, cells', log', erase, holds', ordered', newest⟩ :=
    (erase_leaves_newest (@started_blank quadRing (by decide)) run opens).2 cells 0 [sector]
      letterText 1 .zeroed (fun _ => 0) inOrder letterText_isText (by rw [found]; simp)
      ⟨by decide, equal ▸ clear, .blank (.inl (show 1 < 4 by decide))⟩
  rw [equal] at newest
  exact ⟨events, device, cells, sector, writes, status, pagebuff, cells', log', run, inOrder, equal,
    erase, holds', ordered', newest⟩

/-! ## A copy that takes up a sector -/

/-- The network `a` with an empty password, and zeros up to the end of the sector. -/
def lastRequest : Request where
  id := ssidByte
  data := letterText
  size := 4088
  id_ne := ssidByte_ne
  size_pos := Nat.succ_pos 4087

theorem hostnameByte_ne : BitVec.ofInt 8 hostnameId ≠ 0xff := by decide

/-- Another entry that takes up a sector. -/
def otherRequest : Request where
  id := BitVec.ofInt 8 hostnameId
  data := fun _ => 0
  size := 4088
  id_ne := hostnameByte_ne
  size_pos := Nat.succ_pos 4087

def lastFragment : Fragment := lastRequest.whole (Nat.le_refl _)

def otherFragment : Fragment := otherRequest.whole (Nat.le_refl _)

theorem otherFragment_unwanted : ¬Wanted ssidByte otherFragment := by
  rintro ⟨id, -⟩
  cases id

/-- The search passes a sector that another entry takes up. -/
theorem rbFindLoop_passes {ring : Geometry} {memory : Memory} {cells : Nat → Option Sector}
    {rb : RbT} {data scratch : Memory} {size k index orignext : Nat}
    {value : Int × RbT × Memory} (on : OnRing rb ring)
    (holds : RingHolds memory ring cells) (inRing : k < ring.sectors)
    (cell : cells k = some (Sector.single index otherFragment)) (stands : StandsAt k 4 rb.next)
    (away : orignext ≠ 4096 * ring.succ k)
    (completes : FlashProg.Completes ring.region
      (fun fuel => rbFindLoop ssidByte data size orignext fuel
        { rb with next := 4096 * ring.succ k } scratch) memory [] value) :
    FlashProg.Completes ring.region
      (fun fuel => rbFindLoop ssidByte data size orignext fuel rb scratch) memory [] value := by
  have behind : ring.resume k (4 + fragsSize [] + otherFragment.size) = 4096 * ring.succ k :=
    ring.resume_of_lt (by rw [otherFragment, whole_size rfl]; decide)
  refine @rbFindLoop_skips _ _ _ _ _ _ _ on holds.carries _ _ [] [] _ inRing cell rfl stands
    otherFragment_unwanted _ _ _ ?_
  rw [behind]
  simp only [if_neg away]
  exact completes

/-- The sectors of a full ring whose oldest sector is taken up by a copy of `a`. -/
def lastLog (index₀ index₁ index₂ index₃ : Nat) : List Sector :=
  [Sector.single index₀ lastFragment, Sector.single index₁ otherFragment,
    Sector.single index₂ otherFragment, Sector.single index₃ otherFragment]

theorem last_appended : ∃ events device cells index₀ index₁ index₂ index₃,
    Run (CountedStep quadRing) (Device.blank quadRing) events device ∧
    InOrder quadRing device cells 0 (lastLog index₀ index₁ index₂ index₃) := by
  obtain ⟨_, _, _, _, _, step₀, counted₀, closed₀, index₀, -, -, outcome₀⟩ :=
    @Counted.fills _ _ _ _ _ _ (counted_blank quadRing (by decide)) (by decide) (by simp)
      lastRequest rfl true (.inr rfl)
  obtain ⟨rfl, rfl⟩ : _ ∧ _ := by
    rcases outcome₀ with ⟨-, equal⟩ | ⟨impossible, -⟩
    · exact equal
    · cases impossible
  obtain ⟨_, _, _, _, _, step₁, counted₁, closed₁, index₁, -, -, outcome₁⟩ :=
    @Counted.fills _ _ _ _ _ _ counted₀ (by decide) closed₀ otherRequest rfl true (.inr rfl)
  obtain ⟨rfl, rfl⟩ : _ ∧ _ := by
    rcases outcome₁ with ⟨-, equal⟩ | ⟨impossible, -⟩
    · exact equal
    · cases impossible
  obtain ⟨_, _, _, _, _, step₂, counted₂, closed₂, index₂, -, -, outcome₂⟩ :=
    @Counted.fills _ _ _ _ _ _ counted₁ (by decide) closed₁ otherRequest rfl true (.inr rfl)
  obtain ⟨rfl, rfl⟩ : _ ∧ _ := by
    rcases outcome₂ with ⟨-, equal⟩ | ⟨impossible, -⟩
    · exact equal
    · cases impossible
  obtain ⟨_, device, cells, _, _, step₃, counted₃, closed₃, index₃, -, -, outcome₃⟩ :=
    @Counted.fills _ _ _ _ _ _ counted₂ (by decide) closed₂ otherRequest rfl true (.inr rfl)
  obtain ⟨rfl, rfl⟩ : _ ∧ _ := by
    rcases outcome₃ with ⟨-, equal⟩ | ⟨impossible, -⟩
    · exact equal
    · cases impossible
  exact ⟨_, device, cells, index₀, index₁, index₂, index₃,
    .snoc (.snoc (.snoc (.snoc .nil step₀) step₁) step₂) step₃, counted₃.inOrder⟩

section Last

variable {memory : Memory} {cells : Nat → Option Sector} {index₀ index₁ index₂ index₃ : Nat}
  {rb : RbT}

theorem lastFragment_wanted : Wanted ssidByte lastFragment := ⟨rfl, rfl⟩

theorem lastFragment_payload : lastFragment.payload.take 2 = [97, 0] := by
  have whole : lastFragment.payload = slice lastRequest.data 0 lastRequest.size := by
    simp only [lastFragment, Request.whole, Request.piece]
  rw [whole, slice_take _ _ (by decide)]
  rfl

theorem last_fits : ReadFits quadRing ssidByte 2 := ⟨by decide, by decide, by decide, by decide⟩

/-- The search from behind the only copy goes around the ring and finds that copy again. -/
theorem last_found_again (holds : RingHolds memory quadRing cells)
    (ordered : Ordered quadRing cells 0 (lastLog index₀ index₁ index₂ index₃))
    (on : OnRing rb quadRing) (stands : StandsAt 1 4 rb.next) (scratch : Memory) :
    ∃ rb' scratch', FlashProg.Completes quadRing.region
        (fun fuel => rbFind fuel rb ssidByte letterText 2 scratch) memory []
        (4, rb', scratch') ∧ OnRing rb' quadRing := by
  have cell₀ : cells 0 = some (Sector.single index₀ lastFragment) := ordered.cell 0 (by decide)
  have cell₁ : cells 1 = some (Sector.single index₁ otherFragment) := ordered.cell 1 (by decide)
  have cell₂ : cells 2 = some (Sector.single index₂ otherFragment) := ordered.cell 2 (by decide)
  have cell₃ : cells 3 = some (Sector.single index₃ otherFragment) := ordered.cell 3 (by decide)
  have accepted : ¬rbReadRejects rb ssidByte 2 := by
    rw [rbReadRejects_iff on]
    exact not_not_intro last_fits
  have place : rb.next / 4096 = 1 := by
    rcases stands with header | ⟨-, start⟩ <;> omega
  have apart : ¬(otherFragment.id = ssidByte ∧ otherFragment.split = true) := by
    rintro ⟨id, -⟩
    cases id
  have reads : Reads quadRing cells (fun _ => .blankHdr) ssidByte 0
      (4096 * 0 + (4 + fragsSize [])) 2 (.got (lastFragment.payload.take 2)) (4096 * 1 + 4) :=
    .last (.refl _) (by decide) cell₀ rfl (.inl rfl) lastFragment_wanted
      (by rw [lastFragment, whole_size rfl]; decide) (.other cell₁ rfl apart)
  refine ⟨{ rb with next := 4096 * 1 + 4 }, store scratch 0 [97, 0], ?_, ⟨on.base_eq, on.bytes_eq⟩⟩
  simp only [rbFind, if_neg accepted, flashSector_eq, place]
  refine rbFindLoop_passes on holds (by decide) cell₁ stands (by decide) ?_
  refine rbFindLoop_passes ⟨on.base_eq, on.bytes_eq⟩ holds (by decide) cell₂ (.start 2)
    (by decide) ?_
  refine rbFindLoop_passes ⟨on.base_eq, on.bytes_eq⟩ holds (by decide) cell₃ (.start 3)
    (by decide) ?_
  refine @rbFindLoop_reads _ _ _ { rb with next := 4096 * 0 } _ _ _ ⟨on.base_eq, on.bytes_eq⟩ holds
    last_fits _ _ _ [] _ _ _ (by decide) cell₀ rfl (.start 0) lastFragment_wanted reads
    (by rw [lastFragment_payload]; decide) _ _ _ ?_
  have shown : slice letterText 0 2 = slice (store scratch 0 [97, 0]) 0 2 := rfl
  simp only [lastFragment_payload, if_pos shown]
  exact (FlashProg.Exec.pure _).completes

def lastMark : Mark := ⟨lastFragment, true⟩

def otherMark : Mark := ⟨otherFragment, true⟩

theorem other_tape (index : Nat) (log : List Sector) :
    tape (Sector.single index otherFragment :: log) = otherMark :: tape log := by
  have own : tape [Sector.single index otherFragment] = [otherMark] := @whole_tape otherRequest rfl
    index
  rw [← List.singleton_append, tape_append, own, List.singleton_append]

theorem last_tape : tape (lastLog index₀ index₁ index₂ index₃) =
    [lastMark, otherMark, otherMark, otherMark] := by
  have own : tape [Sector.single index₀ lastFragment] = [lastMark] := @whole_tape lastRequest rfl
    index₀
  rw [lastLog, ← List.singleton_append, tape_append, own, other_tape, other_tape, other_tape]
  rfl

theorem lastMark_closes :
    lastMark.closes = decide (4091 < 4 + fragsSize [] + lastMark.fragment.size) := by
  have size : lastMark.fragment.size = 4092 := @whole_size lastRequest rfl
  rw [size]
  rfl

theorem otherMark_closes :
    otherMark.closes = decide (4091 < 4 + fragsSize [] + otherMark.fragment.size) := by
  have size : otherMark.fragment.size = 4092 := @whole_size otherRequest rfl
  rw [size]
  rfl

theorem otherMarks_clear {ending : Prop} :
    Clear ssidByte letterText 2 ending [otherMark, otherMark, otherMark] :=
  .skip otherFragment_unwanted (.skip otherFragment_unwanted (.skip otherFragment_unwanted .done))

theorem lastMark_alone : continuation lastMark [otherMark, otherMark, otherMark] = none := by
  rw [continuation, if_neg]
  rintro ⟨-, id, -⟩
  cases id

theorem lastMark_isMatch : IsMatch ssidByte letterText 2 lastMark
    [otherMark, otherMark, otherMark] := by
  refine ⟨lastFragment_wanted, rfl, by rw [lastMark_alone]; rfl, ?_⟩
  rw [recordBytes, lastMark_alone]
  exact (congrArg (List.take 2) (List.append_nil _)).trans lastFragment_payload

theorem lastMark_read : readTape ssidByte 2 [lastMark, otherMark, otherMark, otherMark] =
    (.got [97, 0], [otherMark, otherMark, otherMark]) := by
  have payload : lastMark.fragment.payload.take 2 = [97, 0] := lastFragment_payload
  rw [@readTape_single ssidByte 2 lastMark _ lastFragment_wanted lastMark_alone, payload]

theorem last_firstMatch : firstMatch ssidByte letterText 2
    [lastMark, otherMark, otherMark, otherMark] =
      some [lastMark, otherMark, otherMark, otherMark] :=
  if_pos lastMark_isMatch

theorem others_firstMatch : firstMatch ssidByte letterText 2
    [otherMark, otherMark, otherMark] = none := by
  have skipped : ∀ rest, ¬IsMatch ssidByte letterText 2 otherMark rest := fun rest found =>
    otherFragment_unwanted found.1
  simp only [firstMatch, if_neg (skipped _)]

theorem smudged_firstMatch : firstMatch ssidByte letterText 2
    [lastMark.smudge, otherMark, otherMark, otherMark] = none :=
  (@firstMatch_delete _ _ _ lastMark [] _ last_firstMatch).trans others_firstMatch

/-- The only copy is deleted, and the function returns `RB_OK`. -/
theorem last_erased (holds : RingHolds memory quadRing cells)
    (ordered : Ordered quadRing cells 0 (lastLog index₀ index₁ index₂ index₃)) (block : RbT)
    (pagebuff : Memory) :
    ∃ writes pagebuff' cells' log', FlashProg.Completes quadRing.extended
        (fun fuel => flashIoEraseRedundantSsids fuel letterText block pagebuff) memory writes
        (0, pagebuff') ∧
      RingHolds (replay writes memory) quadRing cells' ∧ Ordered quadRing cells' 0 log' ∧
      tape log' = [lastMark.smudge, otherMark, otherMark, otherMark] := by
  have opens : Opens quadRing persistentTable (persistentLen / flashSectorSize) :=
    ⟨by decide, by decide⟩
  have opened : (cells 0).isSome := by
    have cell : cells 0 = some (Sector.single index₀ lastFragment) := ordered.cell 0 (by decide)
    rw [cell]
    rfl
  have whole := @last_tape index₀ index₁ index₂ index₃
  have spot : Spot (lastLog index₀ index₁ index₂ index₃) [] (Sector.single index₀ lastFragment)
      [Sector.single index₁ otherFragment, Sector.single index₂ otherFragment,
        Sector.single index₃ otherFragment] [] [] lastMark [otherMark, otherMark, otherMark] :=
    ⟨rfl, rfl, lastMark_closes, by
      rw [other_tape, other_tape, other_tape]
      rfl⟩
  have clear : Clear ssidByte letterText 2 True (tape (lastLog index₀ index₁ index₂ index₃)) := by
    rw [whole]
    exact .hit lastMark_isMatch (.inr trivial) (by rw [lastMark_read]; exact otherMarks_clear)
  have found : firstMatch ssidByte letterText 2 (tape (lastLog index₀ index₁ index₂ index₃)) =
      some [lastMark, otherMark, otherMark, otherMark] := by
    rw [whole, last_firstMatch]
  have left : (readTape ssidByte 2 [lastMark, otherMark, otherMark, otherMark]).2 ≠ [] ∨
      Unfilled quadRing (lastLog index₀ index₁ index₂ index₃) :=
    .inl (by rw [lastMark_read]; exact List.cons_ne_nil _ _)
  obtain ⟨status, rb, create, ok, place⟩ := ordered.rotated.create block ordered.inRingOrder holds
    opens (by decide : InitChoice.createFail ≠ .createInitAlways) (Nat.succ_pos 3)
  obtain rfl := ok.mpr ⟨opened, fun _ impossible => absurd impossible (Nat.lt_irrefl 0)⟩
  obtain ⟨on, next⟩ := place rfl
  have recreate := rbRecreate_kept_exec (.inl rfl) create
  have measured : FlashProg.Completes quadRing.extended (fun fuel => strlen fuel letterText 0)
      memory [] 1 := strlen_eq letterText_isText.terminated letterText_isText.inside
  have begins := ordered.begins
  rw [← next] at begins
  obtain ⟨address, rb₁, scratch₁, first, starts, on₁, reached, position⟩ :=
    rbFind_meets on holds ordered.laid last_fits begins clear found left pagebuff
  obtain rfl : address = 4 := spot.address_eq ordered.laid starts
  rw [lastMark_read] at position
  have stands : StandsAt 1 4 rb₁.next := by
    obtain ⟨_, _, _, _, _, spot', stands⟩ := position.place ordered.laid
    have second : Spot (lastLog index₀ index₁ index₂ index₃) [Sector.single index₀ lastFragment]
        (Sector.single index₁ otherFragment)
        [Sector.single index₂ otherFragment, Sector.single index₃ otherFragment] [] [] otherMark
        [otherMark, otherMark] :=
      ⟨rfl, rfl, otherMark_closes, by rw [other_tape, other_tape]; rfl⟩
    obtain ⟨rfl, rfl, rfl, rfl⟩ := second.unique spot'
    exact stands
  obtain ⟨rb₂, scratch₂, second, on₂⟩ := last_found_again holds ordered on₁ stands scratch₁
  obtain ⟨cells', deleted, res, rb₃, delete, on₃, next₃, holds', ordered'⟩ :=
    @rbDelete_meets _ _ _ _ _ { rb₂ with next := 4, rbPage := scratch₂ } _ _ _ _ _ _ _ _ _ _ _
      ⟨on₂.base_eq, on₂.bytes_eq⟩ holds ordered opened last_fits clear found left spot scratch₂
  have full : ∀ sector ∈ [] ++ Sector.smudge (Sector.single index₀ lastFragment) []
    lastMark.fragment
      [] spot.frags :: [Sector.single index₁ otherFragment, Sector.single index₂ otherFragment,
        Sector.single index₃ otherFragment], sector.isFull = true := by
    intro sector member
    simp only [List.nil_append, List.mem_cons, List.not_mem_nil, or_false] at member
    rcases member with rfl | rfl | rfl | rfl
    · exact (Sector.smudge_isFull spot.frags).trans (@single_whole_full index₀ lastRequest rfl)
    · exact @single_whole_full index₁ otherRequest rfl
    · exact @single_whole_full index₂ otherRequest rfl
    · exact @single_whole_full index₃ otherRequest rfl
  obtain ⟨rb₄, scratch₄, third⟩ := rbFind_around on₃ holds' ordered'.laid last_fits rfl full
    (next₃.trans rfl ▸ spot.smudge.position quadRing 0) (List.cons_ne_nil _ _)
    (.skip smudge_unwanted otherMarks_clear) smudged_firstMatch rb₃.rbPage
  refine ⟨deleted, scratch₄, cells', _, ?_, holds', ordered', spot.smudge.tape_eq⟩
  simp only [flashIoEraseRedundantSsids]
  rw [← List.nil_append deleted]
  refine measured.bind ?_
  refine FlashProg.Completes.bind_read recreate ?_
  simp only [ne_eq, not_true_eq_false, false_and, if_false]
  have loop : FlashProg.Completes quadRing.region
      (fun fuel => eraseRedundantLoop letterText 2 fuel 0 rb pagebuff) memory deleted
      (0, scratch₄) := by
    have enters : ¬((0 : Int) < 0 ∨ 2 = 0) := by decide
    have again : ¬(((4 : Nat) : Int) < 0 ∨ 2 = 0) := by decide
    have shows : ¬(((4 : Nat) : Int) < 0) := by decide
    have goesOn : (4 : Int) ≥ 0 := by decide
    refine .succ ?_
    simp only [eraseRedundantLoop, if_neg enters]
    rw [← List.nil_append deleted]
    refine first.bind ?_
    simp only [if_neg shows]
    rw [← List.nil_append deleted]
    refine second.bind ?_
    simp only [if_pos goesOn, Int.toNat_natCast]
    rw [← List.append_nil deleted]
    refine delete.bind (.succ ?_)
    -- the search for the next copy finds none
    simp only [eraseRedundantLoop, if_neg again]
    rw [← List.append_nil ([] : List Op)]
    refine third.bind ?_
    simp only [if_pos (by decide : RbError.hdrIdNotFound.code < 0), or_true, if_true]
    exact (FlashProg.Exec.pure _).completes
  exact loop.mono fun _ inside => .inl inside

end Last

theorem last_copy_deleted : ∃ events device cells log writes pagebuff cells' log',
    Run (CountedStep quadRing) (Device.blank quadRing) events device ∧
    InOrder quadRing device cells 0 log ∧ IsText letterText 2 ∧
    firstMatch ssidByte letterText 2 (tape log) ≠ none ∧
    FlashProg.Completes quadRing.extended
      (fun fuel => flashIoEraseRedundantSsids fuel letterText .zeroed fun _ => 0) device.memory
      writes (0, pagebuff) ∧
    RingHolds (replay writes device.memory) quadRing cells' ∧ Ordered quadRing cells' 0 log' ∧
    firstMatch ssidByte letterText 2 (tape log') = none := by
  obtain ⟨events, device, cells, index₀, index₁, index₂, index₃, run, inOrder⟩ := last_appended
  obtain ⟨writes, pagebuff, cells', log', erase, holds, ordered, equal⟩ :=
    last_erased inOrder.holds inOrder.ordered .zeroed fun _ => 0
  refine ⟨events, device, cells, _, writes, pagebuff, cells', log', run, inOrder, letterText_isText,
    ?_, erase, holds, ordered, ?_⟩
  · rw [last_tape, last_firstMatch]
    exact Option.some_ne_none _
  · rw [equal, smudged_firstMatch]

end PicoApConfigure.FlashIo
