import PicoApConfigure.FlashIo.Credentials
import PicoApConfigure.FlashIo.WriteId
import PicoApConfigure.RingBuffer.Cursors
import Mathlib.Logic.Relation

/-!
# Networks that are stored and replaced

What a record that is appended does to the networks on a tape, and what the deletion of an older
copy of it.
-/

namespace PicoApConfigure.FlashIo

open Nor RingBuffer

section Tape

variable {ss : Memory} {size : Nat} {name password : List Byte} {mark : Mark}
  {marks front rest : List Mark} {entries more : List (List Byte × List Byte)}

/-- A record that is not a second piece continues nothing. -/
theorem continuation_unsplit (head : Mark) (unsplit : mark.fragment.split = false) :
    continuation head (mark :: rest) = none := by
  rw [continuation, unsplit]
  exact if_neg fun continued => by cases continued.2.2

/-- A record is appended. -/
theorem Saved.append (saved : Saved marks entries) (unsplit : mark.fragment.split = false)
    (last : Saved [mark] more) : Saved (marks ++ [mark]) (entries ++ more) := by
  induction saved with
  | done => exact last
  | other skipped _ ih => exact .other skipped ih
  | @entry first rest entries name password keeps alone _ ih =>
      refine .entry keeps ?_ ih
      cases rest with
      | nil => exact continuation_unsplit first unsplit
      | cons second rest => exact alone

/-- The records of the networks. -/
theorem Saved.liveBytes_eq (saved : Saved marks entries) :
    liveBytes ssidByte marks = entries.map fun entry => twoStrings entry.1 entry.2 := by
  induction saved with
  | done => rfl
  | other skipped _ ih =>
      rw [liveBytes, if_neg fun starts : StartsRecord _ _ _ => skipped starts.1, ih,
        List.nil_append]
  | entry keeps alone _ ih =>
      have starts : StartsRecord ssidByte _ _ := ⟨keeps.wanted, keeps.unsplit, by rw [alone]; rfl⟩
      rw [liveBytes, if_pos starts, ih, recordBytes, alone, keeps.payload]
      simp

/-- Reads of a page get the networks one after the other. -/
theorem Saved.tapeReads (saved : Saved marks entries) :
    TapeReads ssidByte flashPageSize marks
      (entries.map fun entry => twoStrings entry.1 entry.2) := by
  induction saved with
  | done => exact .done rfl
  | other skipped _ ih => exact ih.skip skipped
  | @entry mark rest _ _ _ keeps alone _ ih =>
      have read := @readTape_single ssidByte flashPageSize mark rest keeps.wanted alone
      rw [List.take_of_length_le keeps.page, keeps.payload] at read
      exact .next read (by simp [twoStrings]) ih

theorem continuation_smudge {head : Mark} (alone : continuation head (mark :: rest) = none) :
    continuation head (mark.smudge :: rest) = none := by
  simpa [continuation, Mark.smudge] using alone

/-- The first copy of a name is deleted. -/
theorem Saved.delete (saved : Saved (front ++ mark :: rest) entries) (isName : IsName ss name)
    (first : firstMatch ssidByte ss (name.length + 1) (front ++ mark :: rest) =
      some (mark :: rest)) :
    ∃ before password behind, entries = before ++ (name, password) :: behind ∧
      (∀ entry ∈ before, entry.1 ≠ name) ∧ Wanted ssidByte mark.fragment ∧
      continuation mark rest = none ∧ Saved rest behind ∧
      Saved (front ++ mark.smudge :: rest) (before ++ behind) := by
  induction front generalizing entries with
  | nil =>
      have here : IsMatch ssidByte ss (name.length + 1) mark rest :=
        (RingBuffer.firstMatch_some first).1
      cases saved with
      | other skipped _ => exact absurd here.1 skipped
      | @entry _ _ entries other password keeps alone later =>
          obtain rfl : other = name :=
            (isName.shown_iff keeps.name_text).mp ((keeps.isMatch_iff alone).mp here)
          exact ⟨[], password, entries, rfl, by simp, keeps.wanted, alone, later,
            .other smudge_unwanted later⟩
  | cons head front ih =>
      have away : ¬IsMatch ssidByte ss (name.length + 1) head (front ++ mark :: rest) := by
        intro here
        rw [List.cons_append, firstMatch, if_pos here, Option.some.injEq] at first
        have length := congrArg List.length first
        simp only [List.length_cons, List.length_append] at length
        omega
      rw [List.cons_append, firstMatch, if_neg away] at first
      cases saved with
      | other skipped later =>
          obtain ⟨before, password, behind, rfl, none, wanted, last, left, deleted⟩ :=
            ih later first
          exact ⟨before, password, behind, rfl, none, wanted, last, left, .other skipped deleted⟩
      | @entry _ _ entries other password' keeps alone later =>
          obtain ⟨before, password, behind, rfl, none, wanted, last, left, deleted⟩ :=
            ih later first
          have unlike : other ≠ name := fun same => away
            ((keeps.isMatch_iff alone).mpr ((isName.shown_iff keeps.name_text).mpr same))
          refine ⟨(other, password') :: before, password, behind, rfl,
            List.forall_mem_cons.mpr ⟨unlike, none⟩, wanted, last, left, .entry keeps ?_ deleted⟩
          cases front with
          | nil => exact continuation_smudge alone
          | cons second front => exact alone

end Tape

/-! ## Deleting the older copy -/

section Delete

variable {ring : Geometry} {memory : Memory} {cells : Nat → Option Sector} {start : Nat}
  {log : List Sector} {rb : RbT} {ss : Memory} {name password : List Byte}
  {entries : List (List Byte × List Byte)}

/-- What is left of the networks when a new copy of a name is behind them. -/
structure Replaced (ring : Geometry) (memory : Memory) (start : Nat) (log : List Sector)
    (entries : List (List Byte × List Byte)) (name password : List Byte)
    (cells : Nat → Option Sector) (log' : List Sector)
    (left : List (List Byte × List Byte)) : Prop where
  holds : RingHolds memory ring cells
  ordered : Ordered ring cells start log'
  indices : log'.map Sector.index = log.map Sector.index
  splits : (tape log').map (fun mark => mark.fragment.split) =
    (tape log).map fun mark => mark.fragment.split
  saved : Saved (tape log') (left ++ [(name, password)])
  entries_eq : ∃ before old behind, entries = before ++ (name, old) :: behind ∧
    left = before ++ behind

/-- The loop deletes the older one of two copies. -/
theorem eraseRedundantLoop_deletes (on : OnRing rb ring) (holds : RingHolds memory ring cells)
    (ordered : Ordered ring cells start log) (unfilled : Unfilled ring log)
    (opened : (cells 0).isSome) (fits : ReadFits ring ssidByte (name.length + 1))
    (begins : Position ring start log 0 rb.next (tape log))
    (saved : Saved (tape log) (entries ++ [(name, password)]))
    (distinct : (entries.map Prod.fst).Nodup) (stored : name ∈ entries.map Prod.fst)
    (isName : IsName ss name) (pagebuff : Memory) :
    ∃ writes pagebuff' cells' log' left, FlashProg.Completes ring.region
        (fun fuel => eraseRedundantLoop ss (name.length + 1) fuel 0 rb pagebuff) memory writes
        (0, pagebuff') ∧
      Replaced ring (replay writes memory) start log entries name password cells' log' left := by
  have laid := ordered.laid
  have inside : ∀ i < name.length + 1 - 1, ss i ≠ 0 := fun _ bound => isName.inside bound
  have clear := saved.clear inside
  -- the first copy
  obtain ⟨old, member⟩ : ∃ old, (name, old) ∈ entries := by simpa using stored
  have some : firstMatch ssidByte ss (name.length + 1) (tape log) ≠ none := fun none =>
    saved.firstMatch_none none (name, old) (by simp [member])
      ((isName.shown_iff isName.text).mpr rfl)
  obtain ⟨found, first⟩ := Option.ne_none_iff_exists'.mp some
  obtain ⟨mark, rest, rfl⟩ : ∃ mark rest, found = mark :: rest := by
    cases found with
    | nil => exact (firstMatch_some first).1.elim
    | cons mark rest => exact ⟨mark, rest, rfl⟩
  obtain ⟨address, rb', scratch, find, starts, on', reached, position'⟩ :=
    rbFind_meets on holds laid fits begins clear first (.inr unfilled) pagebuff
  obtain ⟨older, sector, newer, before, after, spot⟩ := starts.spot laid
  obtain ⟨earlier, password', behind, split, none, wanted, alone, later, deleted⟩ :=
    Saved.delete (spot.tape_eq ▸ saved) isName (spot.tape_eq ▸ first)
  rw [readTape_single wanted alone] at position'
  -- the new copy is behind it
  obtain ⟨between, rfl, rfl⟩ : ∃ between, behind = between ++ [(name, password)] ∧
      entries = earlier ++ (name, password') :: between := by
    rcases List.eq_nil_or_concat' behind with rfl | ⟨between, last, rfl⟩
    · obtain ⟨rfl, -⟩ := List.append_singleton_inj.mp split
      exact absurd rfl (none (name, old) member)
    · rw [← List.cons_append, ← List.append_assoc] at split
      obtain ⟨rfl, rfl⟩ := List.append_singleton_inj.mp split
      exact ⟨between, rfl, rfl⟩
  have more : firstMatch ssidByte ss (name.length + 1) rest ≠ Option.none := fun none =>
    later.firstMatch_none none (name, password) (by simp)
      ((isName.shown_iff isName.text).mpr rfl)
  obtain ⟨second, again⟩ := Option.ne_none_iff_exists'.mp more
  obtain ⟨next, rb'', scratch', findNext, -, on'', -⟩ :=
    rbFind_meets on' holds laid fits position' (later.clear inside) again (.inr unfilled) scratch
  obtain ⟨cells', deletes, res, rb₃, delete, on₃, next_eq, holds', ordered'⟩ :=
    @rbDelete_meets _ _ _ _ _ { rb'' with next := address, rbPage := scratch' } _ _ _ _ _ _ _ _ _
      _ _ ⟨on''.base_eq, on''.bytes_eq⟩ holds ordered opened fits clear first (.inr unfilled) spot
      scratch'
  have names : ([name] ++ between.map Prod.fst).Nodup :=
    (List.nodup_append.mp (by simpa using distinct)).2.1
  have apart : ((between ++ [(name, password)]).map Prod.fst).Nodup := by
    rw [List.map_append]
    exact List.nodup_append_comm.mp names
  have place : rb₃.next = 4096 * ring.ahead start older.length + (4 + fragsSize before) :=
    next_eq.trans (spot.address_eq laid starts)
  have behind' := spot.smudge.position ring start
  rw [← place] at behind'
  obtain ⟨pagebuff', loop⟩ := eraseRedundantLoop_keeps on₃ holds' ordered'.laid
    (unfilled.smudge spot) fits behind' (.other smudge_unwanted later) apart isName rb₃.rbPage
    (by omega : (0 : Int) ≤ address)
  refine ⟨deletes, pagebuff', cells', _, earlier ++ between, ?_, holds', ordered', ?_, ?_, ?_,
    earlier, password', between, rfl, rfl⟩
  · have enters : ¬((0 : Int) < 0 ∨ name.length + 1 = 0) := by omega
    have shows : ¬((address : Int) < 0) := by omega
    have goesOn : (next : Int) ≥ 0 := by omega
    refine .succ ?_
    simp only [eraseRedundantLoop, if_neg enters]
    rw [← List.nil_append deletes]
    refine find.bind ?_
    simp only [if_neg shows]
    rw [← List.nil_append deletes]
    refine findNext.bind ?_
    simp only [if_pos goesOn, Int.toNat_natCast]
    rw [← List.append_nil deletes]
    exact delete.bind loop
  · simp [spot.split, Sector.smudge]
  · rw [spot.tape_eq, spot.smudge.tape_eq]
    simp [Mark.smudge]
  · rw [spot.smudge.tape_eq, List.append_assoc earlier]
    exact deleted

/-- `flash_io_erase_redundant_ssids` deletes the older one of two copies. -/
theorem flashIoEraseRedundantSsids_deletes (holds : RingHolds memory ring cells)
    (ordered : Ordered ring cells start log)
    (opens : Opens ring persistentTable (persistentLen / flashSectorSize))
    (good : OpensGood memory ring cells start log) (unfilled : Unfilled ring log)
    (saved : Saved (tape log) (entries ++ [(name, password)]))
    (distinct : (entries.map Prod.fst).Nodup) (stored : name ∈ entries.map Prod.fst)
    (isName : IsName ss name) (fits : ReadFits ring ssidByte (name.length + 1)) (block : RbT)
    (pagebuff : Memory) :
    ∃ writes pagebuff' cells' log' left, FlashProg.Completes ring.extended
        (fun fuel => flashIoEraseRedundantSsids fuel ss block pagebuff) memory writes
        (0, pagebuff') ∧
      Replaced ring (replay writes memory) start log entries name password cells' log' left := by
  obtain ⟨rb, recreate, on, begins⟩ := good.recreate_fail holds ordered opens block
  obtain ⟨writes, pagebuff', cells', log', left, loop, replaced⟩ := eraseRedundantLoop_deletes on
    holds ordered unfilled good.used fits begins saved distinct stored isName pagebuff
  exact ⟨writes, pagebuff', cells', log', left,
    flashIoEraseRedundantSsids_loop isName recreate loop, replaced⟩

end Delete

/-! ## Deletions in any ring -/

section Smudged

variable {ring : Geometry} {memory : Memory} {cells changed : Nat → Option Sector} {start : Nat}
  {log : List Sector} {ss : Memory} {sslen : Nat}

/-- `strlen` returns the place of a terminator. -/
theorem strlen_exec {region : Nat → Prop} {text : Memory} {fuel position length : Nat}
    {writes : List Op} (exec : (strlen fuel text position).Exec region memory writes length) :
    writes = [] ∧ text length = 0 := by
  induction fuel generalizing position with
  | zero => exact exec.elim
  | succ fuel ih =>
      rw [strlen] at exec
      split at exec
      · rename_i here
        obtain ⟨rfl, rfl⟩ := FlashProg.exec_pure.mp exec
        exact ⟨rfl, here⟩
      · exact ih exec

/-- Whatever the records are, the loop only takes the liveness of fragments away. -/
theorem eraseRedundantLoop_ensures (fuel : Nat) :
    ∀ {memory : Memory} {cells : Nat → Option Sector} {rb : RbT} (terr : Int) (pagebuff : Memory),
      RingHolds memory ring cells → OnRing rb ring → Cursor ring cells rb.next →
      (eraseRedundantLoop ss sslen fuel terr rb pagebuff).Ensures (FlashProg.Inside ring.region)
        (fun _ final => ∃ changed, Relation.ReflTransGen (Smudges ring) cells changed ∧
          RingHolds final ring changed) memory := by
  induction fuel with
  | zero => exact fun _ _ _ _ _ => trivial
  | succ fuel ih =>
      intro memory cells rb terr pagebuff holds on cursor
      simp only [eraseRedundantLoop]
      split
      · exact ⟨cells, .refl, holds⟩
      refine (rbFind_ensures rb _ holds ⟨on, cursor, rfl⟩ fuel ss sslen pagebuff).bind ?_
      rintro ⟨address, rb', scratch⟩ _ ⟨⟨rfl, at', -⟩, shows⟩
      dsimp only at at' shows ⊢
      split
      · split <;> exact ⟨cells, .refl, holds⟩
      rename_i found
      obtain ⟨place, rfl, wantedAt⟩ := shows (by omega)
      have here : Cursor ring cells place := by
        cases wantedAt with
        | mk inRing cell frags => exact .fragment inRing cell frags (.header _ _)
      refine (rbFind_ensures rb' _ holds at' fuel ss sslen scratch).bind ?_
      rintro ⟨nextSsid, rb'', scratch'⟩ _ ⟨⟨rfl, at'', -⟩, -⟩
      dsimp only [Int.toNat_natCast] at at'' ⊢
      split
      · have on' : OnRing { rb'' with next := place, rbPage := scratch' } ring :=
          ⟨at''.on.base_eq, at''.on.bytes_eq⟩
        refine (rbDelete_ensures on' holds fuel ss sslen scratch').bind ?_
        rintro ⟨res, rb₃⟩ final ⟨on₃, next, -, contents⟩
        dsimp only at on₃ next ⊢
        have cursor₃ : Cursor ring cells rb₃.next := by
          rcases next with same | oldest
          · rw [same]
            exact here
          · rw [oldest]
            exact .start (oldest_lt ring cells)
        rcases contents with rfl | ⟨changed, smudges, holds'⟩
        · exact ih _ _ holds on₃ cursor₃
        · refine (ih _ _ holds' on₃ (cursor₃.smudges smudges)).mono (fun _ _ inside => inside) ?_
          rintro _ _ ⟨last, more, carries⟩
          exact ⟨last, .head smudges more, carries⟩
      · split <;> exact ⟨cells, .refl, holds⟩

theorem tape_splits (log : List Sector) :
    (tape log).map (fun mark => mark.fragment.split) =
      (log.flatMap Sector.frags).map Fragment.split := by
  rw [← tape_fragments, List.map_map]
  rfl

/-- Deletions leave the sectors and the second pieces where they are. -/
theorem ordered_smudged (ordered : Ordered ring cells start log)
    (smudged : Relation.ReflTransGen (Smudges ring) cells changed) :
    ∃ log', Ordered ring changed start log' ∧ log'.length = log.length ∧
      (tape log').map (fun mark => mark.fragment.split) =
        (tape log).map fun mark => mark.fragment.split := by
  induction smudged with
  | refl => exact ⟨log, ordered, rfl, rfl⟩
  | tail _ smudges ih =>
      obtain ⟨log', ordered', length, splits⟩ := ih
      obtain ⟨older, sector, newer, before, fragment, after, frags, rfl, ordered''⟩ :=
        ordered'.smudges smudges
      refine ⟨_, ordered'', by rw [← length]; simp, ?_⟩
      rw [← splits, tape_splits, tape_splits]
      simp [frags, Sector.smudge]

/-- The search for older copies of a text in a ring that opens. -/
theorem OpensGood.erase_smudges (good : OpensGood memory ring cells start log)
    (holds : RingHolds memory ring cells) (ordered : Ordered ring cells start log)
    (opens : Opens ring persistentTable (persistentLen / flashSectorSize)) {fuel : Nat}
    {block : RbT} {pagebuff : Memory} {region : Nat → Prop} {writes : List Op}
    {result : Int × Memory}
    (exec : (flashIoEraseRedundantSsids fuel ss block pagebuff).Exec region memory writes result) :
    ∃ changed log', RingHolds (replay writes memory) ring changed ∧
      Ordered ring changed start log' ∧ log'.length = log.length ∧
      (tape log').map (fun mark => mark.fragment.split) =
        (tape log).map fun mark => mark.fragment.split := by
  obtain ⟨rb, recreate, on, next⟩ := good.recreate holds ordered opens block
    (by decide : InitChoice.createFail ≠ .createInitAlways)
  have cursor : Cursor ring cells rb.next := next ▸ .start ordered.start_lt
  obtain ⟨_, length, behind, rfl, measured, exec⟩ := FlashProg.exec_bind_iff.mp exec
  obtain ⟨rfl, -⟩ := strlen_exec measured
  have loop := recreate.of_bind_read exec
  simp only [ne_eq, not_true_eq_false, false_and, if_false] at loop
  obtain ⟨changed, smudged, carries⟩ :=
    (eraseRedundantLoop_ensures fuel _ pagebuff holds on cursor).of_exec loop
  obtain ⟨log', ordered', length, splits⟩ := ordered_smudged ordered smudged
  exact ⟨changed, log', carries, ordered', length, splits⟩

end Smudged

/-! ## Searches that end at once -/

section Ends

variable {ring : Geometry} {memory : Memory} {cells : Nat → Option Sector} {start : Nat}
  {log : List Sector} {ss : Memory} {name : List Byte} {block : RbT} {pagebuff scratch : Memory}
  {value : Int}

/-- The text that `flash_io_erase_redundant_ssids` has measured ends somewhere. -/
theorem IsName.of_exec {region : Nat → Prop} {fuel : Nat} {writes : List Op}
    {result : Int × Memory}
    (exec : (flashIoEraseRedundantSsids fuel ss block pagebuff).Exec region memory writes result) :
    ∃ name, IsName ss name := by
  obtain ⟨_, length, _, -, measured, -⟩ := FlashProg.exec_bind_iff.mp exec
  have terminated : ∃ i, ss i = 0 := ⟨length, (strlen_exec measured).2⟩
  refine ⟨slice ss 0 (Nat.find terminated), ?_, ?_, ?_⟩
  · rw [slice_length]
  · rw [slice_length]
    exact Nat.find_spec terminated
  · intro member
    obtain ⟨i, bound, zero⟩ := List.getElem_of_mem member
    rw [slice_getElem, Nat.zero_add] at zero
    rw [slice_length] at bound
    exact Nat.find_min terminated bound zero

/-- Opening an erased ring. -/
theorem recreate_erased (holds : RingHolds memory ring cells)
    (erased : ∀ k < ring.sectors, cells k = none)
    (opens : Opens ring persistentTable (persistentLen / flashSectorSize)) (block : RbT) :
    ∃ rb, (rbRecreate block persistentTable (persistentLen / flashSectorSize) .createFail).Exec
      ring.extended memory [] (.blankHdr, rb) := by
  obtain ⟨rb, create, -⟩ := rbCreate_erased block holds erased opens
    (by decide : InitChoice.createFail ≠ .createInitAlways)
  exact ⟨rb, rbRecreate_kept_exec (.inr (.inr rfl)) create⟩

/-- In an erased ring nothing is searched. -/
theorem flashIoEraseRedundantSsids_erased (holds : RingHolds memory ring cells)
    (erased : ∀ k < ring.sectors, cells k = none)
    (opens : Opens ring persistentTable (persistentLen / flashSectorSize))
    (isName : IsName ss name) (block : RbT) (pagebuff : Memory) :
    FlashProg.Completes ring.extended
      (fun fuel => flashIoEraseRedundantSsids fuel ss block pagebuff) memory []
      (RbError.blankHdr.code, pagebuff) := by
  obtain ⟨rb, recreate⟩ := recreate_erased holds erased opens block
  have measured : FlashProg.Completes ring.extended (fun fuel => strlen fuel ss 0) memory []
      name.length := strlen_eq isName.terminated fun _ bound => isName.inside bound
  have failed : RbError.blankHdr.code < 0 ∨ name.length + 1 = 0 := .inl (by decide)
  simp only [flashIoEraseRedundantSsids]
  rw [← List.append_nil ([] : List Op)]
  refine measured.bind ?_
  refine FlashProg.Completes.bind_read recreate ?_
  simp only [ne_eq, not_true_eq_false, and_false, if_false]
  refine .once fun fuel => ?_
  simp only [eraseRedundantLoop, if_pos failed]
  exact FlashProg.Exec.pure _

/-- A text that is too long for the ring is not searched. -/
theorem flashIoEraseRedundantSsids_refused (holds : RingHolds memory ring cells)
    (ordered : Ordered ring cells start log)
    (opens : Opens ring persistentTable (persistentLen / flashSectorSize))
    (good : OpensGood memory ring cells start log) (isName : IsName ss name)
    (long : ¬ReadFits ring ssidByte (name.length + 1)) (block : RbT) (pagebuff : Memory) :
    FlashProg.Completes ring.extended
      (fun fuel => flashIoEraseRedundantSsids fuel ss block pagebuff) memory []
      (RbError.badCallerData.code, pagebuff) := by
  obtain ⟨rb, recreate, on, -⟩ := good.recreate_fail holds ordered opens block
  have refused : FlashProg.Completes ring.region
      (fun fuel => rbFind fuel rb ssidByte ss (name.length + 1) pagebuff) memory []
      (RbError.badCallerData.code, rb, pagebuff) := by
    simp only [rbFind, if_pos ((rbReadRejects_iff on).mpr long)]
    exact (FlashProg.Exec.pure _).completes
  have sweep := eraseRedundantLoop_first (Nat.succ_pos _) (Int.le_refl 0) refused (by decide)
  exact flashIoEraseRedundantSsids_loop isName recreate sweep

/-- `flash_io_find_matching_ssid` returns the error of the search for older copies. -/
theorem flashIoFindMatchingSsid_fails (isName : IsName ss name)
    {stack : Stack} (erase : FlashProg.Completes ring.extended
      (fun fuel => flashIoEraseRedundantSsids fuel ss stack.rb pagebuff) memory [] (value, scratch))
    (failed : value < 0) (pw : Memory) :
    FlashProg.Completes ring.extended
      (fun fuel => flashIoFindMatchingSsid fuel ss pw stack pagebuff) memory []
      (value, pw, scratch) := by
  have measured : FlashProg.Completes ring.extended (fun fuel => strlen fuel ss 0) memory []
      name.length := strlen_eq isName.terminated fun _ bound => isName.inside bound
  simp only [flashIoFindMatchingSsid]
  rw [← List.append_nil ([] : List Op)]
  refine measured.bind ?_
  rw [← List.append_nil ([] : List Op)]
  refine erase.bind ?_
  simp only [if_pos failed]
  exact (FlashProg.Exec.pure _).completes

end Ends

/-! ## Appending -/

/-- A ring in order that starts in sector 0 and whose indices are no larger than their number. -/
structure Settled (ring : Geometry) (memory : Memory) (cells : Nat → Option Sector)
    (log : List Sector) : Prop where
  holds : RingHolds memory ring cells
  ordered : Ordered ring cells 0 log
  indices : ∀ sector ∈ log, sector.index ≤ log.length

section Append

variable {ring : Geometry} {memory : Memory} {cells : Nat → Option Sector} {log : List Sector}
  {id : Int} {buff : Memory} {blen : Nat} {request : Request} {log' : List Sector} {index : Nat}
  {writes : List Op}

/-- What `flash_io_write_flash_id` does in a ring with an erased sector, where `latest` is the
latest record of the id. -/
inductive Written (ring : Geometry) (memory : Memory) (log : List Sector) (id : Int)
    (buff : Memory) (blen : Nat) (latest : Option (List Byte)) : List Op → Int → Prop
  | duplicate {err : Int} {scratch : Memory} (finds : Finds latest err scratch)
      (same : u32 err = blen ∧ slice scratch 0 blen = slice buff 0 blen) :
      Written ring memory log id buff blen latest [] 0
  | refused (long : blen = 0 ∨ 4088 < blen) :
      Written ring memory log id buff blen latest [] blen
  | appended {request : Request} {writes : List Op} {cells' : Nat → Option Sector}
      {log' : List Sector} {entry : Entry}
      (sameId : request.id = BitVec.ofInt 8 id) (sameData : request.data = buff)
      (sameSize : request.size = blen)
      (settled : Settled ring (replay writes memory) cells' log')
      (stored : Stored request (writeOffset log) entry)
      (grown : tape log' = tape log ++ entry.marks) :
      Written ring memory log id buff blen latest writes blen

/-- The append of a record to a ring with an erased sector. -/
theorem Settled.append (settled : Settled ring memory cells log) (free : log.length < ring.sectors)
    {rb : RbT} (on : OnRing rb ring) (cached : topOf ring cells rb.sectorIndex ≤ log.length)
    (sameId : request.id = BitVec.ofInt 8 id) (fits : request.Fits ring)
    (latest : Option (List Byte)) (pagebuff : Memory) :
    ∃ writes status rb', FlashProg.Completes ring.region
        (fun fuel => rbAppend fuel rb request.id request.data request.size pagebuff true) memory
        writes (status, rb') ∧
      Written ring memory log id request.data request.size latest writes request.size := by
  have sectors := ring.sectors_le
  obtain ⟨writes, status, changed, index', appends⟩ := @Appends.exists ring request true cells
    rb.sectorIndex
  obtain ⟨rb', -, -, -, append⟩ := rbAppend_completes request on settled.holds
    settled.ordered.filled fits appends pagebuff
  obtain ⟨-, -, start', log', outcome, ordered'⟩ := settled.ordered.appends
    (by simp only [rbIndexMask]; omega) appends
  refine ⟨writes, status, rb', append, ?_⟩
  have holds' := appends.holds settled.holds
  cases outcome with
  | refused _ keep _ => cases keep
  | rejected long => exact .refused (.inr long)
  | dropped _ _ used _ => omega
  | grown grows =>
      obtain ⟨entry, stored, grown⟩ := grows.stored
      exact .appended sameId rfl rfl
        ⟨holds', ordered', grows.index_le_length (by omega) settled.indices⟩ stored grown
  | replaced _ used _ _ => omega

/-- `flash_io_write_flash_id` in a ring with an erased sector. -/
theorem Settled.write (settled : Settled ring memory cells log) (free : log.length < ring.sectors)
    {flashBuf flashLen : Nat} (opens : Opens ring flashBuf (flashLen / flashSectorSize))
    (low : 1 ≤ id) (high : id ≤ 254) {latest : Option (List Byte)}
    (found : LatestRead ring cells 0 (BitVec.ofInt 8 id) latest) {block : RbT}
    (zeroed : block.sectorIndex = 0) (buff : Memory) (blen : Nat) (pagebuff : Memory) :
    ∃ writes value pagebuff', FlashProg.Completes ring.extended
        (fun fuel => flashIoWriteFlashId fuel id flashBuf flashLen buff blen block pagebuff) memory
        writes (value, pagebuff') ∧
      Written ring memory log id buff blen latest writes value := by
  have mask : rbIndexMask = 16777215 := rfl
  have sectors := ring.sectors_le
  have few : ∀ sector ∈ log, sector.index ≤ 512 := fun sector member =>
    Nat.le_trans (settled.indices sector member) (by omega)
  have fits : log.length = ring.sectors → 0 < 0 → BehindFits memory ring cells 0 :=
    fun _ impossible => absurd impossible (Nat.lt_irrefl 0)
  obtain ⟨err, scratch, read, finds⟩ := found.read settled.holds settled.ordered fits opens low high
    block pagebuff
  by_cases duplicate : u32 err = blen ∧ slice scratch 0 blen = slice buff 0 blen
  · refine ⟨[], 0, scratch, ?_, .duplicate finds duplicate⟩
    simp only [flashIoWriteFlashId]
    rw [← List.append_nil ([] : List Op)]
    refine read.bind ?_
    simp only [if_pos duplicate]
    exact (FlashProg.Exec.pure _).completes
  obtain ⟨rb, on, cached, recreate⟩ := recreate_accepts settled.holds settled.ordered fits opens
    block (by omega : block.sectorIndex ≤ log.length) settled.indices
  have on' : OnRing { rb with rbPage := scratch } ring := ⟨on.base_eq, on.bytes_eq⟩
  -- what is left to do is the append
  have behind : ∀ {writes : List Op} {status : RbError} {rb' : RbT},
      FlashProg.Completes ring.region (fun fuel => rbAppend fuel { rb with rbPage := scratch }
        (BitVec.ofInt 8 id) buff blen scratch true) memory writes (status, rb') →
      FlashProg.Completes ring.extended
        (fun fuel => flashIoWriteFlashId fuel id flashBuf flashLen buff blen block pagebuff) memory
        writes ((blen : Int), rb'.rbPage) := by
    intro writes status rb' append
    have goesOn : ¬(entryStatus (indexOf cells 0) ≠ .ok ∧
        entryStatus (indexOf cells 0) ≠ .blankHdr) := by
      rintro ⟨notOk, notBlank⟩
      exact (entryStatus_eq_ok_or (indexOf cells 0)).elim notOk notBlank
    simp only [flashIoWriteFlashId]
    rw [← List.nil_append writes]
    refine read.bind ?_
    simp only [if_neg duplicate]
    refine FlashProg.Completes.bind_read recreate ?_
    simp only [if_neg goesOn]
    rw [← List.append_nil writes]
    refine (append.mono fun _ inside => .inl inside).bind ?_
    exact (FlashProg.Exec.pure _).completes
  by_cases accepted : Accepted ring (BitVec.ofInt 8 id) blen
  · obtain ⟨writes, status, rb', append, written⟩ := @Settled.append ring memory cells log id
      ⟨BitVec.ofInt 8 id, buff, blen, (id_ne low high).1, accepted.1⟩ settled free _ on' cached rfl
      accepted.2.2 latest scratch
    exact ⟨writes, blen, rb'.rbPage, behind append, written⟩
  · have refused : FlashProg.Completes ring.region (fun fuel => rbAppend fuel
        { rb with rbPage := scratch } (BitVec.ofInt 8 id) buff blen scratch true) memory []
        (.badCallerData, { rb with rbPage := scratch }) := by
      simp only [rbAppend_refused on' accepted]
      exact (FlashProg.Exec.pure _).completes
    refine ⟨[], blen, scratch, behind refused, .refused ?_⟩
    by_contra short
    have := ring.sectors_pos
    exact accepted ⟨by omega, (id_ne low high).1, by omega⟩

end Append

end PicoApConfigure.FlashIo
