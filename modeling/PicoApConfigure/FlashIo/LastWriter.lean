import PicoApConfigure.FlashIo.Networks

/-!
# Last writer wins

Calls of `flash_io_write_ssid` and `flash_io_write_hostname` on an erased ring, while no record is
split and a sector stays blank: every network is stored once, with the password written last, and
`flash_io_find_matching_ssid` finds it.
-/

namespace PicoApConfigure.FlashIo

open Nor RingBuffer

/-- A call that stores an entry, with the strings of a network. -/
inductive StoreCall
  | writeSsid (name password : List Byte)
  | writeHostname (hostname : Memory) (nlen : Nat)

/-- The networks that were written, in this order. -/
def writtenNetworks (calls : List StoreCall) : List (List Byte × List Byte) :=
  calls.filterMap fun
    | .writeSsid name password => some (name, password)
    | .writeHostname _ _ => none

/-- The password of the most recent write of a name. -/
def lastPassword (calls : List StoreCall) (name : List Byte) : Option (List Byte) :=
  storedPassword (writtenNetworks calls).reverse name

/-- A sector of the ring is blank, and no header has the flag of a second piece. -/
structure Undivided (ring : Geometry) (memory : Memory) : Prop where
  blank : ∃ k < ring.sectors, Holds memory (ring.sectorAddr k) (blanks 4096)
  unsplit : ∀ cells start log, RingHolds memory ring cells → Ordered ring cells start log →
    ∀ mark ∈ tape log, mark.fragment.split = false

/-- A call with a control block of zeros on its stack that splits no record and leaves a sector
blank; so none is erased either. -/
inductive StoreStep (ring : Geometry) : Memory → StoreCall → Memory → Prop
  | writeSsid {before ss pw pagebuff pagebuff' : Memory} {name password : List Byte}
      {stack : Stack} {writes : List Op} {value : Int} (isName : IsName ss name)
      (isPassword : IsName pw password) (named : name ≠ []) (short : name.length ≤ 31)
      (shortPassword : password.length ≤ 31) (zeroed : stack.rb = RbT.zeroed)
      (call : FlashProg.Completes (fun _ => True)
        (fun fuel => flashIoWriteSsid fuel ss pw stack pagebuff) before writes (value, pagebuff'))
      (undivided : Undivided ring (replay writes before)) :
      StoreStep ring before (.writeSsid name password) (replay writes before)
  | writeHostname {before hostname pagebuff pagebuff' : Memory} {nlen : Nat} {stack : Stack}
      {writes : List Op} {value : Int} (zeroed : stack.rb = RbT.zeroed)
      (call : FlashProg.Completes (fun _ => True)
        (fun fuel => flashIoWriteHostname fuel hostname nlen stack pagebuff) before writes
        (value, pagebuff'))
      (undivided : Undivided ring (replay writes before)) :
      StoreStep ring before (.writeHostname hostname nlen) (replay writes before)

/-- The ring after the calls: every network is on the tape once, with the password written last. -/
structure Kept (ring : Geometry) (memory : Memory) (calls : List StoreCall)
    (cells : Nat → Option Sector) (log : List Sector) (entries : List (List Byte × List Byte)) :
    Prop where
  settled : Settled ring memory cells log
  free : log.length < ring.sectors
  unsplit : ∀ mark ∈ tape log, mark.fragment.split = false
  saved : Saved (tape log) entries
  distinct : (entries.map Prod.fst).Nodup
  named : ∀ entry ∈ entries, entry.1 ≠ []
  stored : ∀ name, storedPassword entries name = lastPassword calls name

/-! ## Passwords -/

section Passwords

variable {entries before behind : List (List Byte × List Byte)} {name password other : List Byte}
  {calls : List StoreCall}

theorem storedPassword_cons :
    storedPassword ((name, password) :: entries) other =
      if name = other then some password else storedPassword entries other := by
  by_cases same : name = other
  · rw [if_pos same, storedPassword, List.find?_cons_of_pos (by simpa using same)]
    rfl
  · rw [if_neg same, storedPassword, List.find?_cons_of_neg (by simpa using same)]
    rfl

theorem lastPassword_writeSsid :
    lastPassword (calls ++ [.writeSsid name password]) other =
      if name = other then some password else lastPassword calls other := by
  have written : (writtenNetworks (calls ++ [.writeSsid name password])).reverse =
      (name, password) :: (writtenNetworks calls).reverse := by
    simp [writtenNetworks]
  rw [lastPassword, written, storedPassword_cons]
  rfl

theorem lastPassword_writeHostname {hostname : Memory} {nlen : Nat} :
    lastPassword (calls ++ [.writeHostname hostname nlen]) other = lastPassword calls other := by
  simp [lastPassword, writtenNetworks]

theorem storedPassword_isSome :
    (storedPassword entries name).isSome ↔ name ∈ entries.map Prod.fst := by
  simp [storedPassword]

/-- The password of a name that was not stored before. -/
theorem storedPassword_concat (absent : name ∉ entries.map Prod.fst) :
    storedPassword (entries ++ [(name, password)]) other =
      if name = other then some password else storedPassword entries other := by
  by_cases same : name = other
  · subst same
    rw [if_pos rfl, storedPassword_append, storedPassword_cons, if_pos rfl]
    rintro entry member rfl
    exact absent (List.mem_map_of_mem member)
  · have nothing : [(name, password)].find? (fun entry => entry.1 = other) = none := by
      simpa using same
    rw [if_neg same, storedPassword, List.find?_append, nothing, Option.or_none, storedPassword]

theorem storedPassword_of_mem (distinct : (entries.map Prod.fst).Nodup)
    (member : (name, password) ∈ entries) : storedPassword entries name = some password := by
  obtain ⟨before, behind, rfl⟩ := List.append_of_mem member
  rw [storedPassword_append, storedPassword_cons, if_pos rfl]
  rw [List.map_append, List.map_cons] at distinct
  rintro entry earlier rfl
  exact (List.nodup_append.mp distinct).2.2 _ (List.mem_map_of_mem earlier) _ List.mem_cons_self rfl

theorem distinct_concat (distinct : (entries.map Prod.fst).Nodup)
    (absent : name ∉ entries.map Prod.fst) :
    ((entries ++ [(name, password)]).map Prod.fst).Nodup := by
  rw [List.map_append, List.map_singleton]
  exact List.nodup_append_comm.mp (List.nodup_cons.mpr ⟨absent, distinct⟩)

theorem storedPassword_drop {old : List Byte} (apart : name ≠ other) :
    storedPassword (before ++ (name, old) :: behind) other =
      storedPassword (before ++ behind) other := by
  rw [storedPassword, storedPassword, List.find?_append, List.find?_append,
    List.find?_cons_of_neg (by simpa using apart)]

end Passwords

section Strings

variable {ss pw buffer : Memory} {name password other otherPassword : List Byte}

/-- The two strings behind each other in `tempssid`. -/
theorem slice_twoStrings (isName : IsName ss name) (isPassword : IsName pw password) :
    slice (store (store buffer 0 (slice ss 0 (name.length + 1))) (name.length + 1)
      (slice pw 0 (password.length + 1))) 0 (name.length + 1 + (password.length + 1)) =
      twoStrings name password := by
  have second := store_append buffer 0 (name ++ [0]) (password ++ [0])
  rw [Nat.zero_add, List.length_append, List.length_singleton, ← List.append_cons] at second
  rw [isName.whole, isPassword.whole, second]
  refine (holds_store buffer 0 (twoStrings name password)).slice_eq ?_
  simp only [twoStrings, List.length_append, List.length_cons, List.length_nil]
  omega

/-- A network is its name and its password. -/
theorem twoStrings_inj (text : 0 ∉ name) (otherText : 0 ∉ other)
    (equal : twoStrings name password = twoStrings other otherPassword) :
    name = other ∧ password = otherPassword := by
  have split : twoStrings name password = (name ++ [0]) ++ (password ++ [0]) :=
    List.append_cons ..
  have begins : name ++ [0] = (twoStrings other otherPassword).take (name.length + 1) := by
    rw [← equal, split, List.take_left' (by simp)]
  have same : name = other := terminated_inj text otherText begins
  subst same
  exact ⟨rfl, by simpa [twoStrings] using equal⟩

end Strings

/-! ## Steps -/

section Steps

variable {ring : Geometry} {memory : Memory} {calls : List StoreCall}
  {cells cells' : Nat → Option Sector} {log log' : List Sector}
  {entries : List (List Byte × List Byte)} {ss : Memory} {name password : List Byte}

theorem Settled.opensGood (settled : Settled ring memory cells log) (used : log ≠ []) :
    OpensGood memory ring cells 0 log where
  used := by
    have first := settled.ordered.cell 0 ring.sectors_pos
    rw [ring.ahead_zero ring.sectors_pos] at first
    rw [first, List.getElem?_eq_getElem (List.length_pos_iff.mpr used)]
    rfl
  behind _ impossible := absurd impossible (Nat.lt_irrefl 0)

theorem Settled.unused (settled : Settled ring memory cells []) {k : Nat}
    (inRing : k < ring.sectors) : cells k = none := by
  have cell := settled.ordered.cell k inRing
  rwa [Geometry.ahead, if_pos (by omega), Nat.zero_add, List.getElem?_nil] at cell

/-- The latest network. -/
theorem Kept.latest (kept : Kept ring memory calls cells log entries) :
    LatestRead ring cells 0 ssidByte
      (entries.map fun entry => twoStrings entry.1 entry.2).getLast? := by
  have ordered := kept.settled.ordered
  by_cases used : log = []
  · subst used
    obtain rfl : entries = [] := by
      cases kept.saved
      rfl
    exact .unused (kept.settled.unused ring.sectors_pos)
  · exact .reads (kept.settled.opensGood used).used
      (kept.saved.tapeReads.readsAll ordered.laid (.inl kept.free) ordered.begins)

/-- Where every name is stored once, the search for older copies changes nothing. -/
theorem Kept.erase (kept : Kept ring memory calls cells log entries)
    (opens : Opens ring persistentTable (persistentLen / flashSectorSize))
    (isName : IsName ss name) (block : RbT) (pagebuff : Memory) :
    ∃ value pagebuff', FlashProg.Completes ring.extended
        (fun fuel => flashIoEraseRedundantSsids fuel ss block pagebuff) memory []
        (value, pagebuff') ∧
      (value < 0 ∧ (log = [] ∨ ¬ReadFits ring ssidByte (name.length + 1)) ∨
        value = 0 ∧ log ≠ [] ∧ ReadFits ring ssidByte (name.length + 1)) := by
  have holds := kept.settled.holds
  have ordered := kept.settled.ordered
  have failed : RbError.blankHdr.code < 0 ∧ RbError.badCallerData.code < 0 := by decide
  by_cases used : log = []
  · subst used
    have erased : ∀ k < ring.sectors, cells k = none := fun k inRing => kept.settled.unused inRing
    exact ⟨_, _, flashIoEraseRedundantSsids_erased holds erased opens isName block pagebuff,
      .inl ⟨failed.1, .inl rfl⟩⟩
  · have good := kept.settled.opensGood used
    by_cases fits : ReadFits ring ssidByte (name.length + 1)
    · obtain ⟨pagebuff', erase⟩ := flashIoEraseRedundantSsids_keeps holds ordered opens good
        (.inl kept.free) kept.saved kept.distinct isName fits block pagebuff
      exact ⟨0, pagebuff', erase, .inr ⟨rfl, used, fits⟩⟩
    · exact ⟨_, _, flashIoEraseRedundantSsids_refused holds ordered opens good isName fits block
        pagebuff, .inl ⟨failed.2, .inr fits⟩⟩

/-- What the writers do behind the append. -/
theorem Kept.erase_leaves (kept : Kept ring memory calls cells log entries)
    (opens : Opens ring persistentTable (persistentLen / flashSectorSize)) {region : Nat → Prop}
    {terr : Int} {block : RbT} {pagebuff : Memory} {writes : List Op} {result : Int × Memory}
    (call : FlashProg.Completes region
      (fun fuel => if terr > 0 then do
          let (_, pagebuff) ← flashIoEraseRedundantSsids fuel ss block pagebuff
          return (terr, pagebuff)
        else
          return (terr, pagebuff)) memory writes result) : writes = [] := by
  by_cases stored : terr > 0
  · simp only [if_pos stored] at call
    obtain ⟨bound, exec⟩ := call
    obtain ⟨_, _, _, -, measured, -⟩ := FlashProg.exec_bind_iff.mp (exec bound (Nat.le_refl _))
    obtain ⟨name, isName⟩ := IsName.of_exec measured
    obtain ⟨value, pagebuff', erase, -⟩ := kept.erase opens isName block pagebuff
    obtain ⟨rest, rfl, ended⟩ := erase.of_bind ⟨bound, exec⟩
    exact ended.of_pure.1
  · simp only [if_neg stored] at call
    exact call.of_pure.1

/-- The search behind an append shows that the record was not split. -/
theorem Settled.alone (settled : Settled ring memory cells' log') {request : Request}
    {offset : Option Nat} {entry : Entry} (stored : Stored request offset entry)
    (grown : tape log' = tape log ++ entry.marks)
    (opens : Opens ring persistentTable (persistentLen / flashSectorSize)) {region : Nat → Prop}
    {terr : Int} {block : RbT} {pagebuff : Memory} {writes : List Op} {result : Int × Memory}
    (call : FlashProg.Completes region
      (fun fuel => if terr > 0 then do
          let (_, pagebuff) ← flashIoEraseRedundantSsids fuel ss block pagebuff
          return (terr, pagebuff)
        else
          return (terr, pagebuff)) memory writes result)
    (undivided : Undivided ring (replay writes memory)) :
    log'.length < ring.sectors ∧ (∀ mark ∈ tape log', mark.fragment.split = false) ∧
      ∃ (short : request.size ≤ 4088) (closes : Bool),
        tape log' = tape log ++ [⟨request.whole short, closes⟩] := by
  have used : log' ≠ [] := by
    rintro rfl
    cases entry <;> simp [Entry.marks] at grown
  -- the search has only taken liveness away
  obtain ⟨changed, log'', holds, ordered, length, splits⟩ : ∃ changed log'',
      RingHolds (replay writes memory) ring changed ∧ Ordered ring changed 0 log'' ∧
        log''.length = log'.length ∧ (tape log'').map (fun mark => mark.fragment.split) =
          (tape log').map fun mark => mark.fragment.split := by
    by_cases searched : terr > 0
    · simp only [if_pos searched] at call
      obtain ⟨bound, exec⟩ := call
      obtain ⟨first, _, _, rfl, erase, ended⟩ :=
        FlashProg.exec_bind_iff.mp (exec bound (Nat.le_refl _))
      obtain ⟨rfl, -⟩ := FlashProg.exec_pure.mp ended
      rw [List.append_nil]
      exact (settled.opensGood used).erase_smudges settled.holds settled.ordered opens erase
    · simp only [if_neg searched] at call
      obtain ⟨rfl, -⟩ := call.of_pure
      exact ⟨cells', log', settled.holds, settled.ordered, rfl, rfl⟩
  obtain ⟨k, inRing, blank⟩ := undivided.blank
  have free := ordered.free_of_blank holds inRing blank
  have unsplit : ∀ mark ∈ tape log', mark.fragment.split = false := by
    intro mark member
    have split : mark.fragment.split ∈ (tape log'').map fun mark => mark.fragment.split :=
      splits ▸ List.mem_map_of_mem member
    obtain ⟨other, member', same⟩ := List.mem_map.mp split
    rw [← same]
    exact undivided.unsplit changed 0 log'' holds ordered other member'
  obtain ⟨short, closes, alone⟩ := stored.alone fun mark member =>
    unsplit mark (by rw [grown]; exact List.mem_append_right _ member)
  exact ⟨by omega, unsplit, short, closes, by rw [grown, alone]⟩

/-- `flash_io_write_hostname` leaves the networks alone. -/
theorem Kept.writeHostname (kept : Kept ring memory calls cells log entries)
    (opens : Opens ring persistentTable (persistentLen / flashSectorSize))
    {hostname pagebuff pagebuff' : Memory} {nlen : Nat} {stack : Stack} {writes : List Op}
    {value : Int} (zeroed : stack.rb = RbT.zeroed)
    (call : FlashProg.Completes (fun _ => True)
      (fun fuel => flashIoWriteHostname fuel hostname nlen stack pagebuff) memory writes
      (value, pagebuff'))
    (undivided : Undivided ring (replay writes memory)) :
    ∃ cells' log', Kept ring (replay writes memory) (calls ++ [.writeHostname hostname nlen]) cells'
      log' entries := by
  obtain ⟨latest, found⟩ := LatestRead.exists kept.settled.ordered (.inl kept.free)
    (by decide : 1 ≤ hostnameId) (by decide : hostnameId ≤ 254)
  obtain ⟨first, value', scratch, write, written⟩ := kept.settled.write kept.free opens
    (by decide : 1 ≤ hostnameId) (by decide : hostnameId ≤ 254) found
    (congrArg RbT.sectorIndex zeroed) hostname nlen pagebuff
  obtain ⟨rest, rfl, behind⟩ := write.of_bind call
  have stored : ∀ name, storedPassword entries name =
      lastPassword (calls ++ [.writeHostname hostname nlen]) name := fun name =>
    (kept.stored name).trans lastPassword_writeHostname.symm
  obtain ⟨cells', log', kept'⟩ : ∃ cells' log', Kept ring (replay first memory)
      (calls ++ [.writeHostname hostname nlen]) cells' log' entries := by
    cases written with
    | duplicate => exact ⟨cells, log, { kept with stored := stored }⟩
    | refused => exact ⟨cells, log, { kept with stored := stored }⟩
    | @appended request _ cells' log' _ sameId _ _ settled record grown =>
        obtain ⟨free, unsplit, short, closes, longer⟩ := settled.alone record grown opens behind
          (by rwa [← replay_append])
        have skipped : ¬Wanted ssidByte (request.whole short) := by
          rintro ⟨sameByte, -⟩
          have differs : BitVec.ofInt 8 hostnameId ≠ ssidByte := by decide
          exact differs (sameId.symm.trans sameByte)
        have saved := @Saved.append ⟨request.whole short, closes⟩ _ _ _ kept.saved
          (unsplit _ (by rw [longer]; simp)) (.other skipped .done)
        rw [← longer, List.append_nil] at saved
        exact ⟨cells', log', settled, free, unsplit, saved, kept.distinct, kept.named, stored⟩
  obtain rfl := kept'.erase_leaves opens behind
  rw [List.append_nil]
  exact ⟨cells', log', kept'⟩

/-- A network that is the latest one already is not stored again. -/
theorem Kept.again (kept : Kept ring memory calls cells log entries) {buff scratch : Memory}
    {err : Int} (finds : Finds (entries.map fun entry => twoStrings entry.1 entry.2).getLast? err
      scratch)
    (bytes : slice buff 0 (name.length + 1 + (password.length + 1)) = twoStrings name password)
    (text : 0 ∉ name) (short : name.length ≤ 31) (shortPassword : password.length ≤ 31)
    (same : u32 err = (name.length + 1 + (password.length + 1) : Nat) ∧
      slice scratch 0 (name.length + 1 + (password.length + 1)) =
        slice buff 0 (name.length + 1 + (password.length + 1))) :
    storedPassword entries name = some password := by
  rcases List.eq_nil_or_concat' entries with rfl | ⟨earlier, ⟨other, old⟩, rfl⟩
  · -- no network is stored
    obtain ⟨size, -⟩ := same
    rcases finds with rfl | rfl
    · have none : u32 0 = 0 := by decide
      omega
    · have large : 64 < u32 RbError.blankHdr.code := by decide
      omega
  · rw [List.map_append, List.map_singleton, List.getLast?_concat] at finds
    obtain ⟨rfl, held⟩ := finds
    obtain ⟨fragment, keeps⟩ := kept.saved.keeps (other, old) (by simp)
    have page := keeps.page
    rw [keeps.payload] at page
    have size : (twoStrings other old).length = name.length + 1 + (password.length + 1) :=
      (u32_of_lt rfl (by simp only [flashPageSize] at page; omega)).symm.trans same.1
    rw [← size, held, size, bytes] at same
    obtain ⟨rfl, rfl⟩ := twoStrings_inj keeps.name_text text same.2
    exact storedPassword_of_mem kept.distinct (by simp)

/-- A network whose name is new is stored. -/
theorem Kept.fresh {memory' : Memory} (kept : Kept ring memory calls cells log entries)
    (settled : Settled ring memory' cells' log') (free : log'.length < ring.sectors)
    (unsplit : ∀ mark ∈ tape log', mark.fragment.split = false)
    (saved : Saved (tape log') (entries ++ [(name, password)])) (named : name ≠ [])
    (absent : name ∉ entries.map Prod.fst) :
    Kept ring memory' (calls ++ [.writeSsid name password]) cells' log'
      (entries ++ [(name, password)]) where
  settled := settled
  free := free
  unsplit := unsplit
  saved := saved
  distinct := distinct_concat kept.distinct absent
  named := by
    intro entry member
    rcases List.mem_append.mp member with old | new
    · exact kept.named entry old
    · rw [List.mem_singleton.mp new]
      exact named
  stored := by
    intro other
    rw [storedPassword_concat absent, lastPassword_writeSsid, kept.stored]

/-- The password of a network is replaced. -/
theorem Kept.replaced {memory' memory'' : Memory} {cells'' : Nat → Option Sector}
    {log'' : List Sector} {left : List (List Byte × List Byte)}
    (kept : Kept ring memory calls cells log entries) (settled : Settled ring memory' cells' log')
    (free : log'.length < ring.sectors) (unsplit : ∀ mark ∈ tape log', mark.fragment.split = false)
    (named : name ≠ [])
    (replaced : Replaced ring memory'' 0 log' entries name password cells'' log'' left) :
    Kept ring memory'' (calls ++ [.writeSsid name password]) cells'' log''
      (left ++ [(name, password)]) := by
  obtain ⟨holds, ordered, indices, splits, saved, before, old, behind, rfl, rfl⟩ := replaced
  have length : log''.length = log'.length := by
    simpa using congrArg List.length indices
  have distinct := kept.distinct
  rw [List.map_append, List.map_cons, List.nodup_middle, ← List.map_append] at distinct
  obtain ⟨absent, distinct⟩ := List.nodup_cons.mp distinct
  refine ⟨⟨holds, ordered, ?_⟩, by omega, ?_, saved, ?_, ?_, ?_⟩
  · intro sector member
    have index : sector.index ∈ log'.map Sector.index := indices ▸ List.mem_map_of_mem member
    obtain ⟨other, member', same⟩ := List.mem_map.mp index
    rw [length, ← same]
    exact settled.indices other member'
  · intro mark member
    have split : mark.fragment.split ∈ (tape log').map fun mark => mark.fragment.split :=
      splits ▸ List.mem_map_of_mem member
    obtain ⟨other, member', same⟩ := List.mem_map.mp split
    rw [← same]
    exact unsplit other member'
  · exact distinct_concat distinct absent
  · intro entry member
    rcases List.mem_append.mp member with old | new
    · refine kept.named entry ?_
      rcases List.mem_append.mp old with earlier | later
      · exact List.mem_append_left _ earlier
      · exact List.mem_append_right _ (List.mem_cons_of_mem _ later)
    · rw [List.mem_singleton.mp new]
      exact named
  · intro other
    rw [storedPassword_concat absent, lastPassword_writeSsid, ← kept.stored]
    by_cases same : name = other
    · rw [if_pos same, if_pos same]
    · rw [if_neg same, if_neg same, storedPassword_drop same]

/-- A network that has been appended is the only one of its name after the search for older
copies. -/
theorem Kept.search {memory' pagebuff : Memory} {block : RbT}
    (kept : Kept ring memory calls cells log entries)
    (opens : Opens ring persistentTable (persistentLen / flashSectorSize))
    (settled : Settled ring memory' cells' log') (free : log'.length < ring.sectors)
    (unsplit : ∀ mark ∈ tape log', mark.fragment.split = false)
    (saved : Saved (tape log') (entries ++ [(name, password)])) (isName : IsName ss name)
    (named : name ≠ []) (short : name.length ≤ 31) :
    ∃ writes pagebuff' cells'' log'' entries', FlashProg.Completes ring.extended
        (fun fuel => flashIoEraseRedundantSsids fuel ss block pagebuff) memory' writes
        (0, pagebuff') ∧
      Kept ring (replay writes memory') (calls ++ [.writeSsid name password]) cells'' log''
        entries' := by
  have used : log' ≠ [] := by
    rintro rfl
    have none := Saved.liveBytes_eq saved
    simp [tape, liveBytes] at none
  have good := settled.opensGood used
  have fits : ReadFits ring ssidByte (name.length + 1) :=
    ssid_fits opens (Nat.succ_pos _) (by simp only [flashPageSize]; omega)
  by_cases old : name ∈ entries.map Prod.fst
  · obtain ⟨deletes, pagebuff', cells'', log'', left, erase, replaced⟩ :=
      flashIoEraseRedundantSsids_deletes settled.holds settled.ordered opens good (.inl free)
        saved kept.distinct old isName fits block pagebuff
    exact ⟨deletes, pagebuff', cells'', log'', _, erase,
      kept.replaced settled free unsplit named replaced⟩
  · obtain ⟨pagebuff', erase⟩ := flashIoEraseRedundantSsids_keeps settled.holds settled.ordered
      opens good (.inl free) saved (distinct_concat kept.distinct old) isName fits block pagebuff
    exact ⟨[], pagebuff', cells', log', _, erase,
      kept.fresh settled free unsplit saved named old⟩

/-- The fragment of a network. -/
theorem keeps_whole {request : Request} (short : request.size ≤ 4088) {password : List Byte}
    (sameId : request.id = ssidByte) (bytes : slice request.data 0 request.size =
      twoStrings name password) (text : 0 ∉ name) (passwordText : 0 ∉ password)
    (page : request.size ≤ flashPageSize) : Keeps (request.whole short) name password where
  wanted := ⟨sameId, (Fragment.of_notSmudged rfl).2⟩
  unsplit := (Fragment.of_notSmudged rfl).1
  payload := bytes
  name_text := text
  password_text := passwordText
  page := by
    simp only [Request.whole, Request.piece, slice_length]
    exact page

/-- `flash_io_write_ssid` leaves the network as the only one of its name. -/
theorem Kept.writeSsid (kept : Kept ring memory calls cells log entries)
    (opens : Opens ring persistentTable (persistentLen / flashSectorSize))
    {pw pagebuff pagebuff' : Memory} {stack : Stack} {writes : List Op} {value : Int}
    (isName : IsName ss name) (isPassword : IsName pw password) (named : name ≠ [])
    (short : name.length ≤ 31) (shortPassword : password.length ≤ 31)
    (zeroed : stack.rb = RbT.zeroed)
    (call : FlashProg.Completes (fun _ => True)
      (fun fuel => flashIoWriteSsid fuel ss pw stack pagebuff) memory writes (value, pagebuff'))
    (undivided : Undivided ring (replay writes memory)) :
    ∃ cells' log' entries', Kept ring (replay writes memory)
      (calls ++ [.writeSsid name password]) cells' log' entries' := by
  have measured : FlashProg.Completes ring.extended (fun fuel => strlen fuel ss 0) memory []
      name.length := strlen_eq isName.terminated fun _ bound => isName.inside bound
  have measured' : FlashProg.Completes ring.extended (fun fuel => strlen fuel pw 0) memory []
      password.length := strlen_eq isPassword.terminated fun _ bound => isPassword.inside bound
  have bytes := @slice_twoStrings ss pw stack.tempssid name password isName isPassword
  obtain ⟨first, value', scratch, write, written⟩ := kept.settled.write kept.free opens
    (by decide : 1 ≤ ssidId) (by decide : ssidId ≤ 254) kept.latest
    (congrArg RbT.sectorIndex zeroed) _ (name.length + 1 + (password.length + 1)) pagebuff
  obtain ⟨_, rfl, behind⟩ := measured.of_bind call
  obtain ⟨_, rfl, behind⟩ := measured'.of_bind behind
  obtain ⟨rest, rfl, behind⟩ := write.of_bind behind
  cases written with
  | duplicate finds same =>
      have found := kept.again finds bytes isName.text short shortPassword same
      have kept' : Kept ring memory (calls ++ [.writeSsid name password]) cells log entries := by
        refine { kept with stored := fun other => ?_ }
        rw [lastPassword_writeSsid]
        split
        · rename_i equal
          exact equal ▸ found
        · exact kept.stored other
      obtain rfl := kept'.erase_leaves opens behind
      exact ⟨cells, log, entries, kept'⟩
  | refused long => omega
  | @appended request _ cells' log' _ sameId sameData sameSize settled record grown =>
      obtain ⟨free, unsplit, short', closes, longer⟩ := settled.alone record grown opens behind
        (by rwa [← replay_append])
      have keeps : Keeps (request.whole short') name password :=
        keeps_whole short' sameId (by rw [sameData, sameSize, bytes]) isName.text isPassword.text
          (by simp only [sameSize, flashPageSize]; omega)
      have saved : Saved (tape log') (entries ++ [(name, password)]) := by
        rw [longer]
        exact kept.saved.append keeps.unsplit (.entry keeps rfl .done)
      obtain ⟨deletes, pagebuff'', cells'', log'', entries', erase, kept'⟩ :=
        kept.search opens settled free unsplit saved isName named short
      have written : ((name.length + 1 + (password.length + 1) : Nat) : Int) > 0 := by omega
      simp only [if_pos written] at behind
      obtain ⟨rest, rfl, ended⟩ := erase.of_bind behind
      obtain ⟨rfl, -⟩ := ended.of_pure
      rw [List.append_nil, replay_append]
      exact ⟨cells'', log'', entries', kept'⟩

/-- Before the first call. -/
theorem Kept.nil (blank : RingBlank memory ring) :
    Kept ring memory [] (fun _ => none) [] [] where
  settled := ⟨blank, ordered_blank ring, by simp⟩
  free := ring.sectors_pos
  unsplit := by simp [tape]
  saved := .done
  distinct := .nil
  named := by simp
  stored _ := rfl

theorem Kept.step {call : StoreCall} {after : Memory}
    (kept : Kept ring memory calls cells log entries)
    (opens : Opens ring persistentTable (persistentLen / flashSectorSize))
    (step : StoreStep ring memory call after) :
    ∃ cells' log' entries', Kept ring after (calls ++ [call]) cells' log' entries' := by
  cases step with
  | writeSsid isName isPassword named short shortPassword zeroed call undivided =>
      exact kept.writeSsid opens isName isPassword named short shortPassword zeroed call undivided
  | writeHostname zeroed call undivided =>
      obtain ⟨cells', log', kept'⟩ := kept.writeHostname opens zeroed call undivided
      exact ⟨cells', log', entries, kept'⟩

theorem Kept.run {first : Memory}
    (opens : Opens ring persistentTable (persistentLen / flashSectorSize))
    (blank : RingBlank first ring) (run : Run (StoreStep ring) first calls memory) :
    ∃ cells log entries, Kept ring memory calls cells log entries := by
  refine run.invariant (fun calls memory => ∃ cells log entries,
    Kept ring memory calls cells log entries) ⟨_, _, _, .nil blank⟩ ?_
  rintro calls call before after - ⟨cells, log, entries, kept⟩ step
  exact kept.step opens step

end Steps

/-! ## What the ring holds -/

section Lookups

variable {ring : Geometry} {memory : Memory} {calls : List StoreCall}
  {cells : Nat → Option Sector} {log : List Sector} {entries : List (List Byte × List Byte)}
  {name : List Byte}

/-- A name that cannot be searched for is not stored. -/
theorem Kept.not_stored (kept : Kept ring memory calls cells log entries)
    (opens : Opens ring persistentTable (persistentLen / flashSectorSize))
    (unsearched : log = [] ∨ ¬ReadFits ring ssidByte (name.length + 1)) :
    storedPassword entries name = none := by
  by_contra stored
  have member := storedPassword_isSome.mp (Option.isSome_iff_ne_none.mpr stored)
  obtain ⟨entry, inside, rfl⟩ := List.mem_map.mp member
  rcases unsearched with rfl | long
  · have saved := kept.saved
    cases saved
    cases inside
  · obtain ⟨fragment, keeps⟩ := kept.saved.keeps entry inside
    have page := keeps.page
    rw [keeps.payload, twoStrings, List.length_append, List.length_cons] at page
    exact long (ssid_fits opens (Nat.succ_pos _) (by omega))

theorem Kept.undivided (kept : Kept ring memory calls cells log entries) :
    Undivided ring memory where
  blank := by
    have unused := kept.settled.ordered.cell log.length kept.free
    rw [List.getElem?_eq_none (Nat.le_refl _)] at unused
    have inRing := ring.ahead_lt kept.settled.ordered.start_lt (Nat.le_of_lt kept.free)
    exact ⟨_, inRing, holds_blank_cell kept.settled.holds inRing unused⟩
  unsplit := by
    intro cells' start log' holds ordered
    rw [(ordered.unique holds kept.settled.holds kept.settled.ordered).2]
    exact kept.unsplit

/-- A lookup finds what was written last, and changes nothing. -/
theorem Kept.looks (kept : Kept ring memory calls cells log entries)
    (opens : Opens ring persistentTable (persistentLen / flashSectorSize)) {ss : Memory}
    (isName : IsName ss name) (proper : name ≠ [] ∨ log = []) (pw : Memory) (stack : Stack)
    (pagebuff : Memory) :
    ∃ err pw' pagebuff', FlashProg.Completes ring.extended
        (fun fuel => flashIoFindMatchingSsid fuel ss pw stack pagebuff) memory []
        (err, pw', pagebuff') ∧
      Looked (writtenNetworks calls).reverse name err pw' := by
  have stored : storedPassword (writtenNetworks calls).reverse name = storedPassword entries name :=
    (kept.stored name).symm
  have same : ∀ err pw, Looked (writtenNetworks calls).reverse name err pw ↔
      Looked entries name err pw := by
    intro err pw
    rw [Looked, Looked, stored]
  obtain ⟨value, scratch, erase, ⟨failed, unsearched⟩ | ⟨rfl, used, fits⟩⟩ :=
    kept.erase opens isName stack.rb pagebuff
  · have none := kept.not_stored opens unsearched
    refine ⟨value, pw, scratch, flashIoFindMatchingSsid_fails isName erase failed pw,
      (same _ _).mpr ⟨fun _ => failed, fun password found => ?_⟩⟩
    rw [none] at found
    cases found
  · obtain ⟨err, pw', pagebuff', find, looked⟩ := flashIoFindMatchingSsid_looks
      kept.settled.holds kept.settled.ordered opens (kept.settled.opensGood used) (.inl kept.free)
      kept.saved kept.distinct isName (proper.resolve_right used) fits pw stack pagebuff
    exact ⟨err, pw', pagebuff', find, (same _ _).mpr looked⟩

end Lookups

/-! ## A single network -/

end PicoApConfigure.FlashIo
