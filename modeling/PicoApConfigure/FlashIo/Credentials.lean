import PicoApConfigure.FlashIo.Redundant

/-!
# Stored credentials

`flash_io_find_matching_ssid` in a ring with a blank header whose networks are records of two
strings each, with every name once: the function changes nothing and returns the password that is
stored under the name.
-/

namespace PicoApConfigure.FlashIo

open Nor RingBuffer

/-- The bytes that `flash_io_write_ssid` stores: two strings with their terminators. -/
def twoStrings (name password : List Byte) : List Byte := name ++ 0 :: (password ++ [0])

/-- The fragment holds a network and fits in the page buffer. -/
structure Keeps (fragment : Fragment) (name password : List Byte) : Prop where
  wanted : Wanted ssidByte fragment
  unsplit : fragment.split = false
  payload : fragment.payload = twoStrings name password
  name_text : 0 ∉ name
  password_text : 0 ∉ password
  page : fragment.payload.length ≤ flashPageSize

/-- The networks on a tape are these, and none runs over the end of its sector. -/
inductive Saved : List Mark → List (List Byte × List Byte) → Prop
  | done : Saved [] []
  | other {mark : Mark} {rest : List Mark} {entries : List (List Byte × List Byte)}
      (skipped : ¬Wanted ssidByte mark.fragment) (later : Saved rest entries) :
      Saved (mark :: rest) entries
  | entry {mark : Mark} {rest : List Mark} {entries : List (List Byte × List Byte)}
      {name password : List Byte} (keeps : Keeps mark.fragment name password)
      (alone : continuation mark rest = none) (later : Saved rest entries) :
      Saved (mark :: rest) ((name, password) :: entries)

/-- `ss` holds the string `name`. -/
structure IsName (ss : Memory) (name : List Byte) : Prop where
  bytes : slice ss 0 name.length = name
  terminated : ss name.length = 0
  text : 0 ∉ name

section Tape

variable {ss : Memory} {size : Nat} {name password other : List Byte} {mark : Mark}
  {marks rest found : List Mark} {entries : List (List Byte × List Byte)}

theorem IsName.inside (isName : IsName ss name) {i : Nat} (bound : i < name.length) :
    ss i ≠ 0 := by
  intro zero
  have entry : (slice ss 0 name.length)[i]? = some (ss i) := by
    rw [List.getElem?_eq_getElem (by simpa using bound), slice_getElem, Nat.zero_add]
  rw [isName.bytes, zero] at entry
  exact isName.text (List.mem_of_getElem? entry)

/-- The name with its terminator. -/
theorem IsName.whole (isName : IsName ss name) : slice ss 0 (name.length + 1) = name ++ [0] := by
  have last : slice ss (0 + name.length) 1 = [0] := by
    rw [Nat.zero_add]
    exact congrArg (fun byte => [byte]) isName.terminated
  rw [slice_add, isName.bytes, last]

/-- Two strings with their terminators start alike only if they are equal. -/
theorem terminated_inj {left right behind : List Byte} (leftText : 0 ∉ left)
    (rightText : 0 ∉ right) (equal : left ++ [0] = (right ++ 0 :: behind).take (left.length + 1)) :
    left = right := by
  induction left generalizing right with
  | nil =>
      cases right with
      | nil => rfl
      | cons byte right =>
          simp only [List.nil_append, List.length_nil, List.cons_append, Nat.zero_add,
            List.take_succ_cons, List.take_zero, List.cons.injEq, and_true] at equal
          exact absurd (equal ▸ List.mem_cons_self) rightText
  | cons byte left ih =>
      cases right with
      | nil =>
          simp only [List.cons_append, List.length_cons, List.nil_append, List.take_succ_cons,
            List.cons.injEq] at equal
          exact absurd (equal.1 ▸ List.mem_cons_self) leftText
      | cons byte' right =>
          simp only [List.cons_append, List.length_cons, List.take_succ_cons,
            List.cons.injEq] at equal
          obtain ⟨rfl, equal⟩ := equal
          rw [ih (fun member => leftText (List.mem_cons_of_mem _ member))
            (fun member => rightText (List.mem_cons_of_mem _ member)) equal]

/-- The bytes of a network start with the name and its terminator only if it is its name. -/
theorem IsName.shown_iff (isName : IsName ss name) (text : 0 ∉ other) :
    (twoStrings other password).take (name.length + 1) = slice ss 0 (name.length + 1) ↔
      other = name := by
  rw [isName.whole, twoStrings]
  constructor
  · exact fun equal => (terminated_inj isName.text text equal.symm).symm
  · rintro rfl
    have split : other ++ 0 :: (password ++ [0]) = (other ++ [0]) ++ (password ++ [0]) := by simp
    rw [split, List.take_left' (by simp)]

theorem Keeps.isMatch_iff (keeps : Keeps mark.fragment name password)
    (alone : continuation mark rest = none) :
    IsMatch ssidByte ss size mark rest ↔ (twoStrings name password).take size = slice ss 0 size :=
    by
  rw [IsMatch, recordBytes, alone, ← keeps.payload]
  simp [keeps.wanted, keeps.unsplit]

/-- A network that does not start with the text differs from it within its own bytes. -/
theorem differs_of_text (inside : ∀ i < size - 1, ss i ≠ 0)
    (apart : (twoStrings name password).take size ≠ slice ss 0 size) :
    Differs ss size ((twoStrings name password).take size) := by
  have length : (twoStrings name password).length = name.length + password.length + 2 := by
    simp only [twoStrings, List.length_append, List.length_cons, List.length_nil]
    omega
  by_contra same
  have agree : ∀ i < size, ∀ byte, (twoStrings name password)[i]? = some byte → byte = ss i := by
    intro i bound byte entry
    by_contra unequal
    exact same ⟨i, bound, byte, by rw [List.getElem?_take_of_lt bound, entry], unequal⟩
  have zero : (twoStrings name password)[name.length]? = some 0 := by
    simp [twoStrings]
  -- the terminator of the name is not in the text
  have long : size ≤ name.length + 1 := by
    by_contra short
    exact inside name.length (by omega) (agree name.length (by omega) 0 zero).symm
  apply apart
  apply List.ext_getElem
  · simp only [List.length_take, slice_length]
    omega
  · intro i bound bound'
    rw [slice_length] at bound'
    rw [List.getElem_take, slice_getElem, Nat.zero_add]
    exact agree i bound' _ (List.getElem?_eq_getElem _)

/-- A search for a text comes to every network that starts with it. -/
theorem Saved.clear (saved : Saved marks entries) (inside : ∀ i < size - 1, ss i ≠ 0) :
    Clear ssidByte ss size True marks := by
  induction saved with
  | done => exact .done
  | other skipped _ ih => exact .skip skipped ih
  | @entry mark rest entries name password keeps alone _ ih =>
      have read := @readTape_single ssidByte size mark rest keeps.wanted alone
      rw [keeps.payload] at read
      by_cases shown : (twoStrings name password).take size = slice ss 0 size
      · refine .hit ((keeps.isMatch_iff alone).mpr shown) (.inr trivial) ?_
        rw [read]
        exact ih
      · refine .miss keeps.wanted (fun found => shown ((keeps.isMatch_iff alone).mp found)) read
          (differs_of_text inside shown) (List.nil_append rest).symm ?_ (.inr trivial) ih
        intro earlier later empty nonempty
        exact absurd (List.append_eq_nil_iff.mp empty.symm).2 nonempty

/-- Where a search for a text leaves off on the tape and in the list of networks. -/
theorem Saved.firstMatch_some (saved : Saved marks entries)
    (first : firstMatch ssidByte ss size marks = some found) :
    ∃ mark rest before name password behind, found = mark :: rest ∧
      entries = before ++ (name, password) :: behind ∧ Keeps mark.fragment name password ∧
      continuation mark rest = none ∧ Saved rest behind ∧
      (twoStrings name password).take size = slice ss 0 size ∧
      ∀ entry ∈ before, (twoStrings entry.1 entry.2).take size ≠ slice ss 0 size := by
  induction saved with
  | done => cases first
  | @other mark rest entries skipped _ ih =>
      rw [firstMatch, if_neg fun here : IsMatch ssidByte ss size mark rest => skipped here.1]
        at first
      exact ih first
  | @entry mark rest entries name password keeps alone later ih =>
      rw [firstMatch] at first
      by_cases here : IsMatch ssidByte ss size mark rest
      · rw [if_pos here] at first
        cases first
        exact ⟨mark, rest, [], name, password, entries, rfl, rfl, keeps, alone, later,
          (keeps.isMatch_iff alone).mp here, by simp⟩
      · rw [if_neg here] at first
        obtain ⟨mark', rest', before, name', password', behind, split, rfl, keeps', alone', later',
          shown, none⟩ := ih first
        refine ⟨mark', rest', (name, password) :: before, name', password', behind, split, rfl,
          keeps', alone', later', shown, ?_⟩
        intro entry member
        rcases List.mem_cons.mp member with rfl | member
        · exact fun shown => here ((keeps.isMatch_iff alone).mpr shown)
        · exact none entry member

theorem Saved.firstMatch_none (saved : Saved marks entries)
    (first : firstMatch ssidByte ss size marks = none) :
    ∀ entry ∈ entries, (twoStrings entry.1 entry.2).take size ≠ slice ss 0 size := by
  induction saved with
  | done => simp
  | @other mark rest entries skipped _ ih =>
      rw [firstMatch, if_neg fun here : IsMatch ssidByte ss size mark rest => skipped here.1]
        at first
      exact ih first
  | @entry mark rest entries name password keeps alone later ih =>
      rw [firstMatch] at first
      split at first
      · cases first
      · rename_i away
        intro entry member
        rcases List.mem_cons.mp member with rfl | member
        · exact fun shown => away ((keeps.isMatch_iff alone).mpr shown)
        · exact ih first entry member

/-- Every network is kept in some fragment. -/
theorem Saved.keeps (saved : Saved marks entries) :
    ∀ entry ∈ entries, ∃ fragment, Keeps fragment entry.1 entry.2 := by
  induction saved with
  | done => simp
  | other _ _ ih => exact ih
  | entry keeps _ _ ih => exact List.forall_mem_cons.mpr ⟨⟨_, keeps⟩, ih⟩

end Tape

/-! ## The lookup -/

section Lookup

variable {ring : Geometry} {memory : Memory} {cells : Nat → Option Sector} {start distance : Nat}
  {log : List Sector} {rb : RbT} {ss : Memory} {name : List Byte} {marks : List Mark}
  {entries : List (List Byte × List Byte)}

theorem ssid_fits {size : Nat} (opens : Opens ring persistentTable
    (persistentLen / flashSectorSize))
    (positive : 0 < size) (page : size ≤ flashPageSize) : ReadFits ring ssidByte size := by
  have sectors : 4 = ring.sectors := opens.sectors_eq
  simp only [flashPageSize] at page
  exact ⟨positive, by decide, by decide, by omega⟩

/-- `strlen` of a string in a buffer. -/
theorem strlen_of_holds {buffer : Memory} {position : Nat} {text behind : List Byte}
    (holds : Holds buffer position (text ++ 0 :: behind)) (inside : 0 ∉ text) :
    FlashProg.Completes ring.extended (fun fuel => strlen fuel buffer position) memory []
      (position + text.length) := by
  obtain ⟨bytes, rest⟩ := holds_append.mp holds
  refine strlen_from (holds_iff.mp rest 0 (Nat.succ_pos _)) ?_
  intro i bound zero
  rw [holds_iff.mp bytes i bound] at zero
  exact inside (zero ▸ List.getElem_mem bound)

theorem holds_password {buffer : Memory} {password : List Byte}
    (holds : Holds buffer 0 (twoStrings name password)) :
    Holds buffer (name.length + 1) (password ++ [0]) := by
  rw [twoStrings, List.append_cons] at holds
  have rest := (holds_append.mp holds).2
  rwa [Nat.zero_add, List.length_append, List.length_singleton] at rest

/-- Where every name is stored once, there is no older copy to delete. -/
theorem eraseRedundantLoop_keeps (on : OnRing rb ring) (holds : RingHolds memory ring cells)
    (laid : Laid ring cells start log) (unfilled : Unfilled ring log)
    (fits : ReadFits ring ssidByte (name.length + 1))
    (position : Position ring start log distance rb.next marks) (saved : Saved marks entries)
    (distinct : (entries.map Prod.fst).Nodup) (isName : IsName ss name) (pagebuff : Memory)
    {terr : Int} (good : 0 ≤ terr) :
    ∃ pagebuff', FlashProg.Completes ring.region
      (fun fuel => eraseRedundantLoop ss (name.length + 1) fuel terr rb pagebuff) memory []
      (0, pagebuff') := by
  have inside : ∀ i < name.length + 1 - 1, ss i ≠ 0 := fun _ bound => isName.inside bound
  have clear := saved.clear inside
  rcases first : firstMatch ssidByte ss (name.length + 1) marks with _ | found
  · obtain ⟨rb', scratch, find⟩ := rbFind_blank on holds laid fits unfilled position clear first
      pagebuff
    exact ⟨scratch, eraseRedundantLoop_first (Nat.succ_pos _) good find (by decide)⟩
  · obtain ⟨mark, rest, before, name', password, behind, rfl, rfl, keeps, alone, later, shown, -⟩ :=
      saved.firstMatch_some first
    obtain rfl : name' = name := (isName.shown_iff keeps.name_text).mp shown
    obtain ⟨address, rb', scratch, find, -, on', reached, position'⟩ :=
      rbFind_meets on holds laid fits position clear first (.inr unfilled) pagebuff
    rw [readTape_single keeps.wanted alone] at position'
    have single : firstMatch ssidByte ss (name'.length + 1) rest = none := by
      rcases again : firstMatch ssidByte ss (name'.length + 1) rest with _ | found
      · rfl
      · obtain ⟨_, _, _, other, _, _, -, rfl, keeps', -, -, shown', -⟩ :=
          later.firstMatch_some again
        obtain rfl : other = name' := (isName.shown_iff keeps'.name_text).mp shown'
        have later' := (List.nodup_append.mp (by simpa using distinct)).2.1
        exact absurd (by simp) (List.nodup_cons.mp later').1
    obtain ⟨rb'', scratch', second⟩ := rbFind_blank on' holds laid fits unfilled position'
      (later.clear inside) single scratch
    have enters : ¬(terr < 0 ∨ name'.length + 1 = 0) := by omega
    have shows : ¬((address : Int) < 0) := by omega
    have hides : ¬(RbError.blankHdr.code ≥ 0) := by decide
    refine ⟨scratch', .succ ?_⟩
    simp only [eraseRedundantLoop, if_neg enters]
    rw [← List.append_nil ([] : List Op)]
    refine find.bind ?_
    simp only [if_neg shows]
    rw [← List.append_nil ([] : List Op)]
    refine second.bind ?_
    simp only [if_neg hides, true_or, if_true]
    exact (FlashProg.Exec.pure _).completes

/-- The password that is stored under a name. -/
def storedPassword (entries : List (List Byte × List Byte)) (name : List Byte) :
    Option (List Byte) :=
  (entries.find? fun entry => entry.1 = name).map Prod.snd

/-- What a lookup returns for a name. -/
def Looked (entries : List (List Byte × List Byte)) (name : List Byte) (err : Int) (pw : Memory) :
    Prop :=
  (storedPassword entries name = none → err < 0) ∧
    ∀ password, storedPassword entries name = some password →
      0 ≤ err ∧ slice pw 0 (password.length + 1) = password ++ [0]

theorem storedPassword_append {before behind : List (List Byte × List Byte)} {other : List Byte}
    (unlike : ∀ entry ∈ before, entry.1 ≠ other) :
    storedPassword (before ++ behind) other = storedPassword behind other := by
  have nothing : before.find? (fun entry => entry.1 = other) = none := by
    rw [List.find?_eq_none]
    intro entry member
    simpa using unlike entry member
  rw [storedPassword, storedPassword, List.find?_append, nothing, Option.none_or]

/-- The loop of the lookup passes the networks that only start with the name. -/
theorem findMatchingLoop_looks (holds : RingHolds memory ring cells)
    (laid : Laid ring cells start log) (unfilled : Unfilled ring log)
    (opens : Opens ring persistentTable (persistentLen / flashSectorSize))
    (isName : IsName ss name) (positive : name ≠ []) (fits : ReadFits ring ssidByte name.length) :
    ∀ {rb : RbT} {distance : Nat} {marks : List Mark} {terr : Int} (pw pagebuff : Memory),
      0 ≤ terr → OnRing rb ring → Position ring start log distance rb.next marks →
      Saved marks entries →
      ∃ err pw' pagebuff', FlashProg.Completes ring.extended
          (fun fuel => findMatchingLoop ss name.length fuel terr rb pw pagebuff) memory []
          (err, pw', pagebuff') ∧
        Looked entries name err pw' := by
  have more : 0 < name.length := List.length_pos_iff.mpr positive
  have inside : ∀ i < name.length - 1, ss i ≠ 0 := fun _ bound => isName.inside (by omega)
  induction length : entries.length using Nat.strongRecOn generalizing entries with
  | ind bound ih =>
  intro rb distance marks terr pw pagebuff good on position saved
  have enters : ¬(terr < 0 ∨ name.length = 0) := by omega
  have clear := saved.clear inside
  rcases first : firstMatch ssidByte ss name.length marks with _ | found
  · -- no network starts with the name
    obtain ⟨rb', scratch, find⟩ := rbFind_blank on holds laid fits unfilled position clear first
      pagebuff
    have failed : RbError.blankHdr.code < 0 := by decide
    refine ⟨RbError.blankHdr.code, pw, scratch, .succ ?_, fun _ => failed, ?_⟩
    · simp only [findMatchingLoop, if_neg enters]
      rw [← List.append_nil ([] : List Op)]
      refine (find.mono fun _ inRing => .inl inRing).bind ?_
      simp only [if_pos failed]
      exact (FlashProg.Exec.pure _).completes
    · intro password stored
      obtain ⟨entry, member, -⟩ := Option.map_eq_some_iff.mp stored
      have apart := saved.firstMatch_none first entry (List.mem_of_find?_eq_some member)
      have same : entry.1 = name := by simpa using List.find?_some member
      refine absurd ?_ apart
      rw [same, isName.bytes, twoStrings, List.take_left]
  · obtain ⟨mark, rest, before, name', password, behind, rfl, rfl, keeps, alone, later, shown,
      none⟩ := saved.firstMatch_some first
    obtain ⟨address, rb', scratch, find, ⟨-, distance', position'⟩, on', -⟩ :=
      rbFind_meets on holds laid fits position clear first (.inr unfilled) pagebuff
    -- the record is read whole
    have payload : mark.fragment.payload.take flashPageSize = twoStrings name' password := by
      rw [List.take_of_length_le keeps.page, keeps.payload]
    have readFits := ssid_fits opens (by decide : 0 < flashPageSize) (Nat.le_refl _)
    obtain ⟨cursor, reached, reads, -, behind'⟩ :=
      @Position.reads _ _ _ _ ssidByte laid (mark :: rest) distance' distance' address flashPageSize
        position' (Nat.le_refl _) (.inr unfilled)
    rw [readTape_single keeps.wanted alone, payload] at reads
    rw [readTape_single keeps.wanted alone] at behind'
    have read := @rbRead_completes _ _ _ _ _ _ _ { rb' with next := address } _
      ⟨on'.base_eq, on'.bytes_eq⟩ holds.carries holds.endingsAre readFits
      (by rwa [position'.sector]) scratch
    have stored := holds_store scratch 0 (twoStrings name' password)
    simp only [ReadResult.bytes_got] at read
    have unlike : ∀ entry ∈ before, entry.1 ≠ name := by
      intro entry member same
      refine none entry member ?_
      rw [same, isName.bytes, twoStrings, List.take_left]
    have measured := @strlen_of_holds ring memory _ _ _ _ stored keeps.name_text
    rw [Nat.zero_add] at measured
    have shows : ¬((address : Int) < 0) := by omega
    have goesOn : (0 : Int) ≤ address := by omega
    by_cases same : name.length = name'.length
    · -- the network has this name
      obtain rfl : name' = name := by
        rw [twoStrings, same, List.take_left, ← same, isName.bytes] at shown
        exact shown
      have second := holds_password stored
      have ends := @strlen_of_holds ring memory _ _ _ [] second keeps.password_text
      have copied : slice (store scratch 0 (twoStrings name' password)) (name'.length + 1)
          (password.length + 1) = password ++ [0] := second.slice_eq (by simp)
      refine ⟨(address : Int), store pw 0 (password ++ [0]),
        store scratch 0 (twoStrings name' password), .succ ?_, ?_, ?_⟩
      · simp only [findMatchingLoop, if_neg enters]
        rw [← List.append_nil ([] : List Op)]
        refine (find.mono fun _ inRing => .inl inRing).bind ?_
        simp only [if_neg shows, Int.toNat_natCast]
        rw [← List.append_nil ([] : List Op)]
        refine (read.mono fun _ inRing => .inl inRing).bind ?_
        rw [← List.append_nil ([] : List Op)]
        refine measured.bind ?_
        simp only [if_true]
        rw [← List.append_nil ([] : List Op)]
        refine ends.bind ?_
        simp only [Nat.add_sub_cancel_left, copied]
        exact (FlashProg.Exec.pure _).completes
      · intro missing
        rw [storedPassword_append unlike, storedPassword,
          List.find?_cons_of_pos (by simp)] at missing
        cases missing
      · intro found equal
        rw [storedPassword_append unlike, storedPassword,
          List.find?_cons_of_pos (by simp)] at equal
        cases equal
        exact ⟨goesOn, (holds_store pw 0 (password ++ [0])).slice_eq (by simp)⟩
    · -- the network only starts with the name
      have apart : name' ≠ name := by
        rintro rfl
        exact same rfl
      have shorter : behind.length < bound := by
        rw [← length, List.length_append, List.length_cons]
        omega
      obtain ⟨err, pw', pagebuff', loop, looked⟩ := @ih behind.length shorter behind rfl
        { rb' with next := cursor } reached rest address pw
        (store scratch 0 (twoStrings name' password)) goesOn ⟨on'.base_eq, on'.bytes_eq⟩ behind'
        later
      refine ⟨err, pw', pagebuff', .succ ?_, ?_⟩
      · simp only [findMatchingLoop, if_neg enters]
        rw [← List.append_nil ([] : List Op)]
        refine (find.mono fun _ inRing => .inl inRing).bind ?_
        simp only [if_neg shows, Int.toNat_natCast]
        rw [← List.append_nil ([] : List Op)]
        refine (read.mono fun _ inRing => .inl inRing).bind ?_
        rw [← List.append_nil ([] : List Op)]
        refine measured.bind ?_
        simp only [if_neg same]
        exact loop
      · have passed : storedPassword (before ++ (name', password) :: behind) name =
            storedPassword behind name := by
          rw [storedPassword_append unlike, storedPassword, storedPassword,
            List.find?_cons_of_neg (by simpa using apart)]
        rwa [Looked, passed]

/-- Opening a ring with sector 0 in use. -/
theorem OpensGood.recreate_fail (good : OpensGood memory ring cells start log)
    (holds : RingHolds memory ring cells) (ordered : Ordered ring cells start log)
    (opens : Opens ring persistentTable (persistentLen / flashSectorSize)) (block : RbT) :
    ∃ rb, (rbRecreate block persistentTable (persistentLen / flashSectorSize) .createFail).Exec
        ring.extended memory [] (.ok, rb) ∧ OnRing rb ring ∧
      Position ring start log 0 rb.next (tape log) := by
  obtain ⟨rb, recreate, on, next⟩ := good.recreate holds ordered opens block
    (by decide : InitChoice.createFail ≠ .createInitAlways)
  exact ⟨rb, recreate, on, next ▸ ordered.begins⟩

/-- `flash_io_erase_redundant_ssids` is its loop behind an opening that succeeds. -/
theorem flashIoEraseRedundantSsids_loop {block : RbT} {pagebuff : Memory} {writes : List Op}
    {result : Int × Memory} (isName : IsName ss name)
    (recreate : (rbRecreate block persistentTable (persistentLen / flashSectorSize)
      .createFail).Exec ring.extended memory [] (.ok, rb))
    (loop : FlashProg.Completes ring.region
      (fun fuel => eraseRedundantLoop ss (name.length + 1) fuel 0 rb pagebuff) memory writes
      result) :
    FlashProg.Completes ring.extended
      (fun fuel => flashIoEraseRedundantSsids fuel ss block pagebuff) memory writes result := by
  have measured : FlashProg.Completes ring.extended (fun fuel => strlen fuel ss 0) memory []
      name.length := strlen_eq isName.terminated fun _ bound => isName.inside bound
  simp only [flashIoEraseRedundantSsids]
  rw [← List.nil_append writes]
  refine measured.bind ?_
  refine FlashProg.Completes.bind_read recreate ?_
  simp only [ne_eq, not_true_eq_false, false_and, if_false]
  exact loop.mono fun _ inRing => .inl inRing

/-- `flash_io_erase_redundant_ssids` where every name is stored once. -/
theorem flashIoEraseRedundantSsids_keeps (holds : RingHolds memory ring cells)
    (ordered : Ordered ring cells start log)
    (opens : Opens ring persistentTable (persistentLen / flashSectorSize))
    (good : OpensGood memory ring cells start log) (unfilled : Unfilled ring log)
    (saved : Saved (tape log) entries) (distinct : (entries.map Prod.fst).Nodup)
    (isName : IsName ss name) (fits : ReadFits ring ssidByte (name.length + 1)) (block : RbT)
    (pagebuff : Memory) :
    ∃ pagebuff', FlashProg.Completes ring.extended
      (fun fuel => flashIoEraseRedundantSsids fuel ss block pagebuff) memory [] (0, pagebuff') := by
  obtain ⟨rb, recreate, on, begins⟩ := good.recreate_fail holds ordered opens block
  obtain ⟨pagebuff', sweep⟩ := eraseRedundantLoop_keeps on holds ordered.laid unfilled fits begins
    saved distinct isName pagebuff (Int.le_refl 0)
  exact ⟨pagebuff', flashIoEraseRedundantSsids_loop isName recreate sweep⟩

/-- `flash_io_find_matching_ssid` in a ring that opens: it changes nothing and finds the password
that is stored under the name. -/
theorem flashIoFindMatchingSsid_looks (holds : RingHolds memory ring cells)
    (ordered : Ordered ring cells start log)
    (opens : Opens ring persistentTable (persistentLen / flashSectorSize))
    (good : OpensGood memory ring cells start log) (unfilled : Unfilled ring log)
    (saved : Saved (tape log) entries) (distinct : (entries.map Prod.fst).Nodup)
    (isName : IsName ss name) (positive : name ≠ [])
    (fits : ReadFits ring ssidByte (name.length + 1)) (pw : Memory) (stack : Stack)
    (pagebuff : Memory) :
    ∃ err pw' pagebuff', FlashProg.Completes ring.extended
        (fun fuel => flashIoFindMatchingSsid fuel ss pw stack pagebuff) memory []
        (err, pw', pagebuff') ∧
      Looked entries name err pw' := by
  obtain ⟨rb, recreate, on, begins⟩ := good.recreate_fail holds ordered opens stack.rb
  have measured : FlashProg.Completes ring.extended (fun fuel => strlen fuel ss 0) memory []
      name.length := strlen_eq isName.terminated fun _ bound => isName.inside bound
  obtain ⟨scratch, erase⟩ := flashIoEraseRedundantSsids_keeps holds ordered opens good unfilled
    saved distinct isName fits stack.rb pagebuff
  have shorter : ReadFits ring ssidByte name.length := by
    obtain ⟨-, notBlank, notZero, room⟩ := fits
    exact ⟨List.length_pos_iff.mpr positive, notBlank, notZero, by omega⟩
  obtain ⟨err, pw', pagebuff', loop, looked⟩ := findMatchingLoop_looks holds ordered.laid unfilled
    opens isName positive shorter pw scratch (Int.le_refl 0) on begins saved
  refine ⟨err, pw', pagebuff', ?_, looked⟩
  simp only [flashIoFindMatchingSsid]
  rw [← List.append_nil ([] : List Op)]
  refine measured.bind ?_
  rw [← List.append_nil ([] : List Op)]
  refine erase.bind ?_
  simp only [Int.lt_irrefl, if_false]
  refine FlashProg.Completes.bind_read recreate ?_
  simp only [ne_eq, not_true_eq_false, false_and, if_false]
  exact loop

end Lookup

end PicoApConfigure.FlashIo
