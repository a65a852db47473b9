import PicoApConfigure.RingBuffer.AddedHeaders
import PicoApConfigure.RingBuffer.Ahead

/-!
# What `rb_find` finds

A search reads every live fragment of its id and compares its whole buffer with the caller's
data.  A record shorter than the data leaves behind it what was in the buffer before, and a record
longer than the data leaves its continuation to be read like a record.
-/

namespace PicoApConfigure.RingBuffer

open Nor

/-! ## Records on a tape -/

/-- The second piece of the record that starts with `mark`, when it has one. -/
def continuation (mark : Mark) : List Mark → Option Fragment
  | [] => none
  | following :: _ =>
      if mark.closes = true ∧ following.fragment.id = mark.fragment.id ∧
          following.fragment.split = true then
        some following.fragment
      else none

/-- The bytes of the record that starts with `mark`. -/
def recordBytes (mark : Mark) (rest : List Mark) : List Byte :=
  mark.fragment.payload ++ ((continuation mark rest).map Fragment.payload).getD []

/-- `mark` starts a live record of `id` whose bytes start with `size` bytes of `data`. -/
def IsMatch (id : Byte) (data : Memory) (size : Nat) (mark : Mark) (rest : List Mark) : Prop :=
  Wanted id mark.fragment ∧ mark.fragment.split = false ∧
    ((continuation mark rest).map Fragment.live).getD true = true ∧
    (recordBytes mark rest).take size = slice data 0 size

instance (id : Byte) (data : Memory) (size : Nat) (mark : Mark) (rest : List Mark) :
    Decidable (IsMatch id data size mark rest) :=
  inferInstanceAs (Decidable (_ ∧ _ ∧ _ ∧ _))

/-- The tape from the first record on that matches. -/
def firstMatch (id : Byte) (data : Memory) (size : Nat) : List Mark → Option (List Mark)
  | [] => none
  | mark :: rest =>
      if IsMatch id data size mark rest then some (mark :: rest) else firstMatch id data size rest

/-! ## Stops of a search -/

/-- A read of a search: the tape from its fragment on, and the bytes it puts into the buffer. -/
structure Stop where
  tape : List Mark
  bytes : List Byte

/-- The reads a search for `id` makes along the tape as long as it finds nothing. -/
inductive Stops (id : Byte) (size : Nat) : List Mark → List Stop → Prop
  | done : Stops id size [] []
  | skip {mark : Mark} {rest : List Mark} {stops : List Stop}
      (skipped : ¬Wanted id mark.fragment) (later : Stops id size rest stops) :
      Stops id size (mark :: rest) stops
  | read {mark : Mark} {rest behind : List Mark} {bytes : List Byte} {stops : List Stop}
      (wanted : Wanted id mark.fragment)
      (got : readTape id size (mark :: rest) = (.got bytes, behind))
      (later : Stops id size behind stops) :
      Stops id size (mark :: rest) (⟨mark :: rest, bytes⟩ :: stops)

/-- The first read after which the buffer holds the data. -/
def firstShown (data : Memory) (size : Nat) : (scratch : Memory) → List Stop → Option (List Mark)
  | _, [] => none
  | scratch, stop :: stops =>
      if slice data 0 size = slice (store scratch 0 stop.bytes) 0 size then some stop.tape
      else firstShown data size (store scratch 0 stop.bytes) stops

section Stops

variable {id : Byte} {size : Nat} {mark : Mark} {rest marks : List Mark} {stops : List Stop}
  {data : Memory}

/-- A read that starts at a fragment it wants gets bytes. -/
theorem readTape_wanted (wanted : Wanted id mark.fragment) (positive : 0 < size) :
    ∃ bytes behind, readTape id size (mark :: rest) = (.got bytes, behind) ∧ 0 < bytes.length := by
  rw [readTape, if_pos wanted]
  split
  · refine ⟨_, _, rfl, ?_⟩
    have := mark.fragment.payload_pos
    rw [List.length_append]
    omega
  · exact ⟨_, _, rfl, mark.fragment.take_pos positive⟩

/-- A read uses up the fragment it stops at. -/
theorem readTape_length (id : Byte) (marks : List Mark) :
    ∀ size, (readTape id size marks).2.length ≤ marks.length - 1 := by
  induction marks with
  | nil => exact fun _ => Nat.le_refl _
  | cons mark rest ih =>
      intro size
      rw [readTape]
      split
      · split
        · have later := ih (size - mark.fragment.payload.length)
          simp only [List.length_cons, Nat.add_sub_cancel]
          omega
        · simp
      · have later := ih size
        rw [List.length_cons]
        omega

theorem Stops.exists (id : Byte) (positive : 0 < size) (marks : List Mark) :
    ∃ stops, Stops id size marks stops := by
  induction length : marks.length using Nat.strongRecOn generalizing marks with
  | ind bound ih =>
      cases marks with
      | nil => exact ⟨[], .done⟩
      | cons mark rest =>
          rw [List.length_cons] at length
          by_cases wanted : Wanted id mark.fragment
          · obtain ⟨bytes, behind, got, -⟩ := @readTape_wanted id size mark rest wanted positive
            have shorter := readTape_length id (mark :: rest) size
            rw [got, List.length_cons] at shorter
            obtain ⟨stops, later⟩ := ih behind.length (by simp only at shorter; omega) behind rfl
            exact ⟨_, .read wanted got later⟩
          · obtain ⟨stops, later⟩ := ih rest.length (by omega) rest rfl
            exact ⟨_, .skip wanted later⟩

/-- A read of a live record that is not shorter than the buffer gets its first bytes. -/
theorem readTape_record (wanted : Wanted id mark.fragment)
    (live : ((continuation mark rest).map Fragment.live).getD true = true)
    (large : size ≤ (recordBytes mark rest).length) :
    (readTape id size (mark :: rest)).1 = .got ((recordBytes mark rest).take size) := by
  rw [readTape, if_pos wanted]
  cases rest with
  | nil =>
      simp [continues, recordBytes, continuation]
  | cons following rest =>
      by_cases split : mark.closes = true ∧ following.fragment.id = mark.fragment.id ∧
          following.fragment.split = true
      · have bytes : recordBytes mark (following :: rest) =
            mark.fragment.payload ++ following.fragment.payload := by
          simp [recordBytes, continuation, split]
        have followingLive : following.fragment.live = true := by
          simpa [continuation, split] using live
        have more : continues id (following :: rest) = true := by
          simp [continues, split.2.1, split.2.2, wanted.1]
        rw [bytes, List.length_append] at large
        rw [bytes]
        by_cases unfilled : mark.fragment.payload.length < size
        · have short : ¬following.fragment.payload.length < size - mark.fragment.payload.length :=
            by
            omega
          rw [if_pos ⟨split.1, more, unfilled⟩, readTape,
            if_pos ⟨split.2.1.trans wanted.1, followingLive⟩, if_neg fun all => short all.2.2,
            List.take_append, List.take_of_length_le (Nat.le_of_lt unfilled)]
          rfl
        · rw [if_neg fun all => unfilled all.2.2, List.take_append_of_le_length (by omega)]
      · have none : continuation mark (following :: rest) = none := if_neg split
        have alone : ¬(mark.closes = true ∧ continues id (following :: rest) = true ∧
            mark.fragment.payload.length < size) := by
          rintro ⟨closes, more, -⟩
          have both : following.fragment.id = id ∧ following.fragment.split = true := by
            simpa [continues] using more
          exact split ⟨closes, both.1.trans wanted.1.symm, both.2⟩
        rw [if_neg alone, recordBytes, none]
        simp

end Stops

/-! ## The first match and the first stop that shows the data -/

/-- A live record that matches starts here. -/
def Matches (id : Byte) (data : Memory) (size : Nat) : List Mark → Prop
  | [] => False
  | mark :: rest => IsMatch id data size mark rest

/-- What reads leave in a buffer. -/
def leftIn (scratch : Memory) (stops : List Stop) : Memory :=
  stops.foldl (fun buffer stop => store buffer 0 stop.bytes) scratch

/-- The buffer never spells the data behind a record that does not match, and no read before the
first record that matches runs over it. -/
structure Undisturbed (id : Byte) (data : Memory) (size : Nat) (scratch : Memory)
    (marks : List Mark) (stops : List Stop) : Prop where
  spelled : ∀ i stop, stops[i]? = some stop →
    (∀ j < i, ∀ earlier, stops[j]? = some earlier → ¬Matches id data size earlier.tape) →
    slice data 0 size = slice (leftIn scratch (stops.take (i + 1))) 0 size →
    Matches id data size stop.tape
  reached : ∀ found, firstMatch id data size marks = some found → ∃ stop ∈ stops, stop.tape = found

section First

variable {id : Byte} {size : Nat} {marks found : List Mark} {stops : List Stop}
  {data scratch : Memory}

theorem firstShown_some (shown : firstShown data size scratch stops = some found) :
    ∃ (i : Nat) (stop : Stop), stops[i]? = some stop ∧ stop.tape = found ∧
      slice data 0 size = slice (leftIn scratch (stops.take (i + 1))) 0 size ∧
      ∀ j < i, slice data 0 size ≠ slice (leftIn scratch (stops.take (j + 1))) 0 size := by
  induction stops generalizing scratch with
  | nil => cases shown
  | cons stop stops ih =>
      rw [firstShown] at shown
      split at shown
      · rename_i here
        exact ⟨0, stop, rfl, Option.some.inj shown, here,
          fun j impossible => absurd impossible (Nat.not_lt_zero j)⟩
      · rename_i here
        obtain ⟨i, later, entry, tape, shows, first⟩ := ih shown
        refine ⟨i + 1, later, entry, tape, shows, fun j before => ?_⟩
        cases j with
        | zero => exact here
        | succ j => exact first j (by omega)

theorem firstShown_none (none : firstShown data size scratch stops = none) :
    ∀ i < stops.length,
      slice data 0 size ≠ slice (leftIn scratch (stops.take (i + 1))) 0 size := by
  induction stops generalizing scratch with
  | nil => exact fun i impossible => absurd impossible (Nat.not_lt_zero i)
  | cons stop stops ih =>
      rw [firstShown] at none
      split at none
      · cases none
      · rename_i here
        intro i bound
        cases i with
        | zero => exact here
        | succ i => exact ih none i (by simpa using bound)

theorem firstMatch_some (match' : firstMatch id data size marks = some found) :
    Matches id data size found ∧
      ∀ other, other <:+ marks → Matches id data size other → other.length ≤ found.length := by
  induction marks with
  | nil => cases match'
  | cons mark rest ih =>
      rw [firstMatch] at match'
      split at match'
      · rename_i here
        cases match'
        exact ⟨here, fun other suffix _ => suffix.length_le⟩
      · rename_i away
        obtain ⟨matches', first⟩ := ih match'
        refine ⟨matches', fun other suffix otherMatches => ?_⟩
        rcases List.suffix_cons_iff.mp suffix with rfl | suffix
        · exact absurd otherMatches away
        · exact first other suffix otherMatches

theorem firstMatch_none (none : firstMatch id data size marks = none) :
    ∀ other, other <:+ marks → ¬Matches id data size other := by
  induction marks with
  | nil =>
      intro other suffix
      rw [List.suffix_nil.mp suffix]
      exact fun impossible => impossible
  | cons mark rest ih =>
      rw [firstMatch] at none
      split at none
      · cases none
      · rename_i away
        intro other suffix otherMatches
        rcases List.suffix_cons_iff.mp suffix with rfl | suffix
        · exact away otherMatches
        · exact ih none other suffix otherMatches

/-- What is left of the tape behind a read is a part of what was there. -/
theorem readTape_suffix (id : Byte) (marks : List Mark) :
    ∀ size, (readTape id size marks).2 <:+ marks := by
  induction marks with
  | nil => exact fun _ => List.suffix_refl _
  | cons mark rest ih =>
      intro size
      rw [readTape]
      split
      · split
        · exact (ih _).trans (List.suffix_cons _ _)
        · exact List.suffix_cons _ _
      · exact (ih size).trans (List.suffix_cons _ _)

/-- The stops lie on the tape one behind the other. -/
theorem Stops.ordered (listed : Stops id size marks stops) :
    (∀ stop ∈ stops, stop.tape <:+ marks) ∧
      stops.Pairwise fun earlier later => later.tape.length < earlier.tape.length := by
  induction listed with
  | done => exact ⟨by simp, .nil⟩
  | skip _ _ ih =>
      exact ⟨fun stop member => (ih.1 stop member).trans (List.suffix_cons _ _), ih.2⟩
  | @read mark rest behind bytes stops wanted got _ ih =>
      have suffix := readTape_suffix id (mark :: rest) size
      have shorter := readTape_length id (mark :: rest) size
      rw [got] at suffix shorter
      simp only [List.length_cons, Nat.add_sub_cancel] at shorter
      refine ⟨?_, List.pairwise_cons.mpr ⟨fun stop member => ?_, ih.2⟩⟩
      · intro stop member
        rcases List.mem_cons.mp member with rfl | member
        · exact List.suffix_refl _
        · exact (ih.1 stop member).trans suffix
      · have length := (ih.1 stop member).length_le
        rw [List.length_cons]
        omega

/-- Behind a record that matches the buffer holds the data. -/
theorem Stops.shows (listed : Stops id size marks stops) {stop : Stop} (member : stop ∈ stops)
    (matches' : Matches id data size stop.tape) :
    stop.bytes = slice data 0 size := by
  induction listed with
  | done => cases member
  | skip _ _ ih => exact ih member
  | @read mark rest behind bytes stops wanted got _ ih =>
      rcases List.mem_cons.mp member with rfl | member
      · obtain ⟨_, -, live, equal⟩ := matches'
        have large : size ≤ (recordBytes mark rest).length := by
          have length := congrArg List.length equal
          rw [List.length_take, slice_length] at length
          omega
        have read := readTape_record wanted live large
        rw [got, equal] at read
        exact ReadResult.got.inj read
      · exact ih member

theorem slice_leftIn (scratch : Memory) {i : Nat} {stop : Stop} (entry : stops[i]? = some stop)
    (bytes : stop.bytes = slice data 0 size) :
    slice data 0 size = slice (leftIn scratch (stops.take (i + 1))) 0 size := by
  obtain ⟨bound, rfl⟩ := List.getElem?_eq_some_iff.mp entry
  rw [← List.take_append_getElem bound, leftIn, List.foldl_append, List.foldl_cons,
    List.foldl_nil, bytes]
  exact ((holds_store _ 0 (slice data 0 size)).slice_eq (slice_length _ _ _)).symm

/-- The first stop that shows the data is the first record that matches if and only if nothing
disturbs the search. -/
theorem Stops.shown_iff (listed : Stops id size marks stops) (scratch : Memory) :
    firstShown data size scratch stops = firstMatch id data size marks ↔
      Undisturbed id data size scratch marks stops := by
  obtain ⟨suffixes, order⟩ := listed.ordered
  have shows : ∀ {i : Nat} {stop : Stop}, stops[i]? = some stop →
      Matches id data size stop.tape →
      slice data 0 size = slice (leftIn scratch (stops.take (i + 1))) 0 size :=
    fun entry matches' => slice_leftIn scratch entry
      (listed.shows (List.mem_of_getElem? entry) matches')
  constructor
  · intro same
    constructor
    · intro i stop entry unmatched shown
      cases result : firstShown data size scratch stops with
      | none =>
          exact absurd shown (firstShown_none result i (List.getElem?_eq_some_iff.mp entry).1)
      | some found =>
          obtain ⟨j, first, firstEntry, rfl, _, earlier⟩ := firstShown_some result
          have matches' := (firstMatch_some (same.symm.trans result)).1
          rcases Nat.lt_trichotomy j i with before | rfl | behind
          · exact absurd matches' (unmatched j before first firstEntry)
          · rw [entry, Option.some.injEq] at firstEntry
            rwa [firstEntry]
          · exact absurd shown (earlier i behind)
    · intro found match'
      obtain ⟨i, stop, entry, tape, -, -⟩ := firstShown_some (same.trans match')
      exact ⟨stop, List.mem_of_getElem? entry, tape⟩
  · intro undisturbed
    cases result : firstShown data size scratch stops with
    | none =>
        cases match' : firstMatch id data size marks with
        | none => rfl
        | some found =>
            obtain ⟨stop, member, rfl⟩ := undisturbed.reached found match'
            obtain ⟨i, bound, rfl⟩ := List.getElem_of_mem member
            exact absurd (shows (List.getElem?_eq_getElem bound) (firstMatch_some match').1)
              (firstShown_none result i bound)
    | some shownTape =>
        obtain ⟨i, stop, entry, rfl, shown, first⟩ := firstShown_some result
        have unmatched : ∀ j < i, ∀ earlier, stops[j]? = some earlier →
            ¬Matches id data size earlier.tape :=
          fun j before earlier earlierEntry matches' =>
            first j before (shows earlierEntry matches')
        have matches' := undisturbed.spelled i stop entry unmatched shown
        have suffix := suffixes stop (List.mem_of_getElem? entry)
        cases match' : firstMatch id data size marks with
        | none => exact absurd matches' (firstMatch_none match' stop.tape suffix)
        | some found =>
            obtain ⟨foundMatches, longest⟩ := firstMatch_some match'
            obtain ⟨other, member, rfl⟩ := undisturbed.reached found match'
            obtain ⟨j, bound, rfl⟩ := List.getElem_of_mem member
            obtain ⟨iBound, rfl⟩ := List.getElem?_eq_some_iff.mp entry
            have longer := longest _ suffix matches'
            rcases Nat.lt_trichotomy j i with before | rfl | behind
            · exact absurd foundMatches (unmatched j before _ (List.getElem?_eq_getElem bound))
            · rfl
            · have shorter := List.pairwise_iff_getElem.mp order i j iBound bound behind
              omega

end First

/-! ## The code follows the stops -/

/-- `address` is the offset of the data header of the first fragment of `marks`. -/
def HeaderAt (ring : Geometry) (cells : Nat → Option Sector) (start : Nat) (address : Int)
    (marks : List Mark) : Prop :=
  ∃ next distance, address = (next : Nat) ∧ next % 4096 ≠ 0 ∧
    Ahead ring cells start distance next marks

/-- What a search returns that shows the tape `shown`, or nothing. -/
def FindReturns (ring : Geometry) (cells : Nat → Option Sector) (start : Nat) (value : Int) :
    Option (List Mark) → Prop
  | none => value < 0
  | some marks => HeaderAt ring cells start value marks

section Search

variable {ring : Geometry} {memory : Memory} {cells : Nat → Option Sector} {rb : RbT}
  {start distance next size : Nat} {id : Byte} {marks : List Mark} {stops : List Stop}
  {data : Memory}

theorem HeaderAt.unique {address : Int} {other : List Mark}
    (header : HeaderAt ring cells start address marks)
    (header' : HeaderAt ring cells start address other) : marks = other := by
  obtain ⟨next, distance, rfl, -, ahead⟩ := header
  obtain ⟨next', distance', equal, -, ahead'⟩ := header'
  obtain rfl := Int.ofNat_inj.mp equal
  obtain rfl := ring.ahead_inj ahead.bound ahead'.bound (ahead.sector.symm.trans ahead'.sector)
  exact ahead.unique ahead'

/-- A pass at a blank header. -/
theorem rbFindLoop_blank (on : OnRing rb ring) (holds : RingHolds memory ring cells) {k : Nat}
    (inRing : k < ring.sectors)
    (blank : (cells k = none ∧ rb.next = 4096 * k) ∨ ∃ sector, cells k = some sector ∧
      sector.isFull = false ∧ StandsAt k sector.used rb.next) (orignext : Nat)
    (scratch : Memory) :
    ∃ rb', FlashProg.Completes ring.region
      (fun fuel => rbFindLoop id data size orignext fuel rb scratch) memory []
      (RbError.blankHdr.code, rb', scratch) := by
  rcases blank with ⟨cell, place⟩ | ⟨sector, cell, room, stands⟩
  · exact ⟨rb, .once fun fuel => FlashProg.Exec.bind_read
      (fetch_erased on holds.carries inRing cell place) (FlashProg.Exec.pure _)⟩
  · have fetched := fetch_end rb on holds.carries inRing cell room stands
    rw [headerStatus, dataWord_end holds inRing cell room, isHeaderGood_blank] at fetched
    exact ⟨_, .once fun fuel => FlashProg.Exec.bind_read fetched (FlashProg.Exec.pure _)⟩

/-- A pass over a fragment that is not wanted. -/
theorem rbFindLoop_skips (on : OnRing rb ring) (carries : Carries memory ring cells) {k : Nat}
    {sector : Sector} {before after : List Fragment} {fragment : Fragment}
    (inRing : k < ring.sectors) (cell : cells k = some sector)
    (frags : sector.frags = before ++ fragment :: after)
    (stands : StandsAt k (4 + fragsSize before) rb.next) (skipped : ¬Wanted id fragment)
    {orignext : Nat} {scratch : Memory} {value : Int × RbT × Memory}
    (completes : FlashProg.Completes ring.region (fun fuel =>
      if orignext = ring.resume k (4 + fragsSize before + fragment.size) then
        Pure.pure (RbError.hdrIdNotFound.code,
          { rb with next := ring.resume k (4 + fragsSize before + fragment.size) }, scratch)
      else rbFindLoop id data size orignext fuel
        { rb with next := ring.resume k (4 + fragsSize before + fragment.size) } scratch)
      memory [] value) :
    FlashProg.Completes ring.region
      (fun fuel => rbFindLoop id data size orignext fuel rb scratch) memory [] value := by
  have fetched := fetch_fragment on carries inRing cell frags stands
  have moved := rbIncr_fragment on inRing frags
  have test := (wanted_test id fragment).mpr skipped
  obtain ⟨bound, completes⟩ := completes
  refine .succ ⟨bound, fun fuel enough => ?_⟩
  simp only [rbFindLoop, headerSize]
  refine FlashProg.Exec.bind_read fetched ?_
  simp only [ne_eq, not_true_eq_false, if_false]
  rw [if_pos test]
  simp only [Fragment.header_len, moved]
  exact completes fuel enough

/-- A pass that reads at a fragment that is wanted. -/
theorem rbFindLoop_reads (on : OnRing rb ring) (holds : RingHolds memory ring cells)
    (fits : ReadFits ring id size) {k cursor : Nat} {sector : Sector}
    {before after : List Fragment} {fragment : Fragment} {bytes : List Byte}
    (inRing : k < ring.sectors) (cell : cells k = some sector)
    (frags : sector.frags = before ++ fragment :: after)
    (stands : StandsAt k (4 + fragsSize before) rb.next) (wanted : Wanted id fragment)
    (reads : Reads ring cells (fun _ => .blankHdr) id k (4096 * k + (4 + fragsSize before)) size
      (.got bytes) cursor) (more : 0 < bytes.length)
    {orignext : Nat} {scratch : Memory} {value : Int × RbT × Memory}
    (completes : FlashProg.Completes ring.region (fun fuel =>
      if slice data 0 size = slice (store scratch 0 bytes) 0 size then
        Pure.pure (((4096 * k + (4 + fragsSize before) : Nat) : Int), { rb with next := cursor },
          store scratch 0 bytes)
      else rbFindLoop id data size orignext fuel { rb with next := cursor }
        (store scratch 0 bytes)) memory [] value) :
    FlashProg.Completes ring.region
      (fun fuel => rbFindLoop id data size orignext fuel rb scratch) memory [] value := by
  have offset := fragment_offset frags
  have positive := fragment.size_pos
  have fetched := fetch_fragment on holds.carries inRing cell frags stands
  have test : ¬(fragment.header.id ≠ id ∨
      fragment.header.crc &&& rbHeaderNotSmudged = 0) := fun unwanted =>
    (wanted_test id fragment).mp unwanted wanted
  have sectorOf : (4096 * k + (4 + fragsSize before)) / 4096 = k := by omega
  obtain ⟨readBound, read⟩ := @rbRead_completes _ _ _ _ _ _ _
    { rb with next := 4096 * k + (4 + fragsSize before) } _
    ⟨on.base_eq, on.bytes_eq⟩ holds.carries holds.endingsAre fits (by
      rw [sectorOf]
      exact reads) scratch
  simp only [ReadResult.code_got, ReadResult.bytes_got] at read
  obtain ⟨restBound, completes⟩ := completes
  refine .succ ⟨max readBound restBound, fun fuel enough => ?_⟩
  simp only [rbFindLoop]
  refine FlashProg.Exec.bind_read fetched ?_
  simp only [ne_eq, not_true_eq_false, if_false]
  rw [if_neg test]
  refine FlashProg.Exec.bind_read (read fuel (by omega)) ?_
  rw [if_pos (by omega)]
  exact completes fuel (by omega)

/-- The loop of `rb_find` makes the reads of the stops, up to the first one that shows the data. -/
theorem rbFindLoop_completes (holds : RingHolds memory ring cells) (filled : Filled ring cells)
    (start_lt : start < ring.sectors) (fits : ReadFits ring id size)
    (listed : Stops id size marks stops) :
    ∀ {rb : RbT} {distance : Nat}, OnRing rb ring → Ahead ring cells start distance rb.next marks →
      ∀ scratch, ∃ value rb' scratch', FlashProg.Completes ring.region
          (fun fuel => rbFindLoop id data size (4096 * start) fuel rb scratch) memory []
          (value, rb', scratch') ∧
        FindReturns ring cells start value (firstShown data size scratch stops) ∧
        (firstShown data size scratch stops = none → value = RbError.blankHdr.code) ∧
        ∀ found, firstShown data size scratch stops = some found → OnRing rb' ring ∧
          ∃ later, Ahead ring cells start later rb'.next (readTape id size found).2 := by
  have carries := holds.carries
  have home : ring.ahead start 0 = start := ring.ahead_zero start_lt
  induction listed with
  | done =>
      intro rb distance on ahead scratch
      have inRing := ring.ahead_lt start_lt (Nat.le_of_lt ahead.bound)
      have blank : RbError.blankHdr.code < 0 := by decide
      generalize place : rb.next = next at ahead
      cases ahead with
      | erased _ cell =>
          obtain ⟨rb', completes⟩ := @rbFindLoop_blank _ _ _ _ size id data on holds _ inRing
            (.inl ⟨cell, place⟩) (4096 * start) scratch
          exact ⟨_, rb', scratch, completes, blank, fun _ => rfl, nofun⟩
      | @ended _ _ sector _ cell room stands =>
          obtain ⟨rb', completes⟩ := @rbFindLoop_blank _ _ _ _ size id data on holds _ inRing
            (.inr ⟨sector, cell, room, place ▸ stands⟩) (4096 * start) scratch
          exact ⟨_, rb', scratch, completes, blank, fun _ => rfl, nofun⟩
  | @skip mark rest stops skipped _ ih =>
      intro rb distance on ahead scratch
      have inRing := ring.ahead_lt start_lt (Nat.le_of_lt ahead.bound)
      generalize place : rb.next = next at ahead
      cases ahead with
      | @fragment _ reached _ sector before after fragment _ bound cell frags stands moves behind =>
          have away := Ahead.away start_lt bound moves behind (Nat.zero_le distance)
          rw [home] at away
          obtain ⟨value, rb', scratch', completes, returns⟩ := @ih { rb with
            next := ring.resume (ring.ahead start distance)
              (4 + fragsSize before + fragment.size) } reached ⟨on.base_eq, on.bytes_eq⟩ behind
            scratch
          refine ⟨value, rb', scratch', ?_, returns⟩
          refine rbFindLoop_skips on carries inRing cell frags (place ▸ stands) skipped ?_
          simp only [if_neg (Ne.symm away)]
          exact completes
  | @read mark rest behindMarks bytes stops wanted got _ ih =>
      intro rb distance on ahead scratch
      have inRing := ring.ahead_lt start_lt (Nat.le_of_lt ahead.bound)
      generalize place : rb.next = next at ahead
      cases ahead with
      | @fragment _ reached _ sector before after fragment _ bound cell frags stands moves behind =>
          have offset := fragment_offset frags
          have positive := fragment.size_pos
          have header := Ahead.fragment bound cell frags
            (StandsAt.header (ring.ahead start distance) (4 + fragsSize before)) moves behind
          obtain ⟨cursor, later, reads, -, position⟩ := header.reads filled start_lt id size
            (Nat.le_refl distance)
          have more : 0 < bytes.length := by
            obtain ⟨_, _, other, more⟩ := @readTape_wanted id size _ rest wanted fits.1
            rw [got] at other
            cases other
            exact more
          rw [got] at reads position
          have pass := fun {value} => @rbFindLoop_reads _ _ _ _ _ _ data on holds fits _ _ _ _ _ _ _
            inRing cell frags (place ▸ stands) wanted reads more (4096 * start) scratch value
          by_cases shown : slice data 0 size = slice (store scratch 0 bytes) 0 size
          · rw [firstShown, if_pos shown]
            refine ⟨_, { rb with next := cursor }, store scratch 0 bytes, pass ?_,
              ⟨_, distance, rfl, by omega, header⟩, nofun, ?_⟩
            · simp only [if_pos shown]
              exact (FlashProg.Exec.pure _).completes
            · rintro _ ⟨rfl⟩
              rw [got]
              exact ⟨⟨on.base_eq, on.bytes_eq⟩, later, position⟩
          · obtain ⟨value, rb', scratch', completes, returns⟩ :=
              @ih { rb with next := cursor } later ⟨on.base_eq, on.bytes_eq⟩ position
                (store scratch 0 bytes)
            rw [firstShown, if_neg shown]
            refine ⟨value, rb', scratch', pass ?_, returns⟩
            simp only [if_neg shown]
            exact completes

/-- A value that is not negative is the offset of the first record ahead that matches; a negative
one says that there is none up to the blank header. -/
def FindsFirst (ring : Geometry) (cells : Nat → Option Sector) (start : Nat) (marks : List Mark)
    (id : Byte) (data : Memory) (size : Nat) (value : Int) : Prop :=
  (0 ≤ value → ∃ found, firstMatch id data size marks = some found ∧
    HeaderAt ring cells start value found) ∧
  (value < 0 → firstMatch id data size marks = none)

theorem FindReturns.findsFirst_iff {value : Int} {shown : Option (List Mark)}
    (returns : FindReturns ring cells start value shown) :
    FindsFirst ring cells start marks id data size value ↔
      shown = firstMatch id data size marks := by
  cases shown with
  | none =>
      have negative : value < 0 := returns
      constructor
      · exact fun finds => (finds.2 negative).symm
      · exact fun none => ⟨fun found => absurd found (by omega), fun _ => none.symm⟩
  | some tape =>
      obtain ⟨address, distance, rfl, inside, ahead⟩ := returns
      have header : HeaderAt ring cells start (address : Nat) tape :=
        ⟨address, distance, rfl, inside, ahead⟩
      constructor
      · intro finds
        obtain ⟨found, match', header'⟩ := finds.1 (Int.natCast_nonneg address)
        rw [match', header.unique header']
      · intro same
        exact ⟨fun _ => ⟨tape, same.symm, header⟩,
          fun negative => absurd negative (by have := Int.natCast_nonneg address; omega)⟩

/-- A search from a header position; behind a record that it shows the cursor stands at the rest of
the tape, and without one it ends at the blank header. -/
theorem rbFind_completes (on : OnRing rb ring) (holds : RingHolds memory ring cells)
    (filled : Filled ring cells) (fits : ReadFits ring id size)
    (ahead : Ahead ring cells (rb.next / 4096) 0 rb.next marks) (listed : Stops id size marks stops)
    (scratch : Memory) :
    ∃ value rb' scratch', FlashProg.Completes ring.region
        (fun fuel => rbFind fuel rb id data size scratch) memory [] (value, rb', scratch') ∧
      FindReturns ring cells (rb.next / 4096) value (firstShown data size scratch stops) ∧
      (firstShown data size scratch stops = none → value = RbError.blankHdr.code) ∧
      ∀ found, firstShown data size scratch stops = some found → OnRing rb' ring ∧
        ∃ later, Ahead ring cells (rb.next / 4096) later rb'.next (readTape id size found).2 := by
  obtain ⟨value, rb', scratch', completes, returns⟩ :=
    @rbFindLoop_completes _ _ _ _ _ _ _ _ data holds filled ahead.home_lt fits listed rb 0 on ahead
      scratch
  refine ⟨value, rb', scratch', ?_, returns⟩
  have accepted : ¬rbReadRejects rb id size := by
    rw [rbReadRejects_iff on]
    exact not_not_intro fits
  simp only [rbFind, if_neg accepted, flashSector_eq]
  exact completes

/-- A search in a ring with a blank header returns, and finds the first record unless something
disturbs it. -/
theorem rbFind_iff (on : OnRing rb ring) (holds : RingHolds memory ring cells)
    (filled : Filled ring cells) (fits : ReadFits ring id size)
    (ahead : Ahead ring cells (next / 4096) 0 next marks) (listed : Stops id size marks stops)
    (scratch : Memory) :
    ∃ value rb' scratch', FlashProg.Completes ring.region
        (fun fuel => rbFind fuel { rb with next } id data size scratch) memory []
        (value, rb', scratch') ∧
      (FindsFirst ring cells (next / 4096) marks id data size value ↔
        Undisturbed id data size scratch marks stops) := by
  obtain ⟨value, rb', scratch', completes, returns, -⟩ :=
    @rbFind_completes _ _ _ { rb with next } _ _ _ _ data ⟨on.base_eq, on.bytes_eq⟩ holds filled
    fits
      ahead listed scratch
  exact ⟨value, rb', scratch', completes, returns.findsFirst_iff.trans (listed.shown_iff scratch)⟩

end Search

/-- In every reachable ring with a blank header, from every header position, `rb_find` returns the
first live record ahead that matches if and only if nothing disturbs it. -/
theorem find_finds_first_iff {ring : Geometry} {first device : Device} {events : List Event}
    (started : Started ring first) (run : Run (Step ring) first events device)
    (blank : HasBlankHeader ring device.memory) {cells : Nat → Option Sector}
    (holds : RingHolds device.memory ring cells) {next : Nat} (cursor : Cursor ring cells next)
    {id : Byte} (idPos : id ≠ 0) (idNe : id ≠ 0xff) (data : Memory) {size : Nat}
    (sizePos : 0 < size) (short : size ≤ rbMaxAppendSize) (scratch : Memory) :
    ∃ marks stops value rb' scratch', Ahead ring cells (next / 4096) 0 next marks ∧
      Stops id size marks stops ∧
      FlashProg.Completes ring.region
        (fun fuel => rbFind fuel { device.rb with next } id data size scratch) device.memory []
        (value, rb', scratch') ∧
      (FindsFirst ring cells (next / 4096) marks id data size value ↔
        Undisturbed id data size scratch marks stops) := by
  obtain ⟨formedCells, formed⟩ := started.formed.run run
  have same : ∀ k < ring.sectors, cells k = formedCells k :=
    fun k inRing => holds.unique formed.holds inRing
  have filled : Filled ring cells := fun k inRing sector cell =>
    formed.filled k inRing sector ((same k inRing).symm.trans cell)
  have left : ¬AllFull ring cells := by
    obtain ⟨other, holds', left⟩ := blank
    refine fun full => left fun k inRing => ?_
    rw [← holds.unique holds' inRing]
    exact full k inRing
  have fits : ReadFits ring id size := by
    have := ring.sectors_pos
    simp only [rbMaxAppendSize, flashSectorSize, headerSize] at short
    exact ⟨sizePos, idNe, idPos, by omega⟩
  obtain ⟨marks, ahead⟩ := cursor.ahead left
  obtain ⟨stops, listed⟩ := Stops.exists id sizePos marks
  obtain ⟨value, rb', scratch', completes, iff⟩ :=
    @rbFind_iff _ _ _ _ _ _ _ _ _ data formed.on holds filled fits ahead listed scratch
  exact ⟨marks, stops, value, rb', scratch', ahead, listed, completes, iff⟩

theorem oneRecord_blank {memory : Memory} (holds : RingHolds memory pairRing oneRecordCells) :
    HasBlankHeader pairRing memory :=
  ⟨oneRecordCells, holds, fun full => by cases full 1 (by decide)⟩

theorem find_finds_first_zeros : ∃ events device,
    Run (Step pairRing) (Device.blank pairRing) events device ∧
    ∃ marks stops value rb' scratch', Ahead pairRing oneRecordCells (0 / 4096) 0 0 marks ∧
      Stops 1 10 marks stops ∧
      FlashProg.Completes pairRing.region
        (fun fuel => rbFind fuel { device.rb with next := 0 } 1 (fun _ => 0) 10 fun _ => 0)
        device.memory [] (value, rb', scratch') ∧
      (FindsFirst pairRing oneRecordCells (0 / 4096) marks 1 (fun _ => 0) 10 value ↔
        Undisturbed 1 (fun _ => 0) 10 (fun _ => 0) marks stops) := by
  obtain ⟨written, device, one, formed, -⟩ := first_append
  exact ⟨_, device, .snoc .nil one, find_finds_first_iff (@started_blank pairRing (by decide))
    (.snoc .nil one) (oneRecord_blank formed.holds) formed.holds (Cursor.start (k := 0) (by decide))
    (by decide) (by decide) (fun _ => 0) (by decide) (by decide) fun _ => 0⟩

theorem oneRecord_pos : 0 < 4000 := by decide

theorem oneRecord_short : (zeroRequest 4000 oneRecord_pos).size ≤ 4088 := by decide

/-- The record of `first_append`. -/
def oneRecordMark : Mark := ⟨(zeroRequest 4000 oneRecord_pos).whole oneRecord_short, false⟩

theorem oneRecord_ahead : Ahead pairRing oneRecordCells 0 0 0 [oneRecordMark] := by
  have cell : oneRecordCells (pairRing.ahead 0 0) =
      some (Sector.single 1 ((zeroRequest 4000 (by decide)).whole (by decide))) :=
    setCell_self _ _ _
  have used := oneRecord_used _ cell
  have size : 4 + fragsSize [] + ((zeroRequest 4000 (by decide)).whole (by decide)).size = 4008 :=
    by
    simp [Fragment.size, Request.whole, Request.piece, zeroRequest]
  have behind : Ahead pairRing oneRecordCells 0 0 (pairRing.resume (pairRing.ahead 0 0) 4008) [] :=
    .ended (by decide) cell (by rw [Sector.not_isFull_iff, used]; decide)
      (by rw [used]; exact StandsAt.header 0 4008)
  have ahead := @Ahead.fragment pairRing oneRecordCells 0 0 0 0 _ [] [] _ _ (by decide) cell rfl
    (StandsAt.start 0) (if_neg (by rw [size]; decide)).symm
    (by rw [size]; exact behind)
  rw [size] at ahead
  exact ahead

/-- Asked for 4001 bytes, the search finds the record of 4000 when the caller's buffer happens to
hold the last one. -/
theorem find_finds_shorter_record : ∃ events device value rb' scratch',
    Run (Step pairRing) (Device.blank pairRing) events device ∧
    RingHolds device.memory pairRing oneRecordCells ∧ HasBlankHeader pairRing device.memory ∧
    Ahead pairRing oneRecordCells 0 0 0 [oneRecordMark] ∧
    FlashProg.Completes pairRing.region
      (fun fuel => rbFind fuel { device.rb with next := 0 } 1
        (store (fun _ => 7) 0 oneRecordMark.fragment.payload) 4001 fun _ => 7)
      device.memory [] (value, rb', scratch') ∧
    ¬FindsFirst pairRing oneRecordCells 0 [oneRecordMark] 1
      (store (fun _ => 7) 0 oneRecordMark.fragment.payload) 4001 value := by
  obtain ⟨written, device, one, formed, -⟩ := first_append
  have length : oneRecordMark.fragment.payload.length = 4000 := by
    simp [oneRecordMark, Request.whole, Request.piece, zeroRequest]
  have wanted : Wanted 1 oneRecordMark.fragment := ⟨rfl, rfl⟩
  have got : readTape 1 4001 [oneRecordMark] = (.got oneRecordMark.fragment.payload, []) := by
    rw [readTape_alone rfl wanted, List.take_of_length_le (by omega)]
  obtain ⟨value, rb', scratch', completes, iff⟩ := @rbFind_iff _ _ _ _ 0 _ _ _ _
    (store (fun _ => 7) 0 oneRecordMark.fragment.payload) formed.on formed.holds formed.filled
    (⟨by decide, by decide, by decide, by decide⟩ : ReadFits pairRing 1 4001) oneRecord_ahead
    (.read wanted got .done) fun _ => 7
  refine ⟨_, device, value, rb', scratch', .snoc .nil one, formed.holds,
    oneRecord_blank formed.holds, oneRecord_ahead, completes, iff.not.mpr fun undisturbed => ?_⟩
  have left : leftIn (fun _ => 7)
      ([(⟨[oneRecordMark], oneRecordMark.fragment.payload⟩ : Stop)].take (0 + 1)) =
      store (fun _ => 7) 0 oneRecordMark.fragment.payload := by
    simp only [leftIn, List.take_succ_cons, List.take_zero, List.foldl_cons, List.foldl_nil]
  obtain ⟨-, -, -, equal⟩ := undisturbed.spelled 0 _ rfl
    (fun _ impossible => absurd impossible (Nat.not_lt_zero _)) (by rw [left])
  have short := congrArg List.length equal
  rw [List.length_take, slice_length, recordBytes, continuation, Option.map_none, Option.getD_none,
    List.append_nil, length] at short
  omega

end PicoApConfigure.RingBuffer
