import PicoApConfigure.RingBuffer.Reach

/-!
# Walking and reading on arbitrary contents

Nothing is known here about the flash: headers may be torn or forged, and lengths
may point anywhere.  What remains is the geometry.  The fetch and `rb_incr` leave
the cursor where a data header fits, and it only moves forward around the ring, so
the loops that give up at a sector start end.
-/

namespace PicoApConfigure.RingBuffer

open Nor

/-! ## Places for headers -/

/-- A ring offset at which a data header fits in its sector with a byte behind it. -/
structure HeaderPlace (ring : Geometry) (next : Nat) : Prop where
  lt : next < 4096 * ring.sectors
  room : next % 4096 ≤ 4091

section HeaderPlace

variable {ring : Geometry} {k offset next : Nat}

theorem HeaderPlace.of_offset (inRing : k < ring.sectors) (room : offset ≤ 4091) :
    HeaderPlace ring (4096 * k + offset) where
  lt := ring.offset_lt inRing (by omega)
  room := by omega

theorem HeaderPlace.start (inRing : k < ring.sectors) : HeaderPlace ring (4096 * k) :=
  HeaderPlace.of_offset inRing (Nat.zero_le _)

theorem HeaderPlace.cases (place : HeaderPlace ring next) :
    ∃ k < ring.sectors, ∃ offset ≤ 4091, next = 4096 * k + offset := by
  have below := place.lt
  exact ⟨next / 4096, by omega, next % 4096, place.room, by omega⟩

/-- `rb_incr` leads to a place for a header. -/
theorem HeaderPlace.resume (inRing : k < ring.sectors) (offset : Nat) :
    HeaderPlace ring (ring.resume k offset) := by
  by_cases room : offset ≤ 4091
  · rw [ring.resume_of_le room]
    exact HeaderPlace.of_offset inRing room
  · rw [ring.resume_of_lt (by omega)]
    exact HeaderPlace.start (ring.succ_lt inRing)

/-- Induction along a walk that gives up at the start of sector `home`: each step goes past
at least one byte behind the header it stands at. -/
@[elab_as_elim] theorem HeaderPlace.induction {home : Nat} (homeInRing : home < ring.sectors)
    {motive : Nat → Prop}
    (step : ∀ k < ring.sectors, ∀ offset ≤ 4091,
      (∀ found len, found ≤ 4091 → StandsAt k found (4096 * k + offset) → 0 < len →
        ring.resume k (found + len) ≠ 4096 * home → motive (ring.resume k (found + len))) →
      motive (4096 * k + offset)) (place : HeaderPlace ring next) : motive next := by
  induction measure : ring.distance next (4096 * home) using Nat.strongRecOn
    generalizing next with
  | ind distance ih =>
      subst measure
      obtain ⟨k, inRing, offset, room, rfl⟩ := place.cases
      refine step k inRing offset room fun found len bound stands positive away => ?_
      have closer := ring.distance_resume inRing homeInRing stands positive (by omega) away
      exact ih _ closer (HeaderPlace.resume inRing _) rfl

end HeaderPlace

/-! ## Fetching -/

theorem isHeaderGood_len {header : RbHeader} (good : isHeaderGood header = .ok) :
    0 < header.len := by
  simp only [isHeaderGood] at good
  split at good
  · cases good
  · split at good
    · cases good
    · omega

section AnyFlash

variable {rb : RbT} {ring : Geometry} {k offset : Nat} {id : Byte}

variable (memory : Memory) in
/-- A fetch stays where it is or goes over the sector header; a good data header claims at
least one byte. -/
theorem fetch_any (on : OnRing rb ring) (inRing : k < ring.sectors) (room : offset ≤ 4091)
    (next : rb.next = 4096 * k + offset) :
    ∃ status header found, found ≤ 4091 ∧
      (status = .ok → StandsAt k found rb.next ∧ 0 < header.len) ∧
      (fetchAndCheckHeader rb 0).Exec ring.region memory []
        (status, header, { rb with next := 4096 * k + found }) := by
  by_cases start : offset = 0
  · subst start
    rw [Nat.add_zero] at next
    by_cases good : sectorStatus memory (ring.sectorAddr k) = .ok
    · have fetched := fetch_start_next on inRing 0 (by rw [next]; omega) good
      refine ⟨_, dataWord memory (ring.sectorAddr k + 4), 4, by omega,
        fun ok => ⟨?_, isHeaderGood_len ok⟩, ?_⟩
      · rw [next]
        exact StandsAt.start k
      · rwa [next] at fetched
    · have fetched := fetch_start_stop on inRing 0 (by rw [next]; omega) good
      refine ⟨_, dataWord memory (ring.sectorAddr k), 0, by omega,
        fun ok => absurd ok good, ?_⟩
      rw [Nat.add_zero, ← next]
      exact fetched
  · have fetched := fetch_inside memory on inRing (Nat.pos_of_ne_zero start) (by omega) 0
      (by rw [next]; omega)
    refine ⟨_, dataWord memory (ring.sectorAddr k + offset), offset, room,
      fun ok => ⟨?_, isHeaderGood_len ok⟩, ?_⟩
    · rw [next]
      exact StandsAt.header k offset
    · rw [← next]
      exact fetched

/-! ## `rb_read` -/

/-- What a read of `size` bytes to `offset` leaves: only bytes of that range are written,
and a length it returns counts bytes that were. -/
structure ReadsWithin (ring : Geometry) (data : Memory) (offset size : Nat)
    (result : Int × RbT × Memory) : Prop where
  on : OnRing result.2.1 ring
  place : HeaderPlace ring result.2.1.next
  bytes : ∃ bytes : List Byte, result.2.2 = store data offset bytes ∧ bytes.length ≤ size ∧
    (0 ≤ result.1 → result.1 ≤ bytes.length)

/-- A read that fails before it copies anything. -/
theorem ReadsWithin.failed (data : Memory) (offset size : Nat) (on : OnRing rb ring)
    (place : HeaderPlace ring rb.next) {status : Int} (negative : status < 0) :
    ReadsWithin ring data offset size (status, rb, data) :=
  ⟨on, place, [], (store_nil _ _).symm, Nat.zero_le _, fun nonneg => absurd nonneg (by omega)⟩

/-- A read that ends with the piece it has copied. -/
theorem ReadsWithin.copied (data : Memory) (offset : Nat) (bytes : List Byte)
    (remaining : Nat) (on : OnRing rb ring) (place : HeaderPlace ring rb.next) {result : Int}
    (bounded : 0 ≤ result → result ≤ bytes.length) :
    ReadsWithin ring data offset (bytes.length + remaining)
      (result, rb, store data offset bytes) :=
  ⟨on, place, bytes, rfl, by omega, bounded⟩

/-- The end of a read, where the recursive call keeps its bounds. -/
private theorem readContinuation_finishes {memory : Memory} {remaining : Nat}
    {again : Nat → Nat → RbT → Memory → Nat → Nat → FlashProg (Int × RbT × Memory)}
    (nested : 0 < remaining → ∀ home < ring.sectors, ∀ rb, OnRing rb ring →
      HeaderPlace ring rb.next → ∀ data offset,
      FlashProg.Finishes (fun fuel => again fuel (4096 * home) rb data offset remaining)
        memory fun writes result =>
          writes = [] ∧ ReadsWithin ring data offset remaining result)
    (on : OnRing rb ring) (place : HeaderPlace ring rb.next) (data : Memory) (offset : Nat)
    (bytes : List Byte) :
    FlashProg.Finishes (fun fuel => readContinuation (again fuel) id rb
      (store data offset bytes) offset bytes.length remaining) memory fun writes result =>
        writes = [] ∧ ReadsWithin ring data offset (bytes.length + remaining) result := by
  simp only [readContinuation, modSector_eq]
  by_cases boundary : rb.next % 4096 = 0
  · simp only [boundary, if_true]
    have inRing : rb.next / 4096 < ring.sectors := by
      have := place.lt
      omega
    obtain ⟨status, header, found, bound, -, fetched⟩ := @fetch_any _ _ (rb.next / 4096) 0
      memory on inRing (by omega) (by omega)
    refine fetched.bind_finishes ?_
    have on' : OnRing { rb with next := 4096 * (rb.next / 4096) + found } ring :=
      ⟨on.base_eq, on.bytes_eq⟩
    have place' : HeaderPlace ring (4096 * (rb.next / 4096) + found) :=
      HeaderPlace.of_offset inRing bound
    have home : 4096 * ((4096 * (rb.next / 4096) + found) / 4096) =
        4096 * (rb.next / 4096) := by omega
    by_cases bad : status ≠ .ok ∧ status ≠ .blankHdr
    · have negative := RbError.code_neg bad.1
      simp only [if_pos bad]
      exact .pure ⟨rfl, .copied _ _ _ _ on' place' fun nonneg => by omega⟩
    by_cases continues : header.id = id ∧ header.crc &&& rbHeaderSplit ≠ 0
    · simp only [if_neg bad, if_pos continues]
      by_cases rejected : rbReadRejects { rb with next := 4096 * (rb.next / 4096) + found } id
          remaining
      · have negative : ¬RbError.badCallerData.code > 0 := by decide
        simp only [if_pos rejected]
        refine FlashProg.Exec.bind_finishes (@FlashProg.Exec.pure _ (fun _ => True) _ _) ?_
        simp only [if_neg negative]
        exact .pure ⟨rfl, .copied _ _ _ _ on' place' fun _ => Int.le_of_eq rfl⟩
      · have positive : 0 < remaining := Nat.pos_of_ne_zero fun zero => rejected (.inl zero)
        simp only [if_neg rejected, flashSector_eq, home]
        refine (nested positive _ inRing _ on' place' _ _).bind ?_
        rintro writes ⟨result, rb', data'⟩ ⟨rfl, onLast, placeLast, rest, stored, short, counted⟩
        simp only at onLast placeLast stored short counted
        have joined : data' = store data offset (bytes ++ rest) := by
          rw [stored, store_append]
        refine .pure ⟨rfl, onLast, placeLast, bytes ++ rest, joined, ?_, fun _ => ?_⟩
        · rw [List.length_append]
          omega
        · rw [List.length_append]
          by_cases got : result > 0
          · simp only [if_pos got]
            have := counted (by omega)
            omega
          · simp only [if_neg got]
            omega
    · simp only [if_neg bad, if_neg continues]
      exact .pure ⟨rfl, .copied _ _ _ _ on' place' fun _ => Int.le_of_eq rfl⟩
  · simp only [boundary, if_false]
    exact .pure ⟨rfl, .copied _ _ _ _ on place fun _ => Int.le_of_eq rfl⟩

/-- The walk of a read ends: the measure of the loop is the way to the sector it started
in, that of the recursion the part of the request still unread. -/
theorem rbReadLoop_finishes (memory : Memory) (size : Nat) :
    ∀ {home next : Nat}, home < ring.sectors → HeaderPlace ring next → 0 < size →
      ∀ rb, OnRing rb ring → rb.next = next → ∀ data offset,
      FlashProg.Finishes (fun fuel => rbReadLoop id fuel (4096 * home) rb data offset size)
        memory fun writes result => writes = [] ∧ ReadsWithin ring data offset size result := by
  induction size using Nat.strongRecOn with
  | ind size shorter =>
  intro home next homeInRing place positive
  refine HeaderPlace.induction homeInRing ?_ place
  intro k inRing offset room further rb on next data target
  obtain ⟨status, header, found, bound, good, fetched⟩ := fetch_any memory on inRing room next
  have on' : ∀ next, OnRing { rb with next } ring := fun _ => ⟨on.base_eq, on.bytes_eq⟩
  refine .succ ?_
  simp only [rbReadLoop]
  refine fetched.bind_finishes ?_
  by_cases stopped : status ≠ .ok
  · simp only [if_pos stopped]
    exact .pure ⟨rfl, .failed _ _ _ (on' _) (HeaderPlace.of_offset inRing bound)
      (RbError.code_neg stopped)⟩
  obtain ⟨stands, long⟩ := good (not_not.mp stopped)
  simp only [if_neg stopped]
  by_cases skipped : header.id ≠ id ∨ header.crc &&& rbHeaderNotSmudged = 0
  · have moved : rbIncr (4096 * k + found) (header.len + 4) rb.numberOfBytes =
        ring.resume k (found + (header.len + 4)) := by
      rw [on.bytes_eq, rbIncr_resume ring _ inRing (by omega)]
    simp only [if_pos skipped, headerSize, moved]
    by_cases back : 4096 * home = ring.resume k (found + (header.len + 4))
    · simp only [if_pos back]
      exact .pure ⟨rfl, .failed _ _ _ (on' _) (HeaderPlace.resume inRing _)
        (@RbError.code_neg .hdrIdNotFound (by decide))⟩
    · simp only [if_neg back]
      rw [next] at stands
      exact further found _ bound stands (by omega) (Ne.symm back)
        { rb with next := ring.resume k (found + (header.len + 4)) } (on' _) rfl _ _
  · have moved : rbIncr (4096 * k + (found + 4)) header.len rb.numberOfBytes =
        ring.resume k (found + 4 + header.len) := by
      rw [on.bytes_eq, rbIncr_resume ring _ inRing (by omega)]
    have size_eq : size = min header.len size + (size - min header.len size) := by omega
    have copy := @FlashProg.Exec.readBytes (fun _ => True) memory
      (rb.baseAddress + (4096 * k + (found + 4))) (min header.len size) fun _ _ => trivial
    simp only [if_neg skipped, headerSize, Nat.add_assoc (4096 * k), moved]
    refine copy.bind_finishes ?_
    have finished := @readContinuation_finishes
      { rb with next := ring.resume k (found + 4 + header.len) } ring id memory
      (size - min header.len size) (fun fuel => rbReadLoop id fuel)
      (fun more home homeInRing rb on place data offset => shorter _ (by omega) homeInRing
        place more rb on rfl data offset) (on' _) (HeaderPlace.resume inRing _) data target
      (slice memory (rb.baseAddress + (4096 * k + (found + 4))) (min header.len size))
    rw [slice_length, ← size_eq] at finished
    exact finished

theorem rbRead_finishes (memory : Memory) (on : OnRing rb ring)
    (place : HeaderPlace ring rb.next) {size : Nat} (accepted : ¬rbReadRejects rb id size)
    (data : Memory) :
    FlashProg.Finishes (fun fuel => rbRead fuel rb id data size) memory fun writes result =>
      writes = [] ∧ ReadsWithin ring data 0 size result := by
  have positive : 0 < size := Nat.pos_of_ne_zero fun zero => accepted (.inl zero)
  have homeInRing : rb.next / 4096 < ring.sectors := by
    have := place.lt
    omega
  have home : 4096 * (rb.next / 4096) = flashSector rb.next := by rw [flashSector_eq]
  simp only [rbRead, if_neg accepted, ← home]
  exact rbReadLoop_finishes memory size homeInRing place positive rb on rfl data 0

end AnyFlash

end PicoApConfigure.RingBuffer
