import PicoApConfigure.RingBuffer.Walk

/-!
# `rb_read`

A read walks to the first fragment it wants, copies it and, when that fragment ends
its sector, peeks at the next sector for a continuation.  `Reads` is the outcome on
the array of sectors; the code realises it whatever follows the last header.
-/

namespace PicoApConfigure.RingBuffer

open Nor

/-- A fragment a read for `id` stops at. -/
def Wanted (id : Byte) (fragment : Fragment) : Prop :=
  fragment.id = id ∧ fragment.live = true

instance (id : Byte) (fragment : Fragment) : Decidable (Wanted id fragment) :=
  inferInstanceAs (Decidable (_ ∧ _))

/-- What a read returns: a status, or bytes. -/
inductive ReadResult where
  | stopped (status : RbError)
  | got (bytes : List Byte)
  deriving DecidableEq

namespace ReadResult

/-- The value returned in the `int`. -/
def code : ReadResult → Int
  | .stopped status => status.code
  | .got bytes => bytes.length

/-- The bytes put into the caller's buffer. -/
def bytes : ReadResult → List Byte
  | .stopped _ => []
  | .got bytes => bytes

@[simp] theorem code_got (bytes : List Byte) : (got bytes).code = bytes.length := rfl

@[simp] theorem bytes_got (bytes : List Byte) : (got bytes).bytes = bytes := rfl

@[simp] theorem bytes_stopped (status : RbError) : (stopped status).bytes = [] := rfl

end ReadResult

/-- What the peek at sector `k` finds for a read of `id`: no continuation, with the cursor
it leaves. -/
inductive NoContinuation (cells : Nat → Option Sector) (id : Byte) (k : Nat) : Nat → Prop
  | erased (cell : cells k = none) : NoContinuation cells id k (4096 * k)
  | unfilled {sector : Sector} (cell : cells k = some sector) (empty : sector.frags = []) :
      NoContinuation cells id k (4096 * k + 4)
  | other {sector : Sector} {fragment : Fragment} {after : List Fragment}
      (cell : cells k = some sector) (frags : sector.frags = fragment :: after)
      (differs : ¬(fragment.id = id ∧ fragment.split = true)) :
      NoContinuation cells id k (4096 * k + 4)

/-- Outcome of a read for `id` with the cursor at `next`, which gives up when it comes to
the start of sector `home`; the last argument is where it leaves the cursor.  `ending`
is the status of the header word behind the last fragment of a sector. -/
inductive Reads (ring : Geometry) (cells : Nat → Option Sector) (ending : Nat → RbError)
    (id : Byte) : (home next size : Nat) → ReadResult → Nat → Prop
  | erased {home next size k : Nat}
      (skips : Skips ring cells (fun fragment => ¬Wanted id fragment) (4096 * home) next
        (4096 * k)) (inRing : k < ring.sectors) (cell : cells k = none) :
      Reads ring cells ending id home next size (.stopped .blankHdr) (4096 * k)
  | ended {home next size k final : Nat} {sector : Sector}
      (skips : Skips ring cells (fun fragment => ¬Wanted id fragment) (4096 * home) next
        final) (inRing : k < ring.sectors) (cell : cells k = some sector)
      (room : sector.isFull = false) (stands : StandsAt k sector.used final) :
      Reads ring cells ending id home next size (.stopped (ending k))
        (4096 * k + sector.used)
  | lost {home next size k final : Nat} {sector : Sector} {before after : List Fragment}
      {fragment : Fragment}
      (skips : Skips ring cells (fun fragment => ¬Wanted id fragment) (4096 * home) next
        final) (inRing : k < ring.sectors) (cell : cells k = some sector)
      (frags : sector.frags = before ++ fragment :: after)
      (stands : StandsAt k (4 + fragsSize before) final) (skipped : ¬Wanted id fragment)
      (back : ring.resume k (4 + fragsSize before + fragment.size) = 4096 * home) :
      Reads ring cells ending id home next size (.stopped .hdrIdNotFound) (4096 * home)
  /-- The fragment is followed by another header position in its sector. -/
  | plain {home next size k final : Nat} {sector : Sector} {before after : List Fragment}
      {fragment : Fragment}
      (skips : Skips ring cells (fun fragment => ¬Wanted id fragment) (4096 * home) next
        final) (inRing : k < ring.sectors) (cell : cells k = some sector)
      (frags : sector.frags = before ++ fragment :: after)
      (stands : StandsAt k (4 + fragsSize before) final) (wanted : Wanted id fragment)
      (room : 4 + fragsSize before + fragment.size ≤ 4091) :
      Reads ring cells ending id home next size (.got (fragment.payload.take size))
        (4096 * k + (4 + fragsSize before + fragment.size))
  /-- The fragment ends its sector and nothing in the next one continues it. -/
  | last {home next size k final cursor : Nat} {sector : Sector}
      {before after : List Fragment} {fragment : Fragment}
      (skips : Skips ring cells (fun fragment => ¬Wanted id fragment) (4096 * home) next
        final) (inRing : k < ring.sectors) (cell : cells k = some sector)
      (frags : sector.frags = before ++ fragment :: after)
      (stands : StandsAt k (4 + fragsSize before) final) (wanted : Wanted id fragment)
      (full : 4091 < 4 + fragsSize before + fragment.size)
      (alone : NoContinuation cells id (ring.succ k) cursor) :
      Reads ring cells ending id home next size (.got (fragment.payload.take size)) cursor
  /-- The buffer is full before the continuation. -/
  | short {home next size k final : Nat} {sector following : Sector}
      {before after rest : List Fragment} {fragment continuation : Fragment}
      (skips : Skips ring cells (fun fragment => ¬Wanted id fragment) (4096 * home) next
        final) (inRing : k < ring.sectors) (cell : cells k = some sector)
      (frags : sector.frags = before ++ fragment :: after)
      (stands : StandsAt k (4 + fragsSize before) final) (wanted : Wanted id fragment)
      (full : 4091 < 4 + fragsSize before + fragment.size)
      (nextCell : cells (ring.succ k) = some following)
      (nextFrags : following.frags = continuation :: rest)
      (continues : continuation.id = id ∧ continuation.split = true)
      (filled : size ≤ fragment.payload.length) :
      Reads ring cells ending id home next size (.got (fragment.payload.take size))
        (4096 * ring.succ k + 4)
  /-- The read goes on with the continuation. -/
  | continued {home next size k final cursor : Nat} {sector following : Sector}
      {before after rest : List Fragment} {fragment continuation : Fragment}
      {result : ReadResult}
      (skips : Skips ring cells (fun fragment => ¬Wanted id fragment) (4096 * home) next
        final) (inRing : k < ring.sectors) (cell : cells k = some sector)
      (frags : sector.frags = before ++ fragment :: after)
      (stands : StandsAt k (4 + fragsSize before) final) (wanted : Wanted id fragment)
      (full : 4091 < 4 + fragsSize before + fragment.size)
      (nextCell : cells (ring.succ k) = some following)
      (nextFrags : following.frags = continuation :: rest)
      (continues : continuation.id = id ∧ continuation.split = true)
      (unfilled : fragment.payload.length < size)
      (more : Reads ring cells ending id (ring.succ k) (4096 * ring.succ k + 4)
        (size - fragment.payload.length) result cursor) :
      Reads ring cells ending id home next size (.got (fragment.payload ++ result.bytes))
        cursor

section Read

variable {ring : Geometry} {cells : Nat → Option Sector} {ending : Nat → RbError} {id : Byte}
  {home next size cursor : Nat} {result : ReadResult}

/-- The peek finds a continuation or none. -/
theorem noContinuation_or (cells : Nat → Option Sector) (id : Byte) (k : Nat) :
    (∃ cursor, NoContinuation cells id k cursor) ∨
      ∃ sector fragment after, cells k = some sector ∧ sector.frags = fragment :: after ∧
        fragment.id = id ∧ fragment.split = true := by
  cases cell : cells k with
  | none => exact .inl ⟨_, .erased cell⟩
  | some sector =>
      cases frags : sector.frags with
      | nil => exact .inl ⟨_, .unfilled cell frags⟩
      | cons fragment after =>
          by_cases continues : fragment.id = id ∧ fragment.split = true
          · exact .inr ⟨sector, fragment, after, rfl, frags, continues⟩
          · exact .inl ⟨_, .other cell frags continues⟩

theorem NoContinuation.isCursor {k : Nat} (alone : NoContinuation cells id k cursor)
    (inRing : k < ring.sectors) : Cursor ring cells cursor := by
  cases alone with
  | erased cell => exact .erased inRing cell
  | @unfilled sector cell empty =>
      have used : sector.used = 4 := by rw [Sector.used, empty, fragsSize_nil]
      refine .ended inRing cell ?_ ?_
      · rw [Sector.not_isFull_iff]
        omega
      · rw [used]
        exact StandsAt.header k 4
  | other cell frags _ =>
      exact .first inRing cell frags (StandsAt.header k 4)

/-- Every read has an outcome. -/
theorem Reads.exists (ending : Nat → RbError) (id : Byte) {home next : Nat}
    (homeInRing : home < ring.sectors) (cursor : Cursor ring cells next) (size : Nat) :
    ∃ result final, Reads ring cells ending id home next size result final := by
  induction size using Nat.strongRecOn generalizing home next with
  | ind size ih =>
      obtain ⟨final, skips, walkEnd⟩ := Skips.exists_end (fun fragment => ¬Wanted id fragment)
        homeInRing
        (fun _ => inferInstance) cursor
      cases walkEnd with
      | erased inRing cell => exact ⟨_, _, .erased skips inRing cell⟩
      | ended inRing cell room stands => exact ⟨_, _, .ended skips inRing cell room stands⟩
      | lost inRing cell frags stands skipped back =>
          exact ⟨_, _, .lost skips inRing cell frags stands skipped back⟩
      | @found k _ sector before after fragment inRing cell frags stands found =>
          have wanted := not_not.mp found
          by_cases room : 4 + fragsSize before + fragment.size ≤ 4091
          · exact ⟨_, _, .plain skips inRing cell frags stands wanted room⟩
          have full : 4091 < 4 + fragsSize before + fragment.size := by omega
          rcases noContinuation_or cells id (ring.succ k) with
            ⟨_, alone⟩ | ⟨following, continuation, rest, nextCell, nextFrags, continues⟩
          · exact ⟨_, _, .last skips inRing cell frags stands wanted full alone⟩
          · by_cases filled : size ≤ fragment.payload.length
            · exact ⟨_, _, .short skips inRing cell frags stands wanted full nextCell nextFrags
                continues filled⟩
            · have inRing' := ring.succ_lt inRing
              have positive := fragment.payload_pos
              obtain ⟨result, cursor, more⟩ := ih (size - fragment.payload.length) (by omega)
                inRing' (Cursor.first inRing' nextCell nextFrags
                  (StandsAt.header _ 4))
              exact ⟨_, _, .continued skips inRing cell frags stands wanted full nextCell
                nextFrags continues (by omega) more⟩

/-- A read leaves the cursor at a header position. -/
theorem Reads.isCursor (reads : Reads ring cells ending id home next size result cursor)
    (homeInRing : home < ring.sectors) : Cursor ring cells cursor := by
  induction reads with
  | erased _ inRing cell => exact .erased inRing cell
  | ended _ inRing cell room _ => exact .ended inRing cell room (StandsAt.header _ _)
  | lost => exact Cursor.start homeInRing
  | plain _ inRing cell frags _ _ room =>
      have behind := Cursor.behind inRing cell frags
      rwa [ring.resume_of_le room] at behind
  | last _ inRing _ _ _ _ _ alone => exact alone.isCursor (ring.succ_lt inRing)
  | short _ inRing _ _ _ _ _ nextCell nextFrags _ _ =>
      exact .first (ring.succ_lt inRing) nextCell nextFrags
        (StandsAt.header _ 4)
  | continued _ inRing _ _ _ _ _ _ _ _ _ _ ih => exact ih (ring.succ_lt inRing)

/-! ## The code realises the outcome -/

variable {rb : RbT} {memory : Memory}

/-- The test of the reader on a fragment's header. -/
theorem wanted_test (id : Byte) (fragment : Fragment) :
    (fragment.header.id ≠ id ∨ fragment.header.crc &&& rbHeaderNotSmudged = 0) ↔
      ¬Wanted id fragment := by
  rw [Fragment.header_smudged, Fragment.header_id, Wanted, not_and_or,
    Bool.not_eq_true]

/-- The test of the peek on a fragment's header. -/
theorem continuation_test (id : Byte) (fragment : Fragment) :
    (fragment.header.id = id ∧ fragment.header.crc &&& rbHeaderSplit ≠ 0) ↔
      fragment.id = id ∧ fragment.split = true := by
  rw [Fragment.header_split, Fragment.header_id]

variable (rb) in
/-- One pass over a fragment that is not wanted. -/
private theorem rbReadLoop_step (on : OnRing rb ring) (carries : Carries memory ring cells)
    {k : Nat} {sector : Sector} {before after : List Fragment} {fragment : Fragment}
    (inRing : k < ring.sectors) (cell : cells k = some sector)
    (frags : sector.frags = before ++ fragment :: after)
    (stands : StandsAt k (4 + fragsSize before) rb.next) (skipped : ¬Wanted id fragment)
    (fuel : Nat) (data : Memory) (offset : Nat) {value : Int × RbT × Memory}
    (exec : (if 4096 * home = ring.resume k (4 + fragsSize before + fragment.size) then
        Pure.pure (RbError.hdrIdNotFound.code, { rb with next := 4096 * home }, data)
      else rbReadLoop id fuel (4096 * home)
        { rb with next := ring.resume k (4 + fragsSize before + fragment.size) } data offset
        size).Exec ring.region memory [] value) :
    (rbReadLoop id (fuel + 1) (4096 * home) rb data offset size).Exec ring.region memory []
      value := by
  have fetched := fetch_fragment on carries inRing cell frags stands
  have moved := rbIncr_fragment on inRing frags
  have test := (wanted_test id fragment).mpr skipped
  simp only [rbReadLoop, headerSize]
  refine FlashProg.Exec.bind_read fetched ?_
  simp only [ne_eq, not_true_eq_false, if_false]
  rw [if_pos test]
  simp only [Fragment.header_len, moved]
  by_cases back : 4096 * home = ring.resume k (4 + fragsSize before + fragment.size)
  · rw [if_pos back] at exec
    rw [if_pos back, ← back]
    exact exec
  · rw [if_neg back] at exec
    rw [if_neg back]
    exact exec

private theorem rbReadLoop_skips (carries : Carries memory ring cells) {next final : Nat}
    (skips : Skips ring cells (fun fragment => ¬Wanted id fragment) (4096 * home) next final)
    (data : Memory) (offset : Nat) :
    ∀ {rb : RbT}, OnRing rb ring → rb.next = next → ∀ {value : Int × RbT × Memory},
      FlashProg.Completes ring.region (fun fuel => rbReadLoop id fuel (4096 * home)
        { rb with next := final } data offset size) memory [] value →
      FlashProg.Completes ring.region (fun fuel => rbReadLoop id fuel (4096 * home) rb data
        offset size) memory [] value := by
  induction skips with
  | refl next =>
      intro rb on equal value completes
      subst equal
      exact completes
  | @step k next final sector before after fragment inRing cell frags stands skipped away _ ih =>
      intro rb on equal value completes
      subst equal
      obtain ⟨bound, rest⟩ := @ih { rb with
        next := ring.resume k (4 + fragsSize before + fragment.size) }
        ⟨on.base_eq, on.bytes_eq⟩ rfl _ completes
      refine FlashProg.Completes.succ ⟨bound, fun fuel enough => ?_⟩
      refine rbReadLoop_step _ on carries inRing cell frags stands skipped fuel data offset ?_
      rw [if_neg (Ne.symm away)]
      exact rest fuel enough

variable (rb) in
/-- Copying a fragment that is wanted. -/
private theorem rbReadLoop_found (on : OnRing rb ring) (carries : Carries memory ring cells)
    {k : Nat} {sector : Sector} {before after : List Fragment} {fragment : Fragment}
    (inRing : k < ring.sectors) (cell : cells k = some sector)
    (frags : sector.frags = before ++ fragment :: after)
    (stands : StandsAt k (4 + fragsSize before) rb.next) (wanted : Wanted id fragment)
    (fuel : Nat) (data : Memory) (offset : Nat) {value : Int × RbT × Memory}
    (exec : (readContinuation (rbReadLoop id fuel) id
      { rb with next := ring.resume k (4 + fragsSize before + fragment.size) }
      (store data offset (fragment.payload.take size)) offset
      (min fragment.payload.length size) (size - min fragment.payload.length size)).Exec
      ring.region memory [] value) (orignext : Nat) :
    (rbReadLoop id (fuel + 1) orignext rb data offset size).Exec ring.region memory []
      value := by
  have fetched := fetch_fragment on carries inRing cell frags stands
  have bound := fragment_offset frags
  have fragSize : fragment.size = 4 + fragment.payload.length := rfl
  have payload := carries.payload inRing cell frags
  have moved := rbIncr_payload on inRing frags
  have address : rb.baseAddress + (4096 * k + (4 + fragsSize before) + 4) =
      ring.sectorAddr k + (4 + fragsSize before) + 4 := by
    rw [on.base_eq, Geometry.sectorAddr]
    omega
  have copied : slice memory (ring.sectorAddr k + (4 + fragsSize before) + 4)
      (min fragment.payload.length size) = fragment.payload.take size := by
    rw [← slice_take memory _ (Nat.min_le_left _ _), payload.slice_eq rfl,
      List.take_eq_take_iff]
    omega
  have copy : (FlashProg.readBytes (ring.sectorAddr k + (4 + fragsSize before) + 4)
      (min fragment.payload.length size)).Exec ring.region memory []
      (fragment.payload.take size) := by
    rw [← copied]
    refine FlashProg.Exec.readBytes fun query touches => ring.region_of_sector inRing ?_
    simp only [Op.Touches] at touches
    omega
  have test : ¬(fragment.header.id ≠ id ∨
      fragment.header.crc &&& rbHeaderNotSmudged = 0) := fun unwanted =>
    (wanted_test id fragment).mp unwanted wanted
  simp only [rbReadLoop, headerSize]
  refine FlashProg.Exec.bind_read fetched ?_
  simp only [ne_eq, not_true_eq_false, if_false]
  rw [if_neg test]
  simp only [Fragment.header_len, address]
  refine FlashProg.Exec.bind_read copy ?_
  rw [moved]
  exact exec

private theorem readContinuation_inside {next : Nat}
    (inside : next % 4096 ≠ 0) (again : Nat → RbT → Memory → Nat → Nat →
      FlashProg (Int × RbT × Memory)) (rb : RbT) (data : Memory)
    (offset readSize remaining : Nat) :
    (readContinuation again id { rb with next } data offset readSize remaining).Exec
      ring.region memory [] ((readSize : Int), { rb with next }, data) := by
  simp only [readContinuation, modSector_eq, if_neg inside]
  exact FlashProg.Exec.pure _

variable (rb) in
private theorem readContinuation_alone (on : OnRing rb ring)
    (carries : Carries memory ring cells) {k cursor : Nat} (inRing : k < ring.sectors)
    (alone : NoContinuation cells id k cursor) (valid : id ≠ 0xff)
    (again : Nat → RbT → Memory → Nat → Nat → FlashProg (Int × RbT × Memory)) (data : Memory)
    (offset readSize remaining : Nat) (next : rb.next = 4096 * k) :
    (readContinuation again id rb data offset readSize remaining).Exec ring.region memory []
      ((readSize : Int), { rb with next := cursor }, data) := by
  have start : rb.next % 4096 = 0 := by omega
  have blankId : ¬(RbHeader.blank.id = id ∧ RbHeader.blank.crc &&& rbHeaderSplit ≠ 0) :=
    fun ⟨equal, _⟩ => valid equal.symm
  simp only [readContinuation, modSector_eq, start, if_true]
  cases alone with
  | erased cell =>
      refine FlashProg.Exec.bind_read (fetch_erased on carries inRing cell next) ?_
      rw [if_neg (by simp), if_neg blankId, ← next]
      exact FlashProg.Exec.pure _
  | @unfilled sector cell empty =>
      have fetched := fetch_standing on carries inRing cell
        (next.symm ▸ StandsAt.start k) (by omega) (by omega)
      rw [headerStatus, carries.unfilled k inRing sector cell empty,
        isHeaderGood_blank] at fetched
      refine FlashProg.Exec.bind_read fetched ?_
      rw [if_neg (by simp), if_neg blankId]
      exact FlashProg.Exec.pure _
  | @other sector fragment after cell frags differs =>
      have fetched := @fetch_fragment _ _ _ _ _ _ on carries inRing cell [] _ _ frags
        (next.symm ▸ StandsAt.start k)
      have test := (continuation_test id fragment).not.mpr differs
      refine FlashProg.Exec.bind_read fetched ?_
      rw [if_neg (by simp), if_neg test]
      exact FlashProg.Exec.pure _

variable (rb) in
private theorem readContinuation_continues (on : OnRing rb ring)
    (carries : Carries memory ring cells) {k : Nat} (inRing : k < ring.sectors)
    {sector : Sector} {fragment : Fragment} {after : List Fragment}
    (cell : cells k = some sector) (frags : sector.frags = fragment :: after)
    (continues : fragment.id = id ∧ fragment.split = true)
    (again : Nat → RbT → Memory → Nat → Nat → FlashProg (Int × RbT × Memory)) (data : Memory)
    (offset readSize remaining : Nat) (next : rb.next = 4096 * k)
    {value : Int × RbT × Memory}
    (exec : (if rbReadRejects { rb with next := 4096 * k + 4 } id remaining then
        Pure.pure ((readSize : Int), { rb with next := 4096 * k + 4 }, data)
      else do
        let (res, rb, data) ← again (4096 * k) { rb with next := 4096 * k + 4 } data
          (offset + readSize) remaining
        return (if res > 0 then (readSize : Int) + res else readSize, rb, data)).Exec
      ring.region memory [] value) :
    (readContinuation again id rb data offset readSize remaining).Exec ring.region memory []
      value := by
  have start : rb.next % 4096 = 0 := by omega
  have fetched := @fetch_fragment _ _ _ _ _ _ on carries inRing cell [] _ _ frags
    (next.symm ▸ StandsAt.start k)
  rw [fragsSize_nil, Nat.add_zero] at fetched
  have home : 4096 * ((4096 * k + 4) / 4096) = 4096 * k := by omega
  have test := (continuation_test id fragment).mpr continues
  simp only [readContinuation, modSector_eq, start, if_true]
  refine FlashProg.Exec.bind_read fetched ?_
  rw [if_neg (by simp), if_pos test]
  simp only [flashSector_eq, home]
  split at exec
  · rw [if_pos ‹_›]
    exact exec
  · rw [if_neg ‹_›]
    exact exec

/-- `ending` is what the header words behind the last fragments say. -/
def EndingsAre (memory : Memory) (ring : Geometry) (cells : Nat → Option Sector)
    (ending : Nat → RbError) : Prop :=
  ∀ k < ring.sectors, ∀ sector, cells k = some sector → sector.isFull = false →
    headerStatus memory (ring.sectorAddr k + sector.used) = ending k

theorem RingHolds.endingsAre (holds : RingHolds memory ring cells) :
    EndingsAre memory ring cells fun _ => .blankHdr := by
  intro k inRing sector cell room
  rw [headerStatus, dataWord_end holds inRing cell room, isHeaderGood_blank]

theorem ReadResult.total (result : ReadResult) (read : Nat)
    (failed : ∀ status, result = .stopped status → status ≠ .ok) :
    (if result.code > 0 then (read : Int) + result.code else read) =
      ((read + result.bytes.length : Nat) : Int) := by
  cases result with
  | stopped status =>
      have negative := RbError.code_neg (failed status rfl)
      rw [ReadResult.code, if_neg (by omega)]
      rfl
  | got bytes =>
      rw [ReadResult.code, ReadResult.bytes]
      split <;> omega

theorem Reads.failed (endings : EndingsAre memory ring cells ending)
    (carries : Carries memory ring cells)
    (reads : Reads ring cells ending id home next size result cursor) :
    ∀ status, result = .stopped status → status ≠ .ok := by
  intro status equal
  subst equal
  cases reads with
  | erased => simp
  | lost => simp
  | @ended _ _ _ k _ sector _ inRing cell room _ =>
      rw [← endings k inRing sector cell room]
      exact carries.ended k inRing sector cell room

/-- The loop of `rb_read` does what `Reads` says. -/
theorem rbReadLoop_completes (carries : Carries memory ring cells)
    (endings : EndingsAre memory ring cells ending) (validId : id ≠ 0xff ∧ id ≠ 0)
    (reads : Reads ring cells ending id home next size result cursor) :
    ∀ {rb : RbT}, OnRing rb ring → rb.next = next → size + 4 ≤ 4096 * ring.sectors →
      ∀ (data : Memory) (offset : Nat), FlashProg.Completes ring.region
        (fun fuel => rbReadLoop id fuel (4096 * home) rb data offset size) memory []
        (result.code, { rb with next := cursor }, store data offset result.bytes) := by
  induction reads with
  | @erased home next size k skips inRing cell =>
      intro rb on equal fits data offset
      refine rbReadLoop_skips carries skips data offset on equal (.once fun fuel => ?_)
      have fetched := @fetch_erased { rb with next := 4096 * k } _ _ _ _ ⟨on.base_eq, on.bytes_eq⟩
        carries inRing cell rfl
      rw [ReadResult.bytes, store_nil]
      exact FlashProg.Exec.bind_read fetched (FlashProg.Exec.pure _)
  | @ended home next size k final sector skips inRing cell room stands =>
      intro rb on equal fits data offset
      refine rbReadLoop_skips carries skips data offset on equal (.once fun fuel => ?_)
      have fetched := fetch_end
        { rb with next := final } ⟨on.base_eq, on.bytes_eq⟩ carries inRing cell room stands
      have failed := carries.ended k inRing sector cell room
      rw [ReadResult.bytes, store_nil, ReadResult.code, ← endings k inRing sector cell room]
      refine FlashProg.Exec.bind_read fetched ?_
      simp only [if_pos failed]
      exact FlashProg.Exec.pure _
  | @lost home next size k final sector before after fragment skips inRing cell frags stands
      skipped back =>
      intro rb on equal fits data offset
      refine rbReadLoop_skips carries skips data offset on equal (.once fun fuel => ?_)
      refine rbReadLoop_step { rb with next := final } ⟨on.base_eq, on.bytes_eq⟩ carries
        inRing cell frags stands skipped fuel data offset ?_
      rw [if_pos back.symm, ReadResult.bytes, store_nil]
      exact FlashProg.Exec.pure _
  | @plain home next size k final sector before after fragment skips inRing cell frags stands
      wanted room =>
      intro rb on equal fits data offset
      have positive := fragment.size_pos
      refine rbReadLoop_skips carries skips data offset on equal (.once fun fuel => ?_)
      refine rbReadLoop_found { rb with next := final } ⟨on.base_eq, on.bytes_eq⟩ carries
        inRing cell frags stands wanted fuel data offset ?_ _
      rw [ring.resume_of_le room, ReadResult.code, List.length_take, Nat.min_comm size]
      exact readContinuation_inside (by omega) _ rb _ _ _ _
  | @last home next size k final cursor sector before after fragment skips inRing cell frags
      stands wanted full alone =>
      intro rb on equal fits data offset
      refine rbReadLoop_skips carries skips data offset on equal (.once fun fuel => ?_)
      refine rbReadLoop_found { rb with next := final } ⟨on.base_eq, on.bytes_eq⟩ carries
        inRing cell frags stands wanted fuel data offset ?_ _
      rw [ring.resume_of_lt full, ReadResult.code, List.length_take, Nat.min_comm size]
      exact readContinuation_alone
        { rb with next := 4096 * ring.succ k } ⟨on.base_eq, on.bytes_eq⟩ carries
        (ring.succ_lt inRing) alone validId.1 _ _ _ _ _ rfl
  | @short home next size k final sector following before after rest fragment continuation skips
      inRing cell frags stands wanted full nextCell nextFrags continues filled =>
      intro rb on equal fits data offset
      refine rbReadLoop_skips carries skips data offset on equal (.once fun fuel => ?_)
      refine rbReadLoop_found { rb with next := final } ⟨on.base_eq, on.bytes_eq⟩ carries
        inRing cell frags stands wanted fuel data offset ?_ _
      rw [ring.resume_of_lt full, ReadResult.code, List.length_take, Nat.min_comm size]
      refine readContinuation_continues
        { rb with next := 4096 * ring.succ k } ⟨on.base_eq, on.bytes_eq⟩ carries
        (ring.succ_lt inRing) nextCell nextFrags continues _ _
        _ _ _ rfl ?_
      rw [if_pos (.inl (by omega))]
      exact FlashProg.Exec.pure _
  | @continued home next size k final cursor sector following before after rest fragment
      continuation result skips inRing cell frags stands wanted full nextCell nextFrags continues
      unfilled more ih =>
      intro rb on equal fits data offset
      have whole : fragment.payload.take size = fragment.payload :=
        List.take_of_length_le (by omega)
      have readSize : min fragment.payload.length size = fragment.payload.length := by omega
      obtain ⟨bound, rest⟩ := @ih { rb with next := 4096 * ring.succ k + 4 }
        ⟨on.base_eq, on.bytes_eq⟩ rfl (by omega) (store data offset fragment.payload)
        (offset + fragment.payload.length)
      have total := result.total fragment.payload.length (more.failed endings carries)
      refine rbReadLoop_skips carries skips data offset on equal
        (.succ ⟨bound, fun fuel enough => ?_⟩)
      refine rbReadLoop_found { rb with next := final } ⟨on.base_eq, on.bytes_eq⟩ carries
        inRing cell frags stands wanted fuel data offset ?_ _
      rw [ring.resume_of_lt full, readSize, whole]
      refine readContinuation_continues
        { rb with next := 4096 * ring.succ k } ⟨on.base_eq, on.bytes_eq⟩ carries
        (ring.succ_lt inRing) nextCell nextFrags continues _ _
        _ _ _ rfl ?_
      rw [if_neg (by
        simp only [rbReadRejects, on.bytes_eq, headerSize]
        rintro (zero | blank | zero | large)
        · omega
        · exact validId.1 blank
        · exact validId.2 zero
        · omega)]
      refine FlashProg.Exec.bind_read (rest fuel enough) ?_
      simp only [total, ReadResult.code_got, ReadResult.bytes_got, List.length_append,
        store_append]
      exact FlashProg.Exec.pure _

/-- Arguments `rb_read` and `rb_find` accept. -/
def ReadFits (ring : Geometry) (id : Byte) (size : Nat) : Prop :=
  0 < size ∧ id ≠ 0xff ∧ id ≠ 0 ∧ size + 4 ≤ 4096 * ring.sectors

theorem rbReadRejects_iff (on : OnRing rb ring) :
    rbReadRejects rb id size ↔ ¬ReadFits ring id size := by
  have := ring.sectors_pos
  simp only [rbReadRejects, ReadFits, on.bytes_eq, headerSize]
  constructor
  · rintro (zero | blank | zero | large) ⟨positive, notBlank, notZero, fits⟩
    · omega
    · exact notBlank blank
    · exact notZero zero
    · omega
  · intro rejected
    by_contra accepted
    simp only [not_or, Nat.not_lt] at accepted
    exact rejected ⟨by omega, accepted.2.1, accepted.2.2.1, by omega⟩

/-- A read runs as `Reads` says. -/
theorem rbRead_completes (on : OnRing rb ring) (carries : Carries memory ring cells)
    (endings : EndingsAre memory ring cells ending) (fits : ReadFits ring id size)
    (reads : Reads ring cells ending id (rb.next / 4096) rb.next size result cursor)
    (data : Memory) :
    FlashProg.Completes ring.region (fun fuel => rbRead fuel rb id data size) memory []
      (result.code, { rb with next := cursor }, store data 0 result.bytes) := by
  have accepted : ¬rbReadRejects rb id size := by
    rw [rbReadRejects_iff on]
    exact not_not_intro fits
  simp only [rbRead, if_neg accepted, flashSector_eq]
  exact rbReadLoop_completes carries endings ⟨fits.2.1, fits.2.2.1⟩ reads on rfl fits.2.2.2
    data 0

/-- A read the interface refuses. -/
theorem rbRead_refused (on : OnRing rb ring) (refused : ¬ReadFits ring id size)
    (data : Memory) :
    FlashProg.Completes ring.region (fun fuel => rbRead fuel rb id data size) memory []
      (RbError.badCallerData.code, rb, data) := by
  refine ⟨0, fun fuel _ => ?_⟩
  simp only [rbRead, if_pos ((rbReadRejects_iff on).mpr refused)]
  exact FlashProg.Exec.pure _

end Read

end PicoApConfigure.RingBuffer
