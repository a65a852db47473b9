import PicoApConfigure.RingBuffer.AddedHeaders

/-!
# Reading less than a record

`rb_read` skips what it does not copy of the piece it is in.  When the buffer is full at the
end of the first piece, the nested call for the continuation is refused, and the cursor
stays in front of the continuation.
-/

namespace PicoApConfigure.RingBuffer

open Nor

/-- A live record with its first header at the cursor `next`: the fragment there, the bytes
of the continuation and the header position behind the record.  The first header does not
say whether a continuation in the next sector belongs to it, so such a fragment is a record
both with and without the continuation. -/
inductive LiveRecord (ring : Geometry) (cells : Nat → Option Sector) (next : Nat) :
    (head : Fragment) → (continued : List Byte) → (behind : Nat) → Prop
  | whole {k : Nat} {sector : Sector} {before after : List Fragment} {head : Fragment}
      (inRing : k < ring.sectors) (cell : cells k = some sector)
      (frags : sector.frags = before ++ head :: after)
      (stands : StandsAt k (4 + fragsSize before) next) (starts : head.split = false)
      (live : head.live = true) :
      LiveRecord ring cells next head [] (ring.resume k (4 + fragsSize before + head.size))
  | pieces {k : Nat} {sector following : Sector} {before after rest : List Fragment}
      {head tail : Fragment} (inRing : k < ring.sectors) (cell : cells k = some sector)
      (frags : sector.frags = before ++ head :: after)
      (stands : StandsAt k (4 + fragsSize before) next) (starts : head.split = false)
      (live : head.live = true) (full : 4091 < 4 + fragsSize before + head.size)
      (nextCell : cells (ring.succ k) = some following)
      (nextFrags : following.frags = tail :: rest) (tailId : tail.id = head.id)
      (tailSplit : tail.split = true) (tailLive : tail.live = true) :
      LiveRecord ring cells next head tail.payload
        (ring.resume (ring.succ k) (4 + tail.size))

/-- The cursor is at the header position `behind`.  At the start of a sector it may have
passed the sector header. -/
def OnHeader (behind next : Nat) : Prop :=
  next = behind ∨ (behind % 4096 = 0 ∧ next = behind + 4)

/-- A read of `size` bytes of a record returns and delivers its first `size` bytes and goes
behind the record.  It leaves the same control block as a read of the whole record, so
every later call does the same after either. -/
def ConsumesRecord (ring : Geometry) (memory : Memory) (rb : RbT) (id : Byte)
    (record : List Byte) (behind size : Nat) : Prop :=
  ∃ cursor, OnHeader behind cursor ∧ ∀ asked, asked = size ∨ asked = record.length →
    ∀ data, FlashProg.Completes ring.region (fun fuel => rbRead fuel rb id data asked) memory []
      ((asked : Int), { rb with next := cursor }, store data 0 (record.take asked))

section ShortRead

variable {ring : Geometry} {memory : Memory} {cells : Nat → Option Sector} {rb : RbT}
  {id : Byte} {next behind size cursor : Nat} {head : Fragment} {continued : List Byte}

/-- Without a continuation, a read of one piece stops at the next header whatever the size. -/
theorem Reads.piece (ending : Nat → RbError) {k home : Nat} {sector : Sector}
    {before after : List Fragment} {fragment : Fragment} (inRing : k < ring.sectors)
    (cell : cells k = some sector) (frags : sector.frags = before ++ fragment :: after)
    (stands : StandsAt k (4 + fragsSize before) next) (live : fragment.live = true) :
    ∃ cursor, OnHeader (ring.resume k (4 + fragsSize before + fragment.size)) cursor ∧
      ∀ size ≤ fragment.payload.length,
        Reads ring cells ending fragment.id home next size (.got (fragment.payload.take size))
          cursor := by
  have wanted : Wanted fragment.id fragment := ⟨rfl, live⟩
  by_cases room : 4 + fragsSize before + fragment.size ≤ 4091
  · rw [ring.resume_of_le room]
    exact ⟨_, .inl rfl, fun size _ => .plain (.refl _) inRing cell frags stands wanted room⟩
  have full : 4091 < 4 + fragsSize before + fragment.size := by omega
  rw [ring.resume_of_lt full]
  rcases noContinuation_or cells fragment.id (ring.succ k) with
    ⟨cursor, alone⟩ | ⟨following, continuation, rest, nextCell, nextFrags, continues⟩
  · refine ⟨cursor, ?_, fun size _ =>
      .last (.refl _) inRing cell frags stands wanted full alone⟩
    have start : 4096 * ring.succ k % 4096 = 0 := Nat.mul_mod_right _ _
    cases alone with
    | erased => exact .inl rfl
    | unfilled => exact .inr ⟨start, rfl⟩
    | other => exact .inr ⟨start, rfl⟩
  · exact ⟨_, .inr ⟨Nat.mul_mod_right _ _, rfl⟩, fun size filled =>
      .short (.refl _) inRing cell frags stands wanted full nextCell nextFrags continues filled⟩

/-- Two pieces of one sector share it. -/
theorem pieces_share {sector : Sector} {before after rest : List Fragment} {head tail : Fragment}
    (frags : sector.frags = before ++ head :: after) (firstFrags : sector.frags = tail :: rest)
    (starts : head.split = false) (tailSplit : tail.split = true) :
    4 + tail.size + head.size ≤ 4096 := by
  have bound := fragment_offset frags
  rw [firstFrags] at frags
  cases before with
  | nil =>
      rw [List.nil_append, List.cons.injEq] at frags
      rw [frags.1, starts] at tailSplit
      cases tailSplit
  | cons first before =>
      rw [List.cons_append, List.cons.injEq] at frags
      rw [← frags.1, fragsSize_cons] at bound
      omega

theorem Geometry.succ_eq_self {k : Nat} (inRing : k < ring.sectors) (same : ring.succ k = k) :
    ring.sectors = 1 := by
  rcases ring.succ_cases inRing with ⟨_, wraps⟩ | ⟨_, next⟩ <;> omega

/-- The size of a record leaves room for its header in the ring. -/
theorem LiveRecord.fits (record : LiveRecord ring cells next head continued behind) :
    head.payload.length + continued.length + 4 ≤ 4096 * ring.sectors := by
  have headShort := head.payload_le
  cases record with
  | whole inRing =>
      simp only [List.length_nil]
      omega
  | @pieces k sector following before after rest _ tail inRing cell frags _ starts _ _ nextCell
      nextFrags _ tailSplit _ =>
      have tailShort := tail.payload_le
      by_cases same : ring.succ k = k
      · rw [same, cell, Option.some.injEq] at nextCell
        subst nextCell
        have share := pieces_share frags nextFrags starts tailSplit
        simp only [Fragment.size] at share
        omega
      · have := ring.succ_lt inRing
        omega

/-- What a read of up to the size of the record returns, and that it goes behind the record
when it gets into the continuation. -/
theorem LiveRecord.consumes (record : LiveRecord ring cells next head continued behind)
    (ending : Nat → RbError) (home : Nat) :
    ∃ cursor, OnHeader behind cursor ∧
      ∀ size ≤ head.payload.length + continued.length,
        (continued = [] ∨ head.payload.length < size) →
        Reads ring cells ending head.id home next size
          (.got ((head.payload ++ continued).take size)) cursor := by
  cases record with
  | whole inRing cell frags stands _ live =>
      obtain ⟨cursor, behind, reads⟩ := Reads.piece ending inRing cell frags stands live
      refine ⟨cursor, behind, fun size bound _ => ?_⟩
      rw [List.append_nil]
      exact reads size bound
  | @pieces k sector following before after rest _ tail inRing cell frags stands _ live full
      nextCell nextFrags tailId tailSplit tailLive =>
      obtain ⟨cursor, behind, reads⟩ := @Reads.piece ring cells _ ending _ (ring.succ k) _ [] rest
        tail (ring.succ_lt inRing) nextCell nextFrags (StandsAt.header (ring.succ k) 4) tailLive
      refine ⟨cursor, behind, fun size bound long => ?_⟩
      have unfilled : head.payload.length < size := by
        rcases long with empty | unfilled
        · exact absurd empty (List.ne_nil_of_length_pos tail.payload_pos)
        · exact unfilled
      have more := reads (size - head.payload.length) (by omega)
      rw [tailId] at more
      have taken : (head.payload ++ tail.payload).take size =
          head.payload ++ (ReadResult.got (tail.payload.take
            (size - head.payload.length))).bytes := by
        rw [ReadResult.bytes_got, List.take_append, List.take_of_length_le (by omega)]
      rw [taken]
      exact .continued (.refl _) inRing cell frags stands ⟨rfl, live⟩ full nextCell nextFrags
        ⟨tailId, tailSplit⟩ unfilled more

/-- A read that fills the buffer with the first piece stops in front of the continuation. -/
theorem LiveRecord.stops (record : LiveRecord ring cells next head continued behind)
    (ending : Nat → RbError) (home : Nat) (split : continued ≠ [])
    (filled : size ≤ head.payload.length) :
    ∃ cursor, ¬OnHeader behind cursor ∧
      Reads ring cells ending head.id home next size (.got (head.payload.take size))
        cursor := by
  cases record with
  | whole => exact absurd rfl split
  | @pieces k sector following before after rest _ tail inRing cell frags stands starts live full
      nextCell nextFrags tailId tailSplit _ =>
      refine ⟨_, ?_, .short (.refl _) inRing cell frags stands ⟨rfl, live⟩ full nextCell nextFrags
        ⟨tailId, tailSplit⟩ filled⟩
      have positive := tail.size_pos
      by_cases room : 4 + tail.size ≤ 4091
      · rw [ring.resume_of_le room, OnHeader]
        omega
      have apart : ring.succ (ring.succ k) ≠ ring.succ k := by
        intro same
        have one := ring.succ_eq_self (ring.succ_lt inRing) same
        have inRing' := ring.succ_lt inRing
        rw [show ring.succ k = k by omega, cell, Option.some.injEq] at nextCell
        subst nextCell
        have share := pieces_share frags nextFrags starts tailSplit
        have headPositive := head.size_pos
        omega
      rw [ring.resume_of_lt (by omega), OnHeader]
      omega

/-- `rb_read` does what a read of a record does. -/
theorem rbRead_record (on : OnRing rb ring) (holds : RingHolds memory ring cells)
    {record : List Byte} (fits : ReadFits ring id size)
    (reads : Reads ring cells (fun _ => .blankHdr) id (next / 4096) next size
      (.got (record.take size)) cursor) (bound : size ≤ record.length) (data : Memory) :
    FlashProg.Completes ring.region (fun fuel => rbRead fuel { rb with next } id data size)
      memory [] ((size : Int), { rb with next := cursor }, store data 0 (record.take size)) := by
  have completes := @rbRead_completes _ _ _ _ _ _ _ { rb with next } _
    ⟨on.base_eq, on.bytes_eq⟩ holds.carries holds.endingsAre fits reads data
  rwa [ReadResult.code_got, ReadResult.bytes_got, List.length_take,
    Nat.min_eq_left bound] at completes

/-- On a formed ring a short read goes behind the record, unless it fills the buffer with the
first of two pieces.  Records with the id 0 cannot be read. -/
theorem LiveRecord.consumes_iff (on : OnRing rb ring) (holds : RingHolds memory ring cells)
    (record : LiveRecord ring cells next head continued behind) (positive : 0 < size)
    (bound : size ≤ head.payload.length + continued.length) :
    ConsumesRecord ring memory { rb with next } head.id (head.payload ++ continued) behind
        size ↔
      head.id ≠ 0 ∧ (continued = [] ∨ head.payload.length < size) := by
  have room := record.fits
  have length : (head.payload ++ continued).length = head.payload.length + continued.length :=
    List.length_append
  constructor
  · rintro ⟨cursor, onHeader, completes⟩
    by_cases zero : head.id = 0
    · have refused := @rbRead_refused _ _ _ { rb with next } memory ⟨on.base_eq, on.bytes_eq⟩
        (fun fits : ReadFits ring head.id size => fits.2.2.1 zero) (fun _ => 0)
      have same := ((completes size (.inl rfl) fun _ => 0).unique refused).2
      have code := congrArg Prod.fst same
      simp only [RbError.code] at code
      omega
    · refine ⟨zero, ?_⟩
      by_contra short
      simp only [not_or, Nat.not_lt] at short
      obtain ⟨stopped, away, reads⟩ := record.stops (fun _ => .blankHdr) (next / 4096) short.1
        short.2
      have ran := rbRead_record on holds ⟨positive, head.id_ne, zero, by omega⟩ reads short.2
        (fun _ => 0)
      have same := ((completes size (.inl rfl) fun _ => 0).unique ran).2
      have cursors : cursor = stopped := congrArg (fun value => value.2.1.next) same
      exact away (cursors ▸ onHeader)
  · rintro ⟨notZero, long⟩
    obtain ⟨cursor, onHeader, reads⟩ := record.consumes (fun _ => .blankHdr) (next / 4096)
    refine ⟨cursor, onHeader, fun asked choice data => ?_⟩
    have accepted : asked ≤ head.payload.length + continued.length ∧ 0 < asked ∧
        (continued = [] ∨ head.payload.length < asked) := by
      rcases choice with rfl | rfl
      · exact ⟨bound, positive, long⟩
      · refine ⟨length.le, by omega, ?_⟩
        rcases long with empty | beyond
        · exact .inl empty
        · exact .inr (by omega)
    exact rbRead_record on holds ⟨accepted.2.1, head.id_ne, notZero, by omega⟩
      (reads asked accepted.1 accepted.2.2) (by omega) data

end ShortRead

/-- Every reachable ring carries records, and a short read of one of them consumes it unless
it ends with the first of two pieces. -/
theorem short_read_consumes_iff {ring : Geometry} {first device : Device} {events : List Event}
    (started : Started ring first) (run : Run (Step ring) first events device) :
    (∃ cells, RingHolds device.memory ring cells) ∧
      ∀ cells, RingHolds device.memory ring cells → ∀ next head continued behind,
        LiveRecord ring cells next head continued behind → ∀ size, 0 < size →
        size ≤ (head.payload ++ continued).length →
        (ConsumesRecord ring device.memory { device.rb with next } head.id
            (head.payload ++ continued) behind size ↔
          head.id ≠ 0 ∧ (continued = [] ∨ head.payload.length < size)) := by
  obtain ⟨cells, formed⟩ := started.formed.run run
  refine ⟨⟨cells, formed.holds⟩, ?_⟩
  intro cells holds next head continued behind record size positive bound
  rw [List.length_append] at bound
  exact record.consumes_iff formed.on holds positive bound

theorem short_read_consumes_first : ∃ events device behind,
    Run (Step pairRing) (Device.blank pairRing) events device ∧
    ConsumesRecord pairRing device.memory { device.rb with next := 4 } 1
      (((zeroRequest 4000 (by decide)).whole (by decide)).payload ++ []) behind 10 := by
  obtain ⟨written, device, one, formed, -⟩ := first_append
  have record := @LiveRecord.whole pairRing oneRecordCells 4 0 _ [] [] _ (by decide)
    (setCell_self _ _ _) rfl (.inl rfl) rfl rfl
  have consumes := (short_read_consumes_iff (@started_blank pairRing (by decide))
    (.snoc .nil one)).2 oneRecordCells formed.holds _ _ _ _ record 10 (by decide) (by
      rw [List.append_nil, Request.whole, Request.piece, slice_length, zeroRequest]
      decide)
  exact ⟨_, device, _, .snoc .nil one, consumes.mpr ⟨by decide, .inl rfl⟩⟩

/-- A record of 100 bytes behind that of `first_append`. -/
private theorem two_pieces_live (index : Nat)
    (fits : (Sector.single 1 ((zeroRequest 4000 (by decide)).whole (by decide))).used +
      ((zeroRequest 100 (by decide)).head 84 (by decide) (by decide)).size ≤ 4096) :
    ∃ next behind, LiveRecord pairRing
      (setCell (setCell oneRecordCells 0
          (some ((Sector.single 1 ((zeroRequest 4000 (by decide)).whole (by decide))).push
            ((zeroRequest 100 (by decide)).head 84 (by decide) (by decide)) fits)))
        (pairRing.succ 0) (some (Sector.single index
          ((zeroRequest 100 (by decide)).tail 16 (by decide) (by decide))))) next
      ((zeroRequest 100 (by decide)).head 84 (by decide) (by decide))
      ((zeroRequest 100 (by decide)).tail 16 (by decide) (by decide)).payload behind :=
  ⟨_, _, .pieces (k := 0) (by decide)
    ((setCell_of_ne _ _ (by decide)).trans (setCell_self _ _ _)) rfl (StandsAt.header 0 _) rfl
    rfl (by simp [Fragment.size, Sector.single, Request.head, Request.whole, Request.piece,
      zeroRequest])
    (setCell_self _ _ _) rfl rfl rfl rfl⟩

/-- A record of 100 bytes with 84 of them in the first sector: a read of 84 bytes stays in front
of the other 16. -/
theorem short_read_stays : ∃ events device cells next head continued behind size,
    Run (Step pairRing) (Device.blank pairRing) events device ∧
    RingHolds device.memory pairRing cells ∧
    LiveRecord pairRing cells next head continued behind ∧ 0 < size ∧
    size ≤ (head.payload ++ continued).length ∧
    ¬ConsumesRecord pairRing device.memory { device.rb with next } head.id
      (head.payload ++ continued) behind size := by
  obtain ⟨written, device, one, formed, -⟩ := first_append
  have cell : oneRecordCells 0 =
      some (Sector.single 1 ((zeroRequest 4000 (by decide)).whole (by decide))) :=
    setCell_self _ _ _
  have used := oneRecord_used _ cell
  have places := @Places.split pairRing _ 0 (zeroRequest 100 (by decide))
    (topOf pairRing oneRecordCells device.rb.sectorIndex) _ (by decide) cell (by rw [used]; decide)
    rfl
    84 16 rfl (by rw [used]) (by decide) (by decide) (by decide) (by decide)
    (by rw [used]; simp [Fragment.size, Request.head, Request.piece])
  obtain ⟨after, step, formedAfter, -⟩ := formed.append_step
    ((zeroRequest 100 (by decide)).fits_of_short pairRing (by decide))
    (.placed oneRecord_frontier places fun _ => rfl) fun _ => 0
  obtain ⟨next, behind, record⟩ := two_pieces_live
    (nextIndex (topOf pairRing oneRecordCells device.rb.sectorIndex))
    (by rw [used]; simp [Fragment.size, Request.head, Request.piece])
  have iff := (short_read_consumes_iff (@started_blank pairRing (by decide))
    (.snoc (.snoc .nil one) step)).2 _ formedAfter.holds _ _ _ _ record 84 (by decide) (by
      simp [Request.head, Request.tail, Request.piece])
  refine ⟨_, after, _, _, _, _, _, 84, .snoc (.snoc .nil one) step, formedAfter.holds, record,
    by decide, by simp [Request.head, Request.tail, Request.piece], ?_⟩
  rw [iff]
  rintro ⟨-, empty | long⟩
  · have length := congrArg List.length empty
    simp [Request.tail, Request.piece] at length
  · simp [Request.head, Request.piece] at long

end PicoApConfigure.RingBuffer
