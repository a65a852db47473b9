import PicoApConfigure.RingBuffer.Append
import PicoApConfigure.RingBuffer.Read
import PicoApConfigure.RingBuffer.Smudge

/-!
# `rb_find` and `rb_delete`

A search reads every record of an identifier and compares it with the caller's
data.  On a ring without a blank header it need not end, so the facts about it are
stated for the accesses it makes and for its result if there is one.
-/

namespace PicoApConfigure.RingBuffer

open Nor

section Search

variable {rb : RbT} {ring : Geometry} {memory : Memory} {cells : Nat → Option Sector}
  {id : Byte}

/-- A control block on the ring, with its cursor at a header position. -/
structure AtCursor (ring : Geometry) (cells : Nat → Option Sector) (index : Nat) (rb : RbT) :
    Prop where
  on : OnRing rb ring
  cursor : Cursor ring cells rb.next
  index_eq : rb.sectorIndex = index

/-- What a fetch at a cursor returns. -/
inductive Fetched (ring : Geometry) (cells : Nat → Option Sector) (rb : RbT) :
    RbError → RbHeader → RbT → Prop
  | stopped {header : RbHeader} {rb' : RbT} (blankId : header.id = 0xff)
      (at' : AtCursor ring cells rb.sectorIndex rb') :
      Fetched ring cells rb .blankHdr header rb'
  | fragment {k : Nat} {sector : Sector} {before after : List Fragment} {fragment : Fragment}
      (inRing : k < ring.sectors) (cell : cells k = some sector)
      (frags : sector.frags = before ++ fragment :: after) :
      Fetched ring cells rb .ok fragment.header
        { rb with next := 4096 * k + (4 + fragsSize before) }

theorem fetch_cursor (on : OnRing rb ring) (holds : RingHolds memory ring cells)
    (cursor : Cursor ring cells rb.next) :
    ∃ status header rb', Fetched ring cells rb status header rb' ∧
      (fetchAndCheckHeader rb 0).Exec ring.region memory [] (status, header, rb') := by
  have carries := holds.carries
  generalize here : rb.next = next at cursor
  cases cursor with
  | @erased k inRing cell =>
      refine ⟨_, _, rb, .stopped rfl ⟨on, ?_, rfl⟩, fetch_erased on carries inRing cell here⟩
      rw [here]
      exact .erased inRing cell
  | @ended k _ sector inRing cell room stands =>
      have fetched := fetch_end _ on carries inRing cell room (here ▸ stands)
      rw [headerStatus, dataWord_end holds inRing cell room, isHeaderGood_blank] at fetched
      exact ⟨_, _, { rb with next := 4096 * k + sector.used }, .stopped rfl
        ⟨⟨on.base_eq, on.bytes_eq⟩, .ended inRing cell room (StandsAt.header _ _), rfl⟩,
        fetched⟩
  | @fragment k _ sector before after fragment inRing cell frags stands =>
      exact ⟨_, _, { rb with next := 4096 * k + (4 + fragsSize before) },
        .fragment inRing cell frags, fetch_fragment on carries inRing cell frags (here ▸ stands)⟩

/-! ## Reading with any amount of fuel -/

/-- What is known after a read: nothing was written, the cursor is at a header position
and the result is not zero. -/
def ReadPost (ring : Geometry) (cells : Nat → Option Sector) (index : Nat) (memory : Memory)
    (result : Int × RbT × Memory) (final : Memory) : Prop :=
  final = memory ∧ AtCursor ring cells index result.2.1 ∧ result.1 ≠ 0

private theorem readContinuation_ensures {again : Nat → RbT → Memory → Nat → Nat →
      FlashProg (Int × RbT × Memory)} {index : Nat}
    (nested : ∀ orignext rb data offset size, AtCursor ring cells index rb → 0 < size →
      (again orignext rb data offset size).Ensures (FlashProg.Inside ring.region)
        (ReadPost ring cells index memory) memory)
    (holds : RingHolds memory ring cells) (at' : AtCursor ring cells index rb)
    (data : Memory) (offset : Nat) {readSize : Nat} (remaining : Nat) (positive : 0 < readSize) :
    (readContinuation again id rb data offset readSize remaining).Ensures
      (FlashProg.Inside ring.region) (ReadPost ring cells index memory) memory := by
  rw [readContinuation]
  split
  · obtain ⟨status, header, rb', fetched, exec⟩ := fetch_cursor at'.on holds at'.cursor
    have after : AtCursor ring cells index rb' := by
      cases fetched with
      | stopped _ after => rw [← at'.index_eq]; exact after
      | fragment inRing cell frags =>
          exact ⟨⟨at'.on.base_eq, at'.on.bytes_eq⟩,
            .fragment inRing cell frags (StandsAt.header _ _), at'.index_eq⟩
    refine exec.bind_ensures ?_
    dsimp only [replay_nil]
    split
    · rename_i bad
      exact ⟨rfl, after, Int.ne_of_lt (RbError.code_neg bad.1)⟩
    · split
      · split
        · exact ⟨rfl, after, by simp only [RbError.code]; omega⟩
        · rename_i accepted
          have unfilled : 0 < remaining := Nat.pos_of_ne_zero fun zero => accepted (.inl zero)
          refine (nested _ _ _ _ _ after unfilled).bind ?_
          rintro result final ⟨same, after', _⟩
          refine ⟨same, after', ?_⟩
          dsimp only
          split <;> omega
      · exact ⟨rfl, after, by omega⟩
  · exact ⟨rfl, at', by omega⟩

theorem rbReadLoop_ensures (holds : RingHolds memory ring cells) (fuel : Nat) :
    ∀ (orignext : Nat) (rb : RbT) (data : Memory) (offset size : Nat) {index : Nat},
      AtCursor ring cells index rb → 0 < size →
      (rbReadLoop id fuel orignext rb data offset size).Ensures (FlashProg.Inside ring.region)
        (ReadPost ring cells index memory) memory := by
  induction fuel with
  | zero => intro _ _ _ _ _ _ _ _; exact trivial
  | succ fuel ih =>
      intro orignext rb data offset size index at' wants
      obtain ⟨status, header, rb', fetched, exec⟩ := fetch_cursor at'.on holds at'.cursor
      simp only [rbReadLoop]
      refine exec.bind_ensures ?_
      cases fetched with
      | stopped _ after =>
          rw [if_pos (by simp)]
          exact ⟨rfl, at'.index_eq ▸ after, by simp [RbError.code]⟩
      | @fragment k sector before after fragment inRing cell frags =>
          have bound := fragment_offset frags
          have size := fragment.size_pos
          have behind := Cursor.behind inRing cell frags
          have moved := rbIncr_fragment at'.on inRing frags
          have payload := rbIncr_payload at'.on inRing frags
          have length : fragment.size = 4 + fragment.payload.length := rfl
          rw [if_neg (by simp)]
          simp only [headerSize, Fragment.header_len, moved]
          split
          · split
            · exact ⟨rfl, ⟨⟨at'.on.base_eq, at'.on.bytes_eq⟩, behind, at'.index_eq⟩,
                by simp [RbError.code]⟩
            · exact ih _ _ _ _ _ ⟨⟨at'.on.base_eq, at'.on.bytes_eq⟩, behind, at'.index_eq⟩ wants
          · refine @FlashProg.Ensures.bind _ _ _ _ _ _ (fun _ final => final = memory) _
              (FlashProg.Ensures.readBytes ?_ rfl) ?_
            · intro query touches
              refine ring.region_of_sector inRing ?_
              have base := at'.on.base_eq
              simp only [Op.Touches] at touches
              simp only [Geometry.sectorAddr]
              omega
            · intro bytes final same
              subst same
              rw [payload]
              have positive := fragment.payload_pos
              refine readContinuation_ensures
                (fun _ _ _ _ _ started wants => ih _ _ _ _ _ started wants) holds ?_ _ _ _
                (by omega)
              exact ⟨⟨at'.on.base_eq, at'.on.bytes_eq⟩, behind, at'.index_eq⟩

variable (rb) (id) in
theorem rbRead_ensures (holds : RingHolds memory ring cells) {index : Nat}
    (at' : AtCursor ring cells index rb) (fuel : Nat) (data : Memory) (size : Nat) :
    (rbRead fuel rb id data size).Ensures (FlashProg.Inside ring.region)
      (ReadPost ring cells index memory) memory := by
  rw [rbRead]
  split
  · exact ⟨rfl, at', by simp [RbError.code]⟩
  · rename_i accepted
    have wants : 0 < size := Nat.pos_of_ne_zero fun zero => accepted (.inl zero)
    exact rbReadLoop_ensures holds fuel _ rb data 0 size at' wants

/-! ## Searching -/

/-- `address` is the header of a fragment that a read for `id` stops at. -/
inductive WantedAt (ring : Geometry) (cells : Nat → Option Sector) (id : Byte) : Nat → Prop
  | mk {k : Nat} {sector : Sector} {before after : List Fragment} {fragment : Fragment}
      (inRing : k < ring.sectors) (cell : cells k = some sector)
      (frags : sector.frags = before ++ fragment :: after) (wanted : Wanted id fragment) :
      WantedAt ring cells id (4096 * k + (4 + fragsSize before))

/-- What is known after a search: a non-negative result is the address of a record of
the identifier. -/
def FindPost (ring : Geometry) (cells : Nat → Option Sector) (id : Byte) (index : Nat)
    (memory : Memory) (result : Int × RbT × Memory) (final : Memory) : Prop :=
  ReadPost ring cells index memory result final ∧
    (0 ≤ result.1 → ∃ address, result.1 = (address : Nat) ∧ WantedAt ring cells id address)

theorem rbFindLoop_ensures (holds : RingHolds memory ring cells) {data : Memory} {size : Nat}
    {index orignext : Nat} (fuel : Nat) :
    ∀ (rb : RbT) (scratch : Memory), AtCursor ring cells index rb →
      (rbFindLoop id data size orignext fuel rb scratch).Ensures
        (FlashProg.Inside ring.region) (FindPost ring cells id index memory) memory := by
  induction fuel with
  | zero => intro _ _ _; exact trivial
  | succ fuel ih =>
      intro rb scratch at'
      obtain ⟨status, header, rb', fetched, exec⟩ := fetch_cursor at'.on holds at'.cursor
      simp only [rbFindLoop]
      refine exec.bind_ensures ?_
      cases fetched with
      | stopped _ after =>
          rw [if_pos (by simp)]
          exact ⟨⟨rfl, at'.index_eq ▸ after, by simp [RbError.code]⟩, by simp [RbError.code]⟩
      | @fragment k sector before after fragment inRing cell frags =>
          have behind := Cursor.behind inRing cell frags
          have moved := rbIncr_fragment at'.on inRing frags
          have here : Cursor ring cells (4096 * k + (4 + fragsSize before)) :=
            .fragment inRing cell frags (StandsAt.header _ _)
          rw [if_neg (by simp)]
          simp only [headerSize, Fragment.header_len, moved]
          split
          · split
            · exact ⟨⟨rfl, ⟨⟨at'.on.base_eq, at'.on.bytes_eq⟩, behind, at'.index_eq⟩,
                by simp [RbError.code]⟩, by simp [RbError.code]⟩
            · exact ih _ _ ⟨⟨at'.on.base_eq, at'.on.bytes_eq⟩, behind, at'.index_eq⟩
          · rename_i match'
            have wanted : Wanted id fragment :=
              not_not.mp fun unwanted => match' ((wanted_test id fragment).mpr unwanted)
            have read := rbRead_ensures
              { rb with next := 4096 * k + (4 + fragsSize before) } id holds
              ⟨⟨at'.on.base_eq, at'.on.bytes_eq⟩, here, at'.index_eq⟩ fuel scratch size
            refine read.bind ?_
            rintro result final ⟨same, after, nonzero⟩
            subst same
            split
            · split
              · exact ⟨⟨rfl, after, by dsimp only; omega⟩,
                  fun _ => ⟨_, rfl, .mk inRing cell frags wanted⟩⟩
              · exact ih _ _ after
            · exact ⟨⟨rfl, after, nonzero⟩, fun found => absurd found (by dsimp only; omega)⟩

variable (rb) (id) in
theorem rbFind_ensures (holds : RingHolds memory ring cells) {index : Nat}
    (at' : AtCursor ring cells index rb) (fuel : Nat) (data : Memory) (size : Nat)
    (scratch : Memory) :
    (rbFind fuel rb id data size scratch).Ensures (FlashProg.Inside ring.region)
      (FindPost ring cells id index memory) memory := by
  rw [rbFind]
  split
  · exact ⟨⟨rfl, at', by simp [RbError.code]⟩, by simp [RbError.code]⟩
  · exact rbFindLoop_ensures holds fuel rb scratch at'

/-! ## Deleting -/

/-- What is known after a deletion: at most one fragment was smudged, and the cursor is
where it was or, when the first sector is blank, at the oldest sector. -/
structure DeletePost (ring : Geometry) (cells : Nat → Option Sector) (rb : RbT)
    (memory : Memory) (result : Int × RbT) (final : Memory) : Prop where
  on : OnRing result.2 ring
  next : result.2.next = rb.next ∨ result.2.next = 4096 * oldest ring cells
  index : result.2.sectorIndex = rb.sectorIndex ∨
    result.2.sectorIndex = topOf ring cells rb.sectorIndex
  contents : final = memory ∨
    ∃ changed, Smudges ring cells changed ∧ RingHolds final ring changed

theorem rbDelete_ensures (on : OnRing rb ring) (holds : RingHolds memory ring cells)
    (fuel : Nat) (data : Memory) (size : Nat) (pagebuffer : Memory) :
    (rbDelete fuel rb id data size pagebuffer).Ensures (FlashProg.Inside ring.region)
      (DeletePost ring cells rb memory) memory := by
  rw [rbDelete]
  split
  · exact ⟨on, .inl rfl, .inl rfl, .inl rfl⟩
  have inRing := oldest_lt ring cells
  have found := @findOldest_exec { rb with rbPage := pagebuffer } _ _ _ ⟨on.base_eq, on.bytes_eq⟩
    holds
  refine found.bind_ensures ?_
  dsimp only [replay_nil]
  split
  · exact ⟨⟨on.base_eq, on.bytes_eq⟩, .inr rfl, .inr rfl, .inl rfl⟩
  have searched := rbFind_ensures { rb with
    next := 4096 * oldest ring cells
    sectorIndex := topOf ring cells rb.sectorIndex
    rbPage := pagebuffer } id holds
    ⟨⟨on.base_eq, on.bytes_eq⟩, Cursor.start inRing, rfl⟩ fuel data size pagebuffer
  refine searched.bind ?_
  rintro result final ⟨⟨same, after, _⟩, place⟩
  subst same
  split
  · exact ⟨⟨after.on.base_eq, after.on.bytes_eq⟩, .inl rfl, .inr after.index_eq, .inl rfl⟩
  obtain ⟨address, equal, wantedAt⟩ := place (by omega)
  obtain ⟨inRing', cell, frags, wanted⟩ := wantedAt
  obtain ⟨rb', on', next, index, exec⟩ := rbSmudge_exec
    { result.2.1 with rbPage := result.2.2 } ⟨after.on.base_eq, after.on.bytes_eq⟩ holds inRing'
    cell frags
  rw [equal, Int.toNat_natCast]
  refine exec.bind_ensures ?_
  refine ⟨⟨on'.base_eq, on'.bytes_eq⟩, .inl rfl, .inr (index.trans after.index_eq), .inr ?_⟩
  refine ⟨_, .mk inRing' cell frags, ?_⟩
  rw [replay_pageWrites (by decide)]
  have smudged := holds.smudge inRing' cell frags
  rwa [Geometry.sectorAddr, Nat.add_assoc, Nat.add_assoc, Nat.add_assoc] at smudged

end Search

end PicoApConfigure.RingBuffer
