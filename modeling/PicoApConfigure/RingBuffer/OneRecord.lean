import PicoApConfigure.RingBuffer.Chronicles
import PicoApConfigure.RingBuffer.Encounter

/-!
# Reads of one record

A read that fills its buffer with more than one fragment takes the one at the start of the next
sector for the second piece by its flag and id.  Within the log that is so, as only the second piece
of a record is flagged and stands behind the first.  Around the end of a full ring the next sector
is the oldest one, which may begin with what an erase has left of another record.
-/

namespace PicoApConfigure.RingBuffer

open Nor

/-- The bytes are those of a record of `id` that was appended. -/
def IsRecord (events : List Event) (id : Byte) (bytes : List Byte) : Prop :=
  ∃ event ∈ events, event.result = RbError.ok.code ∧ event.record id = some bytes

/-- The bytes are the rest of such a record, with which the oldest sector begins: the sector with
the first piece is erased. -/
def IsRemainder (ring : Geometry) (memory : Memory) (events : List Event) (id : Byte)
    (bytes : List Byte) : Prop :=
  (∃ record first, IsRecord events id record ∧ 0 < first ∧ first < record.length ∧
    bytes = record.drop first) ∧
  ∀ cells start log, RingHolds memory ring cells → Ordered ring cells start log →
    ∃ mark rest, tape log = mark :: rest ∧ mark.fragment.id = id ∧ mark.fragment.split = true ∧
      mark.fragment.payload = bytes

/-- A walk from `next` comes to a live fragment of `id` in sector `k` behind `before`. -/
def ComesTo (ring : Geometry) (cells : Nat → Option Sector) (id : Byte) (next k : Nat)
    (before : List Fragment) (fragment : Fragment) : Prop :=
  ∃ final sector after, Skips ring cells (fun fragment => ¬Wanted id fragment)
      (4096 * (next / 4096)) next final ∧
    k < ring.sectors ∧ cells k = some sector ∧ sector.frags = before ++ fragment :: after ∧
    StandsAt k (4 + fragsSize before) final ∧ Wanted id fragment

/-- The record that begins with `mark` ends with the tape, at the end of its sector. -/
def ClosesTape (mark : Mark) (rest : List Mark) : Prop :=
  (rest = [] ∧ mark.closes = true) ∨
    ∃ tail, rest = [tail] ∧ continuation mark rest = some tail.fragment ∧ tail.closes = true

/-- The fragment that a read from `next` comes to is not the second piece of a record that is there
as a whole, and where its record leaves room in the buffer it is not followed around the end of the
ring by what is left of another one of the same id. -/
def ReadsApart (ring : Geometry) (memory : Memory) (id : Byte) (next size : Nat) : Prop :=
  ∀ cells start log older sector newer before after mark rest, RingHolds memory ring cells →
    Ordered ring cells start log → Spot log older sector newer before after mark rest →
    ComesTo ring cells id next (ring.ahead start older.length) before mark.fragment →
    (mark.fragment.split = false ∨ mark :: rest = tape log) ∧
      (log.length = ring.sectors → ClosesTape mark rest → (recordBytes mark rest).length < size →
        continues id (tape log) = false)

/-- The entry is a whole record that an append of `events` has stored. -/
inductive KeptFrom (events : List Event) (entry : Entry) : Prop
  | mk {request : Request} {offset : Option Nat}
      (appended : IsRecord events request.id request.record) (short : request.size ≤ 4088)
      (stored : Stored request offset entry)
      (whole : StoresWhole offset request.data request.size)

section OneRecord

variable {ring : Geometry} {memory : Memory} {cells : Nat → Option Sector} {start : Nat}
  {log older newer : List Sector} {sector : Sector} {before after : List Fragment}
  {mark tail : Mark} {rest : List Mark} {id : Byte} {events : List Event} {entry : Entry}
  {device first : Device} {event : Event}

/-! ## Runs -/

theorem IsRecord.append {bytes : List Byte} (known : IsRecord events id bytes) (event : Event) :
    IsRecord (events ++ [event]) id bytes := by
  obtain ⟨other, member, succeeds, record⟩ := known
  exact ⟨other, by simp [member], succeeds, record⟩

theorem KeptFrom.append (kept : KeptFrom events entry) (event : Event) :
    KeptFrom (events ++ [event]) entry := by
  obtain ⟨appended, short, stored, whole⟩ := kept
  exact .mk (appended.append event) short stored whole

/-- Behind a fragment that closes its sector and is not the last one the next sector goes on. -/
theorem Spot.next (laid : Laid ring cells start log)
    (spot : Spot log older sector newer before after mark (tail :: rest))
    (closes : mark.closes = true) :
    ∃ following newer' behind, newer = following :: newer' ∧
      Spot log (older ++ [sector]) following newer' [] behind tail rest := by
  have offset := fragment_offset spot.frags
  have full := spot.closes
  rw [closes, eq_comm, decide_eq_true_eq] at full
  have alone : after = [] := by
    cases after with
    | nil => rfl
    | cons other after =>
        have size := sector.fits
        have positive := other.size_pos
        simp only [spot.frags, fragsSize_append, fragsSize_cons] at size
        omega
  have equal := spot.equal
  rw [alone, marks, List.nil_append] at equal
  cases newer with
  | nil => cases equal
  | cons following newer =>
      have member : following ∈ log := by
        rw [spot.split]
        simp
      obtain ⟨fragment, behind, frags⟩ :=
        List.exists_cons_of_ne_nil (laid.nonempty following member)
      rw [tape_cons, frags, marks, List.cons_append, List.cons.injEq] at equal
      obtain ⟨rfl, rfl⟩ := equal
      exact ⟨following, newer, behind, rfl, by rw [spot.split, List.append_assoc]; rfl, frags, rfl,
        rfl⟩

/-- Nothing in the next sector goes on with a record that is not continued on the tape, or around
the end of a full ring. -/
theorem Spot.noContinuation (laid : Laid ring cells start log)
    (spot : Spot log older sector newer before after mark rest) (closes : mark.closes = true)
    (alone : continues id rest = false)
    (around : log.length = ring.sectors → rest = [] → continues id (tape log) = false) :
    ∃ cursor, NoContinuation cells id (ring.succ (ring.ahead start older.length)) cursor := by
  refine (noContinuation_or cells id _).resolve_right ?_
  rintro ⟨following, fragment, behind, cell, frags, same, split⟩
  have length := laid.length_le
  rw [spot.split, List.length_append, List.length_cons] at length
  rw [ring.ahead_succ _ laid.start_lt (by omega)] at cell
  cases rest with
  | cons tail rest =>
      obtain ⟨other, newer', _, rfl, spot'⟩ := spot.next laid closes
      have entry := spot'.entry
      rw [List.length_append, List.length_singleton] at entry
      rw [laid.cell _ (by simp only [List.length_cons] at length; omega), entry,
        Option.some.injEq] at cell
      have first := spot'.frags
      rw [cell, frags, List.nil_append, List.cons.injEq] at first
      rw [continues, ← first.1, same, split] at alone
      simp at alone
  | nil =>
      have last : newer = [] := by
        cases newer with
        | nil => rfl
        | cons other newer =>
            have member : other ∈ log := by
              rw [spot.split]
              simp
            obtain ⟨_, empty⟩ := List.append_eq_nil_iff.mp spot.equal.symm
            rw [tape_cons, List.append_eq_nil_iff] at empty
            exact absurd (marks_eq_nil empty.1) (laid.nonempty other member)
      have used : log.length = older.length + 1 := by rw [spot.split, last]; simp
      by_cases free : older.length + 1 < ring.sectors
      · rw [laid.cell _ free, List.getElem?_eq_none (by omega)] at cell
        cases cell
      · -- around the end of the ring
        have all : log.length = ring.sectors := by have := laid.length_le; omega
        have begins := laid.cell 0 ring.sectors_pos
        rw [ring.ahead_zero laid.start_lt] at begins
        rw [← used, all, ring.ahead_all, begins] at cell
        have onward := around all rfl
        have whole := tape_drop cell
        rw [List.drop_zero, frags, marks, List.cons_append] at whole
        rw [whole, continues, same, split] at onward
        simp at onward

/-! ## Reads of an entry -/

/-- A read of a fragment that nothing goes on with, unless the buffer is full. -/
theorem Reads.alone {ending : Nat → RbError} {home next final size k : Nat} {fragment : Fragment}
    (skips : Skips ring cells (fun fragment => ¬Wanted id fragment) (4096 * home) next final)
    (inRing : k < ring.sectors) (cell : cells k = some sector)
    (frags : sector.frags = before ++ fragment :: after)
    (stands : StandsAt k (4 + fragsSize before) final) (wanted : Wanted id fragment)
    (alone : 4091 < 4 + fragsSize before + fragment.size → fragment.payload.length < size →
      ∃ cursor, NoContinuation cells id (ring.succ k) cursor) :
    ∃ cursor, Reads ring cells ending id home next size (.got (fragment.payload.take size))
      cursor := by
  by_cases room : 4 + fragsSize before + fragment.size ≤ 4091
  · exact ⟨_, .plain skips inRing cell frags stands wanted room⟩
  · rcases noContinuation_or cells id (ring.succ k) with
      ⟨cursor, none⟩ | ⟨following, other, behind, nextCell, nextFrags, goesOn⟩
    · exact ⟨cursor, .last skips inRing cell frags stands wanted (by omega) none⟩
    · by_cases filled : size ≤ fragment.payload.length
      · exact ⟨_, .short skips inRing cell frags stands wanted (by omega) nextCell nextFrags goesOn
          filled⟩
      · obtain ⟨cursor, none⟩ := alone (by omega) (by omega)
        exact ⟨cursor, .last skips inRing cell frags stands wanted (by omega) none⟩

theorem KeptFrom.content (kept : KeptFrom events entry) (sameId : entry.first.id = id) :
    IsRecord events id entry.content ∧ entry.content.length ≤ 4088 := by
  obtain ⟨appended, short, stored, whole⟩ := kept
  rw [stored.content_iff.mpr whole, ← sameId, stored.wanted.1]
  exact ⟨appended, by rw [Request.record, slice_length]; exact short⟩

theorem KeptFrom.formed (kept : KeptFrom events entry) : entry.Formed := by
  obtain ⟨_, _, stored, _⟩ := kept
  exact stored.formed

/-- A read that comes to a fragment of the log gets one record, or the rest of one. -/
theorem Chronicled.reads {entries : List Entry} {next final size : Nat}
    (chronicled : Chronicled ring device (KeptFrom events) cells start log entries)
    (spot : Spot log older sector newer before after mark rest)
    (skips : Skips ring cells (fun fragment => ¬Wanted id fragment) (4096 * (next / 4096)) next
      final)
    (stands : StandsAt (ring.ahead start older.length) (4 + fragsSize before) final)
    (wanted : Wanted id mark.fragment) (large : 4088 ≤ size)
    (apart : ReadsApart ring device.memory id next size) :
    ∃ bytes cursor, Reads ring cells (fun _ => .blankHdr) id (next / 4096) next size (.got bytes)
        cursor ∧
      (IsRecord events id bytes ∨ IsRemainder ring device.memory events id bytes) := by
  obtain ⟨⟨on, holds, ordered⟩, chronicle, known⟩ := chronicled
  have laid := ordered.laid
  have length := laid.length_le
  rw [spot.split, List.length_append, List.length_cons] at length
  have inRing := ring.ahead_lt laid.start_lt (by omega : older.length ≤ ring.sectors)
  have cell := (laid.cell older.length (by omega)).trans spot.entry
  obtain ⟨behindFirst, around⟩ := apart cells start log older sector newer before after mark rest
    holds ordered spot ⟨final, sector, after, skips, inRing, cell, spot.frags, stands, wanted⟩
  have closes : 4091 < 4 + fragsSize before + mark.fragment.size → mark.closes = true := by
    intro full
    rw [spot.closes, decide_eq_true full]
  rw [spot.tape_eq] at chronicle
  obtain ⟨earlier, entry, later, rfl, cases'⟩ := chronicle.here
  have quiet : continues id (later.flatMap Entry.marks) = false := chronicle.drop.continues
  have member : entry ∈ earlier ++ entry :: later := by simp
  rcases cases' with ⟨rfl, front, rfl⟩ | ⟨tail, rfl, front, rfl⟩ | ⟨head, rfl, front, _⟩
  · -- a fragment of its own
    obtain ⟨cursor, reads⟩ := @Reads.alone ring cells sector before after id (fun _ => .blankHdr)
      (next / 4096) next final size _ mark.fragment skips inRing cell spot.frags stands wanted
      fun full unfilled => spot.noContinuation laid (closes full) quiet
        fun used empty => around used (.inl ⟨empty, closes full⟩) (by
          rw [recordBytes, empty]
          simpa [continuation] using unfilled)
    rw [List.take_of_length_le (Nat.le_trans mark.fragment.payload_le large)] at reads
    refine ⟨_, cursor, reads, ?_⟩
    rcases known _ member with kept | ⟨head, _, ⟨rfl⟩, kept⟩
    · exact .inl (kept.content wanted.1).1
    · -- what is left of a record
      obtain ⟨_, _, split, sameId, _⟩ := kept.formed
      obtain ⟨record, short⟩ := @KeptFrom.content id events _ kept (sameId.symm.trans wanted.1)
      have positive := head.fragment.payload_pos
      have more := mark.fragment.payload_pos
      refine .inr ⟨⟨_, head.fragment.payload.length, record, positive, ?_, ?_⟩, ?_⟩
      · rw [Entry.content, List.length_append]
        omega
      · rw [Entry.content, List.drop_left]
      · intro cells' start' log' holds' ordered'
        rw [← (Ordered.unique holds ordered holds' ordered').2]
        refine ⟨mark, _, (behindFirst.resolve_left ?_).symm, wanted.1, split, rfl⟩
        rw [split]
        decide
  · -- a record in two pieces
    have kept : KeptFrom events (.pair mark tail) := by
      rcases known _ member with kept | ⟨_, _, single, _⟩
      · exact kept
      · cases single
    obtain ⟨closing, _, split, sameId, lives⟩ := kept.formed
    have tailWanted : Wanted id tail.fragment := ⟨sameId.trans wanted.1, lives wanted.2⟩
    obtain ⟨following, newer', behind, rfl, spot'⟩ := spot.next laid closing
    have full := spot.closes
    rw [closing, eq_comm, decide_eq_true_eq] at full
    have succ := ring.ahead_succ older.length laid.start_lt (by omega)
    have entry' := spot'.entry
    have tailClosing := spot'.closes
    rw [List.length_append, List.length_singleton] at entry'
    have nextCell := (laid.cell (older.length + 1)
      (by simp only [List.length_cons] at length; omega)).trans entry'
    rw [← succ] at nextCell
    obtain ⟨record, short⟩ := kept.content wanted.1
    rw [Entry.content, List.length_append] at short
    have more := tail.fragment.payload_pos
    have continued : ∀ others, continuation mark (tail :: others) = some tail.fragment := by
      intro others
      simp only [continuation, closing, sameId, split, and_self, if_true]
    obtain ⟨cursor, reads⟩ := @Reads.alone ring cells following [] behind id (fun _ => .blankHdr)
      (ring.succ (ring.ahead start older.length)) _ _ (size - mark.fragment.payload.length) _
      tail.fragment (.refl _) (ring.succ_lt inRing) nextCell spot'.frags
      (StandsAt.header _ _) tailWanted (by
        intro tailFull unfilled
        rw [decide_eq_true tailFull] at tailClosing
        have none := @Spot.noContinuation _ _ _ _ _ _ _ _ _ _ _ id laid spot' tailClosing quiet
          fun used empty => around used (.inr ⟨tail, by rw [empty], continued _, tailClosing⟩) (by
            rw [recordBytes, continued, Option.map_some, Option.getD_some, List.length_append]
            omega)
        rwa [List.length_append, List.length_singleton, ← succ] at none)
    rw [List.take_of_length_le (by omega)] at reads
    exact ⟨_, cursor, .continued skips inRing cell spot.frags stands wanted full nextCell
      spot'.frags ⟨tailWanted.1, split⟩ (by omega) reads, .inl record⟩
  · -- the second piece of a record is not what the read comes to
    obtain ⟨_, _, split, _, _⟩ := chronicle.formed _ member
    rcases behindFirst with unsplit | begins
    · rw [unsplit] at split
      cases split
    · rw [spot.tape_eq, List.self_eq_append_left, front] at begins
      simp at begins

/-- A flash carries the log under any array of sectors that it carries. -/
theorem Ordered.carried {other : Nat → Option Sector} (ordered : Ordered ring other start log)
    (same : ∀ k < ring.sectors, cells k = other k) : Ordered ring cells start log where
  start_lt := ordered.start_lt
  length_le := ordered.length_le
  cell := fun distance bound =>
    (same _ (ring.ahead_lt ordered.start_lt (Nat.le_of_lt bound))).trans
      (ordered.cell distance bound)
  ascending := ordered.ascending
  bounded := ordered.bounded
  closed := ordered.closed
  nonempty := ordered.nonempty
  blank := ordered.blank

end OneRecord

end PicoApConfigure.RingBuffer
