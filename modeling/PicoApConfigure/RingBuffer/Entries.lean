import PicoApConfigure.RingBuffer.Tape

/-!
# The records on a tape

The fragments of a tape belong together one by one, or in pairs where a record goes over a sector
end.  An append adds one such entry, an erase takes entries away in front and may leave the second
piece of a pair behind.
-/

namespace PicoApConfigure.RingBuffer

open Nor

/-- What belongs together on a tape: one fragment, or two that a read puts together. -/
inductive Entry where
  | single (mark : Mark)
  | pair (head tail : Mark)
  deriving DecidableEq

namespace Entry

def marks : Entry → List Mark
  | .single mark => [mark]
  | .pair head tail => [head, tail]

/-- The first fragment. -/
def first : Entry → Fragment
  | .single mark => mark.fragment
  | .pair head _ => head.fragment

/-- The payloads together. -/
def content : Entry → List Byte
  | .single mark => mark.fragment.payload
  | .pair head tail => head.fragment.payload ++ tail.fragment.payload

/-- The pieces of a pair are flagged as such, stand on both sides of a sector end, and the second
one is not deleted before the first. -/
def Formed : Entry → Prop
  | .single _ => True
  | .pair head tail => head.closes = true ∧ head.fragment.split = false ∧
      tail.fragment.split = true ∧ tail.fragment.id = head.fragment.id ∧
      (head.fragment.live = true → tail.fragment.live = true)

/-- What reads of `size` bytes for `id` make of an entry.  A buffer that the first piece fills
leaves the second one for the next read. -/
def readings (id : Byte) (size : Nat) : Entry → List (List Byte)
  | .single mark => if Wanted id mark.fragment then [mark.fragment.payload.take size] else []
  | .pair head tail =>
      if Wanted id head.fragment then
        if head.fragment.payload.length < size then
          [head.fragment.payload ++
            tail.fragment.payload.take (size - head.fragment.payload.length)]
        else [head.fragment.payload.take size, tail.fragment.payload.take size]
      else if Wanted id tail.fragment then [tail.fragment.payload.take size]
      else []

end Entry

/-- The tape is that of `entries`, of which only the first one may be a piece whose first half is
gone. -/
structure Chronicle (tape : List Mark) (entries : List Entry) : Prop where
  tape_eq : tape = entries.flatMap Entry.marks
  formed : ∀ entry ∈ entries, entry.Formed
  unsplit : ∀ entry ∈ entries.tail, entry.first.split = false

section Chronicle

variable {tape : List Mark} {entries : List Entry} {entry : Entry} {id : Byte} {size : Nat}
  {rest : List Mark}

theorem Chronicle.nil : Chronicle [] [] := ⟨rfl, by simp, by simp⟩

theorem Chronicle.tail {entry : Entry} (chronicle : Chronicle tape (entry :: entries)) :
    Chronicle (entries.flatMap Entry.marks) entries :=
  ⟨rfl, fun other member => chronicle.formed other (by simp [member]),
    fun other member => chronicle.unsplit other (List.mem_of_mem_tail member)⟩

/-- A new entry at the end of the tape. -/
theorem Chronicle.append (chronicle : Chronicle tape entries) (formed : entry.Formed)
    (unsplit : entry.first.split = false) :
    Chronicle (tape ++ entry.marks) (entries ++ [entry]) where
  tape_eq := by rw [chronicle.tape_eq]; simp
  formed := by
    intro other member
    rcases List.mem_append.mp member with old | new
    · exact chronicle.formed other old
    · rw [List.mem_singleton.mp new]
      exact formed
  unsplit := by
    intro other member
    cases entries with
    | nil => cases member
    | cons first entries =>
        rw [List.cons_append, List.tail_cons] at member
        rcases List.mem_append.mp member with old | new
        · exact chronicle.unsplit other old
        · rw [List.mem_singleton.mp new]
          exact unsplit

/-- No entry but the first one continues a fragment. -/
theorem Chronicle.continues (chronicle : Chronicle tape (entry :: entries)) :
    continues id (entries.flatMap Entry.marks) = false := by
  cases entries with
  | nil => rfl
  | cons next entries =>
      have unsplit := chronicle.unsplit next (by simp)
      cases next with
      | single mark =>
          simp only [Entry.first] at unsplit
          simp [RingBuffer.continues, Entry.marks, unsplit]
      | pair head tail =>
          simp only [Entry.first] at unsplit
          simp [RingBuffer.continues, Entry.marks, unsplit]

end Chronicle

/-! ## Reading everything -/

/-- Reads of `size` bytes for `id` along the tape, one after the other, return these byte strings
and then fail. -/
inductive TapeReads (id : Byte) (size : Nat) : List Mark → List (List Byte) → Prop
  | done {rest : List Mark} (stops : (readTape id size rest).1 = .stopped .blankHdr) :
      TapeReads id size rest []
  | next {rest behind : List Mark} {bytes : List Byte} {more : List (List Byte)}
      (got : readTape id size rest = (.got bytes, behind)) (positive : 0 < bytes.length)
      (later : TapeReads id size behind more) : TapeReads id size rest (bytes :: more)

section TapeReads

variable {tape rest other : List Mark} {entries : List Entry} {entry : Entry} {id : Byte}
  {size : Nat} {found more : List (List Byte)} {mark : Mark}

theorem TapeReads.congr (same : readTape id size other = readTape id size rest)
    (reads : TapeReads id size rest found) : TapeReads id size other found := by
  cases reads with
  | done stops => exact .done (same ▸ stops)
  | next got positive later => exact .next (same.trans got) positive later

theorem TapeReads.unique {right : List (List Byte)} (reads : TapeReads id size rest found)
    (other : TapeReads id size rest right) : found = right := by
  induction reads generalizing right with
  | done stops =>
      cases other with
      | done => rfl
      | next got _ _ =>
          rw [got] at stops
          cases stops
  | next got _ _ ih =>
      cases other with
      | done stops =>
          rw [got] at stops
          cases stops
      | next got' _ later' =>
          rw [got] at got'
          cases got'
          rw [ih later']

/-- A fragment that nothing continues is read alone. -/
theorem readTape_alone (alone : continues id rest = false) (wanted : Wanted id mark.fragment) :
    readTape id size (mark :: rest) = (.got (mark.fragment.payload.take size), rest) := by
  simp only [readTape, if_pos wanted, alone, Bool.false_eq_true, false_and, and_false, if_false]

theorem Fragment.take_pos (fragment : Fragment) (positive : 0 < size) :
    0 < (fragment.payload.take size).length := by
  have := fragment.payload_pos
  rw [List.length_take]
  omega

theorem TapeReads.skip (skipped : ¬Wanted id mark.fragment)
    (reads : TapeReads id size rest found) : TapeReads id size (mark :: rest) found :=
  reads.congr (by rw [readTape, if_neg skipped])

theorem TapeReads.alone (alone : continues id rest = false) (positive : 0 < size)
    (wanted : Wanted id mark.fragment) (reads : TapeReads id size rest found) :
    TapeReads id size (mark :: rest) (mark.fragment.payload.take size :: found) :=
  .next (readTape_alone alone wanted) (mark.fragment.take_pos positive) reads

/-- Reads of an entry and of what lies behind it. -/
theorem Entry.tapeReads (formed : entry.Formed) (alone : continues id rest = false)
    (positive : 0 < size) (later : TapeReads id size rest more) :
    TapeReads id size (entry.marks ++ rest) (entry.readings id size ++ more) := by
  cases entry with
  | single mark =>
      by_cases wanted : Wanted id mark.fragment
      · simpa [marks, readings, wanted] using later.alone alone positive wanted
      · simpa [marks, readings, wanted] using later.skip wanted
  | pair head tail =>
      obtain ⟨closes, _, split, sameId, lives⟩ := formed
      by_cases wanted : Wanted id head.fragment
      · have wantedTail : Wanted id tail.fragment := ⟨sameId.trans wanted.1, lives wanted.2⟩
        have more' : continues id (tail :: rest) = true := by
          simp [continues, wantedTail.1, split]
        by_cases unfilled : head.fragment.payload.length < size
        · have both : RingBuffer.readTape id size (head :: tail :: rest) =
              (.got (head.fragment.payload ++
                tail.fragment.payload.take (size - head.fragment.payload.length)), rest) := by
            rw [readTape, if_pos wanted, if_pos ⟨closes, more', unfilled⟩,
              readTape_alone alone wantedTail]
            rfl
          have taken : 0 < (head.fragment.payload ++
              tail.fragment.payload.take (size - head.fragment.payload.length)).length := by
            have := head.fragment.payload_pos
            rw [List.length_append]
            omega
          simpa [marks, readings, wanted, unfilled] using TapeReads.next both taken later
        · have first : RingBuffer.readTape id size (head :: tail :: rest) =
              (.got (head.fragment.payload.take size), tail :: rest) := by
            rw [readTape, if_pos wanted, if_neg fun all => unfilled all.2.2]
          have reads := TapeReads.next first (head.fragment.take_pos positive)
            (later.alone alone positive wantedTail)
          simpa [marks, readings, wanted, unfilled] using reads
      · by_cases wantedTail : Wanted id tail.fragment
        · simpa [marks, readings, wanted, wantedTail] using
            (later.alone alone positive wantedTail).skip wanted
        · simpa [marks, readings, wanted, wantedTail] using
            (later.skip wantedTail).skip wanted

/-- Reads along a tape return the readings of its entries. -/
theorem Chronicle.tapeReads (positive : 0 < size) (chronicle : Chronicle tape entries) :
    TapeReads id size tape (entries.flatMap (Entry.readings id size)) := by
  induction entries generalizing tape with
  | nil =>
      rw [chronicle.tape_eq]
      exact .done rfl
  | cons entry entries ih =>
      rw [chronicle.tape_eq]
      exact Entry.tapeReads (chronicle.formed entry (by simp)) chronicle.continues positive
        (ih chronicle.tail)

end TapeReads

/-- Calls of `rb_read` of `size` bytes for `id`, one after the other from the control block `rb`
into the buffer `data`, return these byte strings and then fail. -/
inductive ReadsBack (ring : Geometry) (memory : Memory) (id : Byte) (size : Nat) :
    RbT → (data : Memory) → List (List Byte) → Prop
  | done {rb rb' : RbT} {data data' : Memory} {status : Int} (failed : status < 0)
      (read : FlashProg.Completes ring.region (fun fuel => rbRead fuel rb id data size) memory []
        (status, rb', data')) : ReadsBack ring memory id size rb data []
  | next {rb rb' : RbT} {data data' : Memory} {length : Nat} {rest : List (List Byte)}
      (positive : 0 < length)
      (read : FlashProg.Completes ring.region (fun fuel => rbRead fuel rb id data size) memory []
        ((length : Int), rb', data')) (more : ReadsBack ring memory id size rb' data' rest) :
      ReadsBack ring memory id size rb data (slice data' 0 length :: rest)

section ReadsBack

variable {ring : Geometry} {memory : Memory} {cells : Nat → Option Sector} {start : Nat}
  {log : List Sector} {id : Byte} {size : Nat} {rb : RbT} {data : Memory}

/-- What is read back is determined. -/
theorem ReadsBack.unique {left right : List (List Byte)}
    (reads : ReadsBack ring memory id size rb data left)
    (other : ReadsBack ring memory id size rb data right) : left = right := by
  induction reads generalizing right with
  | done failed read =>
      cases other with
      | done => rfl
      | next positive read' _ =>
          have same := congrArg Prod.fst (read.unique read').2
          simp only at same
          omega
  | next positive read _ ih =>
      cases other with
      | done failed read' =>
          have same := congrArg Prod.fst (read.unique read').2
          simp only at same
          omega
      | next _ read' more' =>
          have same := (read.unique read').2
          simp only [Prod.mk.injEq, Int.natCast_inj] at same
          obtain ⟨rfl, rfl, rfl⟩ := same
          rw [ih more']

/-- A read on a ring in order goes along the tape. -/
theorem rbRead_tape (on : OnRing rb ring) (holds : RingHolds memory ring cells)
    (ordered : Ordered ring cells start log) (fits : ReadFits ring id size) {distance : Nat}
    {rest : List Mark} (position : Position ring start log distance rb.next rest)
    (left : (readTape id size rest).2 ≠ [] ∨ Unfilled ring log) (data : Memory) :
    ∃ cursor reached, FlashProg.Completes ring.region (fun fuel => rbRead fuel rb id data size)
        memory [] ((readTape id size rest).1.code, { rb with next := cursor },
          store data 0 (readTape id size rest).1.bytes) ∧
      Position ring start log reached cursor (readTape id size rest).2 := by
  obtain ⟨cursor, reached, reads, _, behind⟩ :=
    @Position.reads _ _ _ _ id ordered.laid rest distance distance rb.next size position
      (Nat.le_refl _) left
  rw [← position.sector] at reads
  exact ⟨cursor, reached, rbRead_completes on holds.carries holds.endingsAre fits reads data,
    behind⟩

/-- Calls of `rb_read` from a position go along the tape. -/
theorem TapeReads.readsBack (holds : RingHolds memory ring cells)
    (ordered : Ordered ring cells start log) (unfilled : Unfilled ring log)
    (fits : ReadFits ring id size) {rest : List Mark} {found : List (List Byte)}
    (reads : TapeReads id size rest found) :
    ∀ {rb : RbT} {distance : Nat}, OnRing rb ring →
      Position ring start log distance rb.next rest → ∀ data : Memory,
      ReadsBack ring memory id size rb data found := by
  induction reads with
  | done stops =>
      intro rb distance on position data
      obtain ⟨cursor, reached, read, _⟩ := rbRead_tape on holds ordered fits position
        (.inr unfilled) data
      rw [stops] at read
      exact .done (by simp [ReadResult.code, RbError.code]) read
  | @next rest behind bytes more got positive later ih =>
      intro rb distance on position data
      obtain ⟨cursor, reached, read, position'⟩ :=
        rbRead_tape on holds ordered fits position (.inr unfilled) data
      rw [got] at read position'
      simp only [ReadResult.code_got, ReadResult.bytes_got] at read
      have rest' := @ih { rb with next := cursor } reached ⟨on.base_eq, on.bytes_eq⟩ position'
        (store data 0 bytes)
      have slices : slice (store data 0 bytes) 0 bytes.length = bytes := holds_store data 0 bytes
      have all := ReadsBack.next positive read rest'
      rwa [slices] at all

end ReadsBack

/-! ## Entries of a request -/

/-- The bytes of the record. -/
def Request.record (request : Request) : List Byte := slice request.data 0 request.size

/-- Bytes in use in the sector an append goes on in; none if it starts a new one. -/
def writeOffset (log : List Sector) : Option Nat :=
  log.getLast?.bind fun newest => if newest.isFull then none else some newest.used

/-- What an append behind `offset` makes of a request. -/
inductive Stored (request : Request) : (offset : Option Nat) → Entry → Prop
  | fresh (short : request.size ≤ 4088) (closes : Bool) :
      Stored request none (.single ⟨request.whole short, closes⟩)
  | inside {used : Nat} (short : request.size ≤ 4088) (room : used + 4 + request.size < 4096)
      (closes : Bool) : Stored request (some used) (.single ⟨request.whole short, closes⟩)
  | pieces {used first second : Nat} (filled : used + 4 + first = 4096)
      (sizes : first + second = request.size) (firstPos : 0 < first) (secondPos : 0 < second)
      (firstShort : first ≤ 4088) (secondShort : second ≤ 4088) (closes : Bool) :
      Stored request (some used) (.pair ⟨request.head first firstPos firstShort, true⟩
        ⟨request.tail second secondPos secondShort, closes⟩)
  /-- The header for nothing in the next sector is taken for a second piece. -/
  | exact {used : Nat} (filled : used + 4 + request.size = 4096) (short : request.size ≤ 4088)
      (closes : Bool) : Stored request (some used)
        (.pair ⟨request.whole short, true⟩ ⟨request.phantom short, closes⟩)

/-- A record that is written behind `offset` does not end with its sector, and where it goes on in
the next one the bytes the code takes for the second piece are those behind the first one. -/
def StoresWhole (offset : Option Nat) (data : Memory) (size : Nat) : Prop :=
  ∀ used, offset = some used → used + 4 + size ≠ 4096 ∧ (4096 < used + 4 + size →
    slice data (used + 4 + size - 4096) (used + 4 + size - 4096) =
      slice data (4092 - used) (used + 4 + size - 4096))

section Stored

variable {ring : Geometry} {start index size : Nat} {request : Request} {offset : Option Nat}
  {entry : Entry} {id : Byte} {log log' : List Sector} {writes : List Op}

/-- The flags of a whole record and of a first piece. -/
theorem Fragment.of_notSmudged {fragment : Fragment} (flags : fragment.flags = rbHeaderNotSmudged) :
    fragment.split = false ∧ fragment.live = true := by
  rw [Fragment.split, Fragment.live, flags]
  decide

/-- The flags of a second piece. -/
theorem Fragment.of_splitNotSmudged {fragment : Fragment}
    (flags : fragment.flags = rbHeaderSplit ||| rbHeaderNotSmudged) :
    fragment.split = true ∧ fragment.live = true := by
  rw [Fragment.split, Fragment.live, flags]
  decide

theorem Stored.formed (stored : Stored request offset entry) : entry.Formed := by
  cases stored with
  | fresh => trivial
  | inside => trivial
  | pieces =>
      exact ⟨rfl, (Fragment.of_notSmudged rfl).1, (Fragment.of_splitNotSmudged rfl).1, rfl,
        fun _ => (Fragment.of_splitNotSmudged rfl).2⟩
  | exact =>
      exact ⟨rfl, (Fragment.of_notSmudged rfl).1, (Fragment.of_splitNotSmudged rfl).1, rfl,
        fun _ => (Fragment.of_splitNotSmudged rfl).2⟩

theorem Stored.unsplit (stored : Stored request offset entry) : entry.first.split = false := by
  cases stored <;> exact (Fragment.of_notSmudged rfl).1

/-- A record that is not split is one fragment. -/
theorem Stored.alone (stored : Stored request offset entry)
    (whole : ∀ mark ∈ entry.marks, mark.fragment.split = false) :
    ∃ (short : request.size ≤ 4088) (closes : Bool),
      entry.marks = [⟨request.whole short, closes⟩] := by
  have apart : ∀ {head tail : Mark}, tail.fragment.flags = rbHeaderSplit ||| rbHeaderNotSmudged →
      ¬∀ mark ∈ Entry.marks (.pair head tail), mark.fragment.split = false := by
    intro head tail flags unsplit
    have split := (Fragment.of_splitNotSmudged flags).1
    rw [unsplit tail (by simp [Entry.marks])] at split
    cases split
  cases stored with
  | fresh short closes => exact ⟨short, closes, rfl⟩
  | inside short _ closes => exact ⟨short, closes, rfl⟩
  | pieces => exact absurd whole (apart rfl)
  | exact => exact absurd whole (apart rfl)

/-- Reads for another id pass the entry. -/
theorem Stored.readings_other (stored : Stored request offset entry) (other : request.id ≠ id) :
    entry.readings id size = [] := by
  have unwanted : ∀ fragment : Fragment, fragment.id = request.id → ¬Wanted id fragment :=
    fun fragment same wanted => other (same.symm.trans wanted.1)
  cases stored with
  | fresh | inside => exact if_neg (unwanted _ rfl)
  | pieces | exact =>
      rw [Entry.readings, if_neg (unwanted _ rfl), if_neg (unwanted _ rfl)]

/-- The first fragment of an entry is read. -/
theorem Stored.readings_ne_nil (stored : Stored request offset entry) :
    entry.readings request.id size ≠ [] := by
  have wanted : ∀ fragment : Fragment, fragment.id = request.id →
      fragment.flags = rbHeaderNotSmudged → Wanted request.id fragment :=
    fun fragment same flags => ⟨same, (Fragment.of_notSmudged flags).2⟩
  cases stored with
  | fresh | inside =>
      rw [Entry.readings, if_pos (wanted _ rfl rfl)]
      exact List.cons_ne_nil _ _
  | pieces | exact =>
      rw [Entry.readings, if_pos (wanted _ rfl rfl)]
      split <;> exact List.cons_ne_nil _ _

/-- The record is read back from its entry if and only if it was stored whole. -/
theorem Stored.readings_iff (stored : Stored request offset entry) (large : request.size ≤ size) :
    entry.readings request.id size = [request.record] ↔
      StoresWhole offset request.data request.size := by
  have wanted : ∀ fragment : Fragment, fragment.id = request.id →
      fragment.flags = rbHeaderNotSmudged → Wanted request.id fragment :=
    fun fragment same flags => ⟨same, (Fragment.of_notSmudged flags).2⟩
  have full : ∀ short : request.size ≤ 4088,
      (request.whole short).payload.take size = request.record := by
    intro short
    rw [List.take_of_length_le (by simpa [Request.whole, Request.piece] using large)]
    rfl
  cases stored with
  | fresh short closes =>
      rw [Entry.readings, if_pos (wanted _ rfl rfl), full short]
      exact iff_of_true rfl fun used none => by cases none
  | @inside used short room closes =>
      rw [Entry.readings, if_pos (wanted _ rfl rfl), full short]
      refine iff_of_true rfl fun _ equal => ?_
      cases equal
      exact ⟨by omega, fun spills => by omega⟩
  | @pieces used first second filled sizes firstPos secondPos firstShort secondShort closes =>
      have length : (request.head first firstPos firstShort).payload.length = first := by
        simp [Request.head, Request.piece]
      have rest : (request.tail second secondPos secondShort).payload.take (size - first) =
          slice request.data second second :=
        List.take_of_length_le (by simp only [Request.tail, Request.piece, slice_length]; omega)
      have both : request.record = slice request.data 0 first ++ slice request.data first second :=
        by
        rw [Request.record, ← sizes, slice_add, Nat.zero_add]
      have spilt : used + 4 + request.size - 4096 = second := by omega
      have behind : 4092 - used = first := by omega
      rw [Entry.readings, if_pos (wanted _ rfl rfl), length, if_pos (by omega), rest, both,
        List.singleton_inj, StoresWhole]
      constructor
      · intro same used' equal
        cases equal
        rw [spilt, behind]
        exact ⟨by omega, fun _ => List.append_cancel_left same⟩
      · intro whole
        have same := (whole used rfl).2 (by omega)
        rw [spilt, behind] at same
        rw [same]
        rfl
  | @exact used filled short closes =>
      have length : (request.whole short).payload.length = request.size := by
        simp [Request.whole, Request.piece]
      have recordLength : request.record.length = request.size := slice_length _ _ _
      refine iff_of_false ?_ fun whole => (whole used rfl).1 filled
      rw [Entry.readings, if_pos (wanted _ rfl rfl), length]
      by_cases unfilled : request.size < size
      · rw [if_pos unfilled, List.singleton_inj]
        intro same
        have lengths : request.size +
            ((request.phantom short).payload.take (size - request.size)).length = request.size := by
          have equal := congrArg List.length same
          rw [List.length_append, length, recordLength] at equal
          exact equal
        have positive := (request.phantom short).take_pos (by omega : 0 < size - request.size)
        omega
      · rw [if_neg unfilled]
        simp

/-- An append puts one entry at the end of the tape. -/
theorem Grows.stored (grows : Grows ring start request index log writes log') :
    ∃ entry, Stored request (writeOffset log) entry ∧ tape log' = tape log ++ entry.marks := by
  have positive := request.size_pos
  have single : ∀ fragment : Fragment, tape [Sector.single index fragment] =
      [⟨fragment, decide (4091 < 4 + fragment.size)⟩] := fun _ => rfl
  have push : ∀ (sector : Sector) (fragment : Fragment)
      (fits : sector.used + fragment.size ≤ 4096), tape [sector.push fragment fits] =
        tape [sector] ++ [⟨fragment, decide (4091 < sector.used + fragment.size)⟩] := by
    intro sector fragment fits
    simp only [tape_cons, tape_nil, List.append_nil, Sector.push, marks_append, marks]
    rfl
  have offset : ∀ {older : List Sector} {newest : Sector}, newest.used ≤ 4091 →
      writeOffset (older ++ [newest]) = some newest.used := by
    intro older newest room
    have notFull := newest.not_isFull_iff.mpr room
    simp [writeOffset, notFull]
  cases grows with
  | fresh short _ closed =>
      have new : writeOffset log = none := by
        cases last : log.getLast? with
        | none => simp [writeOffset, last]
        | some newest =>
            have full := closed newest (List.mem_of_getLast? last)
            simp [writeOffset, last, full]
      rw [new]
      exact ⟨_, .fresh short _, by rw [tape_append, single]; rfl⟩
  | @inside older newest short room fits =>
      rw [offset (by omega)]
      exact ⟨_, .inside short (by omega) _, by
        rw [tape_append, tape_append, push, List.append_assoc]; rfl⟩
  | @split older newest short _ _ first second sizes filled firstPos secondPos firstShort
      secondShort fits =>
      have closes : decide (4091 < newest.used + (request.head first firstPos firstShort).size) =
          true := by
        simp only [Fragment.size, Request.head, Request.piece, slice_length, decide_eq_true_eq]
        omega
      have last : tape [Sector.single index (request.tail second secondPos secondShort)] =
          [⟨_, _⟩] := single _
      rw [offset (by omega)]
      refine ⟨_, .pieces filled sizes firstPos secondPos firstShort secondShort
        (decide (4091 < 4 + (request.tail second secondPos secondShort).size)), ?_⟩
      rw [List.append_cons, tape_append, tape_append, tape_append, push, last, closes]
      simp only [Entry.marks, List.append_assoc, List.singleton_append]
  | @exact older newest short filled _ fits =>
      have closes : decide (4091 < newest.used + (request.whole short).size) = true := by
        simp only [Fragment.size, Request.whole, Request.piece, slice_length, decide_eq_true_eq]
        omega
      have last : tape [Sector.single index (request.phantom short)] = [⟨_, _⟩] := single _
      rw [offset (by omega)]
      refine ⟨_, .exact filled short (decide (4091 < 4 + (request.phantom short).size)), ?_⟩
      rw [List.append_cons, tape_append, tape_append, tape_append, push, last, closes]
      simp only [Entry.marks, List.append_assoc, List.singleton_append]

end Stored

end PicoApConfigure.RingBuffer
