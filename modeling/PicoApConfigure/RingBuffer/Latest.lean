import PicoApConfigure.RingBuffer.Counting
import PicoApConfigure.RingBuffer.RoundTrip

/-!
# The latest record of an id

What an append makes of the latest live record, and what reads one after the other get last.
-/

namespace PicoApConfigure.RingBuffer

open Nor

/-- The bytes of the latest live record of `id` in a log. -/
def latestLive (id : Byte) (log : List Sector) : Option (List Byte) :=
  (liveBytes id (tape log)).getLast?

/-- The request is no longer than a sector can hold, and where the ring has more than one sector it
is stored whole behind the log. -/
def StoresRecord (ring : Geometry) (log : List Sector) (data : Memory) (size : Nat) : Prop :=
  size ≤ 4088 ∧ (ring.sectors = 1 ∨ StoresWhole (writeOffset log) data size)

section Append

variable {ring : Geometry} {memory : Memory} {cells : Nat → Option Sector} {id : Byte}
  {start start' index : Nat} {log log' : List Sector} {writes : List Op} {status : RbError}
  {request : Request} {offset : Option Nat} {entry : Entry} {bytes : List Byte}

theorem liveBytes_append (id : Byte) (front back : List Mark) :
    ∃ more, liveBytes id (front ++ back) = more ++ liveBytes id back := by
  induction front with
  | nil => exact ⟨[], rfl⟩
  | cons mark front ih =>
      obtain ⟨more, equal⟩ := ih
      refine ⟨(if StartsRecord id mark (front ++ back) then [recordBytes mark (front ++ back)]
        else []) ++ more, ?_⟩
      rw [List.cons_append, liveBytes, equal, List.append_assoc]

theorem Stored.wanted (stored : Stored request offset entry) : Wanted request.id entry.first := by
  cases stored <;> exact ⟨rfl, (Fragment.of_notSmudged rfl).2⟩

/-- A new entry is one live record. -/
theorem Stored.liveBytes_eq (stored : Stored request offset entry) :
    liveBytes request.id entry.marks = [entry.content] := by
  have formed := stored.formed
  have unsplit := stored.unsplit
  have wanted := stored.wanted
  cases entry with
  | single mark =>
      rw [Entry.marks, liveBytes, if_pos ⟨wanted, unsplit, rfl⟩, recordBytes]
      exact congrArg (fun bytes => [bytes]) (List.append_nil _)
  | pair head tail =>
      obtain ⟨closes, -, split, sameId, lives⟩ := formed
      have more : continuation head [tail] = some tail.fragment := if_pos ⟨closes, sameId, split⟩
      have later : ¬StartsRecord request.id tail [] := by
        rintro ⟨-, first, -⟩
        rw [split] at first
        cases first
      rw [Entry.marks, liveBytes,
        if_pos ⟨wanted, unsplit, by rw [more]; exact lives wanted.2⟩, liveBytes,
        if_neg later, recordBytes, more]
      rfl

/-- The entry has the bytes of the record if and only if it was stored whole. -/
theorem Stored.content_iff (stored : Stored request offset entry) :
    entry.content = request.record ↔ StoresWhole offset request.data request.size := by
  have readings : entry.readings request.id (entry.content.length + request.size) =
      [entry.content] := by
    cases entry with
    | single mark =>
        have wanted : Wanted request.id mark.fragment := stored.wanted
        rw [Entry.readings, if_pos wanted, List.take_of_length_le (by simp [Entry.content])]
        rfl
    | pair head tail =>
        have wanted : Wanted request.id head.fragment := stored.wanted
        have positive := tail.fragment.payload_pos
        have length : (Entry.pair head tail).content.length =
            head.fragment.payload.length + tail.fragment.payload.length := List.length_append
        rw [Entry.readings, if_pos wanted, if_pos (by omega),
          List.take_of_length_le (by omega)]
        rfl
  rw [← stored.readings_iff (Nat.le_add_left request.size entry.content.length), readings,
    List.cons.injEq, and_iff_left rfl]

/-- A record that is added to the log is the latest one. -/
theorem Grows.latest (grows : Grows ring start request index log writes log') :
    latestLive request.id log' = some request.record ↔
      StoresWhole (writeOffset log) request.data request.size := by
  obtain ⟨entry, stored, grown⟩ := grows.stored
  obtain ⟨more, split⟩ := liveBytes_append request.id (tape log) entry.marks
  rw [latestLive, grown, split, stored.liveBytes_eq, List.getLast?_concat, Option.some.injEq]
  exact stored.content_iff

theorem Grows.short (grows : Grows ring start request index log writes log') :
    request.size ≤ 4088 := by
  cases grows <;> assumption

/-- In a ring of one sector every record that is added is stored whole. -/
theorem Grows.whole_of_single (grows : Grows ring start request index log writes log')
    (single : ring.sectors = 1) : StoresWhole (writeOffset log) request.data request.size := by
  obtain ⟨entry, stored, -⟩ := grows.stored
  cases grows with
  | fresh _ room _ =>
      obtain rfl := List.length_eq_zero_iff.mp (by omega : log.length = 0)
      exact fun _ none => by cases none
  | @inside older newest short room fits =>
      intro used equal
      rw [writeOffset, List.getLast?_concat, Option.bind_some] at equal
      split at equal
      · cases equal
      · cases equal
        exact ⟨by omega, fun spills => by omega⟩
  | split _ _ erased => omega
  | exact _ _ erased => omega

/-- The newest sector is still there when the oldest one is gone, unless it is the same. -/
theorem writeOffset_cons (first : Sector) {rest : List Sector} (nonempty : rest ≠ []) :
    writeOffset (first :: rest) = writeOffset rest := by
  obtain ⟨second, rest, rfl⟩ := List.exists_cons_of_ne_nil nonempty
  rw [writeOffset, writeOffset, List.getLast?_cons_cons]

end Append

/-! ## Reads one after the other -/

/-- Reads of `size` bytes for `id`, one after the other from `next` on, get these byte strings and
then fail. -/
inductive ReadsAll (ring : Geometry) (cells : Nat → Option Sector) (id : Byte) (size : Nat) :
    (next : Nat) → List (List Byte) → Prop
  | done {next cursor : Nat} {status : RbError}
      (reads : Reads ring cells (fun _ => .blankHdr) id (next / 4096) next size (.stopped status)
        cursor) : ReadsAll ring cells id size next []
  | next {next cursor : Nat} {bytes : List Byte} {rest : List (List Byte)}
      (reads : Reads ring cells (fun _ => .blankHdr) id (next / 4096) next size (.got bytes) cursor)
      (later : ReadsAll ring cells id size cursor rest) :
      ReadsAll ring cells id size next (bytes :: rest)

section ReadsAll

variable {ring : Geometry} {memory : Memory} {cells : Nat → Option Sector} {id : Byte}
  {ending : Nat → RbError} {home next size cursor : Nat} {result : ReadResult} {rb : RbT}

/-- A read gets no more than fits the buffer. -/
theorem Reads.length_le (reads : Reads ring cells ending id home next size result cursor) :
    result.bytes.length ≤ size := by
  induction reads with
  | erased | ended | lost => exact Nat.zero_le _
  | plain | last | short => exact List.length_take_le _ _
  | continued _ _ _ _ _ _ _ _ _ _ unfilled _ ih =>
      rw [ReadResult.bytes_got, List.length_append]
      omega

/-- A read that gets bytes gets at least one. -/
theorem Reads.got_pos {bytes : List Byte}
    (reads : Reads ring cells ending id home next size (.got bytes) cursor) (positive : 0 < size) :
    0 < bytes.length := by
  cases reads with
  | plain | last | short => exact Fragment.take_pos _ positive
  | @continued _ _ _ _ _ _ _ _ _ _ _ fragment =>
      have := fragment.payload_pos
      rw [List.length_append]
      omega

theorem Reads.stopped_neg {status : RbError}
    (reads : Reads ring cells (fun _ => .blankHdr) id home next size (.stopped status) cursor) :
    status.code < 0 := by
  cases reads <;> decide

/-- The code gets what these reads get. -/
theorem ReadsAll.readsBack {found : List (List Byte)}
    (all : ReadsAll ring cells id size next found) (holds : RingHolds memory ring cells)
    (fits : ReadFits ring id size) :
    ∀ {rb : RbT}, OnRing rb ring → rb.next = next → ∀ data : Memory,
      ReadsBack ring memory id size rb data found := by
  induction all with
  | done reads =>
      rintro rb on rfl data
      exact .done reads.stopped_neg
        (rbRead_completes on holds.carries holds.endingsAre fits reads data)
  | @next next cursor bytes rest reads _ ih =>
      rintro rb on rfl data
      have read := rbRead_completes on holds.carries holds.endingsAre fits reads data
      simp only [ReadResult.code_got, ReadResult.bytes_got] at read
      have later := @ih { rb with next := cursor } ⟨on.base_eq, on.bytes_eq⟩ rfl
        (store data 0 bytes)
      have slices : slice (store data 0 bytes) 0 bytes.length = bytes := holds_store data 0 bytes
      have both := ReadsBack.next (reads.got_pos fits.1) read later
      rwa [slices] at both

/-- Reads along the tape are reads from a position. -/
theorem TapeReads.readsAll {start : Nat} {log : List Sector} {rest : List Mark}
    {found : List (List Byte)} (reads : TapeReads id size rest found)
    (laid : Laid ring cells start log) (unfilled : Unfilled ring log) :
    ∀ {distance : Nat}, Position ring start log distance next rest →
      ReadsAll ring cells id size next found := by
  induction reads generalizing next with
  | done stops =>
      intro distance position
      obtain ⟨cursor, reached, reads, -, -⟩ :=
        @Position.reads _ _ _ _ id laid _ distance distance next size position (Nat.le_refl _)
          (.inr unfilled)
      rw [stops, ← position.sector] at reads
      exact .done reads
  | next got _ _ ih =>
      intro distance position
      obtain ⟨cursor, reached, reads, -, behind⟩ :=
        @Position.reads _ _ _ _ id laid _ distance distance next size position (Nat.le_refl _)
          (.inr unfilled)
      rw [got, ← position.sector] at reads
      rw [got] at behind
      exact .next reads (ih behind)

/-- The reads of a search get what reads along the tape get. -/
theorem Stops.tapeReads {chain : List Mark} {stops : List Stop}
    (listed : Stops id size chain stops) (positive : 0 < size) :
    TapeReads id size chain (stops.map Stop.bytes) := by
  induction listed with
  | done => exact .done rfl
  | skip skipped _ ih => exact ih.skip skipped
  | @read mark rest behind bytes stops wanted got _ ih =>
      obtain ⟨_, _, other, more⟩ := @readTape_wanted id size mark rest wanted positive
      rw [got] at other
      cases other
      exact .next got more ih

theorem ReadsAll.length_le {found : List (List Byte)}
    (all : ReadsAll ring cells id size next found) : ∀ bytes ∈ found, bytes.length ≤ size := by
  induction all with
  | done => nofun
  | next reads _ ih =>
      intro bytes member
      rcases List.mem_cons.mp member with rfl | later
      · exact reads.length_le
      · exact ih bytes later

end ReadsAll

end PicoApConfigure.RingBuffer
