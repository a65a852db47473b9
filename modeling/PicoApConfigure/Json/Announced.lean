import PicoApConfigure.Nor.Run
import PicoApConfigure.Json.Requests
import Mathlib.Data.List.GetD

/-!
# The announced size

The header of a message announces its size.  The server takes the size for an `int` and compares
it with the bytes in its buffer, which are never more than the buffer holds.  A size that is too
small or negative is reached at once, and one that is too large never.
-/

namespace PicoApConfigure.Json

open Nor Tcp

/-- The size in the header, once the bytes that carry it have been received. -/
def announcedSize (received : List Byte) : Nat := wordAt (fun offset => received.getD offset 0) 4

/-- The sizes of messages with a text that fit the buffer. -/
def Proper (size : Nat) : Prop := headerSize < size ∧ size ≤ maxJsonBufSize

section Announced

variable {received : List Byte} {buffer : Memory}

theorem announcedSize_of_holds (holds : Holds buffer 0 received) (long : 8 ≤ received.length) :
    sizeField buffer = announcedSize received := by
  refine wordAt_congr fun offset small => ?_
  have byte := holds_iff.mp holds (4 + offset) (by omega)
  rw [Nat.zero_add] at byte
  rw [byte, List.getD_eq_getElem _ _ (by omega)]

theorem announcedSize_append (long : 8 ≤ received.length) (more : List Byte) :
    announcedSize (received ++ more) = announcedSize received :=
  wordAt_congr fun offset small => List.getD_append _ _ _ _ (by omega)

end Announced

section Connection

variable {Json : Type} (lib : CJson Json)

/-- A connection with all bytes that have arrived on it. -/
structure Connection (Json : Type) where
  client : ServerPerClient
  shared : Shared Json
  arrived : List Byte

namespace Connection

/-- A connection that has just been accepted. -/
def accepted (pcb : Pcb) (slot : ServerPerClient) (shared : Shared Json) : Connection Json :=
  { client := acceptIn pcb slot, shared, arrived := [] }

/-- A chunk arrives.  Where the connection has ended, the callback is off the block. -/
def arrive (tpcb : Pcb) (connection : Connection Json) (chunk : List Byte × Replies) :
    Connection Json :=
  if connection.client.clientPcb = none then connection
  else
    let outcome := tcpServerJsonRecv lib chunk.2 tpcb (some chunk.1) .ok connection.client
      connection.shared
    { client := outcome.state, shared := outcome.shared, arrived := connection.arrived ++ chunk.1 }

/-- The chunk is handled as it should: `tcp_server_json_check_freshness` is called only with a
proper announced size and as many bytes, and any other size ends the connection with its
header. -/
structure Handles (tpcb : Pcb) (connection : Connection Json) (chunk : List Byte × Replies) :
    Prop where
  checked : connection.client.clientPcb ≠ none →
    checkedBuffer tpcb chunk.1 connection.client connection.shared ≠ none →
    Proper (announcedSize (connection.arrived ++ chunk.1)) ∧
      announcedSize (connection.arrived ++ chunk.1) ≤ (connection.arrived ++ chunk.1).length
  ended : connection.client.clientPcb ≠ none →
    headerSize ≤ (connection.arrived ++ chunk.1).length →
    ¬Proper (announcedSize (connection.arrived ++ chunk.1)) →
    (connection.arrive lib tpcb chunk).client.clientPcb = none

/-- The slot after some bytes have arrived. -/
structure Filled (connection : Connection Json) : Prop where
  recvLen : connection.client.recvLen = min connection.arrived.length maxJsonBufSize
  before : connection.client.recvFlag = false → connection.arrived.length ≤ headerSize ∧
    connection.client.recvSize = maxJsonBufSize ∧ connection.client.clientPcb ≠ none ∧
    Holds connection.shared.buffer 0 connection.arrived
  behind : connection.client.recvFlag = true → headerSize < connection.arrived.length ∧
    connection.client.recvSize = int32 (announcedSize connection.arrived)

theorem accepted_filled (pcb : Pcb) (slot : ServerPerClient) (shared : Shared Json) :
    (accepted pcb slot shared).Filled where
  recvLen := rfl
  before _ := ⟨Nat.zero_le _, rfl, Option.some_ne_none _, holds_nil _ _⟩
  behind impossible := by cases impossible

variable {lib} {connection : Connection Json}

/-- What `tcp_server_json_recv` stores. -/
theorem Filled.store (filled : connection.Filled) (tpcb : Pcb) (chunk : List Byte) :
    ∃ after shared calls,
      tcpServerJsonStore tpcb chunk connection.client connection.shared = (after, shared, calls) ∧
      after.clientPcb = connection.client.clientPcb ∧
      (Connection.mk after shared (connection.arrived ++ chunk)).Filled := by
  rcases List.eq_nil_or_concat chunk with rfl | ⟨_, _, nonempty⟩
  · refine ⟨connection.client, connection.shared, [], rfl, rfl, ?_⟩
    rw [List.append_nil]
    exact filled
  have positive : 0 < chunk.length := by
    rw [nonempty]
    simp
  clear nonempty
  have small : connection.client.recvLen ≤ maxJsonBufSize := by
    rw [filled.recvLen]
    exact Nat.min_le_right _ _
  have left := uint16_left small
  have total : connection.client.recvLen +
      (chunk.take (maxJsonBufSize - connection.client.recvLen)).length =
      min (connection.arrived ++ chunk).length maxJsonBufSize := by
    rw [List.length_take, List.length_append, filled.recvLen]
    omega
  simp only [tcpServerJsonStore, if_pos positive, left, total]
  cases flag : connection.client.recvFlag with
  | true =>
      obtain ⟨long, size⟩ := filled.behind flag
      have unflagged : ¬(true = false ∧
          headerSize < min (connection.arrived ++ chunk).length maxJsonBufSize) := by simp
      simp only [if_neg unflagged]
      refine ⟨_, _, _, rfl, rfl, rfl, fun unflagged => ?_, fun _ => ⟨?_, ?_⟩⟩
      · cases unflagged
      · rw [List.length_append]
        omega
      · rw [announcedSize_append (Nat.le_trans (by decide) long)]
        exact size
  | false =>
      obtain ⟨short, size, own, holds⟩ := filled.before flag
      have received : connection.client.recvLen = connection.arrived.length := by
        rw [filled.recvLen]
        exact Nat.min_eq_left (Nat.le_trans short (by decide))
      have stored : Holds (Nor.store connection.shared.buffer connection.client.recvLen
          (chunk.take (maxJsonBufSize - connection.client.recvLen))) 0 (connection.arrived ++
            chunk.take (maxJsonBufSize - connection.client.recvLen)) := by
        rw [received, holds_append, Nat.zero_add]
        refine ⟨holds.congr fun query _ below => ?_, holds_store _ _ _⟩
        exact (store_of_lt _ _ (by omega)).symm
      by_cases header : headerSize < min (connection.arrived ++ chunk).length maxJsonBufSize
      · have long : 8 ≤ (connection.arrived ++
            chunk.take (maxJsonBufSize - connection.client.recvLen)).length := by
          rw [List.length_append, ← received, total]
          exact Nat.le_trans (by decide) header
        have rest := List.take_append_drop (maxJsonBufSize - connection.client.recvLen) chunk
        have announced : announcedSize (connection.arrived ++ chunk) = sizeField
            (Nor.store connection.shared.buffer connection.client.recvLen
              (chunk.take (maxJsonBufSize - connection.client.recvLen))) := by
          rw [announcedSize_of_holds stored long, ← announcedSize_append long
            (chunk.drop (maxJsonBufSize - connection.client.recvLen)), List.append_assoc, rest]
        simp only [true_and, if_pos header]
        refine ⟨_, _, _, rfl, rfl, rfl, fun unflagged => ?_, fun _ => ⟨?_, ?_⟩⟩
        · cases unflagged
        · exact Nat.lt_of_lt_of_le header (Nat.min_le_left _ _)
        · rw [announced]
      · have fits : (connection.arrived ++ chunk).length ≤ headerSize := by
          simp only [headerSize, maxJsonBufSize] at header ⊢
          omega
        have whole : chunk.take (maxJsonBufSize - connection.client.recvLen) = chunk := by
          rw [List.length_append] at fits
          refine List.take_of_length_le ?_
          simp only [headerSize, maxJsonBufSize] at fits short ⊢
          omega
        rw [whole] at stored ⊢
        simp only [true_and, if_neg header]
        refine ⟨_, _, _, rfl, rfl, rfl, fun _ => ⟨fits, size, own, stored⟩, fun flagged => ?_⟩
        cases flagged

/-- When the announced size is reached. -/
theorem Filled.reached_iff (filled : connection.Filled) :
    connection.client.recvSize ≤ connection.client.recvLen ↔
      headerSize < connection.arrived.length ∧ int32 (announcedSize connection.arrived) ≤
        (min connection.arrived.length maxJsonBufSize : Nat) := by
  rw [filled.recvLen]
  cases flag : connection.client.recvFlag with
  | true =>
      obtain ⟨long, size⟩ := filled.behind flag
      rw [size, and_iff_right long]
  | false =>
      obtain ⟨short, size, -, -⟩ := filled.before flag
      refine iff_of_false ?_ fun both => absurd both.1 (Nat.not_lt.mpr short)
      rw [size]
      simp only [headerSize, maxJsonBufSize] at short ⊢
      omega

/-- When the message is checked. -/
theorem Filled.checked_iff (filled : connection.Filled) (tpcb : Pcb) (chunk : List Byte) :
    checkedBuffer tpcb chunk connection.client connection.shared ≠ none ↔
      headerSize < (connection.arrived ++ chunk).length ∧
      int32 (announcedSize (connection.arrived ++ chunk)) ≤
        (min (connection.arrived ++ chunk).length maxJsonBufSize : Nat) := by
  obtain ⟨after, shared, calls, stored, -, next⟩ := filled.store tpcb chunk
  rw [← next.reached_iff, checkedBuffer, stored]
  dsimp only
  split
  · next reached => exact iff_of_true (Option.some_ne_none _) reached
  · next waits => exact iff_of_false (not_not.mpr rfl) waits

/-- An answer leaves the slot as full as it is. -/
theorem Filled.answered (filled : connection.Filled)
    (reached : connection.client.recvSize ≤ connection.client.recvLen) {after : ServerPerClient}
    (keeps : KeepsReceive connection.client after) (shared : Shared Json) :
    (Connection.mk after shared connection.arrived).Filled := by
  obtain ⟨flag, size, len⟩ := keeps
  have flagged : connection.client.recvFlag = true := by
    by_contra unflagged
    obtain ⟨short, -⟩ := filled.before (Bool.not_eq_true _ ▸ unflagged)
    exact absurd (filled.reached_iff.mp reached).1 (Nat.not_lt.mpr short)
  refine ⟨len.trans filled.recvLen, fun unflagged => ?_, fun _ => ?_⟩
  · rw [flag, flagged] at unflagged
    cases unflagged
  · rw [size]
    exact filled.behind flagged

/-- A chunk on an open connection. -/
theorem Filled.arrive (filled : connection.Filled) (tpcb : Pcb) (chunk : List Byte × Replies)
    (opened : connection.client.clientPcb ≠ none) :
    (connection.arrive lib tpcb chunk).Filled ∧
    (connection.arrive lib tpcb chunk).arrived = connection.arrived ++ chunk.1 ∧
    (checkedBuffer tpcb chunk.1 connection.client connection.shared = none →
      (connection.arrive lib tpcb chunk).client.clientPcb ≠ none) := by
  obtain ⟨after, shared, calls, stored, own, next⟩ := filled.store tpcb chunk.1
  simp only [Connection.arrive, if_neg opened, tcpServerJsonRecv, true_or, if_true, stored,
    checkedBuffer]
  by_cases reached : after.recvSize ≤ after.recvLen
  · simp only [if_pos reached]
    refine ⟨next.answered reached ?_ _, trivial, fun unchecked => ?_⟩
    · exact tcpServerJsonAnswer_keepsReceive lib chunk.2 after shared
    · cases unchecked
  · simp only [if_neg reached]
    refine ⟨next, trivial, fun _ => ?_⟩
    rw [own]
    exact opened

/-- One chunk: a size that has been announced must be proper. -/
theorem Filled.handles_iff (filled : connection.Filled) (tpcb : Pcb)
    (chunk : List Byte × Replies) (opened : connection.client.clientPcb ≠ none) :
    connection.Handles lib tpcb chunk ↔ (connection.arrived ++ chunk.1).length < headerSize ∨
      Proper (announcedSize (connection.arrived ++ chunk.1)) := by
  have checks := filled.checked_iff tpcb chunk.1
  constructor
  · intro handles
    by_contra neither
    obtain ⟨long, improper⟩ := not_or.mp neither
    have ended := handles.ended opened (Nat.not_lt.mp long) improper
    by_cases checked : checkedBuffer tpcb chunk.1 connection.client connection.shared = none
    · exact (filled.arrive tpcb chunk opened).2.2 checked ended
    · exact improper (handles.checked opened checked).1
  · rintro (short | proper)
    · refine ⟨fun _ checked => ?_, fun _ long => absurd long (Nat.not_le.mpr short)⟩
      exact absurd (checks.mp checked).1 (Nat.not_lt.mpr (Nat.le_of_lt short))
    · refine ⟨fun _ checked => ⟨proper, ?_⟩, fun _ _ improper => absurd proper improper⟩
      have reached := (checks.mp checked).2
      rw [int32_of_small proper.2] at reached
      omega

/-- Where the header has arrived, the rest of the stream does not change the size. -/
theorem proper_append {received : List Byte} (long : headerSize ≤ received.length)
    (more : List Byte) : ((received ++ more).length < headerSize ∨
      Proper (announcedSize (received ++ more))) ↔ Proper (announcedSize received) := by
  rw [announcedSize_append (Nat.le_trans (by decide) long), List.length_append]
  exact or_iff_right (by omega)

/-- All chunks from a connection with some bytes on. -/
theorem Filled.along_iff (tpcb : Pcb) (chunks : List (List Byte × Replies)) :
    ∀ {connection : Connection Json}, connection.Filled →
      (connection.arrived.length < headerSize ∨ Proper (announcedSize connection.arrived)) →
      (Along (Connection.arrive lib tpcb) (Handles lib tpcb) connection chunks ↔
        (connection.arrived ++ (chunks.map Prod.fst).flatten).length < headerSize ∨
        Proper (announcedSize (connection.arrived ++ (chunks.map Prod.fst).flatten))) := by
  induction chunks with
  | nil =>
      intro connection _ good
      rw [List.map_nil, List.flatten_nil, List.append_nil]
      exact iff_of_true trivial good
  | cons chunk chunks ih =>
      intro connection filled good
      rw [Along, List.map_cons, List.flatten_cons]
      by_cases ended : connection.client.clientPcb = none
      · have long : headerSize ≤ connection.arrived.length := by
          by_contra short
          cases flag : connection.client.recvFlag with
          | true => exact short (Nat.le_of_lt (filled.behind flag).1)
          | false => exact (filled.before flag).2.2.1 ended
        have proper := good.resolve_left (Nat.not_lt.mpr long)
        have quiet : connection.Handles lib tpcb chunk :=
          ⟨fun opened => absurd ended opened, fun opened => absurd ended opened⟩
        rw [and_iff_right quiet, Connection.arrive, if_pos ended, ih filled good, proper_append
          long,
          proper_append long]
      · obtain ⟨next, arrived, -⟩ := @Filled.arrive _ lib _ filled tpcb chunk ended
        rw [filled.handles_iff tpcb chunk ended, ← List.append_assoc, ← arrived]
        constructor
        · rintro ⟨here, rest⟩
          exact (ih next here).mp rest
        · intro all
          have here : (connection.arrive lib tpcb chunk).arrived.length < headerSize ∨
              Proper (announcedSize (connection.arrive lib tpcb chunk).arrived) := by
            by_cases long : headerSize ≤ (connection.arrive lib tpcb chunk).arrived.length
            · exact .inr ((proper_append long _).mp all)
            · exact .inl (Nat.not_le.mp long)
          exact ⟨here, (ih next here).mpr all⟩

end Connection

end Connection

/-- For every sequence of chunks on a fresh connection: the server acts only on fully received
messages of a proper size and ends the connection of any other if and only if no header has arrived
or the size it announces is proper. -/
theorem acts_on_full_messages_iff {Json : Type} (lib : CJson Json) (tpcb : Pcb)
    (slot : ServerPerClient) (shared : Shared Json) (chunks : List (List Byte × Replies)) :
    Along (Connection.arrive lib tpcb) (Connection.Handles lib tpcb)
        (Connection.accepted tpcb slot shared) chunks ↔
      (chunks.map Prod.fst).flatten.length < headerSize ∨
        Proper (announcedSize (chunks.map Prod.fst).flatten) :=
  Connection.Filled.along_iff tpcb chunks (Connection.accepted_filled tpcb slot shared)
    (.inl (show 0 < 12 by decide))

/-- A header that announces itself alone is answered, and a byte behind it is taken for a text. -/
theorem bare_header_checked :
    ¬Along (Connection.arrive oneObject 1) (Connection.Handles oneObject 1)
      (Connection.accepted 1 .zeroed idleShared)
      [([1, 0, 0, 0, 12, 0, 0, 0, 9, 0, 0, 0, 0x41], quiet)] := by
  rintro ⟨handles, -⟩
  have proper := ((Connection.accepted_filled 1 _ _).handles_iff 1 _ (by decide)).mp handles
  exact absurd proper (by unfold Proper; decide)

end PicoApConfigure.Json
