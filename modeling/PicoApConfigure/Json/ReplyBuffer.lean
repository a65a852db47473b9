import PicoApConfigure.Json.Announced
import PicoApConfigure.Json.Reply

/-!
# The buffer of the client

The client finds the space that is left from the size field, which is part of the buffer it fills.
A size that is larger than the buffer lets a later chunk be stored behind its end, and a size field
of which only some bytes have arrived can be reached at once.
-/

namespace PicoApConfigure.Json

open Nor Tcp

/-- The size field of a buffer that asked for `asked` bytes, with the bytes received since. -/
def expectedSize (asked : Nat) (received : List Byte) : Nat :=
  sizeField (store (setSizeField (fun _ => 0) asked) 0 received)

section Incoming

variable {Json : Type} (lib : CJson Json)

/-- A client after its request: the size it asks for, and the bytes it has received since. -/
structure Incoming (Json : Type) where
  block : Option TcpClientT
  shared : Shared Json
  asked : Nat
  received : List Byte

/-- A callback: the request is acknowledged in part or whole, or a chunk arrives. -/
inductive IncomingEvent where
  | sent (len : Nat)
  | chunk (bytes : List Byte) (replies : Replies)

namespace Incoming

/-- The bytes of a chunk that are stored. -/
def stored (client : TcpClientT) (shared : Shared Json) (bytes : List Byte) : List Byte :=
  bytes.take (uint16 (sizeField shared.buffer - client.recvLen))

/-- What the callback does.  With the whole request acknowledged, the client starts to receive. -/
def callback (pcb : Pcb) (incoming : Incoming Json) : IncomingEvent → Incoming Json
  | .sent len =>
      match incoming.block with
      | none => incoming
      | some client =>
          let outcome := tcpClientJsonSent len client incoming.shared
          let after := { incoming with block := outcome.state, shared := outcome.shared }
          if sizeField incoming.shared.buffer ≤ client.sentLen + len then
            { after with asked := maxJsonBufSize, received := [] }
          else after
  | .chunk bytes replies =>
      match incoming.block with
      | none => incoming
      | some client =>
          let outcome := tcpClientJsonRecv lib replies pcb (some bytes) client incoming.shared
          { incoming with
            block := outcome.state, shared := outcome.shared
            received := incoming.received ++ stored client incoming.shared bytes }

/-- A client that has sent its request. -/
def requested (client : TcpClientT) (shared : Shared Json) : Incoming Json where
  block := some { client with recvLen := 0, sentLen := 0 }
  shared := shared
  asked := sizeField shared.buffer
  received := []

/-- What is stored lies in the buffer, and `tcp_client_json_handle_reply` is called only with the
announced number of bytes received, which is one that the buffer holds. -/
def Contained (pcb : Pcb) (incoming : Incoming Json) : IncomingEvent → Prop
  | .sent _ => True
  | .chunk bytes _ => ∀ client, incoming.block = some client →
      (stored client incoming.shared bytes ≠ [] →
        client.recvLen + (stored client incoming.shared bytes).length ≤ maxJsonBufSize) ∧
      (repliedBuffer pcb bytes client incoming.shared ≠ none →
        let received := incoming.received ++ stored client incoming.shared bytes
        8 ≤ received.length ∧ announcedSize received ≤ received.length ∧
          announcedSize received ≤ maxJsonBufSize)

/-- The bytes of a chunk behind `received` for which the size field leaves space. -/
def accepted (asked : Nat) (received bytes : List Byte) : List Byte :=
  bytes.take ((expectedSize asked received - received.length) % 65536)

/-- The size field is no larger than the buffer, or the chunk or the space taken for it ends inside
the buffer; and the chunk does not end inside a size field that is reached already. -/
def Fits (incoming : Incoming Json) : IncomingEvent → Prop
  | .sent _ => True
  | .chunk bytes _ => incoming.block ≠ none →
      (expectedSize incoming.asked incoming.received ≤ maxJsonBufSize ∨
        incoming.received.length + bytes.length ≤ maxJsonBufSize ∨
        incoming.received.length + (expectedSize incoming.asked incoming.received -
          incoming.received.length) % 65536 ≤ maxJsonBufSize) ∧
      let received := incoming.received ++ accepted incoming.asked incoming.received bytes
      8 ≤ received.length ∨ received.length < expectedSize incoming.asked received

/-- The size field is what the bytes received so far have made of it, and it is not exceeded. -/
structure Expecting (incoming : Incoming Json) (client : TcpClientT) : Prop where
  recvLen : client.recvLen = incoming.received.length
  bounded : incoming.received.length ≤ maxJsonBufSize
  field : ∀ offset < 4, incoming.shared.buffer (4 + offset) =
    store (setSizeField (fun _ => 0) incoming.asked) 0 incoming.received (4 + offset)
  unreached : incoming.received.length ≤ expectedSize incoming.asked incoming.received

theorem setSizeField_congr (left right : Memory) (size : Nat) {offset : Nat} (small : offset < 4) :
    setSizeField left size (4 + offset) = setSizeField right size (4 + offset) := by
  have inside : offset < (wordBytes size).length := small
  rw [setSizeField, setSizeField, store_at left 4 inside, store_at right 4 inside]

theorem expectedSize_of_long {asked : Nat} {received : List Byte} (long : 8 ≤ received.length) :
    expectedSize asked received = announcedSize received :=
  announcedSize_of_holds (holds_store _ 0 received) long

variable {lib} {incoming : Incoming Json} {client : TcpClientT}

theorem Expecting.size (expecting : incoming.Expecting client) :
    sizeField incoming.shared.buffer = expectedSize incoming.asked incoming.received :=
  wordAt_congr expecting.field

theorem Expecting.stored_eq (expecting : incoming.Expecting client) (bytes : List Byte) :
    stored client incoming.shared bytes =
      accepted incoming.asked incoming.received bytes := by
  have unreached := expecting.unreached
  rw [stored, accepted, expecting.size, expecting.recvLen, uint16]
  congr 1
  omega

/-- What `tcp_client_json_recv` stores. -/
theorem Expecting.store (expecting : incoming.Expecting client) (pcb : Pcb) (bytes : List Byte) :
    ∃ after shared calls, tcpClientJsonStore pcb bytes client incoming.shared =
        (after, shared, calls) ∧
      after.recvLen = (incoming.received ++ stored client incoming.shared bytes).length ∧
      ∀ offset < 4, shared.buffer (4 + offset) =
        Nor.store (setSizeField (fun _ => 0) incoming.asked) 0
          (incoming.received ++ stored client incoming.shared bytes) (4 + offset) := by
  by_cases positive : 0 < bytes.length
  swap
  · obtain rfl : bytes = [] := List.length_eq_zero_iff.mp (Nat.eq_zero_of_not_pos positive)
    refine ⟨client, incoming.shared, [], rfl, ?_⟩
    rw [stored, List.take_nil, List.append_nil]
    exact ⟨expecting.recvLen, expecting.field⟩
  simp only [tcpClientJsonStore, if_pos positive, setSizeField_self, ite_self]
  refine ⟨_, _, _, rfl, ?_, fun offset small => ?_⟩
  · rw [List.length_append, ← expecting.recvLen]
    rfl
  · rw [← store_append, Nat.zero_add, ← expecting.recvLen]
    simp only [Nor.store, expecting.field offset small]
    rfl

/-- When the reply is handled. -/
theorem Expecting.replied_iff (expecting : incoming.Expecting client) (pcb : Pcb)
    (bytes : List Byte) :
    repliedBuffer pcb bytes client incoming.shared ≠ none ↔
      expectedSize incoming.asked
          (incoming.received ++ stored client incoming.shared bytes) ≤
        (incoming.received ++ stored client incoming.shared bytes).length := by
  obtain ⟨after, shared, calls, store, recvLen, field⟩ := expecting.store pcb bytes
  have size : sizeField shared.buffer = expectedSize incoming.asked
      (incoming.received ++ stored client incoming.shared bytes) := wordAt_congr field
  rw [← size, ← recvLen, repliedBuffer, store]
  dsimp only
  split
  · next reached => exact iff_of_true (Option.some_ne_none _) reached
  · next waits => exact iff_of_false (not_not.mpr rfl) waits

/-- One chunk. -/
theorem Expecting.contained_iff (expecting : incoming.Expecting client)
    (present : incoming.block = some client) (pcb : Pcb) (event : IncomingEvent) :
    incoming.Contained pcb event ↔ incoming.Fits event := by
  cases event with
  | sent => exact Iff.rfl
  | chunk bytes replies =>
      have replied := expecting.replied_iff pcb bytes
      have same := expecting.stored_eq bytes
      have bounded := expecting.bounded
      have unreached := expecting.unreached
      have space : (accepted incoming.asked incoming.received bytes).length =
          min ((expectedSize incoming.asked incoming.received - incoming.received.length) % 65536)
            bytes.length := List.length_take
      rw [same] at replied
      simp only [Contained, Fits, present, Option.some.injEq, forall_eq', ne_eq, reduceCtorEq,
        not_false_eq_true, forall_const, same, expecting.recvLen]
      rw [← ne_eq, ← ne_eq, ← List.length_pos_iff, replied]
      have length := @List.length_append _ incoming.received
        (accepted incoming.asked incoming.received bytes)
      generalize incoming.received ++ accepted incoming.asked incoming.received bytes = received
        at *
      have within : (0 < (accepted incoming.asked incoming.received bytes).length →
          incoming.received.length + (accepted incoming.asked incoming.received bytes).length ≤
            maxJsonBufSize) ↔ received.length ≤ maxJsonBufSize := by omega
      have room : (expectedSize incoming.asked incoming.received ≤ maxJsonBufSize ∨
          incoming.received.length + bytes.length ≤ maxJsonBufSize ∨
          incoming.received.length + (expectedSize incoming.asked incoming.received -
            incoming.received.length) % 65536 ≤ maxJsonBufSize) ↔
          received.length ≤ maxJsonBufSize := by omega
      rw [within, room]
      refine and_congr_right fun inside => ⟨fun whole => ?_, fun apart reached => ?_⟩
      · by_cases reached : expectedSize incoming.asked received ≤ received.length
        · exact .inl (whole reached).1
        · exact .inr (Nat.not_le.mp reached)
      · have long := apart.resolve_right (Nat.not_lt.mpr reached)
        rw [expectedSize_of_long long] at reached
        exact ⟨long, reached, Nat.le_trans reached inside⟩

/-- Nothing happens when the client has ended. -/
theorem ended_iff (ended : incoming.block = none) (pcb : Pcb) (event : IncomingEvent) :
    incoming.Contained pcb event ↔ incoming.Fits event := by
  cases event with
  | sent => exact Iff.rfl
  | chunk bytes replies =>
      refine iff_of_true (fun client present => ?_) fun present => absurd ended present
      rw [ended] at present
      cases present

theorem callback_ended (ended : incoming.block = none) (pcb : Pcb) (event : IncomingEvent) :
    (incoming.callback lib pcb event).block = none := by
  cases event <;> simp only [callback, ended]

/-- The size field of a callback that leaves the client waiting. -/
theorem Expecting.callback (expecting : incoming.Expecting client)
    (present : incoming.block = some client) (pcb : Pcb) (event : IncomingEvent)
    (fits : incoming.Fits event) {next : TcpClientT}
    (waits : (incoming.callback lib pcb event).block = some next) :
    (incoming.callback lib pcb event).Expecting next := by
  have contained := (expecting.contained_iff present pcb event).mpr fits
  cases event with
  | sent len =>
      simp only [Incoming.callback, present, tcpClientJsonSent] at waits ⊢
      by_cases whole : sizeField incoming.shared.buffer ≤ client.sentLen + len
      · simp only [if_pos whole, Outcome.stay, Option.some.injEq] at waits ⊢
        subst waits
        refine ⟨rfl, Nat.zero_le _, fun offset small => ?_, Nat.zero_le _⟩
        rw [store_nil]
        exact setSizeField_congr _ _ _ small
      · simp only [if_neg whole, Outcome.stay, Option.some.injEq] at waits ⊢
        subst waits
        exact ⟨expecting.recvLen, expecting.bounded, expecting.field, expecting.unreached⟩
  | chunk bytes replies =>
      obtain ⟨inside, -⟩ := contained client present
      obtain ⟨after, shared, calls, store, recvLen, field⟩ := expecting.store pcb bytes
      have size : sizeField shared.buffer = expectedSize incoming.asked
          (incoming.received ++ stored client incoming.shared bytes) := wordAt_congr field
      simp only [Incoming.callback, present, tcpClientJsonRecv, store] at waits ⊢
      by_cases reached : sizeField shared.buffer ≤ after.recvLen
      · simp only [if_pos reached] at waits
        cases waits
      · simp only [if_neg reached, Option.some.injEq] at waits ⊢
        subst waits
        refine ⟨recvLen, ?_, field, ?_⟩
        · have bounded := expecting.bounded
          rw [expecting.recvLen, ne_eq, ← List.length_eq_zero_iff] at inside
          simp only [List.length_append]
          omega
        · rw [← size, ← recvLen]
          exact Nat.le_of_not_le reached

/-- A client that has sent its request waits for the size that it has asked for. -/
theorem requested_expecting (client : TcpClientT) (shared : Shared Json) :
    (requested client shared).Expecting { client with recvLen := 0, sentLen := 0 } where
  recvLen := rfl
  bounded := Nat.zero_le _
  field := by
    intro offset small
    simp only [requested, store_nil]
    rw [← setSizeField_congr shared.buffer _ (sizeField shared.buffer) small, setSizeField_self]
  unreached := Nat.zero_le _

end Incoming

end Incoming

/-- For every sequence of chunks and acknowledgements after a request: every chunk is stored inside
the buffer and only whole replies that it holds are handled if and only if every chunk fits. -/
theorem replies_contained_iff {Json : Type} (lib : CJson Json) (pcb : Pcb) (client : TcpClientT)
    (shared : Shared Json) (events : List IncomingEvent) :
    Along (Incoming.callback lib pcb) (Incoming.Contained pcb)
        (Incoming.requested client shared) events ↔
      Along (Incoming.callback lib pcb) Incoming.Fits (Incoming.requested client shared) events :=
      by
  refine @Along.iff_of_invariant _ _ (Incoming.callback lib pcb) _ _
    (fun incoming => ∀ client, incoming.block = some client → incoming.Expecting client)
    (fun incoming event expecting => ?_) (fun incoming event expecting fits next waits => ?_)
    events _ ?_
  · cases block : incoming.block with
    | some client => exact (expecting client block).contained_iff block pcb event
    | none => exact Incoming.ended_iff block pcb event
  · cases block : incoming.block with
    | some client => exact (expecting client block).callback block pcb event fits waits
    | none => cases (incoming.callback_ended block pcb event).symm.trans waits
  · rintro _ ⟨rfl⟩
    exact Incoming.requested_expecting client shared

/-- A client that has been acknowledged. -/
def acknowledged : Incoming Unit :=
  .requested tcpClientInit
    { buffer := setSizeField (fun _ => 0) maxJsonBufSize, mirror := none }

/-- A header that announces 5000 bytes. -/
def largeHeader : IncomingEvent := .chunk [1, 0, 0, 0, 0x88, 0x13, 0, 0, 9, 0, 0, 0] quiet

/-- The chunk behind the header is stored up to offset 3012. -/
theorem large_reply_overflows :
    ¬Along (Incoming.callback oneObject 1) (Incoming.Contained 1) acknowledged
      [largeHeader, .chunk (List.replicate 3000 0) quiet] := by
  rintro ⟨-, contained, -⟩
  have block : (acknowledged.callback oneObject 1 largeHeader).block =
      some { tcpClientInit with recvLen := 12 } := rfl
  have start : acknowledged.Expecting tcpClientInit := Incoming.requested_expecting _ _
  have header : acknowledged.Fits largeHeader := fun _ => ⟨.inl (by decide), .inl (by decide)⟩
  have expecting := start.callback rfl 1 largeHeader header block
  have fits := ((expecting.contained_iff block 1 _).mp contained (by rw [block]; nofun)).1
  have size : expectedSize (acknowledged.callback oneObject 1 largeHeader).asked
      (acknowledged.callback oneObject 1 largeHeader).received = 5000 := by decide
  have length : (acknowledged.callback oneObject 1 largeHeader).received.length = 12 := by decide
  rw [size, length, List.length_replicate] at fits
  revert fits
  decide

end PicoApConfigure.Json
