import PicoApConfigure.Json.Message
import Mathlib.Data.List.Forall2

/-!
# Several requests on one connection

The server keeps `recv_len`, `recv_flag` and `recv_size` after it has answered a message, so
every later chunk of the connection counts as a complete message.
-/

namespace PicoApConfigure.Json

open Nor Tcp

section Requests

variable {Json : Type} (lib : CJson Json)

/-- The chunks of each message, in the order of the messages. -/
def Delivers (requests : List Request) (deliveries : List (List (List Byte × Replies))) : Prop :=
  List.Forall₂ (fun request chunks => Cut chunks request.bytes) requests deliveries

/-- Every message is handled once, as it was sent, and gets one reply. -/
def Carried (requests : List Request) (handled : List Handled) : Prop :=
  List.Forall₂ (fun request handled =>
    Holds handled.buffer 0 request.bytes ∧ handled.written.length = 1) requests handled

/-- The server has a reply: it accepts the version of the message, or its own object can be
printed and counted. -/
def Answerable (mirror : Option Json) (dataVersion : Nat) : Prop :=
  uint32 (getMirrorUpdateCount lib mirror) ≤ dataVersion ∨
    ((lib.printPreallocated (getMirror lib mirror) printSize).1 = true ∧
      0 < getMirrorUpdateCount lib mirror)

/-! ## The reply -/

/-- Exactly the answerable messages get a reply. -/
theorem written_tcpServerJsonAnswer (replies : Replies) (client : ServerPerClient)
    (shared : Shared Json) :
    (written (tcpServerJsonAnswer lib replies client shared).calls).length = 1 ↔
      Answerable lib shared.mirror (dataVersionField shared.buffer) := by
  rw [Answerable]
  by_cases accepted : uint32 (getMirrorUpdateCount lib shared.mirror) ≤
      dataVersionField shared.buffer
  · rw [tcpServerJsonAnswer_accepts lib replies client accepted]
    simp [accepted, written_tcpServerJsonSend]
  · have prepared := jsonPrepGetCounterValue_pos lib
      { buffer := setSizeField shared.buffer (headerSize + 10),
        mirror := some (getMirror lib shared.mirror) }
    rw [tcpServerJsonAnswer_keeps lib replies client accepted, or_iff_right accepted]
    refine Iff.trans ?_ prepared
    dsimp only
    split
    · rename_i positive
      simp only [written_tcpServerJsonSend, List.length_singleton, positive]
    · rename_i unprepared
      simp only [written_tcpServerResult, List.length_nil, unprepared]
      exact ⟨(fun impossible => by cases impossible), False.elim⟩

/-! ## After the first message -/

/-- A connection on which every chunk counts as a complete message. -/
def Stuck (client : ServerPerClient) : Prop :=
  client.recvFlag = true ∧ client.recvSize ≤ client.recvLen

/-- `recv_flag`, `recv_size` and `recv_len` of a slot are left alone. -/
def KeepsReceive (before after : ServerPerClient) : Prop :=
  after.recvFlag = before.recvFlag ∧ after.recvSize = before.recvSize ∧
    after.recvLen = before.recvLen

theorem tcpServerResult_keepsReceive (replies : Replies) (client : ServerPerClient)
    (shared : Shared Json) : KeepsReceive client (tcpServerResult replies client shared).state := by
  rw [tcpServerResult, tcpCloseClient]
  split <;> exact ⟨rfl, rfl, rfl⟩

theorem tcpServerJsonSend_keepsReceive (replies : Replies) (tpcb : Option Pcb)
    (client : ServerPerClient) (shared : Shared Json) :
    KeepsReceive client (tcpServerJsonSend replies tpcb client shared).state := by
  simp only [tcpServerJsonSend]
  split
  · exact ⟨rfl, rfl, rfl⟩
  split
  · exact ⟨rfl, rfl, rfl⟩
  exact tcpServerResult_keepsReceive replies
    { client with sentLen := 0, status := replies.write } shared

/-- An answer leaves the receive state of its message behind. -/
theorem tcpServerJsonAnswer_keepsReceive (replies : Replies) (client : ServerPerClient)
    (shared : Shared Json) :
    KeepsReceive client (tcpServerJsonAnswer lib replies client shared).state := by
  by_cases accepted : uint32 (getMirrorUpdateCount lib shared.mirror) ≤
      dataVersionField shared.buffer
  · rw [tcpServerJsonAnswer_accepts lib replies client accepted]
    exact tcpServerJsonSend_keepsReceive replies _ { client with sendSize := headerSize } _
  · rw [tcpServerJsonAnswer_keeps lib replies client accepted]
    dsimp only
    split
    · exact tcpServerJsonSend_keepsReceive replies _ { client with sendSize := _ } _
    · exact tcpServerResult_keepsReceive replies { client with sendSize := headerSize + 10 } _

theorem Stuck.of_keeps {before after : ServerPerClient} (stuck : Stuck before)
    (keeps : KeepsReceive before after) : Stuck after := by
  obtain ⟨flag, size, len⟩ := keeps
  rw [Stuck, flag, size, len]
  exact stuck

theorem Stuck.store {client : ServerPerClient} (stuck : Stuck client) (tpcb : Pcb)
    (chunk : List Byte) (shared : Shared Json) :
    Stuck (tcpServerJsonStore tpcb chunk client shared).1 := by
  obtain ⟨flag, full⟩ := stuck
  simp only [tcpServerJsonStore, flag, Bool.true_eq_false, false_and, if_false]
  split
  · refine ⟨rfl, ?_⟩
    dsimp only
    omega
  · exact ⟨flag, full⟩

/-- Every chunk is handled as a message. -/
theorem Stuck.deliver {receiving : Receiving Json} (stuck : Stuck receiving.client)
    (tpcb : Pcb) (chunk : List Byte × Replies) :
    Stuck (receiving.deliver lib tpcb chunk).client ∧
      (receiving.deliver lib tpcb chunk).handled.length = receiving.handled.length + 1 := by
  have stored := stuck.store tpcb chunk.1 receiving.shared
  have full := stored.2
  simp only [Receiving.deliver, tcpServerJsonRecv, checkedBuffer, true_or, if_true, if_pos full,
    List.length_append, List.length_singleton, and_true]
  exact stored.of_keeps (tcpServerJsonAnswer_keepsReceive lib chunk.2 _ _)

theorem Stuck.deliverAll (tpcb : Pcb) (chunks : List (List Byte × Replies)) :
    ∀ {receiving : Receiving Json}, Stuck receiving.client →
      (receiving.deliverAll lib tpcb chunks).handled.length =
        receiving.handled.length + chunks.length := by
  induction chunks with
  | nil => exact fun _ => rfl
  | cons chunk chunks ih =>
      intro receiving stuck
      obtain ⟨next, more⟩ := stuck.deliver lib tpcb chunk
      rw [Receiving.deliverAll_cons, ih next, more, List.length_cons]
      omega

/-! ## How many messages a connection carries -/

/-- A message in one chunk. -/
def wholeChunk (request : Request) : List (List Byte × Replies) := [(request.bytes, quiet)]

/-- A message in two chunks, the first of one byte. -/
def twoChunks (request : Request) : List (List Byte × Replies) :=
  [(request.bytes.take 1, quiet), (request.bytes.drop 1, quiet)]

theorem Request.bytes_ne_nil (request : Request) : request.bytes ≠ [] := by
  intro empty
  have length := request.toMessage.bytes_length
  have long := request.headerSize_lt_size
  rw [empty, List.length_nil] at length
  omega

theorem wholeChunk_cut (request : Request) : Cut (wholeChunk request) request.bytes where
  some := by
    intro chunk member
    rw [List.mem_singleton.mp member]
    exact request.bytes_ne_nil
  flat := List.append_nil _

theorem twoChunks_cut (request : Request) : Cut (twoChunks request) request.bytes where
  some := by
    have length := request.toMessage.bytes_length
    have long := request.headerSize_lt_size
    simp only [headerSize] at long
    intro chunk member empty
    have short := congrArg List.length empty
    rcases List.mem_cons.mp member with rfl | member
    · rw [List.length_take, List.length_nil] at short
      omega
    · rw [List.mem_singleton.mp member, List.length_drop, List.length_nil] at short
      omega
  flat := by
    simp only [twoChunks, List.map_cons, List.map_nil, List.flatten_cons, List.flatten_nil,
      List.append_nil, List.take_append_drop]

theorem wholeChunks_delivers (requests : List Request) :
    Delivers requests (requests.map wholeChunk) := by
  induction requests with
  | nil => exact .nil
  | cons request requests ih => exact .cons (wholeChunk_cut request) ih

theorem wholeChunks_length (requests : List Request) :
    (requests.map wholeChunk).flatten.length = requests.length := by
  induction requests with
  | nil => rfl
  | cons request requests ih =>
      rw [List.map_cons, List.flatten_cons, List.length_append, ih, List.length_cons]
      exact Nat.add_comm _ _

/-- The state a first message leaves behind. -/
theorem first_message_stuck (tpcb : Pcb) (slot : ServerPerClient) (shared : Shared Json)
    (request : Request) :
    Stuck ((Receiving.accepted tpcb slot shared).deliverAll lib tpcb (wholeChunk request)).client ∧
      ((Receiving.accepted tpcb slot shared).deliverAll lib tpcb
        (wholeChunk request)).handled.length = 1 := by
  have cut : Cut ([] ++ [(request.bytes, quiet)]) request.bytes := wholeChunk_cut request
  obtain ⟨_, after, final, delivered, _, _, assembling⟩ :=
    Receiving.first_message lib tpcb slot shared cut
  rw [List.nil_append] at delivered
  have full : Stuck after := by
    have long := request.headerSize_lt_size
    rw [Stuck, assembling.recvFlag, assembling.recvSize, assembling.recvLen,
      Message.bytes_length, decide_eq_true long, if_pos long]
    exact ⟨rfl, Int.le_refl _⟩
  rw [wholeChunk, delivered]
  exact ⟨full.of_keeps (tcpServerJsonAnswer_keepsReceive lib quiet after final), rfl⟩

/-- A connection carries its requests, however they are cut into chunks, exactly when there
is at most one and the server has a reply to it. -/
theorem requests_carried_iff (tpcb : Pcb) (slot : ServerPerClient) (shared : Shared Json)
    (requests : List Request) :
    (∀ deliveries, Delivers requests deliveries →
      Carried requests ((Receiving.accepted tpcb slot shared).deliverAll lib tpcb
        deliveries.flatten).handled) ↔
      requests = [] ∨ ∃ request, requests = [request] ∧
        Answerable lib shared.mirror request.dataVersion := by
  constructor
  · intro carried
    match requests with
    | [] => exact .inl rfl
    | [request] =>
        refine .inr ⟨request, rfl, ?_⟩
        have cut : Cut ([] ++ [(request.bytes, quiet)]) request.bytes := wholeChunk_cut request
        obtain ⟨_, after, final, delivered, _, mirror, assembling⟩ :=
          Receiving.first_message lib tpcb slot shared cut
        have handled := carried [wholeChunk request] (.cons (wholeChunk_cut request) .nil)
        rw [List.flatten_singleton, wholeChunk] at handled
        rw [List.nil_append] at delivered
        rw [delivered] at handled
        have fields := Message.fields (List.prefix_refl request.bytes)
          (by rw [Message.bytes_length]; exact request.headerSize_le_size) assembling.holds
        cases handled with
        | cons both _ =>
            rw [← mirror, ← fields.2]
            exact (written_tcpServerJsonAnswer lib quiet after final).mp both.2
    | request :: second :: rest =>
        obtain ⟨stuck, single⟩ := first_message_stuck lib tpcb slot shared request
        have delivers : Delivers (request :: second :: rest)
            (wholeChunk request :: twoChunks second :: rest.map wholeChunk) :=
          .cons (wholeChunk_cut request) (.cons (twoChunks_cut second)
            (wholeChunks_delivers rest))
        have handled := (carried _ delivers).length_eq
        rw [List.flatten_cons, List.flatten_cons, Receiving.deliverAll_append,
          Stuck.deliverAll lib tpcb _ stuck, single, List.length_append, wholeChunks_length]
          at handled
        simp only [twoChunks, List.length_cons, List.length_nil] at handled
        omega
  · rintro (rfl | ⟨request, rfl, answerable⟩) deliveries delivers
    · cases delivers
      exact .nil
    · cases delivers with
      | @cons _ chunks _ _ cut none =>
          cases none
          rw [List.flatten_singleton]
          rcases List.eq_nil_or_concat chunks with rfl | ⟨front, last, rfl⟩
          · exact absurd cut.flat.symm request.bytes_ne_nil
          rw [List.concat_eq_append] at cut ⊢
          obtain ⟨_, after, final, delivered, _, mirror, assembling⟩ :=
            Receiving.first_message lib tpcb slot shared cut
          have fields := Message.fields (List.prefix_refl request.bytes)
            (by rw [Message.bytes_length]; exact request.headerSize_le_size) assembling.holds
          rw [← mirror, ← fields.2] at answerable
          rw [delivered]
          exact .cons ⟨assembling.holds,
            (written_tcpServerJsonAnswer lib last.2 after final).mpr answerable⟩ .nil

end Requests

/-- A header and one character. -/
def smallRequest : Request where
  dataVersion := 1
  text := [0x7b]
  version := by decide
  fits := by decide
  nonempty := by decide

/-- The second of two messages arrives in two chunks, and each of them is handled. -/
theorem second_request_handled_twice :
    ¬ ∀ (requests : List Request) (deliveries : List (List (List Byte × Replies))),
      Delivers requests deliveries →
        Carried requests ((Receiving.accepted 1 .zeroed idleShared).deliverAll oneObject 1
          deliveries.flatten).handled := by
  intro carried
  obtain ⟨stuck, single⟩ := first_message_stuck oneObject 1 .zeroed idleShared smallRequest
  have handled := (carried [smallRequest, smallRequest]
    [wholeChunk smallRequest, twoChunks smallRequest]
    (.cons (wholeChunk_cut smallRequest) (.cons (twoChunks_cut smallRequest) .nil))).length_eq
  rw [List.flatten_cons, List.flatten_singleton, Receiving.deliverAll_append,
    Stuck.deliverAll oneObject 1 _ stuck, single] at handled
  cases handled

end PicoApConfigure.Json
