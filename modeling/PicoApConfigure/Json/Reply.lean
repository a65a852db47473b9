import Mathlib.Algebra.Order.Ring.Nat
import PicoApConfigure.Json.Message

/-!
# Reassembly of a reply by the client

The announced size of the reply is read from the buffer while the reply is stored there.
Until its four bytes have arrived the field is a mixture with the size of the buffer, which
is never smaller than the size of the reply.
-/

namespace PicoApConfigure.Json

open Nor Tcp

/-- A field that is stored in place. -/
theorem wordBytes_wordAt (memory : Memory) (address : Nat) :
    wordBytes (wordAt memory address) =
      [memory address, memory (address + 1), memory (address + 2), memory (address + 3)] := by
  have zero := (memory address).isLt
  have one := (memory (address + 1)).isLt
  have two := (memory (address + 2)).isLt
  have three := (memory (address + 3)).isLt
  simp only [wordBytes, wordAt, List.cons.injEq, and_true]
  refine ⟨?_, ?_, ?_, ?_⟩ <;>
    · apply BitVec.eq_of_toNat_eq
      rw [BitVec.toNat_ofNat]
      omega

/-- Reading the size field and storing it again changes nothing. -/
theorem setSizeField_self (buffer : Memory) : setSizeField buffer (sizeField buffer) = buffer := by
  funext query
  rw [setSizeField, sizeField, wordBytes_wordAt]
  by_cases below : query < 4
  · exact store_of_lt _ _ below
  by_cases inside : query < 8
  · obtain ⟨offset, rfl⟩ := Nat.exists_eq_add_of_le (Nat.not_lt.mp below)
    have small : offset < 4 := by omega
    rw [store_at _ _ small]
    match offset, small with
    | 0, _ | 1, _ | 2, _ | 3, _ => rfl
  · exact store_of_le _ _ (Nat.not_lt.mp inside)

/-- A size that is partly received, the rest being that of the whole buffer. -/
theorem partial_size {size known : Nat} {buffer : Memory} (small : size ≤ maxJsonBufSize)
    (received : ∀ offset (lt : offset < 4), offset < known →
      buffer (4 + offset) = (wordBytes size)[offset])
    (rest : ∀ offset (lt : offset < 4), known ≤ offset →
      buffer (4 + offset) = (wordBytes maxJsonBufSize)[offset]) :
    size ≤ sizeField buffer ∧ sizeField buffer < 4096 ∧ (4 ≤ known → sizeField buffer = size) := by
  have byte : ∀ offset (lt : offset < 4), (buffer (4 + offset)).toNat =
      if offset < known then ((wordBytes size)[offset]).toNat
      else ((wordBytes maxJsonBufSize)[offset]).toNat := by
    intro offset lt
    by_cases before : offset < known
    · rw [if_pos before, received offset lt before]
    · rw [if_neg before, rest offset lt (Nat.not_lt.mp before)]
  have zero := byte 0 (by decide)
  have one := byte 1 (by decide)
  have two := byte 2 (by decide)
  have three := byte 3 (by decide)
  simp only [wordBytes, maxJsonBufSize, List.getElem_cons_zero, List.getElem_cons_succ,
    BitVec.toNat_ofNat] at zero one two three small
  -- the two upper bytes are zero either way
  have twoZero : (buffer 6).toNat = 0 := by
    rw [two]
    split <;> omega
  have threeZero : (buffer 7).toNat = 0 := by
    rw [three]
    split <;> omega
  have value : sizeField buffer = (buffer 4).toNat + 256 * (buffer 5).toNat := by
    simp only [sizeField, wordAt, Nat.reduceAdd, twoZero, threeZero, Nat.mul_zero, Nat.add_zero]
  rw [value, zero, one]
  by_cases first : 0 < known
  · rw [if_pos first]
    by_cases second : 1 < known
    · rw [if_pos second]
      omega
    · rw [if_neg second]
      omega
  · have second : ¬ 1 < known := by omega
    rw [if_neg first, if_neg second]
    omega

section Client

variable {Json : Type} (lib : CJson Json)

/-- The state of a client after its message was acknowledged and the first bytes of the
reply have arrived. -/
structure Awaiting (received : List Byte) (client : TcpClientT) (shared : Shared Json) : Prop where
  recvLen : client.recvLen = received.length
  holds : Holds shared.buffer 0 received
  rest : ∀ offset (lt : offset < 4), received.length ≤ 4 + offset →
    shared.buffer (4 + offset) = (wordBytes maxJsonBufSize)[offset]

/-- What the client takes for the size of the reply. -/
theorem Awaiting.announced {message : Message} {received : List Byte} {client : TcpClientT}
    {shared : Shared Json} (awaiting : Awaiting received client shared)
    (prefixed : received <+: message.bytes) :
    message.size ≤ sizeField shared.buffer ∧ sizeField shared.buffer < 4096 ∧
      (8 ≤ received.length → sizeField shared.buffer = message.size) := by
  have size : ∀ offset (lt : offset < 4), offset < received.length - 4 →
      shared.buffer (4 + offset) = (wordBytes message.size)[offset] := by
    intro offset lt inside
    have bound : 4 + offset < received.length := by omega
    have byte := holds_iff.mp awaiting.holds (4 + offset) bound
    rw [Nat.zero_add] at byte
    have field : message.bytes[4 + offset]? = (wordBytes message.size)[offset]? := by
      rw [Message.bytes, TcpJsonHeader.bytes, List.append_assoc,
        List.getElem?_append_right (Nat.le_add_right 4 offset), wordBytes_length,
        Nat.add_sub_cancel_left, List.append_assoc, List.getElem?_append_left lt]
      rfl
    rw [byte, prefixed.getElem bound]
    refine Option.some.inj ?_
    rw [← List.getElem?_eq_getElem, field]
    exact List.getElem?_eq_getElem lt
  have partly := partial_size message.size_le size (by
    intro offset lt outside
    exact awaiting.rest offset lt (by omega))
  exact ⟨partly.1, partly.2.1, fun long => partly.2.2 (by omega)⟩

/-- A chunk of the reply is stored behind the bytes before it. -/
theorem Awaiting.store {message : Message} {received chunk : List Byte} {client : TcpClientT}
    {shared : Shared Json} (awaiting : Awaiting received client shared)
    (some : chunk ≠ []) (prefixed : received ++ chunk <+: message.bytes) (pcb : Pcb) :
    tcpClientJsonStore pcb chunk client shared =
        ({ client with recvLen := received.length + chunk.length },
          { shared with buffer := Nor.store shared.buffer received.length chunk },
          [.recved pcb chunk.length]) ∧
      Awaiting (received ++ chunk)
        { client with recvLen := received.length + chunk.length }
        { shared with buffer := Nor.store shared.buffer received.length chunk } := by
  obtain ⟨enough, small, _⟩ := awaiting.announced ((List.prefix_append _ _).trans prefixed)
  have length := prefixed.length_le
  rw [List.length_append, Message.bytes_length] at length
  have left : uint16 (sizeField shared.buffer - received.length) =
      sizeField shared.buffer - received.length := by
    rw [uint16]
    omega
  have whole : chunk.take (sizeField shared.buffer - received.length) = chunk :=
    List.take_of_length_le (by omega)
  refine ⟨?_, ⟨(List.length_append).symm, ?_, ?_⟩⟩
  · simp only [tcpClientJsonStore, if_pos (List.length_pos_iff.mpr some), awaiting.recvLen, left,
      whole, setSizeField_self, ite_self]
  · rw [holds_append, Nat.zero_add]
    refine ⟨awaiting.holds.congr fun query _ below => ?_, holds_store _ _ _⟩
    exact (store_of_lt _ _ (by omega)).symm
  · intro offset lt outside
    rw [List.length_append] at outside
    exact (store_of_le _ _ outside).trans (awaiting.rest offset lt (by omega))

/-- The buffer that `tcp_client_json_handle_reply` is given, where the chunk makes
`tcp_client_json_recv` call it. -/
def repliedBuffer (pcb : Pcb) (chunk : List Byte) (client : TcpClientT)
    (shared : Shared Json) : Option Memory :=
  let (client, shared, _) := tcpClientJsonStore pcb chunk client shared
  if sizeField shared.buffer ≤ client.recvLen then some shared.buffer else none

/-- The chunk is not the last one of the reply. -/
theorem Awaiting.recv_pending {message : Message} {received chunk : List Byte}
    {client : TcpClientT} {shared : Shared Json}
    (awaiting : Awaiting received client shared) (some : chunk ≠ [])
    (prefixed : received ++ chunk <+: message.bytes)
    (pending : (received ++ chunk).length < message.size) (replies : Replies) (pcb : Pcb) :
    tcpClientJsonRecv lib replies pcb (.some chunk) client shared =
        { state := .some { client with recvLen := received.length + chunk.length }
          shared := { shared with buffer := Nor.store shared.buffer received.length chunk }
          calls := [.recved pcb chunk.length]
          result := .ok } ∧
      repliedBuffer pcb chunk client shared = none := by
  obtain ⟨stored, next⟩ := awaiting.store some prefixed pcb
  have announced := (next.announced prefixed).1
  have short : ¬ sizeField (Nor.store shared.buffer received.length chunk) ≤
      received.length + chunk.length := by
    rw [List.length_append] at pending
    dsimp only at announced
    omega
  simp only [tcpClientJsonRecv, repliedBuffer, stored, if_neg short, and_self]

/-- The chunk is the last one of the reply. -/
theorem Awaiting.recv_complete {message : Message} {received chunk : List Byte}
    {client : TcpClientT} {shared : Shared Json}
    (awaiting : Awaiting received client shared) (some : chunk ≠ [])
    (complete : received ++ chunk = message.bytes) (replies : Replies) (pcb : Pcb) :
    tcpClientJsonRecv lib replies pcb (.some chunk) client shared =
        (tcpClientResult replies { client with recvLen := received.length + chunk.length }
          (tcpClientJsonHandleReply lib message.size
            { shared with buffer := Nor.store shared.buffer received.length chunk })).after
              [.recved pcb chunk.length] ∧
      repliedBuffer pcb chunk client shared =
        .some (Nor.store shared.buffer received.length chunk) ∧
      Holds (Nor.store shared.buffer received.length chunk) 0 message.bytes := by
  have prefixed : received ++ chunk <+: message.bytes := complete ▸ List.prefix_refl _
  obtain ⟨stored, next⟩ := awaiting.store some prefixed pcb
  have total := congrArg List.length complete
  rw [Message.bytes_length] at total
  have header := message.headerSize_le_size
  have announced := (next.announced prefixed).2.2 (by
    rw [total]
    exact Nat.le_trans (by decide) header)
  dsimp only at announced
  rw [List.length_append] at total
  have full : message.size ≤ received.length + chunk.length := Nat.le_of_eq total.symm
  refine ⟨?_, ?_, complete ▸ next.holds⟩
  · simp only [tcpClientJsonRecv, stored, announced, if_pos full,
      int32_of_small message.size_le]
  · simp only [repliedBuffer, stored, announced, if_pos full]

/-! ## Runs -/

/-- A client whose message was written, with the buffers it gave to
`tcp_client_json_handle_reply`. -/
structure Replying (Json : Type) where
  block : Option TcpClientT
  shared : Shared Json
  handled : List Memory

namespace Replying

/-- Some bytes of the message are acknowledged. -/
def ack (replying : Replying Json) (len : Nat) : Replying Json :=
  match replying.block with
  | none => replying
  | some client =>
      let outcome := tcpClientJsonSent len client replying.shared
      { replying with block := outcome.state, shared := outcome.shared }

/-- A chunk of the reply arrives. -/
def receive (pcb : Pcb) (replying : Replying Json) (chunk : List Byte × Replies) :
    Replying Json :=
  match replying.block with
  | none => replying
  | some client =>
      let outcome := tcpClientJsonRecv lib chunk.2 pcb (some chunk.1) client replying.shared
      { block := outcome.state
        shared := outcome.shared
        handled := replying.handled ++
          (repliedBuffer pcb chunk.1 client replying.shared).toList }

/-- Acknowledgements one after the other. -/
def ackAll (replying : Replying Json) (acks : List Nat) : Replying Json := acks.foldl ack replying

/-- Chunks of the reply one after the other. -/
def receiveAll (pcb : Pcb) (replying : Replying Json) (chunks : List (List Byte × Replies)) :
    Replying Json :=
  chunks.foldl (receive lib pcb) replying

@[simp] theorem ackAll_cons (replying : Replying Json) (len : Nat) (acks : List Nat) :
    replying.ackAll (len :: acks) = (replying.ack len).ackAll acks := rfl

@[simp] theorem receiveAll_nil (pcb : Pcb) (replying : Replying Json) :
    replying.receiveAll lib pcb [] = replying := rfl

@[simp] theorem receiveAll_cons (pcb : Pcb) (replying : Replying Json)
    (chunk : List Byte × Replies) (chunks : List (List Byte × Replies)) :
    replying.receiveAll lib pcb (chunk :: chunks) =
      (replying.receive lib pcb chunk).receiveAll lib pcb chunks := rfl

@[simp] theorem receiveAll_append (pcb : Pcb) (replying : Replying Json)
    (left right : List (List Byte × Replies)) :
    replying.receiveAll lib pcb (left ++ right) =
      (replying.receiveAll lib pcb left).receiveAll lib pcb right := List.foldl_append

end Replying

/-- The acknowledgements of a whole message prepare the client for the reply. -/
theorem Replying.ackAll_message {acks : List Nat} :
    ∀ {client : TcpClientT} {shared : Shared Json} {size : Nat} {handled : List Memory},
      sizeField shared.buffer = size → (∀ len ∈ acks, 0 < len) → acks ≠ [] →
      client.sentLen + acks.sum = size →
      (Replying.mk (some client) shared handled).ackAll acks =
        { block := some { client with count := client.count + 1, recvLen := 0, sentLen := 0 }
          shared := { shared with buffer := setSizeField shared.buffer maxJsonBufSize }
          handled } := by
  induction acks with
  | nil => exact fun _ _ impossible => absurd rfl impossible
  | cons len acks ih =>
      intro client shared size handled announced positive _ total
      rw [List.sum_cons] at total
      rw [ackAll_cons, ack]
      by_cases last : acks = []
      · subst last
        have full : sizeField shared.buffer ≤ client.sentLen + len := by
          rw [announced, ← total, List.sum_nil]
          exact Nat.le_refl _
        simp only [tcpClientJsonSent, if_pos full]
        rfl
      · have more : 0 < acks.sum := by
          obtain ⟨other, rest, rfl⟩ := List.exists_cons_of_ne_nil last
          have pos := positive other (List.mem_cons_of_mem _ List.mem_cons_self)
          rw [List.sum_cons]
          omega
        have short : ¬ sizeField shared.buffer ≤ client.sentLen + len := by omega
        simp only [tcpClientJsonSent, if_neg short]
        exact ih announced (fun other member => positive other (List.mem_cons_of_mem _ member))
          last (by dsimp only; omega)

/-- A client that is ready for a reply. -/
theorem awaiting_start (client : TcpClientT) (buffer : Memory) (mirror : Option Json)
    (empty : client.recvLen = 0) :
    Awaiting [] client { buffer := setSizeField buffer maxJsonBufSize, mirror } where
  recvLen := empty
  holds := holds_nil _ _
  rest := by
    intro offset lt _
    exact store_at _ _ lt

/-- All chunks of a reply but the last one: nothing is handled. -/
theorem Awaiting.receiveAll_pending {message : Message} {pcb : Pcb}
    {chunks : List (List Byte × Replies)} :
    ∀ (handled : List Memory) {received : List Byte} {client : TcpClientT}
      {shared : Shared Json}, Awaiting received client shared →
      (∀ chunk ∈ chunks, chunk.1 ≠ []) →
      received ++ (chunks.map Prod.fst).flatten <+: message.bytes →
      (received ++ (chunks.map Prod.fst).flatten).length < message.size →
      ∃ after final, (Replying.mk (.some client) shared handled).receiveAll lib pcb chunks =
          { block := .some after, shared := final, handled } ∧
        final.mirror = shared.mirror ∧
        Awaiting (received ++ (chunks.map Prod.fst).flatten) after final := by
  induction chunks with
  | nil =>
      intro handled received client shared awaiting _ _ _
      refine ⟨client, shared, rfl, rfl, ?_⟩
      rw [List.map_nil, List.flatten_nil, List.append_nil]
      exact awaiting
  | cons chunk chunks ih =>
      intro handled received client shared awaiting some prefixed pending
      rw [List.map_cons, List.flatten_cons, ← List.append_assoc] at prefixed pending ⊢
      have first : received ++ chunk.1 <+: message.bytes :=
        (List.prefix_append _ _).trans prefixed
      have shorter : (received ++ chunk.1).length < message.size := by
        rw [List.length_append] at pending
        omega
      have nonempty := some chunk List.mem_cons_self
      obtain ⟨stored, next⟩ := awaiting.store nonempty first pcb
      obtain ⟨recv, silent⟩ := awaiting.recv_pending lib nonempty first shorter chunk.2 pcb
      obtain ⟨after, final, rest, mirror, last⟩ := ih handled next
        (fun later member => some later (List.mem_cons_of_mem _ member)) prefixed pending
      refine ⟨after, final, ?_, mirror, last⟩
      rw [Replying.receiveAll_cons, Replying.receive]
      simp only [recv, silent, Option.toList_none, List.append_nil]
      exact rest

/-- A whole reply: it is handled once, with its last chunk. -/
theorem Awaiting.receiveAll_complete {message : Message} {pcb : Pcb}
    {client : TcpClientT} {shared : Shared Json} (awaiting : Awaiting [] client shared)
    {front : List (List Byte × Replies)} {last : List Byte × Replies}
    (cut : Cut (front ++ [last]) message.bytes) :
    ((Replying.mk (some client) shared []).receiveAll lib pcb front).handled = [] ∧
    ∃ buffer, Holds buffer 0 message.bytes ∧
      (Replying.mk (some client) shared []).receiveAll lib pcb (front ++ [last]) =
        { block := none
          shared := tcpClientJsonHandleReply lib message.size { shared with buffer }
          handled := [buffer] } := by
  have flat := cut.flat
  rw [List.map_append, List.flatten_append, List.map_singleton, List.flatten_singleton] at flat
  have some := cut.some last (List.mem_append_right _ (List.mem_singleton.mpr rfl))
  have size := congrArg List.length flat
  rw [List.length_append, Message.bytes_length] at size
  have positive := List.length_pos_iff.mpr some
  have prefixed : [] ++ (front.map Prod.fst).flatten <+: message.bytes := by
    rw [List.nil_append, ← flat]
    exact List.prefix_append _ _
  have pending : ([] ++ (front.map Prod.fst).flatten).length < message.size := by
    rw [List.nil_append]
    omega
  obtain ⟨after, before, received, mirror, next⟩ := awaiting.receiveAll_pending lib []
    (fun chunk member => cut.some chunk (List.mem_append_left _ member)) prefixed pending
  rw [List.nil_append] at next
  refine ⟨by rw [received], ?_⟩
  obtain ⟨recv, replied, holds⟩ := next.recv_complete lib some flat last.2 pcb
  refine ⟨_, holds, ?_⟩
  rw [Replying.receiveAll_append, received, Replying.receiveAll_cons, Replying.receiveAll_nil,
    Replying.receive]
  simp only [recv, replied, Option.toList_some, List.nil_append, Outcome.after, mirror]
  rfl

end Client

end PicoApConfigure.Json
