import PicoApConfigure.Json.Client
import Mathlib.Data.List.Pairwise

/-!
# Messages under memory pressure

The writes of a server slot, over all connections that use it, and of a client block.  Each
write is recorded with the message it is for: a callback other than a poll that writes
starts a new message, a poll writes the message of its connection again.
-/

namespace PicoApConfigure.Json

open Nor Tcp

/-- The results of the writes among the calls. -/
def writeReplies (calls : List Call) : List ErrT :=
  calls.filterMap fun call =>
    match call with
    | .write _ _ reply => some reply
    | _ => none

@[simp] theorem writeReplies_nil : writeReplies [] = [] := rfl

@[simp] theorem writeReplies_append (left right : List Call) :
    writeReplies (left ++ right) = writeReplies left ++ writeReplies right :=
  List.filterMap_append

/-- A write, with the message it is for. -/
structure Written where
  message : Option Nat
  reply : ErrT
  deriving DecidableEq

/-- Every write is for a message, and none follows the accepted write of its message. -/
structure SentOnce (writes : List Written) : Prop where
  named : ∀ written ∈ writes, written.message ≠ none
  accepted : writes.Pairwise fun early late => early.reply = .ok → late.message ≠ early.message

namespace SentOnce

theorem nil : SentOnce [] where
  named := (fun _ impossible => by cases impossible)
  accepted := .nil

/-- The first write of a new message. -/
theorem append_new {writes : List Written} {message : Nat} (reply : ErrT)
    (once : SentOnce writes)
    (earlier : ∀ written ∈ writes, written.message ≠ some message) :
    SentOnce (writes ++ [{ message := some message, reply }]) where
  named := by
    intro written member
    rcases List.mem_append.mp member with before | last
    · exact once.named written before
    · rw [List.mem_singleton.mp last]
      exact Option.some_ne_none message
  accepted := by
    refine List.pairwise_append.mpr ⟨once.accepted, List.pairwise_singleton _ _, ?_⟩
    intro early before late last _
    rw [List.mem_singleton.mp last]
    exact (earlier early before).symm

/-- A further write of the message whose last write was refused. -/
theorem append_refused {writes : List Written} {message : Nat} (reply : ErrT)
    (once : SentOnce writes)
    (refused : writes.getLast? = some { message := some message, reply := .mem }) :
    SentOnce (writes ++ [{ message := some message, reply }]) where
  named := by
    intro written member
    rcases List.mem_append.mp member with before | last
    · exact once.named written before
    · rw [List.mem_singleton.mp last]
      exact Option.some_ne_none message
  accepted := by
    refine List.pairwise_append.mpr ⟨once.accepted, List.pairwise_singleton _ _, ?_⟩
    intro early before late last granted
    rw [List.mem_singleton.mp last]
    obtain ⟨front, rfl⟩ := List.getLast?_eq_some_iff.mp refused
    rcases List.mem_append.mp before with inFront | isLast
    · exact (List.pairwise_append.mp once.accepted).2.2 early inFront
        { message := some message, reply := .mem } (List.mem_singleton.mpr rfl) granted
    · rw [List.mem_singleton.mp isLast] at granted
      cases granted

end SentOnce

/-- A slot or a block with the writes made for it. -/
structure Sender (State Json : Type) where
  state : State
  shared : Shared Json
  messages : Nat
  current : Option Nat
  writes : List Written

namespace Sender

variable {State Json : Type}

/-- A slot or a block that has written nothing. -/
def silent (state : State) (shared : Shared Json) : Sender State Json :=
  { state, shared, messages := 0, current := none, writes := [] }

/-- A callback that starts a message where it writes. -/
def starts (sender : Sender State Json) (outcome : Outcome State Json) : Sender State Json :=
  if writeReplies outcome.calls = [] then
    { sender with state := outcome.state, shared := outcome.shared }
  else
    { state := outcome.state, shared := outcome.shared, messages := sender.messages + 1,
      current := some sender.messages
      writes := sender.writes ++
        (writeReplies outcome.calls).map fun reply => ⟨some sender.messages, reply⟩ }

/-- A callback that writes the message of its connection again. -/
def resends (sender : Sender State Json) (outcome : Outcome State Json) : Sender State Json :=
  { sender with
    state := outcome.state
    shared := outcome.shared
    writes := sender.writes ++
      (writeReplies outcome.calls).map fun reply => ⟨sender.current, reply⟩ }

/-- The last write was one of the current message, and was refused for lack of memory. -/
def Refused (sender : Sender State Json) : Prop :=
  ∃ message, sender.current = some message ∧
    sender.writes.getLast? = some { message := some message, reply := .mem }

/-- The writes so far, and the numbers of their messages. -/
structure Inv (sender : Sender State Json) : Prop where
  once : SentOnce sender.writes
  bounded : ∀ written ∈ sender.writes, ∀ message, written.message = some message →
    message < sender.messages

theorem silent_inv (state : State) (shared : Shared Json) : (silent state shared).Inv where
  once := .nil
  bounded := (fun _ impossible => by cases impossible)

theorem Inv.starts {sender : Sender State Json} {outcome : Outcome State Json}
    (inv : sender.Inv) (single : (writeReplies outcome.calls).length ≤ 1) :
    (sender.starts outcome).Inv := by
  rw [Sender.starts]
  split
  · exact ⟨inv.once, inv.bounded⟩
  rename_i some
  obtain ⟨reply, equal⟩ := List.length_eq_one_iff.mp
    (Nat.le_antisymm single (List.length_pos_of_ne_nil some))
  rw [equal]
  have earlier : ∀ written ∈ sender.writes, written.message ≠ .some sender.messages := by
    intro written member same
    exact Nat.lt_irrefl _ (inv.bounded written member _ same)
  refine ⟨inv.once.append_new reply earlier, ?_⟩
  intro written member message named
  rcases List.mem_append.mp member with before | last
  · exact Nat.lt_succ_of_lt (inv.bounded written before message named)
  · rw [List.mem_singleton.mp last] at named
    cases named
    exact Nat.lt_succ_self _

/-- A callback that does not write. -/
theorem Inv.still {sender : Sender State Json} {outcome : Outcome State Json}
    (inv : sender.Inv) (silent : writeReplies outcome.calls = []) :
    (sender.resends outcome).Inv := by
  rw [Sender.resends, silent, List.map_nil, List.append_nil]
  exact ⟨inv.once, inv.bounded⟩

theorem Inv.resends {sender : Sender State Json} {outcome : Outcome State Json}
    (inv : sender.Inv) (single : (writeReplies outcome.calls).length ≤ 1)
    (refused : sender.Refused) : (sender.resends outcome).Inv := by
  by_cases silent : writeReplies outcome.calls = []
  · exact inv.still silent
  obtain ⟨reply, equal⟩ := List.length_eq_one_iff.mp
    (Nat.le_antisymm single (List.length_pos_of_ne_nil silent))
  obtain ⟨message, current, last⟩ := refused
  rw [Sender.resends, equal, current]
  refine ⟨inv.once.append_refused reply last, ?_⟩
  intro written member query named
  rcases List.mem_append.mp member with before | appended
  · exact inv.bounded written before query named
  · rw [List.mem_singleton.mp appended] at named
    cases named
    exact inv.bounded _ (List.mem_of_getLast? last) message rfl

end Sender

/-! ## A server slot -/

/-- What happens to a slot. -/
inductive SlotUse (Json : Type) where
  | accept (pcb : Pcb)
  | recv (tpcb : Pcb) (p : Option (List Byte)) (err : ErrT) (replies : Replies)
  | sent (len : Nat)
  | poll (replies : Replies)
  | error (err : ErrT) (replies : Replies)
  | others (shared : Shared Json)

section Server

variable {Json : Type} (lib : CJson Json)

/-- A free slot takes connections, one with a connection receives its callbacks. -/
def SlotUse.Enabled (slot : ServerPerClient) : SlotUse Json → Prop
  | .accept _ => slot.clientPcb = none
  | .recv tpcb _ _ _ => slot.clientPcb = some tpcb
  | .others _ => True
  | _ => slot.clientPcb ≠ none

/-- What an event does to a slot. -/
def Sender.use (sender : Sender ServerPerClient Json) :
    SlotUse Json → Sender ServerPerClient Json
  | .accept pcb => { sender with state := acceptIn pcb sender.state, current := none }
  | .recv tpcb p err replies =>
      sender.starts (tcpServerJsonRecv lib replies tpcb p err sender.state sender.shared)
  | .sent len => { sender with state := tcpServerJsonSent len sender.state }
  | .poll replies => sender.resends (tcpServerPoll replies sender.state sender.shared)
  | .error err replies => sender.resends (tcpServerErr replies err sender.state sender.shared)
  | .others shared => { sender with shared }

/-- The states of a slot whose polls satisfy the condition. -/
inductive SlotUsed (condition : Sender ServerPerClient Json → Prop) :
    Sender ServerPerClient Json → Prop where
  | opened (shared : Shared Json) : SlotUsed condition (.silent .zeroed shared)
  | use {sender : Sender ServerPerClient Json} {event : SlotUse Json}
      (before : SlotUsed condition sender) (enabled : event.Enabled sender.state)
      (allowed : ∀ replies, event = .poll replies → condition sender) :
      SlotUsed condition (sender.use lib event)

end Server

/-! ## A client block -/

/-- What happens to a client block that has a control block. -/
inductive BlockUse (Json : Type) where
  | connected (pcb : Pcb) (err : ErrT) (replies : Replies)
  | recv (pcb : Pcb) (p : Option (List Byte)) (replies : Replies)
  | sent (len : Nat)
  | poll (pcb : Pcb) (replies : Replies)
  | error (err : ErrT) (replies : Replies)
  | others (shared : Shared Json)

section Client

variable {Json : Type} (lib : CJson Json)

/-- What an event does to a block; a block that is gone receives no callbacks. -/
def Sender.run (sender : Sender (Option TcpClientT) Json) (event : BlockUse Json) :
    Sender (Option TcpClientT) Json :=
  match sender.state with
  | none => sender
  | some client =>
      match event with
      | .connected pcb err replies =>
          sender.starts (jsonClientConnected replies pcb err client sender.shared)
      | .recv pcb p replies =>
          sender.resends (tcpClientJsonRecv lib replies pcb p client sender.shared)
      | .sent len => sender.resends (tcpClientJsonSent len client sender.shared)
      | .poll pcb replies => sender.resends (tcpJsonPoll replies pcb client sender.shared)
      | .error err replies => sender.resends (tcpClientErr replies err client sender.shared)
      | .others shared => { sender with shared }

/-- The states of a block whose polls satisfy the condition; it is opened with a clear
status. -/
inductive BlockUsed (condition : Sender (Option TcpClientT) Json → Prop) :
    Sender (Option TcpClientT) Json → Prop where
  | opened (client : TcpClientT) (shared : Shared Json) (clear : client.status = .ok) :
      BlockUsed condition (.silent (some client) shared)
  | run {sender : Sender (Option TcpClientT) Json} {event : BlockUse Json}
      (before : BlockUsed condition sender)
      (allowed : ∀ pcb replies, event = .poll pcb replies → condition sender) :
      BlockUsed condition (sender.run lib event)

end Client

/-! ## At most one accepted write -/

section Writes

variable {Json : Type} (lib : CJson Json)

@[simp] theorem writeReplies_unregister (pcb : Pcb) : writeReplies (unregister pcb) = [] := rfl

@[simp] theorem writeReplies_closeOrAbort (replies : Replies) (pcb : Pcb) :
    writeReplies (closeOrAbort replies pcb).1 = [] := by
  rw [closeOrAbort]
  split <;> rfl

theorem writeReplies_tcpServerResult (replies : Replies) (client : ServerPerClient)
    (shared : Shared Json) :
    writeReplies (tcpServerResult replies client shared).calls = [] := by
  rw [tcpServerResult, tcpCloseClient]
  split
  · simp
  · rfl

theorem writeReplies_tcpServerJsonSend (replies : Replies) (tpcb : Option Pcb)
    (client : ServerPerClient) (shared : Shared Json) :
    writeReplies (tcpServerJsonSend replies tpcb client shared).calls = [replies.write] := by
  simp only [tcpServerJsonSend]
  split
  · rfl
  split
  · rfl
  rw [Outcome.after, writeReplies_append, writeReplies_tcpServerResult]
  rfl

theorem writeReplies_tcpServerJsonAnswer (replies : Replies) (client : ServerPerClient)
    (shared : Shared Json) :
    (writeReplies (tcpServerJsonAnswer lib replies client shared).calls).length ≤ 1 := by
  simp only [tcpServerJsonAnswer]
  split
  · simp [writeReplies_tcpServerResult]
  split
  · split
    · simp [writeReplies_tcpServerJsonSend]
    · simp [writeReplies_tcpServerResult]
  · simp [writeReplies_tcpServerJsonSend]

theorem writeReplies_tcpServerJsonStore (tpcb : Pcb) (chunk : List Byte)
    (client : ServerPerClient) (shared : Shared Json) :
    writeReplies (tcpServerJsonStore tpcb chunk client shared).2.2 = [] := by
  rw [tcpServerJsonStore]
  split <;> rfl

theorem writeReplies_tcpServerJsonRecv (replies : Replies) (tpcb : Pcb)
    (p : Option (List Byte)) (err : ErrT) (client : ServerPerClient) (shared : Shared Json) :
    (writeReplies (tcpServerJsonRecv lib replies tpcb p err client shared).calls).length ≤ 1 := by
  cases p with
  | none =>
      simp only [tcpServerJsonRecv]
      split
      · simp [writeReplies_tcpServerResult]
      · simp
  | some chunk =>
      simp only [tcpServerJsonRecv]
      split
      · split
        · rw [Outcome.after, writeReplies_append, writeReplies_tcpServerJsonStore]
          exact writeReplies_tcpServerJsonAnswer lib replies _ _
        · simp [writeReplies_tcpServerJsonStore]
      · simp

/-- A poll writes where the status is `ERR_MEM`, once. -/
theorem writeReplies_tcpServerPoll (replies : Replies) (client : ServerPerClient)
    (shared : Shared Json) :
    writeReplies (tcpServerPoll replies client shared).calls =
      if client.status = .mem then [replies.write] else [] := by
  rw [tcpServerPoll]
  split
  · exact writeReplies_tcpServerJsonSend replies _ client shared
  · rfl

theorem writeReplies_tcpClientResult (replies : Replies) (client : TcpClientT)
    (shared : Shared Json) :
    writeReplies (tcpClientResult replies client shared).calls = [] := by
  simp only [tcpClientResult, tcpClientClose]
  split
  · simp
  · rfl

theorem writeReplies_tcpClientJsonSending (replies : Replies) (pcb : Pcb)
    (client : TcpClientT) (shared : Shared Json) :
    (writeReplies (tcpClientJsonSending replies pcb client shared).calls).length ≤ 1 := by
  rw [tcpClientJsonSending]
  split
  · dsimp only
    split
    · exact Nat.le_refl 1
    split
    · exact Nat.le_refl 1
    rw [Outcome.after, writeReplies_append, writeReplies_tcpClientResult]
    exact Nat.le_refl 1
  · exact Nat.zero_le 1

theorem writeReplies_tcpJsonPoll (replies : Replies) (pcb : Pcb) (client : TcpClientT)
    (shared : Shared Json) :
    (writeReplies (tcpJsonPoll replies pcb client shared).calls).length ≤ 1 ∧
      (client.status ≠ .mem → writeReplies (tcpJsonPoll replies pcb client shared).calls = []) := by
  rw [tcpJsonPoll]
  split
  · rename_i low
    exact ⟨writeReplies_tcpClientJsonSending replies pcb client shared,
      fun clear => absurd low clear⟩
  · exact ⟨Nat.zero_le 1, fun _ => rfl⟩

theorem writeReplies_jsonClientConnected (replies : Replies) (pcb : Pcb) (err : ErrT)
    (client : TcpClientT) (shared : Shared Json) :
    (writeReplies (jsonClientConnected replies pcb err client shared).calls).length ≤ 1 := by
  rw [jsonClientConnected]
  split
  · simp [writeReplies_tcpClientResult]
  · exact writeReplies_tcpClientJsonSending replies pcb _ shared

theorem writeReplies_tcpClientJsonRecv (replies : Replies) (pcb : Pcb)
    (p : Option (List Byte)) (client : TcpClientT) (shared : Shared Json) :
    writeReplies (tcpClientJsonRecv lib replies pcb p client shared).calls = [] := by
  cases p with
  | none => exact writeReplies_tcpClientResult replies client shared
  | some chunk =>
      have stored : writeReplies (tcpClientJsonStore pcb chunk client shared).2.2 = [] := by
        rw [tcpClientJsonStore]
        split <;> rfl
      simp only [tcpClientJsonRecv]
      split
      · rw [Outcome.after, writeReplies_append, stored, writeReplies_tcpClientResult]
        rfl
      · exact stored

theorem writeReplies_tcpClientJsonSent (len : Nat) (client : TcpClientT)
    (shared : Shared Json) :
    writeReplies (tcpClientJsonSent len client shared).calls = [] := by
  rw [tcpClientJsonSent]
  split <;> rfl

end Writes

/-! ## Runs -/

section Runs

variable {Json : Type} (lib : CJson Json)

/-- A poll on a slot whose status is `ERR_MEM` follows a refused write of its message. -/
def Sender.SlotDue (sender : Sender ServerPerClient Json) : Prop :=
  sender.state.status = .mem → sender.Refused

/-- The same of a client block. -/
def Sender.BlockDue (sender : Sender (Option TcpClientT) Json) : Prop :=
  ∀ client, sender.state = some client → client.status = .mem → sender.Refused

theorem SlotUsed.inv {sender : Sender ServerPerClient Json}
    (used : SlotUsed lib Sender.SlotDue sender) : sender.Inv := by
  induction used with
  | opened shared => exact Sender.silent_inv _ shared
  | @use sender event before enabled allowed ih =>
      cases event with
      | accept pcb => exact ⟨ih.once, ih.bounded⟩
      | recv tpcb p err replies =>
          exact ih.starts (writeReplies_tcpServerJsonRecv lib replies tpcb p err _ _)
      | sent len => exact ⟨ih.once, ih.bounded⟩
      | poll replies =>
          have writes := writeReplies_tcpServerPoll replies sender.state sender.shared
          by_cases low : sender.state.status = .mem
          · rw [if_pos low] at writes
            exact ih.resends (by rw [writes]; exact Nat.le_refl 1) (allowed replies rfl low)
          · rw [if_neg low] at writes
            exact ih.still writes
      | error err replies =>
          refine ih.still ?_
          rw [tcpServerErr]
          split
          · exact writeReplies_tcpServerResult replies _ _
          · rfl
      | others shared => exact ⟨ih.once, ih.bounded⟩

theorem BlockUsed.inv {sender : Sender (Option TcpClientT) Json}
    (used : BlockUsed lib Sender.BlockDue sender) : sender.Inv := by
  induction used with
  | opened client shared clear => exact Sender.silent_inv _ shared
  | @run sender event before allowed ih =>
      rw [Sender.run]
      cases state : sender.state with
      | none => exact ih
      | some client =>
          cases event with
          | connected pcb err replies =>
              exact ih.starts (writeReplies_jsonClientConnected replies pcb err client _)
          | recv pcb p replies =>
              exact ih.still (writeReplies_tcpClientJsonRecv lib replies pcb p client _)
          | sent len => exact ih.still (writeReplies_tcpClientJsonSent len client _)
          | poll pcb replies =>
              have writes := writeReplies_tcpJsonPoll replies pcb client sender.shared
              by_cases low : client.status = .mem
              · exact ih.resends writes.1 (allowed pcb replies rfl client state low)
              · exact ih.still (writes.2 low)
          | error err replies =>
              refine ih.still ?_
              rw [tcpClientErr]
              split
              · exact writeReplies_tcpClientResult replies _ _
              · rfl
          | others shared => exact ⟨ih.once, ih.bounded⟩

end Runs

/-- The message of `update_buddies` is in the buffer. -/
def preparedShared : Shared Unit := (jsonPrepGetCounterValue oneObject idleShared).2

/-- A client block with a control block. -/
def attached : TcpClientT := { tcpClientInit with tcpPcb := some 1, busy := true }

/-- There is no memory when the client connects, and then there is again. -/
def retried : Sender (Option TcpClientT) Unit :=
  let sender := Sender.silent (some attached) preparedShared
  let sender := sender.run oneObject (.connected 1 .ok { quiet with write := .mem })
  let sender := sender.run oneObject (.poll 1 quiet)
  sender.run oneObject (.poll 1 quiet)

end PicoApConfigure.Json
