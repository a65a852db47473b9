import PicoApConfigure.Json.Message

/-!
# One update of the buddies

`tcp_client_json_update_buddies` prepares one message in `json_buffer` and opens a client
for every buddy.  The clients then run in any order, all of them on this buffer.
-/

namespace PicoApConfigure.Json

open Nor Tcp

section Update

variable {Json : Type} (lib : CJson Json)

/-- The loop of `tcp_client_json_update_buddies`; the block of each client is named by its
position. -/
def updateBuddiesLoop (name : List Byte) (replies : Nat → Replies) :
    List (List Byte) → Nat → Shared Json → List (Option TcpClientT) × Shared Json
  | [], _, shared => ([], shared)
  | buddy :: buddies, arg, shared =>
      if name ≠ buddy then
        let outcome := tcpClientJsonInitOpen (replies arg) arg shared
        let (blocks, shared) := updateBuddiesLoop name replies buddies (arg + 1) outcome.shared
        (outcome.state :: blocks, shared)
      else updateBuddiesLoop name replies buddies arg shared

/-- `tcp_client_json_update_buddies`; `buddyIp` reads the list `buddy_ip` of an object and
`name` is the own name. -/
def tcpClientJsonUpdateBuddies (buddyIp : Json → List (List Byte)) (name : List Byte)
    (replies : Nat → Replies) (shared : Shared Json) :
    List (Option TcpClientT) × Shared Json :=
  let (count, shared) := jsonPrepGetCounterValue lib shared
  if 0 < count then
    updateBuddiesLoop name replies (buddyIp (getMirror lib shared.mirror)) 0 shared
  else ([], shared)

/-- The clients of one update, what they have handed to `tcp_write`, and whether one of them
has stored anything in the buffer. -/
structure Round (Json : Type) where
  blocks : List (Option TcpClientT)
  shared : Shared Json
  written : List (List Byte)
  disturbed : Bool

/-- A callback of the client in one position. -/
inductive BuddyEvent where
  | found (position : Nat) (resolved : Bool) (replies : Replies)
  | connected (position : Nat) (pcb : Pcb) (err : ErrT) (replies : Replies)
  | sent (position : Nat) (len : Nat)
  | recv (position : Nat) (pcb : Pcb) (p : Option (List Byte)) (replies : Replies)
  | poll (position : Nat) (pcb : Pcb) (replies : Replies)
  | error (position : Nat) (err : ErrT) (replies : Replies)

namespace BuddyEvent

/-- The position of the client. -/
def position : BuddyEvent → Nat
  | .found position _ _ => position
  | .connected position _ _ _ => position
  | .sent position _ => position
  | .recv position _ _ _ => position
  | .poll position _ _ => position
  | .error position _ _ => position

/-- The callback. -/
def callback (event : BuddyEvent) (client : TcpClientT) (shared : Shared Json) :
    Outcome (Option TcpClientT) Json :=
  match event with
  | .found position resolved replies => dnsFound replies position resolved client shared
  | .connected _ pcb err replies => jsonClientConnected replies pcb err client shared
  | .sent _ len => tcpClientJsonSent len client shared
  | .recv _ pcb p replies => tcpClientJsonRecv lib replies pcb p client shared
  | .poll _ pcb replies => tcpJsonPoll replies pcb client shared
  | .error _ err replies => tcpClientErr replies err client shared

/-- The event completes the acknowledgement of a message or brings data. -/
def disturbs (event : BuddyEvent) (client : TcpClientT) (shared : Shared Json) : Bool :=
  match event with
  | .sent _ len => decide (sizeField shared.buffer ≤ client.sentLen + len)
  | .recv _ _ (some chunk) _ => !chunk.isEmpty
  | _ => false

/-- The event makes the client write. -/
def Sends (event : BuddyEvent) (client : TcpClientT) : Prop :=
  match event with
  | .connected _ _ err _ => err = .ok
  | .poll _ _ _ => client.status = .mem
  | _ => False

end BuddyEvent

namespace Round

/-- The state after `tcp_client_json_update_buddies`. -/
def opened (buddyIp : Json → List (List Byte)) (name : List Byte) (replies : Nat → Replies)
    (shared : Shared Json) : Round Json :=
  let (blocks, shared) := tcpClientJsonUpdateBuddies lib buddyIp name replies shared
  { blocks, shared, written := [], disturbed := false }

/-- One event; a client that is gone has no callbacks. -/
def step (round : Round Json) (event : BuddyEvent) : Round Json :=
  match round.blocks[event.position]? with
  | some (some client) =>
      let outcome := event.callback lib client round.shared
      { blocks := round.blocks.set event.position outcome.state
        shared := outcome.shared
        written := round.written ++ PicoApConfigure.Json.written outcome.calls
        disturbed := round.disturbed || event.disturbs client round.shared }
  | _ => round

/-- Whoever writes does so before any client of the update was acknowledged or answered. -/
def WritesFirst (round : Round Json) (event : BuddyEvent) : Prop :=
  ∀ client, round.blocks[event.position]? = some (some client) → event.Sends client →
    round.disturbed = false

end Round

/-- The message `json_prep_get_counter_value` prepares for an object. -/
def preparedBytes (json : Json) : List Byte :=
  TcpJsonHeader.bytes
    { protocolVersion := jsonProtocolVersion
      size := headerSize + (lib.print json).length
      dataVersion := uint32 (getMirrorUpdateCount lib (some json)) } ++ lib.print json

/-! ## What a callback does to the buffer -/

/-- A client writes the announced size of what is in the buffer. -/
theorem tcpClientJsonSending_writes (replies : Replies) (pcb : Pcb) (client : TcpClientT)
    (shared : Shared Json) :
    (tcpClientJsonSending replies pcb client shared).shared = shared ∧
      ∀ bytes ∈ written (tcpClientJsonSending replies pcb client shared).calls,
        bytes = slice shared.buffer 0 (uint16 (sizeField shared.buffer)) := by
  rw [tcpClientJsonSending]
  split
  · dsimp only
    split
    · exact ⟨rfl, fun bytes member => List.mem_singleton.mp member⟩
    split
    · exact ⟨rfl, fun bytes member => List.mem_singleton.mp member⟩
    refine ⟨rfl, fun bytes member => ?_⟩
    rw [Outcome.after, written_append, written_tcpClientResult, List.append_nil] at member
    exact List.mem_singleton.mp member
  · exact ⟨rfl, (fun _ impossible => by cases impossible)⟩

/-- The buffer is left alone, and what is written is what the buffer announces. -/
structure Undisturbing (sends : Prop) (shared : Shared Json)
    (outcome : Outcome (Option TcpClientT) Json) : Prop where
  buffer : outcome.shared.buffer = shared.buffer
  bytes : ∀ bytes ∈ written outcome.calls,
    sends ∧ bytes = slice shared.buffer 0 (uint16 (sizeField shared.buffer))

theorem Undisturbing.silent {sends : Prop} {shared : Shared Json}
    {outcome : Outcome (Option TcpClientT) Json}
    (buffer : outcome.shared.buffer = shared.buffer) (silent : written outcome.calls = []) :
    Undisturbing sends shared outcome where
  buffer := buffer
  bytes := by
    rw [silent]
    exact (fun _ impossible => by cases impossible)

theorem Undisturbing.result {sends : Prop} (replies : Replies) (client : TcpClientT)
    (shared : Shared Json) :
    Undisturbing sends shared (tcpClientResult replies client shared) :=
  .silent rfl (written_tcpClientResult replies client shared)

theorem Undisturbing.sending {sends : Prop} (replies : Replies) (pcb : Pcb)
    (client : TcpClientT) (shared : Shared Json) (sending : sends) :
    Undisturbing sends shared (tcpClientJsonSending replies pcb client shared) := by
  obtain ⟨same, writes⟩ := tcpClientJsonSending_writes replies pcb client shared
  exact ⟨congrArg Shared.buffer same, fun bytes member => ⟨sending, writes bytes member⟩⟩

theorem clientRequestCommon_undisturbing {sends : Prop} (replies : Replies) (arg : Nat)
    (client : TcpClientT) (shared : Shared Json) :
    Undisturbing sends shared (clientRequestCommon replies arg client shared) := by
  rw [clientRequestCommon]
  split
  · exact .silent rfl rfl
  · exact .silent rfl rfl

theorem tcpClientJsonHandleReply_buffer (size : Int) (shared : Shared Json) :
    (tcpClientJsonHandleReply lib size shared).buffer = shared.buffer := by
  rw [tcpClientJsonHandleReply]
  split
  · rfl
  · dsimp only
    split <;> rfl

/-- Every callback that does not disturb the buffer. -/
theorem BuddyEvent.callback_undisturbing (event : BuddyEvent) (client : TcpClientT)
    (shared : Shared Json) (quiet : event.disturbs client shared = false) :
    Undisturbing (event.Sends client) shared (event.callback lib client shared) := by
  cases event with
  | found position resolved replies =>
      simp only [callback, dnsFound]
      split
      · exact clientRequestCommon_undisturbing replies position client shared
      · exact .result replies client shared
  | connected position pcb err replies =>
      simp only [callback, jsonClientConnected]
      split
      · exact .result replies client shared
      · rename_i connected
        have granted : err = .ok := Decidable.not_not.mp connected
        exact .sending replies pcb _ shared granted
  | sent position len =>
      have short : ¬ sizeField shared.buffer ≤ client.sentLen + len := of_decide_eq_false quiet
      simp only [callback, tcpClientJsonSent, if_neg short]
      exact .silent rfl rfl
  | recv position pcb p replies =>
      cases p with
      | none => exact .result replies client shared
      | some chunk =>
          have empty : chunk = [] := by
            cases chunk with
            | nil => rfl
            | cons _ _ => cases quiet
          subst empty
          simp only [callback, tcpClientJsonRecv, tcpClientJsonStore, List.length_nil,
            Nat.lt_irrefl, if_false]
          split
          · refine .silent (tcpClientJsonHandleReply_buffer lib _ shared) ?_
            rw [Outcome.after, List.nil_append]
            exact written_tcpClientResult replies client _
          · exact .silent rfl rfl
  | poll position pcb replies =>
      simp only [callback, tcpJsonPoll]
      split
      · rename_i low
        have sending : Undisturbing (client.status = .mem) shared
            (tcpClientJsonSending replies pcb client shared) :=
          .sending replies pcb client shared low
        exact ⟨sending.buffer, sending.bytes⟩
      · exact .silent rfl rfl
  | error position err replies =>
      simp only [callback, tcpClientErr]
      split
      · exact .result replies _ shared
      · exact .silent rfl rfl

/-! ## The run -/

theorem tcpClientJsonInitOpen_shared (replies : Replies) (arg : Nat) (shared : Shared Json) :
    (tcpClientJsonInitOpen replies arg shared).shared = shared := by
  simp only [tcpClientJsonInitOpen, tcpClientOpen]
  split
  · rw [clientRequestCommon]
    split <;> rfl
  split
  · rfl
  · rfl

theorem updateBuddiesLoop_shared (name : List Byte) (replies : Nat → Replies)
    (buddies : List (List Byte)) :
    ∀ arg (shared : Shared Json),
      (updateBuddiesLoop name replies buddies arg shared).2 = shared := by
  induction buddies with
  | nil => exact fun _ _ => rfl
  | cons buddy buddies ih =>
      intro arg shared
      rw [updateBuddiesLoop]
      split
      · dsimp only
        rw [ih, tcpClientJsonInitOpen_shared]
      · exact ih arg shared

/-- Callbacks that disturb the buffer do not write. -/
theorem BuddyEvent.callback_silent (event : BuddyEvent) (client : TcpClientT)
    (shared : Shared Json) (loud : event.disturbs client shared = true) :
    written (event.callback lib client shared).calls = [] := by
  cases event with
  | sent position len =>
      simp only [callback, tcpClientJsonSent]
      split <;> rfl
  | recv position pcb p replies =>
      cases p with
      | none => cases loud
      | some chunk =>
          have stored : written (tcpClientJsonStore pcb chunk client shared).2.2 = [] := by
            rw [tcpClientJsonStore]
            split <;> rfl
          simp only [callback, tcpClientJsonRecv]
          split
          · rw [Outcome.after, written_append, stored, written_tcpClientResult]
            rfl
          · exact stored
  | found | connected | poll | error => cases loud

/-- The message as it is read from the buffer. -/
theorem Request.slice_eq {request : Request} {buffer : Memory}
    (holds : Holds buffer 0 request.bytes) :
    slice buffer 0 (uint16 (sizeField buffer)) = request.bytes := by
  have fields := Message.fields (List.prefix_refl request.bytes)
    (by rw [Message.bytes_length]; exact request.headerSize_le_size) holds
  rw [fields.1, uint16_of_small request.size_le, ← Message.bytes_length]
  exact holds

/-- While the clients have not been disturbed the message is in the buffer, and everything
written so far is this message. -/
structure Round.Inv (bytes : List Byte) (round : Round Json) : Prop where
  prepared : round.blocks ≠ [] → round.disturbed = false →
    ∃ request : Request, request.bytes = bytes ∧ Holds round.shared.buffer 0 request.bytes
  written : ∀ other ∈ round.written, other = bytes

theorem Round.Inv.step {bytes : List Byte} {round : Round Json} {event : BuddyEvent}
    (inv : round.Inv bytes) (allowed : round.WritesFirst event) :
    (round.step lib event).Inv bytes := by
  rw [Round.step]
  split
  · rename_i client found
    have some : round.blocks ≠ [] := by
      intro empty
      rw [empty] at found
      cases found
    cases quiet : event.disturbs client round.shared with
    | false =>
        have callback := event.callback_undisturbing lib client round.shared quiet
        refine ⟨fun _ undisturbed => ?_, fun other member => ?_⟩
        · rw [callback.buffer]
          exact inv.prepared some (Bool.or_eq_false_iff.mp undisturbed).1
        · rcases List.mem_append.mp member with before | now
          · exact inv.written other before
          · obtain ⟨sends, equal⟩ := callback.bytes other now
            obtain ⟨request, same, holds⟩ := inv.prepared some (allowed client found sends)
            rw [equal, Request.slice_eq holds, same]
    | true =>
        refine ⟨fun _ undisturbed => ?_, ?_⟩
        · rw [Bool.or_true] at undisturbed
          cases undisturbed
        · dsimp only
          rw [event.callback_silent lib client round.shared quiet, List.append_nil]
          exact inv.written
  · exact inv

theorem Round.opened_inv (lawful : lib.Lawful) (buddyIp : Json → List (List Byte))
    (name : List Byte) (replies : Nat → Replies) (shared : Shared Json) :
    (Round.opened lib buddyIp name replies shared).Inv
      (preparedBytes lib (getMirror lib shared.mirror)) := by
  refine ⟨fun some _ => ?_, (fun _ impossible => by cases impossible)⟩
  have positive : 0 < (jsonPrepGetCounterValue lib shared).1 := by
    by_contra unprepared
    simp [opened, tcpClientJsonUpdateBuddies, unprepared] at some
  have ready := ((jsonPrepGetCounterValue_pos lib shared).mp positive).1
  obtain ⟨buffer, prepared, holds⟩ := lawful.prepares shared ready
  rw [prepared] at positive
  refine ⟨lawful.request (getMirror lib shared.mirror) ready, rfl, ?_⟩
  simp only [opened, tcpClientJsonUpdateBuddies, prepared, if_pos positive,
    updateBuddiesLoop_shared]
  exact holds

end Update

end PicoApConfigure.Json
