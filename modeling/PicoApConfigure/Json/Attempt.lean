import PicoApConfigure.Json.Client

/-!
# One client attempt

A block opened with `tcp_client_json_init_open`, the DNS query and the control block the
stack holds for it, and the callbacks the stack makes on their behalf.
-/

namespace PicoApConfigure.Json

open Nor Tcp

/-- A client block with what the stack holds for it.  `block` is `none` once the completed
callback has freed it. -/
structure Attempt (Json : Type) where
  block : Option TcpClientT
  query : Bool
  pcbs : Pcbs
  shared : Shared Json
  completions : Nat
  touched : Bool

/-- What the stack can do next, with its replies. -/
inductive AttemptEvent (Json : Type) where
  | found (found : Bool) (replies : Replies)
  | connected (pcb : Pcb) (err : ErrT) (replies : Replies)
  | sent (pcb : Pcb) (len : Nat)
  | recv (pcb : Pcb) (p : Option (List Byte)) (replies : Replies)
  | poll (pcb : Pcb) (replies : Replies)
  | error (pcb : Pcb) (err : ErrT) (replies : Replies)
  /-- Other connections of the device. -/
  | others (held : Pcb → Option Held) (shared : Shared Json)

section Attempt

variable {Json : Type} (lib : CJson Json) (arg : Nat)

namespace Attempt

/-- A callback with the block as its argument. -/
def call (attempt : Attempt Json)
    (callback : TcpClientT → Shared Json → Outcome (Option TcpClientT) Json) : Attempt Json :=
  match attempt.block with
  | none => { attempt with touched := true }
  | some client =>
      let outcome := callback client attempt.shared
      { attempt with
        block := outcome.state
        shared := outcome.shared
        pcbs := attempt.pcbs.applyAll outcome.calls
        completions := attempt.completions + if outcome.state = none then 1 else 0 }

/-- `tcp_client_json_init_open` for a new block. -/
def opened (replies : Replies) (pcbs : Pcbs) (shared : Shared Json) : Attempt Json :=
  let outcome := tcpClientJsonInitOpen replies arg shared
  { block := outcome.state, query := replies.dns = .inprogress,
    pcbs := pcbs.applyAll outcome.calls, shared := outcome.shared,
    completions := if outcome.state = none then 1 else 0, touched := false }

/-- When the stack can make the event happen. -/
def Enabled (attempt : Attempt Json) : AttemptEvent Json → Prop
  | .found _ replies => attempt.query = true ∧ Fresh attempt.pcbs replies
  | .connected pcb _ _ => attempt.pcbs.held pcb = some (Held.serving arg)
  | .sent pcb _ => attempt.pcbs.held pcb = some (Held.serving arg)
  | .recv pcb _ _ => attempt.pcbs.held pcb = some (Held.serving arg)
  | .poll pcb _ => attempt.pcbs.held pcb = some (Held.serving arg)
  | .error pcb _ _ => attempt.pcbs.held pcb = some (Held.serving arg)
  | .others held _ => ∀ pcb entry, entry.arg = some arg →
      (held pcb = some entry ↔ attempt.pcbs.held pcb = some entry)

/-- What the event does.  Before an error callback the stack frees the block. -/
def step (attempt : Attempt Json) : AttemptEvent Json → Attempt Json
  | .found found replies => { attempt with query := false }.call (dnsFound replies arg found)
  | .connected pcb err replies => attempt.call (jsonClientConnected replies pcb err)
  | .sent _ len => attempt.call (tcpClientJsonSent len)
  | .recv pcb p replies => attempt.call (tcpClientJsonRecv lib replies pcb p)
  | .poll pcb replies => attempt.call (tcpJsonPoll replies pcb)
  | .error pcb err replies =>
      { attempt with pcbs := attempt.pcbs.put pcb none }.call (tcpClientErr replies err)
  | .others held shared => { attempt with pcbs := { attempt.pcbs with held }, shared }

/-- The completed callback runs at most once, nothing runs on a freed block, and a block
that is not completed has a query or a control block that will call back. -/
structure Completes (attempt : Attempt Json) : Prop where
  once : attempt.completions ≤ 1
  untouched : attempt.touched = false
  served : ∀ client, attempt.block = some client →
    attempt.query = true ∨ ∃ pcb, attempt.pcbs.held pcb = some (Held.serving arg)

end Attempt

/-- The states of an attempt whose opening and whose events satisfy the two conditions. -/
inductive Attempted (opening : Replies → Prop) (allowed : AttemptEvent Json → Prop) :
    Attempt Json → Prop where
  | opened {replies : Replies} {pcbs : Pcbs} (shared : Shared Json)
      (unused : NoneHeld pcbs arg) (fresh : Fresh pcbs replies)
      (condition : opening replies) :
      Attempted opening allowed (Attempt.opened arg replies pcbs shared)
  | step {attempt : Attempt Json} {event : AttemptEvent Json}
      (before : Attempted opening allowed attempt) (enabled : attempt.Enabled arg event)
      (condition : allowed event) :
      Attempted opening allowed (attempt.step lib arg event)

end Attempt

/-! ## Ends that leave nothing behind -/

/-- A control block is allocated and `tcp_connect` accepts it. -/
def Connects (replies : Replies) : Prop := replies.new ≠ none ∧ replies.connect = .ok

/-- An opening that does not fail to connect. -/
def OpensCleanly (replies : Replies) : Prop := replies.dns = .ok → Connects replies

/-- An event that neither fails to connect nor reports an abort. -/
def EndsCleanly {Json : Type} : AttemptEvent Json → Prop
  | .found found replies => found = true → Connects replies
  | .error _ err _ => err ≠ .abrt
  | _ => True

section Spec

variable {Json : Type} {client : TcpClientT} {pcb : Pcb} {pcbs : Pcbs}

/-- A callback keeps the block with its control block, or completes it and frees the
control block. -/
inductive Settles (pcb : Pcb) (pcbs : Pcbs) (outcome : Outcome (Option TcpClientT) Json) :
    Prop where
  | kept (client : TcpClientT) (state : outcome.state = some client)
      (own : client.tcpPcb = some pcb) (same : pcbs.applyAll outcome.calls = pcbs)
  | completed (state : outcome.state = none)
      (freed : pcbs.applyAll outcome.calls = pcbs.put pcb none)

theorem Settles.after {outcome : Outcome (Option TcpClientT) Json} {call : Call}
    (settles : Settles pcb pcbs outcome) (same : pcbs.apply call = pcbs) :
    Settles pcb pcbs (outcome.after [call]) := by
  cases settles with
  | kept client state own unchanged =>
      exact .kept client state own (by simp [Outcome.after, same, unchanged])
  | completed state freed => exact .completed state (by simp [Outcome.after, same, freed])

theorem Settles.returning {outcome : Outcome (Option TcpClientT) Json} (result : ErrT)
    (settles : Settles pcb pcbs outcome) : Settles pcb pcbs { outcome with result } := by
  cases settles with
  | kept client state own unchanged => exact .kept client state own unchanged
  | completed state freed => exact .completed state freed

theorem tcpClientResult_frees {held : Held} (replies : Replies) (client : TcpClientT)
    (shared : Shared Json) (own : client.tcpPcb = some pcb)
    (holds : pcbs.held pcb = some held) :
    pcbs.applyAll (tcpClientResult replies client shared).calls = pcbs.put pcb none := by
  simp only [tcpClientResult, tcpClientClose, own]
  exact Pcbs.applyAll_end replies holds

theorem tcpClientResult_settles {held : Held} (replies : Replies) (client : TcpClientT)
    (shared : Shared Json) (own : client.tcpPcb = some pcb)
    (holds : pcbs.held pcb = some held) :
    Settles pcb pcbs (tcpClientResult replies client shared) :=
  .completed rfl (tcpClientResult_frees replies client shared own holds)

theorem tcpClientResult_without (replies : Replies) (client : TcpClientT) (shared : Shared Json)
    (own : client.tcpPcb = none) :
    (tcpClientResult replies client shared).state = none ∧
      (tcpClientResult replies client shared).calls = [] := by
  simp [tcpClientResult, tcpClientClose, own, jsonClientComplete]

theorem Outcome.stay_settles (shared : Shared Json) (own : client.tcpPcb = some pcb) :
    Settles pcb pcbs (Outcome.stay client shared) :=
  .kept client rfl own rfl

theorem tcpClientJsonSending_settles {held : Held} (replies : Replies) (shared : Shared Json)
    (own : client.tcpPcb = some pcb) (holds : pcbs.held pcb = some held) :
    Settles pcb pcbs (tcpClientJsonSending replies pcb client shared) := by
  have write := Pcbs.apply_write (slice shared.buffer 0 (uint16 (sizeField shared.buffer)))
    replies.write holds
  rw [tcpClientJsonSending]
  split
  · dsimp only
    split
    · exact .kept client rfl own write
    split
    · exact .kept _ rfl own write
    have failed := tcpClientResult_settles replies { client with status := replies.write }
      shared own holds
    exact failed.after write
  · exact Outcome.stay_settles shared own

theorem tcpJsonPoll_settles {held : Held} (replies : Replies) (shared : Shared Json)
    (own : client.tcpPcb = some pcb) (holds : pcbs.held pcb = some held) :
    Settles pcb pcbs (tcpJsonPoll replies pcb client shared) := by
  rw [tcpJsonPoll]
  split
  · exact (tcpClientJsonSending_settles replies shared own holds).returning .ok
  · exact Outcome.stay_settles shared own

theorem tcpClientJsonSent_settles (len : Nat) (shared : Shared Json)
    (own : client.tcpPcb = some pcb) :
    Settles pcb pcbs (tcpClientJsonSent len client shared) := by
  rw [tcpClientJsonSent]
  split
  · exact .kept _ rfl own rfl
  · exact .kept _ rfl own rfl

theorem tcpClientJsonStore_own (pcb : Pcb) (chunk : List Byte) (client : TcpClientT)
    (shared : Shared Json) :
    (tcpClientJsonStore pcb chunk client shared).1.tcpPcb = client.tcpPcb := by
  rw [tcpClientJsonStore]
  split <;> rfl

/-- The calls that store a chunk change no block. -/
theorem tcpClientJsonStore_calls {held : Held} (chunk : List Byte) (client : TcpClientT)
    (shared : Shared Json) (holds : pcbs.held pcb = some held) :
    pcbs.applyAll (tcpClientJsonStore pcb chunk client shared).2.2 = pcbs := by
  rw [tcpClientJsonStore]
  split
  · exact Pcbs.apply_recved chunk.length holds
  · rfl

theorem tcpClientJsonRecv_settles {held : Held} (lib : CJson Json) (replies : Replies)
    (p : Option (List Byte)) (shared : Shared Json)
    (own : client.tcpPcb = some pcb) (holds : pcbs.held pcb = some held) :
    Settles pcb pcbs (tcpClientJsonRecv lib replies pcb p client shared) := by
  cases p with
  | none => exact tcpClientResult_settles replies _ shared own holds
  | some chunk =>
      have stored := tcpClientJsonStore_own pcb chunk client shared
      have same := tcpClientJsonStore_calls chunk client shared holds
      rw [own] at stored
      simp only [tcpClientJsonRecv]
      split
      · refine .completed rfl ?_
        rw [Outcome.after, Pcbs.applyAll_append, same]
        exact tcpClientResult_frees replies _ _ stored holds
      · exact .kept _ rfl stored same

theorem jsonClientConnected_settles {held : Held} (replies : Replies) (err : ErrT)
    (shared : Shared Json) (own : client.tcpPcb = some pcb)
    (holds : pcbs.held pcb = some held) :
    Settles pcb pcbs (jsonClientConnected replies pcb err client shared) := by
  rw [jsonClientConnected]
  split
  · exact tcpClientResult_settles replies _ shared own holds
  · exact tcpClientJsonSending_settles replies shared own holds

/-- The block a connection attempt leaves. -/
theorem clientRequestCommon_serves {arg : Nat} {replies : Replies} (client : TcpClientT)
    (shared : Shared Json)
    (connects : Connects replies) (unused : NoneHeld pcbs arg) :
    ∃ pcb, (clientRequestCommon replies arg client shared).state =
        some { client with tcpPcb := some pcb } ∧
      OnlyHeld (pcbs.applyAll (clientRequestCommon replies arg client shared).calls) arg pcb := by
  obtain ⟨allocated, accepted⟩ := connects
  obtain ⟨pcb, new⟩ := Option.ne_none_iff_exists'.mp allocated
  have serving : pcbs.applyAll (clientRequestCommon replies arg client shared).calls =
      pcbs.put pcb (some (Held.serving arg)) := by
    simp [clientRequestCommon, new, accepted, Pcbs.apply, Call.target, Pcbs.put_put,
      Held.serving]
  refine ⟨pcb, by simp only [clientRequestCommon, new], ?_⟩
  rw [serving]
  exact unused.put_serving pcb

end Spec

/-! ## The invariant -/

section Invariant

variable {Json : Type} (lib : CJson Json) {arg : Nat}

/-- What holds for a block at each stage of its life. -/
inductive Stage (arg : Nat) : Option TcpClientT → Bool → Pcbs → Nat → Prop where
  | resolving {client : TcpClientT} {pcbs : Pcbs} (own : client.tcpPcb = none)
      (unused : NoneHeld pcbs arg) : Stage arg (some client) true pcbs 0
  | connected {client : TcpClientT} {pcbs : Pcbs} {pcb : Pcb} (own : client.tcpPcb = some pcb)
      (holds : OnlyHeld pcbs arg pcb) : Stage arg (some client) false pcbs 0
  | completed {pcbs : Pcbs} (unused : NoneHeld pcbs arg) : Stage arg none false pcbs 1

/-- A state in which nothing went wrong so far. -/
structure Attempt.Inv (arg : Nat) (attempt : Attempt Json) : Prop where
  stage : Stage arg attempt.block attempt.query attempt.pcbs attempt.completions
  untouched : attempt.touched = false

namespace Attempt

theorem Inv.completes {attempt : Attempt Json} (inv : attempt.Inv arg) :
    attempt.Completes arg := by
  obtain ⟨block, query, pcbs, shared, completions, touched⟩ := attempt
  obtain ⟨stage, untouched⟩ := inv
  dsimp only at stage untouched
  cases stage with
  | resolving => exact ⟨Nat.zero_le 1, untouched, fun _ _ => .inl rfl⟩
  | connected own holds => exact ⟨Nat.zero_le 1, untouched, fun _ _ => .inr ⟨_, holds.held⟩⟩
  | completed => exact ⟨Nat.le_refl 1, untouched, (fun _ impossible => by cases impossible)⟩

/-- A callback on behalf of the control block of the attempt. -/
theorem Inv.settle {attempt : Attempt Json} {pcb : Pcb}
    {callback : TcpClientT → Shared Json → Outcome (Option TcpClientT) Json}
    (inv : attempt.Inv arg) (held : attempt.pcbs.held pcb = some (Held.serving arg))
    (settles : ∀ client : TcpClientT, client.tcpPcb = some pcb →
      Settles pcb attempt.pcbs (callback client attempt.shared)) :
    (attempt.call callback).Inv arg := by
  obtain ⟨block, query, pcbs, shared, completions, touched⟩ := attempt
  obtain ⟨stage, untouched⟩ := inv
  dsimp only at stage untouched held settles
  cases stage with
  | resolving own unused => exact absurd rfl (unused pcb _ held)
  | completed unused => exact absurd rfl (unused pcb _ held)
  | @connected client _ attached own holds =>
      have same : pcb = attached := holds.only pcb _ held rfl
      subst same
      refine ⟨?_, untouched⟩
      cases settles client own with
      | kept after state own' unchanged =>
          simp only [call, state, unchanged]
          exact .connected own' holds
      | completed state freed =>
          simp only [call, state, freed]
          exact .completed holds.put_none

theorem Inv.found {attempt : Attempt Json} {found : Bool} {replies : Replies}
    (inv : attempt.Inv arg) (query : attempt.query = true)
    (condition : found = true → Connects replies) :
    (attempt.step lib arg (.found found replies)).Inv arg := by
  obtain ⟨block, _, pcbs, shared, completions, touched⟩ := attempt
  obtain ⟨stage, untouched⟩ := inv
  dsimp only at stage untouched query
  subst query
  refine ⟨?_, by cases stage; exact untouched⟩
  cases stage with
  | @resolving client _ own unused =>
      by_cases resolved : found = true
      · obtain ⟨pcb, state, holds⟩ := clientRequestCommon_serves client shared
          (condition resolved) unused
        simp only [step, call, dnsFound, if_pos resolved, state]
        exact .connected rfl holds
      · obtain ⟨state, calls⟩ := tcpClientResult_without replies client shared own
        simp only [step, call, dnsFound, if_neg resolved, state, calls]
        exact .completed unused

theorem Inv.error {attempt : Attempt Json} {pcb : Pcb} {err : ErrT} {replies : Replies}
    (inv : attempt.Inv arg) (held : attempt.pcbs.held pcb = some (Held.serving arg))
    (condition : err ≠ .abrt) :
    (attempt.step lib arg (.error pcb err replies)).Inv arg := by
  obtain ⟨block, query, pcbs, shared, completions, touched⟩ := attempt
  obtain ⟨stage, untouched⟩ := inv
  dsimp only at stage untouched held
  cases stage with
  | resolving own unused => exact absurd rfl (unused pcb _ held)
  | completed unused => exact absurd rfl (unused pcb _ held)
  | @connected client _ attached own holds =>
      have same : pcb = attached := holds.only pcb _ held rfl
      subst same
      have frees := tcpClientResult_without replies { client with tcpPcb := none } shared rfl
      refine ⟨?_, untouched⟩
      simp only [step, call, tcpClientErr, if_pos condition, frees.1, frees.2]
      exact .completed holds.put_none

theorem Inv.others {attempt : Attempt Json} {held : Pcb → Option Held} {shared : Shared Json}
    (inv : attempt.Inv arg) (enabled : attempt.Enabled arg (.others held shared)) :
    (attempt.step lib arg (.others held shared)).Inv arg := by
  obtain ⟨block, query, pcbs, _, completions, touched⟩ := attempt
  obtain ⟨stage, untouched⟩ := inv
  dsimp only [Enabled] at stage untouched enabled
  refine ⟨?_, untouched⟩
  have kept : NoneHeld pcbs arg → NoneHeld { pcbs with held } arg := by
    intro unused pcb entry found equal
    exact unused pcb entry ((enabled pcb entry equal).mp found) equal
  cases stage with
  | resolving own unused => exact .resolving own (kept unused)
  | completed unused => exact .completed (kept unused)
  | connected own holds =>
      refine .connected own ⟨(enabled _ _ rfl).mpr holds.held, ?_⟩
      intro other entry found equal
      exact holds.only other entry ((enabled other entry equal).mp found) equal

/-- One event. -/
theorem Inv.step {attempt : Attempt Json} {event : AttemptEvent Json}
    (inv : attempt.Inv arg) (enabled : attempt.Enabled arg event)
    (condition : EndsCleanly event) : (attempt.step lib arg event).Inv arg := by
  cases event with
  | found found replies => exact inv.found lib enabled.1 condition
  | connected pcb err replies =>
      exact inv.settle enabled fun client own =>
        jsonClientConnected_settles replies err attempt.shared own enabled
  | sent pcb len =>
      exact inv.settle enabled fun client own =>
        tcpClientJsonSent_settles len attempt.shared own
  | recv pcb p replies =>
      exact inv.settle enabled fun client own =>
        tcpClientJsonRecv_settles lib replies p attempt.shared own enabled
  | poll pcb replies =>
      exact inv.settle enabled fun client own =>
        tcpJsonPoll_settles replies attempt.shared own enabled
  | error pcb err replies => exact inv.error lib enabled condition
  | others held shared => exact inv.others lib enabled

theorem opened_inv {replies : Replies} {pcbs : Pcbs} (shared : Shared Json)
    (unused : NoneHeld pcbs arg) (condition : OpensCleanly replies) :
    (opened arg replies pcbs shared).Inv arg := by
  refine ⟨?_, rfl⟩
  by_cases immediate : replies.dns = .ok
  · obtain ⟨pcb, state, holds⟩ := clientRequestCommon_serves
      { tcpClientInit with busy := true } shared (condition immediate) unused
    simp only [tcpClientInit] at state holds
    simp only [opened, tcpClientJsonInitOpen, tcpClientOpen, tcpClientInit, if_pos immediate,
      state]
    rw [immediate]
    exact .connected rfl holds
  · simp only [opened, tcpClientJsonInitOpen, tcpClientOpen, tcpClientInit, if_neg immediate]
    by_cases pending : replies.dns = .inprogress
    · rw [if_neg (not_not_intro pending), pending]
      exact .resolving rfl unused
    · rw [if_pos pending, decide_eq_false pending]
      exact .completed unused

end Attempt

/-- Every state of an attempt whose openings and errors leave nothing behind. -/
theorem Attempted.inv {attempt : Attempt Json}
    (attempted : Attempted lib arg OpensCleanly EndsCleanly attempt) : attempt.Inv arg := by
  induction attempted with
  | opened shared unused fresh condition => exact Attempt.opened_inv shared unused condition
  | step before enabled condition ih => exact ih.step lib enabled condition

end Invariant

end PicoApConfigure.Json
