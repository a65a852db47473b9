import PicoApConfigure.Json.Server
import Mathlib.Data.List.Nodup

/-!
# The slots of the server

The server with any number of slots, the control blocks the stack holds for its
connections, and the events the stack delivers to it.
-/

namespace PicoApConfigure.Json

open Nor Tcp

/-- The server and its connections in the stack. -/
structure Slots (Json : Type) where
  perAccept : List ServerPerClient
  pcbs : Pcbs
  shared : Shared Json

/-- What the stack delivers to the server. -/
inductive SlotEvent (Json : Type) where
  | accept (pcb : Option Pcb) (err : ErrT) (replies : Replies)
  | recv (pcb : Pcb) (slot : Nat) (p : Option (List Byte)) (err : ErrT) (replies : Replies)
  | sent (pcb : Pcb) (slot : Nat) (len : Nat)
  | poll (pcb : Pcb) (slot : Nat) (replies : Replies)
  | error (pcb : Pcb) (slot : Nat) (err : ErrT) (replies : Replies)
  /-- Other activity of the device. -/
  | others (shared : Shared Json)

section Slots

variable {Json : Type} (lib : CJson Json)

namespace Slots

/-- The server after `tcp_server_init` with `maxConnections` slots. -/
def opened (maxConnections : Nat) (shared : Shared Json) : Slots Json :=
  { perAccept := List.replicate maxConnections .zeroed,
    pcbs := { held := fun _ => none, misused := false }, shared }

/-- A callback with the slot as its argument. -/
def call (slots : Slots Json) (slot : Nat)
    (callback : ServerPerClient → Shared Json → Outcome ServerPerClient Json) : Slots Json :=
  match slots.perAccept[slot]? with
  | none => slots
  | some client =>
      let outcome := callback client slots.shared
      { perAccept := slots.perAccept.set slot outcome.state
        pcbs := slots.pcbs.applyAll outcome.calls
        shared := outcome.shared }

/-- A connection attempt: the stack drops the new block unless the callback returns
`ERR_OK`. -/
def accept (slots : Slots Json) (pcb : Option Pcb) (err : ErrT) (replies : Replies) :
    Slots Json :=
  match tcpServerAccept replies pcb err slots.perAccept, pcb with
  | (perAccept, calls, result), some pcb =>
      let given := slots.pcbs.put pcb (some { arg := none, active := true })
      let pcbs := given.applyAll calls
      { slots with perAccept, pcbs := if result = .ok then pcbs else pcbs.put pcb none }
  | (perAccept, calls, _), none =>
      { slots with perAccept, pcbs := slots.pcbs.applyAll calls }

/-- When the stack can deliver the event. -/
def Enabled (slots : Slots Json) : SlotEvent Json → Prop
  | .accept pcb _ _ => ∀ new, pcb = some new → slots.pcbs.held new = none
  | .recv pcb slot _ _ _ => slots.pcbs.held pcb = some (Held.serving slot)
  | .sent pcb slot _ => slots.pcbs.held pcb = some (Held.serving slot)
  | .poll pcb slot _ => slots.pcbs.held pcb = some (Held.serving slot)
  | .error pcb slot _ _ => slots.pcbs.held pcb = some (Held.serving slot)
  | .others _ => True

/-- What the event does.  Before an error callback the stack frees the block. -/
def step (slots : Slots Json) : SlotEvent Json → Slots Json
  | .accept pcb err replies => slots.accept pcb err replies
  | .recv pcb slot p err replies => slots.call slot (tcpServerJsonRecv lib replies pcb p err)
  | .sent _ slot len => slots.call slot fun client shared =>
      { state := tcpServerJsonSent len client, shared, calls := [], result := .ok }
  | .poll _ slot replies => slots.call slot (tcpServerPoll replies)
  | .error pcb slot err replies =>
      { slots with pcbs := slots.pcbs.put pcb none }.call slot (tcpServerErr replies err)
  | .others shared => { slots with shared }

end Slots

/-- The states of a server all of whose events satisfy the condition. -/
inductive Served (maxConnections : Nat) (allowed : SlotEvent Json → Prop) : Slots Json → Prop where
  | opened (shared : Shared Json) : Served maxConnections allowed (.opened maxConnections shared)
  | step {slots : Slots Json} {event : SlotEvent Json}
      (before : Served maxConnections allowed slots)
      (enabled : slots.Enabled event) (condition : allowed event) :
      Served maxConnections allowed (slots.step lib event)

end Slots

/-- The event is no error callback. -/
def NoError {Json : Type} : SlotEvent Json → Prop
  | .error _ _ _ _ => False
  | _ => True

section Spec

variable {Json : Type} {pcb : Pcb} {pcbs : Pcbs}

/-- A callback keeps the connection of its slot, or frees both. -/
inductive Serves (pcb : Pcb) (pcbs : Pcbs) (outcome : Outcome ServerPerClient Json) : Prop where
  | kept (own : outcome.state.clientPcb = some pcb) (same : pcbs.applyAll outcome.calls = pcbs)
  | closed (own : outcome.state.clientPcb = none)
      (freed : pcbs.applyAll outcome.calls = pcbs.put pcb none)

theorem Serves.after {outcome : Outcome ServerPerClient Json} (calls : List Call)
    (serves : Serves pcb pcbs outcome) (same : pcbs.applyAll calls = pcbs) :
    Serves pcb pcbs (outcome.after calls) := by
  cases serves with
  | kept own unchanged => exact .kept own (by simp [Outcome.after, same, unchanged])
  | closed own freed => exact .closed own (by simp [Outcome.after, same, freed])

theorem Serves.returning {outcome : Outcome ServerPerClient Json} (result : ErrT)
    (serves : Serves pcb pcbs outcome) : Serves pcb pcbs { outcome with result } := by
  cases serves with
  | kept own unchanged => exact .kept own unchanged
  | closed own freed => exact .closed own freed

theorem tcpServerResult_serves {held : Held} (replies : Replies) (client : ServerPerClient)
    (shared : Shared Json) (own : client.clientPcb = some pcb)
    (holds : pcbs.held pcb = some held) :
    Serves pcb pcbs (tcpServerResult replies client shared) := by
  simp only [tcpServerResult, tcpCloseClient, own]
  exact .closed rfl (Pcbs.applyAll_end replies holds)

theorem tcpServerJsonSend_serves {held : Held} (replies : Replies) (client : ServerPerClient)
    (shared : Shared Json) (own : client.clientPcb = some pcb)
    (holds : pcbs.held pcb = some held) :
    Serves pcb pcbs (tcpServerJsonSend replies (some pcb) client shared) := by
  have write := Pcbs.apply_write (slice shared.buffer 0 (uint16 client.sendSize))
    replies.write holds
  rw [tcpServerJsonSend]
  dsimp only
  split
  · exact .kept own write
  split
  · exact .kept own write
  have failed := tcpServerResult_serves replies
    { client with sentLen := 0, status := replies.write } shared own holds
  exact failed.after [_] write

theorem tcpServerJsonAnswer_serves {held : Held} (lib : CJson Json) (replies : Replies)
    (client : ServerPerClient) (shared : Shared Json) (own : client.clientPcb = some pcb)
    (holds : pcbs.held pcb = some held) :
    Serves pcb pcbs (tcpServerJsonAnswer lib replies client shared) := by
  simp only [tcpServerJsonAnswer, own]
  split
  · exact tcpServerResult_serves replies _ _ rfl holds
  split
  · split
    · exact (tcpServerJsonSend_serves replies _ _ rfl holds).returning .ok
    · exact tcpServerResult_serves replies _ _ rfl holds
  · exact (tcpServerJsonSend_serves replies _ _ rfl holds).returning .ok

theorem tcpServerJsonStore_own (tpcb : Pcb) (chunk : List Byte) (client : ServerPerClient)
    (shared : Shared Json) :
    (tcpServerJsonStore tpcb chunk client shared).1.clientPcb = client.clientPcb := by
  rw [tcpServerJsonStore]
  split
  · dsimp only
    split <;> rfl
  · rfl

theorem tcpServerJsonStore_calls {held : Held} (chunk : List Byte) (client : ServerPerClient)
    (shared : Shared Json) (holds : pcbs.held pcb = some held) :
    pcbs.applyAll (tcpServerJsonStore pcb chunk client shared).2.2 = pcbs := by
  rw [tcpServerJsonStore]
  split
  · exact Pcbs.apply_recved chunk.length holds
  · rfl

theorem tcpServerJsonRecv_serves {held : Held} (lib : CJson Json) (replies : Replies)
    (p : Option (List Byte)) (err : ErrT) (client : ServerPerClient) (shared : Shared Json)
    (own : client.clientPcb = some pcb) (holds : pcbs.held pcb = some held) :
    Serves pcb pcbs (tcpServerJsonRecv lib replies pcb p err client shared) := by
  cases p with
  | none =>
      simp only [tcpServerJsonRecv]
      split
      · exact tcpServerResult_serves replies client shared own holds
      · exact .kept own rfl
  | some chunk =>
      have stored := tcpServerJsonStore_own pcb chunk client shared
      have same := tcpServerJsonStore_calls chunk client shared holds
      rw [own] at stored
      simp only [tcpServerJsonRecv]
      split
      · split
        · exact (tcpServerJsonAnswer_serves lib replies _ _ stored holds).after _ same
        · exact .kept stored same
      · exact .kept own rfl

theorem tcpServerPoll_serves {held : Held} (replies : Replies) (client : ServerPerClient)
    (shared : Shared Json) (own : client.clientPcb = some pcb)
    (holds : pcbs.held pcb = some held) :
    Serves pcb pcbs (tcpServerPoll replies client shared) := by
  simp only [tcpServerPoll, own]
  split
  · exact (tcpServerJsonSend_serves replies client shared own holds).returning .ok
  · exact .kept own rfl

end Spec

/-! ## The invariant -/

section Invariant

variable {Json : Type} (lib : CJson Json)

namespace Slots

/-- Every block of the stack belongs to a slot, and the slots name their blocks. -/
structure Inv (slots : Slots Json) : Prop where
  tracked : ∀ slot (client : ServerPerClient) pcb, slots.perAccept[slot]? = some client →
    (client.clientPcb = some pcb ↔ slots.pcbs.held pcb = some (Held.serving slot))
  owned : ∀ pcb held, slots.pcbs.held pcb = some held →
    ∃ slot, slot < slots.perAccept.length ∧ held = Held.serving slot
  unmisused : slots.pcbs.misused = false

theorem opened_inv (maxConnections : Nat) (shared : Shared Json) :
    (opened maxConnections shared).Inv where
  tracked := by
    intro slot client pcb found
    have zeroed := List.eq_of_mem_replicate (List.mem_of_getElem? found)
    rw [zeroed]
    exact ⟨(fun impossible => by cases impossible), (fun impossible => by cases impossible)⟩
  owned := by
    intro pcb held found
    cases found
  unmisused := rfl

/-- A callback for the connection of a slot. -/
theorem Inv.call {slots : Slots Json} {slot : Nat} {pcb : Pcb}
    {callback : ServerPerClient → Shared Json → Outcome ServerPerClient Json}
    (inv : slots.Inv) (held : slots.pcbs.held pcb = some (Held.serving slot))
    (serves : ∀ client : ServerPerClient, client.clientPcb = some pcb →
      Serves pcb slots.pcbs (callback client slots.shared)) :
    (slots.call slot callback).Inv := by
  obtain ⟨found, inBounds, equal⟩ := inv.owned pcb _ held
  obtain rfl : slot = found := by
    simpa [Held.serving] using congrArg Held.arg equal
  have entry := List.getElem?_eq_getElem inBounds
  have own := (inv.tracked slot _ pcb entry).mpr held
  simp only [Slots.call, entry]
  cases serves _ own with
  | kept own' same =>
      refine ⟨?_, ?_, ?_⟩
      · intro other client query found'
        rw [same]
        by_cases equal' : slot = other
        · subst equal'
          rw [List.getElem?_set_self inBounds] at found'
          cases found'
          rw [own', ← inv.tracked slot _ query entry, own]
        · rw [List.getElem?_set_ne equal'] at found'
          exact inv.tracked other client query found'
      · intro query other found'
        rw [same] at found'
        rw [List.length_set]
        exact inv.owned query other found'
      · rw [same]
        exact inv.unmisused
  | closed own' freed =>
      refine ⟨?_, ?_, ?_⟩
      · intro other client query found'
        rw [freed]
        by_cases equal' : slot = other
        · subst equal'
          rw [List.getElem?_set_self inBounds] at found'
          cases found'
          rw [own']
          refine ⟨(fun impossible => by cases impossible), fun holds => ?_⟩
          by_cases same : query = pcb
          · rw [same, Pcbs.put_self] at holds
            cases holds
          · rw [Pcbs.put_of_ne _ _ same, ← inv.tracked slot _ query entry, own] at holds
            exact absurd (Option.some.inj holds).symm same
        · rw [List.getElem?_set_ne equal'] at found'
          have before := inv.tracked other client query found'
          by_cases same : query = pcb
          · subst same
            rw [Pcbs.put_self, before, held]
            simp [Held.serving, equal']
          · rw [Pcbs.put_of_ne _ _ same]
            exact before
      · intro query other found'
        rw [freed] at found'
        rw [List.length_set]
        by_cases same : query = pcb
        · rw [same, Pcbs.put_self] at found'
          cases found'
        · rw [Pcbs.put_of_ne _ _ same] at found'
          exact inv.owned query other found'
      · rw [freed]
        exact inv.unmisused

/-! ### Connection attempts -/

theorem acceptIn_own (pcb : Pcb) (client : ServerPerClient) :
    (acceptIn pcb client).clientPcb = some pcb := rfl

/-- A connection attempt that the server refuses. -/
theorem accept_refused {slots : Slots Json} {pcb : Pcb} {err : ErrT} (replies : Replies)
    (unheld : slots.pcbs.held pcb = none)
    (refused : err ≠ .ok ∨
      slots.perAccept.findIdx? ServerPerClient.isFree = none) :
    slots.accept (some pcb) err replies = slots := by
  have dropped : slots.pcbs.put pcb none = slots.pcbs := Pcbs.put_of_held unheld
  by_cases failed : err = .ok
  · have busy := refused.resolve_left (not_not_intro failed)
    by_cases closed : replies.close = .ok
    · simp [accept, tcpServerAccept, failed, busy, closed, Pcbs.apply, Call.target,
        Pcbs.put_put, dropped]
    · simp [accept, tcpServerAccept, failed, busy, closed, Pcbs.apply, Call.target,
        Pcbs.put_put, dropped]
  · simp [accept, tcpServerAccept, failed, Pcbs.put_put, dropped]

/-- A connection attempt that takes the first free slot. -/
theorem accept_taken {slots : Slots Json} {slot : Nat} (pcb : Pcb) (replies : Replies)
    (first : slots.perAccept.findIdx? ServerPerClient.isFree = some slot) :
    slots.accept (some pcb) .ok replies =
      { slots with perAccept := slots.perAccept.modify slot (acceptIn pcb)
                   pcbs := slots.pcbs.put pcb (some (Held.serving slot)) } := by
  simp [accept, tcpServerAccept, first, Pcbs.apply, Call.target, Pcbs.put_put, Held.serving]

/-- The slot that was found was free. -/
theorem free_of_findIdx? {perAccept : List ServerPerClient} {slot : Nat}
    (first : perAccept.findIdx? ServerPerClient.isFree = some slot) :
    ∃ client, perAccept[slot]? = some client ∧ client.clientPcb = none := by
  obtain ⟨inBounds, free, _⟩ := List.findIdx?_eq_some_iff_getElem.mp first
  exact ⟨_, List.getElem?_eq_getElem inBounds, Option.isNone_iff_eq_none.mp free⟩

theorem Inv.taken {slots : Slots Json} {slot : Nat} {pcb : Pcb} (inv : slots.Inv)
    (unheld : slots.pcbs.held pcb = none)
    (first : slots.perAccept.findIdx? ServerPerClient.isFree = some slot) :
    Inv { slots with perAccept := slots.perAccept.modify slot (acceptIn pcb)
                     pcbs := slots.pcbs.put pcb (some (Held.serving slot)) } := by
  obtain ⟨free, entry, empty⟩ := free_of_findIdx? first
  refine ⟨?_, ?_, inv.unmisused⟩
  · intro other client query found
    by_cases equal : slot = other
    · subst equal
      rw [List.getElem?_modify_eq, entry] at found
      cases found
      by_cases same : query = pcb
      · rw [same, Pcbs.put_self]
        exact ⟨fun _ => rfl, fun _ => rfl⟩
      · have absent := inv.tracked slot free query entry
        rw [empty] at absent
        rw [Pcbs.put_of_ne _ _ same, ← absent, acceptIn_own]
        simp [Ne.symm same]
    · rw [List.getElem?_modify_ne _ _ equal] at found
      have before := inv.tracked other client query found
      by_cases same : query = pcb
      · subst same
        rw [Pcbs.put_self, before, unheld]
        simp [Held.serving, equal]
      · rw [Pcbs.put_of_ne _ _ same]
        exact before
  · intro query held found
    rw [List.length_modify]
    by_cases same : query = pcb
    · rw [same, Pcbs.put_self] at found
      exact ⟨slot, (List.getElem?_eq_some_iff.mp entry).1, (Option.some.inj found).symm⟩
    · rw [Pcbs.put_of_ne _ _ same] at found
      exact inv.owned query held found

theorem Inv.accept {slots : Slots Json} {pcb : Option Pcb} {err : ErrT} {replies : Replies}
    (inv : slots.Inv) (enabled : slots.Enabled (.accept pcb err replies)) :
    (slots.accept pcb err replies).Inv := by
  cases pcb with
  | none => exact inv
  | some pcb =>
      have unheld := enabled pcb rfl
      by_cases failed : err = .ok
      · subst failed
        cases first : slots.perAccept.findIdx? ServerPerClient.isFree with
        | none =>
            rw [accept_refused replies unheld (.inr first)]
            exact inv
        | some slot =>
            rw [accept_taken pcb replies first]
            exact inv.taken unheld first
      · rw [accept_refused replies unheld (.inl failed)]
        exact inv

/-- One event. -/
theorem Inv.step {slots : Slots Json} {event : SlotEvent Json} (inv : slots.Inv)
    (enabled : slots.Enabled event) (condition : NoError event) :
    (slots.step lib event).Inv := by
  cases event with
  | accept pcb err replies => exact inv.accept enabled
  | recv pcb slot p err replies =>
      exact inv.call enabled fun client own =>
        tcpServerJsonRecv_serves lib replies p err client slots.shared own enabled
  | sent pcb slot len =>
      rw [Slots.step]
      refine inv.call enabled ?_
      intro client own
      exact .kept own rfl
  | poll pcb slot replies =>
      exact inv.call enabled fun client own =>
        tcpServerPoll_serves replies client slots.shared own enabled
  | error pcb slot err replies => cases condition
  | others shared => exact ⟨inv.tracked, inv.owned, inv.unmisused⟩

end Slots

theorem Served.inv {maxConnections : Nat} {slots : Slots Json}
    (served : Served lib maxConnections NoError slots) : slots.Inv := by
  induction served with
  | opened shared => exact Slots.opened_inv maxConnections shared
  | step before enabled condition ih => exact ih.step lib enabled condition

end Invariant

/-- The first connection of a server with one slot. -/
def connected : Slots Unit :=
  (Slots.opened 1 idleShared).step oneObject (.accept (some 1) .ok quiet)

end PicoApConfigure.Json
