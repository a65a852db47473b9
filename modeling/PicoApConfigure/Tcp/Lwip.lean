import PicoApConfigure.Nor.Memory

/-!
# Calls into a TCP stack

Callbacks of an application talk to the stack by calls on protocol control blocks.  A
callback is a function of its arguments and of the replies the stack gives; the calls it
makes are recorded, and `Pcbs` says what they do to the blocks the stack holds.
-/

namespace Tcp

open Nor

/-- Name of a protocol control block. -/
abbrev Pcb := Nat

/-- `err_t`. -/
inductive ErrT where
  | ok
  | mem
  | inprogress
  | val
  | abrt
  | user
  | other (code : Int)
  deriving DecidableEq, Repr

/-- The callbacks that can be registered on a block. -/
inductive Callback where
  | sent
  | recv
  | poll
  | err
  deriving DecidableEq, Repr

/-- A call into the stack, with its reply. -/
inductive Call where
  | arg (pcb : Pcb) (arg : Option Nat)
  | register (callback : Callback) (pcb : Pcb) (registered : Bool)
  | new (reply : Option Pcb)
  | connect (pcb : Pcb) (reply : ErrT)
  | write (pcb : Option Pcb) (bytes : List Byte) (reply : ErrT)
  | recved (pcb : Pcb) (size : Nat)
  | close (pcb : Pcb) (reply : ErrT)
  | abort (pcb : Pcb)
  deriving DecidableEq, Repr

/-- The replies the stack gives during one callback. -/
structure Replies where
  write : ErrT
  close : ErrT
  connect : ErrT
  new : Option Pcb
  dns : ErrT

/-- Every request is granted and there is nothing to allocate. -/
def quiet : Replies := { write := .ok, close := .ok, connect := .ok, new := none, dns := .ok }

namespace Call

/-- The block a call is made on; `tcp_write` may be given `NULL`. -/
def target : Call → Option Pcb
  | .arg pcb _ => some pcb
  | .register _ pcb _ => some pcb
  | .new _ => none
  | .connect pcb _ => some pcb
  | .write pcb _ _ => pcb
  | .recved pcb _ => some pcb
  | .close pcb _ => some pcb
  | .abort pcb => some pcb

end Call

/-- The calls that take the callbacks off a block. -/
def unregister (pcb : Pcb) : List Call :=
  [.arg pcb none, .register .poll pcb false, .register .sent pcb false,
    .register .recv pcb false, .register .err pcb false]

/-- `tcp_close`, and `tcp_abort` where it fails. -/
def closeOrAbort (replies : Replies) (pcb : Pcb) : List Call × ErrT :=
  if replies.close = .ok then ([.close pcb .ok], .ok)
  else ([.close pcb replies.close, .abort pcb], .abrt)

/-! ## Blocks the stack holds -/

/-- A block that has been allocated and not freed. -/
structure Held where
  arg : Option Nat
  active : Bool
  deriving DecidableEq

/-- The blocks of the stack, and whether a call was made on one that it had freed. -/
structure Pcbs where
  held : Pcb → Option Held
  misused : Bool

namespace Pcbs

/-- Change of one block. -/
def put (pcbs : Pcbs) (pcb : Pcb) (entry : Option Held) : Pcbs :=
  { pcbs with held := fun query => if query = pcb then entry else pcbs.held query }

/-- What a call does to the blocks.  Closing a block hands it back to the stack. -/
def apply (pcbs : Pcbs) (call : Call) : Pcbs :=
  let pcbs := match call.target with
    | some pcb => if pcbs.held pcb = none then { pcbs with misused := true } else pcbs
    | none => pcbs
  match call with
  | .arg pcb arg => pcbs.put pcb ((pcbs.held pcb).map fun held => { held with arg })
  | .new (some pcb) => pcbs.put pcb (some { arg := none, active := false })
  | .connect pcb .ok => pcbs.put pcb ((pcbs.held pcb).map fun held => { held with active := true })
  | .close pcb .ok => pcbs.put pcb none
  | .abort pcb => pcbs.put pcb none
  | _ => pcbs

/-- What the calls of a callback do. -/
def applyAll (pcbs : Pcbs) (calls : List Call) : Pcbs := calls.foldl apply pcbs

@[simp] theorem applyAll_nil (pcbs : Pcbs) : pcbs.applyAll [] = pcbs := rfl

@[simp] theorem applyAll_cons (pcbs : Pcbs) (call : Call) (calls : List Call) :
    pcbs.applyAll (call :: calls) = (pcbs.apply call).applyAll calls := rfl

@[simp] theorem applyAll_append (pcbs : Pcbs) (left right : List Call) :
    pcbs.applyAll (left ++ right) = (pcbs.applyAll left).applyAll right := List.foldl_append

@[simp] theorem put_self (pcbs : Pcbs) (pcb : Pcb) (entry : Option Held) :
    (pcbs.put pcb entry).held pcb = entry := if_pos rfl

theorem put_of_ne (pcbs : Pcbs) {pcb query : Pcb} (entry : Option Held) (ne : query ≠ pcb) :
    (pcbs.put pcb entry).held query = pcbs.held query := if_neg ne

@[simp] theorem put_misused (pcbs : Pcbs) (pcb : Pcb) (entry : Option Held) :
    (pcbs.put pcb entry).misused = pcbs.misused := rfl

theorem put_put (pcbs : Pcbs) (pcb : Pcb) (first second : Option Held) :
    (pcbs.put pcb first).put pcb second = pcbs.put pcb second := by
  simp only [put, mk.injEq, and_true]
  funext query
  by_cases same : query = pcb
  · simp only [if_pos same]
  · simp only [if_neg same]

/-- A block that already has the entry. -/
theorem put_of_held {pcbs : Pcbs} {pcb : Pcb} {entry : Option Held}
    (holds : pcbs.held pcb = entry) : pcbs.put pcb entry = pcbs := by
  obtain ⟨held, misused⟩ := pcbs
  simp only [put, mk.injEq, and_true]
  funext query
  by_cases same : query = pcb
  · rw [if_pos same, same, ← holds]
  · rw [if_neg same]

/-- Registration changes no block. -/
theorem apply_register {pcbs : Pcbs} {pcb : Pcb} {held : Held} (callback : Callback)
    (registered : Bool) (holds : pcbs.held pcb = some held) :
    pcbs.apply (.register callback pcb registered) = pcbs := by
  simp [apply, Call.target, holds]

theorem apply_arg {pcbs : Pcbs} {pcb : Pcb} {held : Held} (arg : Option Nat)
    (holds : pcbs.held pcb = some held) :
    pcbs.apply (.arg pcb arg) = pcbs.put pcb (some { held with arg }) := by
  simp [apply, Call.target, holds]

/-- The callbacks are taken off a block that is held. -/
theorem applyAll_unregister {pcbs : Pcbs} {pcb : Pcb} {held : Held}
    (holds : pcbs.held pcb = some held) :
    pcbs.applyAll (unregister pcb) = pcbs.put pcb (some { held with arg := none }) := by
  have still := put_self pcbs pcb (some { held with arg := none })
  simp only [unregister, applyAll_cons, applyAll_nil, apply_arg none holds,
    apply_register _ _ still]

/-- A block that is closed or aborted is gone. -/
theorem applyAll_closeOrAbort {pcbs : Pcbs} {pcb : Pcb} {held : Held} (replies : Replies)
    (holds : pcbs.held pcb = some held) :
    pcbs.applyAll (closeOrAbort replies pcb).1 = pcbs.put pcb none := by
  by_cases closed : replies.close = .ok
  · simp [closeOrAbort, closed, apply, Call.target, holds]
  · simp [closeOrAbort, closed, apply, Call.target, holds]

/-- The end of a connection frees its block and no other. -/
theorem applyAll_end {pcbs : Pcbs} {pcb : Pcb} {held : Held} (replies : Replies)
    (holds : pcbs.held pcb = some held) :
    pcbs.applyAll (unregister pcb ++ (closeOrAbort replies pcb).1) = pcbs.put pcb none := by
  rw [applyAll_append, applyAll_unregister holds,
    applyAll_closeOrAbort replies (put_self pcbs pcb _), put_put]

/-- A write changes no block that is held. -/
theorem apply_write {pcbs : Pcbs} {pcb : Pcb} {held : Held} (bytes : List Byte) (reply : ErrT)
    (holds : pcbs.held pcb = some held) :
    pcbs.apply (.write (some pcb) bytes reply) = pcbs := by
  simp [apply, Call.target, holds]

theorem apply_recved {pcbs : Pcbs} {pcb : Pcb} {held : Held} (size : Nat)
    (holds : pcbs.held pcb = some held) :
    pcbs.apply (.recved pcb size) = pcbs := by
  simp [apply, Call.target, holds]

end Pcbs

/-! ## Blocks by their argument -/

/-- A block that can make callbacks with the argument `arg`. -/
def Held.serving (arg : Nat) : Held := { arg := some arg, active := true }

/-- The stack allocates blocks that are not in use. -/
def Fresh (pcbs : Pcbs) (replies : Replies) : Prop :=
  ∀ pcb, replies.new = some pcb → pcbs.held pcb = none

/-- No block has the argument `arg`. -/
def NoneHeld (pcbs : Pcbs) (arg : Nat) : Prop :=
  ∀ pcb held, pcbs.held pcb = some held → held.arg ≠ some arg

/-- `pcb` is the block with the argument `arg`. -/
structure OnlyHeld (pcbs : Pcbs) (arg : Nat) (pcb : Pcb) : Prop where
  held : pcbs.held pcb = some (Held.serving arg)
  only : ∀ other held, pcbs.held other = some held → held.arg = some arg → other = pcb

namespace OnlyHeld

theorem put_none {pcbs : Pcbs} {arg : Nat} {pcb : Pcb} (holds : OnlyHeld pcbs arg pcb) :
    NoneHeld (pcbs.put pcb none) arg := by
  intro other held found equal
  by_cases same : other = pcb
  · subst same
    rw [Pcbs.put_self] at found
    cases found
  · rw [Pcbs.put_of_ne _ _ same] at found
    exact same (holds.only other held found equal)

end OnlyHeld

theorem NoneHeld.put_serving {pcbs : Pcbs} {arg : Nat} (none : NoneHeld pcbs arg) (pcb : Pcb) :
    OnlyHeld (pcbs.put pcb (some (Held.serving arg))) arg pcb where
  held := Pcbs.put_self _ _ _
  only := by
    intro other held found equal
    by_contra differs
    rw [Pcbs.put_of_ne _ _ differs] at found
    exact none other held found equal

end Tcp
