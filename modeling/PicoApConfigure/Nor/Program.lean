import PicoApConfigure.Nor.Memory

/-!
# Programs over NOR flash

Programming can only clear bits and erasing sets whole ranges to `0xff`.  A
`FlashProg` is a computation that talks to such a device through its three
operations; it is a tree, so it can be run on any contents, and everything it
asked of the device is visible in the trace of the run.

`Exec` is the proof interface: it relates a program, the contents it starts
from, the write operations it issues in order and its result, and keeps every
access inside a region.
-/

namespace Nor

/-- One access to the device. -/
inductive Op where
  | read (address size : Nat)
  | prog (address : Nat) (bytes : List Byte)
  | erase (address size : Nat)
  deriving DecidableEq, Repr

/-- Programming clears bits: the new contents are the bitwise AND. -/
def program (memory : Memory) (address : Nat) (bytes : List Byte) : Memory :=
  fun query =>
    if address ≤ query then
      memory query &&& (bytes[query - address]?).getD blankByte
    else memory query

/-- Erasing sets every bit of the range. -/
def eraseRange (memory : Memory) (address size : Nat) : Memory :=
  fun query =>
    if address ≤ query ∧ query < address + size then blankByte else memory query

namespace Op

/-- Effect of one access on the contents. -/
def apply : Op → Memory → Memory
  | .read _ _, memory => memory
  | .prog address bytes, memory => program memory address bytes
  | .erase address size, memory => eraseRange memory address size

/-- Addresses touched by an access. -/
def Touches : Op → Nat → Prop
  | .read address size, query => address ≤ query ∧ query < address + size
  | .prog address bytes, query =>
      address ≤ query ∧ query < address + bytes.length
  | .erase address size, query => address ≤ query ∧ query < address + size

/-- Whether an access changes the contents. -/
def isWrite : Op → Bool
  | .read _ _ => false
  | .prog _ _ => true
  | .erase _ _ => true

/-- Whether an access is an erase. -/
def isErase : Op → Bool
  | .erase _ _ => true
  | _ => false

/-- An access that stays inside `region`. -/
def Within (region : Nat → Prop) (op : Op) : Prop :=
  ∀ query, op.Touches query → region query

end Op

/-- Contents after a sequence of accesses. -/
def replay : List Op → Memory → Memory
  | [], memory => memory
  | op :: ops, memory => replay ops (op.apply memory)

/-- A computation over the device.  `stuck` stands for a failed assertion or a
loop that used up its bound. -/
inductive FlashProg (α : Type) where
  | done (value : α)
  | stuck
  | read (address size : Nat) (next : List Byte → FlashProg α)
  | prog (address : Nat) (bytes : List Byte) (next : FlashProg α)
  | erase (address size : Nat) (next : FlashProg α)

namespace FlashProg

/-- Sequential composition. -/
def bind {α β : Type} : FlashProg α → (α → FlashProg β) → FlashProg β
  | .done value, next => next value
  | .stuck, _ => .stuck
  | .read address size rest, next =>
      .read address size fun bytes => (rest bytes).bind next
  | .prog address bytes rest, next => .prog address bytes (rest.bind next)
  | .erase address size rest, next => .erase address size (rest.bind next)

instance : Monad FlashProg where
  pure := .done
  bind := .bind

/-- Read `size` bytes. -/
def readBytes (address size : Nat) : FlashProg (List Byte) :=
  .read address size .done

/-- Program `bytes`. -/
def progBytes (address : Nat) (bytes : List Byte) : FlashProg Unit :=
  .prog address bytes (.done ())

/-- Erase `size` bytes. -/
def eraseBytes (address size : Nat) : FlashProg Unit :=
  .erase address size (.done ())

/-- Stop unless `condition` holds. -/
def check (condition : Bool) : FlashProg Unit :=
  if condition then .done () else .stuck

/-- Run a program: its result, if it gets that far, and the accesses it made. -/
def run {α : Type} : FlashProg α → Memory → Option α × List Op
  | .done value, _ => (some value, [])
  | .stuck, _ => (none, [])
  | .read address size next, memory =>
      let rest := (next (slice memory address size)).run memory
      (rest.1, .read address size :: rest.2)
  | .prog address bytes next, memory =>
      let rest := next.run (program memory address bytes)
      (rest.1, .prog address bytes :: rest.2)
  | .erase address size next, memory =>
      let rest := next.run (eraseRange memory address size)
      (rest.1, .erase address size :: rest.2)

/-- Result of a run. -/
def result {α : Type} (program : FlashProg α) (memory : Memory) : Option α :=
  (program.run memory).1

/-- Accesses made by a run, in order. -/
def trace {α : Type} (program : FlashProg α) (memory : Memory) : List Op :=
  (program.run memory).2

/-- The erase and program operations of a run, in order. -/
def writes {α : Type} (program : FlashProg α) (memory : Memory) : List Op :=
  (program.trace memory).filter Op.isWrite

/-- Contents when the run ends. -/
def final {α : Type} (program : FlashProg α) (memory : Memory) : Memory :=
  replay (program.trace memory) memory

/-- `program`, started on `memory`, issues exactly the writes `writes`, touches
nothing outside `region` and ends with `value`. -/
def Exec {α : Type} (region : Nat → Prop) :
    FlashProg α → Memory → List Op → α → Prop
  | .done result, _, writes, value => writes = [] ∧ result = value
  | .stuck, _, _, _ => False
  | .read address size next, memory, writes, value =>
      (Op.read address size).Within region ∧
        (next (slice memory address size)).Exec region memory writes value
  | .prog address bytes next, memory, writes, value =>
      (Op.prog address bytes).Within region ∧
        ∃ rest, writes = .prog address bytes :: rest ∧
          next.Exec region (program memory address bytes) rest value
  | .erase address size next, memory, writes, value =>
      (Op.erase address size).Within region ∧
        ∃ rest, writes = .erase address size :: rest ∧
          next.Exec region (eraseRange memory address size) rest value

end FlashProg

/-! ## Contents after writes -/

@[simp] theorem replay_nil (memory : Memory) : replay [] memory = memory := rfl

@[simp] theorem replay_cons (op : Op) (ops : List Op) (memory : Memory) :
    replay (op :: ops) memory = replay ops (op.apply memory) := rfl

@[simp] theorem replay_append (left right : List Op) (memory : Memory) :
    replay (left ++ right) memory = replay right (replay left memory) := by
  induction left generalizing memory with
  | nil => rfl
  | cons op ops ih => simp [ih]

/-- Reads do not change the contents. -/
theorem replay_filter_isWrite (ops : List Op) (memory : Memory) :
    replay (ops.filter Op.isWrite) memory = replay ops memory := by
  induction ops generalizing memory with
  | nil => rfl
  | cons op ops ih =>
      cases op with
      | read address size =>
          rw [List.filter_cons_of_neg (by simp [Op.isWrite])]
          exact ih memory
      | prog address bytes =>
          rw [List.filter_cons_of_pos rfl]
          exact ih (program memory address bytes)
      | erase address size =>
          rw [List.filter_cons_of_pos rfl]
          exact ih (eraseRange memory address size)

@[simp] theorem program_nil (memory : Memory) (address : Nat) :
    program memory address [] = memory := by
  funext query
  simp only [program, List.getElem?_nil, Option.getD_none]
  split
  · exact BitVec.and_allOnes
  · rfl

theorem program_of_lt (memory : Memory) {address query : Nat} (bytes : List Byte)
    (below : query < address) :
    program memory address bytes query = memory query := by
  simp [program, Nat.not_le.mpr below]

theorem program_of_le (memory : Memory) {address query : Nat} (bytes : List Byte)
    (above : address + bytes.length ≤ query) :
    program memory address bytes query = memory query := by
  have outside : bytes.length ≤ query - address := by omega
  simp only [program, List.getElem?_eq_none outside, Option.getD_none]
  split
  · exact BitVec.and_allOnes
  · rfl

theorem program_at (memory : Memory) (address : Nat) {bytes : List Byte}
    {offset : Nat} (inBounds : offset < bytes.length) :
    program memory address bytes (address + offset) =
      memory (address + offset) &&& bytes[offset] := by
  simp [program, inBounds]

/-- Programming two adjacent ranges is programming their concatenation. -/
theorem program_append (memory : Memory) (address : Nat) (left right : List Byte) :
    program memory address (left ++ right) =
      program (program memory address left) (address + left.length) right := by
  funext query
  by_cases below : query < address
  · rw [program_of_lt _ _ below, program_of_lt _ _ (by omega), program_of_lt _ _ below]
  obtain ⟨offset, rfl⟩ := Nat.exists_eq_add_of_le (Nat.not_lt.mp below)
  by_cases inLeft : offset < left.length
  · rw [program_of_lt _ right (by omega), program_at _ _ inLeft,
      program_at _ _ (by simp; omega), List.getElem_append_left inLeft]
  · obtain ⟨rest, rfl⟩ := Nat.exists_eq_add_of_le (Nat.not_lt.mp inLeft)
    by_cases inRight : rest < right.length
    · rw [← Nat.add_assoc, program_at _ _ inRight, Nat.add_assoc,
        program_at _ _ (by simp; omega), program_of_le _ left (by omega)]
      simp
    · rw [program_of_le _ _ (by simp; omega), program_of_le _ _ (by omega),
        program_of_le _ _ (by omega)]

/-- Bytes programmed into a blank range are read back exactly. -/
theorem holds_program {memory : Memory} {address : Nat} {bytes : List Byte}
    (blank : Holds memory address (blanks bytes.length)) :
    Holds (program memory address bytes) address bytes := by
  rw [holds_iff]
  intro offset inBounds
  rw [program_at _ _ inBounds,
    holds_blanks_iff.mp blank _ (Nat.le_add_right _ _) (by omega)]
  exact BitVec.allOnes_and

theorem Holds.program_of_disjoint {memory : Memory} {address target : Nat}
    {bytes written : List Byte} (holds : Holds memory address bytes)
    (disjoint : target + written.length ≤ address ∨
      address + bytes.length ≤ target) :
    Holds (program memory target written) address bytes := by
  refine holds.congr fun query lower upper => ?_
  rcases disjoint with before | after
  · exact (program_of_le _ _ (by omega)).symm
  · exact (program_of_lt _ _ (by omega)).symm

theorem eraseRange_of_lt (memory : Memory) {address query : Nat} (size : Nat)
    (below : query < address) : eraseRange memory address size query = memory query := by
  simp [eraseRange, Nat.not_le.mpr below]

theorem eraseRange_of_le (memory : Memory) {address query size : Nat}
    (above : address + size ≤ query) :
    eraseRange memory address size query = memory query := by
  simp [eraseRange, Nat.not_lt.mpr above]

theorem holds_eraseRange (memory : Memory) (address size : Nat) :
    Holds (eraseRange memory address size) address (blanks size) := by
  rw [holds_blanks_iff]
  intro query lower upper
  simp [eraseRange, lower, upper]

theorem Holds.eraseRange_of_disjoint {memory : Memory} {address target size : Nat}
    {bytes : List Byte} (holds : Holds memory address bytes)
    (disjoint : target + size ≤ address ∨ address + bytes.length ≤ target) :
    Holds (eraseRange memory target size) address bytes := by
  refine holds.congr fun query lower upper => ?_
  rcases disjoint with before | after
  · exact (eraseRange_of_le _ (by omega)).symm
  · exact (eraseRange_of_lt _ _ (by omega)).symm

/-- A write leaves every address alone that it does not touch. -/
theorem Op.apply_of_not_touches {op : Op} {memory : Memory} {query : Nat}
    (untouched : ¬op.Touches query) : op.apply memory query = memory query := by
  cases op with
  | read address size => rfl
  | prog address bytes =>
      simp only [Op.Touches, not_and_or, Nat.not_le, Nat.not_lt] at untouched
      rcases untouched with below | above
      · exact program_of_lt _ _ below
      · exact program_of_le _ _ above
  | erase address size =>
      simp only [Op.Touches, not_and_or, Nat.not_le, Nat.not_lt] at untouched
      rcases untouched with below | above
      · exact eraseRange_of_lt _ _ below
      · exact eraseRange_of_le _ above

theorem replay_of_not_touches {ops : List Op} {memory : Memory} {query : Nat}
    (untouched : ∀ op ∈ ops, ¬op.Touches query) :
    replay ops memory query = memory query := by
  induction ops generalizing memory with
  | nil => rfl
  | cons op ops ih =>
      rw [replay_cons, ih fun other member => untouched other (by simp [member])]
      exact Op.apply_of_not_touches (untouched op (by simp))

/-- Applying one operation to two memories that agree inside `region` keeps them
in agreement there. -/
theorem Op.apply_congr {region : Nat → Prop} {left right : Memory} (op : Op)
    (agree : ∀ query, region query → left query = right query) {query : Nat}
    (inside : region query) : op.apply left query = op.apply right query := by
  cases op with
  | read address size => exact agree query inside
  | prog address bytes => simp only [Op.apply, program, agree query inside]
  | erase address size => simp only [Op.apply, eraseRange, agree query inside]

/-! ## Rules for `Exec` -/

namespace FlashProg

variable {α β : Type} {region : Nat → Prop} {memory : Memory}

@[simp] theorem exec_pure {writes : List Op} {result value : α} :
    (pure result : FlashProg α).Exec region memory writes value ↔
      writes = [] ∧ result = value := Iff.rfl

theorem Exec.pure (value : α) :
    (Pure.pure value : FlashProg α).Exec region memory [] value := ⟨rfl, rfl⟩

theorem Exec.readBytes {address size : Nat}
    (within : (Op.read address size).Within region) :
    (FlashProg.readBytes address size).Exec region memory []
      (slice memory address size) := ⟨within, rfl, rfl⟩

theorem Exec.progBytes {address : Nat} {bytes : List Byte}
    (within : (Op.prog address bytes).Within region) :
    (FlashProg.progBytes address bytes).Exec region memory
      [.prog address bytes] () := ⟨within, [], rfl, rfl, rfl⟩

theorem Exec.eraseBytes {address size : Nat}
    (within : (Op.erase address size).Within region) :
    (FlashProg.eraseBytes address size).Exec region memory
      [.erase address size] () := ⟨within, [], rfl, rfl, rfl⟩

theorem Exec.check {condition : Bool} (holds : condition = true) :
    (FlashProg.check condition).Exec region memory [] () := by
  rw [FlashProg.check, if_pos holds]
  exact ⟨rfl, rfl⟩

/-- A sequence runs exactly when its two halves do, one after the other. -/
theorem exec_bind_iff {program : FlashProg α} {next : α → FlashProg β}
    {writes : List Op} {value : β} :
    (program >>= next).Exec region memory writes value ↔
      ∃ first middle rest, writes = first ++ rest ∧
        program.Exec region memory first middle ∧
        (next middle).Exec region (replay first memory) rest value := by
  change (program.bind next).Exec region memory writes value ↔ _
  induction program generalizing memory writes with
  | done result =>
      constructor
      · intro exec
        exact ⟨[], result, writes, rfl, ⟨rfl, rfl⟩, exec⟩
      · rintro ⟨first, middle, rest, rfl, ⟨rfl, rfl⟩, exec⟩
        exact exec
  | stuck => simp [FlashProg.bind, Exec]
  | read address size body ih =>
      simp only [FlashProg.bind, Exec, ih]
      constructor
      · rintro ⟨within, first, middle, rest, equal, exec, execNext⟩
        exact ⟨first, middle, rest, equal, ⟨within, exec⟩, execNext⟩
      · rintro ⟨first, middle, rest, equal, ⟨within, exec⟩, execNext⟩
        exact ⟨within, first, middle, rest, equal, exec, execNext⟩
  | prog address bytes body ih =>
      simp only [FlashProg.bind, Exec, ih]
      constructor
      · rintro ⟨within, tail, rfl, first, middle, rest, rfl, exec, execNext⟩
        exact ⟨.prog address bytes :: first, middle, rest, rfl,
          ⟨within, first, rfl, exec⟩, execNext⟩
      · rintro ⟨_, middle, rest, rfl, ⟨within, first, rfl, exec⟩, execNext⟩
        exact ⟨within, first ++ rest, rfl, first, middle, rest, rfl, exec, execNext⟩
  | erase address size body ih =>
      simp only [FlashProg.bind, Exec, ih]
      constructor
      · rintro ⟨within, tail, rfl, first, middle, rest, rfl, exec, execNext⟩
        exact ⟨.erase address size :: first, middle, rest, rfl,
          ⟨within, first, rfl, exec⟩, execNext⟩
      · rintro ⟨_, middle, rest, rfl, ⟨within, first, rfl, exec⟩, execNext⟩
        exact ⟨within, first ++ rest, rfl, first, middle, rest, rfl, exec, execNext⟩

theorem Exec.bind {program : FlashProg α} {next : α → FlashProg β}
    {first rest : List Op} {middle : α} {value : β}
    (exec : program.Exec region memory first middle)
    (execNext : (next middle).Exec region (replay first memory) rest value) :
    (program >>= next).Exec region memory (first ++ rest) value :=
  exec_bind_iff.mpr ⟨first, middle, rest, rfl, exec, execNext⟩

theorem bind_assoc {γ : Type} (program : FlashProg α) (next : α → FlashProg β)
    (last : β → FlashProg γ) :
    (program >>= next) >>= last = program >>= fun value => next value >>= last := by
  change (program.bind next).bind last = program.bind fun value => (next value).bind last
  induction program with
  | done value => rfl
  | stuck => rfl
  | read address size body ih => simp only [FlashProg.bind, ih]
  | prog address bytes body ih => simp only [FlashProg.bind, ih]
  | erase address size body ih => simp only [FlashProg.bind, ih]

/-- Sequencing after a program that writes nothing. -/
theorem Exec.bind_read {program : FlashProg α} {next : α → FlashProg β}
    {writes : List Op} {middle : α} {value : β}
    (exec : program.Exec region memory [] middle)
    (execNext : (next middle).Exec region memory writes value) :
    (program >>= next).Exec region memory writes value :=
  exec.bind execNext

/-- `Exec` is the run of the program, seen from outside. -/
theorem exec_iff_run {program : FlashProg α} {writes : List Op} {value : α} :
    program.Exec region memory writes value ↔
      program.result memory = some value ∧ program.writes memory = writes ∧
        ∀ op ∈ program.trace memory, op.Within region := by
  simp only [result, FlashProg.writes, trace]
  induction program generalizing memory writes with
  | done result =>
      simp only [Exec, run, Option.some.injEq, List.filter_nil, List.not_mem_nil,
        false_implies, implies_true, and_true]
      exact ⟨fun ⟨empty, equal⟩ => ⟨equal, empty.symm⟩,
        fun ⟨equal, empty⟩ => ⟨empty.symm, equal⟩⟩
  | stuck => simp [Exec, run]
  | read address size body ih =>
      simp only [Exec, run, ih, List.filter_cons, Op.isWrite, List.mem_cons,
        forall_eq_or_imp, Bool.false_eq_true, if_false]
      exact ⟨fun ⟨within, result, writes, rest⟩ => ⟨result, writes, within, rest⟩,
        fun ⟨result, writes, within, rest⟩ => ⟨within, result, writes, rest⟩⟩
  | prog address bytes body ih =>
      simp only [Exec, run, ih, List.filter_cons, Op.isWrite, List.mem_cons,
        forall_eq_or_imp, if_true]
      constructor
      · rintro ⟨within, rest, rfl, result, writes, inside⟩
        exact ⟨result, by rw [writes], within, inside⟩
      · rintro ⟨result, writes, within, inside⟩
        exact ⟨within, _, writes.symm, result, rfl, inside⟩
  | erase address size body ih =>
      simp only [Exec, run, ih, List.filter_cons, Op.isWrite, List.mem_cons,
        forall_eq_or_imp, if_true]
      constructor
      · rintro ⟨within, rest, rfl, result, writes, inside⟩
        exact ⟨result, by rw [writes], within, inside⟩
      · rintro ⟨result, writes, within, inside⟩
        exact ⟨within, _, writes.symm, result, rfl, inside⟩

theorem Exec.result_eq {program : FlashProg α} {writes : List Op} {value : α}
    (exec : program.Exec region memory writes value) :
    program.result memory = some value := (exec_iff_run.mp exec).1

theorem Exec.writes_eq {program : FlashProg α} {writes : List Op} {value : α}
    (exec : program.Exec region memory writes value) :
    program.writes memory = writes := (exec_iff_run.mp exec).2.1

/-- A run is determined by the contents it starts from. -/
theorem Exec.unique {program : FlashProg α} {left right : List Op}
    {leftValue rightValue : α} {other : Nat → Prop}
    (execLeft : program.Exec region memory left leftValue)
    (execRight : program.Exec other memory right rightValue) :
    left = right ∧ leftValue = rightValue :=
  ⟨execLeft.writes_eq.symm.trans execRight.writes_eq,
    Option.some.inj (execLeft.result_eq.symm.trans execRight.result_eq)⟩

/-- What follows a program that writes nothing. -/
theorem Exec.of_bind_read {program : FlashProg α} {next : α → FlashProg β} {writes : List Op}
    {middle : α} {value : β} {other : Nat → Prop} (exec : program.Exec other memory [] middle)
    (both : (program >>= next).Exec region memory writes value) :
    (next middle).Exec region memory writes value := by
  obtain ⟨first, result, rest, rfl, execFirst, execNext⟩ := exec_bind_iff.mp both
  obtain ⟨rfl, rfl⟩ := execFirst.unique exec
  exact execNext

/-- Contents outside the region of a run cannot influence it. -/
theorem Exec.congr {program : FlashProg α} {other : Memory} {writes : List Op}
    {value : α} (exec : program.Exec region memory writes value)
    (agree : ∀ query, region query → memory query = other query) :
    program.Exec region other writes value := by
  induction program generalizing memory other writes with
  | done result => exact exec
  | stuck => exact exec
  | read address size body ih =>
      obtain ⟨within, exec⟩ := exec
      refine ⟨within, ?_⟩
      have sameBytes : slice memory address size = slice other address size :=
        slice_congr fun query lower upper => agree query (within query ⟨lower, upper⟩)
      rw [← sameBytes]
      exact ih _ exec agree
  | prog address bytes body ih =>
      obtain ⟨within, rest, equal, exec⟩ := exec
      exact ⟨within, rest, equal,
        ih exec fun query inside => Op.apply_congr (.prog address bytes) agree inside⟩
  | erase address size body ih =>
      obtain ⟨within, rest, equal, exec⟩ := exec
      exact ⟨within, rest, equal,
        ih exec fun query inside => Op.apply_congr (.erase address size) agree inside⟩

theorem Exec.mono {program : FlashProg α} {larger : Nat → Prop} {writes : List Op}
    {value : α} (exec : program.Exec region memory writes value)
    (subset : ∀ query, region query → larger query) :
    program.Exec larger memory writes value := by
  rw [exec_iff_run] at exec ⊢
  exact ⟨exec.1, exec.2.1, fun op member query touches =>
    subset query (exec.2.2 op member query touches)⟩

/-- Every write of a run stays inside its region. -/
theorem Exec.writes_within {program : FlashProg α} {writes : List Op} {value : α}
    (exec : program.Exec region memory writes value) :
    ∀ op ∈ writes, op.Within region := by
  intro op member
  obtain ⟨_, rfl, within⟩ := exec_iff_run.mp exec
  exact within op (List.mem_of_mem_filter member)

/-! ### Loops with a bound

A loop of the modelled code takes the number of passes it may make.  `Completes`
says that it needs finitely many: from some bound on the result is the same. -/

/-- With enough fuel the program runs as `Exec` says. -/
def Completes (region : Nat → Prop) (program : Nat → FlashProg α) (memory : Memory)
    (writes : List Op) (value : α) : Prop :=
  ∃ bound, ∀ fuel, bound ≤ fuel → (program fuel).Exec region memory writes value

theorem Exec.completes {program : FlashProg α} {writes : List Op} {value : α}
    (exec : program.Exec region memory writes value) :
    Completes region (fun _ => program) memory writes value := ⟨0, fun _ _ => exec⟩

theorem Completes.bind {program : Nat → FlashProg α} {next : Nat → α → FlashProg β}
    {first rest : List Op} {middle : α} {value : β}
    (start : Completes region program memory first middle)
    (finish : Completes region (fun fuel => next fuel middle) (replay first memory) rest
      value) :
    Completes region (fun fuel => program fuel >>= next fuel) memory (first ++ rest)
      value := by
  obtain ⟨startBound, start⟩ := start
  obtain ⟨finishBound, finish⟩ := finish
  refine ⟨max startBound finishBound, fun fuel enough => ?_⟩
  exact (start fuel (by omega)).bind (finish fuel (by omega))

/-- What is left of a sequence behind a first part that is known. -/
theorem Completes.of_bind {program : Nat → FlashProg α} {next : Nat → α → FlashProg β}
    {first writes : List Op} {middle : α} {value : β} {other : Nat → Prop}
    (start : Completes other program memory first middle)
    (both : Completes region (fun fuel => program fuel >>= next fuel) memory writes value) :
    ∃ rest, writes = first ++ rest ∧
      Completes region (fun fuel => next fuel middle) (replay first memory) rest value := by
  obtain ⟨startBound, start⟩ := start
  obtain ⟨bound, both⟩ := both
  have parts : ∀ fuel, max startBound bound ≤ fuel → ∃ rest, writes = first ++ rest ∧
      (next fuel middle).Exec region (replay first memory) rest value := by
    intro fuel enough
    obtain ⟨first', middle', rest, split, exec, execNext⟩ :=
      exec_bind_iff.mp (both fuel (by omega))
    obtain ⟨rfl, rfl⟩ := (start fuel (by omega)).unique exec
    exact ⟨rest, split, execNext⟩
  obtain ⟨rest, rfl, -⟩ := parts _ (Nat.le_refl _)
  refine ⟨rest, rfl, max startBound bound, fun fuel enough => ?_⟩
  obtain ⟨rest', same, execNext⟩ := parts fuel enough
  rwa [← List.append_cancel_left same] at execNext

theorem Completes.of_pure {result value : α} {writes : List Op}
    (completes : Completes region (fun _ => Pure.pure result) memory writes value) :
    writes = [] ∧ result = value := by
  obtain ⟨bound, exec⟩ := completes
  exact exec_pure.mp (exec bound (Nat.le_refl _))

/-- Sequencing after a program that writes nothing and uses no fuel. -/
theorem Completes.bind_read {program : FlashProg α} {next : Nat → α → FlashProg β}
    {writes : List Op} {middle : α} {value : β}
    (start : program.Exec region memory [] middle)
    (finish : Completes region (fun fuel => next fuel middle) memory writes value) :
    Completes region (fun fuel => program >>= next fuel) memory writes value :=
  start.completes.bind finish

/-- Applying a function to the result. -/
theorem Completes.map {program : Nat → FlashProg α} {writes : List Op} {value : α}
    (completes : Completes region program memory writes value) (convert : α → β) :
    Completes region (fun fuel => program fuel >>= fun result => Pure.pure (convert result))
      memory writes (convert value) := by
  have ran := @FlashProg.Completes.bind _ _ _ _ _ (fun _ result => Pure.pure (convert result)) _ _
    _ _ completes (Exec.pure (convert value)).completes
  rwa [List.append_nil] at ran

/-- One pass of a loop. -/
theorem Completes.succ {program : Nat → FlashProg α} {writes : List Op} {value : α}
    (unrolled : Completes region (fun fuel => program (fuel + 1)) memory writes value) :
    Completes region program memory writes value := by
  obtain ⟨bound, unrolled⟩ := unrolled
  refine ⟨bound + 1, fun fuel enough => ?_⟩
  obtain ⟨previous, rfl⟩ : ∃ previous, fuel = previous + 1 := ⟨fuel - 1, by omega⟩
  exact unrolled previous (by omega)

/-- A loop that ends in its first pass. -/
theorem Completes.once {program : Nat → FlashProg α} {writes : List Op} {value : α}
    (exec : ∀ fuel, (program (fuel + 1)).Exec region memory writes value) :
    Completes region program memory writes value :=
  Completes.succ ⟨0, fun fuel _ => exec fuel⟩

theorem Completes.unique {program : Nat → FlashProg α} {left right : List Op}
    {leftValue rightValue : α} {other : Nat → Prop}
    (completesLeft : Completes region program memory left leftValue)
    (completesRight : Completes other program memory right rightValue) :
    left = right ∧ leftValue = rightValue := by
  obtain ⟨leftBound, execLeft⟩ := completesLeft
  obtain ⟨rightBound, execRight⟩ := completesRight
  exact (execLeft (max leftBound rightBound) (by omega)).unique
    (execRight (max leftBound rightBound) (by omega))

theorem Completes.congr {program : Nat → FlashProg α} {other : Memory}
    {writes : List Op} {value : α}
    (completes : Completes region program memory writes value)
    (agree : ∀ query, region query → memory query = other query) :
    Completes region program other writes value := by
  obtain ⟨bound, exec⟩ := completes
  exact ⟨bound, fun fuel enough => (exec fuel enough).congr agree⟩

theorem Completes.mono {program : Nat → FlashProg α} {larger : Nat → Prop}
    {writes : List Op} {value : α}
    (completes : Completes region program memory writes value)
    (subset : ∀ query, region query → larger query) :
    Completes larger program memory writes value := by
  obtain ⟨bound, exec⟩ := completes
  exact ⟨bound, fun fuel enough => (exec fuel enough).mono subset⟩

/-! ### More fuel

`Extends` compares two programs: whatever the first returns, the second returns too,
by the same accesses.  Where a loop with more fuel extends the loop with less, one
run that returns already fixes the result. -/

/-- `larger` returns whatever `smaller` returns. -/
def Extends (smaller larger : FlashProg α) : Prop :=
  ∀ (region : Nat → Prop) (memory : Memory) (writes : List Op) (value : α),
    smaller.Exec region memory writes value → larger.Exec region memory writes value

theorem Extends.refl (program : FlashProg α) : program.Extends program :=
  fun _ _ _ _ exec => exec

theorem Extends.stuck (program : FlashProg α) : FlashProg.stuck.Extends program :=
  fun _ _ _ _ exec => exec.elim

theorem Extends.bind {smaller larger : FlashProg α} {next next' : α → FlashProg β}
    (first : smaller.Extends larger) (rest : ∀ value, (next value).Extends (next' value)) :
    (smaller >>= next).Extends (larger >>= next') := by
  intro region memory writes value exec
  obtain ⟨before, middle, after, rfl, exec, execNext⟩ := exec_bind_iff.mp exec
  exact (first _ _ _ _ exec).bind (rest middle _ _ _ _ execNext)

theorem Exec.completes_of_extends {program : Nat → FlashProg α} {writes : List Op} {value : α}
    {fuel : Nat} (exec : (program fuel).Exec region memory writes value)
    (more : ∀ fuel, (program fuel).Extends (program (fuel + 1))) :
    Completes region program memory writes value := by
  refine ⟨fuel, fun enough bound => ?_⟩
  induction bound with
  | refl => exact exec
  | step _ ih => exact more _ _ _ _ _ ih

/-- A loop that only ever goes on with another state of `inv` does not return, whatever its fuel. -/
theorem never_exec {σ : Type} {loop : Nat → σ → FlashProg α} {inv : σ → Prop}
    (empty : ∀ state, loop 0 state = .stuck)
    (again : ∀ fuel state writes value, inv state →
      (loop (fuel + 1) state).Exec region memory writes value → ∃ next, inv next ∧
        (loop fuel next).Exec region memory writes value) :
    ∀ fuel state, inv state → ∀ writes value,
      ¬(loop fuel state).Exec region memory writes value := by
  intro fuel
  induction fuel with
  | zero =>
      intro state _ writes value exec
      rw [empty] at exec
      exact exec
  | succ fuel ih =>
      intro state holds writes value exec
      obtain ⟨next, holds', exec'⟩ := again fuel state writes value holds exec
      exact ih next holds' writes value exec'

/-! ### Total correctness

On contents about which nothing is known a run is described by what it ensures.
`Finishes` says that the program returns once it has enough fuel, wherever it reads,
and what then holds of its writes and its result. -/

/-- The program returns, and its writes and its result meet `post`. -/
def Finishes (program : Nat → FlashProg α) (memory : Memory) (post : List Op → α → Prop) :
    Prop :=
  ∃ writes value, Completes (fun _ => True) program memory writes value ∧ post writes value

section Finishes

variable {post : List Op → α → Prop}

theorem Completes.finishes {program : Nat → FlashProg α} {writes : List Op} {value : α}
    (completes : Completes region program memory writes value) (holds : post writes value) :
    Finishes program memory post :=
  ⟨writes, value, completes.mono fun _ _ => trivial, holds⟩

theorem Exec.finishes {program : FlashProg α} {writes : List Op} {value : α}
    (exec : program.Exec region memory writes value) (holds : post writes value) :
    Finishes (fun _ => program) memory post :=
  exec.completes.finishes holds

theorem Finishes.pure {value : α} (holds : post [] value) :
    Finishes (fun _ => Pure.pure value) memory post :=
  @Exec.finishes _ (fun _ => True) _ _ _ _ _ (Exec.pure value) holds

theorem Finishes.mono {program : Nat → FlashProg α} {weaker : List Op → α → Prop}
    (finishes : Finishes program memory post)
    (weaken : ∀ writes value, post writes value → weaker writes value) :
    Finishes program memory weaker := by
  obtain ⟨writes, value, completes, holds⟩ := finishes
  exact ⟨writes, value, completes, weaken writes value holds⟩

/-- Sequencing; what comes second starts from what the first part wrote. -/
theorem Finishes.bind {program : Nat → FlashProg α} {next : Nat → α → FlashProg β}
    {result : List Op → β → Prop} (first : Finishes program memory post)
    (rest : ∀ writes value, post writes value →
      Finishes (fun fuel => next fuel value) (replay writes memory)
        fun later => result (writes ++ later)) :
    Finishes (fun fuel => program fuel >>= next fuel) memory result := by
  obtain ⟨writes, value, completes, holds⟩ := first
  obtain ⟨later, final, completesRest, holdsRest⟩ := rest writes value holds
  exact ⟨writes ++ later, final, completes.bind completesRest, holdsRest⟩

/-- Sequencing after a program whose run is known and writes nothing. -/
theorem Exec.bind_finishes {program : FlashProg α} {next : Nat → α → FlashProg β} {value : α}
    {result : List Op → β → Prop} (exec : program.Exec region memory [] value)
    (rest : Finishes (fun fuel => next fuel value) memory result) :
    Finishes (fun fuel => program >>= next fuel) memory result := by
  obtain ⟨writes, final, completes, holds⟩ := rest
  have quiet : program.Exec (fun _ => True) memory [] value := exec.mono fun _ _ => trivial
  exact ⟨writes, final, .bind_read quiet completes, holds⟩

/-- One pass of a loop. -/
theorem Finishes.succ {program : Nat → FlashProg α}
    (unrolled : Finishes (fun fuel => program (fuel + 1)) memory post) :
    Finishes program memory post := by
  obtain ⟨writes, value, completes, holds⟩ := unrolled
  exact ⟨writes, value, completes.succ, holds⟩

/-- A run that is known to return meets what every returning run meets. -/
theorem Finishes.of_completes {program : Nat → FlashProg α} {writes : List Op} {value : α}
    (finishes : Finishes program memory post)
    (completes : Completes region program memory writes value) : post writes value := by
  obtain ⟨writes', value', completes', holds⟩ := finishes
  obtain ⟨rfl, rfl⟩ := completes.unique completes'
  exact holds

theorem Exec.finishes_iff {program : FlashProg α} {writes : List Op} {value : α}
    (exec : program.Exec region memory writes value) :
    Finishes (fun _ => program) memory post ↔ post writes value :=
  ⟨fun finishes => finishes.of_completes exec.completes, exec.finishes⟩

end Finishes

/-! ### Partial correctness

Some loops of the modelled code need not end.  `Ensures` speaks about every access
such a program makes, and about its result if there is one. -/

/-- Every access meets `guard` at the moment it is made, and a result meets `post`. -/
def Ensures (guard : Memory → Op → Prop) (post : α → Memory → Prop) :
    FlashProg α → Memory → Prop
  | .done value, memory => post value memory
  | .stuck, _ => True
  | .read address size next, memory =>
      guard memory (.read address size) ∧ (next (slice memory address size)).Ensures guard post
        memory
  | .prog address bytes next, memory =>
      guard memory (.prog address bytes) ∧ next.Ensures guard post (program memory address bytes)
  | .erase address size next, memory =>
      guard memory (.erase address size) ∧
        next.Ensures guard post (eraseRange memory address size)

/-- The guard that confines accesses to a region. -/
def Inside (region : Nat → Prop) (_ : Memory) (op : Op) : Prop := op.Within region

section Ensures

variable {guard : Memory → Op → Prop}

theorem Ensures.pure {value : α} {post : α → Memory → Prop} (holds : post value memory) :
    (Pure.pure value : FlashProg α).Ensures guard post memory := holds

theorem Ensures.check {condition : Bool} {post : Unit → Memory → Prop}
    (holds : condition = true → post () memory) :
    (FlashProg.check condition).Ensures guard post memory := by
  cases condition with
  | false => exact trivial
  | true => exact holds rfl

theorem Ensures.readBytes {address size : Nat} {post : List Byte → Memory → Prop}
    (allowed : guard memory (.read address size))
    (holds : post (slice memory address size) memory) :
    (FlashProg.readBytes address size).Ensures guard post memory := ⟨allowed, holds⟩

theorem Ensures.progBytes {address : Nat} {bytes : List Byte} {post : Unit → Memory → Prop}
    (allowed : guard memory (.prog address bytes))
    (holds : post () (program memory address bytes)) :
    (FlashProg.progBytes address bytes).Ensures guard post memory := ⟨allowed, holds⟩

theorem Ensures.eraseBytes {address size : Nat} {post : Unit → Memory → Prop}
    (allowed : guard memory (.erase address size))
    (holds : post () (eraseRange memory address size)) :
    (FlashProg.eraseBytes address size).Ensures guard post memory := ⟨allowed, holds⟩

theorem Ensures.bind {program : FlashProg α} {next : α → FlashProg β}
    {middle : α → Memory → Prop} {post : β → Memory → Prop}
    (first : program.Ensures guard middle memory)
    (rest : ∀ value memory, middle value memory → (next value).Ensures guard post memory) :
    (program >>= next).Ensures guard post memory := by
  change (program.bind next).Ensures guard post memory
  induction program generalizing memory with
  | done value => exact rest value memory first
  | stuck => exact trivial
  | read address size body ih => exact ⟨first.1, ih _ first.2⟩
  | prog address bytes body ih => exact ⟨first.1, ih first.2⟩
  | erase address size body ih => exact ⟨first.1, ih first.2⟩

/-- Applying a function to the result. -/
theorem Ensures.map {program : FlashProg α} {post : β → Memory → Prop} {convert : α → β}
    (ensures : program.Ensures guard (fun result final => post (convert result) final) memory) :
    (program >>= fun result => Pure.pure (convert result)).Ensures guard post memory :=
  ensures.bind fun _ _ holds => holds

theorem Ensures.mono {program : FlashProg α} {weaker : Memory → Op → Prop}
    {post weakened : α → Memory → Prop} (ensures : program.Ensures guard post memory)
    (allowed : ∀ memory op, guard memory op → weaker memory op)
    (holds : ∀ value memory, post value memory → weakened value memory) :
    program.Ensures weaker weakened memory := by
  induction program generalizing memory with
  | done value => exact holds value memory ensures
  | stuck => exact trivial
  | read address size body ih => exact ⟨allowed _ _ ensures.1, ih _ ensures.2⟩
  | prog address bytes body ih => exact ⟨allowed _ _ ensures.1, ih ensures.2⟩
  | erase address size body ih => exact ⟨allowed _ _ ensures.1, ih ensures.2⟩

/-- Total correctness implies the partial one. -/
theorem Exec.ensures {program : FlashProg α} {writes : List Op} {value : α}
    (exec : program.Exec region memory writes value) :
    program.Ensures (Inside region)
      (fun result final => result = value ∧ final = replay writes memory) memory := by
  induction program generalizing memory writes with
  | done result =>
      obtain ⟨rfl, rfl⟩ := exec
      exact ⟨rfl, rfl⟩
  | stuck => exact trivial
  | read address size body ih => exact ⟨exec.1, ih _ exec.2⟩
  | prog address bytes body ih =>
      obtain ⟨within, rest, rfl, exec⟩ := exec
      exact ⟨within, ih exec⟩
  | erase address size body ih =>
      obtain ⟨within, rest, rfl, exec⟩ := exec
      exact ⟨within, ih exec⟩

/-- Sequencing after a program whose run is known. -/
theorem Exec.bind_ensures {program : FlashProg α} {next : α → FlashProg β}
    {writes : List Op} {middle : α} {post : β → Memory → Prop}
    (exec : program.Exec region memory writes middle)
    (rest : (next middle).Ensures (Inside region) post (replay writes memory)) :
    (program >>= next).Ensures (Inside region) post memory := by
  refine exec.ensures.bind fun value final ⟨sameValue, sameMemory⟩ => ?_
  rw [sameValue, sameMemory]
  exact rest

/-- The two judgements about one run agree on its result. -/
theorem Ensures.of_exec {program : FlashProg α} {post : α → Memory → Prop}
    {writes : List Op} {value : α} (ensures : program.Ensures guard post memory)
    (exec : program.Exec region memory writes value) :
    post value (replay writes memory) := by
  induction program generalizing memory writes with
  | done result =>
      obtain ⟨rfl, rfl⟩ := exec
      exact ensures
  | stuck => exact exec.elim
  | read address size body ih => exact ih _ ensures.2 exec.2
  | prog address bytes body ih =>
      obtain ⟨_, rest, rfl, exec⟩ := exec
      have later := ih ensures.2 exec
      exact later
  | erase address size body ih =>
      obtain ⟨_, rest, rfl, exec⟩ := exec
      have later := ih ensures.2 exec
      exact later

theorem Ensures.of_completes {program : Nat → FlashProg α} {post : α → Memory → Prop}
    {writes : List Op} {value : α}
    (ensures : ∀ fuel, (program fuel).Ensures guard post memory)
    (completes : Completes region program memory writes value) :
    post value (replay writes memory) := by
  obtain ⟨bound, exec⟩ := completes
  exact (ensures bound).of_exec (exec bound (Nat.le_refl _))

/-- A program that stays inside a region cannot tell apart contents that agree there. -/
theorem Ensures.run_congr {program : FlashProg α} {post : α → Memory → Prop}
    {other : Memory}
    (ensures : program.Ensures (Inside region) post memory)
    (agree : ∀ query, region query → memory query = other query) :
    program.run memory = program.run other := by
  induction program generalizing memory other with
  | done value => rfl
  | stuck => rfl
  | read address size body ih =>
      have sameBytes : slice memory address size = slice other address size :=
        slice_congr fun query lower upper => agree query (ensures.1 query ⟨lower, upper⟩)
      rw [run, run, ← sameBytes, ih _ ensures.2 agree]
  | prog address bytes body ih =>
      have same : body.run (program memory address bytes) =
          body.run (program other address bytes) := ih ensures.2 fun query inside =>
        Op.apply_congr (.prog address bytes) agree inside
      rw [run, run, same]
  | erase address size body ih =>
      have same : body.run (eraseRange memory address size) =
          body.run (eraseRange other address size) := ih ensures.2 fun query inside =>
        Op.apply_congr (.erase address size) agree inside
      rw [run, run, same]

/-- A trace inside a region is all that the guard of the region asks for. -/
theorem Ensures.of_trace_within {program : FlashProg α}
    (within : ∀ op ∈ program.trace memory, op.Within region) :
    program.Ensures (Inside region) (fun _ _ => True) memory := by
  simp only [trace] at within
  induction program generalizing memory with
  | done value => exact trivial
  | stuck => exact trivial
  | read address size body ih =>
      simp only [run, List.mem_cons, forall_eq_or_imp] at within
      exact ⟨within.1, ih _ within.2⟩
  | prog address bytes body ih =>
      simp only [run, List.mem_cons, forall_eq_or_imp] at within
      exact ⟨within.1, ih within.2⟩
  | erase address size body ih =>
      simp only [run, List.mem_cons, forall_eq_or_imp] at within
      exact ⟨within.1, ih within.2⟩

end Ensures

/-- A result of the program meets `keep`. -/
def Yields (keep : α → Prop) (program : FlashProg α) : Prop :=
  ∀ (region : Nat → Prop) (memory : Memory) (writes : List Op) (value : α),
    program.Exec region memory writes value → keep value

section Yields

variable {keep : α → Prop}

theorem Yields.pure {value : α} (holds : keep value) :
    (Pure.pure value : FlashProg α).Yields keep := by
  rintro region memory writes result ⟨-, rfl⟩
  exact holds

theorem Yields.stuck : (FlashProg.stuck : FlashProg α).Yields keep :=
  fun _ _ _ _ impossible => impossible.elim

theorem Yields.bind {program : FlashProg α} {next : α → FlashProg β} {result : β → Prop}
    (first : program.Yields keep) (rest : ∀ value, keep value → (next value).Yields result) :
    (program >>= next).Yields result := by
  intro region memory writes value exec
  obtain ⟨_, middle, _, -, execFirst, execRest⟩ := exec_bind_iff.mp exec
  exact rest middle (first _ _ _ _ execFirst) _ _ _ _ execRest

/-- Sequencing after a program of whose result nothing is needed. -/
theorem Yields.bind_any {program : FlashProg α} {next : α → FlashProg β} {result : β → Prop}
    (rest : ∀ value, (next value).Yields result) : (program >>= next).Yields result :=
  @Yields.bind _ _ (fun _ => True) _ _ _ (fun _ _ _ _ _ => trivial) fun value _ => rest value

end Yields

/-! ### Programs that only read -/

/-- The program issues no writes, and its result meets `keep`. -/
def Quiet (keep : α → Prop) (program : FlashProg α) : Prop :=
  ∀ memory, program.Ensures (fun _ op => op.isWrite = false)
    (fun result final => final = memory ∧ keep result) memory

section Quiet

variable {keep : α → Prop}

theorem Quiet.pure {value : α} (holds : keep value) :
    (Pure.pure value : FlashProg α).Quiet keep := fun _ => ⟨rfl, holds⟩

theorem Quiet.stuck : (FlashProg.stuck : FlashProg α).Quiet keep := fun _ => trivial

theorem Quiet.check (condition : Bool) : (FlashProg.check condition).Quiet fun _ => True :=
  fun _ => .check fun _ => ⟨rfl, trivial⟩

theorem Quiet.readBytes (address size : Nat) :
    (FlashProg.readBytes address size).Quiet fun _ => True :=
  fun _ => .readBytes rfl ⟨rfl, trivial⟩

theorem Quiet.bind {program : FlashProg α} {next : α → FlashProg β} {middle : α → Prop}
    {keep : β → Prop} (first : program.Quiet middle)
    (rest : ∀ value, middle value → (next value).Quiet keep) :
    (program >>= next).Quiet keep := by
  intro memory
  refine (first memory).bind fun value final ⟨same, holds⟩ => ?_
  subst same
  exact rest value holds final

theorem Quiet.mono {program : FlashProg α} {weaker : α → Prop} (quiet : program.Quiet keep)
    (weaken : ∀ value, keep value → weaker value) : program.Quiet weaker :=
  fun memory => (quiet memory).mono (fun _ _ allowed => allowed)
    fun value _ ⟨same, holds⟩ => ⟨same, weaken value holds⟩

theorem Quiet.of_completes {program : Nat → FlashProg α} {writes : List Op} {value : α}
    (quiet : ∀ fuel, (program fuel).Quiet keep)
    (completes : Completes region program memory writes value) :
    replay writes memory = memory ∧ keep value :=
  Ensures.of_completes (fun fuel => quiet fuel memory) completes

end Quiet

end FlashProg

end Nor
