import PicoApConfigure.RingBuffer.Latest

/-!
# What appends leave on the tape

An append that succeeds puts one entry behind the others, on a full ring after an erase.  An erase
takes entries away in front.  Of a record that goes on in the next sector it leaves the second
piece, which is then the first entry of the tape.
-/

namespace PicoApConfigure.RingBuffer

open Nor

/-- The entry is one of `entries`, or the second piece of one. -/
def Entry.LeftOf (entries : List Entry) (entry : Entry) : Prop :=
  entry ∈ entries ∨ ∃ head tail, entry = .single tail ∧ .pair head tail ∈ entries

/-- An append of the call stores its record whole on the log that the flash carries. -/
def Call.StoresWhole (ring : Geometry) (memory : Memory) : Call → Prop
  | .append _ data size _ _ => ∀ cells start log, RingHolds memory ring cells →
      Ordered ring cells start log → StoresRecord ring log data size
  | _ => True

/-- The append of `event` has made the entry, which is the whole record if the append stores it
whole. -/
inductive Makes (ring : Geometry) (before : Device) (event : Event) (entry : Entry) : Prop
  | mk {request : Request} {pagebuffer : Memory} {eraseIfFull : Bool} {offset : Option Nat}
      (call : event.call =
        .append request.id request.data request.size pagebuffer eraseIfFull)
      (result : event.result = RbError.ok.code) (short : request.size ≤ 4088)
      (stored : Stored request offset entry)
      (whole : event.call.StoresWhole ring before.memory →
        RingBuffer.StoresWhole offset request.data request.size)

/-- A ring in order whose tape consists of entries that were `made`, and of what an erase has left
of one. -/
structure Chronicled (ring : Geometry) (device : Device) (made : Entry → Prop)
    (cells : Nat → Option Sector) (start : Nat) (log : List Sector) (entries : List Entry) :
    Prop where
  inOrder : InOrder ring device cells start log
  chronicle : Chronicle (tape log) entries
  known : ∀ entry ∈ entries, made entry ∨ ∃ head tail, entry = .single tail ∧ made (.pair head tail)

section Chronicles

variable {ring : Geometry} {device before after : Device} {made : Entry → Prop}
  {cells : Nat → Option Sector} {start : Nat} {log : List Sector} {entries : List Entry}
  {mark : Mark} {front rest : List Mark} {event : Event}

/-! ## Erases -/

theorem Entry.LeftOf.trans {entry : Entry} {left : List Entry} (leftOf : entry.LeftOf left)
    (all : ∀ other ∈ left, other.LeftOf entries) : entry.LeftOf entries := by
  rcases leftOf with member | ⟨head, tail, rfl, member⟩
  · exact all entry member
  · rcases all _ member with whole | ⟨_, _, single, _⟩
    · exact .inr ⟨head, tail, rfl, whole⟩
    · cases single

/-- The tape without its first fragment. -/
theorem Chronicle.behind (chronicle : Chronicle (mark :: rest) entries) :
    ∃ left, Chronicle rest left ∧ ∀ entry ∈ left, entry.LeftOf entries := by
  have equal := chronicle.tape_eq
  cases entries with
  | nil => cases equal
  | cons first entries =>
      have later := chronicle.tail
      cases first with
      | single other =>
          obtain ⟨rfl, rfl⟩ := List.cons.inj equal
          exact ⟨entries, later, fun entry member => .inl (List.mem_cons_of_mem _ member)⟩
      | pair head tail =>
          obtain ⟨rfl, rfl⟩ := List.cons.inj equal
          refine ⟨.single tail :: entries, ⟨rfl, ?_, fun entry member => chronicle.unsplit entry
            member⟩, ?_⟩
          · intro entry member
            rcases List.mem_cons.mp member with rfl | member
            · trivial
            · exact later.formed entry member
          · intro entry member
            rcases List.mem_cons.mp member with rfl | member
            · exact .inr ⟨mark, tail, rfl, List.mem_cons_self⟩
            · exact .inl (List.mem_cons_of_mem _ member)

/-- The tape without the fragments in front. -/
theorem Chronicle.suffix (chronicle : Chronicle (front ++ rest) entries) :
    ∃ left, Chronicle rest left ∧ ∀ entry ∈ left, entry.LeftOf entries := by
  induction front generalizing entries with
  | nil => exact ⟨entries, chronicle, fun entry member => .inl member⟩
  | cons mark front ih =>
      obtain ⟨left, onward, fromAll⟩ := chronicle.behind
      obtain ⟨final, last, fromLeft⟩ := ih onward
      exact ⟨final, last, fun entry member => (fromLeft entry member).trans fromAll⟩

/-- A mark of the tape belongs to an entry. -/
theorem Chronicle.here (chronicle : Chronicle (front ++ mark :: rest) entries) :
    ∃ earlier entry later, entries = earlier ++ entry :: later ∧
      ((entry = .single mark ∧ front = earlier.flatMap Entry.marks ∧
          rest = later.flatMap Entry.marks) ∨
        (∃ tail, entry = .pair mark tail ∧ front = earlier.flatMap Entry.marks ∧
          rest = tail :: later.flatMap Entry.marks) ∨
        ∃ head, entry = .pair head mark ∧ front = earlier.flatMap Entry.marks ++ [head] ∧
          rest = later.flatMap Entry.marks) := by
  induction entries generalizing front with
  | nil =>
      have equal := chronicle.tape_eq
      simp at equal
  | cons first entries ih =>
      have equal := chronicle.tape_eq
      have onward := chronicle.tail
      rw [List.flatMap_cons] at equal
      -- what the entries behind the first one say about a mark behind it
      have later : ∀ {marks behind : List Mark}, first.marks = marks → front = marks ++ behind →
          behind ++ mark :: rest = entries.flatMap Entry.marks →
          ∃ earlier entry later, first :: entries = earlier ++ entry :: later ∧
            ((entry = .single mark ∧ front = earlier.flatMap Entry.marks ∧
                rest = later.flatMap Entry.marks) ∨
              (∃ tail, entry = .pair mark tail ∧ front = earlier.flatMap Entry.marks ∧
                rest = tail :: later.flatMap Entry.marks) ∨
              ∃ head, entry = .pair head mark ∧ front = earlier.flatMap Entry.marks ++ [head] ∧
                rest = later.flatMap Entry.marks) := by
        rintro marks behind rfl rfl same
        rw [← same] at onward
        obtain ⟨earlier, entry, later, rfl, cases'⟩ := ih onward
        refine ⟨first :: earlier, entry, later, rfl, ?_⟩
        rcases cases' with ⟨single, rfl, later⟩ | ⟨tail, pair, rfl, later⟩ |
          ⟨head, pair, rfl, later⟩
        · exact .inl ⟨single, rfl, later⟩
        · exact .inr (.inl ⟨tail, pair, rfl, later⟩)
        · exact .inr (.inr ⟨head, pair, by rw [List.flatMap_cons, List.append_assoc], later⟩)
      cases first with
      | single other =>
          cases front with
          | nil =>
              simp only [Entry.marks, List.nil_append, List.singleton_append,
                List.cons.injEq] at equal
              obtain ⟨rfl, rfl⟩ := equal
              exact ⟨[], _, entries, rfl, .inl ⟨rfl, rfl, rfl⟩⟩
          | cons second front =>
              simp only [Entry.marks, List.cons_append, List.nil_append, List.cons.injEq] at equal
              obtain ⟨rfl, same⟩ := equal
              exact later rfl rfl same
      | pair head tail =>
          simp only [Entry.marks, List.cons_append, List.nil_append] at equal
          cases front with
          | nil =>
              rw [List.nil_append, List.cons.injEq] at equal
              obtain ⟨rfl, rfl⟩ := equal
              exact ⟨[], _, entries, rfl, .inr (.inl ⟨tail, rfl, rfl, rfl⟩)⟩
          | cons second front =>
              rw [List.cons_append, List.cons.injEq] at equal
              obtain ⟨rfl, same⟩ := equal
              cases front with
              | nil =>
                  rw [List.nil_append, List.cons.injEq] at same
                  obtain ⟨rfl, rfl⟩ := same
                  exact ⟨[], _, entries, rfl, .inr (.inr ⟨second, rfl, rfl, rfl⟩)⟩
              | cons third front =>
                  rw [List.cons_append, List.cons.injEq] at same
                  obtain ⟨rfl, same⟩ := same
                  exact later rfl rfl same

theorem Chronicle.drop {earlier later : List Entry}
    (chronicle : Chronicle rest (earlier ++ later)) :
    Chronicle (later.flatMap Entry.marks) later := by
  induction earlier generalizing rest with
  | nil => exact chronicle.tape_eq ▸ chronicle
  | cons entry earlier ih => exact ih chronicle.tail

/-! ## Appends -/

theorem Grows.chronicle {request : Request} {index : Nat} {writes : List Op} {log' : List Sector}
    (grows : Grows ring start request index log writes log')
    (chronicle : Chronicle (tape log) entries) :
    ∃ entry, Stored request (writeOffset log) entry ∧ Chronicle (tape log') (entries ++ [entry]) :=
  by
  obtain ⟨entry, stored, grown⟩ := grows.stored
  refine ⟨entry, stored, ?_⟩
  rw [grown]
  exact chronicle.append stored.formed stored.unsplit

/-- What an append makes of the entries. -/
theorem LogAppends.chronicle {request : Request} {eraseIfFull : Bool} {index start' : Nat}
    {writes : List Op} {status : RbError} {log' : List Sector}
    (outcome : LogAppends ring request eraseIfFull index start log writes status start' log')
    (chronicle : Chronicle (tape log) entries) :
    ∃ left, (∀ entry ∈ left, entry.LeftOf entries) ∧
      ((status ≠ .ok ∧ Chronicle (tape log') left) ∨
        (status = .ok ∧ request.size ≤ 4088 ∧ ∃ offset entry, Stored request offset entry ∧
          Chronicle (tape log') (left ++ [entry]) ∧
          (StoresRecord ring log request.data request.size →
            StoresWhole offset request.data request.size))) := by
  have all : ∀ entry ∈ entries, entry.LeftOf entries := fun entry member => .inl member
  cases outcome with
  | refused failed => exact ⟨entries, all, .inl ⟨failed, chronicle⟩⟩
  | rejected => exact ⟨entries, all, .inl ⟨by decide, chronicle⟩⟩
  | dropped _ _ _ split =>
      rw [split, tape_cons] at chronicle
      obtain ⟨left, behind, fromAll⟩ := chronicle.suffix
      exact ⟨left, fromAll, .inl ⟨by decide, behind⟩⟩
  | grown grows =>
      obtain ⟨entry, stored, grown⟩ := grows.chronicle chronicle
      exact ⟨entries, all, .inr ⟨rfl, grows.short, _, entry, stored, grown, fun whole =>
        whole.2.elim grows.whole_of_single id⟩⟩
  | @replaced writes first rest _ _ used split grows =>
      rw [split, tape_cons] at chronicle
      obtain ⟨left, behind, fromAll⟩ := chronicle.suffix
      obtain ⟨entry, stored, grown⟩ := grows.chronicle behind
      refine ⟨left, fromAll, .inr ⟨rfl, grows.short, _, entry, stored, grown, fun whole => ?_⟩⟩
      by_cases alone : rest = []
      · refine grows.whole_of_single ?_
        rw [split, alone] at used
        exact used.symm
      · refine whole.2.elim grows.whole_of_single fun kept => ?_
        rwa [split, writeOffset_cons first alone] at kept

/-! ## Runs of appends -/

theorem Chronicled.mono {weaker : Entry → Prop}
    (chronicled : Chronicled ring device made cells start log entries)
    (weaken : ∀ entry, made entry → weaker entry) :
    Chronicled ring device weaker cells start log entries where
  inOrder := chronicled.inOrder
  chronicle := chronicled.chronicle
  known := fun entry member => (chronicled.known entry member).imp (weaken _)
    fun ⟨head, tail, single, pair⟩ => ⟨head, tail, single, weaken _ pair⟩

theorem Chronicled.nil {first : Device} (started : Started ring first) :
    Chronicled ring first made (fun _ => none) 0 [] [] :=
  ⟨started.inOrder, .nil, by simp⟩

/-- An append leaves entries that were made before, and the one it makes. -/
theorem Chronicled.step (chronicled : Chronicled ring before made cells start log entries)
    (step : CountedStep ring before event after) (append : event.call.isAppend = true) :
    ∃ cells' start' log' entries', Chronicled ring after
      (fun entry => made entry ∨ Makes ring before event entry) cells' start' log' entries' := by
  obtain ⟨⟨on, holds, ordered⟩, chronicle, known⟩ := chronicled
  obtain ⟨call, result, writes⟩ := event
  cases call with
  | append id data size pagebuffer eraseIfFull =>
      rcases step.1.append on holds ordered.filled with
        ⟨_, _, _, rfl⟩ |
          ⟨request, status, changed, rfl, rfl, rfl, fits, rfl, holds', on', _, appends⟩
      · exact ⟨cells, start, log, entries, ⟨on, holds, ordered⟩, chronicle,
          fun entry member => (known entry member).imp .inl
            fun ⟨head, tail, single, pair⟩ => ⟨head, tail, single, .inl pair⟩⟩
      · obtain ⟨_, _, start', log', outcome, ordered'⟩ :=
          ordered.appends ((step.2 rfl).small holds) appends
        obtain ⟨left, fromAll, cases'⟩ := outcome.chronicle chronicle
        have old : ∀ entry ∈ left, (made entry ∨ Makes ring before ⟨.append request.id request.data
            request.size pagebuffer eraseIfFull, status.code, writes⟩ entry) ∨
            ∃ head tail, entry = .single tail ∧ (made (.pair head tail) ∨
              Makes ring before ⟨.append request.id request.data request.size pagebuffer
                eraseIfFull, status.code, writes⟩ (.pair head tail)) := by
          intro entry member
          rcases fromAll entry member with same | ⟨head, tail, rfl, pair⟩
          · exact (known entry same).imp .inl
              fun ⟨head, tail, single, pair⟩ => ⟨head, tail, single, .inl pair⟩
          · rcases known _ pair with whole | ⟨_, _, single, _⟩
            · exact .inr ⟨head, tail, rfl, .inl whole⟩
            · cases single
        rcases cases' with ⟨_, behind⟩ | ⟨rfl, short, offset, entry, stored, grown, whole⟩
        · exact ⟨changed, start', log', left, ⟨on', holds', ordered'⟩, behind, old⟩
        · refine ⟨changed, start', log', left ++ [entry], ⟨on', holds', ordered'⟩, grown, ?_⟩
          intro other member
          rcases List.mem_append.mp member with before' | new
          · exact old other before'
          · rw [List.mem_singleton.mp new]
            refine .inl (.inr (.mk rfl rfl short stored fun kept => whole ?_))
            exact kept cells start log holds ordered
  | _ => cases append

/-- Every ring reached by appends is chronicled. -/
theorem Chronicled.run {first : Device} {events : List Event} (started : Started ring first)
    (run : Run (CountedStep ring) first events device)
    (appends : ∀ event ∈ events, event.call.isAppend = true) :
    ∃ cells start log entries,
      Chronicled ring device (fun _ => True) cells start log entries := by
  induction run with
  | nil => exact ⟨_, _, _, _, .nil started⟩
  | snoc run step ih =>
      obtain ⟨cells, start, log, entries, chronicled⟩ := ih fun event member =>
        appends event (by simp [member])
      obtain ⟨cells', start', log', entries', chronicled'⟩ := chronicled.step step
        (appends _ (by simp))
      exact ⟨cells', start', log', entries', chronicled'.mono fun _ _ => trivial⟩

end Chronicles

end PicoApConfigure.RingBuffer
