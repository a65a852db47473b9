import Mathlib.Data.List.Basic

/-!
# Runs of a step relation

A run is a finite sequence of labelled steps.  Invariants may mention the labels
seen so far, which makes the history of a run available to them.
-/

namespace Nor

variable {State Event : Type}

/-- Finite runs from `start`, with their labels in order. -/
inductive Run (Step : State → Event → State → Prop) (start : State) :
    List Event → State → Prop
  | nil : Run Step start [] start
  | snoc {events : List Event} {event : Event} {middle final : State}
      (run : Run Step start events middle) (step : Step middle event final) :
      Run Step start (events ++ [event]) final

section Run

variable {Step : State → Event → State → Prop} {start final : State} {events : List Event}

/-- What holds at the start and is kept by every step holds after every run. -/
theorem Run.invariant (Inv : List Event → State → Prop) (run : Run Step start events final)
    (initially : Inv [] start)
    (preserved : ∀ events event middle final, Run Step start events middle →
      Inv events middle → Step middle event final → Inv (events ++ [event]) final) :
    Inv events final := by
  induction run with
  | nil => exact initially
  | snoc run step ih => exact preserved _ _ _ _ run ih step

theorem Run.mono {Weaker : State → Event → State → Prop} (run : Run Step start events final)
    (weaken : ∀ before event after, Step before event after → Weaker before event after) :
    Run Weaker start events final := by
  induction run with
  | nil => exact .nil
  | snoc _ step ih => exact .snoc ih (weaken _ _ _ step)

theorem Run.snoc_inv {event : Event} (run : Run Step start (events ++ [event]) final) :
    ∃ middle, Run Step start events middle ∧ Step middle event final := by
  generalize equal : events ++ [event] = all at run
  cases run with
  | nil => simp at equal
  | snoc run step =>
      obtain ⟨rfl, rfl⟩ := List.append_singleton_inj.mp equal
      exact ⟨_, run, step⟩

/-- Where the steps are determined by their labels, so are the runs. -/
theorem Run.unique {other : State}
    (unique : ∀ before event after after', Step before event after → Step before event after' →
      after = after')
    (run : Run Step start events final) (run' : Run Step start events other) : final = other := by
  induction run generalizing other with
  | nil =>
      generalize equal : ([] : List Event) = none at run'
      cases run' with
      | nil => rfl
      | snoc => simp at equal
  | snoc run step ih =>
      obtain ⟨middle, before, step'⟩ := run'.snoc_inv
      cases ih before
      exact unique _ _ _ _ step step'

end Run

/-! ## Runs of a function -/

/-- Every event meets the condition in the state in which it happens. -/
def Along (step : State → Event → State) (condition : State → Event → Prop) :
    State → List Event → Prop
  | _, [] => True
  | state, event :: events =>
      condition state event ∧ Along step condition (step state event) events

/-- Two conditions are the same along a run if they are the same in every state with an invariant
that the second one keeps. -/
theorem Along.iff_of_invariant {step : State → Event → State}
    {condition other : State → Event → Prop} {Inv : State → Prop}
    (same : ∀ state event, Inv state → (condition state event ↔ other state event))
    (kept : ∀ state event, Inv state → other state event → Inv (step state event)) :
    ∀ (events : List Event) {state : State}, Inv state →
      (Along step condition state events ↔ Along step other state events) := by
  intro events
  induction events with
  | nil => exact fun _ => Iff.rfl
  | cons event events ih =>
      intro state inv
      rw [Along, Along, same state event inv]
      exact and_congr_right fun holds => ih (kept state event inv holds)

end Nor
