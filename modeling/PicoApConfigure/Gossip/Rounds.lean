import Mathlib.Data.Finset.Dedup
import Mathlib.Data.Finset.Card
import Mathlib.Order.Lattice

/-!
# Watching a value

Whoever looks at a value that never decreases, and remembers what was seen, finds it changed
at most once for every value it takes.
-/

namespace PicoApConfigure.Gossip

section Rounds

variable {System Event Value : Type} [LinearOrder Value] (step : System → Event → System)
  (value seen : System → Value) (looks : Event → Prop) [DecidablePred looks]

/-- The states of a run. -/
def states : System → List Event → List System
  | system, [] => [system]
  | system, event :: events => system :: states (step system event) events

/-- How often a changed value is found. -/
def rounds : System → List Event → Nat
  | _, [] => 0
  | system, event :: events =>
      (if looks event ∧ seen system ≠ value system then 1 else 0) +
        rounds (step system event) events

/-- The event does not decrease the value; what is seen is remembered. -/
structure Watches (system : System) (event : Event) : Prop where
  mono : value system ≤ value (step system event)
  looking : looks event → value (step system event) = value system ∧
    seen (step system event) = value system
  away : ¬ looks event → seen (step system event) = seen system

/-- All events of the run are watched. -/
def Watched : System → List Event → Prop
  | _, [] => True
  | system, event :: events =>
      Watches step value seen looks system event ∧ Watched (step system event) events

variable {step value seen looks}

theorem mem_states_self (system : System) (events : List Event) :
    system ∈ states step system events := by
  cases events with
  | nil => exact List.mem_singleton.mpr rfl
  | cons event events => exact List.mem_cons_self

omit [DecidablePred looks] in
/-- No value of the run is below the first one. -/
theorem Watched.least {events : List Event} :
    ∀ {system : System}, Watched step value seen looks system events →
      ∀ later ∈ states step system events, value system ≤ value later := by
  induction events with
  | nil =>
      intro system _ later member
      rw [List.mem_singleton.mp member]
  | cons event events ih =>
      intro system watched later member
      rcases List.mem_cons.mp member with rfl | member
      · exact le_rfl
      · exact le_trans watched.1.mono (ih watched.2 later member)

omit [DecidablePred looks] in
/-- The value never decreases along the run. -/
theorem Watched.pairwise {events : List Event} :
    ∀ {system : System}, Watched step value seen looks system events →
      (states step system events).Pairwise fun before after => value before ≤ value after := by
  induction events with
  | nil => exact fun _ => List.pairwise_singleton _ _
  | cons event events ih =>
      intro system watched
      refine List.pairwise_cons.mpr ⟨fun later member => ?_, ih watched.2⟩
      exact watched.least later (List.mem_cons_of_mem _ member)

/-- The values of a run. -/
def values (step : System → Event → System) (value : System → Value) (system : System)
    (events : List Event) : Finset Value :=
  ((states step system events).map value).toFinset

theorem values_cons (system : System) (event : Event) (events : List Event) :
    values step value system (event :: events) =
      insert (value system) (values step value (step system event) events) :=
  List.toFinset_cons

/-- The number of changes that are found, with the one that waits to be found. -/
theorem Watched.rounds_lt {events : List Event} :
    ∀ {system : System}, Watched step value seen looks system events →
      rounds step value seen looks system events + 1 ≤
        (values step value system events).card +
          (if seen system ≠ value system then 1 else 0) := by
  induction events with
  | nil =>
      intro system _
      have one : (values step value system ([] : List Event)).card = 1 := rfl
      rw [one, rounds]
      exact Nat.le_add_right _ _
  | cons event events ih =>
      intro system watched
      obtain ⟨watches, rest⟩ := watched
      have later := ih rest
      rw [values_cons, rounds]
      by_cases looking : looks event
      · obtain ⟨same, remembered⟩ := watches.looking looking
        have again : value system ∈ values step value (step system event) events := by
          rw [← same]
          exact List.mem_toFinset.mpr (List.mem_map_of_mem (mem_states_self _ _))
        rw [if_neg (not_not.mpr (remembered.trans same.symm))] at later
        rw [Finset.insert_eq_of_mem again]
        by_cases changed : seen system ≠ value system
        · rw [if_pos ⟨looking, changed⟩, if_pos changed]
          omega
        · rw [if_neg fun both => changed both.2, if_neg changed]
          omega
      · rw [if_neg fun both => looking both.1, Nat.zero_add]
        have away := watches.away looking
        by_cases same : value (step system event) = value system
        · have again : value system ∈ values step value (step system event) events := by
            rw [← same]
            exact List.mem_toFinset.mpr (List.mem_map_of_mem (mem_states_self _ _))
          rw [away, same] at later
          rw [Finset.insert_eq_of_mem again]
          exact later
        · have below : value system < value (step system event) :=
            lt_of_le_of_ne watches.mono (Ne.symm same)
          have fresh : value system ∉ values step value (step system event) events := by
            intro member
            obtain ⟨state, reached, equal⟩ := List.mem_map.mp (List.mem_toFinset.mp member)
            exact absurd (rest.least state reached) (not_le.mpr (equal ▸ below))
          rw [Finset.card_insert_of_notMem fresh]
          refine le_trans later (le_trans ?_ (Nat.le_add_right _ _))
          refine Nat.add_le_add_left ?_ _
          split
          · exact Nat.le_refl 1
          · exact Nat.zero_le 1

/-- A changed value is found at most once for every value. -/
theorem Watched.rounds_le {system : System} {events : List Event}
    (watched : Watched step value seen looks system events) :
    rounds step value seen looks system events ≤ (values step value system events).card := by
  have most := watched.rounds_lt
  have flag : (if seen system ≠ value system then 1 else 0) ≤ 1 := by
    split
    · exact Nat.le_refl 1
    · exact Nat.zero_le 1
  omega

end Rounds

end PicoApConfigure.Gossip
