import Mathlib.Logic.Function.Basic
import Mathlib.Order.Lattice

/-!
# Versioned gossip

Hosts hold items with versions.  A host announces its item to others, and whoever gets an
item that is not older than its own takes it.  Messages arrive in any order.
-/

namespace PicoApConfigure.Gossip

/-- What the hosts hold and have announced last, and the messages under way.  A message
without an item is an acknowledgement. -/
structure State (Host Item Version : Type) where
  held : Host → Item
  told : Host → Version
  messages : List (Host × Option Item)

namespace State

variable {Host Item Version : Type}

/-- The item is somewhere in the system. -/
def Has (state : State Host Item Version) (item : Item) : Prop :=
  (∃ host, state.held host = item) ∨ ∃ host, (host, some item) ∈ state.messages

theorem has_held (state : State Host Item Version) (host : Host) :
    state.Has (state.held host) := .inl ⟨host, rfl⟩

theorem has_message {state : State Host Item Version} {host : Host} {item : Item}
    (sent : (host, some item) ∈ state.messages) : state.Has item := .inr ⟨host, sent⟩

/-- An update leaves the items of the other hosts. -/
theorem has_update [DecidableEq Host] {state : State Host Item Version} {host : Host}
    {replaced item : Item}
    (held : ∃ other, Function.update state.held host replaced other = item) :
    state.Has item ∨ item = replaced := by
  obtain ⟨other, rfl⟩ := held
  by_cases same : other = host
  · subst same
    rw [Function.update_self]
    exact .inr rfl
  · rw [Function.update_of_ne same]
    exact .inl (state.has_held other)

end State

section Gossip

variable {Host Item Version : Type} [DecidableEq Host] [LinearOrder Version]
  (version : Item → Version)

/-- The item a host holds after it got another one; the other one wins a tie. -/
def newer (mine theirs : Item) : Item :=
  if version mine ≤ version theirs then theirs else mine

theorem newer_cases (mine theirs : Item) :
    newer version mine theirs = mine ∨ newer version mine theirs = theirs := by
  rw [newer]
  split
  · exact .inr rfl
  · exact .inl rfl

theorem version_newer (mine theirs : Item) :
    version (newer version mine theirs) = max (version mine) (version theirs) := by
  rw [newer]
  split
  · rename_i older
    exact (max_eq_right older).symm
  · rename_i younger
    exact (max_eq_left (le_of_not_ge younger)).symm

variable (reached : Host → List Host → Prop)
  (changes : State Host Item Version → Host → Item → Prop)

/-- One step.  `reached` says whom an announcement goes to, `changes` which items a host may
take without a message. -/
inductive Step : State Host Item Version → State Host Item Version → Prop where
  | rest (state : State Host Item Version) : Step state state
  | announce {state : State Host Item Version} {host : Host} {targets : List Host}
      (reaches : reached host targets) :
      Step state
        { state with
          told := Function.update state.told host (version (state.held host))
          messages := state.messages ++
            targets.map fun target => (target, some (state.held host)) }
  | take {state : State Host Item Version} {before after : List (Host × Option Item)}
      {host : Host} {item : Item} {answers : List (Host × Option Item)}
      (found : state.messages = before ++ (host, some item) :: after)
      (own : ∀ target answer, (target, some answer) ∈ answers →
        answer = newer version (state.held host) item) :
      Step state
        { state with
          held := Function.update state.held host (newer version (state.held host) item)
          messages := before ++ after ++ answers }
  | acknowledge {state : State Host Item Version} {before after : List (Host × Option Item)}
      {host : Host} (found : state.messages = before ++ (host, none) :: after) :
      Step state { state with messages := before ++ after }
  | change {state : State Host Item Version} {host : Host} {item : Item}
      (later : version (state.held host) ≤ version item)
      (allowed : changes state host item) :
      Step state { state with held := Function.update state.held host item }

variable {version reached changes}

namespace Step

variable {before after : State Host Item Version}

/-- The versions of a host never decrease. -/
theorem mono (step : Step version reached changes before after) (host : Host) :
    version (before.held host) ≤ version (after.held host) := by
  cases step with
  | rest => exact le_rfl
  | announce => exact le_rfl
  | acknowledge => exact le_rfl
  | @take _ _ taker item _ _ _ =>
      by_cases same : host = taker
      · subst same
        simp only [Function.update_self, version_newer]
        exact le_max_left _ _
      · simp only [Function.update_of_ne same]
        exact le_rfl
  | @change changed item later _ =>
      by_cases same : host = changed
      · subst same
        simp only [Function.update_self]
        exact later
      · simp only [Function.update_of_ne same]
        exact le_rfl

/-- Items do not come from nowhere: a step adds at most the item of a change. -/
theorem has (step : Step version reached changes before after) :
    (∀ item, after.Has item → before.Has item) ∨
      ∃ host added, changes before host added ∧
        ∀ item, after.Has item → before.Has item ∨ item = added := by
  cases step with
  | rest => exact .inl fun _ present => present
  | @announce host targets _ =>
      refine .inl fun item present => ?_
      rcases present with ⟨other, held⟩ | ⟨target, sent⟩
      · exact .inl ⟨other, held⟩
      rcases List.mem_append.mp sent with earlier | now
      · exact .inr ⟨target, earlier⟩
      · obtain ⟨_, _, equal⟩ := List.mem_map.mp now
        cases equal
        exact before.has_held host
  | @take front behind host theirs answers found own =>
      have newer_has : before.Has (newer version (before.held host) theirs) := by
        rcases newer_cases version (before.held host) theirs with mine | other
        · rw [mine]
          exact before.has_held host
        · rw [other]
          exact .inr ⟨host, found ▸ List.mem_append_right _ List.mem_cons_self⟩
      refine .inl fun item present => ?_
      rcases present with held | ⟨target, sent⟩
      · rcases State.has_update held with earlier | rfl
        · exact earlier
        · exact newer_has
      rcases List.mem_append.mp sent with earlier | now
      · refine .inr ⟨target, ?_⟩
        rw [found]
        rcases List.mem_append.mp earlier with left | right
        · exact List.mem_append_left _ left
        · exact List.mem_append_right _ (List.mem_cons_of_mem _ right)
      · rw [own target item now]
        exact newer_has
  | @acknowledge front behind host found =>
      refine .inl fun item present => ?_
      rcases present with held | ⟨target, sent⟩
      · exact .inl held
      refine .inr ⟨target, ?_⟩
      rw [found]
      rcases List.mem_append.mp sent with left | right
      · exact List.mem_append_left _ left
      · exact List.mem_append_right _ (List.mem_cons_of_mem _ right)
  | @change host added later allowed =>
      refine .inr ⟨host, added, allowed, fun item present => ?_⟩
      rcases present with held | sent
      · exact State.has_update held
      · exact .inl (.inr sent)

end Step

/-! ## Agreement -/

variable (version)

/-- Every host has what any other host announced, or it is under way. -/
def Covered (state : State Host Item Version) : Prop :=
  ∀ host other, other ≠ host →
    state.told host ≤ version (state.held other) ∨
      ∃ item, (other, some item) ∈ state.messages ∧ state.told host ≤ version item

/-- No two items have the same version. -/
def Distinct (state : State Host Item Version) : Prop :=
  ∀ left right, state.Has left → state.Has right → version left = version right →
    left = right

variable {version}

/-- An announcement to everybody else covers all hosts. -/
theorem Step.covered {before after : State Host Item Version}
    (step : Step version reached changes before after)
    (complete : ∀ host targets, reached host targets → ∀ other, other ≠ host → other ∈ targets)
    (covered : Covered version before) : Covered version after := by
  have mono := step.mono
  intro host other apart
  cases step with
  | rest => exact covered host other apart
  | @announce speaker targets reaches =>
      by_cases same : host = speaker
      · subst same
        refine .inr ⟨before.held host, List.mem_append_right _ ?_, ?_⟩
        · exact List.mem_map.mpr ⟨other, complete host targets reaches other apart, rfl⟩
        · simp only [Function.update_self]
          exact le_rfl
      · simp only [Function.update_of_ne same]
        rcases covered host other apart with arrived | ⟨item, sent, most⟩
        · exact .inl arrived
        · exact .inr ⟨item, List.mem_append_left _ sent, most⟩
  | @take front behind taker theirs answers found own =>
      rcases covered host other apart with arrived | ⟨item, sent, most⟩
      · exact .inl (le_trans arrived (mono other))
      rw [found] at sent
      have cases : (other, some item) = (taker, some theirs) ∨
          (other, some item) ∈ front ++ behind := by
        rcases List.mem_append.mp sent with left | right
        · exact .inr (List.mem_append_left _ left)
        rcases List.mem_cons.mp right with now | later
        · exact .inl now
        · exact .inr (List.mem_append_right _ later)
      rcases cases with now | waiting
      · cases now
        refine .inl (le_trans most ?_)
        simp only [Function.update_self, version_newer]
        exact le_max_right _ _
      · exact .inr ⟨item, List.mem_append_left _ waiting, most⟩
  | @acknowledge front behind taker found =>
      rcases covered host other apart with arrived | ⟨item, sent, most⟩
      · exact .inl arrived
      rw [found] at sent
      refine .inr ⟨item, ?_, most⟩
      rcases List.mem_append.mp sent with left | right
      · exact List.mem_append_left _ left
      rcases List.mem_cons.mp right with now | later
      · cases now
      · exact List.mem_append_right _ later
  | @change changed replaced later allowed =>
      rcases covered host other apart with arrived | underway
      · exact .inl (le_trans arrived (mono other))
      · exact .inr underway

/-- A change to an unused version keeps the items apart. -/
theorem Step.distinct {before after : State Host Item Version}
    (step : Step version reached changes before after)
    (fresh : ∀ host item, changes before host item → ∀ other, before.Has other →
      version item = version other → item = other)
    (distinct : Distinct version before) : Distinct version after := by
  intro left right hasLeft hasRight equal
  rcases step.has with same | ⟨host, added, changed, from_before⟩
  · exact distinct left right (same left hasLeft) (same right hasRight) equal
  rcases from_before left hasLeft with left' | rfl
  · rcases from_before right hasRight with right' | rfl
    · exact distinct left right left' right' equal
    · exact (fresh host right changed left left' equal.symm).symm
  · rcases from_before right hasRight with right' | rfl
    · exact fresh host left changed right right' equal
    · rfl

/-- Where nothing is under way and every host has announced what it holds, all hosts hold
the same item. -/
theorem agreement {state : State Host Item Version} (covered : Covered version state)
    (distinct : Distinct version state) (silent : state.messages = [])
    (announced : ∀ host, state.told host = version (state.held host)) (host other : Host) :
    state.held host = state.held other := by
  have most : ∀ host other, version (state.held host) ≤ version (state.held other) := by
    intro host other
    by_cases same : other = host
    · rw [same]
    rcases covered host other same with arrived | ⟨item, sent, _⟩
    · rw [← announced host]
      exact arrived
    · rw [silent] at sent
      cases sent
  exact distinct _ _ (state.has_held host) (state.has_held other)
    (le_antisymm (most host other) (most other host))

end Gossip

end PicoApConfigure.Gossip
