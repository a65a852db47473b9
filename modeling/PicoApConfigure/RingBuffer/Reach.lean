import PicoApConfigure.RingBuffer.Calls

/-!
# Reachable rings

Every call leaves a formed ring behind.  As long as the index counter has room the
ring also stays in order, whatever calls are made.
-/

namespace PicoApConfigure.RingBuffer

open Nor

/-- `first` is the device after an erased ring has been opened. -/
structure Started (ring : Geometry) (first : Device) : Prop where
  opened : ∃ before event, RingBlank before.memory ring ∧ event.call.isOpening = true ∧
    Step ring before event first

/-- The control block is on the ring, and the flash carries a formed one. -/
structure Formed (ring : Geometry) (device : Device) (cells : Nat → Option Sector) :
    Prop where
  on : OnRing device.rb ring
  holds : RingHolds device.memory ring cells
  filled : Filled ring cells

/-- The same for a ring in order. -/
structure InOrder (ring : Geometry) (device : Device) (cells : Nat → Option Sector)
    (start : Nat) (log : List Sector) : Prop where
  on : OnRing device.rb ring
  holds : RingHolds device.memory ring cells
  ordered : Ordered ring cells start log

/-- The index counter and every index in the ring are below `2 ^ 24 - 2`. -/
def IndexRoom (ring : Geometry) (device : Device) : Prop :=
  device.rb.sectorIndex < rbIndexMask - 1 ∧ ∀ k < ring.sectors,
    sectorStatus device.memory (ring.sectorAddr k) = .ok →
      (sectorWord device.memory (ring.sectorAddr k)).getIndex < rbIndexMask - 1

/-- The call is an append. -/
def Call.isAppend : Call → Bool
  | .append .. => true
  | _ => false

/-- A step that appends only while the index counter has room. -/
def CountedStep (ring : Geometry) (before : Device) (event : Event) (after : Device) : Prop :=
  Step ring before event after ∧ (event.call.isAppend = true → IndexRoom ring before)

section Reach

variable {ring : Geometry} {cells changed : Nat → Option Sector} {start : Nat}
  {log : List Sector} {first device before after : Device} {event : Event}
  {events : List Event}

theorem InOrder.formed (inOrder : InOrder ring device cells start log) :
    Formed ring device cells := ⟨inOrder.on, inOrder.holds, inOrder.ordered.filled⟩

/-! ## Formed rings -/

theorem filled_blank (ring : Geometry) : Filled ring fun _ => none := by
  intro _ _ _ impossible
  cases impossible

theorem Formed.step (formed : Formed ring before cells) (step : Step ring before event after) :
    ∃ changed, Effect ring cells before.rb.sectorIndex event changed ∧
      Formed ring after changed := by
  obtain ⟨changed, effect, holds, on⟩ := step.effect (fun _ => formed.on) formed.holds
    formed.filled
  exact ⟨changed, effect, on, holds, effect.filled formed.filled⟩

/-- Opening an erased ring leaves it erased. -/
theorem Started.blank (started : Started ring first) :
    OnRing first.rb ring ∧ RingBlank first.memory ring := by
  obtain ⟨before, event, blank, opening, step⟩ := started.opened
  obtain ⟨changed, effect, holds, on⟩ := step.effect
    (fun other => by rw [opening] at other; cases other) blank (filled_blank ring)
  cases effect with
  | kept => exact ⟨on, holds⟩
  | erased => exact ⟨on, holds⟩
  | rejected => cases opening
  | appended => cases opening
  | smudged => cases opening

theorem Started.formed (started : Started ring first) :
    Formed ring first fun _ => none :=
  ⟨started.blank.1, started.blank.2, filled_blank ring⟩

/-- Every reachable ring is formed. -/
theorem Formed.run (formed : Formed ring first cells)
    (run : Run (Step ring) first events device) : ∃ cells, Formed ring device cells :=
  run.invariant (fun _ device => ∃ cells, Formed ring device cells) ⟨cells, formed⟩
    fun _ _ _ _ _ ⟨_, formed⟩ step =>
      have ⟨changed, _, formed'⟩ := formed.step step
      ⟨changed, formed'⟩

/-! ## Rings in order -/

theorem ordered_blank (ring : Geometry) : Ordered ring (fun _ => none) 0 [] where
  start_lt := ring.sectors_pos
  length_le := Nat.zero_le _
  cell := by simp
  ascending := List.Pairwise.nil
  bounded := by simp
  closed := by simp
  nonempty := by simp
  blank := by simp

theorem Started.inOrder (started : Started ring first) :
    InOrder ring first (fun _ => none) 0 [] :=
  ⟨started.blank.1, started.blank.2, ordered_blank ring⟩

theorem IndexRoom.small (room : IndexRoom ring device)
    (holds : RingHolds device.memory ring cells) :
    topOf ring cells device.rb.sectorIndex + 1 < rbIndexMask := by
  obtain ⟨cached, stored⟩ := room
  simp only [rbIndexMask] at cached stored ⊢
  have bound : topOf ring cells device.rb.sectorIndex ≤ 16777213 := by
    refine topIndex_le (by omega) fun k member index found => ?_
    obtain ⟨sector, cell, rfl⟩ : ∃ sector, cells k = some sector ∧ sector.index = index := by
      simpa [indexOf] using found
    rw [List.mem_reverse, List.mem_range] at member
    have carries := holds.carries
    have below := stored k member (carries.sectorStatus_some member cell)
    rw [carries.sectorWord_some member cell] at below
    omega
  omega

/-- Changing a sector without changing its index or its length. -/
theorem Ordered.replace {older newer : List Sector} {sector : Sector} (replaced : Sector)
    (ordered : Ordered ring cells start (older ++ sector :: newer))
    (index : replaced.index = sector.index) (full : replaced.isFull = sector.isFull)
    (nonempty : replaced.frags ≠ []) :
    Ordered ring (setCell cells (ring.ahead start older.length) (some replaced)) start
      (older ++ replaced :: newer) := by
  have length := ordered.length_le
  simp only [List.length_append, List.length_cons] at length
  have entry : ∀ distance, distance ≠ older.length →
      (older ++ replaced :: newer)[distance]? = (older ++ sector :: newer)[distance]? := by
    intro distance elsewhere
    rcases Nat.lt_or_gt_of_ne elsewhere with before | behind
    · rw [List.getElem?_append_left before, List.getElem?_append_left before]
    · obtain ⟨rest, rfl⟩ := Nat.exists_eq_add_of_lt behind
      rw [List.getElem?_append_right (by omega), List.getElem?_append_right (by omega),
        show older.length + rest + 1 - older.length = rest + 1 by omega,
        List.getElem?_cons_succ, List.getElem?_cons_succ]
  refine ⟨ordered.start_lt, by simpa using length, fun distance bound => ?_, ?_, ?_, ?_, ?_,
    by simp⟩
  · by_cases here : distance = older.length
    · subst here
      rw [setCell_self, List.getElem?_append_right (Nat.le_refl _), Nat.sub_self]
      rfl
    · rw [setCell_of_ne _ _ fun equal => here (ring.ahead_inj bound (by omega) equal),
        ordered.cell distance bound, entry distance here]
  · have ascending := ordered.ascending
    simp only [List.pairwise_append, List.pairwise_cons, List.mem_cons] at ascending ⊢
    refine ⟨ascending.1, ⟨?_, ascending.2.1.2⟩, ?_⟩
    · intro other member
      rw [index]
      exact ascending.2.1.1 other member
    · rintro other member last (rfl | later)
      · rw [index]
        exact ascending.2.2 other member sector (.inl rfl)
      · exact ascending.2.2 other member last (.inr later)
  · intro other member
    rcases List.mem_append.mp member with old | rest
    · exact ordered.bounded other (by simp [old])
    · rcases List.mem_cons.mp rest with rfl | new
      · rw [index]
        exact ordered.bounded sector (by simp)
      · exact ordered.bounded other (by simp [new])
  · have closed := ordered.closed
    cases newer with
    | nil => rwa [List.dropLast_concat] at closed ⊢
    | cons second newer =>
        rw [List.dropLast_append_cons, List.dropLast_cons_cons] at closed ⊢
        intro other member
        rcases List.mem_append.mp member with old | rest
        · exact closed other (by simp [old])
        · rcases List.mem_cons.mp rest with rfl | new
          · rw [full]
            exact closed sector (by simp)
          · exact closed other (by simp [new])
  · intro other member
    rcases List.mem_append.mp member with old | rest
    · exact ordered.nonempty other (by simp [old])
    · rcases List.mem_cons.mp rest with rfl | new
      · exact nonempty
      · exact ordered.nonempty other (by simp [new])

/-- Smudging a fragment keeps the order. -/
theorem Ordered.smudges (ordered : Ordered ring cells start log)
    (smudges : Smudges ring cells changed) :
    ∃ (older : List Sector) (sector : Sector) (newer : List Sector) (before : List Fragment)
      (fragment : Fragment) (after : List Fragment)
      (frags : sector.frags = before ++ fragment :: after), log = older ++ sector :: newer ∧
        Ordered ring changed start
          (older ++ sector.smudge before fragment after frags :: newer) := by
  cases smudges with
  | @mk k sector before after fragment inRing cell frags =>
      obtain ⟨distance, bound, rfl, entry⟩ := ordered.mem_of_cell inRing cell
      have split : log = log.take distance ++ sector :: log.drop (distance + 1) := by
        have equal := (List.getElem?_eq_some_iff.mp entry).2
        conv =>
          lhs
          rw [← List.take_append_drop distance log, List.drop_eq_getElem_cons bound, equal]
      have place : (log.take distance).length = distance := by
        rw [List.length_take]
        omega
      refine ⟨_, sector, _, before, fragment, after, frags, split, ?_⟩
      rw [split] at ordered
      have replaced := ordered.replace
        (sector.smudge before fragment after frags) rfl
        (by rw [Sector.isFull, Sector.isFull, Sector.smudge_used])
        (by simp [Sector.smudge])
      rwa [place] at replaced

theorem Ordered.effect (ordered : Ordered ring cells start log) {index : Nat}
    (small : event.call.isAppend = true → topOf ring cells index + 1 < rbIndexMask)
    (effect : Effect ring cells index event changed) :
    ∃ start' log', Ordered ring changed start' log' := by
  cases effect with
  | kept => exact ⟨_, _, ordered⟩
  | erased => exact ⟨_, _, ordered_blank ring⟩
  | rejected => exact ⟨_, _, ordered⟩
  | appended _ appends =>
      obtain ⟨_, _, start', log', _, ordered'⟩ := ordered.appends (small rfl) appends
      exact ⟨start', log', ordered'⟩
  | smudged smudges =>
      obtain ⟨_, _, _, _, _, _, _, _, ordered'⟩ := ordered.smudges smudges
      exact ⟨_, _, ordered'⟩

theorem InOrder.step (inOrder : InOrder ring before cells start log)
    (step : CountedStep ring before event after) :
    ∃ changed start' log', Effect ring cells before.rb.sectorIndex event changed ∧
      InOrder ring after changed start' log' := by
  obtain ⟨changed, effect, formed⟩ := inOrder.formed.step step.1
  obtain ⟨start', log', ordered⟩ := inOrder.ordered.effect
    (fun isAppend => (step.2 isAppend).small inOrder.holds) effect
  exact ⟨changed, start', log', effect, formed.on, formed.holds, ordered⟩

/-- Every ring that is reached with room in the index counter is in order. -/
theorem InOrder.run (inOrder : InOrder ring first cells start log)
    (run : Run (CountedStep ring) first events device) :
    ∃ cells start log, InOrder ring device cells start log :=
  run.invariant
    (fun _ device => ∃ cells start log, InOrder ring device cells start log)
    ⟨cells, start, log, inOrder⟩ fun _ _ _ _ _ ⟨_, _, _, inOrder⟩ step =>
      have ⟨changed, start', log', _, inOrder'⟩ := inOrder.step step
      ⟨changed, start', log', inOrder'⟩

/-! ## Steps that exist -/

/-- An append on a ring in order returns, with an outcome on the log. -/
theorem InOrder.append_step (inOrder : InOrder ring before cells start log)
    (room : IndexRoom ring before) (request : Request) (fits : request.Fits ring)
    (pagebuffer : Memory) (eraseIfFull : Bool) :
    ∃ writes status after changed start' log',
      CountedStep ring before
        ⟨.append request.id request.data request.size pagebuffer eraseIfFull, status.code,
          writes⟩ after ∧
      LogAppends ring request eraseIfFull (topOf ring cells before.rb.sectorIndex + 1) start log
        writes status start' log' ∧
      InOrder ring after changed start' log' ∧ after.rb.next = before.rb.next ∧
      after.rb.sectorIndex ≤ topOf ring cells before.rb.sectorIndex + 1 := by
  obtain ⟨writes, status, changed, index', appends⟩ :=
    Appends.exists request eraseIfFull cells before.rb.sectorIndex
  obtain ⟨rb', on', next, index, completes⟩ := rbAppend_completes _ inOrder.on inOrder.holds
    inOrder.ordered.filled fits appends pagebuffer
  obtain ⟨_, high, start', log', outcome, ordered'⟩ :=
    inOrder.ordered.appends (room.small inOrder.holds) appends
  have returns := (completes.map fun result => (result.1.code, result.2)).mono
    fun _ _ => trivial
  refine ⟨writes, status, ⟨rb', replay writes before.memory⟩, changed, start', log',
    ⟨⟨trivial, returns, rfl⟩, fun _ => room⟩, outcome,
    ⟨on', appends.holds inOrder.holds, ordered'⟩, next, ?_⟩
  rw [index]
  exact high

theorem InOrder.indexRoom (inOrder : InOrder ring device cells start log)
    (cached : device.rb.sectorIndex < rbIndexMask - 1)
    (stored : ∀ sector ∈ log, sector.index < rbIndexMask - 1) : IndexRoom ring device := by
  refine ⟨cached, fun k inRing good => ?_⟩
  have carries := inOrder.holds.carries
  cases cell : cells k with
  | none =>
      rw [carries.sectorStatus_none inRing cell] at good
      cases good
  | some sector =>
      obtain ⟨distance, _, _, entry⟩ := inOrder.ordered.mem_of_cell inRing cell
      rw [carries.sectorWord_some inRing cell]
      exact stored sector (List.mem_of_getElem? entry)

/-- A ring in order in which no index has come past `top`. -/
structure Counted (ring : Geometry) (device : Device) (cells : Nat → Option Sector)
    (start : Nat) (log : List Sector) (top : Nat) : Prop where
  inOrder : InOrder ring device cells start log
  cached : device.rb.sectorIndex ≤ top
  stored : ∀ sector ∈ log, sector.index ≤ top

theorem Grows.index_le {request : Request} {index top : Nat} {writes : List Op}
    {log' : List Sector} (grows : Grows ring start request index log writes log')
    (new : index ≤ top) (stored : ∀ sector ∈ log, sector.index ≤ top) :
    ∀ sector ∈ log', sector.index ≤ top := by
  have single : ∀ fragment, (Sector.single index fragment).index ≤ top := fun _ =>
    Nat.le_trans (Nat.mod_le _ _) new
  cases grows with
  | fresh =>
      intro sector member
      rcases List.mem_append.mp member with old | last
      · exact stored sector old
      · rw [List.mem_singleton] at last
        subst last
        exact single _
  | @inside older newest =>
      intro sector member
      rcases List.mem_append.mp member with old | last
      · exact stored sector (by simp [old])
      · rw [List.mem_singleton] at last
        subst last
        exact stored newest (by simp)
  | @split older newest | @exact older newest =>
      intro sector member
      simp only [List.mem_append, List.mem_cons, List.not_mem_nil, or_false] at member
      rcases member with old | rfl | rfl
      · exact stored sector (by simp [old])
      · exact stored newest (by simp)
      · exact single _

/-- The indices stay below the number of the sectors. -/
theorem Grows.index_le_length {request : Request} {index : Nat} {writes : List Op}
    {log' : List Sector} (grows : Grows ring start request index log writes log')
    (new : index ≤ log.length + 1) (stored : ∀ sector ∈ log, sector.index ≤ log.length) :
    ∀ sector ∈ log', sector.index ≤ log'.length := by
  have all := grows.index_le new fun sector member => Nat.le_succ_of_le (stored sector member)
  cases grows with
  | fresh => simpa only [List.length_append, List.length_singleton] using all
  | @inside older newest =>
      rw [List.length_append, List.length_singleton] at stored ⊢
      intro sector member
      rcases List.mem_append.mp member with before | last
      · exact stored sector (by simp [before])
      · rw [List.mem_singleton.mp last]
        exact stored newest (by simp)
  | split | exact =>
      simpa only [List.length_append, List.length_cons, List.length_nil, Nat.zero_add] using all

theorem LogAppends.index_le {request : Request} {eraseIfFull : Bool} {index top start' : Nat}
    {writes : List Op} {status : RbError} {log' : List Sector}
    (outcome : LogAppends ring request eraseIfFull index start log writes status start' log')
    (new : index ≤ top) (stored : ∀ sector ∈ log, sector.index ≤ top) :
    ∀ sector ∈ log', sector.index ≤ top := by
  cases outcome with
  | refused => exact stored
  | rejected => exact stored
  | dropped _ _ _ split =>
      subst split
      exact fun sector member => stored sector (by simp [member])
  | grown grows => exact grows.index_le new stored
  | replaced _ _ split grows =>
      subst split
      exact grows.index_le new fun sector member => stored sector (by simp [member])

theorem Counted.append {top : Nat} (counted : Counted ring before cells start log top)
    (small : top < 1000) {request : Request} (fits : request.Fits ring)
    (pagebuffer : Memory) (eraseIfFull : Bool) :
    ∃ index writes status after changed start' log', 0 < index ∧ index ≤ top + 1 ∧
      CountedStep ring before
        ⟨.append request.id request.data request.size pagebuffer eraseIfFull, status.code,
          writes⟩ after ∧
      LogAppends ring request eraseIfFull index start log writes status start' log' ∧
      Counted ring after changed start' log' (top + 1) ∧ after.rb.next = before.rb.next := by
  obtain ⟨inOrder, cached, stored⟩ := counted
  have limit : rbIndexMask - 1 = 16777214 := rfl
  have room := inOrder.indexRoom (by omega) fun sector member => by
    have := stored sector member
    omega
  have below := inOrder.ordered.top_le cached stored
  obtain ⟨writes, status, after, changed, start', log', step, outcome, inOrder', next, index⟩ :=
    inOrder.append_step room _ fits pagebuffer eraseIfFull
  refine ⟨_, writes, status, after, changed, start', log', Nat.succ_pos _, by omega, step,
    outcome, ⟨inOrder', by omega, ?_⟩, next⟩
  exact outcome.index_le (by omega) fun sector member => by
    have := stored sector member
    omega

/-- Appending to a ring without a sector that has room. -/
theorem LogAppends.of_closed {request : Request} {eraseIfFull : Bool} {index start' : Nat}
    {log' : List Sector} {writes : List Op} {status : RbError}
    (outcome : LogAppends ring request eraseIfFull index start log writes status start' log')
    (closed : ∀ sector ∈ log, sector.isFull = true) (short : request.size ≤ 4088) :
    (log.length < ring.sectors ∧ status = .ok ∧ start' = start ∧
        log' = log ++ [Sector.single index (request.whole short)]) ∨
      (log.length = ring.sectors ∧ eraseIfFull = true ∧ status = .ok ∧
        start' = ring.ahead start 1 ∧
        log' = log.tail ++ [Sector.single index (request.whole short)]) ∨
      (log.length = ring.sectors ∧ eraseIfFull = false) := by
  have grows : ∀ {from' : Nat} {old new : List Sector} {ops : List Op},
      Grows ring from' request index old ops new → (∀ sector ∈ old, sector.isFull = true) →
      old.length < ring.sectors ∧
        new = old ++ [Sector.single index (request.whole short)] := by
    intro from' old new ops grows full
    have room : ∀ {older : List Sector} {newest : Sector}, old = older ++ [newest] →
        4091 < newest.used := by
      rintro older newest rfl
      exact (Sector.isFull_iff newest).mp (full newest (by simp))
    have positive := request.size_pos
    cases grows with
    | fresh _ free _ => exact ⟨free, rfl⟩
    | inside _ free _ => have := room rfl; omega
    | split _ _ _ _ filled firstPos _ _ _ _ => have := room rfl; omega
    | exact _ filled _ _ => have := room rfl; omega
  cases outcome with
  | refused _ keep used => exact .inr (.inr ⟨used, keep⟩)
  | rejected long => omega
  | dropped long _ _ _ => omega
  | grown growth =>
      obtain ⟨free, rfl⟩ := grows growth closed
      exact .inl ⟨free, rfl, rfl, rfl⟩
  | replaced erases used split growth =>
      subst split
      obtain ⟨_, rfl⟩ := grows growth fun sector member => closed sector (by simp [member])
      exact .inr (.inl ⟨used, erases, rfl, rfl, rfl⟩)

/-- An append to a ring whose newest sector has room for the record. -/
theorem LogAppends.of_inside {request : Request} {eraseIfFull : Bool}
    {index start' : Nat} {older log' : List Sector} {newest : Sector} {writes : List Op}
    {status : RbError}
    (outcome : LogAppends ring request eraseIfFull index start (older ++ [newest]) writes status
      start' log') (notFull : newest.isFull = false) (short : request.size ≤ 4088)
    (room : request.size + 4 < 4096 - newest.used) (free : older.length + 1 < ring.sectors) :
    status = .ok ∧ start' = start ∧
      ∃ fits : newest.used + (request.whole short).size ≤ 4096,
        log' = older ++ [newest.push (request.whole short) fits] := by
  have length : (older ++ [newest]).length = older.length + 1 := by simp
  cases outcome with
  | refused _ _ used => omega
  | rejected long => omega
  | dropped long _ _ _ => omega
  | replaced _ used _ _ => omega
  | grown grows =>
      generalize equal : older ++ [newest] = log at grows
      cases grows with
      | fresh _ _ closed =>
          subst equal
          rw [closed newest (by simp)] at notFull
          cases notFull
      | inside _ _ fits =>
          obtain ⟨rfl, rfl⟩ := List.append_singleton_inj.mp equal
          exact ⟨rfl, rfl, fits, rfl⟩
      | split _ spills _ _ _ _ _ _ _ _ =>
          obtain ⟨rfl, rfl⟩ := List.append_singleton_inj.mp equal
          omega
      | exact _ filled _ _ =>
          obtain ⟨rfl, rfl⟩ := List.append_singleton_inj.mp equal
          omega

/-- An append to a ring whose newest sector has room, but not for the whole record, and with an
erased sector behind it. -/
theorem LogAppends.of_split {request : Request} {eraseIfFull : Bool}
    {index start' : Nat} {older log' : List Sector} {newest : Sector} {writes : List Op}
    {status : RbError}
    (outcome : LogAppends ring request eraseIfFull index start (older ++ [newest]) writes status
      start' log') (notFull : newest.isFull = false) (short : request.size ≤ 4088)
    (spills : 4096 - newest.used < request.size + 4) (free : older.length + 1 < ring.sectors) :
    status = .ok ∧ start' = start ∧
      ∃ (first second : Nat) (firstPos : 0 < first) (secondPos : 0 < second)
        (firstShort : first ≤ 4088) (secondShort : second ≤ 4088)
        (fits : newest.used + (request.head first firstPos firstShort).size ≤ 4096),
        first + second = request.size ∧ newest.used + 4 + first = 4096 ∧
        log' = older ++ [newest.push (request.head first firstPos firstShort) fits,
          Sector.single index (request.tail second secondPos secondShort)] := by
  have length : (older ++ [newest]).length = older.length + 1 := by simp
  cases outcome with
  | refused _ _ used => omega
  | rejected long => omega
  | dropped long _ _ _ => omega
  | replaced _ used _ _ => omega
  | grown grows =>
      generalize equal : older ++ [newest] = log at grows
      cases grows with
      | fresh _ _ closed =>
          subst equal
          rw [closed newest (by simp)] at notFull
          cases notFull
      | inside _ room _ =>
          obtain ⟨rfl, rfl⟩ := List.append_singleton_inj.mp equal
          omega
      | split _ _ _ sizes filled firstPos secondPos firstShort secondShort fits =>
          obtain ⟨rfl, rfl⟩ := List.append_singleton_inj.mp equal
          exact ⟨rfl, rfl, _, _, firstPos, secondPos, firstShort, secondShort, fits, sizes, filled,
            rfl⟩
      | exact _ filled _ _ =>
          obtain ⟨rfl, rfl⟩ := List.append_singleton_inj.mp equal
          omega

/-! ## An erased flash -/

/-- An erased flash whose ring has been opened. -/
def Device.blank (ring : Geometry) : Device := ⟨opened .zeroed ring, fun _ => blankByte⟩

theorem ringBlank_const (ring : Geometry) : RingBlank (fun _ => blankByte) ring :=
  fun _ _ => holds_blanks_iff.mpr fun _ _ _ => rfl

/-- Opening an erased flash with `CREATE_INIT_ALWAYS`. -/
theorem opens_blank {ring : Geometry} (bound : ring.base < xipBase) :
    Step ring (Device.blank ring) ⟨.create .zeroed ring.base ring.sectors .createInitAlways, 0,
      [.erase ring.base (4096 * ring.sectors)]⟩ (Device.blank ring) := by
  have created := (@rbCreate_always_exec _ (fun _ => blankByte) _ _ (Opens.self bound)
    RbT.zeroed).completes.map fun result => (result.1.code, result.2)
  refine ⟨Opens.self bound, created.mono fun _ _ => trivial, ?_⟩
  funext query
  simp [Device.blank, Op.apply, eraseRange]

theorem started_blank {ring : Geometry} (bound : ring.base < xipBase) :
    Started ring (Device.blank ring) := by
  have opens := opens_blank bound
  have opening : (Call.create .zeroed ring.base ring.sectors .createInitAlways).isOpening = true :=
    rfl
  exact ⟨Device.blank ring, ⟨.create .zeroed ring.base ring.sectors .createInitAlways, 0,
    [.erase ring.base (4096 * ring.sectors)]⟩, ringBlank_const ring, opening, opens⟩

/-- An erased sector carries no content. -/
theorem RingHolds.cell_none {memory : Memory} (holds : RingHolds memory ring cells) {k : Nat}
    (inRing : k < ring.sectors) (blank : Holds memory (ring.sectorAddr k) (blanks 4096)) :
    cells k = none := by
  cases cell : cells k with
  | none => rfl
  | some sector =>
      have written := sectorHeaderFor_ne_blank
        (holds_sectorHeader (holds_content holds inRing cell))
      exact absurd (holds_blanks_iff.mp blank _ (Nat.le_refl _) (by omega)) written

/-- A ring with an erased sector is not all in use. -/
theorem Ordered.free_of_blank {memory : Memory} {log : List Sector}
    (ordered : Ordered ring cells start log) (holds : RingHolds memory ring cells) {k : Nat}
    (inRing : k < ring.sectors) (blank : Holds memory (ring.sectorAddr k) (blanks 4096)) :
    log.length < ring.sectors := by
  obtain ⟨d, bound, rfl⟩ := ring.exists_ahead ordered.start_lt inRing
  have unused := (ordered.cell d bound).symm.trans (holds.cell_none inRing blank)
  have := List.getElem?_eq_none_iff.mp unused
  omega

variable (ring) in
theorem counted_blank (bound : ring.base < xipBase) :
    Counted ring (Device.blank ring) (fun _ => none) 0 [] 0 :=
  ⟨(started_blank bound).inOrder, Nat.le_refl _, by simp⟩

end Reach

/-! ## A small ring -/

/-- Two sectors of the persistent region. -/
def pairRing : Geometry where
  base := 0x1FC000
  sectors := 2
  sectors_pos := by decide
  sectors_le := by decide

/-- A record of zeros. -/
def zeroRequest (size : Nat) (positive : 0 < size) : Request where
  id := 1
  data := fun _ => 0
  size := size
  id_ne := by decide
  size_pos := positive

theorem single_zeroRequest_used (index : Nat) (size : Nat) (positive : 0 < size)
    (short : (zeroRequest size positive).size ≤ 4088) :
    (Sector.single index ((zeroRequest size positive).whole short)).used = 8 + size := by
  simp only [Sector.used, Sector.single, fragsSize_cons, fragsSize_nil, Fragment.size,
    Request.whole, Request.piece, slice_length, zeroRequest]
  omega

/-- A record that takes a whole sector. -/
def fillRequest : Request := zeroRequest 4088 (by decide)

theorem single_whole_full (index : Nat) {request : Request} (whole : request.size = 4088) :
    (Sector.single index (request.whole (Nat.le_of_eq whole))).isFull = true := by
  rw [Sector.isFull_iff]
  simp only [Sector.used, Sector.single, fragsSize_cons, fragsSize_nil, Fragment.size,
    Request.whole, Request.piece, slice_length]
  omega

section Fill

variable {ring : Geometry} {before : Device} {cells : Nat → Option Sector} {start : Nat}
  {log : List Sector}

/-- Appending a record that takes a whole sector to a ring of full sectors. -/
theorem Counted.fills {top : Nat} (counted : Counted ring before cells start log top)
    (small : top < 1000) (closed : ∀ sector ∈ log, sector.isFull = true) {request : Request}
    (whole : request.size = 4088) (eraseIfFull : Bool)
    (room : log.length < ring.sectors ∨ eraseIfFull = true) :
    ∃ writes after changed start' log',
      CountedStep ring before
        ⟨.append request.id request.data request.size (fun _ => 0) eraseIfFull, 0, writes⟩ after ∧
      Counted ring after changed start' log' (top + 1) ∧
      (∀ sector ∈ log', sector.isFull = true) ∧
      ∃ index, 0 < (Sector.single index (request.whole (Nat.le_of_eq whole))).index ∧
        after.rb.next = before.rb.next ∧
        ((log.length < ring.sectors ∧ start' = start ∧
            log' = log ++ [Sector.single index (request.whole (Nat.le_of_eq whole))]) ∨
          (log.length = ring.sectors ∧ start' = ring.ahead start 1 ∧
            log' = log.tail ++ [Sector.single index (request.whole (Nat.le_of_eq whole))])) := by
  obtain ⟨index, writes, status, after, changed, start', log', positive, low, step, outcome,
    counted', next⟩ := counted.append small (request.fits_of_short ring (Nat.le_of_eq whole))
      (fun _ => 0) eraseIfFull
  have newIndex : 0 < (Sector.single index (request.whole (Nat.le_of_eq whole))).index := by
    simp only [Sector.single]
    omega
  have full : ∀ {old : List Sector}, (∀ sector ∈ old, sector ∈ log) →
      ∀ sector ∈ old ++ [Sector.single index (request.whole (Nat.le_of_eq whole))],
        sector.isFull = true := by
    intro old older sector member
    rcases List.mem_append.mp member with before | new
    · exact closed sector (older sector before)
    · rw [List.mem_singleton] at new
      subst new
      exact single_whole_full index whole
  rcases outcome.of_closed closed (Nat.le_of_eq whole) with
    ⟨free, rfl, rfl, rfl⟩ | ⟨used, _, rfl, rfl, rfl⟩ | ⟨used, keep⟩
  · exact ⟨writes, after, changed, _, _, step, counted', full fun _ member => member, _, newIndex,
      next, .inl ⟨free, rfl, rfl⟩⟩
  · exact ⟨writes, after, changed, _, _, step, counted', full fun _ => List.mem_of_mem_tail, _,
      newIndex, next, .inr ⟨used, rfl, rfl⟩⟩
  · rcases room with free | erases
    · omega
    · rw [keep] at erases
      cases erases

theorem Counted.fill {top : Nat} (counted : Counted ring before cells start log top)
    (small : top < 1000) (closed : ∀ sector ∈ log, sector.isFull = true) (eraseIfFull : Bool)
    (room : log.length < ring.sectors ∨ eraseIfFull = true) :
    ∃ writes after changed start' log',
      CountedStep ring before
        ⟨.append 1 (fun _ => 0) 4088 (fun _ => 0) eraseIfFull, 0, writes⟩ after ∧
      Counted ring after changed start' log' (top + 1) ∧
      (∀ sector ∈ log', sector.isFull = true) ∧
      ∃ index, 0 < (Sector.single index (fillRequest.whole (Nat.le_refl _))).index ∧
        after.rb.next = before.rb.next ∧
        ((log.length < ring.sectors ∧ start' = start ∧
            log' = log ++ [Sector.single index (fillRequest.whole (Nat.le_refl _))]) ∨
          (log.length = ring.sectors ∧ start' = ring.ahead start 1 ∧
            log' = log.tail ++ [Sector.single index (fillRequest.whole (Nat.le_refl _))])) :=
  @Counted.fills ring before cells start log top counted small closed fillRequest rfl eraseIfFull
    room

end Fill

end PicoApConfigure.RingBuffer
