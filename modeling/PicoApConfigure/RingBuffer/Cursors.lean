import PicoApConfigure.RingBuffer.Reach

/-!
# The cursor of a control block in use

Reads, searches, deletions and appends on one control block leave its cursor at a
header position, unless an append erases the very sector the cursor is in.
-/

namespace PicoApConfigure.RingBuffer

open Nor

/-! ## Rings that grow -/

/-- Every sector of `cells` is still there in `changed`, with its fragments in front. -/
def Extends (cells changed : Nat → Option Sector) : Prop :=
  ∀ k sector, cells k = some sector →
    ∃ sector', changed k = some sector' ∧ ∃ added, sector'.frags = sector.frags ++ added

section Extends

variable {ring : Geometry} {cells changed : Nat → Option Sector} {k next final home : Nat}
  {skip : Fragment → Prop}

theorem Extends.refl (cells : Nat → Option Sector) : Extends cells cells :=
  fun _ sector cell => ⟨sector, cell, [], (List.append_nil _).symm⟩

theorem Extends.trans {further : Nat → Option Sector} (first : Extends cells changed)
    (second : Extends changed further) : Extends cells further := by
  intro k sector cell
  obtain ⟨sector', cell', added, frags⟩ := first k sector cell
  obtain ⟨sector'', cell'', added', frags'⟩ := second k sector' cell'
  exact ⟨sector'', cell'', added ++ added', by rw [frags', frags, List.append_assoc]⟩

theorem Extends.set {sector sector' : Sector} (cell : cells k = some sector)
    {added : List Fragment} (frags : sector'.frags = sector.frags ++ added) :
    Extends cells (setCell cells k (some sector')) := by
  intro other found cell'
  by_cases here : other = k
  · subst here
    rw [cell] at cell'
    cases cell'
    exact ⟨sector', setCell_self _ _ _, added, frags⟩
  · exact ⟨found, by rw [setCell_of_ne _ _ here]; exact cell', [], (List.append_nil _).symm⟩

theorem Extends.open (cell : cells k = none) (added : Option Sector) :
    Extends cells (setCell cells k added) := by
  intro other found cell'
  have elsewhere : other ≠ k := by
    rintro rfl
    rw [cell] at cell'
    cases cell'
  exact ⟨found, by rw [setCell_of_ne _ _ elsewhere]; exact cell', [], (List.append_nil _).symm⟩

/-- The fragments a walk passes are found again. -/
theorem Extends.fragment (extends' : Extends cells changed) {sector : Sector}
    {before after : List Fragment} {fragment : Fragment} (cell : cells k = some sector)
    (frags : sector.frags = before ++ fragment :: after) :
    ∃ sector' after', changed k = some sector' ∧
      sector'.frags = before ++ fragment :: after' := by
  obtain ⟨sector', cell', added, frags'⟩ := extends' k sector cell
  exact ⟨sector', after ++ added, cell', by rw [frags', frags]; simp⟩

theorem Extends.skips (extends' : Extends cells changed)
    (skips : Skips ring cells skip home next final) :
    Skips ring changed skip home next final := by
  induction skips with
  | refl => exact .refl _
  | step inRing cell frags stands skipped away _ ih =>
      obtain ⟨_, _, cell', frags'⟩ := extends'.fragment cell frags
      exact .step inRing cell' frags' stands skipped away ih

/-- Header positions stay header positions when fragments keep their sizes. -/
theorem Cursor.of_sizes (cursor : Cursor ring cells next)
    (same : ∀ sector, cells (next / 4096) = some sector → ∃ sector',
      changed (next / 4096) = some sector' ∧ ∃ added,
        sector'.frags.map Fragment.size = sector.frags.map Fragment.size ++ added) :
    Cursor ring changed next := by
  -- the offset behind a run of fragments is a header position of the changed sector
  have behind : ∀ {k : Nat} {sector : Sector} {sizes rest : List Nat}, k < ring.sectors →
      changed k = some sector → sector.frags.map Fragment.size = sizes ++ rest →
      4 + sizes.sum ≤ 4091 → ∀ next, StandsAt k (4 + sizes.sum) next →
      Cursor ring changed next := by
    intro k sector sizes rest inRing cell equal room next stands
    obtain ⟨before, after, frags, sizesEq, restEq⟩ := List.map_eq_append_iff.mp equal
    have size : sizes.sum = fragsSize before := by rw [← sizesEq, fragsSize]
    rw [size] at stands room
    cases after with
    | nil =>
        rw [List.append_nil] at frags
        have used : sector.used = 4 + fragsSize before := by rw [Sector.used, frags]
        exact .ended inRing cell (by rw [Sector.not_isFull_iff]; omega) (used ▸ stands)
    | cons fragment after => exact .fragment inRing cell frags stands
  have sectorOf : ∀ {k offset : Nat}, StandsAt k offset next → offset < 4096 →
      next / 4096 = k := by
    intro k offset stands inside
    rcases stands with rfl | ⟨_, rfl⟩ <;> omega
  cases cursor with
  | @erased k inRing _ => exact Cursor.start inRing
  | @fragment k _ sector before after fragment inRing cell frags stands =>
      have bound := fragment_offset frags
      have positive := fragment.size_pos
      rw [sectorOf stands (by omega)] at same
      obtain ⟨sector', cell', added, sizes⟩ := same sector cell
      rw [frags, List.map_append, List.append_assoc] at sizes
      exact behind inRing cell' sizes (by rw [fragsSize] at bound; omega) _ stands
  | @ended k _ sector inRing cell room stands =>
      rw [Sector.not_isFull_iff] at room
      rw [sectorOf stands (by omega)] at same
      obtain ⟨sector', cell', added, sizes⟩ := same sector cell
      exact behind inRing cell' sizes (by rw [Sector.used, fragsSize] at room; exact room) _
        stands

theorem Cursor.extends (cursor : Cursor ring cells next) (extends' : Extends cells changed) :
    Cursor ring changed next := by
  refine cursor.of_sizes fun sector cell => ?_
  obtain ⟨sector', cell', added, frags⟩ := extends' _ sector cell
  exact ⟨sector', cell', added.map Fragment.size, by rw [frags, List.map_append]⟩

theorem Cursor.smudges (cursor : Cursor ring cells next) (smudges : Smudges ring cells changed) :
    Cursor ring changed next := by
  cases smudges with
  | @mk k sector before after fragment inRing cell frags =>
      refine cursor.of_sizes fun found cell' => ?_
      by_cases here : next / 4096 = k
      · rw [here] at cell' ⊢
        rw [cell] at cell'
        cases cell'
        exact ⟨_, setCell_self _ _ _, [], by simp [Sector.smudge, frags]⟩
      · exact ⟨found, by rw [setCell_of_ne _ _ here]; exact cell', [], (List.append_nil _).symm⟩

end Extends

/-! ## What an append erases -/

/-- An append of `size` bytes finds no room: every sector is full, or the first one that is not
is too short for the record and the next one is in use. -/
def NoRoom (ring : Geometry) (cells : Nat → Option Sector) (size : Nat) : Prop :=
  AllFull ring cells ∨ ∃ k sector, Frontier ring cells (oldest ring cells) k ∧
    cells k = some sector ∧ size ≤ 4088 ∧ 4096 - sector.used ≤ size + 4 ∧
    cells (ring.succ k) ≠ none

/-- Making room for `size` bytes erases sector `k`: oldest sectors go until there is room. -/
inductive Evicts (ring : Geometry) (size : Nat) : (Nat → Option Sector) → Nat → Prop
  | oldest {cells : Nat → Option Sector} (noRoom : NoRoom ring cells size) :
      Evicts ring size cells (oldest ring cells)
  | later {cells : Nat → Option Sector} {k : Nat} (noRoom : NoRoom ring cells size)
      (more : Evicts ring size (setCell cells (RingBuffer.oldest ring cells) none) k) :
      Evicts ring size cells k

/-- The ring without the sectors that an append erases. -/
structure Survivors (ring : Geometry) (request : Request) (eraseIfFull : Bool)
    (cells survivors : Nat → Option Sector) : Prop where
  kept : ∀ k, survivors k = cells k ∨
    (survivors k = none ∧ eraseIfFull = true ∧ Evicts ring request.size cells k)

section Survivors

variable {ring : Geometry} {cells changed : Nat → Option Sector} {request : Request}
  {eraseIfFull : Bool} {index index' k : Nat} {writes : List Op} {status : RbError}

theorem Places.extends (places : Places ring cells k request index writes status changed
    index') : Extends cells changed := by
  cases places with
  | oversize => exact Extends.refl _
  | full => exact Extends.refl _
  | wrapped => exact Extends.refl _
  | fresh _ cell => exact Extends.open cell _
  | inside _ cell _ _ => exact Extends.set cell rfl
  | @split sector _ cell _ erased | @exact sector _ cell _ erased =>
      refine (Extends.set cell rfl).trans (Extends.open ?_ _)
      rw [setCell_of_ne]
      · exact erased
      · intro equal
        rw [equal, cell] at erased
        cases erased

theorem Places.noRoom (frontier : Frontier ring cells (oldest ring cells) k)
    (places : Places ring cells k request index writes status changed index')
    (refused : status = .wrappedSectorUsed ∨ status = .full) :
    NoRoom ring cells request.size := by
  cases places with
  | full short cell spills used =>
      exact .inr ⟨k, _, frontier, cell, short, Nat.le_of_lt spills, used⟩
  | wrapped short cell filled used =>
      exact .inr ⟨k, _, frontier, cell, short, by omega, used⟩
  | _ => simp at refused

/-- An append drops sectors and extends what is left. -/
theorem Appends.survivors (appends : Appends ring request eraseIfFull cells index writes status
    changed index') :
    ∃ survivors, Survivors ring request eraseIfFull cells survivors ∧
      Extends survivors changed := by
  induction appends with
  | placed _ places _ => exact ⟨_, ⟨fun _ => .inl rfl⟩, places.extends⟩
  | refused _ _ => exact ⟨_, ⟨fun _ => .inl rfl⟩, Extends.refl _⟩
  | @overwrite cells _ _ _ _ _ full erases places =>
      refine ⟨_, ⟨fun k => ?_⟩, places.extends⟩
      by_cases here : k = oldest ring cells
      · rw [here, setCell_self]
        exact .inr ⟨rfl, erases, .oldest (.inl full)⟩
      · exact .inl (setCell_of_ne _ _ here)
  | @retry cells _ _ _ _ _ _ _ _ frontier places noRoom erases _ ih =>
      obtain ⟨survivors, ⟨kept⟩, extends'⟩ := ih
      have stuck := places.noRoom frontier noRoom
      refine ⟨survivors, ⟨fun k => ?_⟩, extends'⟩
      rcases kept k with same | ⟨gone, _, evicts⟩
      · by_cases here : k = oldest ring cells
        · rw [here, setCell_self] at same
          rw [here]
          exact .inr ⟨same, erases, .oldest stuck⟩
        · rw [setCell_of_ne _ _ here] at same
          exact .inl same
      · exact .inr ⟨gone, erases, .later stuck evicts⟩

end Survivors

/-! ## The cursor after opening -/

section Opening

variable {ring : Geometry} {memory : Memory} {cells : Nat → Option Sector}
  {baseAddress numberOfSectors : Nat}

/-- After an opening call that succeeds the cursor is at a sector start. -/
def AtStart (ring : Geometry) (result : RbError × RbT) (_ : Memory) : Prop :=
  result.1 = .ok ∨ result.1 = .blankHdr → ∃ k < ring.sectors, result.2.next = 4096 * k

private theorem rbCreate_always_atStart (opens : Opens ring baseAddress numberOfSectors)
    (rb : RbT) (memory : Memory) :
    (rbCreate rb baseAddress numberOfSectors .createInitAlways).Ensures (fun _ _ => True)
      (AtStart ring) memory := by
  refine (rbCreate_always_exec opens rb).ensures.mono (fun _ _ _ => trivial) ?_
  rintro _ _ ⟨rfl, _⟩ _
  exact ⟨0, ring.sectors_pos, rfl⟩

theorem rbCreate_atStart (opens : Opens ring baseAddress numberOfSectors)
    (holds : RingHolds memory ring cells) (rb : RbT) (choice : InitChoice) :
    (rbCreate rb baseAddress numberOfSectors choice).Ensures (fun _ _ => True)
      (AtStart ring) memory := by
  by_cases always : choice = .createInitAlways
  · subst always
    exact rbCreate_always_atStart opens rb memory
  rw [rbCreate_eq opens, if_neg always]
  refine ((rbCheckSectorRing_quiet (opened rb ring)) memory).mono (fun _ _ _ => trivial)
    (fun _ _ kept => kept) |>.bind ?_
  rintro ⟨status, checked⟩ final ⟨same, place, known⟩
  subst same
  dsimp only
  split
  · have found := findOldest_exec (place.onRing (onRing_opened rb ring)) holds
    refine found.ensures.mono (fun _ _ _ => trivial) ?_
    rintro _ _ ⟨rfl, _⟩ _
    exact ⟨_, oldest_lt ring cells, rfl⟩
  · rename_i failed
    intro good
    have bad : status = .badHdr := known.resolve_left failed
    subst bad
    simp at good

theorem rbRecreate_atStart (opens : Opens ring baseAddress numberOfSectors)
    (holds : RingHolds memory ring cells) (rb : RbT) (choice : InitChoice) :
    (rbRecreate rb baseAddress numberOfSectors choice).Ensures (fun _ _ => True)
      (AtStart ring) memory := by
  rw [rbRecreate]
  refine (rbCreate_atStart opens holds rb choice).bind ?_
  rintro ⟨status, created⟩ final at'
  dsimp only
  split
  · exact rbCreate_always_atStart opens created final
  · exact at'

end Opening

/-! ## Runs on one control block -/

/-- The call is a read, a search, a deletion, or an append that does not erase the sector the
cursor is in. -/
def KeepsCursor (ring : Geometry) (before : Device) : Call → Prop
  | .append id _ size _ eraseIfFull => Accepted ring id size → eraseIfFull = true →
      ∀ cells, RingHolds before.memory ring cells →
        ¬Evicts ring size cells (before.rb.next / 4096)
  | .read .. => True
  | .find .. => True
  | .delete .. => True
  | _ => False

/-- The cursor of the device is at a header position of its ring. -/
structure Placed (ring : Geometry) (device : Device) (cells : Nat → Option Sector) :
    Prop where
  formed : Formed ring device cells
  cursor : Cursor ring cells device.rb.next

/-- `fragment` is the next live one of `id` that a walk from `next` comes to. -/
inductive NextLive (ring : Geometry) (cells : Nat → Option Sector) (id : Byte) (next : Nat) :
    Fragment → Prop
  | mk {k final : Nat} {sector : Sector} {before after : List Fragment} {fragment : Fragment}
      (skips : Skips ring cells (fun fragment => ¬Wanted id fragment)
        (4096 * (next / 4096)) next final)
      (inRing : k < ring.sectors) (cell : cells k = some sector)
      (frags : sector.frags = before ++ fragment :: after)
      (stands : StandsAt k (4 + fragsSize before) final) (wanted : Wanted id fragment) :
      NextLive ring cells id next fragment

section Cursors

variable {ring : Geometry} {cells changed : Nat → Option Sector} {first before after : Device}
  {event : Event} {id : Byte} {next : Nat} {fragment : Fragment}

theorem NextLive.extends (live : NextLive ring cells id next fragment)
    (extends' : Extends cells changed) : NextLive ring changed id next fragment := by
  cases live with
  | mk skips inRing cell frags stands wanted =>
      obtain ⟨_, _, cell', frags'⟩ := extends'.fragment cell frags
      exact .mk (extends'.skips skips) inRing cell' frags' stands wanted

/-- A read returns the next live fragment, and what continues it. -/
theorem NextLive.reads (live : NextLive ring cells id next fragment)
    (ending : Nat → RbError) (size : Nat) :
    ∃ rest cursor, Reads ring cells ending id (next / 4096) next size
      (.got (fragment.payload.take size ++ rest)) cursor := by
  cases live with
  | @mk k final sector before after _ skips inRing cell frags stands wanted =>
      by_cases room : 4 + fragsSize before + fragment.size ≤ 4091
      · refine ⟨[], 4096 * k + (4 + fragsSize before + fragment.size), ?_⟩
        rw [List.append_nil]
        exact .plain skips inRing cell frags stands wanted room
      have full : 4091 < 4 + fragsSize before + fragment.size := by omega
      rcases noContinuation_or cells id (ring.succ k) with
        ⟨cursor, none⟩ | ⟨following, continuation, rest, nextCell, nextFrags, continues⟩
      · refine ⟨[], cursor, ?_⟩
        rw [List.append_nil]
        exact .last skips inRing cell frags stands wanted full none
      · by_cases filled : size ≤ fragment.payload.length
        · refine ⟨[], 4096 * ring.succ k + 4, ?_⟩
          rw [List.append_nil]
          exact .short skips inRing cell frags stands wanted full nextCell nextFrags continues
            filled
        · have inRing' := ring.succ_lt inRing
          obtain ⟨result, cursor, more⟩ := Reads.exists ending id inRing'
            (Cursor.first inRing' nextCell nextFrags (StandsAt.header _ 4))
            (size - fragment.payload.length)
          refine ⟨result.bytes, cursor, ?_⟩
          rw [List.take_of_length_le (by omega)]
          exact .continued skips inRing cell frags stands wanted full nextCell nextFrags continues
            (by omega) more

/-- An append on one control block. -/
theorem Placed.append (placed : Placed ring before cells) {data pagebuffer : Memory}
    {size : Nat} {eraseIfFull : Bool} {result : Int} {writes : List Op}
    (step : Step ring before ⟨.append id data size pagebuffer eraseIfFull, result, writes⟩ after)
    (keeps : KeepsCursor ring before (.append id data size pagebuffer eraseIfFull)) :
    ∃ survivors changed, (∀ k, survivors k = cells k ∨
        (survivors k = none ∧ eraseIfFull = true ∧ Evicts ring size cells k)) ∧
      Extends survivors changed ∧ Placed ring after changed ∧ after.rb.next = before.rb.next := by
  obtain ⟨⟨on, holds, filled⟩, cursor⟩ := placed
  rcases step.append on holds filled with
    ⟨_, _, _, rfl⟩ | ⟨request, status, changed, rfl, rfl, rfl, fits, _, holds', on', next,
      appends⟩
  · exact ⟨cells, cells, fun _ => .inl rfl, Extends.refl _, ⟨⟨on, holds, filled⟩, cursor⟩, rfl⟩
  · obtain ⟨survivors, ⟨kept⟩, extends'⟩ := appends.survivors
    have spared : survivors (before.rb.next / 4096) = cells (before.rb.next / 4096) := by
      rcases kept (before.rb.next / 4096) with same | ⟨_, erases, evicts⟩
      · exact same
      · exact absurd evicts (keeps ⟨request.size_pos, request.id_ne, fits⟩ erases cells holds)
    have survives : Cursor ring survivors before.rb.next :=
      cursor.of_sizes fun sector cell =>
        ⟨sector, spared.trans cell, [], (List.append_nil _).symm⟩
    refine ⟨survivors, changed, kept, extends', ⟨⟨on', holds', appends.filled filled⟩, ?_⟩, next⟩
    rw [next]
    exact survives.extends extends'

/-- Every call that spares the sector of the cursor leaves it at a header position. -/
theorem Placed.step (placed : Placed ring before cells) (step : Step ring before event after)
    (keeps : KeepsCursor ring before event.call) :
    ∃ changed, Placed ring after changed := by
  obtain ⟨call, result, writes⟩ := event
  have at' : AtCursor ring cells before.rb.sectorIndex before.rb :=
    ⟨placed.formed.on, placed.cursor, rfl⟩
  have memory := step.memory_eq
  have completes := step.completes
  cases call with
  | create | recreate | checkSectorRing => exact absurd keeps id
  | append id data size pagebuffer eraseIfFull =>
      obtain ⟨_, changed, _, _, placed', _⟩ := placed.append step keeps
      exact ⟨changed, placed'⟩
  | read id data size =>
      obtain ⟨same, later⟩ := @FlashProg.Ensures.of_completes _ _ _ _ _
        (fun (value : Int × RbT) final => final = before.memory ∧
          AtCursor ring cells before.rb.sectorIndex value.2) _ _ (fun fuel => FlashProg.Ensures.map
          ((rbRead_ensures _ _ placed.formed.holds at' fuel data size).mono
            (fun _ _ inside => inside) fun _ _ ⟨same, later, _⟩ => ⟨same, later⟩)) completes
      rw [← memory] at same
      exact ⟨cells, ⟨later.on, same ▸ placed.formed.holds, placed.formed.filled⟩, later.cursor⟩
  | find id data size scratch =>
      obtain ⟨same, later⟩ := @FlashProg.Ensures.of_completes _ _ _ _ _
        (fun (value : Int × RbT) final => final = before.memory ∧
          AtCursor ring cells before.rb.sectorIndex value.2) _ _ (fun fuel => FlashProg.Ensures.map
          ((rbFind_ensures _ _ placed.formed.holds at' fuel data size scratch).mono
            (fun _ _ inside => inside) fun _ _ ⟨⟨same, later, _⟩, _⟩ => ⟨same, later⟩)) completes
      rw [← memory] at same
      exact ⟨cells, ⟨later.on, same ▸ placed.formed.holds, placed.formed.filled⟩, later.cursor⟩
  | delete id data size pagebuffer =>
      have post := FlashProg.Ensures.of_completes (fun fuel =>
        rbDelete_ensures placed.formed.on placed.formed.holds fuel data size pagebuffer) completes
      rw [← memory] at post
      have cursor : Cursor ring cells after.rb.next := by
        rcases post.next with same | start
        · rw [same]
          exact placed.cursor
        · rw [start]
          exact Cursor.start (oldest_lt ring cells)
      rcases post.contents with same | ⟨changed, smudges, holds⟩
      · exact ⟨cells, ⟨post.on, same ▸ placed.formed.holds, placed.formed.filled⟩, cursor⟩
      · exact ⟨changed, ⟨post.on, holds, smudges.filled placed.formed.filled⟩,
          cursor.smudges smudges⟩

/-- A successful opening call puts the cursor at a sector start. -/
theorem Formed.opening (formed : Formed ring before cells)
    (step : Step ring before event after) (opening : event.call.isOpening = true)
    (good : event.result = RbError.ok.code ∨ event.result = RbError.blankHdr.code) :
    ∃ changed, Placed ring after changed := by
  obtain ⟨changed, _, formed'⟩ := formed.step step
  have start : ∃ k < ring.sectors, after.rb.next = 4096 * k := by
    obtain ⟨call, result, writes⟩ := event
    have completes := step.completes
    have place := step.place
    have status : ∀ {status : RbError}, status.code = result →
        status = .ok ∨ status = .blankHdr := by
      intro status equal
      simp only at good
      rw [← equal] at good
      cases status <;> simp_all [RbError.code]
    cases call with
    | create block baseAddress numberOfSectors choice =>
        obtain ⟨_, equal, at'⟩ := FlashProg.Ensures.of_completes
          (fun _ => @FlashProg.Ensures.map _ _ _ _ _
          (fun (value : Int × RbT) _ => ∃ status : RbError, status.code = value.1 ∧
            (status = .ok ∨ status = .blankHdr → ∃ k < ring.sectors, value.2.next = 4096 * k))
            (fun result : RbError × RbT => (result.1.code, result.2))
            ((rbCreate_atStart place formed.holds block choice).mono (fun _ _ kept => kept)
            fun value _ at' => ⟨value.1, rfl, at'⟩)) completes
        exact at' (status equal)
    | recreate block baseAddress numberOfSectors choice =>
        obtain ⟨_, equal, at'⟩ := FlashProg.Ensures.of_completes
          (fun _ => @FlashProg.Ensures.map _ _ _ _ _
          (fun (value : Int × RbT) _ => ∃ status : RbError, status.code = value.1 ∧
            (status = .ok ∨ status = .blankHdr → ∃ k < ring.sectors, value.2.next = 4096 * k))
            (fun result : RbError × RbT => (result.1.code, result.2))
            ((rbRecreate_atStart place formed.holds block choice).mono (fun _ _ kept => kept)
            fun value _ at' => ⟨value.1, rfl, at'⟩)) completes
        exact at' (status equal)
    | checkSectorRing | append | read | find | delete => cases opening
  obtain ⟨k, inRing, next⟩ := start
  exact ⟨changed, formed', next ▸ Cursor.start inRing⟩

end Cursors

section LeftBehind

variable {ring : Geometry} {device : Device} {cells : Nat → Option Sector} {start : Nat}
  {log : List Sector}

/-- A read moves the cursor and nothing else. -/
theorem Counted.read {top : Nat} (counted : Counted ring device cells start log top) {id : Byte}
    {size cursor : Nat} {result : ReadResult} (fits : ReadFits ring id size)
    (reads : Reads ring cells (fun _ => .blankHdr) id (device.rb.next / 4096) device.rb.next size
      result cursor) (data : Memory) :
    CountedStep ring device ⟨.read id data size, result.code, []⟩
        ⟨{ device.rb with next := cursor }, device.memory⟩ ∧
      Counted ring ⟨{ device.rb with next := cursor }, device.memory⟩ cells start log top := by
  obtain ⟨⟨on, holds, ordered⟩, cached, stored⟩ := counted
  have completes := rbRead_completes on holds.carries holds.endingsAre fits reads data
  have returns := (completes.map fun result => (result.1, result.2.1)).mono
    fun _ _ => trivial
  refine ⟨⟨⟨trivial, returns, rfl⟩, fun impossible => by cases impossible⟩, ?_⟩
  exact ⟨⟨⟨on.base_eq, on.bytes_eq⟩, holds, ordered⟩, cached, stored⟩

end LeftBehind

end PicoApConfigure.RingBuffer
