import PicoApConfigure.RingBuffer.Redundant

/-!
# Records that a search comes to

A search that has a record ahead comes to it before it has gone around, whether the ring has a
blank header or not.
-/

namespace PicoApConfigure.RingBuffer

open Nor

section Encounter

variable {ring : Geometry} {memory : Memory} {cells : Nat → Option Sector} {start : Nat}
  {log : List Sector} {rb : RbT} {distance next size : Nat} {id : Byte} {chain found : List Mark}
  {stops : List Stop} {data : Memory}

theorem Stops.ne_nil {scratch : Memory} (listed : Stops id size chain stops)
    (shown : firstShown data size scratch stops = some found) : chain ≠ [] := by
  rintro rfl
  cases listed
  cases shown

/-- A position at the header of its first fragment. -/
theorem Position.header {mark : Mark} {rest : List Mark} {sector : Sector}
    {before after : List Fragment} (entry : log[distance]? = some sector)
    (frags : sector.frags = before ++ mark.fragment :: after)
    (closes : mark.closes = decide (4091 < 4 + fragsSize before + mark.fragment.size))
    (equal : rest = marks (4 + fragsSize before + mark.fragment.size) after ++
      tape (log.drop (distance + 1))) :
    Position ring start log distance
      (4096 * ring.ahead start distance + (4 + fragsSize before)) (mark :: rest) := by
  have offset := fragment_offset frags
  have positive := mark.fragment.payload_pos
  refine .inside entry frags ?_ (StandsAt.header _ _) ?_
  · simp only [Fragment.size] at offset
    omega
  · rw [marks, List.cons_append, ← equal, ← closes]

/-- The address of the header at which a tape starts. -/
def StartsAt (ring : Geometry) (start : Nat) (log : List Sector) (address : Nat)
    (chain : List Mark) : Prop :=
  address % 4096 ≠ 0 ∧ ∃ distance, Position ring start log distance address chain

/-- The loop of `rb_find` comes to the first stop that shows the data. -/
theorem rbFindLoop_meets (holds : RingHolds memory ring cells)
    (laid : Laid ring cells start log) (fits : ReadFits ring id size)
    (left : (readTape id size found).2 ≠ [] ∨ Unfilled ring log)
    (listed : Stops id size chain stops) :
    ∀ {rb : RbT} {distance home : Nat} {scratch : Memory}, OnRing rb ring →
      Position ring start log distance rb.next chain → home ≤ distance →
      firstShown data size scratch stops = some found →
      ∃ (address : Nat) (rb' : RbT) (scratch' : Memory), FlashProg.Completes ring.region
          (fun fuel => rbFindLoop id data size (4096 * ring.ahead start home) fuel rb scratch)
          memory [] ((address : Int), rb', scratch') ∧
        StartsAt ring start log address found ∧ OnRing rb' ring ∧
        ∃ reached, Position ring start log reached rb'.next (readTape id size found).2 := by
  induction listed with
  | done =>
      intro rb distance home scratch _ _ _ shown
      cases shown
  | @skip mark rest stops skipped later ih =>
      intro rb distance home scratch on position passed shown
      have bound := position.lt laid
      have inRing := ring.ahead_lt laid.start_lt (Nat.le_of_lt bound)
      have cell := laid.cell distance bound
      obtain ⟨sector, before, after, entry, frags, stands, closes, equal⟩ :=
        position.cons_inv laid
      rw [entry] at cell
      obtain ⟨reached, further, -, behind, away⟩ :=
        Position.step laid (.inl (later.ne_nil shown)) entry frags closes equal passed
      obtain ⟨address, rb', scratch', completes, rest⟩ := @ih { rb with
        next := ring.resume (ring.ahead start distance)
          (4 + fragsSize before + mark.fragment.size) } reached home scratch
        ⟨on.base_eq, on.bytes_eq⟩ behind (Nat.le_trans passed further) shown
      refine ⟨address, rb', scratch', ?_, rest⟩
      refine rbFindLoop_skips on holds.carries inRing cell frags stands skipped ?_
      simp only [if_neg (Ne.symm away)]
      exact completes
  | @read mark rest behind bytes stops wanted got later ih =>
      intro rb distance home scratch on position passed shown
      have bound := position.lt laid
      have inRing := ring.ahead_lt laid.start_lt (Nat.le_of_lt bound)
      have cell := laid.cell distance bound
      obtain ⟨sector, before, after, entry, frags, stands, closes, equal⟩ :=
        position.cons_inv laid
      rw [entry] at cell
      have offset := fragment_offset frags
      have positive := mark.fragment.size_pos
      have more : 0 < bytes.length := by
        obtain ⟨_, _, other, more⟩ := @readTape_wanted id size _ rest wanted fits.1
        rw [got] at other
        cases other
        exact more
      have header : Position ring start log distance
          (4096 * ring.ahead start distance + (4 + fragsSize before)) (mark :: rest) :=
        Position.header entry frags closes equal
      have onward : behind ≠ [] ∨ Unfilled ring log := by
        rw [firstShown] at shown
        split at shown
        · cases shown
          rwa [got] at left
        · exact .inl (later.ne_nil shown)
      obtain ⟨cursor, reached, reads, further, position'⟩ :=
        @Position.reads _ _ _ _ id laid (mark :: rest) distance distance _ size header
          (Nat.le_refl _) (by rwa [got])
      rw [got] at reads position'
      have pass := fun {value} => @rbFindLoop_reads _ _ _ _ _ _ data on holds fits _ _ _ _ _ _ _
        inRing cell frags stands wanted reads more (4096 * ring.ahead start home) scratch value
      rw [firstShown] at shown
      by_cases here : slice data 0 size = slice (store scratch 0 bytes) 0 size
      · rw [if_pos here] at shown
        cases shown
        refine ⟨_, { rb with next := cursor }, store scratch 0 bytes, pass ?_,
          ⟨by omega, distance, header⟩, ⟨on.base_eq, on.bytes_eq⟩, reached, ?_⟩
        · simp only [if_pos here]
          exact (FlashProg.Exec.pure _).completes
        · rw [got]
          exact position'
      · rw [if_neg here] at shown
        obtain ⟨address, rb', scratch', completes, rest'⟩ :=
          @ih { rb with next := cursor } reached home (store scratch 0 bytes)
            ⟨on.base_eq, on.bytes_eq⟩ position' (Nat.le_trans passed further) shown
        refine ⟨address, rb', scratch', pass ?_, rest'⟩
        simp only [if_neg here]
        exact completes

/-- `rb_find` with a read ahead that leaves the data in the buffer. -/
theorem rbFind_shown (on : OnRing rb ring) (holds : RingHolds memory ring cells)
    (laid : Laid ring cells start log) (fits : ReadFits ring id size)
    (position : Position ring start log distance rb.next chain)
    (listed : Stops id size chain stops) {scratch : Memory}
    (shown : firstShown data size scratch stops = some found)
    (left : (readTape id size found).2 ≠ [] ∨ Unfilled ring log) :
    ∃ (address : Nat) (rb' : RbT) (scratch' : Memory), FlashProg.Completes ring.region
        (fun fuel => rbFind fuel rb id data size scratch) memory []
        ((address : Int), rb', scratch') ∧
      StartsAt ring start log address found ∧ OnRing rb' ring ∧
      ∃ reached, Position ring start log reached rb'.next (readTape id size found).2 := by
  have accepted : ¬rbReadRejects rb id size := by
    rw [rbReadRejects_iff on]
    exact not_not_intro fits
  obtain ⟨address, rb', scratch', loop, rest⟩ := rbFindLoop_meets holds laid fits left listed on
    position (Nat.le_refl distance) shown
  refine ⟨address, rb', scratch', ?_, rest⟩
  simp only [rbFind, if_neg accepted, flashSector_eq, position.sector]
  exact loop

/-- `rb_find` with a record ahead. -/
theorem rbFind_meets {ending : Prop} (on : OnRing rb ring) (holds : RingHolds memory ring cells)
    (laid : Laid ring cells start log) (fits : ReadFits ring id size)
    (position : Position ring start log distance rb.next chain)
    (clear : Clear id data size ending chain)
    (first : firstMatch id data size chain = some found)
    (left : (readTape id size found).2 ≠ [] ∨ Unfilled ring log) (scratch : Memory) :
    ∃ (address : Nat) (rb' : RbT) (scratch' : Memory), FlashProg.Completes ring.region
        (fun fuel => rbFind fuel rb id data size scratch) memory []
        ((address : Int), rb', scratch') ∧
      StartsAt ring start log address found ∧ OnRing rb' ring ∧
      ∃ reached, Position ring start log reached rb'.next (readTape id size found).2 := by
  obtain ⟨stops, listed, -, shown⟩ := clear.shown fits.1
  exact rbFind_shown on holds laid fits position listed ((shown scratch).trans first) left

/-! ## Searches that find nothing -/

theorem Laid.filled (laid : Laid ring cells start log) : Filled ring cells := by
  intro k inRing sector cell
  obtain ⟨distance, bound, rfl⟩ := ring.exists_ahead laid.start_lt inRing
  rw [laid.cell distance bound] at cell
  exact laid.nonempty sector (List.mem_of_getElem? cell)

/-- In a full log a search that finds nothing ends where it has gone around, if no read gets
there. -/
theorem rbFindLoop_around (holds : RingHolds memory ring cells) (laid : Laid ring cells start log)
    (fits : ReadFits ring id size) (used : log.length = ring.sectors)
    (full : ∀ sector ∈ log, sector.isFull = true) (listed : Stops id size chain stops) :
    ∀ {rb : RbT} {distance : Nat} {scratch : Memory}, OnRing rb ring →
      Position ring start log distance rb.next chain → chain ≠ [] →
      (∀ stop ∈ stops, (readTape id size stop.tape).2 ≠ []) →
      firstShown data size scratch stops = none →
      ∃ (rb' : RbT) (scratch' : Memory), FlashProg.Completes ring.region
        (fun fuel => rbFindLoop id data size (4096 * start) fuel rb scratch) memory []
        (RbError.hdrIdNotFound.code, rb', scratch') := by
  have home := ring.ahead_zero laid.start_lt
  induction listed with
  | done =>
      intro rb distance scratch _ _ nonempty
      exact absurd rfl nonempty
  | @skip mark rest stops skipped later ih =>
      intro rb distance scratch on position _ left none
      have bound := position.lt laid
      have inRing := ring.ahead_lt laid.start_lt (Nat.le_of_lt bound)
      have cell := laid.cell distance bound
      obtain ⟨sector, before, after, entry, frags, stands, closes, equal⟩ :=
        position.cons_inv laid
      rw [entry] at cell
      by_cases last : rest = []
      · -- the last fragment in front of the start
        obtain ⟨noMore, noTape⟩ := List.append_eq_nil_iff.mp (equal.symm.trans last)
        obtain rfl := marks_eq_nil noMore
        have final : distance + 1 = ring.sectors := by
          by_contra more
          exact tape_ne_nil laid (by omega : distance + 1 < log.length) noTape
        have closed := full sector (List.mem_of_getElem? entry)
        rw [Sector.isFull_iff, Sector.used, frags, fragsSize_append, fragsSize_cons,
          fragsSize_nil] at closed
        have around : ring.resume (ring.ahead start distance)
            (4 + fragsSize before + mark.fragment.size) = 4096 * start := by
          rw [ring.resume_of_lt (by omega), ring.ahead_succ distance laid.start_lt bound, final,
            ring.ahead_all]
        refine ⟨{ rb with next := 4096 * start }, scratch, ?_⟩
        refine rbFindLoop_skips on holds.carries inRing cell frags stands skipped ?_
        simp only [around, if_true]
        exact (FlashProg.Exec.pure _).completes
      · obtain ⟨reached, further, -, behind, away⟩ :=
          Position.step laid (.inl last) entry frags closes equal (Nat.zero_le distance)
        rw [home] at away
        obtain ⟨rb', scratch', completes⟩ := @ih { rb with
          next := ring.resume (ring.ahead start distance)
            (4 + fragsSize before + mark.fragment.size) } reached scratch
          ⟨on.base_eq, on.bytes_eq⟩ behind last left none
        refine ⟨rb', scratch', ?_⟩
        refine rbFindLoop_skips on holds.carries inRing cell frags stands skipped ?_
        simp only [if_neg (Ne.symm away)]
        exact completes
  | @read mark rest behind bytes stops wanted got later ih =>
      intro rb distance scratch on position _ left none
      have bound := position.lt laid
      have inRing := ring.ahead_lt laid.start_lt (Nat.le_of_lt bound)
      have cell := laid.cell distance bound
      obtain ⟨sector, before, after, entry, frags, stands, closes, equal⟩ :=
        position.cons_inv laid
      rw [entry] at cell
      have more : 0 < bytes.length := by
        obtain ⟨_, _, other, more⟩ := @readTape_wanted id size _ rest wanted fits.1
        rw [got] at other
        cases other
        exact more
      have onward := left _ List.mem_cons_self
      obtain ⟨cursor, reached, reads, further, position'⟩ :=
        @Position.reads _ _ _ _ id laid (mark :: rest) distance distance _ size
          (Position.header entry frags closes equal) (Nat.le_refl _) (.inl onward)
      rw [got] at reads position' onward
      rw [firstShown] at none
      split at none
      · cases none
      · rename_i here
        obtain ⟨rb', scratch', completes⟩ :=
          @ih { rb with next := cursor } reached (store scratch 0 bytes)
            ⟨on.base_eq, on.bytes_eq⟩ position' onward
            (fun stop member => left stop (List.mem_cons_of_mem _ member)) none
        refine ⟨rb', scratch', ?_⟩
        refine rbFindLoop_reads on holds fits inRing cell frags stands wanted reads more ?_
        simp only [if_neg here]
        exact completes

/-- `rb_find` in a full log without a record that matches. -/
theorem rbFind_around (on : OnRing rb ring) (holds : RingHolds memory ring cells)
    (laid : Laid ring cells start log) (fits : ReadFits ring id size)
    (used : log.length = ring.sectors) (full : ∀ sector ∈ log, sector.isFull = true)
    (position : Position ring start log 0 rb.next chain) (nonempty : chain ≠ [])
    (clear : Clear id data size False chain) (none : firstMatch id data size chain = none)
    (scratch : Memory) :
    ∃ (rb' : RbT) (scratch' : Memory), FlashProg.Completes ring.region
      (fun fuel => rbFind fuel rb id data size scratch) memory []
      (RbError.hdrIdNotFound.code, rb', scratch') := by
  obtain ⟨stops, listed, left, shown⟩ := clear.shown fits.1
  have accepted : ¬rbReadRejects rb id size := by
    rw [rbReadRejects_iff on]
    exact not_not_intro fits
  simp only [rbFind, if_neg accepted, flashSector_eq, position.sector, ring.ahead_zero
    laid.start_lt]
  exact rbFindLoop_around holds laid fits used full listed on position nonempty
    (fun stop member => (left stop member).resolve_right not_false) ((shown scratch).trans none)

/-- `rb_find` in a log with a blank header and without a record that matches. -/
theorem rbFind_blank {ending : Prop} (on : OnRing rb ring) (holds : RingHolds memory ring cells)
    (laid : Laid ring cells start log) (fits : ReadFits ring id size)
    (unfilled : Unfilled ring log) (position : Position ring start log distance rb.next chain)
    (clear : Clear id data size ending chain) (none : firstMatch id data size chain = none)
    (scratch : Memory) :
    ∃ rb' scratch', FlashProg.Completes ring.region
      (fun fuel => rbFind fuel rb id data size scratch) memory []
      (RbError.blankHdr.code, rb', scratch') := by
  obtain ⟨stops, listed, -, shown⟩ := clear.shown fits.1
  have ahead := (position.ahead laid unfilled).rebase laid.start_lt (Nat.le_refl distance)
  rw [Nat.sub_self, ← position.sector] at ahead
  obtain ⟨value, rb', scratch', completes, -, ends, -⟩ :=
    @rbFind_completes _ _ _ rb _ _ _ _ data on holds laid.filled fits ahead listed scratch
  obtain rfl := ends ((shown scratch).trans none)
  exact ⟨rb', scratch', completes⟩

/-! ## Where a tape starts -/

/-- The part `mark :: rest` of the tape starts at a fragment of `sector`. -/
structure Spot (log older : List Sector) (sector : Sector) (newer : List Sector)
    (before after : List Fragment) (mark : Mark) (rest : List Mark) : Prop where
  split : log = older ++ sector :: newer
  frags : sector.frags = before ++ mark.fragment :: after
  closes : mark.closes = decide (4091 < 4 + fragsSize before + mark.fragment.size)
  equal : rest = marks (4 + fragsSize before + mark.fragment.size) after ++ tape newer

section Place

variable {mark : Mark} {rest : List Mark} {address : Nat} {older newer older' newer' : List Sector}
  {sector sector' : Sector} {before after before' after' : List Fragment}

/-- The fragment at a position. -/
theorem Position.place (laid : Laid ring cells start log)
    (position : Position ring start log distance next (mark :: rest)) :
    ∃ older sector newer before after, Spot log older sector newer before after mark rest ∧
      StandsAt (ring.ahead start older.length) (4 + fragsSize before) next := by
  obtain ⟨sector, before, after, entry, frags, stands, closes, equal⟩ := position.cons_inv laid
  obtain ⟨bound, here⟩ := List.getElem?_eq_some_iff.mp entry
  have place : (log.take distance).length = distance := by
    rw [List.length_take]
    omega
  refine ⟨log.take distance, sector, log.drop (distance + 1), before, after,
    ⟨?_, frags, closes, equal⟩, place.symm ▸ stands⟩
  rw [← here, ← List.drop_eq_getElem_cons bound, List.take_append_drop]

namespace Spot

/-- The tape of a log up to a fragment, and from there on. -/
theorem tape_eq (spot : Spot log older sector newer before after mark rest) :
    tape log = (tape older ++ marks 4 before) ++ mark :: rest := by
  rw [spot.split, tape_append, tape_cons, spot.frags, marks_append, marks, spot.equal,
    ← spot.closes]
  simp only [List.append_assoc, List.cons_append]

/-- A sector in front of another one holds its fragments in front of those of the other. -/
theorem not_shorter (spot : Spot log older sector newer before after mark rest)
    (split' : log = older' ++ sector' :: newer')
    (count : (tape older').length ≤ (tape older).length + before.length) :
    ¬older.length < older'.length := by
  intro shorter
  have lead : older' = older ++ sector :: older'.drop (older.length + 1) := by
    have same := congrArg (List.take older'.length) (spot.split.symm.trans split')
    rw [List.take_left' rfl, List.take_append, List.take_of_length_le (Nat.le_of_lt shorter),
      List.take_cons (by omega)] at same
    rw [← same, List.drop_append, List.drop_eq_nil_of_le (by omega)]
    simp
  rw [lead, tape_append, tape_cons, spot.frags] at count
  simp only [List.length_append, marks_length, List.length_cons] at count
  omega

/-- A part of the tape starts at one place only. -/
theorem unique (spot : Spot log older sector newer before after mark rest)
    (spot' : Spot log older' sector' newer' before' after' mark rest) :
    older = older' ∧ sector = sector' ∧ newer = newer' ∧ before = before' := by
  have count := congrArg List.length (spot.tape_eq.symm.trans spot'.tape_eq)
  simp only [List.length_append, List.length_cons, marks_length] at count
  have first := spot.not_shorter spot'.split (by omega)
  have second := spot'.not_shorter spot.split (by omega)
  obtain ⟨rfl, tail⟩ := List.append_inj (spot.split.symm.trans spot'.split)
    (show older.length = older'.length by omega)
  obtain ⟨rfl, rfl⟩ := List.cons.inj tail
  have inner := List.append_inj (spot.frags.symm.trans spot'.frags)
    (show before.length = before'.length by omega)
  exact ⟨rfl, rfl, rfl, inner.1⟩

theorem entry (spot : Spot log older sector newer before after mark rest) :
    log[older.length]? = some sector := by
  rw [spot.split, List.getElem?_append_right (Nat.le_refl _), Nat.sub_self]
  rfl

theorem position (spot : Spot log older sector newer before after mark rest) (ring : Geometry)
    (start : Nat) : Position ring start log older.length
      (4096 * ring.ahead start older.length + (4 + fragsSize before)) (mark :: rest) := by
  refine Position.header spot.entry spot.frags spot.closes ?_
  rw [spot.equal, spot.split, List.drop_append, List.drop_eq_nil_of_le (Nat.le_succ _)]
  simp

/-- The address that `rb_find` returns. -/
theorem address_eq (laid : Laid ring cells start log)
    (spot : Spot log older sector newer before after mark rest)
    (starts : StartsAt ring start log address (mark :: rest)) :
    address = 4096 * ring.ahead start older.length + (4 + fragsSize before) := by
  obtain ⟨inside, distance, position⟩ := starts
  obtain ⟨_, _, _, _, _, spot', stands⟩ := position.place laid
  obtain ⟨rfl, rfl, rfl, rfl⟩ := spot.unique spot'
  rcases stands with header | ⟨-, start⟩
  · exact header
  · omega

end Spot

theorem StartsAt.spot (laid : Laid ring cells start log)
    (starts : StartsAt ring start log address (mark :: rest)) :
    ∃ older sector newer before after, Spot log older sector newer before after mark rest := by
  obtain ⟨-, distance, position⟩ := starts
  obtain ⟨older, sector, newer, before, after, spot, -⟩ := position.place laid
  exact ⟨older, sector, newer, before, after, spot⟩

end Place

/-! ## Deleting a record -/

section Deleting

variable {older newer : List Sector} {sector : Sector} {before after : List Fragment}
  {mark : Mark} {rest : List Mark}

/-- The log after `rb_smudge` at a spot. -/
theorem Spot.smudge (spot : Spot log older sector newer before after mark rest) :
    Spot (older ++ sector.smudge before mark.fragment after spot.frags :: newer) older
      (sector.smudge before mark.fragment after spot.frags) newer before after mark.smudge rest
      where
  split := rfl
  frags := rfl
  closes := by
    simp only [Mark.smudge, Fragment.smudged_size]
    exact spot.closes
  equal := by
    simp only [Mark.smudge, Fragment.smudged_size]
    exact spot.equal

/-- `rb_smudge` at the header of a fragment of a log. -/
theorem rbSmudge_log (on : OnRing rb ring) (holds : RingHolds memory ring cells)
    (ordered : Ordered ring cells start log)
    (spot : Spot log older sector newer before after mark rest) :
    ∃ changed writes rb', OnRing rb' ring ∧ rb'.next = rb.next ∧
      (rbSmudge rb (4096 * ring.ahead start older.length + (4 + fragsSize before))).Exec ring.region
        memory writes (.ok, rb') ∧
      RingHolds (replay writes memory) ring changed ∧ Ordered ring changed start
        (older ++ sector.smudge before mark.fragment after spot.frags :: newer) := by
  have length := ordered.length_le
  rw [spot.split, List.length_append, List.length_cons] at length
  have bound : older.length < ring.sectors := by omega
  have inRing := ring.ahead_lt ordered.start_lt (Nat.le_of_lt bound)
  have cell := (ordered.cell _ bound).trans spot.entry
  obtain ⟨rb', on', next, -, exec⟩ := rbSmudge_exec rb on holds inRing cell spot.frags
  have smudged := holds.smudge inRing cell spot.frags
  rw [Geometry.sectorAddr, Nat.add_assoc, Nat.add_assoc, Nat.add_assoc] at smudged
  rw [spot.split] at ordered
  refine ⟨_, _, rb', on', next, exec, ?_, ordered.replace
    (sector.smudge before mark.fragment after spot.frags) rfl ?_ ?_⟩
  · rw [replay_pageWrites (by decide)]
    exact smudged
  · rw [Sector.isFull, Sector.isFull, Sector.smudge_used]
  · simp [Sector.smudge]

/-- `rb_delete` deletes at the first read that leaves the data in the buffer. -/
theorem rbDelete_shown (on : OnRing rb ring) (holds : RingHolds memory ring cells)
    (ordered : Ordered ring cells start log) (opened : (cells 0).isSome)
    (fits : ReadFits ring id size) (listed : Stops id size (tape log) stops) {pagebuffer : Memory}
    (shown : firstShown data size pagebuffer stops = some (mark :: rest))
    (left : (readTape id size (mark :: rest)).2 ≠ [] ∨ Unfilled ring log)
    (spot : Spot log older sector newer before after mark rest) :
    ∃ changed writes rb', FlashProg.Completes ring.region
        (fun fuel => rbDelete fuel rb id data size pagebuffer) memory writes
        (RbError.ok.code, rb') ∧
      OnRing rb' ring ∧ rb'.next = rb.next ∧ RingHolds (replay writes memory) ring changed ∧
      Ordered ring changed start
        (older ++ sector.smudge before mark.fragment after spot.frags :: newer) := by
  have valid : ¬(id = 0 ∨ id = 0xff) := by
    rintro (zero | blank)
    · exact fits.2.2.1 zero
    · exact fits.2.1 blank
  have oldest := @findOldest_exec { rb with rbPage := pagebuffer } _ _ _
    ⟨on.base_eq, on.bytes_eq⟩ holds
  have status : entryStatus (indexOf cells 0) = .ok := by
    rw [indexOf]
    obtain ⟨first, cell⟩ := Option.isSome_iff_exists.mp opened
    rw [cell]
    rfl
  rw [status, ordered.oldest_eq] at oldest
  obtain ⟨address, found, scratch, find, starts, on', -⟩ :=
    @rbFind_shown _ _ _ _ _ { rb with
      next := 4096 * start
      sectorIndex := topOf ring cells rb.sectorIndex
      rbPage := pagebuffer } _ _ _ _ _ _ _ ⟨on.base_eq, on.bytes_eq⟩ holds ordered.laid fits
      ordered.begins listed pagebuffer shown left
  obtain rfl := spot.address_eq ordered.laid starts
  obtain ⟨changed, writes, rb', on'', -, smudge, holds', ordered'⟩ :=
    @rbSmudge_log _ _ _ _ _ { found with rbPage := scratch } _ _ _ _ _ _ _
      ⟨on'.base_eq, on'.bytes_eq⟩ holds ordered spot
  refine ⟨changed, writes, { rb' with next := rb.next }, ?_,
    ⟨on''.base_eq, on''.bytes_eq⟩, rfl,
    holds', ordered'⟩
  simp only [rbDelete, if_neg valid]
  refine FlashProg.Completes.bind_read oldest ?_
  simp only [ne_eq, not_true_eq_false, if_false]
  rw [← List.nil_append writes]
  refine find.bind ?_
  simp only [if_neg (by omega : ¬((4096 * ring.ahead start older.length +
    (4 + fragsSize before) : Nat) : Int) < 0), Int.toNat_natCast]
  rw [← List.append_nil writes]
  refine FlashProg.Completes.bind smudge.completes ?_
  exact (FlashProg.Exec.pure _).completes

/-- `rb_delete` deletes the first record that matches. -/
theorem rbDelete_meets {ending : Prop} (on : OnRing rb ring) (holds : RingHolds memory ring cells)
    (ordered : Ordered ring cells start log) (opened : (cells 0).isSome)
    (fits : ReadFits ring id size)
    (clear : Clear id data size ending (tape log))
    (first : firstMatch id data size (tape log) = some (mark :: rest))
    (left : (readTape id size (mark :: rest)).2 ≠ [] ∨ Unfilled ring log)
    (spot : Spot log older sector newer before after mark rest) (pagebuffer : Memory) :
    ∃ changed writes res rb', FlashProg.Completes ring.region
        (fun fuel => rbDelete fuel rb id data size pagebuffer) memory writes (res, rb') ∧
      OnRing rb' ring ∧ rb'.next = rb.next ∧ RingHolds (replay writes memory) ring changed ∧
      Ordered ring changed start
        (older ++ sector.smudge before mark.fragment after spot.frags :: newer) := by
  obtain ⟨stops, listed, -, shown⟩ := clear.shown fits.1
  obtain ⟨changed, writes, rb', deletes⟩ := rbDelete_shown on holds ordered opened fits listed
    ((shown pagebuffer).trans first) left spot
  exact ⟨changed, writes, _, rb', deletes⟩

end Deleting

end Encounter

end PicoApConfigure.RingBuffer
