import PicoApConfigure.RingBuffer.HeaderScan
import PicoApConfigure.RingBuffer.SectorAppend

/-!
# Finding the write position

`rb_findnext_writeable` starts at the oldest sector and walks over full sectors to
the first one with a blank header position, or comes back to where it started.
-/

namespace PicoApConfigure.RingBuffer

open Nor

/-- Sector `k` is the first one from `start` on that is not full. -/
def Frontier (ring : Geometry) (cells : Nat → Option Sector) (start k : Nat) : Prop :=
  ∃ distance < ring.sectors, ring.ahead start distance = k ∧ cellFull (cells k) = false ∧
    ∀ passed < distance, cellFull (cells (ring.ahead start passed)) = true

/-- No sector has room for another data header. -/
def AllFull (ring : Geometry) (cells : Nat → Option Sector) : Prop :=
  ∀ k < ring.sectors, cellFull (cells k) = true

section Frontier

variable {ring : Geometry} {cells : Nat → Option Sector} {start k : Nat}

theorem Frontier.lt (frontier : Frontier ring cells start k)
    (inRing : start < ring.sectors) : k < ring.sectors := by
  obtain ⟨distance, bound, rfl, _⟩ := frontier
  exact ring.ahead_lt inRing (Nat.le_of_lt bound)

theorem Frontier.room (frontier : Frontier ring cells start k) (sector : Sector)
    (cell : cells k = some sector) : sector.isFull = false := by
  obtain ⟨_, _, _, room, _⟩ := frontier
  rwa [cell] at room

/-- Either there is a first sector with room or there is none at all. -/
theorem frontier_or_allFull (inRing : start < ring.sectors) :
    (∃ k, Frontier ring cells start k) ∨ AllFull ring cells := by
  have search : ∀ distance ≤ ring.sectors,
      (∃ k, Frontier ring cells start k) ∨
        ∀ passed < distance, cellFull (cells (ring.ahead start passed)) = true := by
    intro distance bound
    induction distance with
    | zero => exact .inr fun passed impossible => absurd impossible (Nat.not_lt_zero _)
    | succ distance ih =>
        rcases ih (by omega) with found | full
        · exact .inl found
        · cases room : cellFull (cells (ring.ahead start distance)) with
          | false => exact .inl ⟨_, distance, by omega, rfl, room, full⟩
          | true =>
              right
              intro passed before
              rcases Nat.lt_succ_iff_lt_or_eq.mp before with lt | rfl
              · exact full passed lt
              · exact room
  rcases search ring.sectors (Nat.le_refl _) with found | full
  · exact .inl found
  · right
    intro k bound
    obtain ⟨distance, lt, rfl⟩ := ring.exists_ahead inRing bound
    exact full distance lt

theorem Frontier.unique {other : Nat} (left : Frontier ring cells start k)
    (right : Frontier ring cells start other) : k = other := by
  obtain ⟨near, nearBound, rfl, nearRoom, nearFull⟩ := left
  obtain ⟨far, farBound, rfl, farRoom, farFull⟩ := right
  rcases Nat.lt_trichotomy near far with lt | rfl | gt
  · rw [farFull near lt] at nearRoom
    cases nearRoom
  · rfl
  · rw [nearFull far gt] at farRoom
    cases farRoom

theorem Frontier.not_allFull (frontier : Frontier ring cells start k)
    (inRing : start < ring.sectors) : ¬AllFull ring cells := by
  intro full
  have bound := frontier.lt inRing
  obtain ⟨_, _, _, room, _⟩ := frontier
  rw [full k bound] at room
  cases room

end Frontier

section Writeable

variable {rb : RbT} {ring : Geometry} {memory : Memory} {cells : Nat → Option Sector}
  {home : Nat}

variable (rb) in
/-- One pass of the search. -/
private theorem findnextWriteableLoop_step (on : OnRing rb ring)
    (carries : Carries memory ring cells) {k : Nat} {sector : Sector}
    {before after : List Fragment} {fragment : Fragment} (inRing : k < ring.sectors)
    (cell : cells k = some sector) (frags : sector.frags = before ++ fragment :: after)
    (stands : StandsAt k (4 + fragsSize before) rb.next) (fuel : Nat) {writes : List Op}
    {value : RbError × RbT}
    (exec : (if ring.resume k (4 + fragsSize before + fragment.size) = home then
        Pure.pure (RbError.hdrLoop, { rb with next := 4096 * (home / 4096) })
      else findnextWriteableLoop home fuel
        { rb with next := ring.resume k (4 + fragsSize before + fragment.size) }).Exec
      ring.region memory writes value) :
    (findnextWriteableLoop home (fuel + 1) rb).Exec ring.region memory writes value := by
  have bound := fragment_offset frags
  have := fragment.size_pos
  have short := fragment.payload_le
  have inside : rb.next % 4096 ≤ 4091 := by
    rcases stands with here | ⟨_, start⟩ <;> omega
  have fetched := fetch_fragment on carries inRing cell frags stands
  have moved := rbIncr_fragment on inRing frags
  simp only [findnextWriteableLoop, modSector_eq, flashSectorSize, headerSize]
  rw [if_neg (by omega)]
  refine FlashProg.Exec.bind_read fetched ?_
  simp only [ne_eq, not_true_eq_false, if_false, Fragment.header_len, moved]
  by_cases back : ring.resume k (4 + fragsSize before + fragment.size) = home
  · rw [if_pos back] at exec
    rw [if_pos back, back, flashSector_eq]
    exact exec
  · rw [if_neg back] at exec
    rw [if_neg back]
    exact exec

/-- The search follows a walk. -/
private theorem findnextWriteableLoop_skips (carries : Carries memory ring cells)
    {skip : Fragment → Prop} {next final : Nat}
    (skips : Skips ring cells skip home next final) :
    ∀ {rb : RbT}, OnRing rb ring → rb.next = next → ∀ {writes : List Op}
      {value : RbError × RbT},
      FlashProg.Completes ring.region
        (fun fuel => findnextWriteableLoop home fuel { rb with next := final }) memory writes
        value →
      FlashProg.Completes ring.region (fun fuel => findnextWriteableLoop home fuel rb) memory
        writes value := by
  induction skips with
  | refl next =>
      intro rb on equal writes value completes
      subst equal
      exact completes
  | @step k next final sector before after fragment inRing cell frags stands _ away _ ih =>
      intro rb on equal writes value completes
      subst equal
      have rest := @ih { rb with
        next := ring.resume k (4 + fragsSize before + fragment.size) }
        ⟨on.base_eq, on.bytes_eq⟩ rfl _ _ completes
      obtain ⟨bound, rest⟩ := rest
      refine FlashProg.Completes.succ ⟨bound, fun fuel enough => ?_⟩
      refine findnextWriteableLoop_step _ on carries inRing cell frags stands fuel ?_
      rw [if_neg away]
      exact rest fuel enough

/-- The search stops at an erased sector. -/
private theorem findnextWriteableLoop_erased (on : OnRing rb ring)
    (carries : Carries memory ring cells) {k : Nat} (inRing : k < ring.sectors)
    (cell : cells k = none) (next : rb.next = 4096 * k) (fuel : Nat) :
    (findnextWriteableLoop home (fuel + 1) rb).Exec ring.region memory [] (.blankHdr, rb) := by
  simp only [findnextWriteableLoop, modSector_eq, flashSectorSize, headerSize]
  rw [if_neg (by omega)]
  exact FlashProg.Exec.bind_read (fetch_erased on carries inRing cell next)
    (FlashProg.Exec.pure _)

variable (rb) in
/-- The search stops behind the last fragment of a sector with room. -/
private theorem findnextWriteableLoop_end (on : OnRing rb ring)
    (holds : RingHolds memory ring cells) {k : Nat} {sector : Sector}
    (inRing : k < ring.sectors) (cell : cells k = some sector)
    (room : sector.isFull = false) (stands : StandsAt k sector.used rb.next) (fuel : Nat) :
    (findnextWriteableLoop home (fuel + 1) rb).Exec ring.region memory []
      (.blankHdr, { rb with next := 4096 * k + sector.used }) := by
  have fetched := fetch_end _ on holds.carries inRing cell room stands
  rw [headerStatus, dataWord_end holds inRing cell room, isHeaderGood_blank] at fetched
  rw [Sector.not_isFull_iff] at room
  have inside : rb.next % 4096 ≤ 4091 := by
    rcases stands with here | ⟨_, start⟩ <;> omega
  simp only [findnextWriteableLoop, modSector_eq, flashSectorSize, headerSize]
  rw [if_neg (by omega)]
  exact FlashProg.Exec.bind_read fetched (FlashProg.Exec.pure _)

variable (rb) in
/-- The search stops at the first sector with room. -/
theorem rbFindnextWriteable_completes (on : OnRing rb ring)
    (holds : RingHolds memory ring cells) {start k : Nat} (inRing : start < ring.sectors)
    (next : rb.next = 4096 * start) (frontier : Frontier ring cells start k) :
    FlashProg.Completes ring.region (fun fuel => rbFindnextWriteable fuel rb) memory []
      (.blankHdr, { rb with next := 4096 * k + usedBytes (cells k) }) := by
  have carries := holds.carries
  have kInRing := frontier.lt inRing
  have hasRoom := frontier.room
  obtain ⟨distance, bound, rfl, _, full⟩ := frontier
  have walk := Skips.sectors inRing bound full fun _ _ _ _ _ _ => trivial
  simp only [rbFindnextWriteable]
  refine FlashProg.Completes.bind_read (FlashProg.Exec.check ?_) ?_
  · rw [next, on.bytes_eq]
    exact decide_eq_true (ring.start_lt inRing)
  rw [next]
  refine findnextWriteableLoop_skips carries walk on next ?_
  have on' : OnRing { rb with next := 4096 * ring.ahead start distance } ring :=
    ⟨on.base_eq, on.bytes_eq⟩
  cases cell : cells (ring.ahead start distance) with
  | none => exact .once fun fuel => findnextWriteableLoop_erased on' carries kInRing cell rfl fuel
  | some sector =>
      have room := hasRoom sector cell
      have limit := (Sector.not_isFull_iff sector).mp room
      by_cases empty : sector.frags = []
      · have used : sector.used = 4 := by rw [Sector.used, empty, fragsSize_nil]
        refine .once fun fuel => findnextWriteableLoop_end _ on' holds kInRing cell room ?_ fuel
        rw [used]
        exact StandsAt.start _
      · have reached := ring.resume_of_le (k := ring.ahead start distance) limit
        have rest := Skips.run [] [] kInRing cell (by simp) empty (StandsAt.start _)
          (fun _ _ => trivial) start (by
            change ring.resume _ sector.used ≠ _
            rw [reached]
            simp only [Sector.used] at limit ⊢
            omega)
        change Skips _ _ _ _ _ (ring.resume _ sector.used) at rest
        rw [reached] at rest
        refine findnextWriteableLoop_skips carries rest on' rfl ?_
        exact .once fun fuel => findnextWriteableLoop_end
          { rb with next := 4096 * ring.ahead start distance + sector.used }
          ⟨on.base_eq, on.bytes_eq⟩ holds kInRing cell room (StandsAt.header _ _) fuel

variable (rb) in
/-- The search comes back to its start when every sector is full. -/
theorem rbFindnextWriteable_loop_completes (on : OnRing rb ring)
    (holds : RingHolds memory ring cells) {start : Nat} (inRing : start < ring.sectors)
    (next : rb.next = 4096 * start) (full : AllFull ring cells) :
    FlashProg.Completes ring.region (fun fuel => rbFindnextWriteable fuel rb) memory []
      (.hdrLoop, { rb with next := 4096 * start }) := by
  have carries := holds.carries
  have last : ring.sectors - 1 < ring.sectors := by have := ring.sectors_pos; omega
  have lastInRing := ring.ahead_lt inRing (Nat.le_of_lt last)
  have walk := Skips.sectors inRing last
    (fun passed before => full _ (ring.ahead_lt inRing (by omega))) fun _ _ _ _ _ _ => trivial
  have following : ring.succ (ring.ahead start (ring.sectors - 1)) = start := by
    rw [ring.ahead_succ _ inRing last, Nat.sub_add_cancel ring.sectors_pos, ring.ahead_all]
  obtain ⟨sector, cell, used⟩ := cellFull_iff.mp (full _ lastInRing)
  have nonempty : sector.frags ≠ [] := by
    intro empty
    rw [Sector.used, empty, fragsSize_nil] at used
    omega
  obtain ⟨before, fragment, frags⟩ : ∃ before fragment, sector.frags = before ++ [fragment] :=
    ⟨_, _, (List.dropLast_append_getLast nonempty).symm⟩
  have size : 4 + fragsSize before + fragment.size = sector.used := by
    simp [Sector.used, frags, Nat.add_assoc]
  obtain ⟨reached, stands, rest⟩ := Skips.within [] lastInRing cell
    (by simpa using frags) (StandsAt.start _) fun _ _ => trivial
  rw [List.nil_append] at stands
  simp only [rbFindnextWriteable]
  refine FlashProg.Completes.bind_read (FlashProg.Exec.check ?_) ?_
  · rw [next, on.bytes_eq]
    exact decide_eq_true (ring.start_lt inRing)
  rw [next]
  refine findnextWriteableLoop_skips carries (walk.trans rest) on next ?_
  refine .once fun fuel => ?_
  refine findnextWriteableLoop_step
    { rb with next := reached } ⟨on.base_eq, on.bytes_eq⟩ carries lastInRing cell frags stands fuel
    ?_
  have home : 4096 * (4096 * start / 4096) = 4096 * start := by omega
  rw [size, ring.resume_of_lt used, following, if_pos rfl, home]
  exact FlashProg.Exec.pure _

end Writeable

end PicoApConfigure.RingBuffer
