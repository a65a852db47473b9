import PicoApConfigure.RingBuffer.Reach

/-!
# Where the calls access the flash

A call touches nothing but the ring, and nothing else influences it, except that the
check of the sector order can run past the ring end and that a cursor may have been
left behind by an erase.
-/

namespace PicoApConfigure.RingBuffer

open Nor

/-- The order scan runs past the ring end: every sector is in use, the oldest one is not
the first, and from there to the ring end no index falls. -/
def Overruns (ring : Geometry) (cells : Nat → Option Sector) : Prop :=
  (∀ k < ring.sectors, (cells k).isSome = true) ∧ 0 < oldest ring cells ∧
    ascends (indexOf cells) (ring.sectors - oldest ring cells) (oldest ring cells) 0 = true

/-- The call does not run the order scan past the ring end, and does not read from a cursor
that is off the header positions. -/
def Call.Confined (ring : Geometry) (cells : Nat → Option Sector) (next : Nat) :
    Call → Prop
  | .create _ _ _ choice => choice = .createInitAlways ∨ ¬Overruns ring cells
  | .recreate _ _ _ choice => choice = .createInitAlways ∨ ¬Overruns ring cells
  | .checkSectorRing => ¬Overruns ring cells
  | .append .. => True
  | .read id _ size => ReadFits ring id size → Cursor ring cells next
  | .find id _ size _ => ReadFits ring id size → Cursor ring cells next
  | .delete .. => True

section Access

variable {ring : Geometry} {memory : Memory} {cells : Nat → Option Sector} {rb : RbT}
  {first device : Device} {events : List Event}

/-- The check stays inside the ring unless it overruns. -/
theorem rbCheckSectorRing_confined (on : OnRing rb ring) (holds : RingHolds memory ring cells)
    (confined : ¬Overruns ring cells) :
    ∃ status rb', OnRing rb' ring ∧ (status = .ok ∨ status = .badHdr) ∧
      (rbCheckSectorRing rb).Exec ring.region memory [] (status, rb') := by
  have headers := holds.carries.headersAre
  by_cases used : ∀ k < ring.sectors, (indexOf cells k).isSome = true
  · cases rises : ascends (indexOf cells) (ring.sectors - oldest ring cells) (oldest ring cells)
        0 with
    | false =>
        obtain ⟨rb', on', _, exec⟩ := rbCheckSectorRing_descends_exec on headers used rises
        exact ⟨_, rb', on', .inr rfl, exec⟩
    | true =>
        have front : oldest ring cells = 0 := by
          by_contra behind
          refine confined ⟨fun k inRing => ?_, Nat.pos_of_ne_zero behind, rises⟩
          simpa [indexOf] using used k inRing
        rw [front, Nat.sub_zero] at rises
        obtain ⟨rb', on', _, exec⟩ := rbCheckSectorRing_first_exec on headers used front rises
        exact ⟨_, rb', on', .inl rfl, exec⟩
  · have blank : ∃ k < ring.sectors, indexOf cells k = none := by
      simpa using used
    obtain ⟨rb', on', _, exec⟩ := rbCheckSectorRing_blank_exec on headers blank
    exact ⟨_, rb', on', .inl rfl, exec⟩

/-- Opening a ring whose check is confined. -/
theorem rbCreate_confined {baseAddress numberOfSectors : Nat} {choice : InitChoice}
    (opens : Opens ring baseAddress numberOfSectors) (holds : RingHolds memory ring cells)
    (confined : choice = .createInitAlways ∨ ¬Overruns ring cells) (rb : RbT) :
    ∃ writes status rb', (rbCreate rb baseAddress numberOfSectors choice).Exec ring.region
        memory writes (status, rb') ∧
      (status = .ok ∨ status = .blankHdr ∨ (status = .badHdr ∧ writes = [])) := by
  by_cases always : choice = .createInitAlways
  · subst always
    exact ⟨_, _, _, rbCreate_always_exec opens rb, .inl rfl⟩
  have keeps := confined.resolve_left always
  obtain ⟨status, checked, on, outcome, check⟩ :=
    rbCheckSectorRing_confined (onRing_opened rb ring) holds keeps
  rcases outcome with rfl | rfl
  · obtain ⟨rb', _, _, _, exec⟩ := rbCreate_check_exec _ opens always holds.carries.headersAre
      (fun _ inside => inside) on check
    refine ⟨_, _, rb', exec, ?_⟩
    rcases entryStatus_eq_ok_or (indexOf cells 0) with equal | equal
    · exact .inl equal
    · exact .inr (.inl equal)
  · exact ⟨_, _, checked, rbCreate_bad_exec opens always (by simp) check, .inr (.inr ⟨rfl, rfl⟩)⟩

theorem rbRecreate_confined {baseAddress numberOfSectors : Nat} {choice : InitChoice}
    (opens : Opens ring baseAddress numberOfSectors) (holds : RingHolds memory ring cells)
    (confined : choice = .createInitAlways ∨ ¬Overruns ring cells) (rb : RbT) :
    ∃ writes value, (rbRecreate rb baseAddress numberOfSectors choice).Exec ring.region memory
      writes value := by
  obtain ⟨writes, status, rb', exec, outcome⟩ := rbCreate_confined opens holds confined rb
  by_cases kept : choice = .createFail ∨ status = .ok ∨ status = .blankHdr
  · exact ⟨writes, _, rbRecreate_kept_exec kept exec⟩
  · rcases outcome with equal | equal | ⟨rfl, rfl⟩
    · exact absurd (.inr (.inl equal)) kept
    · exact absurd (.inr (.inr equal)) kept
    · exact ⟨_, _, rbRecreate_bad_exec opens (fun _ inside => inside)
        (fun declined => kept (.inl declined)) exec⟩

/-- Every access of a confined call on a formed ring is in the ring. -/
theorem Formed.confined (formed : Formed ring device cells) (call : Call)
    (place : call.On ring) (confined : call.Confined ring cells device.rb.next) :
    ∃ bound, ∀ fuel, bound ≤ fuel → (call.program fuel device.rb).Ensures
      (FlashProg.Inside ring.region) (fun _ _ => True) device.memory := by
  have forget : ∀ {α : Type} {program : FlashProg α} {post : α → Memory → Prop},
      program.Ensures (FlashProg.Inside ring.region) post device.memory →
      program.Ensures (FlashProg.Inside ring.region) (fun _ _ => True) device.memory :=
    fun ensures => ensures.mono (fun _ _ inside => inside) fun _ _ _ => trivial
  have at' : Cursor ring cells device.rb.next →
      AtCursor ring cells device.rb.sectorIndex device.rb :=
    fun cursor => ⟨formed.on, cursor, rfl⟩
  cases call with
  | create block baseAddress numberOfSectors choice =>
      obtain ⟨_, _, _, exec, _⟩ := rbCreate_confined place formed.holds confined block
      exact ⟨0, fun _ _ => (forget exec.ensures).map⟩
  | recreate block baseAddress numberOfSectors choice =>
      obtain ⟨_, _, exec⟩ := rbRecreate_confined place formed.holds confined block
      exact ⟨0, fun _ _ => (forget exec.ensures).map⟩
  | checkSectorRing =>
      obtain ⟨_, _, _, _, exec⟩ := rbCheckSectorRing_confined formed.on formed.holds confined
      exact ⟨0, fun _ _ => (forget exec.ensures).map⟩
  | append id data size pagebuffer eraseIfFull =>
      by_cases accepted : Accepted ring id size
      · obtain ⟨sizePos, idNe, fits⟩ := accepted
        obtain ⟨_, _, _, _, appends⟩ := Appends.exists
          ⟨id, data, size, idNe, sizePos⟩ eraseIfFull cells device.rb.sectorIndex
        obtain ⟨_, _, _, _, bound, exec⟩ := rbAppend_completes ⟨id, data, size, idNe, sizePos⟩
          formed.on formed.holds
          formed.filled fits appends pagebuffer
        exact ⟨bound, fun fuel enough => (forget (exec fuel enough).ensures).map⟩
      · refine ⟨0, fun fuel _ => ?_⟩
        rw [Call.program, rbAppend_refused formed.on accepted]
        exact trivial
  | read id data size =>
      refine ⟨0, fun fuel _ => ?_⟩
      by_cases fits : ReadFits ring id size
      · exact (forget (rbRead_ensures _ _ formed.holds (at' (confined fits)) fuel data size)).map
      · have rejected := (rbReadRejects_iff formed.on).mpr fits
        simp only [Call.program, rbRead, if_pos rejected]
        exact trivial
  | find id data size scratch =>
      refine ⟨0, fun fuel _ => ?_⟩
      by_cases fits : ReadFits ring id size
      · exact (forget (rbFind_ensures _ _ formed.holds (at' (confined fits)) fuel data size
          scratch)).map
      · have rejected := (rbReadRejects_iff formed.on).mpr fits
        simp only [Call.program, rbFind, if_pos rejected]
        exact trivial
  | delete id data size pagebuffer =>
      exact ⟨0, fun fuel _ => forget (rbDelete_ensures formed.on formed.holds fuel data size
        pagebuffer)⟩

theorem Formed.congr (formed : Formed ring device cells) {other : Memory}
    (agree : ∀ query, ring.region query → device.memory query = other query) :
    Formed ring ⟨device.rb, other⟩ cells :=
  ⟨formed.on, formed.holds.congr agree, formed.filled⟩

/-- On a ring whose check overruns, two flashes that differ behind the ring only make
`rb_recreate` keep the ring in one case and erase it in the other. -/
theorem Overruns.influenced (overruns : Overruns ring cells)
    (formed : Formed ring device cells)
    (last : ∃ sector, cells (ring.sectors - 1) = some sector ∧ 0 < sector.index)
    {baseAddress numberOfSectors : Nat} (opens : Opens ring baseAddress numberOfSectors)
    (block : RbT) :
    ∃ left right : Memory,
      (∀ query, ring.region query → device.memory query = left query) ∧
      (∀ query, ring.region query → device.memory query = right query) ∧
      (∃ rb', (rbCheckSectorRing device.rb).result left = some (.ok, rb')) ∧
      (∃ rb', (rbCheckSectorRing device.rb).result right = some (.badHdr, rb')) ∧
      (rbRecreate block baseAddress numberOfSectors .createInitIfFail).writes left = [] ∧
      (rbRecreate block baseAddress numberOfSectors .createInitIfFail).writes right =
        [.erase ring.base (4096 * ring.sectors)] := by
  obtain ⟨used, rotated, rises⟩ := overruns
  obtain ⟨sector, cell, positive⟩ := last
  have used' : ∀ k < ring.sectors, (indexOf cells k).isSome = true := fun k inRing => by
    simpa [indexOf] using used k inRing
  have agree : ∀ (bytes : List Byte) (query : Nat), ring.region query →
      device.memory query = store device.memory ring.behind bytes query :=
    fun bytes query inside => (store_of_lt _ _ (by
      simp only [Geometry.region] at inside
      simp only [Geometry.behind]
      omega)).symm
  have extended : ∀ query, ring.region query → ring.extended query := fun _ inside => .inl inside
  have leftStatus := sectorStatus_blank (holds_store device.memory ring.behind (blanks 4))
  have rightHolds := holds_store device.memory ring.behind (sectorHeaderFor 0).bytes
  have rightIndex : (sectorWord (store device.memory ring.behind (sectorHeaderFor 0).bytes)
      ring.behind).getIndex = 0 := by
    rw [sectorWord_of_holds rightHolds, getIndex_sectorHeaderFor]
  have leftFormed := formed.congr (agree (blanks 4))
  have rightFormed := formed.congr (agree (sectorHeaderFor 0).bytes)
  -- the same check for the device's control block and for the one `rb_recreate` opens
  have leftCheck : ∀ rb, OnRing rb ring → ∃ rb', OnRing rb' ring ∧ rb'.sectorIndex =
      topIndex (indexOf cells) (List.range ring.sectors) rb.sectorIndex ∧
      (rbCheckSectorRing rb).Exec ring.extended
        (store device.memory ring.behind (blanks 4)) [] (.ok, rb') := fun rb on =>
    rbCheckSectorRing_rotated_exec on leftFormed.holds.carries.headersAre used' rotated rises
      fun good => by rw [leftStatus] at good; cases good
  have rightCheck : ∀ rb, OnRing rb ring → ∃ rb', OnRing rb' ring ∧ rb'.sectorIndex =
      topIndex (indexOf cells) (List.range ring.sectors) rb.sectorIndex ∧
      (rbCheckSectorRing rb).Exec ring.extended
        (store device.memory ring.behind (sectorHeaderFor 0).bytes) [] (.badHdr, rb') :=
    fun rb on => rbCheckSectorRing_harmed_exec on rightFormed.holds.carries.headersAre used'
      rotated rises (sectorStatus_of_holds rightHolds) fun index found => by
        rw [rightIndex]
        simp only [indexOf, cell, Option.map_some, Option.some.injEq] at found
        omega
  obtain ⟨leftRb, _, _, leftExec⟩ := leftCheck device.rb formed.on
  obtain ⟨rightRb, _, _, rightExec⟩ := rightCheck device.rb formed.on
  obtain ⟨checked, on, _, check⟩ := leftCheck (opened block ring) (onRing_opened block ring)
  obtain ⟨failed, _, _, fails⟩ := rightCheck (opened block ring) (onRing_opened block ring)
  obtain ⟨created, _, _, _, create⟩ := rbCreate_check_exec .createInitIfFail opens (by simp)
    leftFormed.holds.carries.headersAre extended on check
  have kept : entryStatus (indexOf cells 0) = .ok ∨ entryStatus (indexOf cells 0) = .blankHdr :=
    entryStatus_eq_ok_or _
  refine ⟨_, _, agree (blanks 4), agree (sectorHeaderFor 0).bytes, ⟨_, leftExec.result_eq⟩,
    ⟨_, rightExec.result_eq⟩, ?_, ?_⟩
  · exact (rbRecreate_kept_exec (.inr kept) create).writes_eq
  · exact (rbRecreate_bad_exec opens extended (by simp)
      (rbCreate_bad_exec opens (by simp) (by simp) fails)).writes_eq

/-- The overrunning check accesses the flash behind the ring. -/
theorem Overruns.leaves (overruns : Overruns ring cells) (formed : Formed ring device cells)
    (last : ∃ sector, cells (ring.sectors - 1) = some sector ∧ 0 < sector.index)
    {baseAddress numberOfSectors : Nat} (opens : Opens ring baseAddress numberOfSectors) :
    ¬∀ op ∈ (rbCheckSectorRing device.rb).trace device.memory, op.Within ring.region := by
  intro within
  obtain ⟨left, right, agreeLeft, agreeRight, ⟨_, passes⟩, ⟨_, fails⟩, _, _⟩ :=
    overruns.influenced formed last opens device.rb
  have inside := FlashProg.Ensures.of_trace_within within
  rw [FlashProg.result, ← inside.run_congr agreeLeft] at passes
  rw [FlashProg.result, ← inside.run_congr agreeRight, passes] at fails
  simp at fails

end Access

/-! ## A ring whose check overruns -/

end PicoApConfigure.RingBuffer
