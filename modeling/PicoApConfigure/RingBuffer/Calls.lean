import PicoApConfigure.Nor.Run
import PicoApConfigure.RingBuffer.Create
import PicoApConfigure.RingBuffer.Delete
import PicoApConfigure.RingBuffer.Ordered

/-!
# Calls of the interface

A device is a flash together with the control block of its user.  Every function of
`ring_buffer.h` is a call on a device; a step says that the call returns, with which
result and after which writes.  A call that never returns has no step.
-/

namespace PicoApConfigure.RingBuffer

open Nor

/-- Flash contents and the control block between two calls. -/
structure Device where
  rb : RbT
  memory : Memory

/-- `rb_t rb = {0};` -/
def RbT.zeroed : RbT where
  baseAddress := 0
  numberOfBytes := 0
  next := 0
  lastWrote := 0
  sectorIndex := 0
  rbPage := fun _ => 0

/-- A call with its arguments.  `rb_create` and `rb_recreate` may be given another control
block than the one in use. -/
inductive Call where
  | create (block : RbT) (baseAddress numberOfSectors : Nat) (choice : InitChoice)
  | recreate (block : RbT) (baseAddress numberOfSectors : Nat) (choice : InitChoice)
  | checkSectorRing
  | append (id : Byte) (data : Memory) (size : Nat) (pagebuffer : Memory)
      (eraseIfFull : Bool)
  | read (id : Byte) (data : Memory) (size : Nat)
  | find (id : Byte) (data : Memory) (size : Nat) (scratch : Memory)
  | delete (id : Byte) (data : Memory) (size : Nat) (pagebuffer : Memory)

namespace Call

/-- The code of a call; the returned buffers are left out. -/
def program (fuel : Nat) (rb : RbT) : Call → FlashProg (Int × RbT)
  | .create block baseAddress numberOfSectors choice => do
      let result ← rbCreate block baseAddress numberOfSectors choice
      return (result.1.code, result.2)
  | .recreate block baseAddress numberOfSectors choice => do
      let result ← rbRecreate block baseAddress numberOfSectors choice
      return (result.1.code, result.2)
  | .checkSectorRing => do
      let result ← rbCheckSectorRing rb
      return (result.1.code, result.2)
  | .append id data size pagebuffer eraseIfFull => do
      let result ← rbAppend fuel rb id data size pagebuffer eraseIfFull
      return (result.1.code, result.2)
  | .read id data size => do
      let result ← rbRead fuel rb id data size
      return (result.1, result.2.1)
  | .find id data size scratch => do
      let result ← rbFind fuel rb id data size scratch
      return (result.1, result.2.1)
  | .delete id data size pagebuffer => rbDelete fuel rb id data size pagebuffer

/-- Opening calls name the place of the ring. -/
def On (ring : Geometry) : Call → Prop
  | .create _ baseAddress numberOfSectors _ => Opens ring baseAddress numberOfSectors
  | .recreate _ baseAddress numberOfSectors _ => Opens ring baseAddress numberOfSectors
  | _ => True

/-- The call opens the ring. -/
def isOpening : Call → Bool
  | .create .. => true
  | .recreate .. => true
  | _ => false

end Call

/-- A call that has returned. -/
structure Event where
  call : Call
  result : Int
  writes : List Op

/-- The call of `event` takes the device from `before` to `after`. -/
structure Step (ring : Geometry) (before : Device) (event : Event) (after : Device) :
    Prop where
  place : event.call.On ring
  completes : FlashProg.Completes (fun _ => True)
    (fun fuel => event.call.program fuel before.rb) before.memory event.writes
    (event.result, after.rb)
  memory_eq : after.memory = replay event.writes before.memory

/-! ## Calls that only read

These facts need no assumption about the flash: they hold for a cursor that points
anywhere. -/

/-- Two control blocks opened on the same place. -/
def SamePlace (rb rb' : RbT) : Prop :=
  rb'.baseAddress = rb.baseAddress ∧ rb'.numberOfBytes = rb.numberOfBytes

theorem SamePlace.refl (rb : RbT) : SamePlace rb rb := ⟨rfl, rfl⟩

theorem SamePlace.trans {left middle right : RbT} (first : SamePlace left middle)
    (second : SamePlace middle right) : SamePlace left right :=
  ⟨second.1.trans first.1, second.2.trans first.2⟩

theorem SamePlace.onRing {rb rb' : RbT} {ring : Geometry} (same : SamePlace rb rb')
    (on : OnRing rb ring) : OnRing rb' ring :=
  ⟨same.1.trans on.base_eq, same.2.trans on.bytes_eq⟩

theorem fetchAndCheckHeader_quiet (rb : RbT) (jumpto : Int) :
    (fetchAndCheckHeader rb jumpto).Quiet fun result => SamePlace rb result.2.2 := by
  rw [fetchAndCheckHeader]
  refine (FlashProg.Quiet.check _).bind fun _ _ => ?_
  refine (FlashProg.Quiet.readBytes _ _).bind fun word _ => ?_
  dsimp only
  split
  · split
    · exact .pure (SamePlace.refl rb)
    · exact (FlashProg.Quiet.readBytes _ _).bind fun word _ => .pure ⟨rfl, rfl⟩
  · exact .pure (SamePlace.refl rb)

private theorem readContinuation_quiet
    {again : Nat → RbT → Memory → Nat → Nat → FlashProg (Int × RbT × Memory)}
    (nested : ∀ orignext rb data offset size,
      (again orignext rb data offset size).Quiet fun result => SamePlace rb result.2.1)
    (id : Byte) (rb : RbT) (data : Memory) (offset readSize remaining : Nat) :
    (readContinuation again id rb data offset readSize remaining).Quiet
      fun result => SamePlace rb result.2.1 := by
  rw [readContinuation]
  split
  · refine (fetchAndCheckHeader_quiet rb 0).bind ?_
    rintro ⟨status, header, rb'⟩ same
    dsimp only
    split
    · exact .pure same
    · split
      · split
        · exact .pure same
        · refine (nested _ _ _ _ _).bind fun result later => ?_
          exact .pure (same.trans later)
      · exact .pure same
  · exact .pure (SamePlace.refl rb)

private theorem rbReadLoop_quiet (id : Byte) (fuel : Nat) :
    ∀ (orignext : Nat) (rb : RbT) (data : Memory) (offset size : Nat),
      (rbReadLoop id fuel orignext rb data offset size).Quiet
        fun result => SamePlace rb result.2.1 := by
  induction fuel with
  | zero => intros; exact .stuck
  | succ fuel ih =>
      intro orignext rb data offset size
      simp only [rbReadLoop]
      refine (fetchAndCheckHeader_quiet rb 0).bind fun result same => ?_
      split
      · exact .pure same
      · split
        · split
          · exact .pure same
          · exact (ih _ _ _ _ _).mono fun value later => same.trans later
        · refine (FlashProg.Quiet.readBytes _ _).bind fun bytes _ => ?_
          exact (readContinuation_quiet ih _ _ _ _ _ _).mono fun value later => same.trans later

theorem rbRead_quiet (fuel : Nat) (rb : RbT) (id : Byte) (data : Memory) (size : Nat) :
    (rbRead fuel rb id data size).Quiet fun result => SamePlace rb result.2.1 := by
  rw [rbRead]
  split
  · exact .pure (SamePlace.refl rb)
  · exact rbReadLoop_quiet id fuel _ rb data 0 size

private theorem rbFindLoop_quiet (id : Byte) (data : Memory) (size orignext fuel : Nat) :
    ∀ (rb : RbT) (scratch : Memory),
      (rbFindLoop id data size orignext fuel rb scratch).Quiet
        fun result => SamePlace rb result.2.1 := by
  induction fuel with
  | zero => intros; exact .stuck
  | succ fuel ih =>
      intro rb scratch
      simp only [rbFindLoop]
      refine (fetchAndCheckHeader_quiet rb 0).bind fun result same => ?_
      split
      · exact .pure same
      · split
        · split
          · exact .pure same
          · exact (ih _ _).mono fun value later => same.trans later
        · refine (rbRead_quiet _ _ _ _ _).bind fun result later => ?_
          split
          · split
            · exact .pure (same.trans later)
            · exact (ih _ _).mono fun value last => (same.trans later).trans last
          · exact .pure (same.trans later)

theorem rbFind_quiet (fuel : Nat) (rb : RbT) (id : Byte) (data : Memory) (size : Nat)
    (scratch : Memory) :
    (rbFind fuel rb id data size scratch).Quiet fun result => SamePlace rb result.2.1 := by
  rw [rbFind]
  split
  · exact .pure (SamePlace.refl rb)
  · exact rbFindLoop_quiet id data size _ fuel rb scratch

private theorem findRingOldestLoop_quiet (remaining : Nat) :
    ∀ (oldnext oldest : Nat) (status : RbError) (rb : RbT),
      (findRingOldestLoop remaining oldnext oldest status rb).Quiet
        fun result => SamePlace rb result.2 := by
  induction remaining with
  | zero => intros; exact .pure ⟨rfl, rfl⟩
  | succ remaining ih =>
      intro oldnext oldest status rb
      simp only [findRingOldestLoop]
      refine (FlashProg.Quiet.readBytes _ _).bind fun word _ => ?_
      split
      · refine (ih _ _ _ _).mono fun value later => SamePlace.trans ?_ later
        split <;> exact ⟨rfl, rfl⟩
      · split
        · exact (ih _ _ _ _).mono fun value later => later
        · exact .pure ⟨rfl, rfl⟩

theorem rbFindRingOldestSector_quiet (rb : RbT) :
    (rbFindRingOldestSector rb).Quiet fun result => SamePlace rb result.2 :=
  findRingOldestLoop_quiet _ _ _ _ _

private theorem checkHeadersLoop_quiet (remaining : Nat) :
    ∀ (i blankcount last : Nat) (status : RbError) (rb : RbT),
      status = .ok ∨ status = .badHdr →
      (checkHeadersLoop remaining i blankcount last status rb).Quiet
        fun result => SamePlace rb result.2.2.2 ∧
          (result.2.2.1 = .ok ∨ result.2.2.1 = .badHdr) := by
  induction remaining with
  | zero =>
      intro _ _ _ _ _ known
      exact .pure ⟨SamePlace.refl _, known⟩
  | succ remaining ih =>
      intro i blankcount last status rb known
      simp only [checkHeadersLoop]
      refine (FlashProg.Quiet.readBytes _ _).bind fun word _ => ?_
      split
      · refine (ih _ _ _ _ _ known).mono fun value later => ⟨SamePlace.trans ?_ later.1, later.2⟩
        split <;> exact ⟨rfl, rfl⟩
      · split
        · exact (ih _ _ _ _ _ known).mono fun value later => later
        · exact (ih _ _ _ _ _ (.inr rfl)).mono fun value later => later

private theorem checkOrderLoop_quiet (last remaining : Nat) :
    ∀ (i low : Nat) (rb : RbT), (checkOrderLoop last remaining i low rb).Quiet
      fun result => SamePlace rb result.2 ∧ (result.1 = .ok ∨ result.1 = .badHdr) := by
  induction remaining with
  | zero => intros; exact .pure ⟨SamePlace.refl _, .inl rfl⟩
  | succ remaining ih =>
      intro i low rb
      simp only [checkOrderLoop]
      refine (FlashProg.Quiet.readBytes _ _).bind fun word _ => ?_
      split
      · split
        · exact .pure ⟨⟨rfl, rfl⟩, .inr rfl⟩
        · exact (ih _ _ _).mono fun value later => later
      · exact .pure ⟨⟨rfl, rfl⟩, .inl rfl⟩

theorem rbCheckSectorRing_quiet (rb : RbT) :
    (rbCheckSectorRing rb).Quiet fun result =>
      SamePlace rb result.2 ∧ (result.1 = .ok ∨ result.1 = .badHdr) := by
  rw [rbCheckSectorRing]
  refine (checkHeadersLoop_quiet _ _ _ _ _ _ (.inl rfl)).bind ?_
  rintro ⟨blankcount, last, status, rb'⟩ ⟨same, known⟩
  have order : ∀ (last : Nat) (rb'' : RbT), SamePlace rb rb'' →
      FlashProg.Quiet (fun result => SamePlace rb result.2 ∧
          (result.1 = .ok ∨ result.1 = .badHdr))
        (if status = .ok then
          checkOrderLoop last (rb.numberOfBytes / flashSectorSize) 0 0 rb''
        else pure (status, rb'')) := by
    intro last rb'' same
    split
    · exact (checkOrderLoop_quiet _ _ _ _ _).mono fun value later =>
        ⟨same.trans later.1, later.2⟩
    · exact .pure ⟨same, known⟩
  dsimp only
  split
  · refine (rbFindRingOldestSector_quiet rb').bind ?_
    rintro ⟨_, found⟩ later
    exact order _ _ (same.trans later)
  · exact order _ _ same

/-! ## Opening calls -/

theorem eraseRange_eraseRange (memory : Memory) (address size : Nat) :
    eraseRange (eraseRange memory address size) address size =
      eraseRange memory address size := by
  funext query
  simp only [eraseRange]
  split <;> rfl

/-- What is known after an opening call: the ring is as it was, or erased. -/
def CreatePost (ring : Geometry) (memory : Memory) (result : RbError × RbT) (final : Memory) :
    Prop :=
  OnRing result.2 ring ∧
    (final = memory ∨ final = eraseRange memory ring.base (4096 * ring.sectors))

section Opening

variable {ring : Geometry} {memory : Memory} {baseAddress numberOfSectors : Nat}

theorem rbCreate_ensures (opens : Opens ring baseAddress numberOfSectors) (rb : RbT)
    (choice : InitChoice) :
    (rbCreate rb baseAddress numberOfSectors choice).Ensures (fun _ _ => True)
      (CreatePost ring memory) memory := by
  by_cases always : choice = .createInitAlways
  · subst always
    refine (rbCreate_always_exec opens rb).ensures.mono (fun _ _ _ => trivial) ?_
    rintro _ _ ⟨rfl, rfl⟩
    exact ⟨onRing_opened rb ring, .inr rfl⟩
  rw [rbCreate_eq opens, if_neg always]
  refine ((rbCheckSectorRing_quiet (opened rb ring)) memory).mono (fun _ _ _ => trivial)
    (fun _ _ kept => kept) |>.bind ?_
  rintro ⟨status, checked⟩ final ⟨same, place, _⟩
  subst same
  have on := place.onRing (onRing_opened rb ring)
  dsimp only
  split
  · refine ((rbFindRingOldestSector_quiet checked) final).mono (fun _ _ _ => trivial) ?_
    rintro _ _ ⟨rfl, later⟩
    exact ⟨later.onRing on, .inl rfl⟩
  · exact ⟨on, .inl rfl⟩

theorem rbRecreate_ensures (opens : Opens ring baseAddress numberOfSectors) (rb : RbT)
    (choice : InitChoice) :
    (rbRecreate rb baseAddress numberOfSectors choice).Ensures (fun _ _ => True)
      (CreatePost ring memory) memory := by
  rw [rbRecreate]
  refine (rbCreate_ensures opens rb choice).bind ?_
  rintro ⟨status, created⟩ final ⟨on, contents⟩
  dsimp only
  split
  · refine (rbCreate_ensures opens created .createInitAlways).mono (fun _ _ _ => trivial) ?_
    rintro result last ⟨on', contents'⟩
    refine ⟨on', ?_⟩
    rcases contents with rfl | rfl
    · exact contents'
    · rw [eraseRange_eraseRange] at contents'
      exact .inr (or_self_iff.mp contents')
  · exact ⟨on, contents⟩

end Opening

/-! ## Effect of a call on the array of sectors -/

/-- The arguments `rb_append` does not refuse outright. -/
def Accepted (ring : Geometry) (id : Byte) (size : Nat) : Prop :=
  0 < size ∧ id ≠ 0xff ∧ size + 4 ≤ 4096 * ring.sectors

theorem rbAppend_refused {rb : RbT} {ring : Geometry} (on : OnRing rb ring) {id : Byte}
    {size : Nat} (refused : ¬Accepted ring id size) (fuel : Nat) (data pagebuffer : Memory)
    (eraseIfFull : Bool) :
    rbAppend fuel rb id data size pagebuffer eraseIfFull = pure (.badCallerData, rb) := by
  have positive := ring.sectors_pos
  rw [rbAppend, if_pos]
  by_contra kept
  simp only [not_or, on.bytes_eq, headerSize] at kept
  exact refused ⟨by omega, kept.2.1, by omega⟩

/-- What a call that has returned did to the array of sectors; `index` is the index counter
it started with. -/
inductive Effect (ring : Geometry) (cells : Nat → Option Sector) (index : Nat) :
    Event → (Nat → Option Sector) → Prop
  | kept {event : Event} (quiet : ∀ id data size page erase,
      event.call ≠ .append id data size page erase) : Effect ring cells index event cells
  | erased {event : Event} (opening : event.call.isOpening = true) :
      Effect ring cells index event fun _ => none
  | rejected {id : Byte} {data pagebuffer : Memory} {size : Nat} {eraseIfFull : Bool}
      (refused : ¬Accepted ring id size) :
      Effect ring cells index
        ⟨.append id data size pagebuffer eraseIfFull, RbError.badCallerData.code, []⟩ cells
  | appended {request : Request} {pagebuffer : Memory} {eraseIfFull : Bool}
      {writes : List Op} {status : RbError} {changed : Nat → Option Sector} {index' : Nat}
      (fits : request.Fits ring)
      (appends : Appends ring request eraseIfFull cells index writes status changed index') :
      Effect ring cells index
        ⟨.append request.id request.data request.size pagebuffer eraseIfFull, status.code,
          writes⟩ changed
  | smudged {id : Byte} {data pagebuffer : Memory} {size : Nat} {result : Int}
      {writes : List Op} {changed : Nat → Option Sector} (smudges : Smudges ring cells changed) :
      Effect ring cells index ⟨.delete id data size pagebuffer, result, writes⟩ changed

section Effects

variable {ring : Geometry} {cells : Nat → Option Sector} {before after : Device}
  {event : Event} {result : Int} {writes : List Op}

/-- `rb_append` in a run. -/
theorem Step.append {id : Byte} {data pagebuffer : Memory} {size : Nat} {eraseIfFull : Bool}
    (step : Step ring before ⟨.append id data size pagebuffer eraseIfFull, result, writes⟩ after)
    (on : OnRing before.rb ring) (holds : RingHolds before.memory ring cells)
    (filled : Filled ring cells) :
    (¬Accepted ring id size ∧ result = RbError.badCallerData.code ∧ writes = [] ∧
        after = before) ∨
      ∃ (request : Request) (status : RbError) (changed : Nat → Option Sector),
        request.id = id ∧ request.data = data ∧ request.size = size ∧ request.Fits ring ∧
        result = status.code ∧ RingHolds after.memory ring changed ∧
        OnRing after.rb ring ∧ after.rb.next = before.rb.next ∧
        Appends ring request eraseIfFull cells before.rb.sectorIndex writes status changed
          after.rb.sectorIndex := by
  by_cases accepted : Accepted ring id size
  · right
    obtain ⟨sizePos, idNe, fits⟩ := accepted
    obtain ⟨writes', status, changed, index', appends⟩ := Appends.exists
      ⟨id, data, size, idNe, sizePos⟩ eraseIfFull cells before.rb.sectorIndex
    obtain ⟨rb', on', next, index, completes⟩ :=
      rbAppend_completes ⟨id, data, size, idNe, sizePos⟩ on holds filled fits
        appends pagebuffer
    obtain ⟨rfl, value⟩ := step.completes.unique
      (completes.map fun result => (result.1.code, result.2))
    obtain ⟨rfl, rfl⟩ := Prod.mk.injEq .. ▸ value
    refine ⟨⟨id, data, size, idNe, sizePos⟩, status, changed, rfl, rfl, rfl, fits, rfl, ?_, on',
      next, ?_⟩
    · rw [step.memory_eq]
      exact appends.holds holds
    · rw [index]
      exact appends
  · left
    have returns : FlashProg.Completes (fun _ => True) (fun fuel => rbAppend fuel before.rb id
        data size pagebuffer eraseIfFull) before.memory [] (.badCallerData, before.rb) := by
      simp only [rbAppend_refused on accepted]
      exact (FlashProg.Exec.pure _).completes
    obtain ⟨rfl, value⟩ := step.completes.unique
      (returns.map fun result => (result.1.code, result.2))
    have memory := step.memory_eq
    simp only [Prod.mk.injEq] at value
    obtain ⟨afterRb, afterMemory⟩ := after
    obtain ⟨beforeRb, beforeMemory⟩ := before
    simp only [replay_nil] at memory value
    rw [memory, value.2]
    exact ⟨accepted, value.1, rfl, rfl⟩

/-- Every call on a formed ring leaves a formed ring. -/
theorem Step.effect (step : Step ring before event after)
    (on : event.call.isOpening = false → OnRing before.rb ring)
    (holds : RingHolds before.memory ring cells) (filled : Filled ring cells) :
    ∃ changed, Effect ring cells before.rb.sectorIndex event changed ∧
      RingHolds after.memory ring changed ∧ OnRing after.rb ring := by
  have memory := step.memory_eq
  have place := step.place
  have completes := step.completes
  -- opening calls keep the ring or erase it
  have opening : ∀ {result : RbError × RbT}, event.call.isOpening = true →
      (∀ id data size page erase, event.call ≠ .append id data size page erase) →
      CreatePost ring before.memory result after.memory → result.2 = after.rb →
      ∃ changed, Effect ring cells before.rb.sectorIndex event changed ∧
        RingHolds after.memory ring changed ∧ OnRing after.rb ring := by
    rintro result opens other ⟨on', kept | erased⟩ equal
    · exact ⟨cells, .kept other, by rw [kept]; exact holds, equal ▸ on'⟩
    · refine ⟨fun _ => none, .erased opens, ?_, equal ▸ on'⟩
      rw [erased]
      exact ringBlank_erase ring before.memory
  obtain ⟨call, result, writes⟩ := event
  cases call with
  | create block baseAddress numberOfSectors choice =>
      have post := FlashProg.Ensures.of_completes
        (fun _ => @FlashProg.Ensures.map _ _ _ _ _ (fun value final => ∃ status : RbError,
          CreatePost ring before.memory (status, value.2) final)
          (fun result : RbError × RbT => (result.1.code, result.2))
          ((rbCreate_ensures place block choice).mono (fun _ _ kept => kept)
          fun value final kept => ⟨value.1, kept⟩)) completes
      obtain ⟨status, post⟩ := post
      rw [← memory] at post
      exact opening rfl (by simp) post rfl
  | recreate block baseAddress numberOfSectors choice =>
      have post := FlashProg.Ensures.of_completes
        (fun _ => @FlashProg.Ensures.map _ _ _ _ _ (fun value final => ∃ status : RbError,
          CreatePost ring before.memory (status, value.2) final)
          (fun result : RbError × RbT => (result.1.code, result.2))
          ((rbRecreate_ensures place block choice).mono (fun _ _ kept => kept)
          fun value final kept => ⟨value.1, kept⟩)) completes
      obtain ⟨status, post⟩ := post
      rw [← memory] at post
      exact opening rfl (by simp) post rfl
  | checkSectorRing =>
      obtain ⟨same, kept⟩ := FlashProg.Quiet.of_completes (fun fuel =>
        @FlashProg.Quiet.bind _ _ _ _ _ (fun value : Int × RbT => SamePlace before.rb value.2)
        (rbCheckSectorRing_quiet before.rb) fun value same => .pure same.1) completes
      rw [memory, same]
      exact ⟨cells, .kept (by simp), holds, kept.onRing (on rfl)⟩
  | append id data size pagebuffer eraseIfFull =>
      rcases step.append (on rfl) holds filled with
        ⟨refused, rfl, rfl, rfl⟩ |
          ⟨request, status, changed, rfl, rfl, rfl, fits, rfl, holds', on', _, appends⟩
      · exact ⟨cells, .rejected refused, holds, on rfl⟩
      · exact ⟨changed, .appended fits appends, holds', on'⟩
  | read id data size =>
      obtain ⟨same, kept⟩ := FlashProg.Quiet.of_completes (fun fuel =>
        @FlashProg.Quiet.bind _ _ _ _ _ (fun value : Int × RbT => SamePlace before.rb value.2)
        (rbRead_quiet fuel before.rb id data size) fun value same => .pure same) completes
      rw [memory, same]
      exact ⟨cells, .kept (by simp), holds, kept.onRing (on rfl)⟩
  | find id data size scratch =>
      obtain ⟨same, kept⟩ := FlashProg.Quiet.of_completes (fun fuel =>
        @FlashProg.Quiet.bind _ _ _ _ _ (fun value : Int × RbT => SamePlace before.rb value.2)
        (rbFind_quiet fuel before.rb id data size scratch) fun value same => .pure same) completes
      rw [memory, same]
      exact ⟨cells, .kept (by simp), holds, kept.onRing (on rfl)⟩
  | delete id data size pagebuffer =>
      have post := FlashProg.Ensures.of_completes (fun fuel =>
        rbDelete_ensures (on rfl) holds fuel data size pagebuffer) completes
      rw [← memory] at post
      rcases post.contents with same | ⟨changed, smudges, holds'⟩
      · rw [same]
        exact ⟨cells, .kept (by simp), holds, post.on⟩
      · exact ⟨changed, .smudged smudges, holds', post.on⟩

theorem Smudges.filled {changed : Nat → Option Sector} (smudges : Smudges ring cells changed)
    (filled : Filled ring cells) : Filled ring changed := by
  cases smudges with
  | mk inRing cell frags => exact filled.setCell_some _ (by simp [Sector.smudge])

theorem Effect.filled {changed : Nat → Option Sector} {index : Nat}
    (effect : Effect ring cells index event changed) (filled : Filled ring cells) :
    Filled ring changed := by
  cases effect with
  | kept => exact filled
  | erased => intro _ _ _ impossible; cases impossible
  | rejected => exact filled
  | appended _ appends => exact appends.filled filled
  | smudged smudges => exact smudges.filled filled

end Effects

end PicoApConfigure.RingBuffer
