import PicoApConfigure.RingBuffer.Reach

/-!
# What an overwriting append destroys

An append programs erased bytes only.  It erases at most one sector, and then every
other sector is in use and newer.
-/

namespace PicoApConfigure.RingBuffer

open Nor

section Writes

variable {ring : Geometry} {memory : Memory} {cells changed : Nat → Option Sector} {k : Nat}
  {request : Request} {index index' : Nat} {writes : List Op} {status : RbError}

/-! ## Only erased bytes are programmed -/

theorem putWrites_isErase {offset : Nat} {header : RbHeader} {payload : List Byte} {op : Op}
    (member : op ∈ putWrites ring k offset header payload) : op.isErase = false := by
  rw [putWrites, List.mem_append] at member
  rcases member with head | rest
  · exact pageWrites_isErase _ _ head
  · exact pageWrites_isErase _ _ rest

theorem openWrites_isErase {header : RbHeader} {payload : List Byte} {op : Op}
    (member : op ∈ openWrites ring k index header payload) : op.isErase = false := by
  rw [openWrites, List.mem_append] at member
  rcases member with head | rest
  · exact pageWrites_isErase _ _ head
  · exact putWrites_isErase rest

variable {start start' : Nat} {log log' : List Sector} {eraseIfFull : Bool}

theorem Grows.isErase (grows : Grows ring start request index log writes log') {op : Op}
    (member : op ∈ writes) : op.isErase = false := by
  cases grows with
  | fresh => exact openWrites_isErase member
  | inside => exact putWrites_isErase member
  | split =>
      rcases List.mem_append.mp member with first | second
      · exact putWrites_isErase first
      · exact openWrites_isErase second
  | exact =>
      rcases List.mem_append.mp member with first | second
      · exact putWrites_isErase first
      · exact openWrites_isErase second

theorem Grows.erases_nil (grows : Grows ring start request index log writes log') :
    writes.filter Op.isErase = [] := by
  rw [List.filter_eq_nil_iff]
  intro op member
  rw [grows.isErase member]
  decide

/-- The erases of an append on the log. -/
theorem LogAppends.erases (outcome : LogAppends ring request eraseIfFull index start log writes
    status start' log') :
    writes.filter Op.isErase = [] ∨
      (log.length = ring.sectors ∧
        writes.filter Op.isErase = [.erase (ring.sectorAddr start) 4096]) := by
  cases outcome with
  | refused => exact .inl rfl
  | rejected => exact .inl rfl
  | dropped _ _ used _ => exact .inr ⟨used, rfl⟩
  | grown grows => exact .inl grows.erases_nil
  | replaced _ used _ grows =>
      refine .inr ⟨used, ?_⟩
      rw [List.filter_cons_of_pos rfl, grows.erases_nil]

end Writes

section Overwrite

variable {ring : Geometry} {cells : Nat → Option Sector} {start : Nat} {log : List Sector}
  {first device : Device} {events : List Event}

end Overwrite

/-! ## Two sectors: the newest record can lose its first piece -/

/-- The append of a request that succeeds. -/
def appendEvent (request : Request) (writes : List Op) : Event :=
  ⟨.append request.id request.data request.size (fun _ => 0) false, RbError.ok.code, writes⟩

/-- Behind a record of zeros the first bytes of the next one fill up the first sector and the other
ones go into the second. -/
theorem split_log {size first second : Nat} (positive : 0 < size)
    (short : (zeroRequest size positive).size ≤ 4088) (firstPos : 0 < first)
    (secondPos : 0 < second) (firstShort : first ≤ 4088) (secondShort : second ≤ 4088)
    (request : Request) (whole : request.size = 4088) (filled : size + 12 + first = 4096)
    (both : first + second = 4088) :
    ∃ before device cells cells' index index' writes writes' fits,
      CountedStep pairRing (Device.blank pairRing)
        (appendEvent (zeroRequest size positive) writes) before ∧
      CountedStep pairRing before (appendEvent request writes') device ∧
      writes.filter Op.isErase = [] ∧ writes'.filter Op.isErase = [] ∧
      InOrder pairRing before cells 0
        [Sector.single index ((zeroRequest size positive).whole short)] ∧
      Counted pairRing device cells' 0
        [(Sector.single index ((zeroRequest size positive).whole short)).push
          (request.head first firstPos firstShort) fits,
          Sector.single index' (request.tail second secondPos secondShort)] 2 ∧
      before.rb.next = 0 ∧ device.rb.next = 0 := by
  have blank := counted_blank pairRing (by decide)
  obtain ⟨index, writes, _, before, cells, _, _, _, _, one, outcome, counted, next⟩ := blank.append
    (by decide) ((zeroRequest size positive).fits_of_short pairRing short) (fun _ => 0) false
  have erases := outcome.erases.resolve_right fun used => absurd used.1 (by decide)
  rcases outcome.of_closed (by simp) short with ⟨_, rfl, rfl, rfl⟩ | ⟨used, _⟩ | ⟨used, _⟩
  rotate_left
  · exact absurd used (by decide)
  · exact absurd used (by decide)
  have used := single_zeroRequest_used index size positive short
  have room : (Sector.single index ((zeroRequest size positive).whole short)).isFull = false := by
    rw [Sector.not_isFull_iff, used]
    omega
  obtain ⟨index', writes', _, device, cells', _, _, _, _, two, outcome, counted', next'⟩ :=
    counted.append (by decide) (request.fits_of_short pairRing (by omega)) (fun _ => 0) false
  have erases' := outcome.erases.resolve_right fun used => absurd used.1 (by simp [pairRing])
  obtain ⟨rfl, rfl, first', second', _, _, _, _, fits, sizes, ends, rfl⟩ :=
    outcome.of_split room (by omega) (by rw [used]; omega) (by decide)
  rw [used] at ends
  obtain rfl : first' = first := by omega
  obtain rfl : second' = second := by omega
  exact ⟨before, device, cells, cells', index, index', writes, writes', fits, one, two, erases,
    erases', counted.inOrder, counted', next, next'.trans next⟩

end PicoApConfigure.RingBuffer
