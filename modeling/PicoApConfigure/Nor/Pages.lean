import PicoApConfigure.Nor.Program

/-!
# Page-wise programming

NOR flash is programmed in whole pages.  `pageWrites` is the list of page
programs that puts a byte range at any place: in each page the other bytes are
`0xff`, so they are left alone.  Its prefixes are what a power cut leaves behind,
and `Fresh` is the discipline of programming erased bytes only.
-/

namespace Nor

/-- A page that carries `chunk` at `offset` and erased bytes elsewhere. -/
def pageImage (pageSize offset : Nat) (chunk : List Byte) : List Byte :=
  blanks offset ++ chunk ++ blanks (pageSize - offset - chunk.length)

/-- The page programs that write `bytes` at `base + next`. -/
def pageWrites (pageSize base next : Nat) (bytes : List Byte) : List Op :=
  let room := pageSize - next % pageSize
  let head := Op.prog (base + pageSize * (next / pageSize))
    (pageImage pageSize (next % pageSize) (bytes.take room))
  if bytes.length ≤ room ∨ room = 0 then [head]
  else head :: pageWrites pageSize base (next + room) (bytes.drop room)
termination_by bytes.length
decreasing_by simp only [List.length_drop]; omega

/-- Every byte an operation of `ops` programs is erased at that moment. -/
def Fresh : List Op → Memory → Prop
  | [], _ => True
  | op :: ops, memory =>
      (∀ address bytes, op = .prog address bytes →
        ∀ offset (inBounds : offset < bytes.length), bytes[offset] ≠ blankByte →
          memory (address + offset) = blankByte) ∧ Fresh ops (op.apply memory)

/-- What is written stays, unless it is erased. -/
theorem Fresh.keeps {ops : List Op} {memory : Memory} (fresh : Fresh ops memory)
    {query : Nat} (written : memory query ≠ blankByte)
    (spared : ∀ op ∈ ops, op.isErase = true → ¬op.Touches query) :
    replay ops memory query = memory query := by
  induction ops generalizing memory with
  | nil => rfl
  | cons op ops ih =>
      obtain ⟨head, rest⟩ := fresh
      have kept : op.apply memory query = memory query := by
        cases op with
        | read address size => rfl
        | erase address size =>
            exact Op.apply_of_not_touches (spared _ (List.mem_cons_self ..) rfl)
        | prog address bytes =>
            by_cases touches : (Op.prog address bytes).Touches query
            · obtain ⟨offset, rfl⟩ := Nat.exists_eq_add_of_le touches.1
              have inBounds : offset < bytes.length := by
                have := touches.2
                omega
              have blank : bytes[offset] = blankByte := by
                by_contra nonblank
                exact written (head address bytes rfl offset inBounds nonblank)
              rw [Op.apply, program_at _ _ inBounds, blank]
              exact BitVec.and_allOnes
            · exact Op.apply_of_not_touches touches
      rw [replay_cons, ih rest (kept ▸ written) fun other member =>
        spared other (List.mem_cons_of_mem _ member), kept]

theorem program_blanks (memory : Memory) (address size : Nat) :
    program memory address (blanks size) = memory := by
  funext query
  by_cases inside : address ≤ query ∧ query < address + size
  · obtain ⟨offset, rfl⟩ := Nat.exists_eq_add_of_le inside.1
    rw [program_at _ _ (by rw [blanks_length]; omega), blanks_getElem]
    exact BitVec.and_allOnes
  · rcases not_and_or.mp inside with below | above
    · exact program_of_lt _ _ (by omega)
    · exact program_of_le _ _ (by rw [blanks_length]; omega)

@[simp] theorem pageImage_length {pageSize offset : Nat} {chunk : List Byte}
    (fits : offset + chunk.length ≤ pageSize) :
    (pageImage pageSize offset chunk).length = pageSize := by
  simp only [pageImage, List.length_append, blanks_length]
  omega

/-- Only the chunk of a page has an effect. -/
theorem program_pageImage (memory : Memory) (address pageSize offset : Nat)
    (chunk : List Byte) :
    program memory address (pageImage pageSize offset chunk) =
      program memory (address + offset) chunk := by
  rw [pageImage, program_append, program_append, program_blanks, program_blanks,
    blanks_length]

section PageWrites

variable {pageSize base : Nat}

private theorem pageStart (pageSize base next : Nat) :
    base + pageSize * (next / pageSize) + next % pageSize = base + next := by
  rw [Nat.add_assoc, Nat.div_add_mod]

/-- The page programs of a byte range program that range. -/
theorem replay_pageWrites (positive : 0 < pageSize) (next : Nat) (bytes : List Byte)
    (memory : Memory) :
    replay (pageWrites pageSize base next bytes) memory =
      program memory (base + next) bytes := by
  induction next, bytes using pageWrites.induct pageSize base generalizing memory with
  | case1 next bytes room last =>
      have fits : bytes.length ≤ pageSize - next % pageSize := by
        have := Nat.mod_lt next positive
        omega
      rw [pageWrites, if_pos last, List.take_of_length_le fits]
      rw [replay_cons, replay_nil, Op.apply, program_pageImage, pageStart]
  | case2 next bytes room more ih =>
      rw [pageWrites, if_neg more, replay_cons, ih, Op.apply, program_pageImage,
        pageStart]
      conv => rhs; rw [← List.take_append_drop room bytes, program_append]
      have taken : (bytes.take room).length = room := by
        simp only [List.length_take]
        omega
      rw [taken, Nat.add_assoc]

/-- What a prefix of the page programs leaves behind: a prefix of the bytes, cut at
a page boundary. -/
theorem replay_take_pageWrites (positive : 0 < pageSize) (next : Nat)
    (bytes : List Byte) (memory : Memory) (count : Nat) :
    ∃ cut ≤ bytes.length,
      replay ((pageWrites pageSize base next bytes).take count) memory =
        program memory (base + next) (bytes.take cut) ∧
      (cut = 0 ∨ cut = bytes.length ∨ (next + cut) % pageSize = 0) := by
  induction next, bytes using pageWrites.induct pageSize base generalizing memory count with
  | case1 next bytes room last =>
      cases count with
      | zero => exact ⟨0, by omega, by simp, .inl rfl⟩
      | succ count =>
          refine ⟨bytes.length, Nat.le_refl _, ?_, .inr (.inl rfl)⟩
          have whole : (pageWrites pageSize base next bytes).take (count + 1) =
              pageWrites pageSize base next bytes := by
            apply List.take_of_length_le
            rw [pageWrites, if_pos last]
            simp
          rw [whole, replay_pageWrites positive, List.take_length]
  | case2 next bytes room more ih =>
      have taken : (bytes.take room).length = room := by
        simp only [List.length_take]
        omega
      have roomEq : room = pageSize - next % pageSize := rfl
      cases count with
      | zero => exact ⟨0, by omega, by simp, .inl rfl⟩
      | succ count =>
          obtain ⟨cut, cutLe, equal, aligned⟩ := ih (program memory (base + next)
            (bytes.take room)) count
          simp only [List.length_drop] at cutLe aligned
          refine ⟨room + cut, by omega, ?_, ?_⟩
          · rw [pageWrites, if_neg more, List.take_succ_cons, replay_cons, Op.apply,
              program_pageImage, pageStart, equal, List.take_add, program_append, taken,
              Nat.add_assoc]
          · rcases aligned with zero | whole | aligned
            · right; right
              subst zero
              have remainder := Nat.mod_lt next positive
              have boundary : next + (room + 0) = pageSize * (next / pageSize + 1) := by
                have := Nat.div_add_mod next pageSize
                rw [Nat.mul_add]
                omega
              rw [boundary]
              exact Nat.mul_mod_right _ _
            · right; left; omega
            · right; right
              rwa [← Nat.add_assoc]

/-- Page programs touch only the pages of the range. -/
theorem pageWrites_touches (positive : 0 < pageSize) (next : Nat) (bytes : List Byte)
    {op : Op} (member : op ∈ pageWrites pageSize base next bytes) {query : Nat}
    (touches : op.Touches query) :
    base + pageSize * (next / pageSize) ≤ query ∧
      query < base + pageSize * ((next + (bytes.length - 1)) / pageSize + 1) := by
  induction next, bytes using pageWrites.induct pageSize base with
  | case1 next bytes room last =>
      rw [pageWrites, if_pos last, List.mem_singleton] at member
      subst op
      have remainder := Nat.mod_lt next positive
      have mono : next / pageSize ≤ (next + (bytes.length - 1)) / pageSize :=
        Nat.div_le_div_right (by omega)
      have scaled := Nat.mul_le_mul_left pageSize mono
      simp only [Op.Touches] at touches
      rw [pageImage_length (by simp only [List.length_take]; omega)] at touches
      rw [Nat.mul_add]
      omega
  | case2 next bytes room more ih =>
      rw [pageWrites, if_neg more, List.mem_cons] at member
      have remainder := Nat.mod_lt next positive
      have roomEq : room = pageSize - next % pageSize := rfl
      rcases member with head | tail
      · subst op
        have mono : next / pageSize ≤ (next + (bytes.length - 1)) / pageSize :=
          Nat.div_le_div_right (by omega)
        have scaled := Nat.mul_le_mul_left pageSize mono
        simp only [Op.Touches] at touches
        rw [pageImage_length (by simp only [List.length_take]; omega)] at touches
        rw [Nat.mul_add]
        omega
      · have inside := ih tail
        have mono : next / pageSize ≤ (next + room) / pageSize :=
          Nat.div_le_div_right (by omega)
        have scaled := Nat.mul_le_mul_left pageSize mono
        have lengths : next + room + ((bytes.drop room).length - 1) =
            next + (bytes.length - 1) := by
          simp only [List.length_drop]
          omega
        rw [lengths] at inside
        omega

theorem pageWrites_isErase (next : Nat) (bytes : List Byte) {op : Op}
    (member : op ∈ pageWrites pageSize base next bytes) : op.isErase = false := by
  induction next, bytes using pageWrites.induct pageSize base with
  | case1 next bytes room last =>
      rw [pageWrites, if_pos last, List.mem_singleton] at member
      subst op
      rfl
  | case2 next bytes room more ih =>
      rw [pageWrites, if_neg more, List.mem_cons] at member
      rcases member with rfl | tail
      · rfl
      · exact ih tail

end PageWrites

end Nor
