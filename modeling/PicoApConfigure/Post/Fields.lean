import PicoApConfigure.Post.Decode

/-!
# Finding the fields of a form

A name with its `=` stands in a form at the place of its field and nowhere else, because a value
contains no `=`.  A piece of the body therefore shows a field only if it contains the whole name.
-/

namespace PicoApConfigure.Post

open Nor FlashIo

/-- `name` stands at offset `k` of the chain. -/
def Occurs (name : List Byte) (p : Pbuf) (k : Nat) : Prop := name <+: p.drop k

/-- What lwIP documents of the two functions, for chains of less than 64 KiB. -/
structure PbufLib.Lawful (lib : PbufLib) : Prop where
  memfind_found : ∀ (p : Pbuf) (mem : List Byte) (startOffset k : Nat), p.length < 0x10000 →
    mem ≠ [] → startOffset ≤ k → Occurs mem p k →
    (∀ j, startOffset ≤ j → j < k → ¬Occurs mem p j) → lib.memfind p mem startOffset = k
  memfind_absent : ∀ (p : Pbuf) (mem : List Byte) (startOffset : Nat), p.length < 0x10000 →
    mem ≠ [] → (∀ j, startOffset ≤ j → ¬Occurs mem p j) → lib.memfind p mem startOffset = 0xffff
  contiguous_refused : ∀ (p : Pbuf) (buffer : Memory) (bufsize len offset : Nat), bufsize < len →
    lib.getContiguous p buffer bufsize len offset = none
  contiguous_fetched : ∀ (p : Pbuf) (buffer : Memory) (bufsize len offset : Nat),
    p.length < 0x10000 → len ≤ bufsize → offset < p.length → offset + len ≤ p.length →
    ∃ fetched, lib.getContiguous p buffer bufsize len offset = some fetched ∧
      Holds fetched 0 ((p.drop offset).take len)

/-! ## Occurrences -/

section Occurrences

variable {name stem : List Byte} {last : Byte} {p : Pbuf} {k : Nat}

theorem occurs_iff : name.isPrefixOf (p.drop k) ↔ Occurs name p k :=
  List.isPrefixOf_iff_prefix

theorem Occurs.split (occurs : Occurs name p k) (nonempty : name ≠ []) :
    ∃ front back, p = front ++ (name ++ back) ∧ front.length = k := by
  obtain ⟨back, rest⟩ := occurs
  have inside : k < p.length := by
    by_contra behind
    rw [List.drop_eq_nil_of_le (Nat.le_of_not_lt behind)] at rest
    exact nonempty (List.append_eq_nil_iff.mp rest).1
  refine ⟨p.take k, back, ?_, ?_⟩
  · rw [rest, List.take_append_drop]
  · rw [List.length_take, Nat.min_eq_left (Nat.le_of_lt inside)]

theorem occurs_append (front name back : List Byte) :
    Occurs name (front ++ (name ++ back)) front.length := by
  rw [Occurs, List.drop_left]
  exact List.prefix_append _ _

/-- What stands in a piece stands in the body. -/
theorem Occurs.enclosed (front back : List Byte) (occurs : Occurs name p k)
    (nonempty : name ≠ []) : Occurs name (front ++ p ++ back) (front.length + k) ∧
      k + name.length ≤ p.length := by
  obtain ⟨before, behind, rfl, rfl⟩ := occurs.split nonempty
  refine ⟨?_, by simp⟩
  have shape := occurs_append (front ++ before) name (behind ++ back)
  rw [List.length_append] at shape
  simpa [List.append_assoc] using shape

/-- Where an element that does not occur before it stands. -/
theorem append_cons_cases {α : Type} {left right left' right' : List α} {x : α}
    (equal : left ++ x :: right = left' ++ x :: right') (absent : x ∉ left') :
    (left = left' ∧ right = right') ∨
      ∃ between, left = left' ++ x :: between ∧ right' = between ++ x :: right := by
  rcases List.append_eq_append_iff.mp equal with ⟨between, rest, cons⟩ | ⟨between, rest, cons⟩
  · cases between with
    | nil =>
        rw [List.append_nil] at rest
        rw [List.nil_append, List.cons.injEq] at cons
        exact .inl ⟨rest.symm, cons.2⟩
    | cons first between =>
        rw [List.cons_append, List.cons.injEq] at cons
        rw [rest, ← cons.1] at absent
        simp at absent
  · cases between with
    | nil =>
        rw [List.append_nil] at rest
        rw [List.nil_append, List.cons.injEq] at cons
        exact .inl ⟨rest, cons.2.symm⟩
    | cons first between =>
        rw [List.cons_append, List.cons.injEq] at cons
        exact .inr ⟨between, by rw [rest, cons.1], cons.2⟩

/-- A name and its `=` are those of the first field or lie behind it. -/
theorem name_cases {front field back rest : List Byte} {fieldLast : Byte}
    (equal : front ++ [last] ++ 0x3d :: back = field ++ [fieldLast] ++ 0x3d :: rest)
    (absent : (0x3d : Byte) ∉ field ++ [fieldLast]) (other : last ≠ 0x3d) :
    (last = fieldLast ∧ front.length = field.length) ∨
      ∃ between, front.length = field.length + 2 + between.length ∧
        between ++ [last] ++ 0x3d :: back = rest := by
  rcases append_cons_cases equal absent with ⟨same, -⟩ | ⟨between, longer, rfl⟩
  · obtain ⟨rfl, ends⟩ := List.append_inj' same rfl
    exact .inl ⟨List.singleton_inj.mp ends, rfl⟩
  · rcases List.eq_nil_or_concat between with rfl | ⟨between, final, rfl⟩
    · obtain ⟨-, ends⟩ := List.append_inj' longer rfl
      exact absurd (List.singleton_inj.mp ends) other
    · rw [List.concat_eq_append, ← List.cons_append, ← List.append_assoc] at longer
      obtain ⟨rfl, ends⟩ := List.append_inj' longer rfl
      obtain rfl := List.singleton_inj.mp ends
      exact .inr ⟨between, by simp; omega, by rw [List.concat_eq_append]⟩

end Occurrences

/-! ## Forms -/

/-- A form: the credentials of a network with the name of the device, or the name alone. -/
inductive Form where
  | credentials (ssid pass host : List Byte)
  | config (value : List Byte)

namespace Form

/-- The body that the browser sends. -/
def body : Form → List Byte
  | .credentials ssid pass host =>
      chars "ssid=" ++ ssid ++ chars "&pass=" ++ pass ++ chars "&host=" ++ host
  | .config value => chars "config=" ++ value

/-- The values in the order of the fields. -/
def values : Form → List (List Byte)
  | .credentials ssid pass host => [ssid, pass, host]
  | .config value => [value]

/-- No value contains a character that ends a name or a value. -/
def Plain (form : Form) : Prop :=
  ∀ value ∈ form.values, ∀ char ∈ value, char ≠ 0x26 ∧ char ≠ 0x3d

end Form

theorem not_mem_field {value name last : List Byte} {char : Byte} (absent : char ∉ value)
    (absentName : char ∉ name ++ last) : char ∉ value ++ name ++ last := by
  rw [List.append_assoc, List.mem_append]
  exact not_or.mpr ⟨absent, absentName⟩

section Places

variable {ssid pass host value stem : List Byte} {last : Byte} {k : Nat}

/-- Where a name can stand in a form with credentials. -/
theorem occurs_credentials (plain : (Form.credentials ssid pass host).Plain)
    (other : last ≠ 0x3d)
    (occurs : Occurs (stem ++ [last, 0x3d]) (Form.credentials ssid pass host).body k) :
    (last = 0x64 ∧ k + stem.length = 3) ∨ (last = 0x73 ∧ k + stem.length = ssid.length + 9) ∨
      (last = 0x74 ∧ k + stem.length = ssid.length + pass.length + 15) := by
  have noName : ∀ value ∈ (Form.credentials ssid pass host).values, (0x3d : Byte) ∉ value :=
    fun value member inside => (plain value member _ inside).2 rfl
  obtain ⟨front, back, shape, rfl⟩ := occurs.split (by simp)
  have first : front ++ stem ++ [last] ++ 0x3d :: back = chars "ssi" ++ [0x64] ++
      0x3d :: (ssid ++ chars "&pas" ++ [0x73] ++ 0x3d :: (pass ++ chars "&hos" ++ [0x74] ++
        0x3d :: host)) := by
    have body : (Form.credentials ssid pass host).body = chars "ssi" ++ [0x64] ++
        0x3d :: (ssid ++ chars "&pas" ++ [0x73] ++ 0x3d :: (pass ++ chars "&hos" ++ [0x74] ++
          0x3d :: host)) := by
      rw [Form.body, show chars "ssid=" = chars "ssi" ++ [0x64, 0x3d] from rfl,
        show chars "&pass=" = chars "&pas" ++ [0x73, 0x3d] from rfl,
        show chars "&host=" = chars "&hos" ++ [0x74, 0x3d] from rfl]
      simp
    rw [← body, shape]
    simp
  have absentSsid : (0x3d : Byte) ∉ ssid := noName ssid (by simp [Form.values])
  have absentPass : (0x3d : Byte) ∉ pass := noName pass (by simp [Form.values])
  have absentHost : (0x3d : Byte) ∉ host := noName host (by simp [Form.values])
  rcases name_cases first (by decide) other with ⟨isD, place⟩ | ⟨between, place, second⟩
  · refine .inl ⟨isD, ?_⟩
    rw [List.length_append] at place
    exact place
  rw [List.length_append, show (chars "ssi").length = 3 from rfl] at place
  rcases name_cases second (not_mem_field absentSsid (by decide)) other with
    ⟨isS, place'⟩ | ⟨between', place', third⟩
  · refine .inr (.inl ⟨isS, ?_⟩)
    rw [List.length_append, show (chars "&pas").length = 4 from rfl] at place'
    omega
  rw [List.length_append, show (chars "&pas").length = 4 from rfl] at place'
  rcases name_cases third (not_mem_field absentPass (by decide)) other with
    ⟨isT, place''⟩ | ⟨between'', -, value⟩
  · refine .inr (.inr ⟨isT, ?_⟩)
    rw [List.length_append, show (chars "&hos").length = 4 from rfl] at place''
    omega
  · rw [← value] at absentHost
    simp at absentHost

/-- Where a name can stand in a form with a name only. -/
theorem occurs_config (plain : (Form.config value).Plain) (other : last ≠ 0x3d)
    (occurs : Occurs (stem ++ [last, 0x3d]) (Form.config value).body k) :
    last = 0x67 ∧ k + stem.length = 5 := by
  have absent : (0x3d : Byte) ∉ value :=
    fun inside => (plain value (by simp [Form.values]) _ inside).2 rfl
  obtain ⟨front, back, shape, rfl⟩ := occurs.split (by simp)
  have first : front ++ stem ++ [last] ++ 0x3d :: back = chars "confi" ++ [0x67] ++
      0x3d :: value := by
    have body : (Form.config value).body = chars "confi" ++ [0x67] ++ 0x3d :: value := by
      rw [Form.body, show chars "config=" = chars "confi" ++ [0x67, 0x3d] from rfl]
      simp
    rw [← body, shape]
    simp
  rcases name_cases first (by decide) other with ⟨isG, place⟩ | ⟨between, -, rest⟩
  · refine ⟨isG, ?_⟩
    rw [List.length_append] at place
    exact place
  · rw [← rest] at absent
    simp at absent

end Places

/-! ## What `check_field` returns -/

/-- A value of a length that the handler accepts. -/
def Accepts (value : List Byte) : Prop := value.length > 0 ∧ value.length < postBufsize

instance (value : List Byte) : Decidable (Accepts value) := inferInstanceAs (Decidable (_ ∧ _))

/-- Where `check_field` says that a field is: at its name if the value is empty or too long. -/
def fieldOffset (nameLength : Nat) (value : List Byte) (nameOffset : Nat) : Nat :=
  if Accepts value then nameOffset + nameLength else nameOffset

section CheckField

variable {lib : PbufLib} {stem : List Byte} {last : Byte} {p : Pbuf}

theorem findIdx_name {name : List Byte} (noEnd : (0x3d : Byte) ∉ name) (tail : List Byte) :
    (name ++ 0x3d :: tail).findIdx? (· = 0x3d) = some name.length := by
  have none : name.findIdx? (· = 0x3d) = none := by
    rw [List.findIdx?_eq_none_iff]
    intro char member
    exact decide_eq_false fun equal => noEnd (equal ▸ member)
  rw [List.findIdx?_append, none]
  simp [List.findIdx?_cons]

theorem take_name (name tail : List Byte) :
    (name ++ 0x3d :: tail).take (name.length + 1) = name ++ [0x3d] := by
  rw [List.append_cons]
  exact List.take_left' (by simp)

/-- The delimiter behind a value. -/
theorem memfind_delimiter (lawful : lib.Lawful) {front value rest : List Byte}
    (shape : p = front ++ value ++ rest) (short : p.length < 0x10000)
    (plain : (0x26 : Byte) ∉ value) (ends : rest = [] ∨ ∃ tail, rest = 0x26 :: tail) :
    lib.memfind p [0x26] front.length =
      if rest = [] then 0xffff else front.length + value.length := by
  have inValue : ∀ j, front.length ≤ j → j < front.length + value.length → ¬Occurs [0x26] p j := by
    intro j lower upper occurs
    obtain ⟨offset, rfl⟩ := Nat.exists_eq_add_of_le lower
    obtain ⟨tail, here⟩ := occurs
    have dropped : p.drop (front.length + offset) = value.drop offset ++ rest := by
      rw [shape, List.append_assoc, ← List.drop_drop, List.drop_left,
        List.drop_append_of_le_length (by omega)]
    rw [dropped, List.drop_eq_getElem_cons (by omega), List.singleton_append, List.cons_append,
      List.cons.injEq] at here
    exact plain (here.1 ▸ List.getElem_mem _)
  rcases ends with rfl | ⟨tail, rfl⟩
  · rw [if_pos rfl]
    refine lawful.memfind_absent p [0x26] front.length short (by simp) fun j lower occurs => ?_
    refine inValue j lower ?_ occurs
    obtain ⟨before, behind, parts, rfl⟩ := occurs.split (by simp)
    have length := congrArg List.length (parts.symm.trans shape)
    simp at length
    omega
  · rw [if_neg (by simp)]
    refine lawful.memfind_found p [0x26] front.length _ short (by simp) (Nat.le_add_right _ _) ?_
      inValue
    have occurs := occurs_append (front ++ value) [0x26] tail
    rw [List.length_append] at occurs
    rw [shape]
    exact occurs

/-- A name that does not stand in the chain; `tail` is what the search leaves out. -/
theorem checkField_nowhere (lawful : lib.Lawful) {name : List Byte} (short : p.length < 0x10000)
    (noEnd : (0x3d : Byte) ∉ name) (absent : ∀ k, ¬Occurs (name ++ [0x3d]) p k)
    (tail : List Byte) : checkField lib p (name ++ 0x3d :: tail) = (0xffff, 0xffff) := by
  have find := lawful.memfind_absent p (name ++ [0x3d]) 0 short (by simp) fun j _ => absent j
  simp only [checkField, findIdx_name noEnd, take_name, find, ne_eq, not_true_eq_false, if_false]

/-- The first place of a name in the chain, with the value there. -/
theorem checkField_first (lawful : lib.Lawful) {name front value rest : List Byte}
    (shape : p = front ++ (name ++ [0x3d]) ++ value ++ rest) (short : p.length < 0x10000)
    (noEnd : (0x3d : Byte) ∉ name) (first : ∀ k < front.length, ¬Occurs (name ++ [0x3d]) p k)
    (plain : (0x26 : Byte) ∉ value) (ends : rest = [] ∨ ∃ tail, rest = 0x26 :: tail)
    (tail : List Byte) :
    checkField lib p (name ++ 0x3d :: tail) =
      (fieldOffset (name.length + 1) value front.length, value.length) := by
  have length : p.length = front.length + (name.length + 1) + value.length + rest.length := by
    rw [shape]
    simp only [List.length_append, List.length_singleton]
  have occurs : Occurs (name ++ [0x3d]) p front.length := by
    rw [shape, List.append_assoc, List.append_assoc]
    exact occurs_append _ _ _
  have find := lawful.memfind_found p (name ++ [0x3d]) 0 front.length short (by simp)
    (Nat.zero_le _) occurs fun j _ before => first j before
  have start : (front ++ (name ++ [0x3d])).length = front.length + (name.length + 1) := by
    simp
  have delimiter := memfind_delimiter lawful shape short plain ends
  rw [start] at delimiter
  have here : front.length ≠ 0xffff := by omega
  have value16 : u16 ((front.length : Int) + ((name.length + 1 : Nat) : Int)) =
      front.length + (name.length + 1) := by
    rw [u16]
    omega
  have lenStr : (if lib.memfind p [0x26] (front.length + (name.length + 1)) ≠ 0xffff then
      u16 ((lib.memfind p [0x26] (front.length + (name.length + 1)) : Int) -
        (front.length + (name.length + 1) : Nat))
      else u16 ((p.length : Int) - (front.length + (name.length + 1) : Nat))) = value.length := by
    rcases ends with rfl | ⟨tail, rfl⟩
    · rw [delimiter, if_pos rfl, if_neg (by simp), u16]
      simp only [List.length_nil] at length
      omega
    · rw [List.length_cons] at length
      rw [if_neg (List.cons_ne_nil _ _)] at delimiter
      rw [delimiter, if_pos (by omega), u16]
      omega
  simp only [checkField, findIdx_name noEnd, take_name, find, here, ne_eq, not_false_eq_true,
    if_true, value16, lenStr]
  rfl

theorem not_mem_of_ne {name : List Byte} (noName : ∀ char ∈ name, char ≠ 0x3d) :
    (0x3d : Byte) ∉ name :=
  fun member => noName 0x3d member rfl

/-- A name that does not stand in the chain. -/
theorem checkField_absent (lawful : lib.Lawful) (short : p.length < 0x10000)
    (noName : ∀ char ∈ stem ++ [last], char ≠ 0x3d)
    (absent : ∀ k, ¬Occurs (stem ++ [last, 0x3d]) p k) :
    checkField lib p (stem ++ [last, 0x3d]) = (0xffff, 0xffff) := by
  rw [List.append_cons] at absent ⊢
  exact checkField_nowhere lawful short (not_mem_of_ne noName) absent []

/-- A name that stands in the chain, with its value. -/
theorem checkField_found (lawful : lib.Lawful) {front value rest : List Byte}
    (shape : p = front ++ (stem ++ [last, 0x3d]) ++ value ++ rest) (short : p.length < 0x10000)
    (noName : ∀ char ∈ stem ++ [last], char ≠ 0x3d)
    (first : ∀ k, Occurs (stem ++ [last, 0x3d]) p k → k = front.length)
    (plain : (0x26 : Byte) ∉ value) (ends : rest = [] ∨ ∃ tail, rest = 0x26 :: tail) :
    checkField lib p (stem ++ [last, 0x3d]) =
      (fieldOffset (stem.length + 2) value front.length, value.length) := by
  rw [List.append_cons] at shape first ⊢
  have found := checkField_first lawful shape short (not_mem_of_ne noName)
    (fun k before occurs => Nat.ne_of_lt before (first k occurs)) plain ends []
  rw [List.length_append, List.length_singleton] at found
  exact found

end CheckField

/-! ## The names of the handler -/

section Names

variable {lib : PbufLib} {ssid pass host value : List Byte} {p : Pbuf}

/-- Every name of a form with credentials stands where its field is. -/
theorem names_credentials (plain : (Form.credentials ssid pass host).Plain) (k : Nat) :
    (Occurs (chars "ssid=") (Form.credentials ssid pass host).body k → k = 0) ∧
    (Occurs (chars "pass=") (Form.credentials ssid pass host).body k → k = ssid.length + 6) ∧
    (Occurs (chars "host=") (Form.credentials ssid pass host).body k →
      k = ssid.length + pass.length + 12) ∧
    ¬Occurs (chars "config=") (Form.credentials ssid pass host).body k := by
  have places := fun stem last (other : last ≠ 0x3d) occurs =>
    @occurs_credentials ssid pass host stem last k plain other occurs
  refine ⟨fun occurs => ?_, fun occurs => ?_, fun occurs => ?_, fun occurs => ?_⟩
  · have known := places (chars "ssi") 0x64 (by decide) occurs
    have length : (chars "ssi").length = 3 := rfl
    simp at known
    omega
  · have known := places (chars "pas") 0x73 (by decide) occurs
    have length : (chars "pas").length = 3 := rfl
    simp at known
    omega
  · have known := places (chars "hos") 0x74 (by decide) occurs
    have length : (chars "hos").length = 3 := rfl
    simp at known
    omega
  · have known := places (chars "confi") 0x67 (by decide) occurs
    simp at known

/-- The only name in a form with a name is its own. -/
theorem names_config (plain : (Form.config value).Plain) (k : Nat) :
    ¬Occurs (chars "ssid=") (Form.config value).body k ∧
    ¬Occurs (chars "host=") (Form.config value).body k ∧
    (Occurs (chars "config=") (Form.config value).body k → k = 0) := by
  have places := fun stem last (other : last ≠ 0x3d) occurs =>
    @occurs_config value stem last k plain other occurs
  refine ⟨fun occurs => ?_, fun occurs => ?_, fun occurs => ?_⟩
  · exact absurd (places (chars "ssi") 0x64 (by decide) occurs).1 (by decide)
  · exact absurd (places (chars "hos") 0x74 (by decide) occurs).1 (by decide)
  · have place := (places (chars "confi") 0x67 (by decide) occurs).2
    exact Nat.add_right_cancel place

/-- The fields of a form with credentials. -/
theorem checkField_credentials (lawful : lib.Lawful)
    (plain : (Form.credentials ssid pass host).Plain)
    (short : (Form.credentials ssid pass host).body.length < 0x10000) :
    checkField lib (Form.credentials ssid pass host).body (chars "ssid=") =
        (fieldOffset 5 ssid 0, ssid.length) ∧
      checkField lib (Form.credentials ssid pass host).body (chars "pass=") =
        (fieldOffset 5 pass (ssid.length + 6), pass.length) ∧
      checkField lib (Form.credentials ssid pass host).body (chars "host=") =
        (fieldOffset 5 host (ssid.length + pass.length + 12), host.length) := by
  have noEnd : ∀ value ∈ (Form.credentials ssid pass host).values, (0x26 : Byte) ∉ value :=
    fun value member inside => (plain value member _ inside).1 rfl
  have names := names_credentials plain
  have found := fun stem last front value rest shape =>
    @checkField_found lib stem last (Form.credentials ssid pass host).body lawful front value rest
      shape short
  refine ⟨?_, ?_, ?_⟩
  · exact found (chars "ssi") 0x64 [] ssid
      (0x26 :: (chars "pass=" ++ pass ++ chars "&host=" ++ host))
      (by simp [Form.body, chars]) (by decide) (fun k => (names k).1)
      (noEnd ssid (by simp [Form.values])) (.inr ⟨_, rfl⟩)
  · have front : (chars "ssid=" ++ ssid ++ [0x26]).length = ssid.length + 6 := by simp [chars]
    rw [← front]
    exact found (chars "pas") 0x73 _ pass (0x26 :: (chars "host=" ++ host))
      (by simp [Form.body, chars]) (by decide) (fun k occurs => front ▸ (names k).2.1 occurs)
      (noEnd pass (by simp [Form.values])) (.inr ⟨_, rfl⟩)
  · have front : (chars "ssid=" ++ ssid ++ chars "&pass=" ++ pass ++ [0x26]).length =
        ssid.length + pass.length + 12 := by
      simp [chars]
      omega
    rw [← front]
    exact found (chars "hos") 0x74 _ host [] (by simp [Form.body, chars]) (by decide)
      (fun k occurs => front ▸ (names k).2.2.1 occurs) (noEnd host (by simp [Form.values]))
      (.inl rfl)

/-- The field of a form with a name. -/
theorem checkField_config (lawful : lib.Lawful) (plain : (Form.config value).Plain)
    (short : (Form.config value).body.length < 0x10000) :
    checkField lib (Form.config value).body (chars "config=") =
      (fieldOffset 7 value 0, value.length) :=
  @checkField_found lib (chars "confi") 0x67 _ lawful [] value [] (by simp [Form.body, chars]) short
    (by decide) (fun k => (names_config plain k).2.2)
    (fun inside => (plain value (by simp [Form.values]) _ inside).1 rfl) (.inl rfl)

end Names

/-! ## Pieces of a form -/

/-- A piece in which the handler finds neither kind of form. -/
def Silent (p : Pbuf) : Prop :=
  ((∀ k, ¬Occurs (chars "ssid=") p k) ∨ ∀ k, ¬Occurs (chars "host=") p k) ∧
    ∀ k, ¬Occurs (chars "config=") p k

/-- The form that the first `received` bytes of a form are, if they contain its last name. -/
def Form.received (received : Nat) : Form → Option Form
  | .credentials ssid pass host =>
      let value := ssid.length + pass.length + 17
      if value ≤ received then some (.credentials ssid pass (host.take (received - value))) else
        none
  | .config value => if 7 ≤ received then some (.config (value.take (received - 7))) else none

section Pieces

variable {form part : Form} {received : Nat} {p : Pbuf}

theorem Form.received_body (some : form.received received = some part) :
    part.body = form.body.take received := by
  cases form with
  | credentials ssid pass host =>
      simp only [Form.received, Option.ite_none_right_eq_some, Option.some.injEq] at some
      obtain ⟨long, rfl⟩ := some
      have names : (chars "ssid=" ++ ssid ++ chars "&pass=" ++ pass ++ chars "&host=").length =
          ssid.length + pass.length + 17 := by
        simp [chars]
        omega
      obtain ⟨rest, rfl⟩ := Nat.exists_eq_add_of_le long
      rw [Form.body, Form.body, ← names, List.take_length_add_append, Nat.add_sub_cancel_left]
  | config value =>
      simp only [Form.received, Option.ite_none_right_eq_some, Option.some.injEq] at some
      obtain ⟨long, rfl⟩ := some
      obtain ⟨rest, rfl⟩ := Nat.exists_eq_add_of_le long
      rw [Form.body, Form.body, show (7 : Nat) = (chars "config=").length from rfl,
        List.take_length_add_append, Nat.add_sub_cancel_left]

theorem Form.received_plain (plain : form.Plain) (some : form.received received = some part) :
    part.Plain := by
  cases form with
  | credentials ssid pass host =>
      simp only [Form.received, Option.ite_none_right_eq_some, Option.some.injEq] at some
      obtain ⟨-, rfl⟩ := some
      simp only [Form.Plain, Form.values, List.mem_cons, List.not_mem_nil, or_false,
        forall_eq_or_imp,
        forall_eq] at plain ⊢
      exact ⟨plain.1, plain.2.1, fun char member => plain.2.2 char (List.mem_of_mem_take member)⟩
  | config value =>
      simp only [Form.received, Option.ite_none_right_eq_some, Option.some.injEq] at some
      obtain ⟨-, rfl⟩ := some
      simp only [Form.Plain, Form.values, List.mem_singleton, forall_eq] at plain ⊢
      exact fun char member => plain char (List.mem_of_mem_take member)

/-- A beginning without the last name of the form. -/
theorem Form.received_none (plain : form.Plain) (none : form.received received = none) :
    Silent (form.body.take received) := by
  have inBody : ∀ {name k}, name ≠ [] → Occurs name (form.body.take received) k →
      Occurs name form.body k ∧ k + name.length ≤ received := by
    intro name k named occurs
    obtain ⟨inside, bound⟩ := occurs.enclosed [] (form.body.drop received) named
    rw [List.nil_append, List.take_append_drop, List.length_nil, Nat.zero_add] at inside
    rw [List.length_take] at bound
    exact ⟨inside, by omega⟩
  cases form with
  | credentials ssid pass host =>
      have names := names_credentials plain
      simp only [Form.received, ite_eq_right_iff, reduceCtorEq, imp_false] at none
      refine ⟨.inr fun k occurs => ?_, fun k occurs => ?_⟩
      · obtain ⟨inside, bound⟩ := inBody (by decide) occurs
        have place := (names k).2.2.1 inside
        have length : (chars "host=").length = 5 := rfl
        omega
      · exact (names k).2.2.2 (inBody (by decide) occurs).1
  | config value =>
      have names := names_config plain
      simp only [Form.received, ite_eq_right_iff, reduceCtorEq, imp_false] at none
      refine ⟨.inl fun k occurs => ?_, fun k occurs => ?_⟩
      · exact (names k).1 (inBody (by decide) occurs).1
      · obtain ⟨inside, bound⟩ := inBody (by decide) occurs
        have length : (chars "config=").length = 7 := rfl
        omega

/-- A piece that does not begin the body. -/
theorem Form.silent_later (plain : form.Plain) {front back : List Byte} (nonempty : front ≠ [])
    (shape : form.body = front ++ p ++ back) : Silent p := by
  have positive := List.length_pos_iff.mpr nonempty
  have inBody : ∀ {name k}, name ≠ [] → Occurs name p k →
      Occurs name form.body (front.length + k) := by
    intro name k named occurs
    rw [shape]
    exact (occurs.enclosed front back named).1
  cases form with
  | credentials ssid pass host =>
      have names := names_credentials plain
      refine ⟨.inl fun k occurs => ?_, fun k occurs => ?_⟩
      · have place := (names _).1 (inBody (by decide) occurs)
        omega
      · exact (names _).2.2.2 (inBody (by decide) occurs)
  | config value =>
      have names := names_config plain
      refine ⟨.inl fun k occurs => ?_, fun k occurs => ?_⟩
      · exact (names _).1 (inBody (by decide) occurs)
      · have place := (names _).2.2 (inBody (by decide) occurs)
        omega

end Pieces

end PicoApConfigure.Post
