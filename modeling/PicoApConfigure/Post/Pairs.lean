import PicoApConfigure.Post.Lookup
import PicoApConfigure.Post.Segments

/-!
# Bodies that are lists of pairs

The search of `check_field` does not stop at the start of a field.  Where a name stands in a list of
pairs it ends a name of the list, so the search finds the named field if and only if no name in
front of it ends in the key.
-/

namespace PicoApConfigure.Post

open Nor FlashIo

/-- A name and its value. -/
structure Pair where
  name : List Byte
  value : List Byte
  deriving DecidableEq

/-- `name=value`. -/
def Pair.text (pair : Pair) : List Byte := pair.name ++ 0x3d :: pair.value

/-- The body: the pairs with `&` between them. -/
def pairsBody (pairs : List Pair) : Pbuf := ([0x26] : List Byte).intercalate (pairs.map Pair.text)

/-- No name and no value contains a character that ends one. -/
def PlainPairs (pairs : List Pair) : Prop :=
  ∀ pair ∈ pairs, ∀ char ∈ pair.name ++ pair.value, char ≠ 0x26 ∧ char ≠ 0x3d

/-- The pairs with an `&` in front of each. -/
def joined (pairs : List Pair) : List Byte := pairs.flatMap fun pair => 0x26 :: pair.text

/-- Where a pair stands behind these. -/
def pairPlace (front : List Pair) : Nat := (joined front).length

/-! ## The places of names -/

section Places

variable {pairs front back : List Pair} {pair : Pair} {name : List Byte}

@[simp] theorem joined_nil : joined [] = [] := rfl

@[simp] theorem joined_cons (pair : Pair) (pairs : List Pair) :
    joined (pair :: pairs) = 0x26 :: (pair.text ++ joined pairs) := rfl

@[simp] theorem joined_append (front back : List Pair) :
    joined (front ++ back) = joined front ++ joined back :=
  List.flatMap_append

theorem cons_pairsBody (pair : Pair) (pairs : List Pair) :
    0x26 :: pairsBody (pair :: pairs) = joined (pair :: pairs) := by
  induction pairs generalizing pair with
  | nil => simp [pairsBody, List.intercalate]
  | cons other pairs ih =>
      rw [joined_cons, ← ih other]
      simp [pairsBody, List.intercalate]

/-- The body around one of the pairs. -/
theorem pairsBody_split (front : List Pair) (pair : Pair) (back : List Pair) :
    ∃ before, before.length = pairPlace front ∧
      pairsBody (front ++ pair :: back) = before ++ pair.text ++ joined back := by
  cases front with
  | nil =>
      refine ⟨[], rfl, ?_⟩
      have whole := cons_pairsBody pair back
      rw [joined_cons, List.cons.injEq] at whole
      exact whole.2
  | cons first front =>
      refine ⟨first.text ++ joined front ++ [0x26], ?_, ?_⟩
      · simp [pairPlace]
        omega
      · have whole := cons_pairsBody first (front ++ pair :: back)
        rw [joined_cons, List.cons.injEq] at whole
        rw [List.cons_append, whole.2]
        simp

theorem joined_ends (back : List Pair) : joined back = [] ∨ ∃ tail, joined back = 0x26 :: tail := by
  cases back with
  | nil => exact .inl rfl
  | cons pair back => exact .inr ⟨_, rfl⟩

theorem PlainPairs.no_name (plain : PlainPairs pairs) (member : pair ∈ pairs) :
    (0x3d : Byte) ∉ pair.name ∧ (0x3d : Byte) ∉ pair.value ∧ (0x26 : Byte) ∉ pair.value := by
  refine ⟨fun inside => ?_, fun inside => ?_, fun inside => ?_⟩
  · exact (plain pair member _ (List.mem_append_left _ inside)).2 rfl
  · exact (plain pair member _ (List.mem_append_right _ inside)).2 rfl
  · exact (plain pair member _ (List.mem_append_right _ inside)).1 rfl

/-- Every `=` is the one behind a name. -/
theorem joined_eq_cases (plain : PlainPairs pairs) :
    ∀ {lead left right : List Byte}, (0x3d : Byte) ∉ lead →
      lead ++ joined pairs = left ++ 0x3d :: right →
      ∃ front pair back, pairs = front ++ pair :: back ∧
        left = lead ++ joined front ++ 0x26 :: pair.name := by
  induction pairs with
  | nil =>
      intro lead left right absent equal
      rw [joined_nil, List.append_nil] at equal
      rw [equal] at absent
      simp at absent
  | cons pair pairs ih =>
      intro lead left right absent equal
      obtain ⟨noName, noValue, -⟩ := plain.no_name List.mem_cons_self
      have shape : left ++ 0x3d :: right =
          (lead ++ 0x26 :: pair.name) ++ 0x3d :: (pair.value ++ joined pairs) := by
        rw [← equal]
        simp [Pair.text]
      have absent' : (0x3d : Byte) ∉ lead ++ 0x26 :: pair.name := by
        rw [List.mem_append, List.mem_cons]
        rintro (inside | equal | inside)
        · exact absent inside
        · cases equal
        · exact noName inside
      rcases append_cons_cases shape absent' with ⟨same, -⟩ | ⟨between, longer, rest⟩
      · exact ⟨[], pair, pairs, rfl, by rw [same]; simp⟩
      · obtain ⟨front, other, back, parts, place⟩ := ih
          (fun pair member => plain pair (List.mem_cons_of_mem _ member)) noValue rest
        refine ⟨pair :: front, other, back, by rw [parts]; rfl, ?_⟩
        rw [longer, place]
        simp [Pair.text]

/-- Where a name stands in the body, a name of the list ends. -/
theorem occurs_pairs (plain : PlainPairs pairs) {k : Nat}
    (occurs : Occurs (name ++ [0x3d]) (pairsBody pairs) k) :
    ∃ front pair back, pairs = front ++ pair :: back ∧
      k + name.length = pairPlace front + pair.name.length ∧
      name <:+ joined front ++ 0x26 :: pair.name := by
  obtain ⟨before, behind, shape, rfl⟩ := occurs.split (by simp)
  cases pairs with
  | nil =>
      have length := congrArg List.length shape
      simp [pairsBody, List.intercalate] at length
  | cons first pairs =>
      have whole := cons_pairsBody first pairs
      rw [shape] at whole
      have equal : [] ++ joined (first :: pairs) = (0x26 :: before ++ name) ++ 0x3d :: behind := by
        rw [← whole]
        simp
      obtain ⟨front, pair, back, parts, place⟩ := joined_eq_cases plain (by simp) equal
      rw [List.nil_append] at place
      refine ⟨front, pair, back, parts, ?_, place ▸ List.suffix_append _ _⟩
      have length := congrArg List.length place
      simp only [List.length_append, List.length_cons] at length
      rw [pairPlace]
      omega

/-- A name that ends a name of the list stands in the body. -/
theorem occurs_of_suffix {stem : List Byte} (shape : pair.name = stem ++ name) :
    Occurs (name ++ [0x3d]) (pairsBody (front ++ pair :: back))
      (pairPlace front + stem.length) := by
  obtain ⟨before, place, body⟩ := pairsBody_split front pair back
  have occurs := occurs_append (before ++ stem) (name ++ [0x3d]) (pair.value ++ joined back)
  rw [body, ← place, ← List.length_append]
  rw [Pair.text, shape]
  simpa using occurs

end Places

/-! ## Exactly when the named field is found -/

/-- What `check_field` looks for: the key up to its first `=`. -/
def searched (key : List Byte) : List Byte := key.takeWhile (· ≠ 0x3d)

/-- Behind `front` the list has the first pair of this name with a value of a length that is
accepted. -/
structure FirstNamed (pairs : List Pair) (key : List Byte) (front : List Pair)
    (value : List Byte) (back : List Pair) : Prop where
  shape : pairs = front ++ ⟨key, value⟩ :: back
  accepts : Accepts value
  first : ∀ pair ∈ front, pair.name = key → ¬Accepts pair.value

/-- `check_field` finds the first pair of the name with an accepted value, and nothing if no pair
has the name. -/
def FindsField (lib : PbufLib) (pairs : List Pair) (key : List Byte) : Prop :=
  (∀ front value back, FirstNamed pairs key front value back →
    checkField lib (pairsBody pairs) (key ++ [0x3d]) =
      (pairPlace front + key.length + 1, value.length)) ∧
  ((∀ pair ∈ pairs, pair.name ≠ key) →
    checkField lib (pairsBody pairs) (key ++ [0x3d]) = (0xffff, 0xffff))

/-- No name in front of the field ends in the key, and if there is no field of the name what is
searched for stands nowhere. -/
def Unmistakable (pairs : List Pair) (key : List Byte) : Prop :=
  (∀ front value back, FirstNamed pairs key front value back →
    ∀ pair ∈ front, ¬key <:+ pair.name) ∧
  ((∀ pair ∈ pairs, pair.name ≠ key) →
    ∀ k, ¬Occurs (searched key ++ [0x3d]) (pairsBody pairs) k)

section Fields

variable {lib : PbufLib} {pairs front back : List Pair} {key value : List Byte}

theorem searched_no_end (key : List Byte) : (0x3d : Byte) ∉ searched key := not_mem_takeWhile

theorem searched_shape (key : List Byte) :
    ∃ tail, key ++ [0x3d] = searched key ++ 0x3d :: tail := by
  have parts : searched key ++ key.dropWhile (· ≠ 0x3d) = key := List.takeWhile_append_dropWhile
  rcases dropWhile_cases 0x3d key with rest | ⟨tail, rest⟩
  · rw [rest, List.append_nil] at parts
    exact ⟨[], by rw [parts]⟩
  · rw [rest] at parts
    refine ⟨tail ++ [0x3d], ?_⟩
    rw [← List.cons_append, ← List.append_assoc, parts]

theorem searched_eq (noEnd : (0x3d : Byte) ∉ key) : searched key = key := by
  rw [searched, List.takeWhile_eq_self_iff]
  intro char member
  exact decide_eq_true fun equal => noEnd (equal ▸ member)

/-- What `check_field` returns for a key, by what it looks for. -/
theorem checkField_searched (lawful : lib.Lawful) {p : Pbuf} (short : p.length < 0xffff)
    (key : List Byte) :
    checkField lib p (key ++ [0x3d]) =
      fieldOf ((searched key).length + 1) (lookup (searched key ++ [0x3d]) p) := by
  obtain ⟨tail, shape⟩ := searched_shape key
  rw [shape]
  exact checkField_lookup lawful (Nat.lt_trans short (by decide)) (searched_no_end key) tail

/-- A place of the key is at or behind the one that is returned, which lies in the body. -/
theorem checkField_at_most (lawful : lib.Lawful) {p : Pbuf} (short : p.length < 0xffff) {k : Nat}
    (occurs : Occurs (searched key ++ [0x3d]) p k) :
    (checkField lib p (key ++ [0x3d])).1 ≤ k + (searched key).length + 1 := by
  obtain ⟨first, before, found⟩ := occurs.firstPlace (by simp)
  rw [checkField_searched lawful short, lookup, found]
  simp only [Option.map_some, fieldOf, fieldOffset]
  split
  · omega
  · omega

/-- Two ways to cut the list: the one that cuts earlier has its pair in the front of the other. -/
theorem mem_front {front' back' : List Pair} {pair pair' : Pair}
    (equal : front ++ pair :: back = front' ++ pair' :: back')
    (before : pairPlace front' + pair'.name.length < pairPlace front + pair.name.length) :
    pair' ∈ front := by
  rcases List.append_eq_append_iff.mp equal with ⟨between, rfl, rest⟩ | ⟨between, rfl, rest⟩
  · cases between with
    | nil =>
        rw [List.nil_append, List.cons.injEq] at rest
        rw [List.append_nil, rest.1] at before
        exact absurd before (Nat.lt_irrefl _)
    | cons first between =>
        rw [List.cons_append, List.cons.injEq] at rest
        rw [← rest.1, pairPlace, pairPlace, joined_append, joined_cons] at before
        simp only [Pair.text, List.length_append, List.length_cons] at before
        omega
  · cases between with
    | nil =>
        rw [List.nil_append, List.cons.injEq] at rest
        rw [List.append_nil, rest.1] at before
        exact absurd before (Nat.lt_irrefl _)
    | cons first between =>
        rw [List.cons_append, List.cons.injEq] at rest
        rw [rest.1]
        exact List.mem_append_right _ List.mem_cons_self

/-- A key without `&` ends a name if it ends what is in front of an `=`. -/
theorem suffix_name {lead name : List Byte} (plain : (0x26 : Byte) ∉ key)
    (suffix : key <:+ lead ++ 0x26 :: name) : key <:+ name := by
  rcases List.suffix_or_suffix_of_suffix suffix (List.suffix_append lead (0x26 :: name)) with
    shorter | longer
  · rcases List.suffix_cons_iff.mp shorter with rfl | shorter
    · exact absurd List.mem_cons_self plain
    · exact shorter
  · exact absurd (longer.mem List.mem_cons_self) plain

/-- The pair behind these is the first place of its name if no name in front ends in it. -/
theorem FirstNamed.lookup (named : FirstNamed pairs key front value back)
    (plain : PlainPairs pairs) (unlike : ∀ pair ∈ front, ¬key <:+ pair.name) :
    lookup (key ++ [0x3d]) (pairsBody pairs) = some (pairPlace front, value) := by
  obtain ⟨rfl, -, -⟩ := named
  have member : (⟨key, value⟩ : Pair) ∈ front ++ ⟨key, value⟩ :: back := by simp
  have keyPlain : (0x26 : Byte) ∉ key :=
    fun inside => (plain _ member _ (List.mem_append_left _ inside)).1 rfl
  have first : firstPlace (key ++ [0x3d]) (pairsBody (front ++ ⟨key, value⟩ :: back)) =
      some (pairPlace front) := by
    rw [firstPlace_eq_some (by simp)]
    refine ⟨@occurs_of_suffix front back ⟨key, value⟩ key [] rfl, fun k before occurs => ?_⟩
    obtain ⟨front', pair', back', shape, place, suffix⟩ := occurs_pairs plain occurs
    refine unlike pair' (mem_front shape ?_) (suffix_name keyPlain suffix)
    show pairPlace front' + pair'.name.length < pairPlace front + key.length
    omega
  obtain ⟨before, place, body⟩ := pairsBody_split front ⟨key, value⟩ back
  have shape : pairsBody (front ++ ⟨key, value⟩ :: back) =
      (before ++ (key ++ [0x3d])) ++ value ++ joined back := by
    rw [body, Pair.text]
    simp
  have found := valueAt_of_shape shape (plain.no_name member).2.2 (joined_ends back)
  rw [List.length_append, place] at found
  rw [Post.lookup, first, Option.map_some, found]

end Fields

/-- For every list of pairs, every key and every lawful library: `check_field` finds exactly the
named field if and only if no name in front of it ends in the key and, where there is none, what is
searched for stands nowhere in the body. -/
theorem finds_field_iff {lib : PbufLib} (lawful : lib.Lawful) {pairs : List Pair}
    (plain : PlainPairs pairs) (short : (pairsBody pairs).length < 0xffff) (key : List Byte) :
    FindsField lib pairs key ↔ Unmistakable pairs key := by
  have noEnd : ∀ {front value back}, FirstNamed pairs key front value back →
      (0x3d : Byte) ∉ key := by
    intro front value back named
    have member : (⟨key, value⟩ : Pair) ∈ pairs := by
      rw [named.shape]
      exact List.mem_append_right _ List.mem_cons_self
    exact (plain.no_name member).1
  constructor
  · rintro ⟨finds, misses⟩
    constructor
    · intro front value back named pair member suffix
      obtain ⟨earlier, later, rfl⟩ := List.append_of_mem member
      obtain ⟨stem, shape⟩ := suffix
      have occurs := @occurs_of_suffix earlier (later ++ ⟨key, value⟩ :: back) pair key stem
        shape.symm
      have body := named.shape
      rw [List.append_assoc, List.cons_append] at body
      rw [← body, ← searched_eq (noEnd named)] at occurs
      have before := checkField_at_most lawful short occurs
      rw [finds _ _ _ named, searched_eq (noEnd named), pairPlace, pairPlace, joined_append,
        joined_cons] at before
      simp only [Pair.text, ← shape, List.length_append, List.length_cons] at before
      omega
    · intro unnamed k occurs
      have before := checkField_at_most lawful short occurs
      rw [misses unnamed] at before
      have inside := (occurs.enclosed [] [] (by simp)).2
      rw [List.length_append, List.length_singleton] at inside
      omega
  · rintro ⟨unlike, absent⟩
    constructor
    · intro front value back named
      rw [checkField_searched lawful short, searched_eq (noEnd named),
        named.lookup plain (unlike front value back named), fieldOf, fieldOffset,
        if_pos named.accepts, Nat.add_assoc]
    · intro unnamed
      rw [checkField_searched lawful short, lookup,
        (firstPlace_eq_none (by simp)).mpr (absent unnamed)]
      rfl

/-- A network with a password. -/
def twoPairs : List Pair := [⟨chars "ssid", chars "a"⟩, ⟨chars "pass", chars "b"⟩]

theorem finds_field_pass : FindsField onePbuf twoPairs (chars "pass") ↔
    Unmistakable twoPairs (chars "pass") :=
  finds_field_iff onePbuf_lawful (by unfold PlainPairs; decide) (by decide) (chars "pass")

/-- A field whose name ends in the key stands in front of the field. -/
def mistakenPairs : List Pair := [⟨chars "xssid", chars "a"⟩, ⟨chars "ssid", chars "b"⟩]

theorem wrong_field_found : ¬FindsField onePbuf mistakenPairs (chars "ssid") := by
  rintro ⟨finds, -⟩
  have found := finds [⟨chars "xssid", chars "a"⟩] (chars "b") [] ⟨rfl, by decide, by decide⟩
  exact absurd found (by decide)

end PicoApConfigure.Post
