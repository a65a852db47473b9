import PicoApConfigure.Cjson.Allocation
import PicoApConfigure.Cjson.Reading

/-!
# What the parser accepts

The parser comes to an end on every text.  What it accepts is well formed and nested no deeper than
`CJSON_NESTING_LIMIT`.
-/

namespace PicoApConfigure.Cjson

open Nor

section Accepted

variable {Double : Type} (libc : Libc Double)

mutual

/-- An item as the parser makes it. -/
def Item.WellFormed : Item Double → Prop
  | .null => True
  | .false => True
  | .true => True
  | .number valuedouble valueint => valueint = saturated libc valuedouble
  | .string valuestring => valuestring ≠ none
  | .array child => child.WellFormedElements
  | .object child => child.WellFormedMembers
  | _ => False

/-- Elements of an array have no names. -/
def Children.WellFormedElements : Children Double → Prop
  | .nil => True
  | .cons string item next => string = none ∧ item.WellFormed ∧ next.WellFormedElements

/-- Members of an object have names. -/
def Children.WellFormedMembers : Children Double → Prop
  | .nil => True
  | .cons string item next => string ≠ none ∧ item.WellFormed ∧ next.WellFormedMembers

end

/-- The parser reads on in the same text. -/
structure Moves (buffer after : ParseBuffer) : Prop where
  content : after.content = buffer.content
  length : after.length = buffer.length
  depth : after.depth = buffer.depth
  offset : buffer.offset ≤ after.offset

/-- A parser reads on behind what it accepts. -/
structure Parses {α : Type} (good : α → Prop) (nesting : α → Nat) (buffer after : ParseBuffer)
    (result : Option α) : Prop where
  content : after.content = buffer.content
  length : after.length = buffer.length
  accepted : ∀ value, result = some value → buffer.depth ≤ cjsonNestingLimit →
    buffer.offset < after.offset ∧ after.depth = buffer.depth ∧ good value ∧
      nesting value + buffer.depth ≤ cjsonNestingLimit

variable {libc}

theorem Moves.refl (buffer : ParseBuffer) : Moves buffer buffer := ⟨rfl, rfl, rfl, Nat.le_refl _⟩

theorem Moves.trans {buffer middle after : ParseBuffer} (first : Moves buffer middle)
    (second : Moves middle after) : Moves buffer after where
  content := second.content.trans first.content
  length := second.length.trans first.length
  depth := second.depth.trans first.depth
  offset := Nat.le_trans first.offset second.offset

theorem moves_advance (buffer : ParseBuffer) (size : Nat) : Moves buffer (buffer.advance size) :=
  ⟨rfl, rfl, rfl, Nat.le_add_right _ _⟩

section Parses

variable {α : Type} {good : α → Prop} {nesting : α → Nat} {buffer middle after : ParseBuffer}
  {result : Option α}

theorem Parses.refused (content : after.content = buffer.content)
    (length : after.length = buffer.length) : Parses good nesting buffer after none :=
  ⟨content, length, fun _ some => absurd some.symm (Option.some_ne_none _)⟩

theorem Moves.parses (moves : Moves buffer middle)
    (parses : Parses good nesting middle after result) :
    Parses good nesting buffer after result where
  content := parses.content.trans moves.content
  length := parses.length.trans moves.length
  accepted value same shallow := by
    rw [← moves.depth] at shallow ⊢
    obtain ⟨offset, depth, rest⟩ := parses.accepted value same shallow
    exact ⟨Nat.lt_of_le_of_lt moves.offset offset, depth, rest⟩

theorem Parses.moves (parses : Parses good nesting buffer middle result)
    (moves : Moves middle after) : Parses good nesting buffer after result where
  content := moves.content.trans parses.content
  length := moves.length.trans parses.length
  accepted value same shallow := by
    obtain ⟨offset, depth, rest⟩ := parses.accepted value same shallow
    exact ⟨Nat.lt_of_lt_of_le offset moves.offset, moves.depth.trans depth, rest⟩

end Parses

/-! ## Whitespace, strings and numbers -/

theorem skipSpaces_bounds {content : Memory} {length offset : Nat} (inside : offset ≤ length) :
    offset ≤ skipSpaces content length offset ∧ skipSpaces content length offset ≤ length := by
  fun_induction skipSpaces content length offset with
  | case1 offset below blank ih =>
      obtain ⟨lower, upper⟩ := ih below
      exact ⟨Nat.le_of_succ_le lower, upper⟩
  | case2 => exact ⟨Nat.le_refl _, inside⟩
  | case3 => exact ⟨Nat.le_refl _, inside⟩

theorem bufferSkipWhitespace_moves (buffer : ParseBuffer) :
    Moves buffer (bufferSkipWhitespace buffer) ∧
      (buffer.offset < buffer.length → (bufferSkipWhitespace buffer).offset < buffer.length) := by
  rw [bufferSkipWhitespace]
  split
  next => exact ⟨.refl _, id⟩
  next access =>
    have inside : buffer.offset < buffer.length := by
      rwa [ParseBuffer.canAccess, Nat.add_zero, decide_eq_false_iff_not, Decidable.not_not]
        at access
    obtain ⟨lower, upper⟩ := @skipSpaces_bounds buffer.content _ _ (Nat.le_of_lt inside)
    refine ⟨⟨rfl, rfl, rfl, ?_⟩, fun _ => ?_⟩
    · dsimp only
      split <;> omega
    · dsimp only
      split <;> omega

theorem parseString_parses (buffer : ParseBuffer) :
    Parses (fun _ => True) (fun _ => 0) buffer (parseString buffer).1 (parseString buffer).2 := by
  rw [parseString]
  split
  next => exact .refused rfl rfl
  next =>
    split
    next => exact .refused rfl rfl
    next inputEnd skippedBytes found =>
      have passed := (findStringEnd_room found).1
      split
      next => exact .refused rfl rfl
      next =>
        refine ⟨rfl, rfl, fun _ _ shallow => ⟨?_, rfl, trivial, by rwa [Nat.zero_add]⟩⟩
        change buffer.offset < inputEnd + 1
        omega

theorem parseNumber_parses (buffer : ParseBuffer) :
    Parses (Item.WellFormed libc) Item.nesting buffer (parseNumber libc buffer).1
      (parseNumber libc buffer).2 := by
  rw [parseNumber]
  dsimp only
  split
  next => exact .refused rfl rfl
  next taken =>
    refine ⟨rfl, rfl, fun item same shallow => ?_⟩
    cases same
    refine ⟨?_, rfl, rfl, by rwa [← Nat.zero_add buffer.depth] at shallow⟩
    change buffer.offset < buffer.offset + _
    omega

theorem parseName_parses (buffer : ParseBuffer) :
    Parses (fun _ => True) (fun _ => 0) buffer (parseName buffer).1 (parseName buffer).2 := by
  rw [parseName]
  split
  next => exact .refused rfl rfl
  next access =>
    have start := (moves_advance buffer 1).trans
      (bufferSkipWhitespace_moves (buffer.advance 1)).1
    have string := start.parses (parseString_parses (bufferSkipWhitespace (buffer.advance 1)))
    generalize parseString (bufferSkipWhitespace (buffer.advance 1)) = result at string
    rcases result with ⟨named, none | name⟩
    · exact string
    · have behind := (bufferSkipWhitespace_moves named).1
      dsimp only at string ⊢
      split
      next =>
        have last := (bufferSkipWhitespace_moves ((bufferSkipWhitespace named).advance 1)).1
        exact string.moves ((behind.trans (moves_advance _ 1)).trans last)
      next =>
        exact .refused (behind.content.trans string.content) (behind.length.trans string.length)

/-! ## Values -/

section Children

variable {close : Byte} {make : Children Double → Item Double}
  {loop : ParseBuffer → Option (ParseBuffer × Option (Children Double))}
  {good : Children Double → Prop} {buffer inner middle after : ParseBuffer}

/-- The end of children that were parsed one level deeper. -/
theorem closeChildren_parses {result : Option (Children Double)}
    (wraps : ∀ child, good child → (make child).WellFormed libc)
    (deeper : ∀ child, (make child).nesting = child.nesting + 1)
    (below : buffer.depth < cjsonNestingLimit)
    (moves : Moves { buffer with depth := buffer.depth + 1 } inner)
    (parses : Parses good Children.nesting inner middle result) :
    Parses (Item.WellFormed libc) Item.nesting buffer (closeChildren close make (middle, result)).1
      (closeChildren close make (middle, result)).2 := by
  have parses := moves.parses parses
  cases result with
  | none => exact .refused parses.content parses.length
  | some child =>
      obtain ⟨offset, depth, well, nested⟩ := parses.accepted child rfl below
      rw [closeChildren]
      split
      next =>
        refine ⟨parses.content, parses.length, fun item same _ => ?_⟩
        cases same
        refine ⟨Nat.lt_succ_of_lt offset, ?_, wraps child well, ?_⟩
        · change middle.depth - 1 = buffer.depth
          rw [depth]
          rfl
        · rw [deeper]
          dsimp only at nested
          omega
      next => exact .refused parses.content parses.length

/-- The parser of children is the parser of the item around them. -/
theorem parseChildren_parses {result : Option (Item Double)}
    (wraps : ∀ child, good child → (make child).WellFormed libc)
    (deeper : ∀ child, (make child).nesting = child.nesting + 1) (empty : good .nil)
    (looped : ∀ buffer after result, loop buffer = some (after, result) →
      Parses good Children.nesting buffer after result)
    (parsed : parseChildren close make loop buffer = some (after, result)) :
    Parses (Item.WellFormed libc) Item.nesting buffer after result := by
  rw [parseChildren] at parsed
  split at parsed
  next =>
    cases parsed
    exact .refused rfl rfl
  next below =>
    have below := Nat.lt_of_not_le below
    dsimp only at parsed
    obtain ⟨opened, -⟩ :=
      bufferSkipWhitespace_moves { buffer.advance 1 with depth := buffer.depth + 1 }
    generalize bufferSkipWhitespace { buffer.advance 1 with depth := buffer.depth + 1 } = inner
      at opened parsed
    have start : buffer.offset + 1 ≤ inner.offset := opened.offset
    split at parsed
    next =>
      have child : Parses good Children.nesting { buffer with depth := buffer.depth + 1 } inner
          (some .nil) := by
        refine ⟨opened.content, opened.length, fun child same shallow => ?_⟩
        cases same
        refine ⟨start, opened.depth, empty, ?_⟩
        rwa [← Nat.zero_add (_ + 1)] at shallow
      have closed := @closeChildren_parses _ libc close make good buffer _ inner _ wraps deeper
        below (.refl _) child
      rwa [Option.some.inj parsed] at closed
    next =>
      split at parsed
      next =>
        cases parsed
        exact .refused opened.content opened.length
      next =>
        obtain ⟨⟨middle, child⟩, found, same⟩ := Option.map_eq_some_iff.mp parsed
        have closed := @closeChildren_parses _ libc close make good buffer
          { inner with offset := inner.offset - 1 } middle child wraps deeper below
          ⟨opened.content, opened.length, opened.depth, Nat.le_sub_one_of_lt start⟩
          (looped _ _ _ found)
        rwa [same] at closed

/-- One child and then the other ones. -/
theorem cons_parses {string : Option CString} {item : Item Double} {next : Option (Children Double)}
    (joins : ∀ next, item.WellFormed libc → good next → good (.cons string item next))
    (first : Parses (Item.WellFormed libc) Item.nesting buffer middle (some item))
    (rest : Parses good Children.nesting middle after next) :
    Parses good Children.nesting buffer after (next.map (.cons string item)) := by
  refine ⟨rest.content.trans first.content, rest.length.trans first.length, ?_⟩
  intro child same shallow
  obtain ⟨next, rfl, rfl⟩ := Option.map_eq_some_iff.mp same
  obtain ⟨offset, depth, well, nested⟩ := first.accepted item rfl shallow
  obtain ⟨offset', depth', well', nested'⟩ := rest.accepted next rfl (by rwa [depth])
  refine ⟨Nat.lt_trans offset offset', depth'.trans depth, joins next well well', ?_⟩
  rw [depth] at nested'
  rw [Children.nesting]
  omega

/-- The last child. -/
theorem single_parses {string : Option CString} {item : Item Double}
    (joins : item.WellFormed libc → good (.cons string item .nil))
    (first : Parses (Item.WellFormed libc) Item.nesting buffer after (some item)) :
    Parses good Children.nesting buffer after (some (.cons string item .nil)) := by
  refine ⟨first.content, first.length, fun child same shallow => ?_⟩
  cases same
  obtain ⟨offset, depth, well, nested⟩ := first.accepted item rfl shallow
  refine ⟨offset, depth, joins well, ?_⟩
  rw [Children.nesting, Children.nesting, Nat.max_zero]
  exact nested

end Children

/-- A parser keeps what `Parses` says. -/
def Parser {α : Type} (good : α → Prop) (nesting : α → Nat)
    (parse : ParseBuffer → Option (ParseBuffer × Option α)) : Prop :=
  ∀ buffer after result, parse buffer = some (after, result) →
    Parses good nesting buffer after result

section Step

variable {fuel : Nat}

theorem parseValue_parses
    (elements : Parser (Children.WellFormedElements libc) Children.nesting
      (parseElements libc fuel))
    (members : Parser (Children.WellFormedMembers libc) Children.nesting
      (parseMembers libc fuel)) :
    Parser (Item.WellFormed libc) Item.nesting (parseValue libc (fuel + 1)) := by
  intro buffer after result parsed
  -- an item without children, of some bytes
  have literal : ∀ size, 0 < size → ∀ item : Item Double, item.WellFormed libc → item.nesting = 0 →
      Parses (Item.WellFormed libc) Item.nesting buffer (buffer.advance size) (some item) := by
    intro size positive item well flat
    refine ⟨rfl, rfl, fun other same shallow => ?_⟩
    cases same
    exact ⟨Nat.lt_add_of_pos_right positive, rfl, well, by rwa [flat, Nat.zero_add]⟩
  rw [parseValue] at parsed
  split at parsed
  next =>
    cases parsed
    exact literal 4 (by decide) .null trivial rfl
  next =>
    split at parsed
    next =>
      cases parsed
      exact literal 5 (by decide) .false trivial rfl
    next =>
      split at parsed
      next =>
        cases parsed
        exact literal 4 (by decide) .true trivial rfl
      next =>
        split at parsed
        next =>
          have string := parseString_parses buffer
          generalize parseString buffer = read at string parsed
          rcases read with ⟨behind, none | read⟩
          · cases parsed
            exact .refused string.content string.length
          · cases parsed
            refine ⟨string.content, string.length, fun item same shallow => ?_⟩
            cases same
            obtain ⟨offset, depth, -⟩ := string.accepted read rfl shallow
            refine ⟨offset, depth, Option.some_ne_none _, ?_⟩
            rwa [← Nat.zero_add buffer.depth] at shallow
        next =>
          split at parsed
          next =>
            have number := @parseNumber_parses _ libc buffer
            rwa [Option.some.inj parsed] at number
          next =>
            split at parsed
            next =>
              exact @parseChildren_parses _ libc _ _ _ (Children.WellFormedElements libc) _ _ _
                (fun _ => id) (fun _ => rfl) trivial elements parsed
            next =>
              split at parsed
              next =>
                exact @parseChildren_parses _ libc _ _ _ (Children.WellFormedMembers libc) _ _ _
                  (fun _ => id) (fun _ => rfl) trivial members parsed
              next =>
                cases parsed
                exact .refused rfl rfl

theorem parseElements_parses
    (value : Parser (Item.WellFormed libc) Item.nesting (parseValue libc fuel))
    (elements : Parser (Children.WellFormedElements libc) Children.nesting
      (parseElements libc fuel)) :
    Parser (Children.WellFormedElements libc) Children.nesting
      (parseElements libc (fuel + 1)) := by
  intro buffer after result parsed
  have start := (moves_advance buffer 1).trans (bufferSkipWhitespace_moves (buffer.advance 1)).1
  rw [parseElements] at parsed
  split at parsed
  next => cases parsed
  next middle found =>
    cases parsed
    have item := start.parses (value _ _ _ found)
    exact .refused item.content item.length
  next middle item found =>
    have item' := start.parses (value _ _ _ found)
    have behind := item'.moves (bufferSkipWhitespace_moves middle).1
    dsimp only at parsed
    split at parsed
    next =>
      obtain ⟨⟨last, next⟩, found', same⟩ := Option.map_eq_some_iff.mp parsed
      obtain ⟨rfl, rfl⟩ := Prod.mk.inj same
      exact cons_parses (fun _ well rest => ⟨rfl, well, rest⟩) behind (elements _ _ _ found')
    next =>
      cases parsed
      exact single_parses (fun well => ⟨rfl, well, trivial⟩) behind

theorem parseMembers_parses
    (value : Parser (Item.WellFormed libc) Item.nesting (parseValue libc fuel))
    (members : Parser (Children.WellFormedMembers libc) Children.nesting
      (parseMembers libc fuel)) :
    Parser (Children.WellFormedMembers libc) Children.nesting
      (parseMembers libc (fuel + 1)) := by
  intro buffer after result parsed
  have name := parseName_parses buffer
  rw [parseMembers] at parsed
  generalize parseName buffer = read at name parsed
  rcases read with ⟨behind, none | string⟩
  · cases parsed
    exact .refused name.content name.length
  dsimp only at parsed name
  split at parsed
  next => cases parsed
  next middle found =>
    cases parsed
    have item := value _ _ _ found
    exact .refused (item.content.trans name.content) (item.length.trans name.length)
  next middle item found =>
    have item' : Parses (Item.WellFormed libc) Item.nesting buffer middle (some item) := by
      have item' := value _ _ _ found
      refine ⟨item'.content.trans name.content, item'.length.trans name.length, ?_⟩
      intro other same shallow
      obtain ⟨offset, depth, -⟩ := name.accepted string rfl shallow
      obtain ⟨offset', depth', rest⟩ := item'.accepted other same (by rwa [depth])
      rw [depth] at depth' rest
      exact ⟨Nat.lt_trans offset offset', depth', rest⟩
    have closed := item'.moves (bufferSkipWhitespace_moves middle).1
    split at parsed
    next =>
      obtain ⟨⟨last, next⟩, found', same⟩ := Option.map_eq_some_iff.mp parsed
      obtain ⟨rfl, rfl⟩ := Prod.mk.inj same
      exact cons_parses (fun _ well rest => ⟨Option.some_ne_none _, well, rest⟩) closed
        (members _ _ _ found')
    next =>
      cases parsed
      exact single_parses (fun well => ⟨Option.some_ne_none _, well, trivial⟩) closed

end Step

/-- What `parse_value` and the loops over children accept. -/
theorem parse_parses (fuel : Nat) :
    Parser (Item.WellFormed libc) Item.nesting (parseValue libc fuel) ∧
      Parser (Children.WellFormedElements libc) Children.nesting (parseElements libc fuel) ∧
      Parser (Children.WellFormedMembers libc) Children.nesting (parseMembers libc fuel) := by
  induction fuel with
  | zero =>
      refine ⟨fun _ _ _ parsed => ?_, fun _ _ _ parsed => ?_, fun _ _ _ parsed => ?_⟩
      all_goals cases parsed
  | succ fuel ih =>
      obtain ⟨value, elements, members⟩ := ih
      exact ⟨parseValue_parses elements members, parseElements_parses value elements,
        parseMembers_parses value members⟩

/-! ## The parser comes to an end -/

/-- Fuel that is enough from a buffer on, for an item or for a child behind the offset. -/
structure Enough (buffer : ParseBuffer) (size fuel : Nat) : Prop where
  shallow : buffer.depth ≤ cjsonNestingLimit
  fuel : 2 * (buffer.length - buffer.offset) + size ≤ fuel

theorem Enough.of_parses {α : Type} {good : α → Prop} {nesting : α → Nat}
    {buffer after : ParseBuffer} {value : α} {fuel : Nat} (enough : Enough buffer 0 (fuel + 1))
    (inside : buffer.offset < buffer.length)
    (parses : Parses good nesting buffer after (some value)) : Enough after 1 fuel := by
  obtain ⟨offset, depth, -⟩ := parses.accepted value rfl enough.shallow
  have fuel := enough.fuel
  exact ⟨by rw [depth]; exact enough.shallow, by rw [parses.length]; omega⟩

section Ends

variable {buffer : ParseBuffer} {fuel : Nat}

theorem parseChildren_ends {close : Byte} {make : Children Double → Item Double}
    {loop : ParseBuffer → Option (ParseBuffer × Option (Children Double))}
    (ends : ∀ buffer, Enough buffer 0 fuel → buffer.offset < buffer.length → loop buffer ≠ none)
    (enough : Enough buffer 1 (fuel + 1)) : parseChildren close make loop buffer ≠ none := by
  rw [parseChildren]
  split
  next => exact Option.some_ne_none _
  next below =>
    obtain ⟨opened, -⟩ :=
      bufferSkipWhitespace_moves { buffer.advance 1 with depth := buffer.depth + 1 }
    dsimp only
    generalize bufferSkipWhitespace { buffer.advance 1 with depth := buffer.depth + 1 } = inner
      at opened
    have start : buffer.offset + 1 ≤ inner.offset := opened.offset
    split
    next => exact Option.some_ne_none _
    next =>
      split
      next => exact Option.some_ne_none _
      next access =>
        rw [Bool.not_eq_false, ParseBuffer.canAccess, decide_eq_true_eq] at access
        have length : inner.length = buffer.length := opened.length
        have fuel' := enough.fuel
        rw [ne_eq, Option.map_eq_none_iff]
        refine ends _ ⟨?_, ?_⟩ ?_
        · rw [opened.depth]
          exact Nat.lt_of_not_le below
        · dsimp only
          omega
        · dsimp only
          omega

theorem parseValue_ends
    (elements : ∀ buffer, Enough buffer 0 fuel → buffer.offset < buffer.length →
      parseElements libc fuel buffer ≠ none)
    (members : ∀ buffer, Enough buffer 0 fuel → buffer.offset < buffer.length →
      parseMembers libc fuel buffer ≠ none)
    (enough : Enough buffer 1 (fuel + 1)) : parseValue libc (fuel + 1) buffer ≠ none := by
  rw [parseValue]
  repeat' split
  all_goals first
    | exact Option.some_ne_none _
    | exact parseChildren_ends elements enough
    | exact parseChildren_ends members enough

/-- Behind an item the loop goes on with enough fuel. -/
theorem Enough.next {middle after : ParseBuffer} {item : Item Double}
    (enough : Enough middle 1 fuel)
    (parses : Parses (Item.WellFormed libc) Item.nesting middle after (some item)) :
    Enough (bufferSkipWhitespace after) 0 fuel := by
  obtain ⟨offset, depth, -⟩ := parses.accepted item rfl enough.shallow
  obtain ⟨moves, -⟩ := bufferSkipWhitespace_moves after
  have fuel := enough.fuel
  have later := moves.offset
  refine ⟨by rw [moves.depth, depth]; exact enough.shallow, ?_⟩
  rw [moves.length, parses.length]
  omega

theorem parseElements_ends
    (value : ∀ buffer, Enough buffer 1 fuel → parseValue libc fuel buffer ≠ none)
    (elements : ∀ buffer, Enough buffer 0 fuel → buffer.offset < buffer.length →
      parseElements libc fuel buffer ≠ none)
    (enough : Enough buffer 0 (fuel + 1)) (inside : buffer.offset < buffer.length) :
    parseElements libc (fuel + 1) buffer ≠ none := by
  obtain ⟨start, -⟩ := bufferSkipWhitespace_moves (buffer.advance 1)
  have front : Enough (bufferSkipWhitespace (buffer.advance 1)) 1 fuel := by
    have fuel := enough.fuel
    have later : buffer.offset + 1 ≤ (bufferSkipWhitespace (buffer.advance 1)).offset :=
      start.offset
    have length : (bufferSkipWhitespace (buffer.advance 1)).length = buffer.length := start.length
    exact ⟨by rw [start.depth]; exact enough.shallow, by omega⟩
  rw [parseElements]
  split
  next none => exact absurd none (value _ front)
  next => exact Option.some_ne_none _
  next middle item found =>
    have item' := (parse_parses fuel).1 _ _ _ found
    dsimp only
    split
    next comma =>
      rw [ne_eq, Option.map_eq_none_iff]
      rw [Bool.and_eq_true, ParseBuffer.canAccess, decide_eq_true_eq] at comma
      exact elements _ (front.next item') comma.1
    next => exact Option.some_ne_none _

theorem parseMembers_ends
    (value : ∀ buffer, Enough buffer 1 fuel → parseValue libc fuel buffer ≠ none)
    (members : ∀ buffer, Enough buffer 0 fuel → buffer.offset < buffer.length →
      parseMembers libc fuel buffer ≠ none)
    (enough : Enough buffer 0 (fuel + 1)) (inside : buffer.offset < buffer.length) :
    parseMembers libc (fuel + 1) buffer ≠ none := by
  have name := parseName_parses buffer
  rw [parseMembers]
  generalize parseName buffer = read at name
  rcases read with ⟨behind, none | string⟩
  · exact Option.some_ne_none _
  have front := enough.of_parses inside name
  dsimp only
  split
  next none => exact absurd none (value _ front)
  next => exact Option.some_ne_none _
  next middle item found =>
    have item' := (parse_parses fuel).1 _ _ _ found
    split
    next comma =>
      rw [ne_eq, Option.map_eq_none_iff]
      rw [Bool.and_eq_true, ParseBuffer.canAccess, decide_eq_true_eq] at comma
      exact members _ (front.next item') comma.1
    next => exact Option.some_ne_none _

end Ends

/-- With enough fuel the parser comes to an end. -/
theorem parse_ends (fuel : Nat) :
    (∀ buffer, Enough buffer 1 fuel → parseValue libc fuel buffer ≠ none) ∧
      (∀ buffer, Enough buffer 0 fuel → buffer.offset < buffer.length →
        parseElements libc fuel buffer ≠ none) ∧
      ∀ buffer, Enough buffer 0 fuel → buffer.offset < buffer.length →
        parseMembers libc fuel buffer ≠ none := by
  induction fuel with
  | zero =>
      refine ⟨fun buffer enough => ?_, fun buffer enough inside => ?_,
        fun buffer enough inside => ?_⟩
      all_goals
        have fuel := enough.fuel
        omega
  | succ fuel ih =>
      obtain ⟨value, elements, members⟩ := ih
      exact ⟨fun _ enough => parseValue_ends elements members enough,
        fun _ enough inside => parseElements_ends value elements enough inside,
        fun _ enough inside => parseMembers_ends value members enough inside⟩

theorem skipUtf8Bom_moves (buffer : ParseBuffer) : Moves buffer (skipUtf8Bom buffer) := by
  rw [skipUtf8Bom]
  split
  next => exact moves_advance _ 3
  next => exact .refl _

variable (libc)

/-- For any bytes the parser comes to an end, and what `cJSON_ParseWithLengthOpts` accepts is a well
formed item, not nested deeper than the limit, that ends behind the start. -/
theorem accepted_well_formed (value : Memory) (bufferLength : Nat) :
    parseValue libc (parseFuel bufferLength)
        (bufferSkipWhitespace (skipUtf8Bom (.start value bufferLength))) ≠ none ∧
      ∀ requireNullTerminated item parseEnd,
        cjsonParseWithLengthOpts libc value bufferLength requireNullTerminated =
            (some item, parseEnd) →
          item.WellFormed libc ∧ item.nesting ≤ cjsonNestingLimit ∧ 0 < parseEnd := by
  have moves := (skipUtf8Bom_moves (.start value bufferLength)).trans
    (bufferSkipWhitespace_moves _).1
  constructor
  · refine (parse_ends _).1 _ ⟨?_, ?_⟩
    · rw [moves.depth]
      exact Nat.zero_le _
    · rw [moves.length, parseFuel]
      change 2 * (bufferLength - _) + 1 ≤ _
      omega
  · intro requireNullTerminated item parseEnd parsed
    have accepts := (@parse_parses _ libc (parseFuel bufferLength)).1
      (bufferSkipWhitespace (skipUtf8Bom (.start value bufferLength)))
    rw [cjsonParseWithLengthOpts] at parsed
    split at parsed
    next => exact absurd (Prod.mk.inj parsed).1.symm (Option.some_ne_none _)
    next =>
      dsimp only at parsed
      split at parsed
      next => exact absurd (Prod.mk.inj parsed).1.symm (Option.some_ne_none _)
      next => exact absurd (Prod.mk.inj parsed).1.symm (Option.some_ne_none _)
      next after item' found =>
        have parses := accepts _ _ found
        obtain ⟨offset, depth, well, nested⟩ := parses.accepted item' rfl
          (by rw [moves.depth]; exact Nat.zero_le _)
        have behind := (bufferSkipWhitespace_moves after).1.offset
        have ends : item' = item ∧ 0 < parseEnd := by
          split at parsed
          next =>
            split at parsed
            next =>
              obtain ⟨same, rfl⟩ := Prod.mk.inj parsed
              exact ⟨Option.some.inj same, by omega⟩
            next => exact absurd (Prod.mk.inj parsed).1.symm (Option.some_ne_none _)
          next =>
            obtain ⟨same, rfl⟩ := Prod.mk.inj parsed
            exact ⟨Option.some.inj same, by omega⟩
        obtain ⟨rfl, positive⟩ := ends
        exact ⟨well, Nat.le_trans (Nat.le_add_right _ _) nested, positive⟩

end Accepted

end PicoApConfigure.Cjson
