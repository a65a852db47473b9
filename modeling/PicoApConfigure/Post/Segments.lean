import PicoApConfigure.Post.Receive

/-!
# The cut of a body into pieces

Nothing is kept between the calls for two pieces, and a name shows only in the first piece, so the
outcome of a form is that of the first piece.  A form comes to the same end as in one piece exactly
if the first piece comes to that end.
-/

namespace PicoApConfigure.Post

open Nor FlashIo RingBuffer

/-- Two arrays hold the same string. -/
def SameText (left right : Memory) : Prop :=
  ∀ position, (∀ before < position, left before ≠ 0) → left position = right position

/-- The settings in memory agree. -/
structure SameSettings (left right : PostState) : Prop where
  wifiSsid : SameText left.wifiSsid right.wifiSsid
  wifiPassword : SameText left.wifiPassword right.wifiPassword
  localHostName : SameText left.localHostName right.localHostName

/-- With enough fuel the program returns `state` and leaves `final` in the flash. -/
def Ends (program : Nat → FlashProg PostState) (flash : Memory) (state : PostState)
    (final : Memory) : Prop :=
  ∃ writes, FlashProg.Completes (fun _ => True) program flash writes state ∧
    replay writes flash = final

/-- Every end of the form in pieces `left` is one of the form in pieces `right`, whatever is in the
arrays, on the stack and in the flash before. -/
def Matches (lib : PbufLib) (connection : Nat) (left right : List Pbuf) : Prop :=
  ∀ (stack : Stack) (state : PostState) (flash : Memory),
    state.currentConnection = some connection → ∀ after final,
      Ends (fun fuel => postForm lib fuel stack connection left state) flash after final →
      ∃ after', Ends (fun fuel => postForm lib fuel stack connection right state) flash after'
      final ∧
        SameSettings after after'

/-- The cut makes no difference to the settings in memory and to the flash. -/
def SegmentationIrrelevant (lib : PbufLib) (connection : Nat) (body : Pbuf) (pieces : List Pbuf) :
    Prop :=
  Matches lib connection [body] pieces ∧ Matches lib connection pieces [body]

/-- A form as a browser encodes it. -/
def Form.Encoded (form : Form) : Prop := ∀ value ∈ form.values, Post.Encoded value

/-- What becomes of the first bytes of a form. -/
def Form.outcomeOf (form : Form) (received : Nat) : Outcome :=
  ((form.received received).map Form.outcome).getD .ignored

theorem SameText.refl (array : Memory) : SameText array array := fun _ _ => rfl

theorem SameSettings.refl (state : PostState) : SameSettings state state :=
  ⟨.refl _, .refl _, .refl _⟩

theorem sameText_of_holds {left right : Memory} {text : List Byte}
    (holdsLeft : Holds left 0 (text ++ [0])) (holdsRight : Holds right 0 (text ++ [0])) :
    SameText left right := by
  intro position before
  have bytesLeft := holds_iff.mp holdsLeft
  have bytesRight := holds_iff.mp holdsRight
  have inside : position < (text ++ [0]).length := by
    by_contra behind
    rw [List.length_append, List.length_singleton] at behind
    have nul := bytesLeft text.length (by simp)
    rw [List.getElem_concat_length rfl, Nat.zero_add] at nul
    exact before text.length (by omega) nul
  have byteLeft := bytesLeft position inside
  have byteRight := bytesRight position inside
  rw [Nat.zero_add] at byteLeft byteRight
  rw [byteLeft, byteRight]

theorem not_sameText {left right : Memory} (differs : left 0 ≠ right 0) : ¬SameText left right :=
  fun same => differs (same 0 fun _ impossible => absurd impossible (Nat.not_lt_zero _))

section Runs

variable {lib : PbufLib} {stack : Stack} {connection : Nat} {state : PostState}
  {region : Nat → Prop} {flash : Memory} {first : Pbuf} {rest : List Pbuf}

@[simp] theorem httpdPostFinished_wifiSsid (connection : Nat) (state : PostState) :
    (httpdPostFinished connection state).wifiSsid = state.wifiSsid := by
  simp only [httpdPostFinished]
  split
  · split <;> rfl
  · rfl

@[simp] theorem httpdPostFinished_wifiPassword (connection : Nat) (state : PostState) :
    (httpdPostFinished connection state).wifiPassword = state.wifiPassword := by
  simp only [httpdPostFinished]
  split
  · split <;> rfl
  · rfl

@[simp] theorem httpdPostFinished_localHostName (connection : Nat) (state : PostState) :
    (httpdPostFinished connection state).localHostName = state.localHostName := by
  simp only [httpdPostFinished]
  split
  · split <;> rfl
  · rfl

/-- Pieces that show no form change nothing. -/
theorem receivePieces_silent (lawful : lib.Lawful)
    (silent : ∀ piece ∈ rest, Silent piece ∧ piece.length < 0x10000)
    (current : state.currentConnection = some connection) (fuel : Nat) :
    receivePieces lib fuel stack connection rest state = Pure.pure state := by
  induction rest with
  | nil => rfl
  | cons piece rest ih =>
      obtain ⟨quiet, short⟩ := silent piece List.mem_cons_self
      rw [receivePieces, receive_silent lawful short quiet current]
      exact ih fun other member => silent other (List.mem_cons_of_mem _ member)

/-- The end of a form is that of its first piece. -/
theorem postForm_completes (lawful : lib.Lawful)
    (silent : ∀ piece ∈ rest, Silent piece ∧ piece.length < 0x10000)
    (current : state.currentConnection = some connection) {writes : List Op} {err : Err}
    {result : PostState}
    (receive : FlashProg.Completes region
      (fun fuel => httpdPostReceiveData lib fuel stack connection first state) flash writes
      (err, result)) :
    FlashProg.Completes region
      (fun fuel => postForm lib fuel stack connection (first :: rest) state) flash writes
      (httpdPostFinished connection result) := by
  have current' : result.currentConnection = some connection := by
    obtain ⟨bound, exec⟩ := receive
    exact (receive_current bound first state _ _ _ _ (exec bound (Nat.le_refl _))).trans current
  simp only [postForm, receivePieces]
  rw [← List.append_nil writes]
  refine FlashProg.Completes.bind ?_ (FlashProg.Exec.pure _).completes
  rw [← List.append_nil writes]
  refine receive.bind ?_
  simp only [receivePieces_silent lawful silent current']
  exact (FlashProg.Exec.pure _).completes

/-- A run of a form contains one of its first piece. -/
theorem postForm_exec (lawful : lib.Lawful)
    (silent : ∀ piece ∈ rest, Silent piece ∧ piece.length < 0x10000)
    (current : state.currentConnection = some connection) {fuel : Nat} {writes : List Op}
    {after : PostState}
    (exec : (postForm lib fuel stack connection (first :: rest) state).Exec region flash writes
      after) :
    ∃ err result, (httpdPostReceiveData lib fuel stack connection first state).Exec region flash
        writes (err, result) ∧ after = httpdPostFinished connection result := by
  simp only [postForm, receivePieces] at exec
  obtain ⟨whole, received, last, rfl, pieces, rfl, rfl⟩ := FlashProg.exec_bind_iff.mp exec
  obtain ⟨writes, ⟨err, result⟩, later, rfl, receive, others⟩ := FlashProg.exec_bind_iff.mp pieces
  have current' : result.currentConnection = some connection :=
    (receive_current fuel first state _ _ _ _ receive).trans current
  simp only [receivePieces_silent lawful silent current'] at others
  obtain ⟨rfl, rfl⟩ := others
  refine ⟨err, result, ?_, rfl⟩
  rw [List.append_nil, List.append_nil]
  exact receive

end Runs

/-! ## Beginnings -/

/-- The networks of a form are encoded; its name may be cut off inside an escape. -/
def Form.Whole : Form → Prop
  | .credentials ssid pass _ => Post.Encoded ssid ∧ Post.Encoded pass
  | .config _ => True

/-- The first piece is the form `shown`, or shows none, and the others show none. -/
structure Begins (first : Pbuf) (rest : List Pbuf) (shown : Option Form) : Prop where
  short : first.length < 0x10000
  silent : ∀ piece ∈ rest, Silent piece ∧ piece.length < 0x10000
  unshown : shown = none → Silent first
  shows : ∀ form, shown = some form → first = form.body ∧ form.Plain ∧ form.Whole

/-- What becomes of a beginning. -/
def outcome (shown : Option Form) : Outcome := (shown.map Form.outcome).getD .ignored

section Beginnings

variable {lib : PbufLib} {stack : Stack} {connection : Nat} {state : PostState}
  {region : Nat → Prop} {flash : Memory} {first other : Pbuf} {rest others : List Pbuf}
  {shown shown' : Option Form}

/-- An ignored beginning changes nothing. -/
theorem Begins.ignored (begins : Begins first rest shown) (lawful : lib.Lawful)
    (ignored : outcome shown = .ignored) (current : state.currentConnection = some connection)
    (fuel : Nat) :
    httpdPostReceiveData lib fuel stack connection first state = Pure.pure (.ok, state) := by
  have short := begins.short
  cases shown with
  | none => exact receive_silent lawful short (begins.unshown rfl) current fuel
  | some form =>
      obtain ⟨rfl, plain, -⟩ := begins.shows form rfl
      exact receive_ignored lawful plain short ignored current fuel

/-- A beginning whose name is too long changes the credentials in memory. -/
theorem Begins.touched (begins : Begins first rest shown) (lawful : lib.Lawful)
    (touched : outcome shown = .touched) :
    ∃ ssid pass host, shown = some (.credentials ssid pass host) ∧
      ∀ (stack : Stack) (state : PostState) (region : Nat → Prop) (flash : Memory),
        state.currentConnection = some connection →
        ∃ wifiSsid wifiPassword, Holds wifiSsid 0 (decode ssid ++ [0]) ∧
          Holds wifiPassword 0 (decode pass ++ [0]) ∧
          FlashProg.Completes region
            (fun fuel => httpdPostReceiveData lib fuel stack connection first state) flash []
            (.ok, { state with wifiSsid, wifiPassword }) := by
  have short := begins.short
  cases shown with
  | none => cases touched
  | some form =>
      obtain ⟨rfl, plain, whole⟩ := begins.shows form rfl
      cases form with
      | credentials ssid pass host =>
          exact ⟨ssid, pass, host, rfl, fun stack state region flash current =>
            receive_touched lawful plain short touched whole.1 whole.2 current⟩
      | config value =>
          have impossible : (Form.config value).outcome = .touched := touched
          rw [Form.outcome] at impossible
          split at impossible <;> cases impossible

/-- A beginning that is not stored leaves the flash and the name as they are. -/
theorem Begins.keeps (begins : Begins first rest shown) (lawful : lib.Lawful)
    (kept : outcome shown ≠ .stored) (current : state.currentConnection = some connection) :
    ∃ result, FlashProg.Completes region
        (fun fuel => httpdPostReceiveData lib fuel stack connection first state) flash []
        (.ok, result) ∧ result.localHostName = state.localHostName := by
  cases known : outcome shown with
  | ignored =>
      refine ⟨state, ?_, rfl⟩
      simp only [begins.ignored lawful known current]
      exact (FlashProg.Exec.pure _).completes
  | touched =>
      obtain ⟨ssid, pass, host, -, run⟩ := @Begins.touched lib connection _ _ _ begins lawful known
      obtain ⟨wifiSsid, wifiPassword, -, -, completes⟩ := run stack state region flash current
      exact ⟨_, completes, rfl⟩
  | stored => exact absurd known kept

/-- Beginnings with the same outcome make no difference if it is not stored. -/
theorem matches_of_outcome (begins : Begins first rest shown) (begins' : Begins other others shown')
    (lawful : lib.Lawful) (same : outcome shown = outcome shown') (kept : outcome shown ≠ .stored)
    (networks : ∀ ssid pass host ssid' pass' host', shown = some (.credentials ssid pass host) →
      shown' = some (.credentials ssid' pass' host') → ssid = ssid' ∧ pass = pass') :
    Matches lib connection (first :: rest) (other :: others) := by
  rintro stack state flash current after final ⟨writes, completes, rfl⟩
  cases known : outcome shown with
  | ignored =>
      have run : FlashProg.Completes (fun _ => True)
        (fun fuel => httpdPostReceiveData lib fuel stack
          connection first state) flash [] (.ok, state) := by
        simp only [begins.ignored lawful known current]
        exact (FlashProg.Exec.pure _).completes
      have run' : FlashProg.Completes (fun _ => True)
        (fun fuel => httpdPostReceiveData lib fuel stack
          connection other state) flash [] (.ok, state) := by
        simp only [begins'.ignored lawful (same ▸ known) current]
        exact (FlashProg.Exec.pure _).completes
      obtain ⟨rfl, rfl⟩ := completes.unique (postForm_completes lawful begins.silent current run)
      exact ⟨_, ⟨[], postForm_completes lawful begins'.silent current run', rfl⟩, .refl _⟩
  | touched =>
      obtain ⟨ssid, pass, host, rfl, run⟩ :=
        @Begins.touched lib connection _ _ _ begins lawful known
      obtain ⟨ssid', pass', host', rfl, run'⟩ :=
        @Begins.touched lib connection _ _ _ begins' lawful (same ▸ known)
      obtain ⟨rfl, rfl⟩ := networks _ _ _ _ _ _ rfl rfl
      obtain ⟨wifiSsid, wifiPassword, ssidHolds, passHolds, receive⟩ :=
        run stack state (fun _ => True) flash current
      obtain ⟨wifiSsid', wifiPassword', ssidHolds', passHolds', receive'⟩ :=
        run' stack state (fun _ => True) flash current
      obtain ⟨rfl, rfl⟩ := completes.unique
        (postForm_completes lawful begins.silent current receive)
      refine ⟨_, ⟨[], postForm_completes lawful begins'.silent current receive', rfl⟩, ?_, ?_, ?_⟩
      · simp only [httpdPostFinished_wifiSsid]
        exact sameText_of_holds ssidHolds ssidHolds'
      · simp only [httpdPostFinished_wifiPassword]
        exact sameText_of_holds passHolds passHolds'
      · simp only [httpdPostFinished_localHostName]
        exact .refl _
  | stored => exact absurd known kept

end Beginnings

/-! ## States that tell outcomes apart -/

/-- The start of a form with these bytes in the arrays. -/
def startState (connection : Nat) (ssidByte nameByte : Byte) : PostState where
  wifiSsid _ := ssidByte
  wifiPassword _ := 0
  localHostName _ := nameByte
  configChanged := 0
  currentConnection := some connection
  validConnection := none
  validJson := none
  validConfig := none
  pagebuff _ := 0

/-- A stack of zeros. -/
def zeroStack : Stack where
  rb := .zeroed
  tempssid _ := 0

/-- A record that is neither a network nor a name. -/
def otherRequest : Request where
  id := 3
  data _ := 0
  size := 1
  id_ne := by decide
  size_pos := Nat.one_pos

theorem otherRequest_short : otherRequest.size ≤ 4088 := by decide

/-- A sector with that record. -/
def otherSector : Sector := Sector.single 1 (otherRequest.whole otherRequest_short)

/-- A ring with that sector and nothing else. -/
def otherCells (k : Nat) : Option Sector := if k = 0 then some otherSector else none

theorem other_oneSectorUsed :
    OneSectorUsed quadRing (ringImage quadRing otherCells) otherCells otherSector where
  holds := ringHolds_image quadRing otherCells
  ordered := {
    start_lt := quadRing.sectors_pos
    length_le := show 1 ≤ 4 by decide
    cell := by
      intro distance bound
      have place : quadRing.ahead 0 distance = distance := by
        rw [Geometry.ahead, Nat.zero_add, if_pos bound]
      rw [place]
      cases distance with
      | zero => rfl
      | succ distance => rfl
    ascending := List.pairwise_singleton _ _
    bounded := by
      intro sector member
      rw [List.mem_singleton.mp member]
      decide
    closed := nofun
    nonempty := by
      intro sector member
      rw [List.mem_singleton.mp member]
      exact List.cons_ne_nil _ _
    blank := nofun }
  more := show 1 < 4 by decide

theorem otherSector_unwanted {id : Byte} (different : otherRequest.id ≠ id) :
    ∀ fragment ∈ otherSector.frags, ¬Wanted id fragment := by
  intro fragment member wanted
  rw [List.mem_singleton.mp member] at wanted
  exact different wanted.1

theorem otherSector_roomy : Roomy otherSector where
  room := by decide
  noNetwork := otherSector_unwanted (by decide)
  noName := otherSector_unwanted (by decide)

section Differences

variable {lib : PbufLib} {connection : Nat} {first other : Pbuf} {rest others : List Pbuf}
  {shown shown' : Option Form}

theorem add_one_ne (byte : Byte) : byte + 1 ≠ byte := by
  bv_omega

/-- A form that is stored leaves another name behind than one that is not. -/
theorem not_matches_of_stored (begins : Begins first rest shown)
    (begins' : Begins other others shown') (lawful : lib.Lawful) (kept : outcome shown ≠ .stored)
    (stored : outcome shown' = .stored) :
    ¬Matches lib connection (first :: rest) (other :: others) := by
  intro same
  have short := begins'.short
  cases shown' with
  | none => cases stored
  | some form =>
      obtain ⟨rfl, plain, -⟩ := begins'.shows form rfl
      have current : (startState connection 0 (firstChar form.name + 1)).currentConnection =
        some connection := rfl
      obtain ⟨result, receive, unchanged⟩ := @Begins.keeps lib zeroStack connection _
        (fun _ => True)
        (fun _ => 0) _ _ _ begins lawful kept current
      obtain ⟨after', ⟨writes, ⟨bound, completes⟩, -⟩, settings⟩ := same zeroStack _ (fun _ => 0)
        current _ _ ⟨[], postForm_completes lawful begins.silent current receive, rfl⟩
      obtain ⟨err, result', receive', rfl⟩ := postForm_exec lawful begins'.silent current
        (completes bound (Nat.le_refl _))
      have begun : result'.localHostName 0 = firstChar form.name :=
        receive_first lawful plain short stored current bound _ _ _ _ receive'
      refine not_sameText ?_ settings.localHostName
      simp only [httpdPostFinished_localHostName, unchanged, begun]
      exact add_one_ne _

/-- A form that changes the credentials in memory leaves another network than one that is
ignored. -/
theorem not_matches_of_touched (begins : Begins first rest shown)
    (begins' : Begins other others shown') (lawful : lib.Lawful)
    (ignored : outcome shown = .ignored)
    (touched : outcome shown' = .touched) :
    ¬Matches lib connection (first :: rest) (other :: others) := by
  intro same
  obtain ⟨ssid, pass, host, -, run⟩ := @Begins.touched lib connection _ _ _ begins' lawful touched
  have inside : 0 < (decode ssid ++ [0]).length := by simp
  have current : (startState connection ((decode ssid ++ [0])[0] + 1) 0).currentConnection =
    some connection := rfl
  obtain ⟨wifiSsid, wifiPassword, holds, -, receive'⟩ := run zeroStack _ (fun _ => True)
    (fun _ => 0)
    current
  have receive : FlashProg.Completes (fun _ => True) (fun fuel => httpdPostReceiveData lib fuel
      zeroStack connection first (startState connection ((decode ssid ++ [0])[0] + 1) 0))
      (fun _ => 0)
      [] (.ok, startState connection ((decode ssid ++ [0])[0] + 1) 0) := by
    simp only [begins.ignored lawful ignored current]
    exact (FlashProg.Exec.pure _).completes
  obtain ⟨after', ⟨writes, completes, -⟩, settings⟩ := same zeroStack _ (fun _ => 0) current _ _
    ⟨[], postForm_completes lawful begins.silent current receive, rfl⟩
  obtain ⟨rfl, rfl⟩ := completes.unique (postForm_completes lawful begins'.silent current receive')
  have begun : wifiSsid 0 = (decode ssid ++ [0])[0] := (holds_iff.mp holds) 0 inside
  refine not_sameText ?_ settings.wifiSsid
  simp only [httpdPostFinished_wifiSsid, begun]
  exact add_one_ne _

/-- Two names of different lengths leave different records behind. -/
theorem not_matches_of_lengths (begins : Begins first rest shown)
    (begins' : Begins other others shown') (lawful : lib.Lawful) {form form' : Form}
    (here : shown = some form) (here' : shown' = some form') (stored : form.outcome = .stored)
    (stored' : form'.outcome = .stored) (differs : form.recordLength ≠ form'.recordLength) :
    ¬Matches lib connection (first :: rest) (other :: others) := by
  intro same
  have opens : Opens quadRing persistentTable (persistentLen / flashSectorSize) :=
    ⟨by decide, by decide⟩
  have current : (startState connection 0 0).currentConnection = some connection := rfl
  have blank : Blank (startState connection 0 0) :=
    ⟨fun _ _ => rfl, fun _ _ => rfl, fun _ _ => rfl⟩
  have short := begins.short
  have short' := begins'.short
  obtain ⟨rfl, plain, -⟩ := begins.shows form here
  obtain ⟨rfl, plain', -⟩ := begins'.shows form' here'
  obtain ⟨writes, result, cells, sector, frags, record, receive, used, ends, length⟩ :=
    @receive_stores lib zeroStack connection _ _ _ _ _ _ lawful plain short stored current blank
      other_oneSectorUsed otherSector_roomy opens
  obtain ⟨writes', result', cells', sector', frags', record', receive', used', ends', length'⟩ :=
    @receive_stores lib zeroStack connection _ _ _ _ _ _ lawful plain' short' stored' current blank
      other_oneSectorUsed otherSector_roomy opens
  have anywhere := fun (query : Nat) (_ : quadRing.extended query) => trivial
  obtain ⟨after', ⟨written, completes, final⟩, -⟩ := same zeroStack _
    (ringImage quadRing otherCells) current _ _
    ⟨writes, postForm_completes lawful begins.silent current (receive.mono anywhere), rfl⟩
  obtain ⟨rfl, -⟩ := completes.unique
    (postForm_completes lawful begins'.silent current (receive'.mono anywhere))
  rw [final] at used'
  have sectors := used.holds.unique used'.holds quadRing.sectors_pos
  rw [used.cell, used'.cell, Option.some.injEq] at sectors
  rw [← sectors, ends] at ends'
  obtain ⟨-, last⟩ := List.append_inj' ends' rfl
  rw [List.singleton_inj.mp last] at length
  exact differs (length.symm.trans length')

end Differences

/-! ## Every cut of every form -/

section Cut

variable {lib : PbufLib} {connection : Nat} {form : Form} {first : Pbuf} {rest : List Pbuf}

theorem Form.Encoded.plain (encoded : form.Encoded) : form.Plain := by
  intro value member char inside
  have chars := (encoded value member).plain_chars char inside
  exact ⟨chars.2.1, chars.2.2⟩

/-- Of the beginning of an encoded form only the name may be cut off. -/
theorem Form.received_whole (encoded : form.Encoded) {received : Nat} {part : Form}
    (some : form.received received = some part) : part.Whole := by
  cases form with
  | credentials ssid pass host =>
      simp only [Form.received, Option.ite_none_right_eq_some, Option.some.injEq] at some
      obtain ⟨-, rfl⟩ := some
      exact ⟨encoded ssid (by simp [Form.values]), encoded pass (by simp [Form.values])⟩
  | config value =>
      simp only [Form.received, Option.ite_none_right_eq_some, Option.some.injEq] at some
      obtain ⟨-, rfl⟩ := some
      trivial

theorem Form.received_all (form : Form) : form.received form.body.length = some form := by
  cases form with
  | credentials ssid pass host =>
      obtain ⟨-, -, -, length⟩ := credentials_here ssid pass host
      rw [length, Form.received, if_pos (by omega), List.take_of_length_le (by omega)]
  | config value =>
      have length : (Form.config value).body.length = value.length + 7 := by simp [Form.body, chars]
      rw [length, Form.received, if_pos (by omega), List.take_of_length_le (by omega)]

/-- The form in one piece. -/
theorem begins_whole (encoded : form.Encoded) (short : form.body.length < 0x10000) :
    Begins form.body [] (some form) where
  short := short
  silent := nofun
  unshown := nofun
  shows := by
    rintro _ ⟨rfl⟩
    exact ⟨rfl, encoded.plain, Form.received_whole encoded form.received_all⟩

/-- The form in several pieces. -/
theorem begins_split (encoded : form.Encoded) (short : form.body.length < 0x10000)
    (nonempty : first ≠ []) (split : (first :: rest).flatten = form.body) :
    Begins first rest (form.received first.length) := by
  rw [List.flatten_cons] at split
  have taken : form.body.take first.length = first := by rw [← split, List.take_left]
  have length := congrArg List.length split
  rw [List.length_append] at length
  refine ⟨by omega, fun piece member => ?_, fun none => ?_, fun part some => ?_⟩
  · obtain ⟨before, after, rfl⟩ := List.append_of_mem member
    rw [List.flatten_append, List.flatten_cons] at split length
    simp only [List.length_append] at length
    refine ⟨@Form.silent_later form piece encoded.plain (first ++ before.flatten) after.flatten
      (fun empty => nonempty (List.append_eq_nil_iff.mp empty).1) ?_, by omega⟩
    rw [← split]
    simp
  · rw [← taken]
    exact Form.received_none encoded.plain none
  · refine ⟨?_, Form.received_plain encoded.plain some, Form.received_whole encoded some⟩
    rw [Form.received_body some, taken]

/-- The networks of a beginning are those of the form. -/
theorem Form.received_networks {received : Nat} {ssid pass host ssid' pass' host' : List Byte}
    (whole : form = .credentials ssid pass host)
    (part : form.received received = some (.credentials ssid' pass' host')) :
    ssid = ssid' ∧ pass = pass' := by
  subst whole
  simp only [Form.received, Option.ite_none_right_eq_some, Option.some.injEq,
    Form.credentials.injEq] at part
  exact ⟨part.2.1, part.2.2.1⟩

/-- A beginning that is stored in place of a stored form has a shorter name. -/
theorem Form.received_shorter {received : Nat} {part : Form}
    (some : form.received received = some part) (missing : received < form.body.length) :
    part.recordLength < form.recordLength := by
  cases form with
  | credentials ssid pass host =>
      simp only [Form.received, Option.ite_none_right_eq_some, Option.some.injEq] at some
      obtain ⟨long, rfl⟩ := some
      obtain ⟨-, -, -, length⟩ := credentials_here ssid pass host
      simp only [Form.recordLength, List.length_take]
      omega
  | config value =>
      simp only [Form.received, Option.ite_none_right_eq_some, Option.some.injEq] at some
      obtain ⟨long, rfl⟩ := some
      have length : (Form.config value).body.length = value.length + 7 := by simp [Form.body, chars]
      simp only [Form.recordLength, List.length_take]
      omega

/-- The cut makes a difference if the form or its beginning is stored, or one of the two is ignored
and the other is not. -/
theorem segmentation_relevant (lawful : lib.Lawful) (encoded : form.Encoded)
    (short : form.body.length < 0x10000) (nonempty : first ≠ [])
    (split : (first :: rest).flatten = form.body) (cut : first.length < form.body.length)
    (either : form.outcome = .stored ∨ form.outcomeOf first.length ≠ form.outcome) :
    ¬SegmentationIrrelevant lib connection form.body (first :: rest) := by
  rintro ⟨there, back⟩
  have whole := begins_whole encoded short
  have part := begins_split encoded short nonempty split
  have same : outcome (some form) = form.outcome := rfl
  have same' : outcome (form.received first.length) = form.outcomeOf first.length := rfl
  cases known : form.outcome with
  | stored =>
      cases known' : form.outcomeOf first.length with
      | stored =>
          rcases received : form.received first.length with _ | beginning
          · rw [Form.outcomeOf, received] at known'
            cases known'
          · rw [Form.outcomeOf, received] at known'
            have shorter := Form.received_shorter received cut
            exact not_matches_of_lengths whole part lawful rfl received known known'
              (Nat.ne_of_gt shorter) there
      | ignored =>
          exact not_matches_of_stored part whole lawful (by rw [same', known']; decide)
            known back
      | touched =>
          exact not_matches_of_stored part whole lawful (by rw [same', known']; decide)
            known back
  | ignored =>
      have differs := either.resolve_left (by rw [known]; decide)
      cases known' : form.outcomeOf first.length with
      | stored =>
          exact not_matches_of_stored whole part lawful (by rw [same, known]; decide)
            known' there
      | ignored => exact differs (known'.trans known.symm)
      | touched => exact not_matches_of_touched whole part lawful known known' there
  | touched =>
      have differs := either.resolve_left (by rw [known]; decide)
      cases known' : form.outcomeOf first.length with
      | stored =>
          exact not_matches_of_stored whole part lawful (by rw [same, known]; decide)
            known' there
      | ignored => exact not_matches_of_touched part whole lawful known' known back
      | touched => exact differs (known'.trans known.symm)

end Cut

/-! ## A chain of one `pbuf` -/

/-- The functions on a chain of one `pbuf`. -/
def onePbuf : PbufLib where
  memfind p mem startOffset :=
    ((List.range p.length).find? fun k => startOffset ≤ k ∧ mem.isPrefixOf (p.drop k)).getD 0xffff
  getContiguous p buffer bufsize len offset :=
    if bufsize < len ∨ p.length < offset + len then none
    else some (store buffer 0 ((p.drop offset).take len))

theorem onePbuf_lawful : onePbuf.Lawful where
  memfind_found := by
    intro p mem startOffset k _ nonempty above occurs least
    obtain ⟨front, back, rfl, rfl⟩ := occurs.split nonempty
    have inside : front.length < (front ++ (mem ++ back)).length := by
      have := List.length_pos_iff.mpr nonempty
      simp only [List.length_append]
      omega
    have first : (List.range (front ++ (mem ++ back)).length).find?
        (fun k => startOffset ≤ k ∧ mem.isPrefixOf ((front ++ (mem ++ back)).drop k)) =
        some front.length := by
      rw [List.find?_range_eq_some]
      refine ⟨by simp [above], by simpa using inside, fun j before => ?_⟩
      by_cases early : startOffset ≤ j
      · have absent := least j early before
        rw [← occurs_iff] at absent
        simpa [early] using absent
      · simp [early]
    simp only [onePbuf, first, Option.getD_some]
  memfind_absent := by
    intro p mem startOffset _ _ absent
    have nowhere : (List.range p.length).find?
        (fun k => startOffset ≤ k ∧ mem.isPrefixOf (p.drop k)) = none := by
      rw [List.find?_eq_none]
      intro k _ found
      simp only [Bool.decide_and, Bool.decide_eq_true, Bool.and_eq_true, decide_eq_true_eq] at found
      exact absent k found.1 (occurs_iff.mp found.2)
    simp only [onePbuf, nowhere, Option.getD_none]
  contiguous_refused := by
    intro p buffer bufsize len offset long
    exact if_pos (.inl long)
  contiguous_fetched := by
    intro p buffer bufsize len offset _ fits _ inside
    exact ⟨_, if_neg (by omega), holds_store _ _ _⟩

/-! ## Exactly when the cut makes no difference -/

/-- For every encoded form and every cut of its body: the cut makes no difference, from any state,
if and only if the body is in one piece, or nothing of the form is stored and its first piece alone
has the same outcome. -/
theorem segmentation_irrelevant_iff {lib : PbufLib} (lawful : lib.Lawful) (connection : Nat)
    {form : Form} (encoded : form.Encoded) (short : form.body.length < 0x10000)
    {pieces : List Pbuf} (nonempty : ∀ piece ∈ pieces, piece ≠ [])
    (split : pieces.flatten = form.body) :
    SegmentationIrrelevant lib connection form.body pieces ↔
      pieces.length = 1 ∨ (form.outcome ≠ .stored ∧
        form.outcomeOf (pieces.headD []).length = form.outcome) := by
  cases pieces with
  | nil =>
      have empty := congrArg List.length split
      cases form <;> simp [Form.body, chars] at empty
  | cons first rest =>
      have firstNonempty := nonempty first List.mem_cons_self
      rw [List.headD_cons]
      cases rest with
      | nil =>
          obtain rfl : first = form.body := by simpa using split
          exact iff_of_true ⟨fun _ _ _ _ after _ ends => ⟨after, ends, .refl _⟩,
            fun _ _ _ _ after _ ends => ⟨after, ends, .refl _⟩⟩ (.inl rfl)
      | cons second rest =>
          have positive := List.length_pos_iff.mpr
            (nonempty second (List.mem_cons_of_mem _ List.mem_cons_self))
          have cut : first.length < form.body.length := by
            rw [← split]
            simp only [List.flatten_cons, List.length_append]
            omega
          have several : (first :: second :: rest).length ≠ 1 := by simp
          rw [or_iff_right several]
          constructor
          · intro irrelevant
            by_contra refused
            refine segmentation_relevant lawful encoded short firstNonempty split cut ?_ irrelevant
            by_cases stored : form.outcome = .stored
            · exact .inl stored
            · exact .inr fun equal => refused ⟨stored, equal⟩
          · rintro ⟨kept, equal⟩
            have whole := begins_whole encoded short
            have part := begins_split encoded short firstNonempty split
            have kept' : form.outcomeOf first.length ≠ .stored := fun stored =>
              kept (equal.symm.trans stored)
            refine ⟨matches_of_outcome whole part lawful equal.symm kept ?_,
              matches_of_outcome part whole lawful equal kept' ?_⟩
            · intro ssid pass host ssid' pass' host' here here'
              exact Form.received_networks (Option.some.inj here) here'
            · intro ssid pass host ssid' pass' host' here here'
              obtain ⟨rfl, rfl⟩ := Form.received_networks (Option.some.inj here') here
              exact ⟨rfl, rfl⟩

theorem config_encoded : (Form.config (chars "ab")).Encoded := by
  intro value member
  rw [List.mem_singleton.mp member]
  exact .plain (by decide) (by decide) (by decide) (by decide)
    (.plain (by decide) (by decide) (by decide) (by decide) .nil)

theorem segmentation_irrelevant_ab :
    SegmentationIrrelevant onePbuf 1 (Form.config (chars "ab")).body
        [chars "config=a", chars "b"] ↔
      [chars "config=a", chars "b"].length = 1 ∨
        ((Form.config (chars "ab")).outcome ≠ .stored ∧
          (Form.config (chars "ab")).outcomeOf
            ([chars "config=a", chars "b"].headD []).length =
            (Form.config (chars "ab")).outcome) :=
  segmentation_irrelevant_iff onePbuf_lawful 1 config_encoded (by decide) (by decide) (by decide)

/-- The name `ab` cut into `a` and `b`. -/
theorem name_cut_relevant :
    ¬SegmentationIrrelevant onePbuf 1 (Form.config (chars "ab")).body
      [chars "config=a", chars "b"] :=
  segmentation_relevant onePbuf_lawful config_encoded (by decide) (by decide) (by decide)
    (by decide) (.inl (by decide))

end PicoApConfigure.Post
