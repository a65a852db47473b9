import PicoApConfigure.Nor.Run
import PicoApConfigure.Json.Agreement

/-!
# The count of the mirror

The count changes when a page is shown, which increments it, and when a message is taken, whose
text replaces the mirror.  Whether a message is taken depends on the version in its header; the
count afterwards is that of the text.  Nothing compares the two, and nothing stops the increment
of the largest `int`.
-/

namespace PicoApConfigure.Json

open Nor

section Counter

variable {Json : Type} (lib : CJson Json)

/-- What the program relies on of cJSON's numbers: `valueint` is an `int`, a number that is set is
read back, and the object that is created has the default count. -/
structure CJson.Numbers : Prop where
  bounded : ∀ json count, lib.updateCount json = some count → count ≤ 2147483647
  counted : ∀ json count, lib.updateCount json ≠ none → Count count →
    lib.updateCount (lib.setUpdateCount json count) = some count
  created : lib.updateCount lib.created = some defaultUpdateCount

/-- A change of the mirror: the tag `u_cnt` of a page, a message for the server, or a reply of
`size` bytes for the client, with the message in the buffer. -/
inductive CounterEvent where
  | increment
  | check (buffer : Memory)
  | reply (size : Int) (buffer : Memory)

/-- The mirror after the change. -/
def changeMirror (mirror : Option Json) : CounterEvent → Option Json
  | .increment => some (getMirror lib (mirror.map (incMirrorCounter lib)))
  | .check buffer => (tcpServerJsonCheckFreshness lib { buffer, mirror }).2.mirror
  | .reply size buffer => (tcpClientJsonHandleReply lib size { buffer, mirror }).mirror

/-- The text of the message replaces the mirror. -/
def Takes (mirror : Option Json) : CounterEvent → Prop
  | .increment => False
  | .check buffer => uint32 (getMirrorUpdateCount lib mirror) ≤ dataVersionField buffer
  | .reply size buffer => headerSize < uint32 size ∧
      uint32 (getMirrorUpdateCount lib mirror) ≤ dataVersionField buffer

/-- The text of a message. -/
def CounterEvent.parsed : CounterEvent → Option Json
  | .increment => none
  | .check buffer => lib.parse (textOf buffer)
  | .reply _ buffer => lib.parse (textOf buffer)

/-- An increment of the count is larger than before and no signed overflow, and the count stays
in the range in which it is sent. -/
structure CountsUp (mirror : Option Json) (event : CounterEvent) : Prop where
  larger : event = .increment →
    getMirrorUpdateCount lib mirror < getMirrorUpdateCount lib (changeMirror lib mirror event)
  inRange : event = .increment → ∀ json count, mirror = some json →
    lib.updateCount json = some count → count + 1 ≤ 2147483647
  positive : 0 < getMirrorUpdateCount lib (changeMirror lib mirror event)

/-- The mirror has a number for its count that can be incremented, and a text that is taken has a
positive count. -/
def Countable (mirror : Option Json) (event : CounterEvent) : Prop :=
  (event = .increment → ∃ json count, mirror = some json ∧ lib.updateCount json = some count ∧
    count < 2147483647) ∧
  (Takes lib mirror event → 0 < getMirrorUpdateCount lib (event.parsed lib))

variable {lib} {mirror : Option Json} {event : CounterEvent}

theorem getMirror_kept (mirror : Option Json) :
    getMirrorUpdateCount lib (some (getMirror lib mirror)) = getMirrorUpdateCount lib mirror := rfl

/-- A message that is taken leaves the count of its text. -/
theorem changeMirror_takes (message : event ≠ .increment) (takes : Takes lib mirror event) :
    changeMirror lib mirror event = event.parsed lib := by
  cases event with
  | increment => exact absurd rfl message
  | check buffer =>
      have taken : uint32 (getMirrorUpdateCount lib mirror) ≤ dataVersionField buffer := takes
      simp only [changeMirror, tcpServerJsonCheckFreshness, if_pos taken, CounterEvent.parsed]
  | reply size buffer =>
      obtain ⟨long, taken⟩ := takes
      simp only [changeMirror, tcpClientJsonHandleReply, if_neg (Nat.not_le.mpr long), if_pos taken,
        CounterEvent.parsed]

/-- A message that is not taken leaves the count alone. -/
theorem changeMirror_refuses (message : event ≠ .increment) (refuses : ¬Takes lib mirror event) :
    getMirrorUpdateCount lib (changeMirror lib mirror event) = getMirrorUpdateCount lib mirror := by
  cases event with
  | increment => exact absurd rfl message
  | check buffer =>
      have kept : ¬uint32 (getMirrorUpdateCount lib mirror) ≤ dataVersionField buffer := refuses
      simp only [changeMirror, tcpServerJsonCheckFreshness, if_neg kept, getMirror_kept]
  | reply size buffer =>
      simp only [changeMirror, tcpClientJsonHandleReply]
      split
      · rfl
      · next long =>
          have kept : ¬uint32 (getMirrorUpdateCount lib mirror) ≤ dataVersionField buffer :=
            fun taken => refuses ⟨Nat.not_le.mp long, taken⟩
          rw [if_neg kept]
          rfl

/-- An increment of a count that can be incremented. -/
theorem changeMirror_increment (numbers : lib.Numbers) {json : Json} {count : Int}
    (counted : lib.updateCount json = some count) (bounds : Count (count + 1)) :
    getMirrorUpdateCount lib (changeMirror lib (some json) .increment) = count + 1 := by
  have set := numbers.counted json (count + 1) (by rw [counted]; exact Option.some_ne_none _) bounds
  simp only [changeMirror, Option.map_some, incMirrorCounter, counted,
    getMirrorUpdateCount, getMirror, Option.getD_some, set]

/-- The step: from a positive count on. -/
theorem countsUp_iff (numbers : lib.Numbers) (event : CounterEvent)
    (positive : 0 < getMirrorUpdateCount lib mirror) :
    CountsUp lib mirror event ↔ Countable lib mirror event := by
  by_cases message : event = .increment
  swap
  · have never : ¬event = .increment := message
    constructor
    · intro counts
      refine ⟨fun impossible => absurd impossible never, fun takes => ?_⟩
      rw [← changeMirror_takes message takes]
      exact counts.positive
    · rintro ⟨-, taken⟩
      refine ⟨fun impossible => absurd impossible never, fun impossible => absurd impossible never,
        ?_⟩
      by_cases takes : Takes lib mirror event
      · rw [changeMirror_takes message takes]
        exact taken takes
      · rw [changeMirror_refuses message takes]
        exact positive
  subst message
  constructor
  · intro counts
    refine ⟨fun _ => ?_, False.elim⟩
    have larger := counts.larger rfl
    rcases mirror with _ | json
    · exact absurd larger (Int.lt_irrefl _)
    · rcases counted : lib.updateCount json with _ | count
      · simp only [changeMirror, Option.map_some, incMirrorCounter, counted] at larger
        exact absurd larger (Int.lt_irrefl _)
      · exact ⟨json, count, rfl, counted, counts.inRange rfl json count rfl counted⟩
  · rintro ⟨number, -⟩
    obtain ⟨json, count, rfl, counted, below⟩ := number rfl
    rw [getMirrorUpdateCount_of counted] at positive
    have after := changeMirror_increment numbers counted ⟨by omega, by omega⟩
    refine ⟨fun _ => ?_, fun _ => ?_, ?_⟩
    · rw [after, getMirrorUpdateCount_of counted]
      exact Int.lt_succ count
    · rintro other count' ⟨rfl⟩ counted'
      obtain rfl := Option.some.inj (counted.symm.trans counted')
      omega
    · rw [after]
      omega

end Counter

/-- For every sequence of changes from a positive count on: every increment makes the count larger
without overflow and the count stays positive if and only if every increment meets a number below
the largest `int`, and every text that is taken has a positive count. -/
theorem counts_up_iff {Json : Type} {lib : CJson Json} (numbers : lib.Numbers)
    {start : Option Json} (positive : 0 < getMirrorUpdateCount lib start)
    (events : List CounterEvent) :
    Along (changeMirror lib) (CountsUp lib) start events ↔
      Along (changeMirror lib) (Countable lib) start events := by
  refine @Along.iff_of_invariant _ _ (changeMirror lib) _ _
    (fun mirror => 0 < getMirrorUpdateCount lib mirror)
    (fun mirror event positive => countsUp_iff numbers event positive) ?_ events start positive
  intro mirror event positive countable
  exact ((countsUp_iff numbers event positive).mpr countable).positive

theorem counters_numbers : counters.Numbers where
  bounded json count counted := by
    have bound := json.isLt
    cases counted
    omega
  counted json count numbered bounds :=
    counters_counting.counted json count numbered bounds
  created := rfl

theorem counts_up_increment :
    Along (changeMirror counters) (CountsUp counters) (some 1) [.increment] ↔
      Along (changeMirror counters) (Countable counters) (some 1) [.increment] :=
  counts_up_iff counters_numbers (by decide) [.increment]

/-- A message whose header and text may have different versions. -/
def forged (dataVersion : Nat) (version : dataVersion < 4294967296) (json : Fin 2147483648) :
    Message where
  dataVersion := dataVersion
  text := counters.print json
  version := version
  fits := show headerSize + 5 ≤ maxJsonBufSize by decide

/-- The buffer with a message. -/
def bufferOf (message : Message) : Memory := store (fun _ => 0) 0 message.bytes

theorem bufferOf_forged (dataVersion : Nat) (version : dataVersion < 4294967296)
    (json : Fin 2147483648) :
    dataVersionField (bufferOf (forged dataVersion version json)) = dataVersion ∧
      counters.parse (textOf (bufferOf (forged dataVersion version json))) = some json := by
  have holds := holds_store (fun _ => 0) 0 (forged dataVersion version json).bytes
  have fields := Message.fields (List.prefix_refl (forged dataVersion version json).bytes)
    (by rw [Message.bytes_length]; exact (forged dataVersion version json).headerSize_le_size) holds
  exact ⟨fields.2, counters_lawful.parsed _ _ (holds_textOf holds)⟩

/-- A text with the largest count is taken, and the next page increments it. -/
theorem largest_count_overflows :
    ¬Along (changeMirror counters) (CountsUp counters) none
      [.check (bufferOf (forged 2147483647 (by decide) 2147483647)), .increment] := by
  rintro ⟨-, counts, -⟩
  obtain ⟨version, text⟩ := bufferOf_forged 2147483647 (by decide) 2147483647
  have takes : Takes counters none
      (.check (bufferOf (forged 2147483647 (by decide) 2147483647))) := by
    rw [Takes, version]
    decide
  rw [@changeMirror_takes _ counters none (.check _) nofun takes] at counts
  exact absurd (counts.inRange rfl 2147483647 2147483647 text rfl) (by decide)

/-- For every count and every message whose text can be parsed: the count is not smaller afterwards,
on the server and on the client, if and only if the message is not taken or the count of its text
is not smaller. -/
theorem count_not_older_iff {Json : Type} {lib : CJson Json} {shared : Shared Json} {json : Json}
    (counted : Count (getMirrorUpdateCount lib shared.mirror))
    (parsed : lib.parse (textOf shared.buffer) = some json) (size : Int) :
    (getMirrorUpdateCount lib shared.mirror ≤
        getMirrorUpdateCount lib (tcpServerJsonCheckFreshness lib shared).2.mirror ↔
      dataVersionField shared.buffer < getMirrorUpdateCount lib shared.mirror ∨
        getMirrorUpdateCount lib shared.mirror ≤ getMirrorUpdateCount lib (some json)) ∧
    (getMirrorUpdateCount lib shared.mirror ≤
        getMirrorUpdateCount lib (tcpClientJsonHandleReply lib size shared).mirror ↔
      uint32 size ≤ headerSize ∨
      dataVersionField shared.buffer < getMirrorUpdateCount lib shared.mirror ∨
        getMirrorUpdateCount lib shared.mirror ≤ getMirrorUpdateCount lib (some json)) := by
  have version : ¬uint32 (getMirrorUpdateCount lib shared.mirror) ≤ dataVersionField shared.buffer ↔
      (dataVersionField shared.buffer : Int) < getMirrorUpdateCount lib shared.mirror := by
    obtain ⟨lower, upper⟩ := counted
    rw [uint32]
    omega
  have either : ∀ event : CounterEvent, event ≠ .increment → event.parsed lib = some json →
      (getMirrorUpdateCount lib shared.mirror ≤
          getMirrorUpdateCount lib (changeMirror lib shared.mirror event) ↔
        ¬Takes lib shared.mirror event ∨
          getMirrorUpdateCount lib shared.mirror ≤ getMirrorUpdateCount lib (some json)) := by
    intro event message text
    by_cases takes : Takes lib shared.mirror event
    · rw [changeMirror_takes message takes, text, or_iff_right (not_not.mpr takes)]
    · rw [changeMirror_refuses message takes]
      exact iff_of_true (Int.le_refl _) (.inl takes)
  refine ⟨(either (.check shared.buffer) nofun parsed).trans ?_,
    (either (.reply size shared.buffer) nofun parsed).trans ?_⟩
  · rw [Takes, version]
  · rw [Takes, not_and_or, Nat.not_lt, version, or_assoc]

theorem seven_version : 7 < 4294967296 := by decide

theorem five_count : 5 < 2147483648 := by decide

/-- A device with count 5 and a message whose header has version 7. -/
def olderShared (json : Fin 2147483648) : Shared (Fin 2147483648) where
  buffer := bufferOf (forged 7 seven_version json)
  mirror := some ⟨5, five_count⟩

theorem count_not_older_newer :
    (getMirrorUpdateCount counters (some 5) ≤ getMirrorUpdateCount counters
        (tcpServerJsonCheckFreshness counters (olderShared 7)).2.mirror ↔
      dataVersionField (olderShared 7).buffer < getMirrorUpdateCount counters (some 5) ∨
        getMirrorUpdateCount counters (some 5) ≤ getMirrorUpdateCount counters (some 7)) ∧
    (getMirrorUpdateCount counters (some 5) ≤ getMirrorUpdateCount counters
        (tcpClientJsonHandleReply counters 17 (olderShared 7)).mirror ↔
      uint32 17 ≤ headerSize ∨
      dataVersionField (olderShared 7).buffer < getMirrorUpdateCount counters (some 5) ∨
        getMirrorUpdateCount counters (some 5) ≤ getMirrorUpdateCount counters (some 7)) :=
  @count_not_older_iff _ counters (olderShared 7) 7 ⟨by decide, by decide⟩
    (bufferOf_forged 7 _ 7).2 17

/-- The text has count 1. -/
theorem count_older :
    ¬getMirrorUpdateCount counters (olderShared 1).mirror ≤ getMirrorUpdateCount counters
      (tcpServerJsonCheckFreshness counters (olderShared 1)).2.mirror := by
  obtain ⟨version, text⟩ := bufferOf_forged 7 (by decide) 1
  have takes : Takes counters (some 5) (.check (olderShared 1).buffer) := by
    rw [Takes, olderShared, version]
    decide
  have taken := @changeMirror_takes _ counters (some 5) (.check _) nofun takes
  rw [CounterEvent.parsed, olderShared, text] at taken
  have after : (tcpServerJsonCheckFreshness counters (olderShared 1)).2.mirror = some 1 := taken
  rw [after]
  decide

end PicoApConfigure.Json
