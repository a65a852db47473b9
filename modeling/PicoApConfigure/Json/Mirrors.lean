import PicoApConfigure.Json.Objects

/-!
# The mirrors of the devices

Devices that start with the objects that `get_mirror` creates never have others, up to the count,
and each of these fits in the buffer.
-/

namespace PicoApConfigure.Json

open Nor Cjson

/-! ## Kinds of objects -/

section Kinds

variable {Host Json : Type} {lib : CJson Json} {hosts : Hosts Host Json} {Kind : Json → Prop}

/-- An object that a message carries is one of the gossip. -/
theorem Carries.has {network : Network Host Json} {packet : Packet Host} {json : Json}
    (member : packet ∈ network.inFlight) (carries : Carries lib packet.bytes json) :
    (network.gossip (objectView lib)).Has json := by
  refine .inr ⟨packet.target, List.mem_map.mpr ⟨packet, member, ?_⟩⟩
  rw [Packet.shows, carries.objectIn_eq]
  rfl

namespace Network

/-- All objects on devices and in messages are of one kind. -/
structure Kept (lib : CJson Json) (Kind : Json → Prop) (network : Network Host Json) : Prop where
  sound : network.Sound lib
  kind : ∀ json, (network.gossip (objectView lib)).Has json → Kind json

/-- An increment does not overflow. -/
def Increments (lib : CJson Json) (network : Network Host Json) : NetworkEvent Host → Prop
  | .increment host => network.count lib host < 2147483647
  | _ => True

/-- An increment makes an object of the kind with a larger count. -/
theorem Kept.increment {network : Network Host Json} (counting : lib.Counting hosts)
    (closed : ∀ json count, Kind json → Count count → Kind (lib.setUpdateCount json count))
    (kept : network.Kept lib Kind) {host : Host} (below : network.count lib host < 2147483647) :
    network.count lib host ≤ ((network.node host).increment lib).count lib ∧
      Count (((network.node host).increment lib).count lib) ∧
      Kind (((network.node host).increment lib).shows (objectView lib)) := by
  have own := kept.sound.counts host
  have mine := kept.kind _ ((network.gossip (objectView lib)).has_held host)
  rcases increment_cases (network.node host) with same | ⟨count, counted, added⟩
  · have count : ((network.node host).increment lib).count lib = network.count lib host :=
      congrArg (fun json => getMirrorUpdateCount lib (some json)) same
    rw [Node.shows, same, count]
    exact ⟨le_rfl, own, mine⟩
  · have before : network.count lib host = count :=
      congrArg (fun number => number.getD defaultUpdateCount) counted
    rw [before] at below own
    have next : Count (count + 1) := ⟨by have := own.positive; omega, by omega⟩
    have after : ((network.node host).increment lib).count lib = count + 1 := by
      have number := counting.counted (getMirror lib (network.node host).shared.mirror)
        (count + 1) (by rw [counted]; exact Option.some_ne_none _) next
      rw [← added] at number
      exact congrArg (fun number => number.getD defaultUpdateCount) number
    rw [Node.shows, added, before, after]
    exact ⟨by omega, next, closed _ _ mine next⟩

variable [DecidableEq Host]

/-- An event keeps the kind. -/
theorem Kept.step {network : Network Host Json} {event : NetworkEvent Host}
    (lawful : lib.Lawful) (counting : lib.Counting hosts)
    (closed : ∀ json count, Kind json → Count count → Kind (lib.setUpdateCount json count))
    (kept : network.Kept lib Kind) (below : network.Increments lib event) :
    (network.step lib hosts event).Kept lib Kind := by
  have faithful := kept.sound.step_faithful lawful hosts event
  have step : Gossip.Step (objectView lib).version (fun _ _ => True)
      (fun _ _ json => Count (getMirrorUpdateCount lib (some json)) ∧ Kind json)
      (network.gossip (objectView lib))
      ((network.step lib hosts event).gossip (objectView lib)) := by
    refine step_gossip (objectView_honest lawful) kept.sound faithful
      (fun _ _ _ => trivial) ?_
    rintro host rfl
    exact kept.increment counting closed below
  refine ⟨kept.sound.next step (fun _ _ allowed => allowed.1) faithful, fun json has => ?_⟩
  rcases step.has with same | ⟨_, added, allowed, more⟩
  · exact kept.kind json (same json has)
  rcases more json has with before | rfl
  · exact kept.kind json before
  · exact allowed.2

theorem Runs.kept {start network : Network Host Json} (lawful : lib.Lawful)
    (counting : lib.Counting hosts)
    (closed : ∀ json count, Kind json → Count count → Kind (lib.setUpdateCount json count))
    (initial : start.Kept lib Kind) (runs : Runs lib hosts (Increments lib) start network) :
    network.Kept lib Kind := by
  induction runs with
  | start => exact initial
  | step _ below ih => exact ih.step lawful counting closed below

end Network

end Kinds

/-! ## The objects of `get_mirror` -/

section Mirrors

variable {Double : Type} {libc : Libc Double} (exact' : libc.Exact)

/-- The object that `get_mirror` creates on a device, with another count. -/
def PlainObject.counted (localHostName : LocalHostName) (count : Int) : PlainObject libc :=
  (PlainObject.created exact' localHostName).setUpdateCount exact' count

theorem child_counted (localHostName : LocalHostName) {count : Int} (isInt : IsInt count) :
    (PlainObject.counted exact' localHostName count).child =
      mirrorMembers localHostName (.number (libc.ofInt count) count) := by
  rw [PlainObject.counted, PlainObject.child_setUpdateCount exact' isInt, PlainObject.created]
  dsimp only
  rw [createMirror_eq, Item.child, mirrorMembers, changeObjectItem, if_neg (by decide),
    changeObjectItem, if_pos (by decide), cjsonCreateNumber, cjsonSetNumberHelper,
    saturated_ofInt exact' isInt]
  rfl

/-- Only the last count is kept. -/
theorem setUpdateCount_counted (localHostName : LocalHostName) {count count' : Int}
    (isInt : IsInt count) (isInt' : IsInt count') :
    (PlainObject.counted exact' localHostName count).setUpdateCount exact' count' =
      PlainObject.counted exact' localHostName count' := by
  refine PlainObject.item_injective ?_
  rw [PlainObject.item, PlainObject.item, child_counted exact' localHostName isInt',
    PlainObject.child_setUpdateCount exact' isInt', child_counted exact' localHostName isInt,
    mirrorMembers, changeObjectItem, if_neg (by decide), changeObjectItem, if_pos (by decide),
    cjsonSetNumberHelper, saturated_ofInt exact' isInt']
  rfl

theorem counted_default (localHostName : LocalHostName) :
    PlainObject.counted exact' localHostName defaultUpdateCount =
      PlainObject.created exact' localHostName := by
  have isInt : IsInt defaultUpdateCount := ⟨by decide, by decide⟩
  refine PlainObject.item_injective ?_
  rw [PlainObject.item, PlainObject.item, child_counted exact' localHostName isInt,
    PlainObject.created]
  dsimp only
  rw [createMirror_eq, Item.child, cjsonCreateNumber, saturated_ofInt exact' isInt]

/-! ### The length of the text -/

theorem escaped_length_le (c : Byte) : (escaped c).length ≤ 6 := by
  rw [escaped]
  split
  next => exact Nat.le_of_ble_eq_true rfl
  next =>
    split
    next => exact Nat.le_of_ble_eq_true rfl
    next => exact Nat.le_refl _

theorem quoted_length_le (string : CString) :
    (quoted (some string)).length ≤ 6 * string.val.length + 2 := by
  have escapes : ∀ bytes : List Byte, (bytes.flatMap escaped).length ≤ 6 * bytes.length := by
    intro bytes
    induction bytes with
    | nil => exact Nat.le_refl _
    | cons c rest ih =>
        have first := escaped_length_le c
        rw [List.flatMap_cons, List.length_append, List.length_cons]
        omega
  have inner := escapes string.val
  rw [quoted, Option.elim_some, List.length_append, List.length_append, List.length_singleton]
  exact (by omega : 1 + (string.val.flatMap escaped).length + 1 ≤ 6 * string.val.length + 2)

theorem getLocalhostnameAndPort_length (localHostName : LocalHostName) :
    (getLocalhostnameAndPort localHostName 64).val.length ≤ 25 := by
  have short := localHostName.property
  refine Nat.le_trans (List.takeWhile_sublist _).length_le ?_
  rw [List.length_append, List.length_take, List.length_take]
  have domain : (literal ".local").val.length = 6 := by decide
  rw [domain]
  omega

/-- The text is far shorter than the buffer. -/
theorem text_counted_length (localHostName : LocalHostName) {count : Int} (isInt : IsInt count) :
    (PlainObject.counted exact' localHostName count).text.length ≤ 1000 := by
  have number : (sprintfD count).length ≤ 25 := sprintfD_short isInt
  have name := quoted_length_le (getLocalhostnameAndPort localHostName 64)
  have host := getLocalhostnameAndPort_length localHostName
  have long : (quoted (some junk)).length = 115 := by decide +kernel
  have short : ∀ text ∈ ["json_version", "1.0", "update_count", "server_version", "buddy_ip",
      "george.local", "freddy.local", "server_ip", "well_delay", "1", "skip_days", "0", "junk1",
      "junk2", "junk3"], (quoted (some (literal text))).length ≤ 16 := by decide
  simp only [List.forall_mem_cons] at short
  simp only [PlainObject.text, PlainObject.item, child_counted exact' localHostName isInt,
    mirrorMembers, membersBehind, cjsonCreateString, updateCountName, buddyIpName, itemText,
    membersText, elementsText, numberText_plain exact' isInt, List.length_append, braceText, tabs,
    colonText, memberEndText, commaText, Children.hasNext, Bool.false_eq_true, if_false, if_true,
    List.length_cons, List.length_nil]
  omega

/-! ### Runs -/

variable {Host : Type} {hosts : Hosts Host (PlainObject libc)}

/-- The object of `get_mirror` on some device, up to the count. -/
def IsMirror (object : PlainObject libc) : Prop :=
  ∃ device count, Count count ∧ object = PlainObject.counted exact' device count

theorem IsMirror.setUpdateCount {object : PlainObject libc} (isMirror : IsMirror exact' object)
    {count : Int} (isCount : Count count) :
    IsMirror exact' (object.setUpdateCount exact' count) := by
  obtain ⟨device, before, isCount', rfl⟩ := isMirror
  exact ⟨device, count, isCount,
    setUpdateCount_counted exact' device (isInt_of_count isCount') (isInt_of_count isCount)⟩

/-- The object fits in the buffer. -/
theorem IsMirror.ready {object : PlainObject libc} (isMirror : IsMirror exact' object) :
    (object.printPreallocated printSize).1 = true := by
  obtain ⟨device, count, isCount, rfl⟩ := isMirror
  have short := text_counted_length exact' device (isInt_of_count isCount)
  have size : int32 printSize = 2031 := by decide
  rw [PlainObject.printPreallocated_room exact', size]
  omega

theorem isMirror_created (device : LocalHostName) :
    IsMirror exact' (PlainObject.created exact' device) :=
  ⟨device, defaultUpdateCount, ⟨by decide, by decide⟩, (counted_default exact' device).symm⟩

/-- The devices have objects of `get_mirror` up to the count, each of which is prepared as a
message, and no other objects are under way. -/
structure MirrorsFit (own : LocalHostName) (network : Network Host (PlainObject libc)) : Prop where
  mirror : ∀ host,
    IsMirror exact' (getMirror (objects exact' own) (network.node host).shared.mirror)
  prepared : ∀ host,
    (jsonPrepGetCounterValue (objects exact' own) (network.node host).shared).1 =
      network.count (objects exact' own) host
  positive : ∀ host, 0 < network.count (objects exact' own) host
  message : ∀ packet ∈ network.inFlight, Bare packet.bytes ∨
    ∃ object, IsMirror exact' object ∧ Carries (objects exact' own) packet.bytes object

/-- Devices that start with the objects of `get_mirror` never have others, up to the count, in any
run; none is too long for the buffer. -/
theorem mirrors_fit [DecidableEq Host] (own : LocalHostName)
    (buddies : hosts.buddyIp = PlainObject.buddyIp)
    {start network : Network Host (PlainObject libc)}
    (started : ∀ host, ∃ device, getMirror (objects exact' own) (start.node host).shared.mirror =
      PlainObject.created exact' device)
    (silent : start.inFlight = [])
    (runs : Network.Runs (objects exact' own) hosts (Network.Increments (objects exact' own)) start
      network) :
    MirrorsFit exact' own network := by
  have lawful := objects_lawful exact' own
  have counting := objects_counting exact' own buddies
  have initial : start.Kept (objects exact' own) (IsMirror exact') := by
    refine ⟨⟨fun host => ?_, fun packet member => ?_⟩, fun json has => ?_⟩
    · obtain ⟨device, created⟩ := started host
      have one : start.count (objects exact' own) host = defaultUpdateCount := by
        rw [Network.count, Node.count, getMirrorUpdateCount, created]
        exact congrArg (·.getD defaultUpdateCount) (objects_numbers exact' device).created
      rw [one]
      exact ⟨by decide, by decide⟩
    · rw [silent] at member
      cases member
    · rcases has with ⟨host, rfl⟩ | ⟨target, sent⟩
      · obtain ⟨device, created⟩ := started host
        change IsMirror exact' (getMirror (objects exact' own) (start.node host).shared.mirror)
        rw [created]
        exact isMirror_created exact' device
      · rw [Network.gossip, silent] at sent
        cases sent
  have kept := runs.kept lawful counting (fun _ _ isMirror isCount =>
    isMirror.setUpdateCount exact' isCount) initial
  have mirror := fun host => kept.kind _ ((network.gossip (objectView _)).has_held host)
  refine ⟨mirror, fun host => ?_, fun host => ?_, ?_⟩
  · obtain ⟨buffer, prepared, -⟩ := lawful.prepares (network.node host).shared
      (mirror host).ready
    exact congrArg Prod.fst prepared
  · exact Int.lt_of_lt_of_le Int.one_pos (kept.sound.counts host).positive
  · intro packet member
    have faithful := kept.sound.faithful packet member
    have either : Bare packet.bytes ∨ ∃ json, Carries (objects exact' own) packet.bytes json := by
      cases packet with
      | request => exact .inr faithful
      | reply => exact faithful
    rcases either with bare | ⟨json, carries⟩
    · exact .inl bare
    · exact .inr ⟨json, kept.kind json (carries.has member), carries⟩

end Mirrors

/-! ## Two devices -/

/-- The devices that `get_mirror` lists. -/
def georgeAndFreddy : Hosts Bool (PlainObject integers) where
  name host := (literal (if host then "george.local" else "freddy.local")).val
  resolve name :=
    if name = (literal "george.local").val then some true
    else if name = (literal "freddy.local").val then some false
    else none
  resolved host := by cases host <;> decide
  buddyIp := PlainObject.buddyIp

/-- A device with the name of one of the two. -/
def hostName (host : Bool) : LocalHostName :=
  ⟨literal (if host then "george" else "freddy"), by cases host <;> decide⟩

/-- Both have just started. -/
def newMirrors : Network Bool (PlainObject integers) :=
  twoDevices fun host => PlainObject.created integers_exact (hostName host)

/-- One of them shows its page, tells the other of it, and the message arrives. -/
noncomputable def updatedMirrors : Network Bool (PlainObject integers) :=
  [.increment true, .check true, .deliver 0].foldl
    (Network.step (objects integers_exact (hostName true)) georgeAndFreddy) newMirrors

theorem mirrors_fit_george : MirrorsFit integers_exact (hostName true) updatedMirrors := by
  have one : newMirrors.count (objects integers_exact (hostName true)) true = 1 :=
    congrArg (·.getD defaultUpdateCount) (objects_numbers integers_exact (hostName true)).created
  have below : newMirrors.count (objects integers_exact (hostName true)) true < 2147483647 := by
    rw [one]
    decide
  exact mirrors_fit integers_exact (hostName true) rfl (fun host => ⟨hostName host, rfl⟩) rfl
    (Network.Runs.start.along ⟨below, trivial, trivial, trivial⟩)

end PicoApConfigure.Json
