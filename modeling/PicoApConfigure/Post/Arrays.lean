import PicoApConfigure.Post.Accepted
import PicoApConfigure.Post.Accesses
import PicoApConfigure.Post.Segments

/-!
# The arrays that a body is written to

`httpd_post_receive_data` with the places of `wifi_ssid`, `wifi_password` and `local_host_name` that
it writes, and `main` where it copies the stored name back.  A value ends inside its array if it is
shorter than the array and its escapes are whole; a name of exactly 20 bytes is fetched, and its NUL
is put behind the array.
-/

namespace PicoApConfigure.Post

open Nor FlashIo RingBuffer

/-- The places that are written. -/
def writtenPlaces : List Access → List Nat
  | [] => []
  | .read _ :: rest => writtenPlaces rest
  | .write place :: rest => place :: writtenPlaces rest

/-- The places written in each of the arrays. -/
structure ArrayWrites where
  wifiSsid : List Nat
  wifiPassword : List Nat
  localHostName : List Nat

section Traced

variable (lib : PbufLib)

/-- `get_post_string` with the places it writes in `destmem`, as far as `fuel` goes. -/
def getPostTraced (fuel : Nat) (p : Pbuf) (destmem : Memory) (destlen srclen srcOffset : Nat) :
    List Nat × Option (Bool × Memory) :=
  match lib.getContiguous p destmem destlen srclen srcOffset with
  | none => ([], some (false, destmem))
  | some wPtr =>
      let destmem := store destmem 0 (slice wPtr 0 destlen)
      let destmem := store destmem srclen [0]
      let squashed := squashTraced fuel destmem 0 0
      (List.range destlen ++ srclen :: writtenPlaces squashed.1,
        squashed.2.map fun destmem => (true, destmem))

/-- The places of a copy of `len` bytes and of the NUL behind them. -/
def copied (len : Nat) : List Nat := List.range len ++ [len]

/-- The places that the branch for credentials writes; the last ones of the name are written when
the network is in the flash. -/
def credentialsWrites (fuel : Nat) (p : Pbuf) (ssid pass host : Nat × Nat) (state : PostState) :
    ArrayWrites :=
  let atSsid := getPostTraced lib fuel p state.wifiSsid postBufsize ssid.2 ssid.1
  match atSsid.2 with
  | none => ⟨atSsid.1, [], []⟩
  | some (wSsid, _) =>
      let atPass := getPostTraced lib fuel p state.wifiPassword postBufsize pass.2 pass.1
      match atPass.2 with
      | none => ⟨atSsid.1, atPass.1, []⟩
      | some (wPass, _) =>
          let atHost := getPostTraced lib fuel p state.localHostName hostNameSize host.2 host.1
          match atHost.2 with
          | none => ⟨atSsid.1, atPass.1, atHost.1⟩
          | some (wHost, _) =>
              if wSsid ∧ wPass ∧ wHost then
                ⟨atSsid.1 ++ copied ssid.2, atPass.1 ++ copied pass.2, atHost.1 ++ copied host.2⟩
              else
                ⟨atSsid.1, atPass.1, atHost.1⟩

end Traced

/-! ## The next start -/

/-- Conversion to `int8_t`. -/
def int8 (value : Int) : Int := (value + 128) % 256 - 128

/-- `flash_io_read_latest_hostname`. -/
def flashIoReadLatestHostname (fuel : Nat) (stack : Stack) (pagebuff : Memory) :
    FlashProg (Int × Memory) :=
  readFlashIdLatest fuel hostnameId persistentTable persistentLen stack.rb pagebuff

/-- `main`, where it takes the name from the flash or makes one up, with the status it has read and
the page buffer; `fallback` is the text that it formats. -/
def restoreHostname (fuel : Nat) (stack : Stack) (fallback : List Byte)
    (localHostName pagebuff : Memory) : FlashProg (Int × Memory × Memory) := do
  let (err, pagebuff) ← flashIoReadLatestHostname fuel stack pagebuff
  let err := int8 err
  if err < 0 then
    -- `snprintf` keeps the last byte for the NUL
    return (err, store localHostName 0 (fallback.take (hostNameSize - 1) ++ [0]), pagebuff)
  else
    return (err, store localHostName 0 (slice pagebuff 0 err.toNat), pagebuff)

/-! ## What has to hold of a body -/

/-- Every place lies in its array. -/
structure ArrayWrites.Inside (writes : ArrayWrites) : Prop where
  wifiSsid : ∀ place ∈ writes.wifiSsid, place < postBufsize
  wifiPassword : ∀ place ∈ writes.wifiPassword, place < postBufsize
  localHostName : ∀ place ∈ writes.localHostName, place < hostNameSize

/-- Every array has a NUL in it. -/
structure Terminated (state : PostState) : Prop where
  wifiSsid : ∃ place < postBufsize, state.wifiSsid place = 0
  wifiPassword : ∃ place < postBufsize, state.wifiPassword place = 0
  localHostName : ∃ place < hostNameSize, state.localHostName place = 0

/-- At the next start, with zeros in the array, the copy of a stored record stays in the array and
gives the name that was set. -/
def Restored (record : List Byte) (localHostName : Memory) : Prop :=
  ∀ (fuel : Nat) (stack : Stack) (fallback : List Byte) (start pagebuff : Memory)
    (region : Nat → Prop) (flash : Memory) (writes : List Op) (err : Int) (name page : Memory),
    (∀ place < hostNameSize, start place = 0) →
      (restoreHostname fuel stack fallback start pagebuff).Exec region flash writes
        (err, name, page) →
      err = record.length → slice page 0 record.length = record →
      err ≤ hostNameSize ∧ SameText localHostName name

/-- The value is shorter than its array, and its escapes are whole. -/
def FitsArray (size : Nat) (value : List Byte) : Prop :=
  value.length < size ∧ wholeEscapes value = true

section Traces

theorem mem_writtenPlaces {place : Nat} {accesses : List Access} :
    place ∈ writtenPlaces accesses ↔ .write place ∈ accesses := by
  induction accesses with
  | nil => simp [writtenPlaces]
  | cons access rest ih =>
      cases access with
      | read other => simp [writtenPlaces, ih]
      | write other => simp [writtenPlaces, ih]

variable {lib : PbufLib} {p : Pbuf} {destmem : Memory} {destlen srclen srcOffset fuel : Nat}

/-- `get_post_string` does what it does without the record. -/
theorem getPostString_eq_traced :
    getPostString lib fuel p destmem destlen srclen srcOffset =
      returnOf (getPostTraced lib fuel p destmem destlen srclen srcOffset).2 := by
  rw [getPostString, getPostTraced]
  cases lib.getContiguous p destmem destlen srclen srcOffset with
  | none => rfl
  | some wPtr =>
      simp only [squashHexString, squashLoop_eq_traced]
      cases (squashTraced fuel (store (store destmem 0 (slice wPtr 0 destlen)) srclen [0]) 0 0).2
      with
      | none => rfl
      | some squashed => rfl

theorem returnOf_yields {α : Type} {result : Option α} {keep : α → Prop}
    (holds : ∀ value, result = some value → keep value) : (returnOf result).Yields keep := by
  cases result with
  | none => exact .stuck
  | some value => exact .pure (holds value rfl)

/-- What a fetch of `len` bytes leaves in an array of `size` bytes. -/
def Leaves (size len : Nat) (destmem : Memory) (result : Bool × Memory) : Prop :=
  if result.1 then len < size ∧ ∃ ended ≤ len, result.2 ended = 0 else result.2 = destmem

/-- A fetch stays in its array. -/
structure FetchStays (size len : Nat) (destmem : Memory)
    (traced : List Nat × Option (Bool × Memory)) : Prop where
  inside : ∀ place ∈ traced.1, place < size
  leaves : ∀ result, traced.2 = some result → Leaves size len destmem result

/-- A value that fits stays in its array. -/
theorem getPostTraced_fits (lawful : lib.Lawful) (short : p.length < 0x10000) {name : List Byte}
    (nonempty : name ≠ []) {place : Nat} {value : List Byte}
    (found : lookup name p = some (place, value)) (small : value.length < postBufsize)
    (fits : FitsArray destlen value) :
    FetchStays destlen value.length destmem (getPostTraced lib fuel p destmem destlen value.length
      (fieldOffset name.length value place)) := by
  obtain ⟨inside, here⟩ := fieldOffset_here nonempty found small
  obtain ⟨shorter, whole⟩ := fits
  obtain ⟨wPtr, got, holds⟩ := contiguous_holds lawful short (Nat.le_of_lt shorter) inside here
    destmem
  have contained := contained_of_whole whole holds (Nat.le_refl 0)
  rw [getPostTraced, got]
  constructor
  · intro written member
    rcases List.mem_append.mp member with member | member
    · exact List.mem_range.mp member
    · rcases List.mem_cons.mp member with rfl | member
      · exact shorter
      · have touched := contained.touches fuel _ (mem_writtenPlaces.mp member)
        rw [Nat.zero_add] at touched
        exact Nat.lt_of_le_of_lt touched shorter
  · intro result equal
    obtain ⟨squashed, ends, rfl⟩ := Option.map_eq_some_iff.mp equal
    obtain ⟨ended, nul, -, within⟩ := contained.leaves ends
    rw [Nat.zero_add] at within
    exact ⟨shorter, ended, within, nul⟩

/-- The accepted value of a field stays in an array that it fits in. -/
theorem HasField.stays (lawful : lib.Lawful) (short : p.length < 0x10000) {name : List Byte}
    (nonempty : name ≠ []) {field : Nat × List Byte} (has : HasField name p field)
    (fits : FitsArray destlen field.2) :
    FetchStays destlen field.2.length destmem
      (getPostTraced lib fuel p destmem destlen field.2.length (field.1 + name.length)) := by
  have stays := @getPostTraced_fits lib p destmem destlen fuel lawful short name nonempty field.1
    field.2 has.found has.accepts.2 fits
  rwa [has.offset] at stays

theorem FetchStays.yields {len : Nat} (stays : FetchStays destlen len destmem
    (getPostTraced lib fuel p destmem destlen srclen srcOffset)) :
    (getPostString lib fuel p destmem destlen srclen srcOffset).Yields
      (Leaves destlen len destmem) := by
  rw [getPostString_eq_traced]
  exact returnOf_yields stays.leaves

end Traces

/-! ## Calls whose values fit -/

/-- A copy that takes the NUL along, or leaves it to the zeros of the array, is the same string. -/
theorem sameText_copy {name start : Memory} {length ended : Nat} (nul : name ended = 0)
    (within : ended ≤ length) (zero : start ended = 0) :
    SameText name (store start 0 (slice name 0 length)) := by
  intro place before
  have near : place ≤ ended := by
    by_contra behind
    exact before ended (Nat.lt_of_not_le behind) nul
  by_cases inside : place < length
  · have stored := @store_at start 0 (slice name 0 length) place (by rwa [slice_length])
    rw [Nat.zero_add, slice_getElem, Nat.zero_add] at stored
    exact stored.symm
  · have last : place = ended := by omega
    rw [store_of_le start _ (by rw [slice_length]; omega), last, nul, zero]

/-- A record of the name with its NUL, or up to it, is restored. -/
theorem restored_of_slice {localHostName : Memory} {length ended : Nat}
    (nul : localHostName ended = 0) (within : ended ≤ length) (inside : ended < hostNameSize)
    (fits : length ≤ hostNameSize) : Restored (slice localHostName 0 length) localHostName := by
  intro fuel stack fallback start pagebuff region flash writes err name page zeros exec length' held
  rw [slice_length] at length' held
  rw [length']
  refine ⟨Int.ofNat_le.mpr fits, ?_⟩
  rw [restoreHostname] at exec
  obtain ⟨_, ⟨status, page'⟩, _, -, -, rest⟩ := FlashProg.exec_bind_iff.mp exec
  dsimp only at rest
  split at rest
  · next negative =>
      obtain ⟨-, equal⟩ := rest
      rw [Prod.mk.injEq] at equal
      omega
  · obtain ⟨-, equal⟩ := rest
    simp only [Prod.mk.injEq] at equal
    obtain ⟨rfl, rfl, rfl⟩ := equal
    rw [length', Int.toNat_natCast, held]
    exact sameText_copy nul within (zeros ended inside)

section Calls

variable {lib : PbufLib} {fuel : Nat} {stack : Stack} {connection : Nat} {p : Pbuf}
  {state : PostState}

theorem copied_inside {size len : Nat} (inside : len < size) :
    ∀ place ∈ copied len, place < size := by
  intro place member
  rcases List.mem_append.mp member with member | member
  · exact Nat.lt_trans (List.mem_range.mp member) inside
  · rw [List.mem_singleton.mp member]
    exact inside

theorem Leaves.terminated {size len : Nat} {destmem memory : Memory} {got : Bool}
    (leaves : Leaves size len destmem (got, memory)) (before : ∃ place < size, destmem place = 0) :
    ∃ place < size, memory place = 0 := by
  cases got with
  | false =>
      have same : memory = destmem := leaves
      rwa [same]
  | true =>
      obtain ⟨inside, ended, within, nul⟩ : len < size ∧ ∃ ended ≤ len, memory ended = 0 := leaves
      exact ⟨ended, Nat.lt_of_le_of_lt within inside, nul⟩

theorem Leaves.inside {size len : Nat} {destmem memory : Memory}
    (leaves : Leaves size len destmem (true, memory)) : len < size :=
  (leaves : len < size ∧ ∃ ended ≤ len, memory ended = 0).1

/-- A value that is fetched and copied once more stays in its array. -/
theorem FetchStays.copied {size len : Nat} {destmem memory : Memory}
    {traced : List Nat × Option (Bool × Memory)} (stays : FetchStays size len destmem traced)
    (got : traced.2 = some (true, memory)) : ∀ place ∈ traced.1 ++ copied len, place < size := by
  intro place member
  rcases List.mem_append.mp member with member | member
  · exact stays.inside place member
  · exact copied_inside (stays.leaves _ got).inside place member

/-- The three fetches of a network stay in their arrays. -/
structure NetworkStays (lib : PbufLib) (fuel : Nat) (p : Pbuf) (ssid pass host : Nat × Nat)
    (state : PostState) : Prop where
  ssidStays : FetchStays postBufsize ssid.2 state.wifiSsid
    (getPostTraced lib fuel p state.wifiSsid postBufsize ssid.2 ssid.1)
  passStays : FetchStays postBufsize pass.2 state.wifiPassword
    (getPostTraced lib fuel p state.wifiPassword postBufsize pass.2 pass.1)
  hostStays : FetchStays hostNameSize host.2 state.localHostName
    (getPostTraced lib fuel p state.localHostName hostNameSize host.2 host.1)

theorem nothing_inside (size : Nat) : ∀ place ∈ ([] : List Nat), place < size :=
  fun _ member => absurd member List.not_mem_nil

theorem NetworkStays.inside {ssid pass host : Nat × Nat}
    (stays : NetworkStays lib fuel p ssid pass host state) :
    (credentialsWrites lib fuel p ssid pass host state).Inside := by
  obtain ⟨ssidStays, passStays, hostStays⟩ := stays
  rw [credentialsWrites]
  dsimp only
  split
  · exact ⟨ssidStays.inside, nothing_inside _, nothing_inside _⟩
  · next wSsid wifiSsid gotSsid =>
      split
      · exact ⟨ssidStays.inside, passStays.inside, nothing_inside _⟩
      · next wPass wifiPassword gotPass =>
          split
          · exact ⟨ssidStays.inside, passStays.inside, hostStays.inside⟩
          · next wHost localHostName gotHost =>
              split
              · next all =>
                  obtain ⟨rfl, rfl, rfl⟩ := all
                  constructor
                  · exact ssidStays.copied gotSsid
                  · exact passStays.copied gotPass
                  · exact hostStays.copied gotHost
              · exact ⟨ssidStays.inside, passStays.inside, hostStays.inside⟩

/-- What a call leaves: arrays with a NUL each, and an accepted name that is restored. -/
def LeavesRestored (result : Option Handed × PostState) : Prop :=
  Terminated result.2 ∧ ∀ handed, result.1 = some handed →
    Restored handed.record result.2.localHostName

theorem nul_stored (array : Memory) (length : Nat) : store array length [0] length = 0 :=
  @store_at array length [0] 0 Nat.one_pos

theorem NetworkStays.leaves {ssid pass host : Nat × Nat}
    (stays : NetworkStays lib fuel p ssid pass host state) (terminated : Terminated state) :
    (storeCredentialsHanded lib fuel stack connection p ssid pass host state).Yields
      LeavesRestored := by
  rw [storeCredentialsHanded]
  refine stays.ssidStays.yields.bind ?_
  rintro ⟨wSsid, wifiSsid⟩ ssidLeaves
  refine stays.passStays.yields.bind ?_
  rintro ⟨wPass, wifiPassword⟩ passLeaves
  refine stays.hostStays.yields.bind ?_
  rintro ⟨wHost, localHostName⟩ hostLeaves
  dsimp only
  split
  · next all =>
      obtain ⟨rfl, rfl, rfl⟩ := all
      refine .bind_any fun wroteSsid => .bind_any fun wroteName => .pure ⟨⟨?_, ?_, ?_⟩, ?_⟩
      · exact ⟨ssid.2, ssidLeaves.inside, nul_stored wifiSsid ssid.2⟩
      · exact ⟨pass.2, passLeaves.inside, nul_stored wifiPassword pass.2⟩
      · exact ⟨host.2, hostLeaves.inside, nul_stored localHostName host.2⟩
      · rintro handed ⟨⟩
        exact restored_of_slice (nul_stored localHostName host.2) (Nat.le_refl _) hostLeaves.inside
          (Nat.le_of_lt hostLeaves.inside)
  · refine .pure ⟨⟨?_, ?_, ?_⟩, ?_⟩
    · exact ssidLeaves.terminated terminated.wifiSsid
    · exact passLeaves.terminated terminated.wifiPassword
    · exact hostLeaves.terminated terminated.localHostName
    · rintro handed ⟨⟩

/-- A state that nothing is accepted in. -/
theorem Terminated.unchanged (terminated : Terminated state) : LeavesRestored (none, state) := by
  refine ⟨terminated, ?_⟩
  rintro handed ⟨⟩

end Calls

/-! ## Values that do not fit -/

/-- An array with an empty string and no other NUL in or behind it. -/
def filled : Memory := store (fun _ => 0x61) 0 [0]

theorem filled_nonzero {place : Nat} (positive : 0 < place) : filled place ≠ 0 := by
  rw [filled, store_of_le (fun _ => 0x61) [0] positive]
  decide

section Filled

variable {p : Pbuf} {destlen fuel : Nat} {name value : List Byte} {place : Nat}

/-- A fetch of a chain of one `pbuf` into such an array. -/
theorem filled_fetched (short : p.length < 0x10000) (nonempty : name ≠ [])
    (found : lookup name p = some (place, value)) (small : value.length < postBufsize)
    (fits : value.length ≤ destlen) :
    ∃ fetched, Holds fetched 0 (value ++ [0]) ∧
      (∀ query, value.length < query → fetched query ≠ 0) ∧
      ∀ fuel, getPostTraced onePbuf fuel p filled destlen value.length
          (fieldOffset name.length value place) =
        (List.range destlen ++ value.length :: writtenPlaces (squashTraced fuel fetched 0 0).1,
          (squashTraced fuel fetched 0 0).2.map fun destmem => (true, destmem)) := by
  obtain ⟨inside, here⟩ := fieldOffset_here nonempty found small
  obtain ⟨wPtr, got, holds⟩ := contiguous_holds onePbuf_lawful short fits inside here filled
  refine ⟨_, holds, fun query behind => ?_, fun fuel => by rw [getPostTraced, got]⟩
  have buffer : wPtr = store filled 0 value := by
    have some : ¬(destlen < value.length ∨
        p.length < fieldOffset name.length value place + value.length) := by
      rintro (long | outside)
      · omega
      · have length := congrArg List.length here
        rw [List.length_take, List.length_drop] at length
        omega
    rw [← Option.some.injEq, ← got, onePbuf]
    dsimp only
    rw [if_neg some, here]
  rw [store_of_le _ _ (by simp only [List.length_singleton]; omega)]
  by_cases below : query < destlen
  · have copied := @store_at filled 0 (slice wPtr 0 destlen) query (by rwa [slice_length])
    rw [Nat.zero_add, slice_getElem, Nat.zero_add] at copied
    rw [copied, buffer, store_of_le _ _ (by omega)]
    exact filled_nonzero (Nat.zero_lt_of_lt behind)
  · rw [store_of_le _ _ (by rw [slice_length]; omega)]
    exact filled_nonzero (Nat.zero_lt_of_lt behind)

/-- A value with whole escapes is fetched. -/
theorem HasField.completes (short : p.length < 0x10000) (nonempty : name ≠ [])
    {field : Nat × List Byte} (has : HasField name p field) (fits : field.2.length ≤ destlen)
    (enough : destlen < fuel) (whole : wholeEscapes field.2 = true) :
    ∃ destmem, (getPostTraced onePbuf fuel p filled destlen field.2.length
      (field.1 + name.length)).2 = some (true, destmem) := by
  obtain ⟨fetched, holds, -, traced⟩ := @filled_fetched p destlen name field.2 field.1 short
    nonempty has.found has.accepts.2 fits
  rw [has.offset] at traced
  obtain ⟨squashed, -, -, -, -, ends⟩ := (contained_of_whole whole holds (Nat.le_refl 0)).ends
  refine ⟨squashed, ?_⟩
  rw [traced, ends fuel (Nat.lt_of_le_of_lt fits enough)]
  rfl

end Filled

end PicoApConfigure.Post
