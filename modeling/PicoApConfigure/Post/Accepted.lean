import PicoApConfigure.Post.Lookup

/-!
# What a call accepts

`httpd_post_receive_data` with what it hands to `flash_io_write_hostname`, which it does exactly
where it sets one of the two pointers, and the branch it takes for any body.
-/

namespace PicoApConfigure.Post

open Nor FlashIo RingBuffer

/-- The pointer that a call sets. -/
inductive Kind where
  /-- `valid_connection`. -/
  | network
  /-- `valid_config`. -/
  | config
  deriving DecidableEq, Repr

/-- What a call sets, and the bytes that it hands to `flash_io_write_hostname`. -/
structure Handed where
  kind : Kind
  record : List Byte

section Handler

variable (lib : PbufLib)

/-- The branch for a form with credentials, with what it hands over. -/
def storeCredentialsHanded (fuel : Nat) (stack : Stack) (connection : Nat) (p : Pbuf)
    (ssid pass host : Nat × Nat) (state : PostState) : FlashProg (Option Handed × PostState) := do
  let (wSsid, wifiSsid) ←
    getPostString lib fuel p state.wifiSsid postBufsize ssid.2 ssid.1
  let (wPass, wifiPassword) ←
    getPostString lib fuel p state.wifiPassword postBufsize pass.2 pass.1
  let (wHost, localHostName) ←
    getPostString lib fuel p state.localHostName hostNameSize host.2 host.1
  let state := { state with wifiSsid, wifiPassword, localHostName }
  if wSsid ∧ wPass ∧ wHost then
    let state := { state with
      wifiSsid := store state.wifiSsid ssid.2 [0]
      wifiPassword := store state.wifiPassword pass.2 [0] }
    let (_, pagebuff) ← flashIoWriteSsid fuel state.wifiSsid state.wifiPassword stack state.pagebuff
    let state := { state with pagebuff, localHostName := store state.localHostName host.2 [0] }
    let (_, pagebuff) ← flashIoWriteHostname fuel state.localHostName host.2 stack state.pagebuff
    return (some ⟨.network, slice state.localHostName 0 host.2⟩,
      { state with pagebuff, validConnection := some connection })
  else
    return (none, state)

/-- The branch for a form with a name, with what it hands over. -/
def storeNameHanded (fuel : Nat) (stack : Stack) (connection : Nat) (p : Pbuf) (offset len : Nat)
    (state : PostState) : FlashProg (Option Handed × PostState) := do
  let (ts, localHostName) ← getPostString lib fuel p state.localHostName hostNameSize len offset
  let state := { state with localHostName }
  if ts then
    let (_, pagebuff) ← flashIoWriteHostname fuel state.localHostName (len + 1) stack state.pagebuff
    return (some ⟨.config, slice state.localHostName 0 (len + 1)⟩,
      { state with pagebuff, validConfig := some connection })
  else
    return (none, state)

/-- The branch for what is no form with credentials, with what it hands over. -/
def storeConfigHanded (fuel : Nat) (stack : Stack) (connection : Nat) (p : Pbuf)
    (state : PostState) : FlashProg (Option Handed × PostState) :=
  let (offset, len) := checkField lib p (chars "config=")
  if offset ≠ 0xffff then storeNameHanded lib fuel stack connection p offset len state
  else return (none, state)

/-- `httpd_post_receive_data` with what it hands over. -/
def receiveHanded (fuel : Nat) (stack : Stack) (connection : Nat) (p : Pbuf) (state : PostState) :
    FlashProg (Option Handed × Err × PostState) :=
  if state.currentConnection = some connection then do
    let ssid := checkField lib p (chars "ssid=")
    let pass := checkField lib p (chars "pass=")
    let host := checkField lib p (chars "host=")
    let (handed, state) ←
      if (ssid.2 > 0 ∧ ssid.2 < postBufsize) ∧ (pass.2 > 0 ∧ pass.2 < postBufsize) ∧
          (host.2 > 0 ∧ host.2 < postBufsize) then
        storeCredentialsHanded lib fuel stack connection p ssid pass host state
      else
        storeConfigHanded lib fuel stack connection p state
    return (handed, .ok, state)
  else
    return (none, .val, state)

end Handler

/-! ## The same calls -/

section Same

variable {lib : PbufLib} {fuel : Nat} {stack : Stack} {connection : Nat} {p : Pbuf}
  {state : PostState}

theorem storeCredentials_eq (ssid pass host : Nat × Nat) :
    storeCredentials lib fuel stack connection p ssid pass host state =
      storeCredentialsHanded lib fuel stack connection p ssid pass host state >>=
        fun result => pure result.2 := by
  rw [storeCredentials, storeCredentialsHanded]
  simp only [FlashProg.bind_assoc]
  congr 1
  funext gotSsid
  congr 1
  funext gotPass
  congr 1
  funext gotHost
  split
  · simp only [FlashProg.bind_assoc]
    congr 1
  · rfl

theorem storeConfig_eq : storeConfig lib fuel stack connection p state =
    storeConfigHanded lib fuel stack connection p state >>= fun result => pure result.2 := by
  rw [storeConfig, storeConfigHanded]
  dsimp only
  split
  · rw [storeName, storeNameHanded, FlashProg.bind_assoc]
    congr 1
    funext got
    dsimp only
    split
    · rw [FlashProg.bind_assoc]
      congr 1
    · rfl
  · rfl

/-- The call does what it does without the record. -/
theorem httpdPostReceiveData_eq : httpdPostReceiveData lib fuel stack connection p state =
    receiveHanded lib fuel stack connection p state >>= fun result => pure result.2 := by
  rw [httpdPostReceiveData, receiveHanded]
  split
  · dsimp only
    by_cases complete :
      ((checkField lib p (chars "ssid=")).2 > 0 ∧
          (checkField lib p (chars "ssid=")).2 < postBufsize) ∧
        ((checkField lib p (chars "pass=")).2 > 0 ∧
          (checkField lib p (chars "pass=")).2 < postBufsize) ∧
        ((checkField lib p (chars "host=")).2 > 0 ∧
          (checkField lib p (chars "host=")).2 < postBufsize)
    · simp only [if_pos complete, storeCredentials_eq, FlashProg.bind_assoc]
      rfl
    · simp only [if_neg complete, storeConfig_eq, FlashProg.bind_assoc]
      rfl
  · rfl

end Same

/-- The pointers that a call sets go with what it hands over. -/
structure Sets (connection : Nat) (state : PostState) (handed : Option Handed)
    (result : PostState) : Prop where
  validConnection : result.validConnection =
    if handed.map Handed.kind = some .network then some connection else state.validConnection
  validConfig : result.validConfig =
    if handed.map Handed.kind = some .config then some connection else state.validConfig
  currentConnection : result.currentConnection = state.currentConnection
  validJson : result.validJson = state.validJson
  configChanged : result.configChanged = state.configChanged

theorem storeCredentials_sets (lib : PbufLib) (fuel : Nat) (stack : Stack) (connection : Nat)
    (p : Pbuf) (ssid pass host : Nat × Nat) (state : PostState) :
    (storeCredentialsHanded lib fuel stack connection p ssid pass host state).Yields
      fun result => Sets connection state result.1 result.2 := by
  rw [storeCredentialsHanded]
  apply FlashProg.Yields.bind_any
  intro gotSsid
  apply FlashProg.Yields.bind_any
  intro gotPass
  apply FlashProg.Yields.bind_any
  intro gotHost
  dsimp only
  split
  · apply FlashProg.Yields.bind_any
    intro wroteSsid
    apply FlashProg.Yields.bind_any
    intro wroteName
    exact .pure ⟨rfl, rfl, rfl, rfl, rfl⟩
  · exact .pure ⟨rfl, rfl, rfl, rfl, rfl⟩

theorem storeConfig_sets (lib : PbufLib) (fuel : Nat) (stack : Stack) (connection : Nat)
    (p : Pbuf) (state : PostState) :
    (storeConfigHanded lib fuel stack connection p state).Yields
      fun result => Sets connection state result.1 result.2 := by
  rw [storeConfigHanded]
  dsimp only
  split
  · rw [storeNameHanded]
    apply FlashProg.Yields.bind_any
    intro got
    dsimp only
    split
    · apply FlashProg.Yields.bind_any
      intro wroteName
      exact .pure ⟨rfl, rfl, rfl, rfl, rfl⟩
    · exact .pure ⟨rfl, rfl, rfl, rfl, rfl⟩
  · exact .pure ⟨rfl, rfl, rfl, rfl, rfl⟩

/-- A call sets the pointer that goes with what it hands over, and no other. -/
theorem receive_sets (lib : PbufLib) (fuel : Nat) (stack : Stack) (connection : Nat) (p : Pbuf)
    (state : PostState) :
    (receiveHanded lib fuel stack connection p state).Yields
      fun result => Sets connection state result.1 result.2.2 := by
  rw [receiveHanded]
  split
  · dsimp only
    split
    · exact (storeCredentials_sets _ _ _ _ _ _ _ _ _).bind fun _ sets => .pure sets
    · exact (storeConfig_sets _ _ _ _ _ _).bind fun _ sets => .pure sets
  · exact .pure ⟨rfl, rfl, rfl, rfl, rfl⟩

/-! ## The branch for any body -/

/-- The body has a field of this name with a value of an accepted length; the field is its first
place and its value. -/
structure HasField (name : List Byte) (p : Pbuf) (field : Nat × List Byte) : Prop where
  found : lookup name p = some field
  accepts : Accepts field.2

/-- The body has the three fields of a network. -/
structure NetworkFields (p : Pbuf) (ssid pass host : Nat × List Byte) : Prop where
  hasSsid : HasField (chars "ssid=") p ssid
  hasPass : HasField (chars "pass=") p pass
  hasHost : HasField (chars "host=") p host

section Branches

variable {lib : PbufLib} {fuel : Nat} {stack : Stack} {connection : Nat} {p : Pbuf}
  {state : PostState}

theorem fieldOf_accepted {nameLength : Nat} {found : Option (Nat × List Byte)} :
    ((fieldOf nameLength found).2 > 0 ∧ (fieldOf nameLength found).2 < postBufsize) ↔
      ∃ field, found = some field ∧ Accepts field.2 := by
  cases found with
  | none => simp [fieldOf, postBufsize]
  | some field => simp [fieldOf, Accepts]

theorem fieldOf_eq {nameLength : Nat} {field : Nat × List Byte} (accepts : Accepts field.2) :
    fieldOf nameLength (some field) = (field.1 + nameLength, field.2.length) := by
  rw [fieldOf, fieldOffset, if_pos accepts]

theorem HasField.offset {name : List Byte} {field : Nat × List Byte}
    (has : HasField name p field) :
    fieldOffset name.length field.2 field.1 = field.1 + name.length := by
  rw [fieldOffset, if_pos has.accepts]

/-- What the handler looks for. -/
theorem checkField_names (lawful : lib.Lawful) (short : p.length < 0x10000) :
    checkField lib p (chars "ssid=") = fieldOf 5 (lookup (chars "ssid=") p) ∧
      checkField lib p (chars "pass=") = fieldOf 5 (lookup (chars "pass=") p) ∧
      checkField lib p (chars "host=") = fieldOf 5 (lookup (chars "host=") p) ∧
      checkField lib p (chars "config=") = fieldOf 7 (lookup (chars "config=") p) :=
  ⟨@checkField_lookup lib lawful p (chars "ssid") short (by decide) [],
    @checkField_lookup lib lawful p (chars "pass") short (by decide) [],
    @checkField_lookup lib lawful p (chars "host") short (by decide) [],
    @checkField_lookup lib lawful p (chars "config") short (by decide) []⟩

/-- The three lengths are accepted. -/
def Complete (ssid pass host : Nat × Nat) : Prop :=
  (ssid.2 > 0 ∧ ssid.2 < postBufsize) ∧ (pass.2 > 0 ∧ pass.2 < postBufsize) ∧
    (host.2 > 0 ∧ host.2 < postBufsize)

theorem complete_of_fields (lawful : lib.Lawful) (short : p.length < 0x10000)
    {ssid pass host : Nat × List Byte} (fields : NetworkFields p ssid pass host) :
    checkField lib p (chars "ssid=") = (ssid.1 + 5, ssid.2.length) ∧
      checkField lib p (chars "pass=") = (pass.1 + 5, pass.2.length) ∧
      checkField lib p (chars "host=") = (host.1 + 5, host.2.length) ∧
      Complete (ssid.1 + 5, ssid.2.length) (pass.1 + 5, pass.2.length)
        (host.1 + 5, host.2.length) := by
  obtain ⟨atSsid, atPass, atHost, -⟩ := checkField_names lawful short
  rw [fields.hasSsid.found, fieldOf_eq fields.hasSsid.accepts] at atSsid
  rw [fields.hasPass.found, fieldOf_eq fields.hasPass.accepts] at atPass
  rw [fields.hasHost.found, fieldOf_eq fields.hasHost.accepts] at atHost
  exact ⟨atSsid, atPass, atHost, fields.hasSsid.accepts, fields.hasPass.accepts,
    fields.hasHost.accepts⟩

theorem not_complete (lawful : lib.Lawful) (short : p.length < 0x10000)
    (incomplete : ∀ ssid pass host, ¬NetworkFields p ssid pass host) :
    ¬Complete (checkField lib p (chars "ssid=")) (checkField lib p (chars "pass="))
      (checkField lib p (chars "host=")) := by
  obtain ⟨atSsid, atPass, atHost, -⟩ := checkField_names lawful short
  rw [atSsid, atPass, atHost, Complete, fieldOf_accepted, fieldOf_accepted, fieldOf_accepted]
  rintro ⟨⟨ssid, ssidFound, ssidAccepts⟩, ⟨pass, passFound, passAccepts⟩, host, hostFound,
    hostAccepts⟩
  exact incomplete ssid pass host
    ⟨⟨ssidFound, ssidAccepts⟩, ⟨passFound, passAccepts⟩, ⟨hostFound, hostAccepts⟩⟩

/-- A body without one of the names is no network. -/
theorem not_network (absent : lookup (chars "ssid=") p = none) :
    ∀ ssid pass host, ¬NetworkFields p ssid pass host := by
  intro ssid pass host fields
  have found := fields.hasSsid.found
  rw [absent] at found
  cases found

/-- A body is a network or not. -/
theorem network_cases (p : Pbuf) :
    (∃ ssid pass host, NetworkFields p ssid pass host) ∨
      ∀ ssid pass host, ¬NetworkFields p ssid pass host := by
  by_cases network : ∃ ssid pass host, NetworkFields p ssid pass host
  · exact .inl network
  · exact .inr fun ssid pass host fields => network ⟨ssid, pass, host, fields⟩

theorem receive_network (lawful : lib.Lawful) (short : p.length < 0x10000)
    {ssid pass host : Nat × List Byte} (fields : NetworkFields p ssid pass host)
    (current : state.currentConnection = some connection) :
    receiveHanded lib fuel stack connection p state = (do
      let (handed, state) ← storeCredentialsHanded lib fuel stack connection p
        (ssid.1 + 5, ssid.2.length) (pass.1 + 5, pass.2.length) (host.1 + 5, host.2.length) state
      return (handed, .ok, state)) := by
  obtain ⟨atSsid, atPass, atHost, complete⟩ := complete_of_fields lawful short fields
  rw [Complete] at complete
  simp only [receiveHanded, if_pos current, atSsid, atPass, atHost, if_pos complete]

theorem receive_other (lawful : lib.Lawful) (short : p.length < 0x10000)
    (incomplete : ∀ ssid pass host, ¬NetworkFields p ssid pass host)
    (current : state.currentConnection = some connection) :
    receiveHanded lib fuel stack connection p state = (do
      let (handed, state) ← storeConfigHanded lib fuel stack connection p state
      return (handed, .ok, state)) := by
  have refused := not_complete lawful short incomplete
  rw [Complete] at refused
  simp only [receiveHanded, if_pos current, if_neg refused]

theorem receive_foreign (other : state.currentConnection ≠ some connection) :
    receiveHanded lib fuel stack connection p state = pure (none, .val, state) := by
  rw [receiveHanded, if_neg other]

theorem storeConfig_absent (lawful : lib.Lawful) (short : p.length < 0x10000)
    (absent : lookup (chars "config=") p = none) :
    storeConfigHanded lib fuel stack connection p state = pure (none, state) := by
  have atConfig := (checkField_names lawful short).2.2.2
  rw [absent] at atConfig
  simp only [storeConfigHanded, atConfig, fieldOf, ne_eq, not_true_eq_false, if_false]

/-- No field lies at the place that stands for none. -/
theorem fieldOffset_ne {place : Nat} {value : List Byte} (short : p.length < 0x10000)
    (found : lookup (chars "config=") p = some (place, value)) :
    fieldOffset 7 value place ≠ 0xffff := by
  have inside := (lookup_inside (by decide) found).1
  have name : (chars "config=").length = 7 := rfl
  rw [fieldOffset]
  split
  · next accepts =>
      have := accepts.1
      omega
  · omega

theorem storeConfig_found (lawful : lib.Lawful) (short : p.length < 0x10000) {place : Nat}
    {value : List Byte} (found : lookup (chars "config=") p = some (place, value)) :
    storeConfigHanded lib fuel stack connection p state = storeNameHanded lib fuel stack connection
      p (fieldOffset 7 value place) value.length state := by
  have atConfig := (checkField_names lawful short).2.2.2
  rw [found] at atConfig
  simp only [storeConfigHanded, atConfig, fieldOf, if_pos (fieldOffset_ne short found)]

end Branches

end PicoApConfigure.Post
