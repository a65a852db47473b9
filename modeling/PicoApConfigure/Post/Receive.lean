import PicoApConfigure.Post.Fields
import PicoApConfigure.FlashIo.Store

/-!
# What one call does with its piece

A call takes a piece for a form of its own.  It ignores the piece, or it changes the credentials
in memory but refuses the name, or it stores what it finds.
-/

namespace PicoApConfigure.Post

open Nor FlashIo RingBuffer

/-- What becomes of a form. -/
inductive Outcome where
  | ignored
  | touched
  | stored
  deriving DecidableEq, Repr

/-- What becomes of a form, by the lengths of its values. -/
def Form.outcome : Form → Outcome
  | .credentials ssid pass host =>
      if Accepts ssid ∧ Accepts pass ∧ Accepts host then
        if host.length ≤ hostNameSize then .stored else .touched
      else .ignored
  | .config value => if value.length ≤ hostNameSize then .stored else .ignored

/-- The name that a form gives to the device. -/
def Form.name : Form → List Byte
  | .credentials _ _ host => host
  | .config value => value

section Fetch

variable {lib : PbufLib} {p : Pbuf} {destmem : Memory} {destlen srcOffset : Nat}
  {value : List Byte} {region : Nat → Prop} {flash : Memory}

theorem getPostString_refused (lawful : lib.Lawful) {srclen : Nat} (long : destlen < srclen)
    (fuel : Nat) :
    getPostString lib fuel p destmem destlen srclen srcOffset = Pure.pure (false, destmem) := by
  rw [getPostString, lawful.contiguous_refused _ _ _ _ _ long]

/-- A value that fits is copied into the buffer, with a NUL behind it. -/
theorem contiguous_holds (lawful : lib.Lawful) (short : p.length < 0x10000)
    (fits : value.length ≤ destlen) (inside : srcOffset < p.length)
    (here : (p.drop srcOffset).take value.length = value) (destmem : Memory) :
    ∃ wPtr, lib.getContiguous p destmem destlen value.length srcOffset = some wPtr ∧
      Holds (store (store destmem 0 (slice wPtr 0 destlen)) value.length [0]) 0 (value ++ [0]) := by
  have bound : srcOffset + value.length ≤ p.length := by
    have length := congrArg List.length here
    rw [List.length_take, List.length_drop] at length
    omega
  obtain ⟨wPtr, got, holds⟩ := lawful.contiguous_fetched p destmem destlen value.length srcOffset
    short fits inside bound
  rw [here] at holds
  refine ⟨wPtr, got, ?_⟩
  rw [holds_append, Nat.zero_add]
  refine ⟨?_, holds_store _ _ _⟩
  have copied : Holds (store destmem 0 (slice wPtr 0 destlen)) 0 value := by
    have whole := holds_store destmem 0 (slice wPtr 0 destlen)
    obtain ⟨more, rfl⟩ := Nat.exists_eq_add_of_le fits
    rw [slice_add, holds.slice_eq rfl] at whole ⊢
    exact (holds_append.mp whole).1
  refine copied.congr fun query _ below => ?_
  exact (store_of_lt _ [0] (by omega)).symm

/-- A value that fits is in the buffer, with a NUL behind it, when its escapes are decoded. -/
theorem getPostString_fetched (lawful : lib.Lawful) (short : p.length < 0x10000)
    (fits : value.length ≤ destlen) (inside : srcOffset < p.length)
    (here : (p.drop srcOffset).take value.length = value) (destmem : Memory) :
    ∃ fetched, Holds fetched 0 (value ++ [0]) ∧
      (∀ query, destlen < query → fetched query = destmem query) ∧
      ∀ fuel, getPostString lib fuel p destmem destlen value.length srcOffset = (do
        let squashed ← squashHexString fuel fetched
        return (true, squashed)) := by
  obtain ⟨wPtr, got, holds⟩ := contiguous_holds lawful short fits inside here destmem
  refine ⟨_, holds, fun query behind => ?_, fun fuel => ?_⟩
  · rw [store_of_le _ _ (by simp; omega), store_of_le _ _ (by simp; omega)]
  · rw [getPostString, got]

/-- An encoded value that fits is decoded into the buffer. -/
theorem getPostString_encoded (lawful : lib.Lawful) (short : p.length < 0x10000)
    (encoded : Encoded value) (fits : value.length ≤ destlen) (inside : srcOffset < p.length)
    (here : (p.drop srcOffset).take value.length = value) (destmem : Memory) :
    ∃ squashed, Holds squashed 0 (decode value ++ [0]) ∧ FlashProg.Completes region
      (fun fuel => getPostString lib fuel p destmem destlen value.length srcOffset) flash []
      (true, squashed) := by
  obtain ⟨fetched, holds, -, get⟩ := getPostString_fetched lawful short fits inside here destmem
  refine ⟨store fetched 0 (decode value ++ [0]), holds_store _ _ _, ?_⟩
  simp only [get]
  exact (squashLoop_encoded encoded holds (.inl (Nat.le_refl 0))).map _

/-- A value that fits is decoded into a buffer with nothing behind it. -/
theorem getPostString_ends (lawful : lib.Lawful) (short : p.length < 0x10000)
    (fits : value.length ≤ destlen) (inside : srcOffset < p.length)
    (here : (p.drop srcOffset).take value.length = value)
    (blank : ∀ query, destlen < query → destmem query = 0) :
    ∃ squashed limit, squashed limit = 0 ∧ FlashProg.Completes region
      (fun fuel => getPostString lib fuel p destmem destlen value.length srcOffset) flash []
      (true, squashed) := by
  obtain ⟨fetched, -, behind, get⟩ := getPostString_fetched lawful short fits inside here destmem
  obtain ⟨squashed, limit, completes, nul⟩ := @squashLoop_ends region flash (destlen + 1)
    (destlen + 1) fetched 0 0 (by omega) (Nat.le_refl 0) fun query above _ => by
      rw [behind query (by omega), blank query (by omega)]
  refine ⟨squashed, limit, nul, ?_⟩
  simp only [get]
  exact completes.map _

/-- The first character that a value leaves in the buffer. -/
def firstChar (value : List Byte) : Byte := firstOutput (store (fun _ => 0) 0 value)

theorem getPostString_first (lawful : lib.Lawful) (short : p.length < 0x10000)
    (fits : value.length ≤ destlen) (inside : srcOffset < p.length)
    (here : (p.drop srcOffset).take value.length = value) (destmem : Memory) (fuel : Nat) :
    (getPostString lib fuel p destmem destlen value.length srcOffset).Yields
      fun result => result.2 0 = firstChar value := by
  obtain ⟨fetched, holds, -, get⟩ := getPostString_fetched lawful short fits inside here destmem
  have terminated : Holds (store (fun _ => 0) 0 value) 0 (value ++ [0]) := by
    rw [holds_append]
    refine ⟨holds_store _ _ _, ?_⟩
    rw [Nat.zero_add, Holds]
    simp [slice, store_of_le]
  rw [get, firstChar, ← firstOutput_congr holds terminated]
  exact (squashHexString_first fuel fetched).bind fun squashed first => .pure first

end Fetch

/-! ## Calls -/

section Calls

variable {lib : PbufLib} {stack : Stack} {connection : Nat} {p : Pbuf} {state : PostState}
  {ssid pass host value : List Byte} {region : Nat → Prop} {flash : Memory}

theorem here_of_shape {front rest : List Byte} (shape : p = front ++ value ++ rest) :
    (p.drop front.length).take value.length = value := by
  rw [shape, List.append_assoc, List.drop_left, List.take_left]

/-- A piece that shows no form changes nothing. -/
theorem receive_silent (lawful : lib.Lawful) (short : p.length < 0x10000) (silent : Silent p)
    (current : state.currentConnection = some connection) (fuel : Nat) :
    httpdPostReceiveData lib fuel stack connection p state = Pure.pure (.ok, state) := by
  obtain ⟨incomplete, noConfig⟩ := silent
  have config : checkField lib p (chars "config=") = (0xffff, 0xffff) :=
    @checkField_absent lib (chars "confi") 0x67 p lawful short (by decide) noConfig
  have refused : ¬(((checkField lib p (chars "ssid=")).2 > 0 ∧
        (checkField lib p (chars "ssid=")).2 < postBufsize) ∧
      ((checkField lib p (chars "pass=")).2 > 0 ∧
        (checkField lib p (chars "pass=")).2 < postBufsize) ∧
      ((checkField lib p (chars "host=")).2 > 0 ∧
        (checkField lib p (chars "host=")).2 < postBufsize)) := by
    rintro ⟨ssid, -, host⟩
    rcases incomplete with noSsid | noHost
    · have absent : checkField lib p (chars "ssid=") = (0xffff, 0xffff) :=
        @checkField_absent lib (chars "ssi") 0x64 p lawful short (by decide) noSsid
      rw [absent] at ssid
      exact absurd ssid.2 (by decide)
    · have absent : checkField lib p (chars "host=") = (0xffff, 0xffff) :=
        @checkField_absent lib (chars "hos") 0x74 p lawful short (by decide) noHost
      rw [absent] at host
      exact absurd host.2 (by decide)
  simp only [httpdPostReceiveData, if_pos current, if_neg refused, storeConfig, config, ne_eq,
    not_true_eq_false, if_false]
  rfl

/-- A form with credentials goes to its branch if all values are accepted. -/
theorem receive_credentials (lawful : lib.Lawful)
    (plain : (Form.credentials ssid pass host).Plain)
    (short : (Form.credentials ssid pass host).body.length < 0x10000)
    (current : state.currentConnection = some connection) (fuel : Nat) :
    httpdPostReceiveData lib fuel stack connection (Form.credentials ssid pass host).body state =
      if Accepts ssid ∧ Accepts pass ∧ Accepts host then do
        let state ← storeCredentials lib fuel stack connection
          (Form.credentials ssid pass host).body (5, ssid.length)
          (ssid.length + 11, pass.length) (ssid.length + pass.length + 17, host.length) state
        return (.ok, state)
      else Pure.pure (.ok, state) := by
  obtain ⟨atSsid, atPass, atHost⟩ := checkField_credentials lawful plain short
  have noConfig : checkField lib (Form.credentials ssid pass host).body (chars "config=") =
      (0xffff, 0xffff) :=
    @checkField_absent lib (chars "confi") 0x67 _ lawful short (by decide)
      fun k => (names_credentials plain k).2.2.2
  simp only [httpdPostReceiveData, if_pos current, atSsid, atPass, atHost]
  by_cases accepts : Accepts ssid ∧ Accepts pass ∧ Accepts host
  · have raw : (ssid.length > 0 ∧ ssid.length < postBufsize) ∧
        (pass.length > 0 ∧ pass.length < postBufsize) ∧
        (host.length > 0 ∧ host.length < postBufsize) := accepts
    rw [if_pos accepts]
    simp only [if_pos raw, fieldOffset, if_pos accepts.1, if_pos accepts.2.1, if_pos accepts.2.2,
      Nat.zero_add]
  · have raw : ¬((ssid.length > 0 ∧ ssid.length < postBufsize) ∧
        (pass.length > 0 ∧ pass.length < postBufsize) ∧
        (host.length > 0 ∧ host.length < postBufsize)) := accepts
    simp only [if_neg raw, if_neg accepts, storeConfig, noConfig, ne_eq, not_true_eq_false,
      if_false]
    rfl

/-- A form with a name goes to its branch. -/
theorem receive_config (lawful : lib.Lawful) (plain : (Form.config value).Plain)
    (short : (Form.config value).body.length < 0x10000)
    (current : state.currentConnection = some connection) (fuel : Nat) :
    httpdPostReceiveData lib fuel stack connection (Form.config value).body state = (do
      let state ← storeName lib fuel stack connection (Form.config value).body
        (fieldOffset 7 value 0) value.length state
      return (.ok, state)) := by
  have noSsid : checkField lib (Form.config value).body (chars "ssid=") = (0xffff, 0xffff) :=
    @checkField_absent lib (chars "ssi") 0x64 _ lawful short (by decide)
      fun k => (names_config plain k).1
  have atConfig := checkField_config lawful plain short
  have found : fieldOffset 7 value 0 ≠ 0xffff := by
    rw [fieldOffset]
    split <;> decide
  have refused : ¬(0xffff > 0 ∧ 0xffff < postBufsize) := by decide
  simp only [httpdPostReceiveData, if_pos current, noSsid, refused, false_and, if_false,
    storeConfig,
    atConfig, if_pos found]

/-- Where the values of a form with credentials stand. -/
theorem credentials_here (ssid pass host : List Byte) :
    ((Form.credentials ssid pass host).body.drop 5).take ssid.length = ssid ∧
    ((Form.credentials ssid pass host).body.drop (ssid.length + 11)).take pass.length = pass ∧
    ((Form.credentials ssid pass host).body.drop (ssid.length + pass.length + 17)).take
      host.length = host ∧
    (Form.credentials ssid pass host).body.length =
      ssid.length + pass.length + host.length + 17 := by
  have frontPass : (chars "ssid=" ++ ssid ++ chars "&pass=").length = ssid.length + 11 := by
    simp [chars]
  have frontHost : (chars "ssid=" ++ ssid ++ chars "&pass=" ++ pass ++ chars "&host=").length =
      ssid.length + pass.length + 17 := by
    simp [chars]
    omega
  refine ⟨?_, ?_, ?_, ?_⟩
  · exact @here_of_shape _ ssid (chars "ssid=") (chars "&pass=" ++ pass ++ chars "&host=" ++ host)
      (by simp [Form.body])
  · rw [← frontPass]
    exact @here_of_shape _ pass _ (chars "&host=" ++ host) (by simp [Form.body])
  · rw [← frontHost]
    exact @here_of_shape _ host _ [] (by simp [Form.body])
  · rw [Form.body, List.length_append, frontHost]
    omega

/-- Where the value of a form with a name stands, or what is taken for it if it is empty. -/
theorem config_here (fits : value.length ≤ hostNameSize) :
    fieldOffset 7 value 0 < (Form.config value).body.length ∧
    ((Form.config value).body.drop (fieldOffset 7 value 0)).take value.length = value := by
  have length : (Form.config value).body.length = value.length + 7 := by simp [Form.body, chars]
  rw [fieldOffset]
  split
  · next accepts =>
      refine ⟨?_, @here_of_shape _ value (chars "config=") [] (by simp [Form.body])⟩
      have := accepts.1
      omega
  · next refused =>
      have empty : value.length = 0 := by
        by_contra more
        refine refused ⟨Nat.pos_of_ne_zero more, Nat.lt_of_le_of_lt fits (by decide)⟩
      refine ⟨by omega, ?_⟩
      rw [empty, List.take_zero, List.length_eq_zero_iff.mp empty]

/-- A call leaves the connection alone. -/
theorem receive_current (fuel : Nat) (p : Pbuf) (state : PostState) :
    (httpdPostReceiveData lib fuel stack connection p state).Yields
      fun result => result.2.currentConnection = state.currentConnection := by
  have credentials : ∀ ssid pass host,
      (storeCredentials lib fuel stack connection p ssid pass host state).Yields
        fun result => result.currentConnection = state.currentConnection := by
    intro ssid pass host
    simp only [storeCredentials]
    refine .bind_any fun _ => .bind_any fun _ => .bind_any fun _ => ?_
    split
    · exact .bind_any fun _ => .bind_any fun _ => .pure rfl
    · exact .pure rfl
  have config : (storeConfig lib fuel stack connection p state).Yields
      fun result => result.currentConnection = state.currentConnection := by
    simp only [storeConfig, storeName]
    split
    · refine .bind_any fun _ => ?_
      split
      · exact .bind_any fun _ => .pure rfl
      · exact .pure rfl
    · exact .pure rfl
  simp only [httpdPostReceiveData]
  split
  · split
    · exact (credentials _ _ _).bind fun result kept => .pure kept
    · exact config.bind fun result kept => .pure kept
  · exact .pure rfl

variable {form : Form}

/-- A form of unfit lengths changes nothing. -/
theorem receive_ignored (lawful : lib.Lawful) (plain : form.Plain)
    (short : form.body.length < 0x10000) (ignored : form.outcome = .ignored)
    (current : state.currentConnection = some connection) (fuel : Nat) :
    httpdPostReceiveData lib fuel stack connection form.body state = Pure.pure (.ok, state) := by
  cases form with
  | credentials ssid pass host =>
      rw [receive_credentials lawful plain short current, if_neg]
      intro accepts
      rw [Form.outcome, if_pos accepts] at ignored
      split at ignored <;> cases ignored
  | config value =>
      have long : hostNameSize < value.length := by
        by_contra fits
        rw [Form.outcome, if_pos (Nat.le_of_not_lt fits)] at ignored
        cases ignored
      rw [receive_config lawful plain short current, storeName, getPostString_refused lawful long]
      rfl

theorem outcome_accepts (known : (Form.credentials ssid pass host).outcome ≠ .ignored) :
    Accepts ssid ∧ Accepts pass ∧ Accepts host := by
  by_contra refused
  rw [Form.outcome, if_neg refused] at known
  exact known rfl

/-- Accepted credentials fit the arrays. -/
theorem Accepts.fits (accepts : Accepts value) : value.length ≤ postBufsize :=
  Nat.le_of_lt accepts.2

/-- A form whose name is too long changes the credentials in memory. -/
theorem receive_touched (lawful : lib.Lawful)
    (plain : (Form.credentials ssid pass host).Plain)
    (short : (Form.credentials ssid pass host).body.length < 0x10000)
    (touched : (Form.credentials ssid pass host).outcome = .touched) (ssidEncoded : Encoded ssid)
    (passEncoded : Encoded pass) (current : state.currentConnection = some connection) :
    ∃ wifiSsid wifiPassword, Holds wifiSsid 0 (decode ssid ++ [0]) ∧
      Holds wifiPassword 0 (decode pass ++ [0]) ∧
      FlashProg.Completes region (fun fuel => httpdPostReceiveData lib fuel stack connection
        (Form.credentials ssid pass host).body state) flash []
        (.ok, { state with wifiSsid, wifiPassword }) := by
  have accepts := outcome_accepts (by rw [touched]; decide)
  have long : hostNameSize < host.length := by
    by_contra fits
    rw [Form.outcome, if_pos accepts, if_pos (Nat.le_of_not_lt fits)] at touched
    cases touched
  obtain ⟨ssidHere, passHere, -, length⟩ := credentials_here ssid pass host
  obtain ⟨ssidPos, -⟩ := accepts.1
  obtain ⟨wifiSsid, ssidHolds, ssidGet⟩ := @getPostString_encoded _ _ _ _ _ region flash lawful
    short
    ssidEncoded accepts.1.fits (by omega) ssidHere state.wifiSsid
  obtain ⟨wifiPassword, passHolds, passGet⟩ := @getPostString_encoded _ _ _ _ _ region flash lawful
    short passEncoded accepts.2.1.fits (by omega) passHere state.wifiPassword
  refine ⟨wifiSsid, wifiPassword, ssidHolds, passHolds, ?_⟩
  simp only [receive_credentials lawful plain short current, if_pos accepts, storeCredentials,
    getPostString_refused lawful long]
  rw [← List.append_nil ([] : List Op)]
  refine FlashProg.Completes.bind ?_ (FlashProg.Exec.pure _).completes
  rw [← List.append_nil ([] : List Op)]
  refine ssidGet.bind ?_
  rw [← List.append_nil ([] : List Op)]
  refine passGet.bind ?_
  refine FlashProg.Completes.bind_read (FlashProg.Exec.pure _) ?_
  simp only [Bool.false_eq_true, and_false, if_false]
  exact (FlashProg.Exec.pure _).completes

/-- What a stored form leaves in the name of the device begins like its value. -/
theorem receive_first (lawful : lib.Lawful) (plain : form.Plain)
    (short : form.body.length < 0x10000) (stored : form.outcome = .stored)
    (current : state.currentConnection = some connection) (fuel : Nat) :
    (httpdPostReceiveData lib fuel stack connection form.body state).Yields
      fun result => result.2.localHostName 0 = firstChar form.name := by
  cases form with
  | credentials ssid pass host =>
      have accepts := outcome_accepts (by rw [stored]; decide)
      have fits : host.length ≤ hostNameSize := by
        by_contra long
        rw [Form.outcome, if_pos accepts, if_neg long] at stored
        cases stored
      obtain ⟨hostPos, -⟩ := accepts.2.2
      obtain ⟨-, -, here, length⟩ := credentials_here ssid pass host
      have first := fun destmem => getPostString_first lawful short fits (by omega) here destmem
        fuel
      simp only [receive_credentials lawful plain short current, if_pos accepts, storeCredentials]
      refine FlashProg.Yields.bind ?_ fun result kept => .pure kept
      refine .bind_any fun _ => .bind_any fun _ => (first _).bind fun fetched begins => ?_
      split
      · refine .bind_any fun _ => .bind_any fun _ => .pure ?_
        exact (store_of_lt _ [0] hostPos).trans begins
      · exact .pure begins
  | config value =>
      have fits : value.length ≤ hostNameSize := by
        by_contra long
        rw [Form.outcome, if_neg long] at stored
        cases stored
      obtain ⟨inside, here⟩ := config_here fits
      have first := fun destmem => getPostString_first lawful short fits inside here destmem fuel
      simp only [receive_config lawful plain short current, storeName]
      refine FlashProg.Yields.bind ?_ fun result kept => .pure kept
      refine (first _).bind fun fetched begins => ?_
      split
      · exact .bind_any fun _ => .pure begins
      · exact .pure begins

end Calls

/-! ## A form that is stored -/

/-- The length of the entry that holds the name. -/
def Form.recordLength : Form → Nat
  | .credentials _ _ host => host.length
  | .config value => value.length + 1

/-- Nothing but NULs behind the arrays. -/
structure Blank (state : PostState) : Prop where
  wifiSsid : ∀ query, postBufsize < query → state.wifiSsid query = 0
  wifiPassword : ∀ query, postBufsize < query → state.wifiPassword query = 0
  localHostName : ∀ query, hostNameSize < query → state.localHostName query = 0

/-- A sector with room for a form and without entries of its kinds. -/
structure Roomy (sector : Sector) : Prop where
  room : sector.used + 128 ≤ 4096
  noNetwork : ∀ fragment ∈ sector.frags, ¬Wanted (BitVec.ofInt 8 ssidId) fragment
  noName : ∀ fragment ∈ sector.frags, ¬Wanted (BitVec.ofInt 8 hostnameId) fragment

section Stored

variable {lib : PbufLib} {stack : Stack} {connection : Nat} {state : PostState} {form : Form}
  {ring : Geometry} {flash : Memory} {cells : Nat → Option Sector} {sector : Sector}

/-- A form is stored with an entry for its name at the end. -/
theorem receive_stores (lawful : lib.Lawful) (plain : form.Plain)
    (short : form.body.length < 0x10000) (stored : form.outcome = .stored)
    (current : state.currentConnection = some connection) (blank : Blank state)
    (used : OneSectorUsed ring flash cells sector) (roomy : Roomy sector)
    (opens : Opens ring persistentTable (persistentLen / flashSectorSize)) :
    ∃ writes result cells' sector' frags record, FlashProg.Completes ring.extended
        (fun fuel => httpdPostReceiveData lib fuel stack connection form.body state) flash writes
        (.ok, result) ∧
      OneSectorUsed ring (replay writes flash) cells' sector' ∧
      sector'.frags = frags ++ [record] ∧ record.payload.length = form.recordLength := by
  have sectorUsed : sector.used = 4 + fragsSize sector.frags := rfl
  have room := roomy.room
  cases form with
  | credentials ssid pass host =>
      have accepts := outcome_accepts (by rw [stored]; decide)
      have fits : host.length ≤ hostNameSize := by
        by_contra long
        rw [Form.outcome, if_pos accepts, if_neg long] at stored
        cases stored
      have small : hostNameSize = 20 ∧ postBufsize = 32 := ⟨rfl, rfl⟩
      have ⟨⟨ssidPos, ssidShort⟩, ⟨passPos, passShort⟩, ⟨hostPos, _⟩⟩ := accepts
      obtain ⟨ssidHere, passHere, hostHere, length⟩ := credentials_here ssid pass host
      obtain ⟨wifiSsid, -, -, ssidGet⟩ := @getPostString_ends _ _ _ _ _ _ ring.extended flash lawful
        short accepts.1.fits (by omega) ssidHere blank.wifiSsid
      obtain ⟨wifiPassword, -, -, passGet⟩ := @getPostString_ends _ _ _ _ _ _ ring.extended flash
        lawful short accepts.2.1.fits (by omega) passHere blank.wifiPassword
      obtain ⟨name, -, -, hostGet⟩ := @getPostString_ends _ _ _ _ _ _ ring.extended flash lawful
        short fits (by omega) hostHere blank.localHostName
      have terminated : ∀ (array : Memory) (length : Nat), store array length [0] length = 0 :=
        fun array length => @store_at array length [0] 0 Nat.one_pos
      obtain ⟨writes, result, cells', sector', network, write, used', frags, id, length'⟩ :=
        used.writeSsid opens (by omega) roomy.noNetwork (terminated wifiSsid ssid.length)
          (terminated wifiPassword pass.length) stack state.pagebuff
      have sectorUsed' : sector'.used = sector.used + (4 + network.payload.length) := by
        simp [Sector.used, frags, Fragment.size]
        omega
      have noName : ∀ fragment ∈ sector'.frags, ¬Wanted (BitVec.ofInt 8 hostnameId) fragment := by
        intro fragment member wanted
        rw [frags, List.mem_append, List.mem_singleton] at member
        rcases member with member | rfl
        · exact roomy.noName fragment member wanted
        · have differs : BitVec.ofInt 8 ssidId ≠ BitVec.ofInt 8 hostnameId := by decide
          exact differs (id.symm.trans wanted.1)
      have one : OneOf (BitVec.ofInt 8 ssidId) sector'.frags := by
        rw [frags]
        exact (OneOf.of_unused roomy.noNetwork).append (.inr roomy.noNetwork)
      obtain ⟨writes', result', cells'', sector'', record, write', used'', frags', length''⟩ :=
        used'.writeHostname opens hostPos (by omega) noName one (terminated name host.length) stack
          result.2
      refine ⟨writes ++ writes', { state with
        wifiSsid := store wifiSsid ssid.length [0]
        wifiPassword := store wifiPassword pass.length [0]
        localHostName := store name host.length [0]
        pagebuff := result'.2, validConnection := some connection }, cells'', sector'', _, record,
        ?_,
        by rw [replay_append]; exact used'', frags', length''⟩
      simp only [receive_credentials lawful plain short current, if_pos accepts, storeCredentials]
      rw [← List.append_nil (writes ++ writes')]
      refine FlashProg.Completes.bind ?_ (FlashProg.Exec.pure _).completes
      rw [← List.nil_append (writes ++ writes')]
      refine ssidGet.bind ?_
      rw [← List.nil_append (writes ++ writes')]
      refine passGet.bind ?_
      rw [← List.nil_append (writes ++ writes')]
      refine hostGet.bind ?_
      simp only [and_self, if_true]
      refine write.bind ?_
      rw [← List.append_nil writes']
      exact write'.bind (FlashProg.Exec.pure _).completes
  | config value =>
      have fits : value.length ≤ hostNameSize := by
        by_contra long
        rw [Form.outcome, if_neg long] at stored
        cases stored
      have small : hostNameSize = 20 := rfl
      obtain ⟨inside, here⟩ := config_here fits
      obtain ⟨name, limit, terminated, get⟩ := @getPostString_ends _ _ _ _ _ _ ring.extended flash
        lawful short fits inside here blank.localHostName
      obtain ⟨writes, result, cells', sector', fragment, write, used', frags, length⟩ :=
        used.writeHostname opens value.length.succ_pos (by omega) roomy.noName
          (.of_unused roomy.noNetwork) terminated stack state.pagebuff
      refine ⟨writes, { state with
        localHostName := name, pagebuff := result.2, validConfig := some connection }, cells',
        sector', _, fragment, ?_, used', frags, length⟩
      simp only [receive_config lawful plain short current, storeName]
      rw [← List.append_nil writes]
      refine FlashProg.Completes.bind ?_ (FlashProg.Exec.pure _).completes
      rw [← List.nil_append writes]
      refine get.bind ?_
      simp only [if_true]
      rw [← List.append_nil writes]
      exact write.bind (FlashProg.Exec.pure _).completes

end Stored

end PicoApConfigure.Post
