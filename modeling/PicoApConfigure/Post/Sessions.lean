import Mathlib.Logic.Function.Basic
import PicoApConfigure.Post.Rejected

/-!
# Overlapping forms

lwIP calls the handler for any number of connections at once: the begin of a form, its pieces and
its end.  The handler keeps four pointers.  `valid_connection` is cleared when another connection
begins and when the form ends, so it never outlives the form that set it.  `valid_config` is never
cleared, so a connection that is used again for another form finds it set.
-/

namespace PicoApConfigure.Post

open Nor FlashIo RingBuffer

/-! ## Begin and end -/

/-- `POST_NAMES`. -/
def postHtmlTags : List (List Byte) := [chars "configure", chars "csprink", chars "config"]

/-- `snprintf` of a text into a buffer of `size` bytes, without the NUL. -/
def snprintf (size : Nat) (text : List Byte) : List Byte := text.take (size - 1)

/-- The loop of `httpd_post_begin`; `none` is where it stores neither a page nor `post_auto_wnd`. -/
def httpdPostBeginLoop (connection : Nat) (uri : List Byte) (responseUriLen : Nat)
    (state : PostState) : List (List Byte) → Err × Option (List Byte × Nat) × PostState
  | [] => (.val, none, state)
  | tag :: tags =>
      if tag.isPrefixOf (uri.drop 1) then
        if state.currentConnection ≠ some connection then
          (.ok, some (snprintf responseUriLen (chars "/page2.shtml"), 1),
            { state with currentConnection := some connection, validConnection := none })
        else
          httpdPostBeginLoop connection uri responseUriLen state tags
      else
        httpdPostBeginLoop connection uri responseUriLen state tags

/-- `httpd_post_begin`. -/
def httpdPostBegin (connection : Nat) (uri : List Byte) (responseUriLen : Nat)
    (state : PostState) : Err × Option (List Byte × Nat) × PostState :=
  httpdPostBeginLoop connection uri responseUriLen state postHtmlTags

/-- The page that `httpd_post_finished` answers with. -/
def httpdPostFinishedUri (connection : Nat) (responseUriLen : Nat) (state : PostState) :
    List Byte :=
  let responseUri := snprintf responseUriLen (chars "/page2.shtml")
  if state.currentConnection = some connection then
    if state.validConnection = some connection then
      snprintf responseUriLen (chars "/index.shtml")
    else if state.currentConnection = state.validJson then
      snprintf responseUriLen (chars "/index.shtml")
    else if state.currentConnection = state.validConfig then
      snprintf responseUriLen (chars "/config.shtml")
    else responseUri
  else responseUri

/-! ## The server -/

/-- The handler's variables, the flash, and of every connection with a form under way the pieces
that have come. -/
structure Server where
  post : PostState
  flash : Memory
  forms : Nat → Option (List Pbuf)

/-- A call of lwIP. -/
inductive Event where
  | begin (connection : Nat) (uri : List Byte)
  | receive (connection : Nat) (p : Pbuf)
  | finish (connection : Nat)

/-- A call on a server.  A connection has one form at a time: it begins another one when the last
has finished, and pieces and ends are those of a form that was taken. -/
inductive Step (lib : PbufLib) : Server → Event → Server → Prop
  | taken {server : Server} {connection : Nat} {uri : List Byte} {responseUriLen : Nat}
      {stored : Option (List Byte × Nat)} {post : PostState}
      (idle : server.forms connection = none)
      (begins : httpdPostBegin connection uri responseUriLen server.post = (.ok, stored, post)) :
      Step lib server (.begin connection uri)
        { server with post, forms := Function.update server.forms connection (some []) }
  | refused {server : Server} {connection : Nat} {uri : List Byte} {responseUriLen : Nat}
      {stored : Option (List Byte × Nat)} {post : PostState}
      (idle : server.forms connection = none)
      (begins : httpdPostBegin connection uri responseUriLen server.post = (.val, stored, post)) :
      Step lib server (.begin connection uri) { server with post }
  | received {server : Server} {connection : Nat} {p : Pbuf} {pieces : List Pbuf} {fuel : Nat}
      {stack : Stack} {region : Nat → Prop} {writes : List Op} {err : Err} {post : PostState}
      (underWay : server.forms connection = some pieces) (short : p.length < 0x10000)
      (call : (httpdPostReceiveData lib fuel stack connection p server.post).Exec region
        server.flash writes (err, post)) :
      Step lib server (.receive connection p)
        { post, flash := replay writes server.flash,
          forms := Function.update server.forms connection (some (pieces ++ [p])) }
  | finished {server : Server} {connection : Nat} {pieces : List Pbuf}
      (underWay : server.forms connection = some pieces) :
      Step lib server (.finish connection)
        { server with
          post := httpdPostFinished connection server.post
          forms := Function.update server.forms connection none }

/-- Before the first call. -/
structure Server.Started (server : Server) : Prop where
  currentConnection : server.post.currentConnection = none
  validConnection : server.post.validConnection = none
  validJson : server.post.validJson = none
  validConfig : server.post.validConfig = none
  forms : ∀ connection, server.forms connection = none

/-- The states that are reached by calls that meet a condition. -/
inductive Run (lib : PbufLib) (meets : Server → Event → Prop) : Server → Prop
  | start {server : Server} (started : server.Started) : Run lib meets server
  | step {server server' : Server} {event : Event} (run : Run lib meets server)
      (met : meets server event) (step : Step lib server event server') : Run lib meets server'

/-! ## What has to hold -/

/-- The body has accepted fields `ssid`, `pass` and `host`. -/
def HasNetwork (p : Pbuf) : Prop :=
  ∃ ssid pass host, NetworkFields p ssid pass host ∧ host.2.length ≤ hostNameSize

/-- The body has an accepted field `config`. -/
def HasConfig (p : Pbuf) : Prop :=
  (∀ ssid pass host, ¬NetworkFields p ssid pass host) ∧
    ∃ field, lookup (chars "config=") p = some field ∧ field.2.length ≤ hostNameSize

/-- The end of a form sets `config_changed`, or answers with the index page, only if a piece of that
form has a network. -/
def OwnNetwork (server : Server) : Prop :=
  ∀ connection pieces responseUriLen, server.forms connection = some pieces →
    (httpdPostFinished connection { server.post with configChanged := 0 }).configChanged = 1 ∨
      httpdPostFinishedUri connection responseUriLen server.post = chars "/index.shtml" →
    ∃ piece ∈ pieces, HasNetwork piece

/-- The end of a form answers with the configuration page only if a piece of that form has a
name. -/
def OwnConfig (server : Server) : Prop :=
  ∀ connection pieces responseUriLen, server.forms connection = some pieces →
    httpdPostFinishedUri connection responseUriLen server.post = chars "/config.shtml" →
    ∃ piece ∈ pieces, HasConfig piece

/-- No form borrows the success of another. -/
def OwnSuccess (server : Server) : Prop := OwnNetwork server ∧ OwnConfig server

/-- A form is not taken on the connection that `valid_config` points to. -/
def FreshBegin (server : Server) : Event → Prop
  | .begin connection uri =>
      ∀ responseUriLen, (httpdPostBegin connection uri responseUriLen server.post).1 = .ok →
        server.post.validConfig ≠ some connection
  | .receive _ _ => True
  | .finish _ => True

/-- Any call. -/
def AnyCall (_ : Server) (_ : Event) : Prop := True

/-! ## One call -/

section Calls

variable {lib : PbufLib} {connection : Nat} {state : PostState}

/-- A form is taken on a connection that is not the current one, and nothing else changes. -/
theorem begin_cases (uri : List Byte) (responseUriLen : Nat) :
    (∃ stored, state.currentConnection ≠ some connection ∧
      httpdPostBegin connection uri responseUriLen state = (.ok, stored,
        { state with currentConnection := some connection, validConnection := none })) ∨
      httpdPostBegin connection uri responseUriLen state = (.val, none, state) := by
  rw [httpdPostBegin]
  generalize postHtmlTags = tags
  induction tags with
  | nil => exact .inr rfl
  | cons tag tags ih =>
      rw [httpdPostBeginLoop]
      split
      · split
        · next other => exact .inl ⟨_, other, rfl⟩
        · exact ih
      · exact ih

/-- A form for one of the pages is taken on any other connection. -/
theorem begin_taken {uri tag : List Byte} (responseUriLen : Nat) (known : tag ∈ postHtmlTags)
    (page : tag.isPrefixOf (uri.drop 1) = true)
    (other : state.currentConnection ≠ some connection) :
    httpdPostBegin connection uri responseUriLen state =
      (.ok, some (snprintf responseUriLen (chars "/page2.shtml"), 1),
        { state with currentConnection := some connection, validConnection := none }) := by
  rw [httpdPostBegin]
  generalize postHtmlTags = tags at known
  induction tags with
  | nil => cases known
  | cons first tags ih =>
      rw [httpdPostBeginLoop]
      by_cases matching : first.isPrefixOf (uri.drop 1) = true
      · rw [if_pos matching, if_pos other]
      · rw [if_neg matching]
        rcases List.mem_cons.mp known with rfl | later
        · exact absurd page matching
        · exact ih later

theorem taken_eq {uri : List Byte} {responseUriLen : Nat} {stored : Option (List Byte × Nat)}
    {post : PostState}
    (begins : httpdPostBegin connection uri responseUriLen state = (.ok, stored, post)) :
    post = { state with currentConnection := some connection, validConnection := none } := by
  rcases @begin_cases connection state uri responseUriLen with ⟨_, -, taken⟩ | refused
  · rw [taken] at begins
    exact (Prod.mk.inj (Prod.mk.inj begins).2).2.symm
  · rw [refused] at begins
    cases begins

theorem refused_eq {uri : List Byte} {responseUriLen : Nat} {stored : Option (List Byte × Nat)}
    {post : PostState}
    (begins : httpdPostBegin connection uri responseUriLen state = (.val, stored, post)) :
    post = state := by
  rcases @begin_cases connection state uri responseUriLen with ⟨_, -, taken⟩ | refused
  · rw [taken] at begins
    cases begins
  · rw [refused] at begins
    exact (Prod.mk.inj (Prod.mk.inj begins).2).2.symm

/-- Nothing is handed over. -/
theorem hands_nothing {α : Type} {rest : α} {holds : Handed → Prop} :
    (pure (none, rest) : FlashProg (Option Handed × α)).Yields
      fun result => ∀ handed, result.1 = some handed → holds handed := by
  apply FlashProg.Yields.pure
  rintro handed ⟨⟩

/-- The branch for credentials hands over a network whose name fits in its array. -/
theorem storeCredentials_hands (lawful : lib.Lawful) {p : Pbuf} {fuel : Nat} {stack : Stack}
    {ssid pass host : Nat × Nat} :
    (storeCredentialsHanded lib fuel stack connection p ssid pass host state).Yields fun result =>
      ∀ handed, result.1 = some handed → handed.kind = .network ∧ host.2 ≤ hostNameSize := by
  rw [storeCredentialsHanded]
  refine .bind_any fun gotSsid => .bind_any fun gotPass => ?_
  by_cases fits : host.2 ≤ hostNameSize
  · refine .bind_any fun gotHost => ?_
    dsimp only
    split
    · refine .bind_any fun wroteSsid => .bind_any fun wroteName => .pure ?_
      rintro handed ⟨⟩
      exact ⟨rfl, fits⟩
    · exact hands_nothing
  · rw [getPostString_refused lawful (Nat.lt_of_not_le fits)]
    have refused : ¬(gotSsid.1 = true ∧ gotPass.1 = true ∧ false = true) := by simp
    show FlashProg.Yields _ (if gotSsid.1 = true ∧ gotPass.1 = true ∧ false = true then _ else _)
    rw [if_neg refused]
    exact hands_nothing

/-- The branch for a name hands over a name that fits in its array. -/
theorem storeConfig_hands (lawful : lib.Lawful) {p : Pbuf} (short : p.length < 0x10000)
    {fuel : Nat} {stack : Stack} :
    (storeConfigHanded lib fuel stack connection p state).Yields fun result =>
      ∀ handed, result.1 = some handed → handed.kind = .config ∧
        ∃ field, lookup (chars "config=") p = some field ∧ field.2.length ≤ hostNameSize := by
  cases known : lookup (chars "config=") p with
  | none =>
      rw [storeConfig_absent lawful short known]
      exact hands_nothing
  | some field =>
      rw [storeConfig_found lawful short known, storeNameHanded]
      by_cases fits : field.2.length ≤ hostNameSize
      · refine .bind_any fun got => ?_
        dsimp only
        split
        · refine .bind_any fun wroteName => .pure ?_
          rintro handed ⟨⟩
          exact ⟨rfl, field, rfl, fits⟩
        · exact hands_nothing
      · rw [getPostString_refused lawful (Nat.lt_of_not_le fits)]
        exact hands_nothing

/-- What is handed over comes from fields of the body, on the current connection. -/
theorem receive_hands (lawful : lib.Lawful) {p : Pbuf} (short : p.length < 0x10000) {fuel : Nat}
    {stack : Stack} :
    (receiveHanded lib fuel stack connection p state).Yields fun result =>
      ∀ handed, result.1 = some handed → state.currentConnection = some connection ∧
        (handed.kind = .network → HasNetwork p) ∧ (handed.kind = .config → HasConfig p) := by
  by_cases current : state.currentConnection = some connection
  · rcases network_cases p with ⟨ssid, pass, host, fields⟩ | incomplete
    · rw [receive_network lawful short fields current]
      refine (storeCredentials_hands lawful).bind ?_
      intro result hands
      apply FlashProg.Yields.pure
      intro handed equal
      obtain ⟨kind, fits⟩ := hands handed equal
      refine ⟨current, fun _ => ⟨ssid, pass, host, fields, fits⟩, fun other => ?_⟩
      rw [kind] at other
      cases other
    · rw [receive_other lawful short incomplete current]
      refine (storeConfig_hands lawful short).bind ?_
      intro result hands
      apply FlashProg.Yields.pure
      intro handed equal
      obtain ⟨kind, found⟩ := hands handed equal
      refine ⟨current, fun other => ?_, fun _ => ⟨incomplete, found⟩⟩
      rw [kind] at other
      cases other
  · rw [receive_foreign current]
    exact hands_nothing

/-- What a call may do to the pointers. -/
structure Receives (connection : Nat) (p : Pbuf) (state result : PostState) : Prop where
  currentConnection : result.currentConnection = state.currentConnection
  validJson : result.validJson = state.validJson
  validConnection : result.validConnection = state.validConnection ∨
    result.validConnection = some connection ∧ state.currentConnection = some connection ∧
      HasNetwork p
  validConfig : result.validConfig = state.validConfig ∨
    result.validConfig = some connection ∧ HasConfig p

theorem receive_receives (lawful : lib.Lawful) {p : Pbuf} (short : p.length < 0x10000)
    {fuel : Nat} {stack : Stack} :
    (httpdPostReceiveData lib fuel stack connection p state).Yields
      fun result => Receives connection p state result.2 := by
  rw [httpdPostReceiveData_eq]
  intro region memory writes value exec
  obtain ⟨_, found, _, -, call, -, equal⟩ := FlashProg.exec_bind_iff.mp exec
  have sets := receive_sets lib fuel stack connection p state _ _ _ _ call
  have hands := receive_hands lawful short _ _ _ _ call
  rw [← equal]
  refine ⟨sets.currentConnection, sets.validJson, ?_, ?_⟩
  · rw [sets.validConnection]
    split
    · next kind =>
        obtain ⟨handed, given, kind⟩ := Option.map_eq_some_iff.mp kind
        obtain ⟨current, network, -⟩ := hands handed given
        exact .inr ⟨rfl, current, network kind⟩
    · exact .inl rfl
  · rw [sets.validConfig]
    split
    · next kind =>
        obtain ⟨handed, given, kind⟩ := Option.map_eq_some_iff.mp kind
        exact .inr ⟨rfl, (hands handed given).2.2 kind⟩
    · exact .inl rfl

/-- A name that fits in its array sets `valid_config`. -/
theorem receive_name (lawful : lib.Lawful) {p : Pbuf} (short : p.length < 0x10000) {fuel : Nat}
    {stack : Stack} (has : HasConfig p) (current : state.currentConnection = some connection) :
    (httpdPostReceiveData lib fuel stack connection p state).Yields
      fun result => result.2.validConfig = some connection := by
  obtain ⟨incomplete, field, found, fits⟩ := has
  rw [httpdPostReceiveData_eq]
  intro region memory writes value exec
  obtain ⟨_, received, _, -, call, -, equal⟩ := FlashProg.exec_bind_iff.mp exec
  have sets := receive_sets lib fuel stack connection p state _ _ _ _ call
  rw [receive_other lawful short incomplete current] at call
  obtain ⟨_, stored, _, -, store, -, same⟩ := FlashProg.exec_bind_iff.mp call
  obtain ⟨handed, given⟩ := Option.ne_none_iff_exists'.mp
    (storeConfig_accepted lawful short found fits _ _ _ _ store)
  obtain ⟨kind, -⟩ := storeConfig_hands lawful short _ _ _ _ store handed given
  rw [← equal, sets.validConfig, ← same, given, Option.map_some, kind, if_pos rfl]

end Calls

/-! ## Runs -/

/-- `valid_connection` points to a form with a network of its own. -/
structure Sound (server : Server) : Prop where
  validJson : server.post.validJson = none
  network : ∀ connection pieces, server.forms connection = some pieces →
    server.post.validConnection = some connection → ∃ piece ∈ pieces, HasNetwork piece

/-- `valid_config` points to no form that has no name of its own. -/
def ConfigSound (server : Server) : Prop :=
  ∀ connection pieces, server.forms connection = some pieces →
    server.post.validConfig = some connection → ∃ piece ∈ pieces, HasConfig piece

section Runs

variable {lib : PbufLib} {server server' : Server} {event : Event} {connection : Nat}

@[simp] theorem httpdPostFinished_validJson (connection : Nat) (state : PostState) :
    (httpdPostFinished connection state).validJson = state.validJson := by
  simp only [httpdPostFinished]
  split
  · split <;> rfl
  · rfl

@[simp] theorem httpdPostFinished_validConfig (connection : Nat) (state : PostState) :
    (httpdPostFinished connection state).validConfig = state.validConfig := by
  simp only [httpdPostFinished]
  split
  · split <;> rfl
  · rfl

theorem httpdPostFinished_validConnection (connection : Nat) (state : PostState) :
    (httpdPostFinished connection state).validConnection = none ∨
      (httpdPostFinished connection state).validConnection = state.validConnection := by
  simp only [httpdPostFinished]
  split
  · exact .inl rfl
  · exact .inr rfl

/-- The forms under way behind a change of one. -/
theorem update_cases {forms : Nat → Option (List Pbuf)} {changed : Option (List Pbuf)}
    {other : Nat} {pieces : List Pbuf}
    (underWay : Function.update forms connection changed other = some pieces) :
    (other = connection ∧ changed = some pieces) ∨
      (other ≠ connection ∧ forms other = some pieces) := by
  by_cases same : other = connection
  · rw [same, Function.update_self] at underWay
    exact .inl ⟨same, underWay⟩
  · rw [Function.update_of_ne same] at underWay
    exact .inr ⟨same, underWay⟩

theorem Sound.step (lawful : lib.Lawful) (sound : Sound server)
    (step : Step lib server event server') : Sound server' := by
  cases step with
  | @taken connection uri responseUriLen stored post idle begins =>
      obtain rfl := taken_eq begins
      refine ⟨sound.validJson, fun other pieces _ valid => ?_⟩
      cases valid
  | @refused connection uri responseUriLen stored post idle begins =>
      obtain rfl := refused_eq begins
      exact sound
  | @received connection p pieces fuel stack region writes err post underWay short call =>
      have receives := receive_receives lawful short _ _ _ _ call
      refine ⟨receives.validJson.trans sound.validJson, fun other pieces' underWay' valid => ?_⟩
      rcases update_cases underWay' with ⟨rfl, equal⟩ | ⟨different, underWay'⟩
      · obtain rfl := Option.some.inj equal
        rcases receives.validConnection with kept | ⟨-, -, network⟩
        · obtain ⟨piece, member, has⟩ := sound.network _ _ underWay (kept.symm.trans valid)
          exact ⟨piece, List.mem_append_left _ member, has⟩
        · exact ⟨p, List.mem_append_right _ List.mem_cons_self, network⟩
      · rcases receives.validConnection with kept | ⟨set, -, -⟩
        · exact sound.network _ _ underWay' (kept.symm.trans valid)
        · exact absurd (Option.some.inj (valid.symm.trans set)) different
  | @finished connection pieces underWay =>
      refine ⟨(httpdPostFinished_validJson _ _).trans sound.validJson,
        fun other pieces' underWay' valid => ?_⟩
      rcases update_cases underWay' with ⟨-, impossible⟩ | ⟨-, underWay'⟩
      · cases impossible
      · rcases httpdPostFinished_validConnection connection server.post with cleared | kept
        · exact absurd (cleared.symm.trans valid) (Option.some_ne_none other).symm
        · exact sound.network _ _ underWay' (kept.symm.trans valid)

theorem ConfigSound.step (lawful : lib.Lawful) (sound : ConfigSound server)
    (fresh : FreshBegin server event) (step : Step lib server event server') :
    ConfigSound server' := by
  cases step with
  | @taken connection uri responseUriLen stored post idle begins =>
      have unset := fresh responseUriLen (by rw [begins])
      obtain rfl := taken_eq begins
      intro other pieces underWay valid
      rcases update_cases underWay with ⟨rfl, -⟩ | ⟨-, underWay⟩
      · exact absurd valid unset
      · exact sound _ _ underWay valid
  | @refused connection uri responseUriLen stored post idle begins =>
      obtain rfl := refused_eq begins
      exact sound
  | @received connection p pieces fuel stack region writes err post underWay short call =>
      have receives := receive_receives lawful short _ _ _ _ call
      intro other pieces' underWay' valid
      rcases update_cases underWay' with ⟨rfl, equal⟩ | ⟨different, underWay'⟩
      · obtain rfl := Option.some.inj equal
        rcases receives.validConfig with kept | ⟨-, config⟩
        · obtain ⟨piece, member, has⟩ := sound _ _ underWay (kept.symm.trans valid)
          exact ⟨piece, List.mem_append_left _ member, has⟩
        · exact ⟨p, List.mem_append_right _ List.mem_cons_self, config⟩
      · rcases receives.validConfig with kept | ⟨set, -⟩
        · exact sound _ _ underWay' (kept.symm.trans valid)
        · exact absurd (Option.some.inj (valid.symm.trans set)) different
  | @finished connection pieces underWay =>
      intro other pieces' underWay' valid
      rw [httpdPostFinished_validConfig] at valid
      rcases update_cases underWay' with ⟨-, impossible⟩ | ⟨-, underWay'⟩
      · cases impossible
      · exact sound _ _ underWay' valid

theorem Run.sound {meets : Server → Event → Prop} (lawful : lib.Lawful)
    (run : Run lib meets server) : Sound server := by
  induction run with
  | start started =>
      refine ⟨started.validJson, fun connection pieces underWay => ?_⟩
      rw [started.forms connection] at underWay
      cases underWay
  | step _ _ step ih => exact ih.step lawful step

theorem Run.configSound (lawful : lib.Lawful) (run : Run lib FreshBegin server) :
    ConfigSound server := by
  induction run with
  | start started =>
      intro connection pieces underWay
      rw [started.forms connection] at underWay
      cases underWay
  | step _ fresh step ih => exact ih.step lawful fresh step

/-! ## Whose success is answered -/

theorem snprintf_prefix (size : Nat) (text : List Byte) : snprintf size text <+: text :=
  List.take_prefix _ _

/-- A page is the one that is printed. -/
theorem page_ne {size : Nat} {text page : List Byte} (different : ¬page <+: text) :
    snprintf size text ≠ page :=
  fun equal => different (equal ▸ snprintf_prefix size text)

theorem Sound.ownNetwork (sound : Sound server) : OwnNetwork server := by
  intro connection pieces responseUriLen underWay answer
  by_cases valid : server.post.validConnection = some connection
  · exact sound.network connection pieces underWay valid
  · exfalso
    rcases answer with changed | page
    · simp only [httpdPostFinished, if_neg valid] at changed
      split at changed
      · cases changed
      · cases changed
    · have default := @page_ne responseUriLen (chars "/page2.shtml") (chars "/index.shtml")
        (by decide)
      rw [httpdPostFinishedUri] at page
      split at page
      · next current =>
          rw [sound.validJson, current, if_neg (Option.some_ne_none connection)] at page
          split at page
          · exact page_ne (by decide) page
          · exact default page
      · exact default page

theorem ConfigSound.ownConfig (sound : ConfigSound server) : OwnConfig server := by
  intro connection pieces responseUriLen underWay page
  have default := @page_ne responseUriLen (chars "/page2.shtml") (chars "/config.shtml") (by decide)
  have index := @page_ne responseUriLen (chars "/index.shtml") (chars "/config.shtml") (by decide)
  rw [httpdPostFinishedUri] at page
  split at page
  · next current =>
      split at page
      · exact absurd page index
      · split at page
        · exact absurd page index
        · split at page
          · next config => exact sound connection pieces underWay (config.symm.trans current)
          · exact absurd page default
  · exact absurd page default

/-- A form that is taken on the connection that `valid_config` points to is answered like one that
has a name. -/
theorem not_ownConfig {uri : List Byte} {responseUriLen : Nat}
    {stored : Option (List Byte × Nat)} {post : PostState} (sound : Sound server)
    (begins : httpdPostBegin connection uri responseUriLen server.post = (.ok, stored, post))
    (used : server.post.validConfig = some connection) :
    ¬OwnConfig
      { server with post, forms := Function.update server.forms connection (some []) } := by
  intro own
  obtain rfl := taken_eq begins
  have page : httpdPostFinishedUri connection 64
      { server.post with currentConnection := some connection, validConnection := none } =
      chars "/config.shtml" := by
    rw [httpdPostFinishedUri]
    simp only [if_true, sound.validJson, used, reduceCtorEq, if_false]
    decide
  obtain ⟨piece, member, -⟩ := own connection [] 64 (Function.update_self _ _ _) page
  cases member

end Runs

/-- For every run of begins, pieces and ends on any number of connections: the index page and
`config_changed` answer a network of the form's own.  In every run in which no form is taken on the
connection that `valid_config` points to, the configuration page answers a name of the form's own
too; where one is taken it does not. -/
theorem own_success {lib : PbufLib} (lawful : lib.Lawful) :
    (∀ server, Run lib AnyCall server → OwnNetwork server) ∧
    (∀ server, Run lib FreshBegin server → OwnSuccess server) ∧
    ∀ server, Run lib AnyCall server → ∀ connection uri responseUriLen stored post,
      httpdPostBegin connection uri responseUriLen server.post = (.ok, stored, post) →
      server.post.validConfig = some connection →
      ¬OwnSuccess
        { server with post, forms := Function.update server.forms connection (some []) } := by
  refine ⟨fun server run => (run.sound lawful).ownNetwork, fun server run => ?_, ?_⟩
  · exact ⟨(run.sound lawful).ownNetwork, (run.configSound lawful).ownConfig⟩
  · intro server run connection uri responseUriLen stored post begins used own
    exact not_ownConfig (run.sound lawful) begins used own.2

theorem own_success_onePbuf :
    (∀ server, Run onePbuf AnyCall server → OwnNetwork server) ∧
    (∀ server, Run onePbuf FreshBegin server → OwnSuccess server) ∧
    ∀ server, Run onePbuf AnyCall server → ∀ connection uri responseUriLen stored post,
      httpdPostBegin connection uri responseUriLen server.post = (.ok, stored, post) →
      server.post.validConfig = some connection →
      ¬OwnSuccess
        { server with post, forms := Function.update server.forms connection (some []) } :=
  own_success onePbuf_lawful

/-! ## A connection that is used again -/

/-- A server with room in its flash. -/
def roomyServer : Server where
  post := { startState 1 0 0 with currentConnection := none }
  flash := ringImage quadRing otherCells
  forms _ := none

theorem roomyServer_started : roomyServer.Started := ⟨rfl, rfl, rfl, rfl, fun _ => rfl⟩

/-- The variables when the form is taken. -/
def takenPost : PostState := startState 1 0 0

theorem roomyServer_taken : httpdPostBegin 1 (chars "/config") 64 roomyServer.post =
    (.ok, some (chars "/page2.shtml", 1), takenPost) := rfl

/-- A form with the name `a`. -/
def shortName : Form := .config (chars "a")

theorem shortName_plain : shortName.Plain := by
  intro value member
  rw [List.mem_singleton.mp member]
  decide

theorem shortName_config : HasConfig shortName.body := by
  constructor
  · exact not_network (by decide)
  · exact ⟨(0, chars "a"), by decide, by decide⟩

/-- The form with the name is stored and sets `valid_config`. -/
theorem shortName_stored : ∃ fuel writes post,
    (httpdPostReceiveData onePbuf fuel zeroStack 1 shortName.body takenPost).Exec
      quadRing.extended roomyServer.flash writes (.ok, post) ∧
    post.currentConnection = some 1 ∧ post.validConfig = some 1 := by
  have short : shortName.body.length < 0x10000 := by decide
  have opens : Opens quadRing persistentTable (persistentLen / flashSectorSize) :=
    ⟨by decide, by decide⟩
  have blank : Blank takenPost := ⟨fun _ _ => rfl, fun _ _ => rfl, fun _ _ => rfl⟩
  obtain ⟨writes, post, -, -, -, -, ⟨bound, completes⟩, -⟩ := @receive_stores onePbuf zeroStack 1
    takenPost shortName _ _ _ _ onePbuf_lawful shortName_plain short (by decide) rfl blank
    other_oneSectorUsed otherSector_roomy opens
  have exec := completes bound (Nat.le_refl _)
  exact ⟨bound, writes, post, exec, receive_current bound _ _ _ _ _ _ exec,
    receive_name onePbuf_lawful short shortName_config rfl _ _ _ _ exec⟩

/-- A form with an accepted name, and the connection used again: the next form is answered like it
before anything of it has come. -/
theorem success_borrowed : ¬∀ server, Run onePbuf AnyCall server → OwnSuccess server := by
  intro own
  obtain ⟨fuel, writes, post, call, current, config⟩ := shortName_stored
  have first : Run onePbuf AnyCall { roomyServer with
      post := takenPost, forms := Function.update roomyServer.forms 1 (some []) } :=
    .step (.start roomyServer_started) trivial (.taken rfl roomyServer_taken)
  have second := first.step trivial
    (.received (Function.update_self _ _ _) (by decide : shortName.body.length < 0x10000) call)
  have third := second.step trivial (.finished (Function.update_self _ _ _))
  have used : (httpdPostFinished 1 post).validConfig = some 1 := by
    rw [httpdPostFinished_validConfig, config]
  have free : (httpdPostFinished 1 post).currentConnection ≠ some 1 := by
    rw [httpdPostFinished, if_pos current]
    exact (Option.some_ne_none 1).symm
  have begins := @begin_taken 1 (httpdPostFinished 1 post) (chars "/config") (chars "config") 64
    (by decide) (by decide) free
  have fourth := third.step trivial (.taken (Function.update_self _ _ _) begins)
  exact not_ownConfig (third.sound onePbuf_lawful) begins used (own _ fourth).2

end PicoApConfigure.Post
