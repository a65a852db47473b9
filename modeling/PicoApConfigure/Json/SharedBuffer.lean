import PicoApConfigure.Json.Device

/-!
# Messages are not mixed up

Invariant of a device on which the buffer is used by one activity at a time: what the server
has received of a request and what the client has received of a reply stand at the start of
the buffer until the message is complete.
-/

namespace PicoApConfigure.Json

open Nor Tcp

section SharedBuffer

variable {Json : Type} (lib : CJson Json)

/-! ## Callbacks that leave the reassembly alone -/

@[simp] theorem acceptedBytes_nil : acceptedBytes [] = 0 := rfl

/-- A callback of the client that keeps its counters and the buffer, hands at most `bound`
bytes to the stack, and sets the status to `ERR_MEM` only if it `writes`. -/
structure Passive (client : TcpClientT) (shared : Shared Json)
    (outcome : Outcome (Option TcpClientT) Json) (bound : Nat) (writes : Prop) : Prop where
  shared : outcome.shared = shared
  counters : ∀ after, outcome.state = some after → after.count = client.count ∧
    after.recvLen = client.recvLen ∧ after.sentLen = client.sentLen
  accepted : ∀ after, outcome.state = some after → acceptedBytes outcome.calls ≤ bound
  status : ∀ after, outcome.state = some after → after.status = .mem →
    client.status = .mem ∨ writes

theorem Passive.gone {client : TcpClientT} {shared : Shared Json}
    {outcome : Outcome (Option TcpClientT) Json} {bound : Nat} {writes : Prop}
    (same : outcome.shared = shared) (gone : outcome.state = none) :
    Passive client shared outcome bound writes where
  shared := same
  counters := by
    rw [gone]
    exact (fun _ impossible => by cases impossible)
  accepted := by
    rw [gone]
    exact (fun _ impossible => by cases impossible)
  status := by
    rw [gone]
    exact (fun _ impossible => by cases impossible)

theorem Passive.kept {client after : TcpClientT} {shared : Shared Json}
    {outcome : Outcome (Option TcpClientT) Json} {bound : Nat} {writes : Prop}
    (same : outcome.shared = shared) (state : outcome.state = some after)
    (counters : after.count = client.count ∧ after.recvLen = client.recvLen ∧
      after.sentLen = client.sentLen)
    (accepted : acceptedBytes outcome.calls ≤ bound)
    (status : after.status = .mem → client.status = .mem ∨ writes) :
    Passive client shared outcome bound writes where
  shared := same
  counters := by
    rw [state]
    rintro _ ⟨⟩
    exact counters
  accepted := by
    rw [state]
    rintro _ ⟨⟩
    exact accepted
  status := by
    rw [state]
    rintro _ ⟨⟩
    exact status

theorem Passive.stay (client : TcpClientT) (shared : Shared Json) (bound : Nat)
    (writes : Prop) : Passive client shared (Outcome.stay client shared) bound writes :=
  .kept rfl rfl ⟨rfl, rfl, rfl⟩ (Nat.zero_le _) .inl

theorem dnsFound_passive (replies : Replies) (arg : Nat) (resolved : Bool)
    (client : TcpClientT) (shared : Shared Json) :
    Passive client shared (dnsFound replies arg resolved client shared) 0 False := by
  rw [dnsFound]
  split
  · rw [clientRequestCommon]
    split
    · exact .kept rfl rfl ⟨rfl, rfl, rfl⟩ (Nat.le_refl 0) .inl
    · exact .kept rfl rfl ⟨rfl, rfl, rfl⟩ (Nat.le_refl 0) .inl
  · exact .gone rfl rfl

theorem uint16_le (value : Nat) : uint16 value ≤ value := by
  rw [uint16]
  omega

theorem tcpClientJsonSending_passive (replies : Replies) (pcb : Pcb) (client : TcpClientT)
    (shared : Shared Json) :
    Passive client shared (tcpClientJsonSending replies pcb client shared)
      (sizeField shared.buffer) True := by
  have most : ∀ reply, acceptedBytes [.write (some pcb)
      (slice shared.buffer 0 (uint16 (sizeField shared.buffer))) reply] ≤
        sizeField shared.buffer := by
    intro reply
    cases reply with
    | ok => simpa [acceptedBytes] using uint16_le (sizeField shared.buffer)
    | _ => exact Nat.zero_le _
  rw [tcpClientJsonSending]
  split
  · dsimp only
    split
    · exact .kept rfl rfl ⟨rfl, rfl, rfl⟩ (most _) .inl
    split
    · exact .kept rfl rfl ⟨rfl, rfl, rfl⟩ (most _) (fun _ => .inr trivial)
    · exact .gone rfl rfl
  · exact .stay client shared _ True

/-- A retry; a poll on a block whose status is clear does nothing. -/
theorem tcpJsonPoll_passive (replies : Replies) (pcb : Pcb) (client : TcpClientT)
    (shared : Shared Json) :
    Passive client shared (tcpJsonPoll replies pcb client shared)
      (if client.status = .mem then sizeField shared.buffer else 0)
      (client.status = .mem) := by
  rw [tcpJsonPoll]
  split
  · rename_i low
    obtain ⟨same, counters, accepted, _⟩ :=
      tcpClientJsonSending_passive replies pcb client shared
    exact ⟨same, counters, accepted, fun _ _ _ => .inl low⟩
  · exact .stay client shared 0 _

theorem tcpClientErr_passive (replies : Replies) (err : ErrT) (client : TcpClientT)
    (shared : Shared Json) :
    Passive client shared (tcpClientErr replies err client shared) 0 False := by
  rw [tcpClientErr]
  split
  · exact .gone rfl rfl
  · exact .stay client shared 0 False

/-- A client that was just opened has sent and received nothing. -/
theorem tcpClientJsonInitOpen_silent (replies : Replies) (arg : Nat) (shared : Shared Json)
    {client : TcpClientT}
    (opened : (tcpClientJsonInitOpen replies arg shared).state = some client) :
    (client.status = .ok ∧ client.count = 0 ∧ client.recvLen = 0 ∧ client.sentLen = 0) ∧
      acceptedBytes (tcpClientJsonInitOpen replies arg shared).calls = 0 := by
  rw [tcpClientJsonInitOpen, tcpClientOpen] at opened ⊢
  split at opened
  · rename_i immediate
    rw [if_pos immediate]
    rw [clientRequestCommon] at opened ⊢
    split at opened
    · cases opened
      exact ⟨⟨rfl, rfl, rfl, rfl⟩, rfl⟩
    · cases opened
      exact ⟨⟨rfl, rfl, rfl, rfl⟩, rfl⟩
  split at opened
  · cases opened
  · rename_i later pending
    rw [if_neg later, if_neg pending]
    cases opened
    exact ⟨⟨rfl, rfl, rfl, rfl⟩, rfl⟩

/-! ## The server between requests -/

/-- A callback of the server that keeps its receive state and the shared data. -/
def Resting (client : ServerPerClient) (shared : Shared Json)
    (outcome : Outcome ServerPerClient Json) : Prop :=
  KeepsReceive client outcome.state ∧ outcome.shared = shared

theorem tcpServerPoll_resting (replies : Replies) (client : ServerPerClient)
    (shared : Shared Json) : Resting client shared (tcpServerPoll replies client shared) := by
  rw [tcpServerPoll]
  split
  · exact ⟨tcpServerJsonSend_keepsReceive replies _ client shared,
      tcpServerJsonSend_shared replies _ client shared⟩
  · exact ⟨⟨rfl, rfl, rfl⟩, rfl⟩

theorem tcpServerResult_resting (replies : Replies) (client : ServerPerClient)
    (shared : Shared Json) : Resting client shared (tcpServerResult replies client shared) :=
  ⟨tcpServerResult_keepsReceive replies client shared,
    tcpServerResult_shared replies client shared⟩

theorem tcpServerErr_resting (replies : Replies) (err : ErrT) (client : ServerPerClient)
    (shared : Shared Json) : Resting client shared (tcpServerErr replies err client shared) := by
  rw [tcpServerErr]
  split
  · exact tcpServerResult_resting replies client shared
  · exact ⟨⟨rfl, rfl, rfl⟩, rfl⟩

theorem Assembling.keeps {message : Message} {received : List Byte}
    {client after : ServerPerClient} {shared final : Shared Json}
    (assembling : Assembling message received client shared) (keeps : KeepsReceive client after)
    (buffer : received ≠ [] → final.buffer = shared.buffer) :
    Assembling message received after final := by
  obtain ⟨flag, size, len⟩ := keeps
  refine ⟨len.trans assembling.recvLen, flag.trans assembling.recvFlag,
    size.trans assembling.recvSize, ?_⟩
  by_cases empty : received = []
  · rw [empty]
    exact holds_nil _ _
  · rw [buffer empty]
    exact assembling.holds

/-! ## The invariant -/

/-- The server of a device and what it has received of the current request. -/
def Device.ServerInv (device : Device Json) : Prop :=
  ∀ request received, device.request = some (request, received) →
    received <+: request.bytes ∧ received.length < request.size ∧
      Assembling request.toMessage received device.server device.shared

/-- The stages of a client: it has written nothing, its message is not acknowledged, or it
waits for its reply. -/
inductive ClientStage (device : Device Json) (client : TcpClientT) : Prop where
  | silent (status : client.status = .mem → device.linked = true) (count : client.count = 0)
      (recvLen : client.recvLen = 0) (sentLen : client.sentLen = 0)
      (unacked : device.unacked = 0) (unanswered : device.reply = none)
  | writing (linked : device.linked = true) (count : client.count = 0)
      (recvLen : client.recvLen = 0) (some : 0 < client.sentLen + device.unacked)
      (rest : client.sentLen + device.unacked ≤ sizeField device.shared.buffer)
      (unanswered : device.reply = none)
  | waiting (linked : device.linked = true) (count : 0 < client.count)
      (unacked : device.unacked = 0) (apart : ¬ device.MidRequest)
      (unanswered : device.reply = none → Awaiting [] client device.shared)
      (answered : ∀ reply received, device.reply = some (reply, received) →
        received <+: reply.bytes ∧ received.length < reply.size ∧
          Awaiting received client device.shared)

/-- The invariant of a device. -/
structure Device.Inv (device : Device Json) : Prop where
  server : device.ServerInv
  client : ∀ client, device.client = some client → ClientStage device client
  idle : device.client = none → device.unacked = 0 ∧ device.reply = none
  intact : ∀ parsed ∈ device.parses, parsed.Intact

namespace Device

theorem started_inv (shared : Shared Json) : (started shared).Inv where
  server := (fun _ _ impossible => by cases impossible)
  client := (fun _ impossible => by cases impossible)
  idle := fun _ => ⟨rfl, rfl⟩
  intact := (fun _ impossible => by cases impossible)

/-! ### The client -/

/-- What the client does next leaves the server's message alone. -/
theorem ServerInv.of_shared {device after : Device Json} (inv : device.ServerInv)
    (server : after.server = device.server) (request : after.request = device.request)
    (buffer : device.MidRequest → after.shared.buffer = device.shared.buffer) :
    after.ServerInv := by
  intro message received found
  rw [request] at found
  obtain ⟨prefixed, pending, assembling⟩ := inv message received found
  refine ⟨prefixed, pending, ?_⟩
  rw [server]
  exact assembling.keeps ⟨rfl, rfl, rfl⟩ fun some => buffer ⟨message, received, found, some⟩

/-- A passive callback of the client. -/
theorem Inv.passive {device : Device Json} {client : TcpClientT}
    {outcome : Outcome (Option TcpClientT) Json} {bound : Nat} {writes : Prop}
    (inv : device.Inv) (found : device.client = some client)
    (passive : Passive client device.shared outcome bound writes)
    (linked : writes → device.linked = true)
    (small : bound = 0 ∨ bound ≤ sizeField device.shared.buffer ∧ device.linked = true ∧
      client.count = 0 ∧ client.sentLen = 0 ∧ device.unacked = 0) :
    (device.clientCall outcome).Inv := by
  have stage := inv.client client found
  rw [clientCall]
  cases state : outcome.state with
  | none =>
      refine ⟨?_, (fun _ impossible => by cases impossible), fun _ => ⟨rfl, rfl⟩, inv.intact⟩
      exact inv.server.of_shared rfl rfl fun _ => by rw [passive.shared]
  | some after =>
      obtain ⟨count, recvLen, sentLen⟩ := passive.counters after state
      have accepted := passive.accepted after state
      have status := passive.status after state
      refine ⟨?_, ?_, (fun impossible => by cases impossible), inv.intact⟩
      · exact inv.server.of_shared rfl rfl fun _ => by rw [passive.shared]
      · rintro _ ⟨⟩
        cases stage with
        | silent low zero recv sent unacked unanswered =>
            by_cases wrote : acceptedBytes outcome.calls = 0
            · refine .silent ?_ (count.trans zero) (recvLen.trans recv) (sentLen.trans sent) ?_
                unanswered
              · exact fun mem => (status mem).elim low linked
              · dsimp only
                rw [unacked, wrote]
            · obtain none | ⟨most, linked, _, _, _⟩ := small
              · omega
              refine .writing linked (count.trans zero) (recvLen.trans recv) ?_ ?_ unanswered
              · dsimp only
                omega
              · dsimp only
                rw [passive.shared, sentLen, sent, unacked]
                omega
        | writing linked zero recv some rest unanswered =>
            have nothing : acceptedBytes outcome.calls = 0 := by
              obtain none | ⟨_, _, _, unsent, unacked⟩ := small
              · omega
              · omega
            refine .writing linked (count.trans zero) (recvLen.trans recv) ?_ ?_ unanswered
            · dsimp only
              omega
            · dsimp only
              rw [passive.shared, sentLen, nothing]
              exact rest
        | waiting linked positive unacked apart unanswered answered =>
            have nothing : acceptedBytes outcome.calls = 0 := by
              obtain none | ⟨_, _, zero, _, _⟩ := small
              · omega
              · omega
            have same : ∀ received, Awaiting received client device.shared →
                Awaiting received after outcome.shared := by
              intro received awaiting
              rw [passive.shared]
              exact ⟨recvLen.trans awaiting.recvLen, awaiting.holds, awaiting.rest⟩
            refine .waiting linked (count ▸ positive) ?_ apart
              (fun none => same _ (unanswered none))
              fun reply received found => ?_
            · dsimp only
              rw [unacked, nothing]
            · obtain ⟨prefixed, pending, awaiting⟩ := answered reply received found
              exact ⟨prefixed, pending, same _ awaiting⟩

theorem Inv.onClient {device : Device Json}
    {callback : TcpClientT → Shared Json → Outcome (Option TcpClientT) Json} (inv : device.Inv)
    (next : ∀ client, device.client = some client →
      (device.clientCall (callback client device.shared)).Inv) :
    (device.onClient callback).Inv := by
  rw [Device.onClient]
  cases found : device.client with
  | none => exact inv
  | some client => exact next client found

/-- The connected callback comes while the client is silent. -/
theorem Inv.link {device : Device Json} (inv : device.Inv) (unlinked : device.linked = false) :
    Inv { device with linked := true } ∧ ∀ client, device.client = some client →
      client.count = 0 ∧ client.sentLen = 0 ∧ device.unacked = 0 := by
  refine ⟨⟨inv.server, fun client found => ?_, inv.idle, inv.intact⟩, fun client found => ?_⟩
  · cases inv.client client found with
    | silent _ count recvLen sentLen unacked unanswered =>
        exact .silent (fun _ => rfl) count recvLen sentLen unacked unanswered
    | writing linked => rw [unlinked] at linked; cases linked
    | waiting linked => rw [unlinked] at linked; cases linked
  · cases inv.client client found with
    | silent _ count _ sentLen unacked _ => exact ⟨count, sentLen, unacked⟩
    | writing linked => rw [unlinked] at linked; cases linked
    | waiting linked => rw [unlinked] at linked; cases linked

theorem Inv.connected {device : Device Json} (pcb : Pcb) (err : ErrT) (replies : Replies)
    (inv : device.Inv) (unlinked : device.linked = false) :
    (device.step lib (.connected pcb err replies)).Inv := by
  obtain ⟨linked, silent⟩ := inv.link unlinked
  refine linked.onClient fun client found => ?_
  obtain ⟨count, sentLen, unacked⟩ := silent client found
  rw [jsonClientConnected]
  split
  · have gone : Passive client device.shared (tcpClientResult replies client device.shared) 0
        False := .gone rfl rfl
    exact linked.passive found gone False.elim (.inl rfl)
  · have stage := inv.client client found
    have zeroed : ({ client with recvLen := 0, sentLen := 0 } : TcpClientT) = client := by
      cases stage with
      | silent _ _ recvLen sentLen _ _ =>
          obtain ⟨_, _, _, _, _, _⟩ := client
          dsimp only at recvLen sentLen
          rw [recvLen, sentLen]
      | writing linked => rw [unlinked] at linked; cases linked
      | waiting linked => rw [unlinked] at linked; cases linked
    rw [zeroed]
    exact linked.passive found (tcpClientJsonSending_passive replies pcb client device.shared)
      (fun _ => rfl) (.inr ⟨Nat.le_refl _, rfl, count, sentLen, unacked⟩)

theorem Inv.clientPoll {device : Device Json} (pcb : Pcb) (replies : Replies)
    (inv : device.Inv)
    (alone : ∀ client, device.client = some client → client.status = .mem →
      client.count = 0 ∧ client.sentLen = 0 ∧ device.unacked = 0) :
    (device.step lib (.clientPoll pcb replies)).Inv := by
  refine inv.onClient fun client found => ?_
  have poll := tcpJsonPoll_passive replies pcb client device.shared
  have linked : client.status = .mem → device.linked = true := by
    cases inv.client client found with
    | silent low => exact low
    | writing linked => exact fun _ => linked
    | waiting linked => exact fun _ => linked
  refine inv.passive found poll linked ?_
  by_cases low : client.status = .mem
  · obtain ⟨count, sentLen, unacked⟩ := alone client found low
    rw [if_pos low]
    exact .inr ⟨Nat.le_refl _, linked low, count, sentLen, unacked⟩
  · exact .inl (if_neg low)

/-- An acknowledgement. -/
theorem Inv.sent {device : Device Json} {len : Nat} (inv : device.Inv)
    (enabled : device.Enabled (.sent len)) (alone : device.Alone (.sent len)) :
    (device.step lib (.sent len)).Inv := by
  obtain ⟨some, positive, most⟩ := enabled
  rw [step, Device.onClient]
  cases found : device.client with
  | none => exact absurd found some
  | some client =>
      dsimp only
      cases inv.client client found with
      | silent _ _ _ _ unacked _ => omega
      | waiting _ _ unacked _ _ _ => omega
      | writing linked count recvLen _ rest unanswered =>
          by_cases full : sizeField device.shared.buffer ≤ client.sentLen + len
          · have apart := alone client found full
            simp only [tcpClientJsonSent, if_pos full, clientCall, Outcome.stay]
            refine ⟨?_, ?_, (fun impossible => by cases impossible), inv.intact⟩
            · exact inv.server.of_shared rfl rfl fun mid => absurd mid apart
            · rintro _ ⟨⟩
              have start := awaiting_start
                { client with count := client.count + 1, recvLen := 0, sentLen := 0 }
                device.shared.buffer device.shared.mirror rfl
              refine .waiting linked (Nat.succ_pos _) ?_ apart (fun _ => start) ?_
              · simp only [acceptedBytes_nil]
                omega
              · intro reply received answered
                dsimp only at answered
                rw [unanswered] at answered
                cases answered
          · simp only [tcpClientJsonSent, if_neg full, clientCall, Outcome.stay]
            refine ⟨inv.server, ?_, (fun impossible => by cases impossible), inv.intact⟩
            rintro _ ⟨⟩
            refine .writing linked count recvLen ?_ ?_ unanswered
            · change 0 < client.sentLen + len + (device.unacked - len + 0)
              omega
            · change client.sentLen + len + (device.unacked - len + 0) ≤
                sizeField device.shared.buffer
              omega

/-- The text of a message that stands in the buffer. -/
theorem parsed_intact {buffer : Memory} {message : Message}
    (holds : Holds buffer 0 message.bytes) :
    Parsed.Intact ⟨textOf buffer, message.size, message.text⟩ := by
  rw [Parsed.Intact, Message.size, Nat.add_sub_cancel_left]
  exact holds_textOf holds

theorem Inv.parsing {device : Device Json} {parses : List Parsed} (inv : device.Inv)
    (intact : ∀ parsed ∈ parses, parsed.Intact) :
    ∀ parsed ∈ device.parses ++ parses, parsed.Intact := by
  intro parsed member
  rcases List.mem_append.mp member with before | now
  · exact inv.intact parsed before
  · exact intact parsed now

/-- A chunk of a reply. -/
theorem Inv.reply {device : Device Json} {pcb : Pcb} {chunk : List Byte} {replies : Replies}
    (inv : device.Inv) (enabled : device.Enabled (.reply pcb chunk replies)) :
    (device.step lib (.reply pcb chunk replies)).Inv := by
  obtain ⟨some, ⟨client, found, positive⟩, message, received, current, prefixed⟩ := enabled
  cases inv.client client found with
  | silent _ zero => omega
  | writing _ zero => omega
  | waiting linked _ unacked apart _ answered =>
      obtain ⟨_, _, awaiting⟩ := answered message received current
      obtain ⟨stored, next⟩ := awaiting.store some prefixed pcb
      have total := prefixed.length_le
      rw [Message.bytes_length] at total
      simp only [step, receiveReply, found, current]
      by_cases pending : (received ++ chunk).length < message.size
      · obtain ⟨recv, silent⟩ := awaiting.recv_pending lib some prefixed pending replies pcb
        have unparsed : device.clientParses lib client pcb chunk message = [] := by
          simp only [repliedBuffer, stored, ite_eq_right_iff] at silent
          simp only [clientParses, stored]
          exact if_neg fun all => absurd (silent all.1) (Option.some_ne_none _)
        rw [recv, unparsed, List.append_nil]
        refine ⟨?_, ?_, (fun impossible => by cases impossible), inv.intact⟩
        · exact inv.server.of_shared rfl rfl fun mid => absurd mid apart
        · rintro _ ⟨⟩
          refine .waiting linked positive unacked apart (fun impossible => by cases impossible) ?_
          rintro _ _ ⟨⟩
          exact ⟨prefixed, pending, next⟩
      · have complete : received ++ chunk = message.bytes :=
          prefixed.eq_of_length (by
            rw [Message.bytes_length]
            omega)
        obtain ⟨recv, _, holds⟩ := awaiting.recv_complete lib some complete replies pcb
        have size : sizeField (Nor.store device.shared.buffer received.length chunk) =
            message.size :=
          (Message.fields (List.prefix_refl _) (by
            rw [Message.bytes_length]
            exact message.headerSize_le_size) holds).1
        rw [recv]
        refine ⟨?_, (fun _ impossible => by cases impossible), fun _ => ⟨rfl, rfl⟩, ?_⟩
        · exact inv.server.of_shared rfl rfl fun mid => absurd mid apart
        · refine inv.parsing ?_
          simp only [clientParses, stored, size]
          split
          · intro parsed member
            rw [List.mem_singleton.mp member]
            exact parsed_intact holds
          · exact (fun _ impossible => by cases impossible)

/-! ### The opening and the end of a client -/

theorem Inv.opened {device : Device Json} {arg : Nat} {replies : Replies} (inv : device.Inv)
    (enabled : device.Enabled (.opened arg replies)) (apart : ¬ device.MidRequest) :
    (device.step lib (.opened arg replies)).Inv := by
  have none : device.client = none := enabled
  obtain ⟨unacked, unanswered⟩ := inv.idle none
  have server : ∀ after : Device Json, after.server = device.server →
      after.request = device.request → after.ServerInv := fun after same request =>
    inv.server.of_shared same request fun mid => absurd mid apart
  rw [step]
  dsimp only
  split
  · rw [clientCall]
    split
    · exact ⟨server _ rfl rfl, (fun _ impossible => by cases impossible), fun _ => ⟨rfl, rfl⟩,
        inv.intact⟩
    · rename_i client opened
      obtain ⟨silent, accepted⟩ := tcpClientJsonInitOpen_silent replies arg
        (jsonPrepGetCounterValue lib device.shared).2 opened
      refine ⟨server _ rfl rfl, ?_, (fun impossible => by cases impossible), inv.intact⟩
      rintro _ ⟨⟩
      refine .silent (fun low => ?_) silent.2.1 silent.2.2.1 silent.2.2.2 ?_ unanswered
      · rw [silent.1] at low
        cases low
      · dsimp only
        rw [unacked, accepted]
  · refine ⟨server _ rfl rfl, ?_, inv.idle, inv.intact⟩
    rw [none]
    exact (fun _ impossible => by cases impossible)

theorem Inv.found {device : Device Json} (arg : Nat) (resolved : Bool) (replies : Replies)
    (inv : device.Inv) : (device.step lib (.found arg resolved replies)).Inv :=
  inv.onClient fun client found =>
    inv.passive found (dnsFound_passive replies arg resolved client device.shared) False.elim
      (.inl rfl)

theorem Inv.clientClosed {device : Device Json} (pcb : Pcb) (replies : Replies)
    (inv : device.Inv) : (device.step lib (.clientClosed pcb replies)).Inv :=
  inv.onClient fun client found =>
    have gone : Passive client device.shared
        (tcpClientJsonRecv lib replies pcb none client device.shared) 0 False := .gone rfl rfl
    inv.passive found gone False.elim (.inl rfl)

theorem Inv.clientError {device : Device Json} (err : ErrT) (replies : Replies)
    (inv : device.Inv) : (device.step lib (.clientError err replies)).Inv :=
  inv.onClient fun client found =>
    inv.passive found (tcpClientErr_passive replies err client device.shared) False.elim
      (.inl rfl)

/-- The peer has an answer for the client. -/
theorem Inv.answered {device : Device Json} {message : Message} (inv : device.Inv)
    (enabled : device.Enabled (.answered message)) :
    (device.step lib (.answered message)).Inv := by
  obtain ⟨⟨client, found, positive⟩, unanswered⟩ := enabled
  refine ⟨inv.server, fun other same => ?_, fun none => ?_, inv.intact⟩
  · obtain rfl : client = other := Option.some.inj (found.symm.trans same)
    cases inv.client client found with
    | silent _ zero => omega
    | writing _ zero => omega
    | waiting linked _ unacked apart start _ =>
        refine .waiting linked positive unacked apart (fun impossible => by cases impossible) ?_
        rintro _ _ ⟨⟩
        exact ⟨List.nil_prefix, Nat.lt_of_lt_of_le (by decide) message.headerSize_le_size,
          start unanswered⟩
  · exact absurd (found.symm.trans none) (Option.some_ne_none _)

/-! ### The server -/

/-- A client that has written nothing does not depend on the buffer. -/
theorem silent_of_not_relies {device : Device Json} {client : TcpClientT}
    (stage : ClientStage device client) (found : device.client = some client)
    (idle : ¬ device.ClientRelies) :
    ∀ {after : Device Json}, after.linked = device.linked → after.unacked = device.unacked →
      after.reply = device.reply → ClientStage after client := by
  intro after linked unacked reply
  cases stage with
  | silent low zero recv sent none unanswered =>
      exact .silent (fun mem => linked.trans (low mem)) zero recv sent (unacked.trans none)
        (reply.trans unanswered)
  | writing _ _ _ some _ _ =>
      refine absurd ⟨client, found, .inr ?_⟩ idle
      omega
  | waiting _ positive => exact absurd ⟨client, found, .inl positive⟩ idle

/-- A callback of the server that leaves the buffer alone. -/
theorem Inv.of_server {device after : Device Json} (inv : device.Inv)
    (same : after.client = device.client ∧ after.linked = device.linked ∧
      after.unacked = device.unacked ∧ after.reply = device.reply ∧
      after.parses = device.parses)
    (buffer : after.shared.buffer = device.shared.buffer)
    (mid : after.MidRequest → device.MidRequest) (server : after.ServerInv) : after.Inv := by
  obtain ⟨client, linked, unacked, reply, parses⟩ := same
  have awaiting : ∀ received block, Awaiting received block device.shared →
      Awaiting received block after.shared := fun received block before =>
    ⟨before.recvLen, buffer ▸ before.holds, buffer ▸ before.rest⟩
  refine ⟨server, fun block found => ?_, ?_, ?_⟩
  · cases inv.client block (client ▸ found) with
    | silent low zero recv sent none unanswered =>
        exact .silent (fun mem => linked.trans (low mem)) zero recv sent (unacked.trans none)
          (reply.trans unanswered)
    | writing on zero recv some rest unanswered =>
        refine .writing (linked.trans on) zero recv ?_ ?_ (reply.trans unanswered)
        · rw [unacked]
          exact some
        · rw [unacked, buffer]
          exact rest
    | waiting on positive none apart unanswered answered =>
        refine .waiting (linked.trans on) positive (unacked.trans none)
          (fun busy => apart (mid busy)) (fun missing => ?_) fun message received current => ?_
        · exact awaiting [] block (unanswered (reply ▸ missing))
        · obtain ⟨prefixed, pending, before⟩ := answered message received (reply ▸ current)
          exact ⟨prefixed, pending, awaiting received block before⟩
  · rw [client, unacked, reply]
    exact inv.idle
  · rw [parses]
    exact inv.intact

/-- The server waits; its connection may end. -/
theorem Inv.resting {device : Device Json} {outcome : Outcome ServerPerClient Json}
    (inv : device.Inv) (resting : Resting device.server device.shared outcome) :
    (device.serverCall outcome).Inv := by
  obtain ⟨keeps, shared⟩ := resting
  have request : ∀ message, (device.serverCall outcome).request = some message →
      device.request = some message := by
    intro message found
    rw [serverCall] at found
    dsimp only at found
    split at found
    · cases found
    · exact found
  refine inv.of_server ⟨rfl, rfl, rfl, rfl, rfl⟩ (congrArg Shared.buffer shared) ?_ ?_
  · rintro ⟨message, received, found, some⟩
    exact ⟨message, received, request _ found, some⟩
  · intro message received found
    obtain ⟨prefixed, pending, assembling⟩ := inv.server message received (request _ found)
    exact ⟨prefixed, pending, assembling.keeps keeps fun _ => congrArg Shared.buffer shared⟩

theorem Inv.accept {device : Device Json} (tpcb : Pcb) (request : Request) (inv : device.Inv) :
    (device.step lib (.accept tpcb request)).Inv := by
  refine inv.of_server ⟨rfl, rfl, rfl, rfl, rfl⟩ rfl ?_ ?_
  · rintro ⟨_, _, ⟨⟩, some⟩
    exact absurd rfl some
  · rintro _ _ ⟨⟩
    exact ⟨List.nil_prefix, Nat.lt_of_lt_of_le (by decide) request.headerSize_le_size,
      acceptIn_assembling request.toMessage tpcb device.server device.shared⟩

theorem Inv.serverSent {device : Device Json} (len : Nat) (inv : device.Inv) :
    (device.step lib (.serverSent len)).Inv := by
  refine inv.of_server ⟨rfl, rfl, rfl, rfl, rfl⟩ rfl id ?_
  intro message received found
  obtain ⟨prefixed, pending, assembling⟩ := inv.server message received found
  exact ⟨prefixed, pending, assembling.keeps ⟨rfl, rfl, rfl⟩ fun _ => rfl⟩

/-- A chunk of a request. -/
theorem Inv.chunk {device : Device Json} {tpcb : Pcb} {chunk : List Byte} {replies : Replies}
    (inv : device.Inv) (enabled : device.Enabled (.chunk tpcb chunk replies))
    (idle : ¬ device.ClientRelies) : (device.step lib (.chunk tpcb chunk replies)).Inv := by
  obtain ⟨own, some, request, received, current, prefixed⟩ := enabled
  obtain ⟨_, _, assembling⟩ := inv.server request received current
  obtain ⟨after, stored, kept, next⟩ := assembling.store some prefixed tpcb
  have connected : after.clientPcb ≠ none := by
    rw [kept, own]
    exact Option.some_ne_none _
  have total := prefixed.length_le
  rw [Message.bytes_length] at total
  have longer := request.headerSize_lt_size
  simp only [step, receive, current, tcpServerJsonRecv, true_or, if_true, stored]
  by_cases pending : (received ++ chunk).length < request.size
  · have short : ¬ after.recvSize ≤ after.recvLen := by
      have fits := request.toMessage.size_le
      rw [next.recvSize, next.recvLen]
      split <;> omega
    have unparsed : device.serverParses lib tpcb chunk request = [] := by
      simp only [serverParses, stored]
      exact if_neg fun both => short both.1
    rw [if_pos pending, if_neg short, unparsed, List.append_nil]
    refine ⟨?_, fun block found => silent_of_not_relies (inv.client block found) found idle
      rfl rfl rfl, inv.idle, inv.intact⟩
    intro other bytes found
    simp only [serverCall, if_neg connected, Option.some.injEq, Prod.mk.injEq] at found
    obtain ⟨rfl, rfl⟩ := found
    exact ⟨prefixed, pending, next⟩
  · have complete : received ++ chunk = request.bytes :=
      prefixed.eq_of_length (by
        rw [Message.bytes_length]
        omega)
    rw [complete] at next
    have size : after.recvSize = request.size := by
      rw [next.recvSize, Message.bytes_length, if_pos longer]
    have full : after.recvSize = after.recvLen := by
      rw [size, next.recvLen, Message.bytes_length]
    rw [if_neg pending, if_pos (Int.le_of_eq full)]
    refine ⟨?_, fun block found => silent_of_not_relies (inv.client block found) found idle
      rfl rfl rfl, inv.idle, ?_⟩
    · intro other bytes found
      simp only [serverCall, ite_self] at found
      cases found
    · refine inv.parsing ?_
      simp only [serverParses, stored, size, Int.toNat_natCast]
      split
      · intro parsed member
        rw [List.mem_singleton.mp member]
        exact parsed_intact next.holds
      · exact (fun _ impossible => by cases impossible)

/-! ### The web page and the mirror -/

theorem Inv.ssi {device : Device Json} (iInsertLen : Int) (currentTagPart : Nat)
    (inv : device.Inv)
    (alone : currentTagPart = 0 → ¬ device.ClientRelies ∧ ¬ device.MidRequest) :
    (device.step lib (.ssi iInsertLen currentTagPart)).Inv := by
  by_cases first : currentTagPart = 0
  · obtain ⟨idle, apart⟩ := alone first
    refine ⟨?_, fun block found => ?_, inv.idle, inv.intact⟩
    · exact inv.server.of_shared rfl rfl fun mid => absurd mid apart
    · exact silent_of_not_relies (inv.client block found) found idle rfl rfl rfl
  · rw [step, ssiHandlerJson_later lib iInsertLen device.shared first]
    exact inv

theorem Inv.mirror {device : Device Json} (mirror : Option Json) (inv : device.Inv) :
    (device.step lib (.mirror mirror)).Inv :=
  inv.of_server ⟨rfl, rfl, rfl, rfl, rfl⟩ rfl id
    (inv.server.of_shared rfl rfl fun _ => rfl)

/-! ### Runs -/

/-- Every event that leaves the buffer to the activity that uses it keeps the invariant. -/
theorem Inv.step {device : Device Json} {event : DeviceEvent Json} (inv : device.Inv)
    (enabled : device.Enabled event) (alone : device.Alone event) :
    (device.step lib event).Inv := by
  cases event with
  | accept tpcb request => exact inv.accept lib tpcb request
  | chunk tpcb chunk replies => exact inv.chunk lib enabled alone
  | serverClosed tpcb replies =>
      exact inv.resting (tcpServerResult_resting replies device.server device.shared)
  | serverSent len => exact inv.serverSent lib len
  | serverPoll replies =>
      exact inv.resting (tcpServerPoll_resting replies device.server device.shared)
  | serverError err replies =>
      exact inv.resting (tcpServerErr_resting replies err device.server device.shared)
  | opened arg replies => exact inv.opened lib enabled alone
  | found arg resolved replies => exact inv.found lib arg resolved replies
  | connected pcb err replies => exact inv.connected lib pcb err replies enabled.2
  | sent len => exact inv.sent lib enabled alone
  | answered reply => exact inv.answered lib enabled
  | reply pcb chunk replies => exact inv.reply lib enabled
  | clientClosed pcb replies => exact inv.clientClosed lib pcb replies
  | clientPoll pcb replies => exact inv.clientPoll lib pcb replies alone
  | clientError err replies => exact inv.clientError lib err replies
  | ssi iInsertLen currentTagPart => exact inv.ssi lib iInsertLen currentTagPart alone
  | mirror mirror => exact inv.mirror lib mirror

end Device

theorem Running.inv {device : Device Json} (running : Running lib Device.Alone device) :
    device.Inv := by
  induction running with
  | started shared => exact Device.started_inv shared
  | step _ enabled alone ih => exact ih.step lib enabled alone

/-! ## The texts that are parsed -/

/-- While the buffer is used by one activity at a time, every text that is parsed is the text
the peer of its connection sent. -/
theorem parsed_texts_intact {device : Device Json} (running : Running lib Device.Alone device) :
    ∀ parsed ∈ device.parses, parsed.Intact :=
  (running.inv lib).intact

end SharedBuffer

/-- A request with an empty array. -/
def arrayRequest : Request where
  dataVersion := 1
  text := [0x5b, 0x5d]
  version := smallRequest.version
  fits := by decide
  nonempty := by decide

/-- The request has been accepted. -/
def acceptedDevice : Device Unit :=
  (Device.started idleShared).step oneObject (.accept 0 arrayRequest)

/-- The header and the first character have arrived. -/
def begunDevice : Device Unit :=
  acceptedDevice.step oneObject (.chunk 0 (arrayRequest.bytes.take 13) quiet)

theorem running_begun {condition : Device Unit → DeviceEvent Unit → Prop}
    (opened : condition (.started idleShared) (.accept 0 arrayRequest))
    (begun : condition acceptedDevice (.chunk 0 (arrayRequest.bytes.take 13) quiet)) :
    Running oneObject condition begunDevice := by
  have accepted : Running oneObject condition acceptedDevice :=
    .step (.started idleShared) rfl opened
  exact .step accepted ⟨rfl, by decide, arrayRequest, [], rfl, by decide⟩ begun

/-- The last character arrives; then the web page shows the object. -/
def shownAfter : Device Unit :=
  (begunDevice.step oneObject (.chunk 0 (arrayRequest.bytes.drop 13) quiet)).step oneObject
    (.ssi 100 0)

theorem parsed_texts_intact_shown :
    shownAfter.parses.length = 1 ∧ ∀ parsed ∈ shownAfter.parses, parsed.Intact := by
  have idle : ∀ {device : Device Unit}, device.client = none → ¬ device.ClientRelies := by
    rintro device none ⟨client, found, _⟩
    rw [none] at found
    cases found
  have apart : ∀ {device : Device Unit}, device.request = none → ¬ device.MidRequest := by
    rintro device none ⟨request, received, found, _⟩
    rw [none] at found
    cases found
  have begun : Running oneObject Device.Alone begunDevice := running_begun trivial (idle rfl)
  have complete : Running oneObject Device.Alone
      (begunDevice.step oneObject (.chunk 0 (arrayRequest.bytes.drop 13) quiet)) :=
    .step begun ⟨rfl, by decide, arrayRequest, arrayRequest.bytes.take 13, rfl, by decide⟩
      (idle rfl)
  have shown : Running oneObject Device.Alone shownAfter :=
    .step complete trivial fun _ => ⟨idle rfl, apart rfl⟩
  exact ⟨by decide +kernel, parsed_texts_intact oneObject shown⟩

/-- The web page shows the object before the last character arrives. -/
def shownBetween : Device Unit :=
  (begunDevice.step oneObject (.ssi 100 0)).step oneObject
    (.chunk 0 (arrayRequest.bytes.drop 13) quiet)

/-- What the page printed stands in front of the rest of the request. -/
theorem page_mixed_into_request :
    ¬ ∀ device : Device Unit, Running oneObject (fun _ _ => True) device →
      ∀ parsed ∈ device.parses, parsed.Intact := by
  intro intact
  have begun : Running oneObject (fun _ _ => True) begunDevice := running_begun trivial trivial
  have shown : Running oneObject (fun _ _ => True) (begunDevice.step oneObject (.ssi 100 0)) :=
    .step begun trivial trivial
  have run : Running oneObject (fun _ _ => True) shownBetween :=
    .step shown ⟨rfl, by decide, arrayRequest, arrayRequest.bytes.take 13, rfl, by decide⟩
      trivial
  have texts := intact shownBetween run
  simp only [Parsed.Intact] at texts
  revert texts
  decide +kernel

end PicoApConfigure.Json
