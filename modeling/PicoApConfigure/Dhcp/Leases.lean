import PicoApConfigure.Dhcp.Service

/-!
# Runs of the DHCP server

Packets from any clients, in any order and at any times.  An address that was acknowledged to a
client is not acknowledged to another one while the lease runs, and an address that was offered
is acknowledged unless another client was quicker.
-/

namespace PicoApConfigure.Dhcp

open Nor

/-- A packet that reaches the server: what was on the stack, the clock as the server reads it, and
what the server sends. -/
structure Event where
  stack : Memory
  ticks : Fin dhcpsMaxIp → Nat
  packet : List Byte
  reply : Option (List Byte)

/-- The address and the client in a reply of the type. -/
def Event.granted (event : Event) (type : Byte) : Option (List Byte × Mac) :=
  event.reply.bind fun bytes =>
    if typeOf bytes = some type then some (yiaddrOf bytes, macOf bytes) else none

/-- The server offers the address to the client. -/
def Event.Offers (event : Event) (ip : List Byte) (client : Mac) : Prop :=
  event.granted dhcpOffer = some (ip, client)

/-- The server acknowledges the address to the client. -/
def Event.Acks (event : Event) (ip : List Byte) (client : Mac) : Prop :=
  event.granted dhcpAck = some (ip, client)

/-- The server and the time. -/
structure Clocked where
  server : DhcpServer
  now : Nat

/-- The server receives a packet; its clock runs on. -/
structure Receives (before : Clocked) (event : Event) (after : Clocked) : Prop where
  processed : dhcpServerProcess event.stack event.ticks event.packet before.server =
    (after.server, event.reply)
  later : ∀ i, before.now ≤ event.ticks i ∧ event.ticks i ≤ after.now

/-- A packet that reaches the server at a time. -/
def arrival (state : Clocked) (packet : List Byte) (now : Nat) : Event where
  stack := fun _ => 0
  ticks := fun _ => now
  packet
  reply := (dhcpServerProcess (fun _ => 0) (fun _ => now) packet state.server).2

theorem receives_arrival (state : Clocked) (packet : List Byte) {now : Nat}
    (later : state.now ≤ now) :
    ∃ after, Receives state (arrival state packet now) after ∧ after.now = now :=
  ⟨⟨(dhcpServerProcess (fun _ => 0) (fun _ => now) packet state.server).1, now⟩,
    ⟨rfl, fun _ => ⟨later, Nat.le_refl now⟩⟩, rfl⟩

section Step

variable {before after : Clocked} {event : Event}

theorem Receives.now_le (receives : Receives before event after) : before.now ≤ after.now :=
  Nat.le_trans (receives.later 0).1 (receives.later 0).2

theorem granted_reply {packet : List Byte} {d : DhcpServer} {yi : Fin dhcpsMaxIp}
    {sent type : Byte} {client : Mac} (reply : event.reply = some (replyBytes d packet yi sent))
    (long : dhcpMinSize ≤ packet.length) (sender : client.val = (packet.drop 28).take 6) :
    event.granted type = if sent = type then some (address d yi, client) else none := by
  have mac : macOf (replyBytes d packet yi sent) = client :=
    Subtype.ext ((replyBytes_macOf d yi sent long).trans sender.symm)
  rw [Event.granted, reply, Option.bind_some, replyBytes_typeOf d yi sent long,
    replyBytes_yiaddrOf d yi sent long, mac]
  simp only [Option.some.injEq]

theorem requestLease_some {client : Mac} {now : Nat} {lease given : DhcpServerLease}
    (granted : requestLease client now lease = some given) :
    (lease.mac = client ∨ lease.mac = Mac.zero) ∧
      given = { mac := client, expiry := leaseExpiry now } := by
  rw [requestLease] at granted
  split at granted
  next own =>
    cases granted
    exact ⟨.inl own, by rw [own]⟩
  next =>
    split at granted
    next unused =>
      cases granted
      exact ⟨.inr unused, rfl⟩
    next => cases granted

/-- What a packet does to one lease: it acknowledges the address to a client, or it acknowledges
it to nobody and at most takes it back. -/
theorem Receives.lease_cases (receives : Receives before event after) (yi : Fin dhcpsMaxIp) :
    (Swept (before.server.lease yi) (after.server.lease yi) (event.ticks yi) ∧
        ∀ client, ¬event.Acks (address before.server yi) client) ∨
      ∃ client, event.Acks (address before.server yi) client ∧
        ((before.server.lease yi).mac = client ∨ (before.server.lease yi).mac = Mac.zero) ∧
        after.server.lease yi = { mac := client, expiry := leaseExpiry (event.ticks 0) } := by
  have processed := dhcpServerProcess_processed event.stack event.ticks event.packet before.server
  rw [receives.processed] at processed
  generalize server : after.server = server' at processed
  generalize reply : event.reply = reply' at processed
  cases processed with
  | ignored =>
      refine .inl ⟨.inl rfl, fun client acks => ?_⟩
      rw [Event.Acks, Event.granted, reply] at acks
      cases acks
  | offered long sender swept free =>
      refine .inl ⟨swept yi, fun client acks => ?_⟩
      rw [Event.Acks, granted_reply reply long sender, if_neg (by decide)] at acks
      cases acks
  | @acked client granted given long sender request =>
      obtain ⟨free, rfl⟩ := requestLease_some request
      have acks := @granted_reply event _ _ _ _ dhcpAck _ reply long sender
      rw [if_pos rfl] at acks
      by_cases same : yi = granted
      · subst same
        exact .inr ⟨client, acks, free, Function.update_self _ _ _⟩
      · refine .inl ⟨.inl (Function.update_of_ne same _ _), fun other other_acks => ?_⟩
        rw [Event.Acks, acks, Option.some.injEq, Prod.mk.injEq] at other_acks
        exact same (address_injective _ other_acks.1.symm)

/-- The addresses of the server stay. -/
theorem Receives.same_address (receives : Receives before event after) :
    address after.server = address before.server := by
  have processed := dhcpServerProcess_processed event.stack event.ticks event.packet before.server
  rw [receives.processed] at processed
  generalize server : after.server = server' at processed
  generalize reply : event.reply = reply' at processed
  cases processed <;> rfl

/-- An address that is offered or acknowledged is that of a lease which no other client has. -/
theorem Receives.granted {type : Byte} {ip : List Byte} {client : Mac}
    (receives : Receives before event after) (granted : event.granted type = some (ip, client)) :
    ∃ yi, ip = address before.server yi ∧
      ((after.server.lease yi).mac = client ∨ (after.server.lease yi).mac = Mac.zero) := by
  have processed := dhcpServerProcess_processed event.stack event.ticks event.packet before.server
  rw [receives.processed] at processed
  generalize server : after.server = server' at processed ⊢
  generalize reply : event.reply = reply' at processed
  cases processed with
  | ignored =>
      rw [Event.granted, reply] at granted
      cases granted
  | @offered _ _ yi long sender swept free =>
      rw [granted_reply reply long sender] at granted
      split at granted
      next =>
        cases granted
        exact ⟨yi, rfl, free⟩
      next => cases granted
  | @acked _ yi given long sender request =>
      rw [granted_reply reply long sender] at granted
      split at granted
      next =>
        cases granted
        refine ⟨yi, rfl, .inl ?_⟩
        exact (congrArg DhcpServerLease.mac (Function.update_self _ _ _)).trans
          (by rw [(requestLease_some request).2])
      next => cases granted

end Step

section Message

variable {before after : Clocked} {event : Event} {client : Mac} {message : ClientMessage}
  {type : Byte} {ip : Option (List Byte)}

theorem Asks.long (asks : Asks event.packet client type ip message) :
    dhcpMinSize ≤ event.packet.length := by
  refine Nat.le_of_not_lt fun short => ?_
  rw [asks.packet] at short
  have none := asks.proper.type_none short
  rw [asks.type] at none
  cases none

theorem Asks.client_eq (asks : Asks event.packet client type ip message) :
    client.val = (event.packet.drop 28).take 6 := by
  rw [asks.packet, asks.proper.sender, asks.sender]

/-- The server does what the service does. -/
theorem Receives.serves (receives : Receives before event after)
    (asks : Asks event.packet client type ip message) :
    serve event.ticks message client before.server = (after.server, event.reply) := by
  rw [← receives.processed, asks.packet]
  exact (process_serves asks.proper event.stack event.ticks client asks.sender).symm

/-- A request for the address of a lease that no other client has is acknowledged. -/
theorem Receives.acks_request (receives : Receives before event after)
    {ip : List Byte} {yi : Fin dhcpsMaxIp}
    (asks : Asks event.packet client dhcpRequest (some ip) message)
    (own : ip = address before.server yi)
    (free : (before.server.lease yi).mac = client ∨ (before.server.lease yi).mac = Mac.zero) :
    event.Acks ip client := by
  have served := receives.serves asks
  have lease : leaseOf before.server ip = some yi := (leaseOf_eq_some _ _ _).mpr own.symm
  obtain ⟨given, granted⟩ : ∃ given,
      requestLease client (event.ticks 0) (before.server.lease yi) = some given := by
    rw [requestLease]
    split
    next => exact ⟨_, rfl⟩
    next other => exact ⟨_, if_pos (free.resolve_left other)⟩
  rw [serve, asks.type, if_neg (by decide), if_pos rfl, asks.ip, Option.bind_some, lease] at served
  simp only [granted, Prod.mk.injEq] at served
  have reply := served.2.symm
  rw [← asks.packet] at reply
  rw [own]
  exact (granted_reply reply asks.long asks.client_eq).trans (if_pos rfl)

/-- A client is refused exactly if other clients have all leases; otherwise it gets an offer. -/
theorem Receives.refuses_iff (receives : Receives before event after)
    (asks : Asks event.packet client dhcpDiscover ip message) :
    (event.reply = none ↔ ∀ yi, Taken (before.server.lease yi) client (event.ticks yi)) ∧
      (event.reply ≠ none → ∃ ip, event.Offers ip client) := by
  have served := receives.serves asks
  rw [serve, asks.type, if_pos rfl] at served
  have refuses := (@discoverLoop_refuses client event.ticks (List.finRange dhcpsMaxIp)
    before.server.lease none).1
  rw [eq_self_iff_true, true_and] at refuses
  have all : (∀ yi ∈ List.finRange dhcpsMaxIp,
      Taken (before.server.lease yi) client (event.ticks yi)) ↔
        ∀ yi, Taken (before.server.lease yi) client (event.ticks yi) :=
    ⟨fun taken yi => taken yi (List.mem_finRange yi), fun taken yi _ => taken yi⟩
  rw [← all, ← refuses]
  revert served
  rcases discoverLoop client event.ticks (List.finRange dhcpsMaxIp) before.server.lease none with
    ⟨lease, none | yi⟩
  · intro served
    have reply := (Prod.mk.inj served).2.symm
    exact ⟨⟨fun _ => rfl, fun _ => reply⟩, fun some => absurd reply some⟩
  · intro served
    have reply := (Prod.mk.inj served).2.symm
    rw [← asks.packet] at reply
    refine ⟨⟨fun none => ?_, fun none => absurd none (Option.some_ne_none yi)⟩,
      fun _ => ⟨address before.server yi, ?_⟩⟩
    · rw [reply] at none
      cases none
    · exact (granted_reply reply asks.long asks.client_eq).trans (if_pos rfl)

end Message

/-! ## A running lease -/

/-- The client has the lease since a time, or renewed it later. -/
structure Leased (state : Clocked) (yi : Fin dhcpsMaxIp) (client : Mac) (given : Nat) :
    Prop where
  held : (state.server.lease yi).mac = client
  renewed : ∃ time, given ≤ time ∧ time ≤ state.now ∧
    (state.server.lease yi).expiry = leaseExpiry time

section Leased

variable {before after : Clocked} {event : Event} {yi : Fin dhcpsMaxIp} {client other : Mac}
  {given : Nat}

theorem Receives.leased (receives : Receives before event after)
    (acks : event.Acks (address before.server yi) client) :
    Leased after yi client (event.ticks 0) := by
  rcases receives.lease_cases yi with ⟨-, nobody⟩ | ⟨holder, acked, -, lease⟩
  · exact absurd acks (nobody client)
  · rw [Event.Acks, acked, Option.some.injEq, Prod.mk.injEq] at acks
    obtain ⟨-, rfl⟩ := acks
    exact ⟨by rw [lease], event.ticks 0, Nat.le_refl _, (receives.later 0).2, by rw [lease]⟩

/-- The address of a running lease is acknowledged to its client only. -/
theorem Leased.acks (leased : Leased before yi client given) (used : client ≠ Mac.zero)
    (receives : Receives before event after)
    (acks : event.Acks (address before.server yi) other) : other = client := by
  rcases receives.lease_cases yi with ⟨-, nobody⟩ | ⟨holder, acked, free, -⟩
  · exact absurd acks (nobody other)
  · rw [Event.Acks, acked, Option.some.injEq, Prod.mk.injEq] at acks
    obtain ⟨-, rfl⟩ := acks
    rcases free with own | unused
    · exact own.symm.trans leased.held
    · exact absurd (leased.held.symm.trans unused) used

/-- A lease is kept while it runs. -/
theorem Leased.step (leased : Leased before yi client given) (used : client ≠ Mac.zero)
    (receives : Receives before event after) (early : after.now ≤ given + leaseMs) :
    Leased after yi client given := by
  obtain ⟨time, since, past, expiry⟩ := leased.renewed
  have later := receives.now_le
  rcases receives.lease_cases yi with ⟨unchanged | ⟨late, -⟩, -⟩ | ⟨holder, acks, -, lease⟩
  · exact ⟨by rw [unchanged, leased.held], time, since, by omega, by rw [unchanged, expiry]⟩
  · have ticks := receives.later yi
    have full := le_leaseEnd time
    rw [expiry, expired_leaseExpiry (by omega) (by omega)] at late
    omega
  · cases leased.acks used receives acks
    have ticks := receives.later 0
    exact ⟨by rw [lease], event.ticks 0, by omega, ticks.2, by rw [lease]⟩

end Leased

/-- Within the time of a lease its address is acknowledged to no other client. -/
def Apart (first second : Event) : Prop :=
  ∀ ip client other, first.Acks ip client → client ≠ Mac.zero → second.Acks ip other →
    second.ticks 0 ≤ first.ticks 0 + leaseMs → other = client

end PicoApConfigure.Dhcp
