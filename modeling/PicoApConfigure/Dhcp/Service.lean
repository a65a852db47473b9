import PicoApConfigure.Dhcp.Packet

/-!
# The service of the DHCP server

A message of a client as a header and a list of options, and what the server does with it, without
any memory.  On a proper message `dhcp_server_process` is this service, whatever was on its stack.
-/

namespace PicoApConfigure.Dhcp

open Nor

/-- A message of a client. -/
structure ClientMessage where
  header : List Byte
  options : List Tlv.Item
  rest : List Byte

namespace ClientMessage

/-- The message as it is sent. -/
def bytes (message : ClientMessage) : List Byte :=
  message.header ++ (Tlv.encode message.options ++ [dhcpOptEnd]) ++ message.rest

/-- The options are closed inside `dhcp_msg_t`, and those the server reads are long enough. -/
structure Proper (message : ClientMessage) : Prop where
  header : message.header.length = 240
  walked : Walked message.options
  fits : (Tlv.encode message.options).length ≤ 307
  typed : ∀ item ∈ message.options, item.tag = dhcpOptMsgType → 1 ≤ item.value.length
  requests : ∀ item ∈ message.options, item.tag = dhcpOptRequestedIp → 4 ≤ item.value.length

/-- The message type. -/
def type (message : ClientMessage) : Option Byte :=
  (Tlv.first dhcpOptMsgType message.options).bind fun item => item.value.head?

/-- The address that is asked for. -/
def requestedIp (message : ClientMessage) : Option (List Byte) :=
  (Tlv.first dhcpOptRequestedIp message.options).map fun item => item.value.take 4

end ClientMessage

/-- The lease of an address. -/
def leaseOf (d : DhcpServer) (ip : List Byte) : Option (Fin dhcpsMaxIp) :=
  (List.finRange dhcpsMaxIp).find? fun yi => address d yi = ip

/-- What the server does with a message from a client. -/
def serve (ticks : Fin dhcpsMaxIp → Nat) (message : ClientMessage) (client : Mac)
    (d : DhcpServer) : DhcpServer × Option (List Byte) :=
  if message.type = some dhcpDiscover then
    match discoverLoop client ticks (List.finRange dhcpsMaxIp) d.lease none with
    | (lease, none) => ({ d with lease }, none)
    | (lease, some yi) => ({ d with lease }, some (replyBytes d message.bytes yi dhcpOffer))
  else if message.type = some dhcpRequest then
    match message.requestedIp.bind (leaseOf d) with
    | none => (d, none)
    | some yi =>
        match requestLease client (ticks 0) (d.lease yi) with
        | none => (d, none)
        | some given =>
            ({ d with lease := Function.update d.lease yi given },
              some (replyBytes d message.bytes yi dhcpAck))
  else (d, none)

theorem host_injective : ∀ yi other : Fin dhcpsMaxIp,
    dhcpsBaseIp + BitVec.ofNat 8 yi = dhcpsBaseIp + BitVec.ofNat 8 other → yi = other := by
  decide

theorem address_injective (d : DhcpServer) {yi other : Fin dhcpsMaxIp}
    (same : address d yi = address d other) : yi = other := by
  have host := List.append_cancel_left same
  exact host_injective yi other (List.singleton_inj.mp host)

theorem host_iff (host : Byte) (yi : Fin dhcpsMaxIp) :
    dhcpsBaseIp + BitVec.ofNat 8 yi = host ↔ (host - dhcpsBaseIp).toNat = yi := by
  have small : yi.val < 8 := yi.isLt
  constructor
  · rintro rfl
    rw [BitVec.add_comm, BitVec.add_sub_cancel, BitVec.toNat_ofNat]
    omega
  · intro same
    rw [← same, BitVec.ofNat_toNat, BitVec.setWidth_eq, BitVec.add_comm, BitVec.sub_add_cancel]

theorem leaseOf_eq_some (d : DhcpServer) (ip : List Byte) (yi : Fin dhcpsMaxIp) :
    leaseOf d ip = some yi ↔ address d yi = ip := by
  have sound {other : Fin dhcpsMaxIp} (found : leaseOf d ip = some other) :
      address d other = ip := by
    rw [leaseOf] at found
    simpa using List.find?_some found
  constructor
  · exact sound
  · intro same
    cases found : leaseOf d ip with
    | none =>
        have absent := List.find?_eq_none.mp found yi (List.mem_finRange yi)
        exact absurd (decide_eq_true same) absent
    | some other => rw [address_injective d (same.trans (sound found).symm)]

section Serve

variable {message : ClientMessage} {d : DhcpServer}

/-- The options of a proper message on the stack of the server. -/
theorem ClientMessage.Proper.options (proper : message.Proper) (d : DhcpServer)
    (stack : Memory) :
    Holds (received d stack message.bytes) 240
      (Tlv.encode message.options ++ [dhcpOptEnd]) := by
  have header := proper.header
  have fits := proper.fits
  have length : (Tlv.encode message.options ++ [dhcpOptEnd]).length =
      (Tlv.encode message.options).length + 1 := by simp
  have part : (message.bytes.drop 240).take ((Tlv.encode message.options).length + 1) =
      Tlv.encode message.options ++ [dhcpOptEnd] := by
    rw [ClientMessage.bytes, List.append_assoc, List.drop_left' header, List.take_left' length]
  rw [Holds, length, slice_received d stack (by omega) (.inr (by omega)) _ _, part]
  · simp only [ClientMessage.bytes, List.length_append, header, List.length_singleton]
    omega
  · rw [sizeofDhcpMsg]
    omega

/-- What `opt_find` finds in a proper message. -/
theorem ClientMessage.Proper.found (proper : message.Proper) (d : DhcpServer) (stack : Memory)
    (cmd : Byte) :
    (optFind (received d stack message.bytes) 240 cmd = none ∧
        Tlv.first cmd message.options = none) ∨
      ∃ place item, optFind (received d stack message.bytes) 240 cmd = some place ∧
        Tlv.first cmd message.options = some item ∧
        Holds (received d stack message.bytes) place item.bytes := by
  have fits := proper.fits
  exact optFind_cases (proper.options d stack) proper.walked (by omega) cmd

/-- The lease that is asked for. -/
theorem ClientMessage.Proper.requestedLease_eq (proper : message.Proper) (stack : Memory) :
    requestedLease d (received d stack message.bytes) 240 =
      message.requestedIp.bind (leaseOf d) := by
  rw [requestedLease, ClientMessage.requestedIp]
  rcases proper.found d stack dhcpOptRequestedIp with
    ⟨nowhere, none⟩ | ⟨place, item, here, first, bytes⟩
  · rw [nowhere, none]
    rfl
  · rw [here, first]
    obtain ⟨member, tagged⟩ := Tlv.first_mem first
    have long := proper.requests item member tagged
    obtain ⟨net, host, more, value, three⟩ : ∃ net host more,
        item.value = net ++ host :: more ∧ net.length = 3 :=
      ⟨item.value.take 3, item.value[3], item.value.drop 4, by simp, by simp; omega⟩
    have value' := Tlv.holds_value bytes
    rw [value, holds_append, three] at value'
    have part : slice (received d stack message.bytes) (place + 2) 3 = net :=
      value'.1.slice_eq three
    have last : received d stack message.bytes (place + 5) = host :=
      holds_iff.mp value'.2 0 (by simp)
    have ip : item.value.take 4 = net ++ [host] := by
      rw [value, List.take_append, three]
      simp [List.take_of_length_le, three]
    refine Option.ext fun yi => ?_
    simp only [part, last, Option.map_some, Option.bind_some, ip, leaseOf_eq_some]
    have addressed : address d yi = net ++ [host] ↔
        net = d.ip.val.take 3 ∧ (host - dhcpsBaseIp).toNat = yi := by
      rw [address, List.append_singleton_inj, host_iff, eq_comm]
    rw [addressed]
    split
    next other =>
      exact ⟨fun none => absurd none.symm (Option.some_ne_none _), fun same => absurd same.1 other⟩
    next same =>
      split
      next inRange =>
        rw [Option.some.injEq, Fin.ext_iff]
        exact ⟨fun equal => ⟨Decidable.not_not.mp same, equal⟩, fun both => both.2⟩
      next outside =>
        exact ⟨fun none => absurd none.symm (Option.some_ne_none _),
          fun both => absurd (both.2 ▸ yi.isLt) outside⟩

/-- A message without enough bytes has no type. -/
theorem ClientMessage.Proper.type_none (proper : message.Proper)
    (short : message.bytes.length < dhcpMinSize) : message.type = none := by
  cases first : Tlv.first dhcpOptMsgType message.options with
  | none => rw [ClientMessage.type, first]; rfl
  | some item =>
      obtain ⟨member, tagged⟩ := Tlv.first_mem first
      have long := proper.typed item member tagged
      have inside : item.bytes.length ≤ (Tlv.encode message.options).length :=
        (List.sublist_flatten_of_mem (List.mem_map_of_mem member)).length_le
      have header := proper.header
      rw [Tlv.Item.bytes_length] at inside
      rw [dhcpMinSize, ClientMessage.bytes, List.length_append, List.length_append,
        List.length_append, List.length_singleton] at short
      omega

/-- The client of a message. -/
theorem ClientMessage.Proper.sender (proper : message.Proper) :
    (message.bytes.drop 28).take 6 = (message.header.drop 28).take 6 := by
  have header := proper.header
  rw [ClientMessage.bytes, List.append_assoc, List.drop_append_of_le_length (by omega),
    List.take_append_of_le_length (by rw [List.length_drop]; omega)]

/-- On a proper message `dhcp_server_process` is the service, whatever was on the stack. -/
theorem process_serves (proper : message.Proper) (stack : Memory)
    (ticks : Fin dhcpsMaxIp → Nat) (client : Mac)
    (sender : client.val = (message.header.drop 28).take 6) :
    dhcpServerProcess stack ticks message.bytes d = serve ticks message client d := by
  rw [dhcpServerProcess]
  split
  next short =>
    rw [serve, proper.type_none short, if_neg (Option.some_ne_none _).symm,
      if_neg (Option.some_ne_none _).symm]
  next long =>
    have long := Nat.le_of_not_lt long
    have own : chaddrOf (received d stack message.bytes) = client := by
      refine Subtype.ext ?_
      rw [chaddrOf_received d stack long, sender, proper.sender]
    dsimp only
    rw [own, proper.requestedLease_eq]
    rcases proper.found d stack dhcpOptMsgType with
      ⟨nowhere, none⟩ | ⟨place, item, here, first, bytes⟩
    · rw [nowhere, serve, ClientMessage.type, none]
      rfl
    · obtain ⟨member, tagged⟩ := Tlv.first_mem first
      have typed := proper.typed item member tagged
      obtain ⟨type, more, value⟩ := List.exists_cons_of_length_pos typed
      have byte : received d stack message.bytes (place + 2) = type := by
        have value' := Tlv.holds_value bytes
        rw [value] at value'
        exact holds_iff.mp value' 0 (by simp)
      have type' : message.type = some type := by
        rw [ClientMessage.type, first, Option.bind_some, value]
        rfl
      simp only [here, byte, serve, type', Option.some.injEq,
        reply_received d stack _ _ long]
      all_goals rfl

end Serve

/-! ## Messages of a client -/

/-- A client asks the server for an address. -/
structure Asks (packet : List Byte) (client : Mac) (type : Byte) (ip : Option (List Byte))
    (message : ClientMessage) : Prop where
  proper : message.Proper
  packet : packet = message.bytes
  sender : client.val = (message.header.drop 28).take 6
  type : message.type = some type
  ip : message.requestedIp = ip

/-- A message of a client with the address it asks for. -/
def clientMessage (client : Mac) (type : Byte) (ip : IpAddr) : ClientMessage where
  header := List.replicate 28 0 ++ client.val ++ List.replicate 206 0
  options := [⟨dhcpOptMsgType, [type]⟩, ⟨dhcpOptRequestedIp, ip.val⟩]
  rest := []

theorem clientMessage_asks (client : Mac) (type : Byte) (ip : IpAddr) :
    Asks (clientMessage client type ip).bytes client type (some ip.val)
      (clientMessage client type ip) where
  proper :=
    { header := by
        rw [clientMessage, List.length_append, List.length_append, List.length_replicate,
          List.length_replicate, client.property]
      walked := by
        intro item member
        simp only [clientMessage, List.mem_cons, List.not_mem_nil, or_false] at member
        rcases member with rfl | rfl
        all_goals exact ⟨by simp [ip.property], fun same => nomatch same⟩
      fits := by simp [clientMessage, ip.property]
      typed := by
        intro item member _
        simp only [clientMessage, List.mem_cons, List.not_mem_nil, or_false] at member
        rcases member with rfl | rfl
        all_goals simp [ip.property]
      requests := by
        intro item member asked
        simp only [clientMessage, List.mem_cons, List.not_mem_nil, or_false] at member
        rcases member with rfl | rfl
        · cases asked
        · exact Nat.le_of_eq ip.property.symm }
  packet := rfl
  sender := by
    rw [clientMessage, List.append_assoc, List.drop_left' (List.length_replicate ..),
      List.take_left' client.property]
  type := rfl
  ip := by
    have whole : ip.val.take 4 = ip.val := List.take_of_length_le (Nat.le_of_eq ip.property)
    exact congrArg some whole

/-- The address of the access point. -/
def gateway : IpAddr := ⟨[192, 168, 4, 1], rfl⟩

/-- The mask of the access point. -/
def netmask : IpAddr := ⟨[255, 255, 255, 0], rfl⟩

/-- A fresh server serves the message of a client. -/
theorem process_serves_client :
    dhcpServerProcess (fun _ => 0) (fun _ => 0) (clientMessage Mac.zero dhcpDiscover gateway).bytes
        (dhcpServerInit gateway netmask) =
      serve (fun _ => 0) (clientMessage Mac.zero dhcpDiscover gateway) Mac.zero
        (dhcpServerInit gateway netmask) :=
  have asks := clientMessage_asks Mac.zero dhcpDiscover gateway
  process_serves asks.proper _ _ Mac.zero asks.sender

/-! ## What a client reads in a reply -/

/-- A reader of a reply finds the fields of its packet, the address of a lease and the options that
the server wrote. -/
structure ReadsReply (d : DhcpServer) (packet : List Byte) (yi : Fin dhcpsMaxIp) (type : Byte)
    (memory : Memory) : Prop where
  front : slice memory 1 15 = (packet.drop 1).take 15
  yiaddr : slice memory 16 4 = address d yi
  fields : slice memory 20 220 = (packet.drop 20).take 220
  options : ∀ cmd,
    (optFind memory 240 cmd = none ∧ Tlv.first cmd (replyItems d type) = none) ∨
      ∃ place item, optFind memory 240 cmd = some place ∧
        Tlv.first cmd (replyItems d type) = some item ∧ Holds memory place item.bytes

theorem readsReply {d : DhcpServer} {packet : List Byte} (yi : Fin dhcpsMaxIp) (type : Byte)
    {memory : Memory} (long : dhcpMinSize ≤ packet.length)
    (whole : Holds memory 0 (replyBytes d packet yi type)) :
    ReadsReply d packet yi type memory := by
  obtain ⟨front, yiaddr, -, -⟩ := holds_replyBytes d yi type long whole
  have fifteen : ((packet.drop 1).take 15).length = 15 := by
    rw [dhcpMinSize] at long
    simp
    omega
  exact ⟨front.slice_eq fifteen, yiaddr.slice_eq (address_length d yi),
    slice_replyBytes d yi type long whole (Nat.le_refl _) (Nat.le_refl _),
    optFind_replyBytes d yi type long whole⟩

/-- Every reply is an offer or an acknowledgement of 274 bytes that its reader decodes, whatever
stands behind it in memory. -/
theorem reply_decodes (stack : Memory) (ticks : Fin dhcpsMaxIp → Nat) (packet : List Byte)
    (d : DhcpServer) (bytes : List Byte)
    (sent : (dhcpServerProcess stack ticks packet d).2 = some bytes) :
    bytes.length = 274 ∧ ∃ yi type, (type = dhcpOffer ∨ type = dhcpAck) ∧
      ∀ memory, Holds memory 0 bytes → ReadsReply d packet yi type memory := by
  have processed := dhcpServerProcess_processed stack ticks packet d
  generalize dhcpServerProcess stack ticks packet d = result at processed sent
  cases processed with
  | ignored => cases sent
  | @offered client lease yi long =>
      cases sent
      exact ⟨replyBytes_length d yi _ long, yi, dhcpOffer, .inl rfl,
        fun _ whole => readsReply yi _ long whole⟩
  | @acked client yi given long =>
      cases sent
      exact ⟨replyBytes_length d yi _ long, yi, dhcpAck, .inr rfl,
        fun _ whole => readsReply yi _ long whole⟩

/-- A fresh server offers its first address. -/
theorem reply_decodes_offer :
    (replyBytes (dhcpServerInit gateway netmask)
      (clientMessage Mac.zero dhcpDiscover gateway).bytes 0 dhcpOffer).length = 274 := by
  have asks := clientMessage_asks Mac.zero dhcpDiscover gateway
  refine (reply_decodes (fun _ => 0) (fun _ => 0)
    (clientMessage Mac.zero dhcpDiscover gateway).bytes (dhcpServerInit gateway netmask) _ ?_).1
  rw [process_serves asks.proper _ _ Mac.zero asks.sender]
  rfl

end PicoApConfigure.Dhcp
