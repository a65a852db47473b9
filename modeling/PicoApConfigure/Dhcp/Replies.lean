import PicoApConfigure.Dhcp.Server

/-!
# The replies of the DHCP server

Every reply is made of the first 240 bytes of the request, with the fields of the server, and a
list of options that the client's search finds again.
-/

namespace PicoApConfigure.Dhcp

open Nor

/-! ## What a reader of a message sees -/

/-- A datagram in memory. -/
def datagram (bytes : List Byte) : Memory := store (fun _ => 0) 0 bytes

/-- The message type of a datagram. -/
def typeOf (bytes : List Byte) : Option Byte :=
  (optFind (datagram bytes) 240 dhcpOptMsgType).map fun place => datagram bytes (place + 2)

/-- `yiaddr` of a datagram. -/
def yiaddrOf (bytes : List Byte) : List Byte := slice (datagram bytes) 16 4

/-- `chaddr` of a datagram. -/
def macOf (bytes : List Byte) : Mac := chaddrOf (datagram bytes)

/-! ## What the server sends -/

/-- The address of a lease. -/
def address (d : DhcpServer) (yi : Fin dhcpsMaxIp) : List Byte :=
  d.ip.val.take 3 ++ [dhcpsBaseIp + BitVec.ofNat 8 yi]

/-- The fields of a reply in front of its options. -/
def replyHeader (d : DhcpServer) (packet : List Byte) (yi : Fin dhcpsMaxIp) : List Byte :=
  [dhcpOffer] ++ (packet.drop 1).take 15 ++ address d yi ++ (packet.drop 20).take 220

/-- The options of a reply. -/
def replyItems (d : DhcpServer) (type : Byte) : List Tlv.Item :=
  [⟨dhcpOptMsgType, [type]⟩, ⟨dhcpOptServerId, d.ip.val⟩, ⟨dhcpOptSubnetMask, d.nm.val⟩,
    ⟨dhcpOptRouter, d.ip.val⟩, ⟨dhcpOptDns, d.ip.val⟩,
    ⟨dhcpOptIpLeaseTime, [0x00, 0x01, 0x51, 0x80]⟩]

/-- The reply to a packet. -/
def replyBytes (d : DhcpServer) (packet : List Byte) (yi : Fin dhcpsMaxIp) (type : Byte) :
    List Byte :=
  replyHeader d packet yi ++ (Tlv.encode (replyItems d type) ++ [dhcpOptEnd])

section Lengths

variable (d : DhcpServer) {packet : List Byte} (yi : Fin dhcpsMaxIp) (type : Byte)

@[simp] theorem address_length : (address d yi).length = 4 := by
  simp [address, d.ip.property]

theorem replyHeader_length (long : dhcpMinSize ≤ packet.length) :
    (replyHeader d packet yi).length = 240 := by
  rw [dhcpMinSize] at long
  simp only [replyHeader, List.length_append, List.length_singleton, List.length_take,
    List.length_drop, address_length]
  omega

theorem encode_replyItems_length : (Tlv.encode (replyItems d type)).length = 33 := by
  simp [replyItems, d.ip.property, d.nm.property]

theorem replyBytes_length (long : dhcpMinSize ≤ packet.length) :
    (replyBytes d packet yi type).length = 274 := by
  rw [replyBytes, List.length_append, replyHeader_length d yi long, List.length_append,
    encode_replyItems_length]
  rfl

theorem replyItems_walked : Walked (replyItems d type) := by
  intro item member
  simp only [replyItems, List.mem_cons, List.not_mem_nil, or_false] at member
  rcases member with rfl | rfl | rfl | rfl | rfl | rfl
  all_goals exact ⟨by simp [d.ip.property, d.nm.property], fun same => nomatch same⟩

end Lengths

/-! ## The options are written one after the other -/

/-- The writer after the items. -/
def Writer.wrote (writer : Writer) (items : List Tlv.Item) : Writer where
  message := store writer.message writer.opt (Tlv.encode items)
  opt := writer.opt + (Tlv.encode items).length

theorem optWriteN_wrote (writer : Writer) (items : List Tlv.Item) (cmd : Byte)
    (data : List Byte) :
    optWriteN (writer.wrote items) cmd data = writer.wrote (items ++ [⟨cmd, data⟩]) := by
  have bytes : Tlv.encode [⟨cmd, data⟩] = cmd :: BitVec.ofNat 8 data.length :: data :=
    List.append_nil _
  simp only [optWriteN, Writer.wrote, Tlv.encode_append, ← store_append, bytes,
    List.length_append, List.length_cons, Writer.mk.injEq, true_and]
  omega

theorem optWriteU8_eq (writer : Writer) (cmd val : Byte) :
    optWriteU8 writer cmd val = optWriteN writer cmd [val] := rfl

theorem optWriteU32_eq (writer : Writer) (cmd : Byte) (val : BitVec 32) :
    optWriteU32 writer cmd val = optWriteN writer cmd
      [(val >>> 24).setWidth 8, (val >>> 16).setWidth 8, (val >>> 8).setWidth 8,
        val.setWidth 8] := rfl

theorem slice_store_behind (memory : Memory) (opt : Nat) (bytes : List Byte) :
    slice (store memory opt bytes) 0 (opt + bytes.length) = slice memory 0 opt ++ bytes := by
  rw [slice_add, Nat.zero_add, (holds_store memory opt bytes).slice_eq rfl]
  congr 1
  exact slice_congr fun query _ below => store_of_lt _ _ (by omega)

/-- The options of a reply stand behind the message. -/
theorem finishReply_eq (d : DhcpServer) (message : Memory) (opt : Nat) (type : Byte) :
    finishReply d message opt type =
      slice message 0 opt ++ (Tlv.encode (replyItems d type) ++ [dhcpOptEnd]) := by
  have start : (⟨message, opt⟩ : Writer) = (⟨message, opt⟩ : Writer).wrote [] := by
    simp [Writer.wrote]
  have time : [(BitVec.ofNat 32 defaultLeaseTimeS >>> 24).setWidth 8,
      (BitVec.ofNat 32 defaultLeaseTimeS >>> 16).setWidth 8,
      (BitVec.ofNat 32 defaultLeaseTimeS >>> 8).setWidth 8,
      (BitVec.ofNat 32 defaultLeaseTimeS).setWidth 8] = [(0x00 : Byte), 0x01, 0x51, 0x80] := by
    decide
  rw [finishReply, start]
  simp only [optWriteU8_eq, optWriteU32_eq, optWriteN_wrote, time, List.nil_append,
    List.cons_append]
  rw [← slice_store_behind, ← store_append, List.length_append, ← Nat.add_assoc]
  rfl

/-- A range of the packet as it is on the stack. -/
theorem slice_received (d : DhcpServer) (stack : Memory) {packet : List Byte} {start size : Nat}
    (positive : 0 < start) (apart : start + size ≤ 16 ∨ 20 ≤ start)
    (inside : start + size ≤ packet.length) (short : start + size ≤ sizeofDhcpMsg) :
    slice (received d stack packet) start size = (packet.drop start).take size := by
  have ip := d.ip.property
  have copied : Holds (store stack 0 (packet.take sizeofDhcpMsg)) 0 (packet.take sizeofDhcpMsg) :=
    holds_store _ _ _
  have length : (packet.take sizeofDhcpMsg).length = min sizeofDhcpMsg packet.length :=
    List.length_take
  calc slice (received d stack packet) start size
      = slice (store stack 0 (packet.take sizeofDhcpMsg)) start size := by
        refine slice_congr fun query _ _ => ?_
        rw [received, store_apart _ _ (by omega), store_of_le _ _ (by simp; omega)]
    _ = ((packet.take sizeofDhcpMsg).drop start).take size := by
        rw [← copied.slice_eq rfl, slice_drop, slice_take _ _ (by omega), Nat.zero_add,
          copied.slice_eq rfl]
    _ = (packet.drop start).take size := by
        rw [List.drop_take, List.take_take, Nat.min_eq_left (by omega)]

/-- The fields of the packet with those of the server. -/
theorem received_header (d : DhcpServer) (stack : Memory) {packet : List Byte}
    (yi : Fin dhcpsMaxIp) (long : dhcpMinSize ≤ packet.length) :
    slice (store (received d stack packet) 19 [dhcpsBaseIp + BitVec.ofNat 8 yi]) 0 240 =
      replyHeader d packet yi := by
  rw [dhcpMinSize] at long
  have ip := d.ip.property
  have three : (d.ip.val.take 3).length = 3 := by simp [ip]
  have fifteen : ((packet.drop 1).take 15).length = 15 := by simp; omega
  have op : Holds (received d stack packet) 0 [dhcpOffer] :=
    (holds_store _ 0 [dhcpOffer]).congr fun query _ below =>
      (store_of_lt _ _ (by simp at below; omega)).symm
  have yiaddr : Holds (received d stack packet) 16 (d.ip.val.take 3) := by
    have whole : Holds (received d stack packet) 16 (d.ip.val.take 3 ++ d.ip.val.drop 3) := by
      rw [List.take_append_drop]
      exact holds_store _ 16 d.ip.val
    exact (holds_append.mp whole).1
  have fields {start size : Nat} (positive : 0 < start) (apart : start + size ≤ 16 ∨ 20 ≤ start)
      (inside : start + size ≤ 240) :
      Holds (received d stack packet) start ((packet.drop start).take size) := by
    have length : ((packet.drop start).take size).length = size := by simp; omega
    rw [Holds, length]
    exact slice_received d stack positive apart (by omega) (by rw [sizeofDhcpMsg]; omega)
  have keeps {start : Nat} {bytes : List Byte} (holds : Holds (received d stack packet) start bytes)
      (apart : start + bytes.length ≤ 19 ∨ 20 ≤ start) :
      Holds (store (received d stack packet) 19 [dhcpsBaseIp + BitVec.ofNat 8 yi]) start bytes :=
    holds.congr fun query _ _ =>
      (store_apart _ _ (by rw [List.length_singleton]; omega)).symm
  refine Holds.slice_eq ?_ (replyHeader_length d yi long)
  simp only [replyHeader, address, List.append_assoc, holds_append, fifteen, three,
    List.length_singleton, Nat.zero_add, Nat.reduceAdd]
  refine ⟨keeps op (by simp), keeps (fields ?_ ?_ ?_) ?_, keeps yiaddr ?_, holds_store _ 19 _,
    keeps (fields ?_ ?_ ?_) ?_⟩
  all_goals omega

/-- A reply is made of the packet, the fields of the server and the options: nothing else of the
stack is sent. -/
theorem reply_received (d : DhcpServer) (stack : Memory) {packet : List Byte}
    (yi : Fin dhcpsMaxIp) (type : Byte) (long : dhcpMinSize ≤ packet.length) :
    reply d (received d stack packet) 240 yi type = replyBytes d packet yi type := by
  rw [reply, finishReply_eq, received_header d stack yi long, replyBytes]

/-! ## The client reads what the server wrote -/

section Read

variable (d : DhcpServer) {packet : List Byte} (yi : Fin dhcpsMaxIp) (type : Byte)
  {memory : Memory}

/-- The parts of a reply in the memory of its reader. -/
theorem holds_replyBytes (long : dhcpMinSize ≤ packet.length)
    (whole : Holds memory 0 (replyBytes d packet yi type)) :
    Holds memory 1 ((packet.drop 1).take 15) ∧ Holds memory 16 (address d yi) ∧
      Holds memory 20 ((packet.drop 20).take 220) ∧
      Holds memory 240 (Tlv.encode (replyItems d type) ++ [dhcpOptEnd]) := by
  have header := replyHeader_length d yi long
  rw [dhcpMinSize] at long
  have fifteen : ((packet.drop 1).take 15).length = 15 := by simp; omega
  rw [replyBytes, holds_append, header, Nat.zero_add, replyHeader, holds_append, holds_append,
    holds_append] at whole
  simp only [List.length_append, List.length_singleton, fifteen, address_length,
    Nat.zero_add, Nat.reduceAdd] at whole
  exact ⟨whole.1.1.1.2, whole.1.1.2, whole.1.2, whole.2⟩

/-- A field of the client in a reply. -/
theorem slice_replyBytes {start size : Nat} (long : dhcpMinSize ≤ packet.length)
    (whole : Holds memory 0 (replyBytes d packet yi type)) (behind : 20 ≤ start)
    (inside : start + size ≤ 240) :
    slice memory start size = (packet.drop start).take size := by
  have fields := (holds_replyBytes d yi type long whole).2.2.1
  rw [dhcpMinSize] at long
  have length : ((packet.drop 20).take 220).length = 220 := by simp; omega
  obtain ⟨skipped, rfl⟩ := Nat.exists_eq_add_of_le behind
  have part : slice memory (20 + skipped) size =
      (((packet.drop 20).take 220).drop skipped).take size := by
    rw [← fields.slice_eq length, slice_drop, slice_take _ _ (by omega)]
  rw [part, List.drop_take, List.take_take, List.drop_drop, Nat.min_eq_left (by omega)]

/-- The client's search finds the options of a reply, and no others. -/
theorem optFind_replyBytes (long : dhcpMinSize ≤ packet.length)
    (whole : Holds memory 0 (replyBytes d packet yi type)) (cmd : Byte) :
    (optFind memory 240 cmd = none ∧ Tlv.first cmd (replyItems d type) = none) ∨
      ∃ place item, optFind memory 240 cmd = some place ∧
        Tlv.first cmd (replyItems d type) = some item ∧ Holds memory place item.bytes := by
  have options := (holds_replyBytes d yi type long whole).2.2.2
  exact optFind_cases options (replyItems_walked d type)
    (by rw [encode_replyItems_length]; omega) cmd

theorem replyBytes_typeOf (long : dhcpMinSize ≤ packet.length) :
    typeOf (replyBytes d packet yi type) = some type := by
  have whole : Holds (datagram (replyBytes d packet yi type)) 0 (replyBytes d packet yi type) :=
    holds_store _ _ _
  rcases optFind_replyBytes d yi type long whole dhcpOptMsgType with
    ⟨-, none⟩ | ⟨place, item, here, first, bytes⟩
  · cases none
  · cases first
    rw [typeOf, here]
    exact congrArg some (holds_iff.mp (Tlv.holds_value bytes) 0 Nat.one_pos)

theorem replyBytes_yiaddrOf (long : dhcpMinSize ≤ packet.length) :
    yiaddrOf (replyBytes d packet yi type) = address d yi :=
  (holds_replyBytes d yi type long (holds_store _ _ _)).2.1.slice_eq (address_length d yi)

theorem replyBytes_macOf (long : dhcpMinSize ≤ packet.length) :
    (macOf (replyBytes d packet yi type)).val = (packet.drop 28).take 6 :=
  slice_replyBytes d yi type long (holds_store _ _ _) (by omega) (by omega)

end Read

end PicoApConfigure.Dhcp
