import PicoApConfigure.Dhcp.Options
import PicoApConfigure.Nor.Run
import Mathlib.Logic.Function.Basic

/-!
# The DHCP server

`dhcp_server_process` on the message it copies to its stack, with the table of leases.  The
clock counts milliseconds; the server reads its low 32 bits.
-/

namespace PicoApConfigure.Dhcp

open Nor

def dhcpDiscover : Byte := 1
def dhcpOffer : Byte := 2
def dhcpRequest : Byte := 3
def dhcpAck : Byte := 5

/-- `DHCPS_BASE_IP` -/
def dhcpsBaseIp : Byte := 16

/-- `DHCPS_MAX_IP` -/
abbrev dhcpsMaxIp : Nat := 8

instance dhcpsMaxIp_ne_zero : @NeZero Nat Zero.ofOfNat0 dhcpsMaxIp := ⟨Nat.succ_ne_zero 7⟩

/-- `DEFAULT_LEASE_TIME_S` -/
def defaultLeaseTimeS : Nat := 24 * 60 * 60

/-- `DHCP_MIN_SIZE` -/
def dhcpMinSize : Nat := 240 + 3

/-- `sizeof(dhcp_msg_t)` -/
def sizeofDhcpMsg : Nat := 548

/-- The first `MAC_LEN` bytes of a hardware address. -/
abbrev Mac := { bytes : List Byte // bytes.length = 6 }

/-- The address of an unused lease. -/
def Mac.zero : Mac := ⟨List.replicate 6 0, rfl⟩

/-- An IPv4 address as it is sent. -/
abbrev IpAddr := { bytes : List Byte // bytes.length = 4 }

/-- `dhcp_server_lease_t` -/
structure DhcpServerLease where
  mac : Mac
  expiry : BitVec 16
  deriving DecidableEq

/-- The lease after `memset`. -/
def DhcpServerLease.zeroed : DhcpServerLease := { mac := Mac.zero, expiry := 0 }

/-- The table of leases. -/
abbrev Leases := Fin dhcpsMaxIp → DhcpServerLease

/-- `dhcp_server_t` without its socket. -/
structure DhcpServer where
  ip : IpAddr
  nm : IpAddr
  lease : Leases

/-- `dhcp_server_init` -/
def dhcpServerInit (ip nm : IpAddr) : DhcpServer := { ip, nm, lease := fun _ => .zeroed }

/-- What `cyw43_hal_ticks_ms` returns. -/
def halTicksMs (now : Nat) : BitVec 32 := BitVec.ofNat 32 now

/-- The test for an expired lease. -/
def expired (expiry : BitVec 16) (now : Nat) : Bool :=
  decide (((expiry.setWidth 32 <<< 16 ||| 0xffff) - halTicksMs now).toInt < 0)

/-- The expiry of a lease that is given now. -/
def leaseExpiry (now : Nat) : BitVec 16 :=
  ((halTicksMs now + BitVec.ofNat 32 (defaultLeaseTimeS * 1000)) >>> 16).setWidth 16

/-- The loop over the leases on `DHCPDISCOVER`, which reads the clock for each lease. -/
def discoverLoop (chaddr : Mac) (ticks : Fin dhcpsMaxIp → Nat) :
    List (Fin dhcpsMaxIp) → Leases → Option (Fin dhcpsMaxIp) →
      Leases × Option (Fin dhcpsMaxIp)
  | [], lease, yi => (lease, yi)
  | i :: rest, lease, yi =>
      if (lease i).mac = chaddr then (lease, some i)
      else if yi = none then
        let yi := if (lease i).mac = Mac.zero then some i else none
        if expired (lease i).expiry (ticks i) then
          discoverLoop chaddr ticks rest
            (Function.update lease i { lease i with mac := Mac.zero }) (some i)
        else discoverLoop chaddr ticks rest lease yi
      else discoverLoop chaddr ticks rest lease yi

/-- The address the client asks for, where it is one of the server's. -/
def requestedLease (d : DhcpServer) (message : Memory) (opt : Nat) : Option (Fin dhcpsMaxIp) :=
  match optFind message opt dhcpOptRequestedIp with
  | none => none
  | some o =>
      if slice message (o + 2) 3 ≠ d.ip.val.take 3 then none
      else
        let yi := (message (o + 5) - dhcpsBaseIp).toNat
        if inRange : yi < dhcpsMaxIp then some ⟨yi, inRange⟩ else none

/-- The lease for the client on `DHCPREQUEST`, unless another client has it. -/
def requestLease (chaddr : Mac) (now : Nat) (lease : DhcpServerLease) : Option DhcpServerLease :=
  if lease.mac = chaddr then some { lease with expiry := leaseExpiry now }
  else if lease.mac = Mac.zero then some { mac := chaddr, expiry := leaseExpiry now }
  else none

/-- `chaddr` of the message. -/
def chaddrOf (message : Memory) : Mac := ⟨slice message 28 6, slice_length _ _ _⟩

/-- The options of a reply behind the message type, and what is sent. -/
def finishReply (d : DhcpServer) (message : Memory) (opt : Nat) (type : Byte) : List Byte :=
  let writer := optWriteU8 { message, opt } dhcpOptMsgType type
  let writer := optWriteN writer dhcpOptServerId d.ip.val
  let writer := optWriteN writer dhcpOptSubnetMask d.nm.val
  let writer := optWriteN writer dhcpOptRouter d.ip.val
  let writer := optWriteN writer dhcpOptDns d.ip.val
  let writer := optWriteU32 writer dhcpOptIpLeaseTime (BitVec.ofNat 32 defaultLeaseTimeS)
  slice (store writer.message writer.opt [dhcpOptEnd]) 0 (writer.opt + 1)

/-- The reply with the address of a lease. -/
def reply (d : DhcpServer) (message : Memory) (opt : Nat) (yi : Fin dhcpsMaxIp) (type : Byte) :
    List Byte :=
  finishReply d (store message (16 + 3) [dhcpsBaseIp + BitVec.ofNat 8 yi]) opt type

/-- The message after the packet was copied over the stack, with the fields that every reply
has. -/
def received (d : DhcpServer) (stack : Memory) (packet : List Byte) : Memory :=
  store (store (store stack 0 (packet.take sizeofDhcpMsg)) 0 [dhcpOffer]) 16 d.ip.val

/-- `dhcp_server_process` on a packet: the server afterwards and the message that is sent. -/
def dhcpServerProcess (stack : Memory) (ticks : Fin dhcpsMaxIp → Nat) (packet : List Byte)
    (d : DhcpServer) : DhcpServer × Option (List Byte) :=
  if packet.length < dhcpMinSize then (d, none)
  else
    let message := received d stack packet
    let opt := 236 + 4
    match optFind message opt dhcpOptMsgType with
    | none => (d, none)
    | some msgtype =>
        if message (msgtype + 2) = dhcpDiscover then
          match discoverLoop (chaddrOf message) ticks (List.finRange dhcpsMaxIp) d.lease none with
          | (lease, none) => ({ d with lease }, none)
          | (lease, some yi) =>
              ({ d with lease }, some (reply d message opt yi dhcpOffer))
        else if message (msgtype + 2) = dhcpRequest then
          match requestedLease d message opt with
          | none => (d, none)
          | some yi =>
              match requestLease (chaddrOf message) (ticks 0) (d.lease yi) with
              | none => (d, none)
              | some lease =>
                  ({ d with lease := Function.update d.lease yi lease },
                    some (reply d message opt yi dhcpAck))
        else (d, none)

end PicoApConfigure.Dhcp
