import PicoApConfigure.Dhcp.Replies
import Mathlib.Data.List.FinRange

/-!
# One packet

When a lease has expired, which leases the loop on `DHCPDISCOVER` takes back, and what a packet
can do: it is ignored, or an address is offered, or an address is acknowledged.
-/

namespace PicoApConfigure.Dhcp

open Nor

/-- The length of a lease in milliseconds. -/
def leaseMs : Nat := defaultLeaseTimeS * 1000

theorem leaseMs_eq : leaseMs = 86400000 := rfl

/-- The last millisecond of a lease that was given at a time: the clock is rounded up to the end
of its upper half. -/
def leaseEnd (given : Nat) : Nat := (given + leaseMs) / 65536 * 65536 + 65535

theorem le_leaseEnd (given : Nat) : given + leaseMs ≤ leaseEnd given := by
  rw [leaseEnd]
  omega

theorem expiry_toNat (expiry : BitVec 16) :
    (expiry.setWidth 32 <<< 16 ||| 0xffff).toNat = expiry.toNat * 65536 + 65535 := by
  have small := expiry.isLt
  have low : (expiry.toNat * 2 ^ 16 ||| 65535) = expiry.toNat * 2 ^ 16 + 65535 := by
    rw [Nat.mul_comm]
    exact (Nat.two_pow_add_eq_or_of_lt (by decide : 65535 < 2 ^ 16) _).symm
  have fits : expiry.toNat * 2 ^ 16 < 2 ^ 32 := by omega
  simp only [BitVec.toNat_or, BitVec.toNat_shiftLeft, BitVec.toNat_setWidth, Nat.shiftLeft_eq]
  rw [Nat.mod_eq_of_lt (by omega : expiry.toNat < 2 ^ 32), Nat.mod_eq_of_lt fits]
  exact low

theorem leaseExpiry_toNat (given : Nat) :
    (leaseExpiry given).toNat = (given + leaseMs) % 4294967296 / 65536 := by
  have sum : (halTicksMs given + BitVec.ofNat 32 (defaultLeaseTimeS * 1000)).toNat =
      (given + leaseMs) % 4294967296 := by
    rw [BitVec.toNat_add, halTicksMs, BitVec.toNat_ofNat, BitVec.toNat_ofNat, ← Nat.add_mod]
    rfl
  rw [leaseExpiry, BitVec.toNat_setWidth, BitVec.toNat_ushiftRight, sum,
    Nat.shiftRight_eq_div_pow]
  omega

/-- Whether the lease has expired is decided by the difference of the clocks. -/
theorem expired_iff (expiry : BitVec 16) (now : Nat) :
    expired expiry now = true ↔
      2147483648 ≤ (4294967296 - now % 4294967296 + (expiry.toNat * 65536 + 65535)) %
        4294967296 := by
  rw [expired, decide_eq_true_iff, BitVec.toInt_neg_iff, BitVec.toNat_sub, expiry_toNat,
    halTicksMs, BitVec.toNat_ofNat]
  omega

/-- A lease expires when its last millisecond is over; after another half turn of the clock it
counts as running again. -/
theorem expired_leaseExpiry {given now : Nat} (later : given ≤ now)
    (early : now ≤ leaseEnd given + 2147483648) :
    expired (leaseExpiry given) now = true ↔ leaseEnd given < now := by
  rw [expired_iff, leaseExpiry_toNat]
  rw [leaseEnd, leaseMs_eq] at *
  omega

/-! ## The loop over the leases -/

/-- Another client has the lease, and it has not expired. -/
structure Taken (lease : DhcpServerLease) (chaddr : Mac) (now : Nat) : Prop where
  other : lease.mac ≠ chaddr
  used : lease.mac ≠ Mac.zero
  running : expired lease.expiry now = false

/-- A lease is kept, or it has expired and is taken back. -/
def Swept (before after : DhcpServerLease) (now : Nat) : Prop :=
  after = before ∨ expired before.expiry now = true ∧ after = { before with mac := Mac.zero }

theorem Swept.mac {before after : DhcpServerLease} {now : Nat} (swept : Swept before after now) :
    after.mac = before.mac ∨ after.mac = Mac.zero := by
  rcases swept with rfl | ⟨-, rfl⟩
  · exact .inl rfl
  · exact .inr rfl

section Loop

variable {chaddr : Mac} {ticks : Fin dhcpsMaxIp → Nat} {rest : List (Fin dhcpsMaxIp)}
  {lease : Leases} {yi : Option (Fin dhcpsMaxIp)}

theorem discoverLoop_cons (i : Fin dhcpsMaxIp) :
    discoverLoop chaddr ticks (i :: rest) lease yi =
      if (lease i).mac = chaddr then (lease, some i)
      else if yi = none then
        if expired (lease i).expiry (ticks i) then
          discoverLoop chaddr ticks rest
            (Function.update lease i { lease i with mac := Mac.zero }) (some i)
        else discoverLoop chaddr ticks rest lease
          (if (lease i).mac = Mac.zero then some i else none)
      else discoverLoop chaddr ticks rest lease yi := rfl

/-- What the loop does to the leases; those it does not visit stay. -/
theorem discoverLoop_sweeps (nodup : rest.Nodup) (i : Fin dhcpsMaxIp) :
    Swept (lease i) ((discoverLoop chaddr ticks rest lease yi).1 i) (ticks i) ∧
      (i ∉ rest → (discoverLoop chaddr ticks rest lease yi).1 i = lease i) := by
  induction rest generalizing lease yi with
  | nil => exact ⟨.inl rfl, fun _ => rfl⟩
  | cons head rest ih =>
      obtain ⟨fresh, nodup⟩ := List.nodup_cons.mp nodup
      rw [discoverLoop_cons]
      split
      next => exact ⟨.inl rfl, fun _ => rfl⟩
      next =>
        split
        next =>
          split
          next late =>
            obtain ⟨swept, kept⟩ := @ih (Function.update lease head
              { lease head with mac := Mac.zero }) (some head) nodup
            by_cases same : i = head
            · subst same
              rw [kept fresh, Function.update_self]
              exact ⟨.inr ⟨late, rfl⟩, fun absent => absurd List.mem_cons_self absent⟩
            · rw [Function.update_of_ne same] at swept kept
              exact ⟨swept, fun absent => kept fun member =>
                absent (List.mem_cons_of_mem _ member)⟩
          next =>
            obtain ⟨swept, kept⟩ := @ih lease
              (if (lease head).mac = Mac.zero then some head else none) nodup
            exact ⟨swept, fun absent => kept fun member =>
              absent (List.mem_cons_of_mem _ member)⟩
        next =>
          obtain ⟨swept, kept⟩ := @ih lease yi nodup
          exact ⟨swept, fun absent => kept fun member => absent (List.mem_cons_of_mem _ member)⟩

/-- The lease that is offered is unused or the client's own. -/
theorem discoverLoop_offers
    (free : ∀ i, yi = some i → (lease i).mac = chaddr ∨ (lease i).mac = Mac.zero)
    {i : Fin dhcpsMaxIp} (found : (discoverLoop chaddr ticks rest lease yi).2 = some i) :
    ((discoverLoop chaddr ticks rest lease yi).1 i).mac = chaddr ∨
      ((discoverLoop chaddr ticks rest lease yi).1 i).mac = Mac.zero := by
  induction rest generalizing lease yi with
  | nil => exact free i found
  | cons head rest ih =>
      rw [discoverLoop_cons] at found ⊢
      split at found
      next own =>
        rw [if_pos own]
        cases found
        exact .inl own
      next other =>
        rw [if_neg other]
        split at found
        next none =>
          rw [if_pos none]
          split at found
          next late =>
            rw [if_pos late]
            refine ih (fun j same => ?_) found
            cases same
            exact .inr (by rw [Function.update_self])
          next running =>
            rw [if_neg running]
            refine ih (fun j same => ?_) found
            split at same
            next zero =>
              cases same
              exact .inr zero
            next => cases same
        next found' =>
          rw [if_neg found']
          exact ih free found

/-- Nothing is offered exactly if other clients have all leases; then they stay as they are. -/
theorem discoverLoop_refuses :
    ((discoverLoop chaddr ticks rest lease yi).2 = none ↔
      yi = none ∧ ∀ i ∈ rest, Taken (lease i) chaddr (ticks i)) ∧
    ((discoverLoop chaddr ticks rest lease yi).2 = none →
      (discoverLoop chaddr ticks rest lease yi).1 = lease) := by
  induction rest generalizing lease yi with
  | nil => exact ⟨by simp [discoverLoop], fun _ => rfl⟩
  | cons head rest ih =>
      rw [discoverLoop_cons, List.forall_mem_cons]
      split
      next own =>
        refine ⟨⟨fun same => (nomatch same), fun taken => absurd own taken.2.1.other⟩,
          fun same => nomatch same⟩
      next other =>
        split
        next nothing =>
          split
          next late =>
            obtain ⟨refused, kept⟩ := @ih (Function.update lease head
              { lease head with mac := Mac.zero }) (some head)
            refine ⟨⟨fun none => (nomatch (refused.mp none).1), fun taken => ?_⟩,
              fun none => nomatch (refused.mp none).1⟩
            have running := taken.2.1.running
            rw [late] at running
            cases running
          next running =>
            obtain ⟨refused, kept⟩ := @ih lease
              (if (lease head).mac = Mac.zero then some head else none)
            refine ⟨refused.trans ?_, kept⟩
            by_cases zero : (lease head).mac = Mac.zero
            · rw [if_pos zero]
              exact ⟨nofun, fun taken => absurd zero taken.2.1.used⟩
            · rw [if_neg zero, nothing]
              exact ⟨fun taken => ⟨rfl, ⟨other, zero, Bool.eq_false_iff.mpr running⟩, taken.2⟩,
                fun taken => ⟨rfl, taken.2.2⟩⟩
        next found =>
          obtain ⟨refused, kept⟩ := @ih lease yi
          exact ⟨⟨fun none => absurd (refused.mp none).1 found,
            fun taken => absurd taken.1 found⟩, kept⟩

end Loop

/-! ## What a packet can do -/

/-- The server after a packet from a client, with what it sends. -/
inductive Processed (packet : List Byte) (ticks : Fin dhcpsMaxIp → Nat) (d : DhcpServer) :
    DhcpServer × Option (List Byte) → Prop
  | ignored : Processed packet ticks d (d, none)
  | offered {client : Mac} {lease : Leases} {yi : Fin dhcpsMaxIp}
      (long : dhcpMinSize ≤ packet.length) (sender : client.val = (packet.drop 28).take 6)
      (swept : ∀ i, Swept (d.lease i) (lease i) (ticks i))
      (free : (lease yi).mac = client ∨ (lease yi).mac = Mac.zero) :
      Processed packet ticks d ({ d with lease }, some (replyBytes d packet yi dhcpOffer))
  | acked {client : Mac} {yi : Fin dhcpsMaxIp} {given : DhcpServerLease}
      (long : dhcpMinSize ≤ packet.length) (sender : client.val = (packet.drop 28).take 6)
      (granted : requestLease client (ticks 0) (d.lease yi) = some given) :
      Processed packet ticks d ({ d with lease := Function.update d.lease yi given },
        some (replyBytes d packet yi dhcpAck))

theorem chaddrOf_received (d : DhcpServer) (stack : Memory) {packet : List Byte}
    (long : dhcpMinSize ≤ packet.length) :
    (chaddrOf (received d stack packet)).val = (packet.drop 28).take 6 := by
  rw [dhcpMinSize] at long
  exact slice_received d stack (by omega) (.inr (by omega)) (by omega) (by decide)

theorem dhcpServerProcess_processed (stack : Memory) (ticks : Fin dhcpsMaxIp → Nat)
    (packet : List Byte) (d : DhcpServer) :
    Processed packet ticks d (dhcpServerProcess stack ticks packet d) := by
  rw [dhcpServerProcess]
  split
  next => exact .ignored
  next long =>
    have long := Nat.le_of_not_lt long
    have sender := chaddrOf_received d stack long
    dsimp only
    split
    next => exact .ignored
    next msgtype found =>
      split
      next =>
        have nodup := List.nodup_finRange dhcpsMaxIp
        have sweeps := @discoverLoop_sweeps (chaddrOf (received d stack packet)) ticks _ d.lease
          none nodup
        have offers := @discoverLoop_offers (chaddrOf (received d stack packet)) ticks
          (List.finRange dhcpsMaxIp) d.lease none
          fun _ same => absurd same.symm (Option.some_ne_none _)
        have refuses := @discoverLoop_refuses (chaddrOf (received d stack packet)) ticks
          (List.finRange dhcpsMaxIp) d.lease none
        revert sweeps offers refuses
        rcases discoverLoop (chaddrOf (received d stack packet)) ticks
          (List.finRange dhcpsMaxIp) d.lease none with ⟨lease, none | yi⟩
        · intro _ _ refuses
          rw [show lease = d.lease from refuses.2 rfl]
          exact .ignored
        · intro sweeps offers _
          dsimp only
          rw [reply_received d stack yi dhcpOffer long]
          exact .offered long sender (fun i => (sweeps i).1) (offers rfl)
      next =>
        split
        next =>
          split
          next => exact .ignored
          next =>
            split
            next => exact .ignored
            next given granted =>
              rw [reply_received d stack _ dhcpAck long]
              exact .acked long sender granted
        next => exact .ignored

end PicoApConfigure.Dhcp
