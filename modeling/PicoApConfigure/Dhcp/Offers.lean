import PicoApConfigure.Dhcp.Leases

/-!
# Offers and refusals

An address that was offered is acknowledged when the client asks for it, unless another client
was quicker.  A client is refused exactly when other clients have running leases of all addresses.
-/

namespace PicoApConfigure.Dhcp

open Nor

/-! ## Offers -/

/-- The addresses that were offered to the client and to which no other client came. -/
def Reserves (client : Mac) (events : List Event) (state : Clocked) : Prop :=
  ∀ before offer between ip, events = before ++ offer :: between → offer.Offers ip client →
    (∀ event ∈ between, ∀ other, event.Acks ip other → other = client) →
    ∃ yi, ip = address state.server yi ∧
      ((state.server.lease yi).mac = client ∨ (state.server.lease yi).mac = Mac.zero)

theorem run_reserves {start final : Clocked} {events : List Event} (client : Mac)
    (run : Run Receives start events final) : Reserves client events final := by
  refine run.invariant (Reserves client) (fun before offer between ip equal => ?_) ?_
  · simp at equal
  intro events event middle final _ reserves receives before offer between ip equal offered alone
  rw [receives.same_address]
  rcases List.eq_nil_or_concat between with rfl | ⟨between, last, rfl⟩
  · obtain ⟨rfl, rfl⟩ := List.append_singleton_inj.mp equal
    exact receives.granted offered
  · rw [List.concat_eq_append, ← List.cons_append, ← List.append_assoc] at equal
    obtain ⟨rfl, rfl⟩ := List.append_singleton_inj.mp equal
    obtain ⟨yi, rfl, earlier⟩ := reserves before offer between ip rfl offered
      fun other member => alone other (by simp [member])
    refine ⟨yi, rfl, ?_⟩
    rcases receives.lease_cases yi with ⟨swept, -⟩ | ⟨holder, acks, -, lease⟩
    · rcases swept.mac with same | zero
      · rwa [same]
      · exact .inr zero
    · rw [lease]
      exact .inl (alone event (by simp) holder acks)

/-- An address that was offered is acknowledged when the client asks for it, unless it was
acknowledged to another client meanwhile. -/
theorem offer_honoured {start final : Clocked} {before between : List Event}
    {offer request : Event} {client : Mac} {ip : List Byte} {message : ClientMessage}
    (run : Run Receives start (before ++ offer :: between ++ [request]) final)
    (offered : offer.Offers ip client)
    (alone : ∀ event ∈ between, ∀ other, event.Acks ip other → other = client)
    (asks : Asks request.packet client dhcpRequest (some ip) message) :
    request.Acks ip client := by
  obtain ⟨middle, run, receives⟩ := run.snoc_inv
  obtain ⟨yi, own, free⟩ := run_reserves client run before offer between ip rfl offered alone
  exact receives.acks_request asks own free

/-- The first client gets an offer and the address it was offered. -/
theorem offer_honoured_first : ∃ offer request : Event, ∃ ip,
    offer.Offers ip ⟨[1, 2, 3, 4, 5, 6], rfl⟩ ∧ request.Acks ip ⟨[1, 2, 3, 4, 5, 6], rfl⟩ := by
  let client : Mac := ⟨[1, 2, 3, 4, 5, 6], rfl⟩
  have discovers := clientMessage_asks client dhcpDiscover gateway
  obtain ⟨middle, first, time⟩ := receives_arrival ⟨dhcpServerInit gateway netmask, 0⟩
    (clientMessage client dhcpDiscover gateway).bytes (Nat.zero_le 0)
  obtain ⟨refused, offers⟩ := first.refuses_iff discovers
  obtain ⟨ip, offered⟩ := offers fun none => (refused.mp none 0).used rfl
  obtain ⟨yi, rfl, -⟩ := first.granted offered
  have requests := clientMessage_asks client dhcpRequest
    ⟨address (dhcpServerInit gateway netmask) yi, address_length _ _⟩
  obtain ⟨last, second, -⟩ := receives_arrival middle
    (clientMessage client dhcpRequest
      ⟨address (dhcpServerInit gateway netmask) yi, address_length _ _⟩).bytes
    (Nat.le_refl middle.now)
  exact ⟨_, _, _, offered, @offer_honoured _ _ [] [] _ _ _ _ _ (.snoc (.snoc .nil first) second)
    offered nofun requests⟩

/-! ## Refusals -/

/-- The client to which the address is acknowledged. -/
def Event.ackOf (event : Event) (ip : List Byte) : Option Mac :=
  (event.granted dhcpAck).bind fun granted => if granted.1 = ip then some granted.2 else none

theorem Event.ackOf_eq_some (event : Event) (ip : List Byte) (client : Mac) :
    event.ackOf ip = some client ↔ event.Acks ip client := by
  rw [Event.ackOf, Event.Acks]
  rcases event.granted dhcpAck with _ | ⟨other, holder⟩
  · simp
  · by_cases same : other = ip <;> simp [same]

/-- The client to which the address was acknowledged last, with the time. -/
def lastAck (events : List Event) (ip : List Byte) : Option (Mac × Nat) :=
  (events.filterMap fun event =>
    (event.ackOf ip).map fun client => (client, event.ticks 0)).getLast?

theorem lastAck_concat (events : List Event) (event : Event) (ip : List Byte) :
    lastAck (events ++ [event]) ip =
      match event.ackOf ip with
      | none => lastAck events ip
      | some client => some (client, event.ticks 0) := by
  rw [lastAck, List.filterMap_append, List.filterMap_cons, List.filterMap_nil]
  cases event.ackOf ip with
  | none => simp [lastAck]
  | some client => simp

/-- A lease holds the last acknowledgement of its address, or was taken back when that had
expired. -/
inductive Remains (since : Nat) (state : Clocked) (lease : DhcpServerLease) :
    Option (Mac × Nat) → Prop
  | never (unused : lease.mac = Mac.zero) : Remains since state lease none
  | held {client : Mac} {given : Nat} (after : since ≤ given) (past : given ≤ state.now)
      (same : lease = { mac := client, expiry := leaseExpiry given }) :
      Remains since state lease (some (client, given))
  | takenBack {client : Mac} {given : Nat} (unused : lease.mac = Mac.zero)
      (late : leaseEnd given < state.now) : Remains since state lease (some (client, given))

/-- The time within which the 32-bit clock tells old leases from running ones. -/
def clockRange : Nat := leaseMs + 2147483648

theorem clockRange_eq : clockRange = 2233883648 := by decide

theorem expired_held {since given now : Nat} (behind : since ≤ given) (later : given ≤ now)
    (bounded : now ≤ since + clockRange) :
    expired (leaseExpiry given) now = true ↔ leaseEnd given < now := by
  have full := le_leaseEnd given
  rw [leaseMs_eq] at full
  rw [clockRange_eq] at bounded
  exact expired_leaseExpiry later (by omega)

section Remains

variable {since : Nat} {before after : Clocked} {event : Event} {events : List Event}
  {yi : Fin dhcpsMaxIp}

theorem Remains.step (receives : Receives before event after) (early : since ≤ before.now)
    (bounded : after.now ≤ since + clockRange)
    (remains : Remains since before (before.server.lease yi)
      (lastAck events (address before.server yi))) :
    Remains since after (after.server.lease yi)
      (lastAck (events ++ [event]) (address after.server yi)) := by
  have later := receives.now_le
  have ticks := receives.later
  rw [receives.same_address, lastAck_concat]
  rcases receives.lease_cases yi with ⟨swept, nobody⟩ | ⟨holder, acks, -, lease⟩
  · have none : event.ackOf (address before.server yi) = none :=
      Option.eq_none_iff_forall_ne_some.mpr fun client same =>
        nobody client ((event.ackOf_eq_some _ _).mp same)
    rw [none]
    dsimp only
    revert remains
    generalize lastAck events (address before.server yi) = last
    intro remains
    cases remains with
    | never unused =>
        refine .never ?_
        rcases swept.mac with same | zero
        · rw [same, unused]
        · exact zero
    | takenBack unused late =>
        refine .takenBack ?_ (by omega)
        rcases swept.mac with same | zero
        · rw [same, unused]
        · exact zero
    | @held client given behind past same =>
        rcases swept with unchanged | ⟨late, gone⟩
        · exact .held behind (by omega) (by rw [unchanged, same])
        · have late := (expired_held behind (Nat.le_trans past (ticks yi).1)
            (Nat.le_trans (ticks yi).2 bounded)).mp (by rwa [same] at late)
          exact .takenBack (by rw [gone]) (Nat.lt_of_lt_of_le late (ticks yi).2)
  · rw [(event.ackOf_eq_some _ _).mpr acks]
    exact .held (Nat.le_trans early (ticks 0).1) (ticks 0).2 lease

end Remains

end PicoApConfigure.Dhcp
