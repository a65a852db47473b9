import PicoApConfigure.Tlv.Items

/-!
# Options of a DHCP message

`opt_find` and the functions that write options.  A message is a memory that starts with the
`op` field.
-/

namespace PicoApConfigure.Dhcp

open Nor

def dhcpOptSubnetMask : Byte := 1
def dhcpOptRouter : Byte := 3
def dhcpOptDns : Byte := 6
def dhcpOptRequestedIp : Byte := 50
def dhcpOptIpLeaseTime : Byte := 51
def dhcpOptMsgType : Byte := 53
def dhcpOptServerId : Byte := 54
def dhcpOptEnd : Byte := 255

/-- The loop of `opt_find` at the index `i`. -/
def optFindLoop (message : Memory) (opt : Nat) (cmd : Byte) (i : Nat) : Option Nat :=
  if i < 308 then
    if message (opt + i) = dhcpOptEnd then none
    else if message (opt + i) = cmd then some (opt + i)
    else optFindLoop message opt cmd (i + (2 + (message (opt + (i + 1))).toNat))
  else none
termination_by 308 - i

/-- `opt_find`: the address of the first option with the code.  A pad byte is taken for the
code of an option with a length. -/
def optFind (message : Memory) (opt : Nat) (cmd : Byte) : Option Nat :=
  optFindLoop message opt cmd 0

/-- A message and the place of the next option. -/
structure Writer where
  message : Memory
  opt : Nat

/-- `opt_write_n` -/
def optWriteN (writer : Writer) (cmd : Byte) (data : List Byte) : Writer where
  message := store writer.message writer.opt (cmd :: BitVec.ofNat 8 data.length :: data)
  opt := writer.opt + 2 + data.length

/-- `opt_write_u8` -/
def optWriteU8 (writer : Writer) (cmd val : Byte) : Writer where
  message := store writer.message writer.opt [cmd, 1, val]
  opt := writer.opt + 3

/-- `opt_write_u32`: most significant byte first. -/
def optWriteU32 (writer : Writer) (cmd : Byte) (val : BitVec 32) : Writer where
  message := store writer.message writer.opt
    [cmd, 4, (val >>> 24).setWidth 8, (val >>> 16).setWidth 8, (val >>> 8).setWidth 8,
      val.setWidth 8]
  opt := writer.opt + 6

/-- Options the loop of `opt_find` can walk. -/
def Walked (items : List Tlv.Item) : Prop := ∀ item ∈ items, item.Proper dhcpOptEnd

theorem Walked.tail {item : Tlv.Item} {items : List Tlv.Item} (walked : Walked (item :: items)) :
    Walked items := fun other member => walked other (List.mem_cons_of_mem _ member)

theorem optFindLoop_encoded {message : Memory} {opt : Nat} {cmd : Byte} {items : List Tlv.Item}
    {i : Nat} (holds : Holds message (opt + i) (Tlv.encode items ++ [dhcpOptEnd]))
    (walked : Walked items) (fits : i + (Tlv.encode items).length ≤ 308) :
    optFindLoop message opt cmd i = (Tlv.place cmd items).map (opt + i + ·) := by
  induction items generalizing i with
  | nil =>
      rw [optFindLoop]
      split
      next below =>
        have closes : message (opt + i) = dhcpOptEnd := by
          simpa using holds_iff.mp holds 0 (by simp)
        rw [if_pos closes]
        rfl
      next => rfl
  | cons item rest ih =>
      have proper := walked item List.mem_cons_self
      rw [Tlv.encode_cons, List.append_assoc, holds_append] at holds
      have tag : message (opt + i) = item.tag := by
        simpa [Tlv.Item.bytes] using holds_iff.mp holds.1 0 (by rw [Tlv.Item.bytes_length]; omega)
      have length : message (opt + (i + 1)) = BitVec.ofNat 8 item.value.length := by
        have second := holds_iff.mp holds.1 1 (by rw [Tlv.Item.bytes_length]; omega)
        rw [← Nat.add_assoc, second]
        rfl
      rw [Tlv.encode_cons, List.length_append, Tlv.Item.bytes_length] at fits
      rw [optFindLoop, if_pos (by omega), tag, if_neg proper.opens, Tlv.place]
      by_cases same : item.tag = cmd
      · rw [if_pos same, if_pos same]
        rfl
      · have size : (message (opt + (i + 1))).toNat = item.value.length := by
          rw [length, BitVec.toNat_ofNat]
          exact Nat.mod_eq_of_lt (by have := proper.short; omega)
        rw [Tlv.Item.bytes_length, Nat.add_assoc] at holds
        rw [if_neg same, if_neg same, size, ih holds.2 walked.tail (by omega), Option.map_map]
        congr 1
        funext offset
        simp only [Function.comp_apply, Tlv.Item.bytes_length]
        omega

/-- `opt_find` finds the first option with the code in a list that is closed. -/
theorem optFind_encoded {message : Memory} {opt : Nat} {cmd : Byte} {items : List Tlv.Item}
    (holds : Holds message opt (Tlv.encode items ++ [dhcpOptEnd])) (walked : Walked items)
    (fits : (Tlv.encode items).length ≤ 308) :
    optFind message opt cmd = (Tlv.place cmd items).map (opt + ·) :=
  @optFindLoop_encoded message opt cmd items 0 holds walked (by omega)

/-- What `opt_find` finds, with the first option of the list that has the code. -/
theorem optFind_cases {message : Memory} {opt : Nat} {items : List Tlv.Item}
    (holds : Holds message opt (Tlv.encode items ++ [dhcpOptEnd])) (walked : Walked items)
    (fits : (Tlv.encode items).length ≤ 308) (cmd : Byte) :
    (optFind message opt cmd = none ∧ Tlv.first cmd items = none) ∨
      ∃ place item, optFind message opt cmd = some place ∧ Tlv.first cmd items = some item ∧
        Holds message place item.bytes := by
  have found := @optFind_encoded _ opt cmd _ holds walked fits
  rcases Tlv.place_cases cmd (holds_append.mp holds).1 with
    ⟨nowhere, none⟩ | ⟨offset, item, here, first, bytes⟩
  · exact .inl ⟨by rw [found, nowhere]; rfl, none⟩
  · exact .inr ⟨opt + offset, item, by rw [found, here]; rfl, first, bytes⟩

end PicoApConfigure.Dhcp
