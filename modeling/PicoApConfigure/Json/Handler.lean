import PicoApConfigure.Nor.Memory

/-!
# The mirror and its messages

Translation of `json_handler.c` and of the header in `tcp_json.h`.  The JSON library is a
parameter; a text is parsed from the memory at its first character on, as `cJSON_Parse`
is given a pointer.
-/

namespace PicoApConfigure.Json

open Nor

/-! ## Numbers -/

/-- Conversion to `uint32_t`. -/
def uint32 (value : Int) : Nat := (value % 4294967296).toNat

/-- Conversion of a `uint32_t` to `int`. -/
def int32 (value : Nat) : Int :=
  if value % 4294967296 < 2147483648 then (value % 4294967296 : Nat)
  else (value % 4294967296 : Nat) - 4294967296

/-- Conversion to `uint16_t`. -/
def uint16 (value : Int) : Nat := (value % 65536).toNat

/-- Four bytes, little endian. -/
def wordBytes (value : Nat) : List Byte :=
  [BitVec.ofNat 8 value, BitVec.ofNat 8 (value / 256), BitVec.ofNat 8 (value / 65536),
    BitVec.ofNat 8 (value / 16777216)]

/-- The number four bytes stand for. -/
def wordAt (memory : Memory) (address : Nat) : Nat :=
  (memory address).toNat + 256 * (memory (address + 1)).toNat +
    65536 * (memory (address + 2)).toNat + 16777216 * (memory (address + 3)).toNat

@[simp] theorem wordBytes_length (value : Nat) : (wordBytes value).length = 4 := rfl

theorem wordAt_of_holds {memory : Memory} {address value : Nat}
    (holds : Holds memory address (wordBytes value)) (bound : value < 4294967296) :
    wordAt memory address = value := by
  have byte := holds_iff.mp holds
  have zero := byte 0 (by simp)
  have one := byte 1 (by simp)
  have two := byte 2 (by simp)
  have three := byte 3 (by simp)
  simp only [wordBytes, Nat.add_zero, List.getElem_cons_zero, List.getElem_cons_succ]
    at zero one two three
  rw [wordAt, zero, one, two, three]
  simp only [BitVec.toNat_ofNat]
  omega

theorem wordAt_congr {left right : Memory} {address : Nat}
    (same : ∀ offset < 4, left (address + offset) = right (address + offset)) :
    wordAt left address = wordAt right address := by
  have zero := same 0 (by omega)
  rw [Nat.add_zero] at zero
  rw [wordAt, wordAt, zero, same 1 (by omega), same 2 (by omega), same 3 (by omega)]

/-! ## Messages -/

/-- `MAX_JSON_BUF_SIZE`. -/
def maxJsonBufSize : Nat := 2048

/-- `sizeof(struct tcp_json_header)`. -/
def headerSize : Nat := 12

/-- The room for a text that `json_prep_get_counter_value` prints. -/
def printSize : Nat := maxJsonBufSize - 5 - headerSize

/-- `JSON_PROTOCOL_VERSION`. -/
def jsonProtocolVersion : Nat := 1

/-- `struct tcp_json_header`. -/
structure TcpJsonHeader where
  protocolVersion : Nat
  size : Nat
  dataVersion : Nat
  deriving DecidableEq

/-- The header in memory. -/
def TcpJsonHeader.bytes (header : TcpJsonHeader) : List Byte :=
  wordBytes header.protocolVersion ++ (wordBytes header.size ++ wordBytes header.dataVersion)

@[simp] theorem TcpJsonHeader.bytes_length (header : TcpJsonHeader) :
    header.bytes.length = 12 := rfl

/-- `hptr->size`. -/
def sizeField (buffer : Memory) : Nat := wordAt buffer 4

/-- `hptr->data_version`. -/
def dataVersionField (buffer : Memory) : Nat := wordAt buffer 8

/-- `hptr->size = size`. -/
def setSizeField (buffer : Memory) (size : Nat) : Memory := store buffer 4 (wordBytes size)

/-- The memory behind the header. -/
def textOf (buffer : Memory) : Memory := fun offset => buffer (headerSize + offset)

/-! ## The mirror -/

/-- What the program uses of cJSON: the number `update_count` of an object, its change, the
preallocated print with the bytes it stores, and the parser. -/
structure CJson (Json : Type) where
  updateCount : Json → Option Int
  setUpdateCount : Json → Int → Json
  print : Json → List Byte
  printPreallocated : Json → Nat → Bool × List Byte
  parse : Memory → Option Json
  /-- The object `get_mirror` creates. -/
  created : Json

/-- What the program relies on: a print stays in its buffer and is the text with its
terminator, and the text of an object is parsed back whatever stands behind it. -/
structure CJson.Lawful {Json : Type} (lib : CJson Json) : Prop where
  bounded : ∀ json size, (lib.printPreallocated json size).2.length ≤ size
  printed : ∀ json size, (lib.printPreallocated json size).1 = true →
    (lib.printPreallocated json size).2 = lib.print json ++ [0]
  nonempty : ∀ json, lib.print json ≠ []
  terminated : ∀ json, 0 ∉ lib.print json
  parsed : ∀ json memory, Holds memory 0 (lib.print json) → lib.parse memory = some json

/-- `DEFAULT_UPDATE_COUNT`. -/
def defaultUpdateCount : Int := 1

section Handler

variable {Json : Type} (lib : CJson Json)

/-- `get_mirror`, which leaves the object it returns in `mirror`. -/
def getMirror (mirror : Option Json) : Json := mirror.getD lib.created

/-- `inc_mirror_counter`. -/
def incMirrorCounter (json : Json) : Json :=
  match lib.updateCount json with
  | some count => lib.setUpdateCount json (count + 1)
  | none => json

/-- `get_mirror_update_count`. -/
def getMirrorUpdateCount (mirror : Option Json) : Int :=
  (lib.updateCount (getMirror lib mirror)).getD defaultUpdateCount

/-- The buffer and the mirror, which all connections share. -/
structure Shared (Json : Type) where
  buffer : Memory
  mirror : Option Json

/-- `json_prep_get_counter_value`. -/
def jsonPrepGetCounterValue (shared : Shared Json) : Int × Shared Json :=
  let json := getMirror lib shared.mirror
  let (jready, written) := lib.printPreallocated json printSize
  let buffer := store shared.buffer headerSize written
  if jready = true then
    let jlength := (written.takeWhile (· ≠ 0)).length
    let count := getMirrorUpdateCount lib shared.mirror
    let header : TcpJsonHeader :=
      { protocolVersion := jsonProtocolVersion, size := jlength + headerSize,
        dataVersion := uint32 count }
    (count, { buffer := store buffer 0 header.bytes, mirror := some json })
  else (-1, { buffer, mirror := some json })

/-- `tcp_client_json_handle_reply`. -/
def tcpClientJsonHandleReply (size : Int) (shared : Shared Json) : Shared Json :=
  if uint32 size ≤ headerSize then shared
  else
    let myCounter := getMirrorUpdateCount lib shared.mirror
    if uint32 myCounter ≤ dataVersionField shared.buffer then
      { shared with mirror := lib.parse (textOf shared.buffer) }
    else { shared with mirror := some (getMirror lib shared.mirror) }

/-- `tcp_server_json_check_freshness`. -/
def tcpServerJsonCheckFreshness (shared : Shared Json) : Int × Shared Json :=
  let myCounter := getMirrorUpdateCount lib shared.mirror
  if uint32 myCounter ≤ dataVersionField shared.buffer then
    (headerSize, { buffer := setSizeField shared.buffer headerSize,
                   mirror := lib.parse (textOf shared.buffer) })
  else
    (headerSize + 10, { buffer := setSizeField shared.buffer (headerSize + 10),
                        mirror := some (getMirror lib shared.mirror) })

/-- When `json_prep_get_counter_value` returns a positive count. -/
theorem jsonPrepGetCounterValue_pos (shared : Shared Json) :
    0 < (jsonPrepGetCounterValue lib shared).1 ↔
      (lib.printPreallocated (getMirror lib shared.mirror) printSize).1 = true ∧
      0 < getMirrorUpdateCount lib shared.mirror := by
  rw [jsonPrepGetCounterValue]
  dsimp only
  split
  · rename_i ready
    exact ⟨fun positive => ⟨ready, positive⟩, fun both => both.2⟩
  · rename_i unready
    have negative : ¬ (0 : Int) < -1 := by decide
    exact ⟨fun positive => absurd positive negative, fun both => absurd both.1 unready⟩

end Handler

/-- A library given by the texts of its objects. -/
def CJson.ofTexts {Json : Type} (updateCount : Json → Option Int)
    (setUpdateCount : Json → Int → Json) (text : Json → List Byte)
    (parse : Memory → Option Json) (created : Json) : CJson Json where
  updateCount := updateCount
  setUpdateCount := setUpdateCount
  print := text
  printPreallocated json size :=
    if (text json).length < size then (true, text json ++ [0]) else (false, [])
  parse := parse
  created := created

theorem CJson.ofTexts_lawful {Json : Type} {updateCount : Json → Option Int}
    {setUpdateCount : Json → Int → Json} {text : Json → List Byte}
    {parse : Memory → Option Json} {created : Json}
    (nonempty : ∀ json, text json ≠ []) (terminated : ∀ json, 0 ∉ text json)
    (parsed : ∀ json memory, Holds memory 0 (text json) → parse memory = some json) :
    (CJson.ofTexts updateCount setUpdateCount text parse created).Lawful where
  bounded json size := by
    dsimp only [ofTexts]
    split
    · rw [List.length_append]
      assumption
    · exact Nat.zero_le size
  printed json size ready := by
    dsimp only [ofTexts] at ready ⊢
    split
    · rfl
    · rename_i long
      rw [if_neg long] at ready
      cases ready
  nonempty := nonempty
  terminated := terminated
  parsed := parsed

/-- A library with a single object, printed as one character. -/
def oneObject : CJson Unit :=
  .ofTexts (fun _ => some 1) (fun _ _ => ()) (fun _ => [0x7b]) (fun _ => some ()) ()

/-- A library with two objects, printed as one character each. -/
def twoObjects (count : Bool → Int) : CJson Bool :=
  .ofTexts (fun json => some (count json)) (fun json _ => json)
    (fun json => [if json = true then 0x41 else 0x42])
    (fun memory => some (decide (memory 0 = 0x41))) false

theorem twoObjects_lawful (count : Bool → Int) : (twoObjects count).Lawful := by
  refine CJson.ofTexts_lawful (fun json => by cases json <;> decide)
    (fun json => by cases json <;> decide) (fun json memory holds => ?_)
  have first := holds_iff.mp holds 0 (Nat.zero_lt_one)
  rw [Nat.add_zero] at first
  rw [first]
  cases json <;> rfl

/-- A device that has sent and received nothing. -/
def idleShared : Shared Unit := { buffer := fun _ => 0, mirror := none }

end PicoApConfigure.Json
