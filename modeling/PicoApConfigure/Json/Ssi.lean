import PicoApConfigure.Json.Handler

/-!
# The JSON tag of the web page

Translation of the tag `json` of `ssi_handler`, which prints the mirror into `json_buffer`
with part 0 and copies one part of it into the page with every call.
-/

namespace PicoApConfigure.Json

open Nor

/-- What `ssi_handler` gives to the web server: the bytes it inserts, the part it asks for
next and the length it returns. -/
structure SsiInsert where
  inserted : List Byte
  nextTagPart : Option Nat
  printed : Nat
  deriving DecidableEq

variable {Json : Type} (lib : CJson Json)

/-- The length of the text in the buffer, `hptr->size - sizeof(*hptr)` as an `int`. -/
def textLength (buffer : Memory) : Int := int32 (uint32 ((sizeField buffer : Int) - headerSize))

/-- `ssi_handler`, case `json`. -/
def ssiHandlerJson (iInsertLen : Int) (currentTagPart : Nat) (shared : Shared Json) :
    SsiInsert × Shared Json :=
  let chunk := iInsertLen - 1
  let (remlen, shared) :=
    if currentTagPart = 0 then
      let (good, shared) := jsonPrepGetCounterValue lib shared
      (if 0 ≤ good then textLength shared.buffer else 0, shared)
    else (textLength shared.buffer - currentTagPart * chunk, shared)
  let thischunk := if chunk < remlen then chunk else remlen
  let sofar := textLength shared.buffer - remlen
  ({ inserted := slice shared.buffer (headerSize + sofar.toNat) thischunk.toNat
     nextTagPart := if chunk ≤ thischunk then some (currentTagPart + 1) else none
     printed := uint16 thischunk }, shared)

/-- Later parts only read the buffer. -/
theorem ssiHandlerJson_later (iInsertLen : Int) {currentTagPart : Nat} (shared : Shared Json)
    (later : currentTagPart ≠ 0) :
    (ssiHandlerJson lib iInsertLen currentTagPart shared).2 = shared := by
  simp only [ssiHandlerJson, if_neg later]

end PicoApConfigure.Json
