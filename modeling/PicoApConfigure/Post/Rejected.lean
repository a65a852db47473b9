import PicoApConfigure.Post.Accepted
import PicoApConfigure.Post.Segments

/-!
# What a rejected body leaves

The three values of a network are decoded into their arrays one after the other, and the name may be
refused when the other two are there already: `check_field` accepts up to 31 bytes, and the array of
the name takes 20.  Every other body that is rejected is rejected before anything is stored.
-/

namespace PicoApConfigure.Post

open Nor FlashIo RingBuffer

section Calls

variable {lib : PbufLib} {fuel : Nat} {stack : Stack} {connection : Nat} {p : Pbuf}
  {state : PostState} {ssid pass host : Nat × List Byte}

/-- A value that fits is fetched. -/
theorem getPostString_fetches (lawful : lib.Lawful) (short : p.length < 0x10000)
    {destmem : Memory} {destlen : Nat} {name : List Byte} (nonempty : name ≠ []) {place : Nat}
    {value : List Byte} (found : lookup name p = some (place, value))
    (small : value.length < postBufsize) (fits : value.length ≤ destlen) :
    (getPostString lib fuel p destmem destlen value.length
      (fieldOffset name.length value place)).Yields fun result => result.1 = true := by
  obtain ⟨inside, here⟩ := fieldOffset_here nonempty found small
  obtain ⟨fetched, -, -, get⟩ := getPostString_fetched lawful short fits inside here destmem
  rw [get]
  exact .bind_any fun squashed => .pure rfl

/-- An accepted value fits in an array that is large enough. -/
theorem HasField.fetches (lawful : lib.Lawful) (short : p.length < 0x10000) {destmem : Memory}
    {destlen : Nat} {name : List Byte} (nonempty : name ≠ []) {field : Nat × List Byte}
    (has : HasField name p field) (fits : field.2.length ≤ destlen) :
    (getPostString lib fuel p destmem destlen field.2.length (field.1 + name.length)).Yields
      fun result => result.1 = true := by
  have fetches := @getPostString_fetches lib fuel p lawful short destmem destlen name nonempty
    field.1 field.2 has.found has.accepts.2 fits
  rwa [has.offset] at fetches

/-- A name that fits in its array is accepted. -/
theorem storeConfig_accepted (lawful : lib.Lawful) (short : p.length < 0x10000) {place : Nat}
    {value : List Byte} (found : lookup (chars "config=") p = some (place, value))
    (fits : value.length ≤ hostNameSize) :
    (storeConfigHanded lib fuel stack connection p state).Yields fun result => result.1 ≠ none := by
  have small : value.length < postBufsize := Nat.lt_of_le_of_lt fits (by decide)
  have fetches := @getPostString_fetches lib fuel p lawful short state.localHostName
    hostNameSize (chars "config=") (by decide) place value found small fits
  rw [storeConfig_found lawful short found, storeNameHanded]
  refine fetches.bind ?_
  rintro ⟨got, localHostName⟩ fetched
  simp only [if_pos fetched]
  exact .bind_any fun wroteName => .pure (Option.some_ne_none _)

end Calls

end PicoApConfigure.Post
