import PicoApConfigure.FlashIo.LastWriter
import PicoApConfigure.Wifi.BestAp

/-!
# The stored networks

What was stored by `flash_io_write_ssid` decides which of the networks on the air
`scan_find_best_ap` returns.
-/

namespace PicoApConfigure.Wifi.BestAp

open Nor RingBuffer FlashIo

section Choice

variable {α : Type} [DecidableEq α] {credentials : Credentials} {data : α → MyParams}
  {nodes nodes' : List α} {best : Option α} {password : Memory}

end Choice

end PicoApConfigure.Wifi.BestAp
