import PicoApConfigure.RingBuffer.Access
import PicoApConfigure.RingBuffer.Overwrite
import PicoApConfigure.RingBuffer.Cursors
import PicoApConfigure.RingBuffer.RoundTrip
import PicoApConfigure.RingBuffer.Writers
import PicoApConfigure.RingBuffer.CheckRing
import PicoApConfigure.RingBuffer.AddedHeaders
import PicoApConfigure.RingBuffer.ShortRead
import PicoApConfigure.RingBuffer.Rotation
import PicoApConfigure.RingBuffer.Search
import PicoApConfigure.RingBuffer.Removal
import PicoApConfigure.RingBuffer.OneRecord
import PicoApConfigure.RingBuffer.HeaderCode
import PicoApConfigure.FlashIo.ReadIds
import PicoApConfigure.FlashIo.Redundant
import PicoApConfigure.FlashIo.WriteId
import PicoApConfigure.Post.Segments
import PicoApConfigure.Post.Urlencoded
import PicoApConfigure.Post.Pairs
import PicoApConfigure.Post.Arrays
import PicoApConfigure.Post.Sessions
import PicoApConfigure.Wifi.StartUp
import PicoApConfigure.Json.Attempt
import PicoApConfigure.Json.Slots
import PicoApConfigure.Json.Resend
import PicoApConfigure.Json.Requests
import PicoApConfigure.Json.Buddies
import PicoApConfigure.Json.SharedBuffer
import PicoApConfigure.Json.Propagation
import PicoApConfigure.Json.Agreement
import PicoApConfigure.Json.TagParts
import PicoApConfigure.Json.Counter
import PicoApConfigure.Json.ReplyBuffer
import PicoApConfigure.Wifi.BestAp
import PicoApConfigure.Wifi.Removelist
import PicoApConfigure.Wifi.Stored
import PicoApConfigure.Dhcp.Offers
import PicoApConfigure.Cjson.RoundTrip
import PicoApConfigure.Cjson.Inside
import PicoApConfigure.Json.Mirrors
