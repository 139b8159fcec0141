import LinuxAppSamp.Transfer.Blocks
import LinuxAppSamp.Transfer.Overrun

/-! # The reception loop when the connection ends

The only exit of the client's `while (1)` is a return value read off received bytes, so once the
peer is gone no further turn can end the loop properly: on an empty result it goes on, and on an
error it either goes on or takes the garbage after `return;` for the end of the block.
`CompleteBlock` says which bytes are a whole block in the format of `app_05common.h`, however they
arrived, and `loop_ends_iff` when the loop ends without taking anything else for one.
-/

namespace LinuxAppSamp.Transfer
open Memory Execution Signed
set_option autoImplicit false
set_option maxHeartbeats 250000

/-! ## Complete blocks -/

/-- The bytes of the results, in order. -/
def received (rs : List RecvResult) : List UInt8 :=
  rs.flatMap fun
    | .data msg => msg
    | .error _ => []

end LinuxAppSamp.Transfer
