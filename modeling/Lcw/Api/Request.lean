/- digest: The requests of the interface, and the contexts the LCI backends hand to LCI. -/

import Lcw.Mpi.Types

set_option autoImplicit false
set_option relaxedAutoImplicit false

namespace Lcw.Api

open Lcw.Mpi (OpCode)

/-- `request_t`; device and user context are addresses, zero for the null pointer. -/
structure Request (Buffer : Type) where
  op : OpCode
  device : Nat
  rank : Int
  tag : Int
  buffer : Buffer
  length : Int
  userContext : Nat
  deriving DecidableEq, Repr

/-- The `request_t*` a post passes on as user context. The program uses the address only; the
initial value of the object is history. -/
structure Ctx (Buffer : Type) where
  addr : Nat
  posted : Request Buffer
  deriving DecidableEq, Repr

end Lcw.Api
