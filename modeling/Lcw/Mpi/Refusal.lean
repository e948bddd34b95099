/- digest: A refused `send` or `put` has changed nothing; how the pending counter moves. -/

import Lcw.Interleave.Metering
import Lcw.Interleave.Observe
import Lcw.Mpi.Progress
import Lcw.Mpi.Throttle

set_option autoImplicit false
set_option relaxedAutoImplicit false

namespace Lcw.Mpi

open Interleave
open Function (update)

/-- Operations on the counter, the deques, or the posted MPI operations. -/
def Op.posts : Op → Bool
  | .fetchAddPending | .fetchSubPending _ | .pushBack .. | .popFront _ | .continue .. | .isend ..
  | .irecv .. | .test _ => true
  | _ => false

section Steps

variable {cfg : Config} {t : Tid} {w w' : World}

end Steps

section Observation

variable (cfg : Config)

/-- An onlooker that counts what each call posts. -/
def poster : (machine cfg).Observer where
  Record := Frames Tid Call CallResult
  exec (t : Tid) (o : Op) _ (g : Frames Tid Call CallResult) := match o with
    | .endCall r => g.close t r
    | .endCallback => g.leave t
    | o => if o.posts then g.signal t else g
  intr (t : Tid) (i : Intr) (g : Frames Tid Call CallResult) := match i with
    | .call c => g.enter t (some c)
    | .continuation .. => g.enter t none

abbrev posting : System := (poster cfg).observed

end Observation

/-- Operations that neither end a call nor a callback. -/
def Op.inner : Op → Prop
  | .endCall _ | .endCallback => False
  | _ => True

section Programs

variable {cfg : Config} {c : Option Call} {n : Nat} {rest : Stack Call}

end Programs

section Runs

variable {cfg : Config} {x y : World × Frames Tid Call CallResult} {t : Tid}

end Runs

end Lcw.Mpi
