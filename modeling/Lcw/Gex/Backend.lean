/- digest: The functions of the GASNet-EX backend as programs over the atomic operations. -/

import Lcw.Api.Request
import Lcw.Interleave.Program

set_option autoImplicit false
set_option relaxedAutoImplicit false

namespace Lcw.Gex

open Interleave
open Lcw.Mpi (OpCode Counter Rank Tid Byte toSize)

/-- A `comp_t`: the address of a queue or of a handler. -/
abbrev Comp := Nat

/-- Memory blocks: the client's, and blocks from the allocator, named by the thread. -/
inductive Buffer
  | user (r : Rank) (addr : Nat)
  | heap (t : Tid) (k : Nat)
  deriving DecidableEq, Repr

abbrev Request := Api.Request Buffer

/-- A `device_impl_t*`. The program uses the process and the address; which `alloc_device` of the
process made it, and the completion object that was given, are history. -/
structure Dev where
  rank : Rank
  addr : Nat
  index : Nat
  putComp : Comp
  deriving DecidableEq, Repr

/-- An active message for `gex_reqhandler`; its number and the device put on are history. -/
structure Message where
  id : Nat
  src : Rank
  dst : Rank
  index : Nat
  payload : List Byte
  device : Dev
  deriving DecidableEq, Repr

/-- What a call returns. -/
inductive CallResult
  | void
  | posted (ret : Bool)
  | progressed (ret : Bool)
  | polled (q : Option Request)
  | device (d : Dev)
  deriving DecidableEq, Repr

/-- The API calls of the client; `send` and `recv` are not implemented. -/
inductive Call
  | put (d : Dev) (rank : Int) (buf : Buffer) (length : Int) (comp : Comp) (ctx : Nat)
  | pollCq (c : Comp)
  | doProgress (d : Dev)
  | barrier (d : Dev)
  | allocDevice (maxPutLength : Int) (putComp : Comp)
  | freeDevice (d : Dev)
  deriving DecidableEq, Repr

/-- Atomic operations. -/
inductive Op
  | newDevice (putComp : Comp)
  | pushDevice (d : Dev)
  | devicesSize
  | setId (d : Dev) (id : Nat)
  | setComp (d : Dev) (c : Comp)
  | deleteDevice (d : Dev)
  | readId (d : Dev)
  | requestMedium (rank : Rank) (buf : Buffer) (nbytes : Nat) (index : Nat) (d : Dev)
  | amPoll
  | barrierNB
  | eventWait (ticket : Nat)
  | allocate (nbytes : Nat)
  | memcpy (dst : Buffer) (amBuf : List Byte) (nbytes : Nat)
  | deviceAt (index : Nat)
  | readComp (d : Dev)
  | signal (c : Comp) (q : Request) (origin : Option Message)
  | cqPop (c : Comp)
  | pcounterAdd (c : Counter)
  | userCode
  | endCall (r : CallResult)
  | abort
  deriving DecidableEq

/-- The reply of an operation. -/
abbrev Op.Ret : Op → Type
  | .newDevice _ => Dev
  | .devicesSize => Nat
  | .readId _ => Nat
  | .barrierNB => Nat
  | .allocate _ => Option Buffer
  | .deviceAt _ => Dev
  | .readComp _ => Comp
  | .cqPop _ => Option Request
  | .abort => Empty
  | _ => Unit

/-- Inside these GASNet may run the handlers of messages that have arrived. -/
def Op.isGex : Op → Bool
  | .requestMedium .. | .amPoll | .barrierNB | .eventWait _ => true
  | _ => false

abbrev Code := Prog Op Op.Ret

/-- Perform one atomic operation. -/
abbrev act (o : Op) : Code o.Ret := Prog.perform o

variable (isHandler : Comp → Bool)

/-- `util::signal_comp`: a queue stores the request, a handler runs client code. -/
def signalComp (completion : Comp) (request : Request) (origin : Option Message) : Code Unit := do
  act (.signal completion request origin)
  if isHandler completion then act .userCode

/-- `gex_reqhandler`. -/
def gexReqhandler (m : Message) : Code Unit := do
  let nbytes := m.payload.length
  match ← act (.allocate nbytes) with
  | none => do
    let never ← act .abort
    nomatch never
  | some buffer => do
    act (.memcpy buffer m.payload nbytes)
    let device ← act (.deviceAt m.index)
    let request : Request :=
      { op := .putSignal, device := device.addr, rank := m.src, tag := 0, buffer
        length := nbytes, userContext := 0 }
    act (.pcounterAdd .putSignal)
    let comp ← act (.readComp device)
    signalComp isHandler comp request (some m)

/-- `backend_gex_t::alloc_device`. -/
def allocDevice (putComp : Comp) : Code Dev := do
  let device ← act (.newDevice putComp)
  act (.pushDevice device)
  let size ← act .devicesSize
  act (.setId device (size - 1))
  act (.setComp device putComp)
  return device

/-- `backend_gex_t::free_device`; `g_devices` keeps the pointer. -/
def freeDevice (d : Dev) : Code Unit := act (.deleteDevice d)

/-- `backend_gex_t::do_progress`. -/
def doProgress : Code Bool := do
  act .amPoll
  return false

/-- `backend_gex_t::put`. -/
def put (d : Dev) (rank : Int) (buf : Buffer) (length : Int) (completion : Comp)
    (userContext : Nat) : Code Bool := do
  let request : Request := ⟨.put, d.addr, rank, 0, buf, length, userContext⟩
  let id ← act (.readId d)
  act (.requestMedium rank.toNat buf (toSize length) id d)
  signalComp isHandler completion request none
  return true

/-- `gex_detail::barrier`. -/
def barrier : Code Unit := do
  let event ← act .barrierNB
  act (.eventWait event)

section Api

/-- `lcw::poll_cq` over `comp_cq_t::poll`. -/
def apiPollCq (c : Comp) : Code CallResult := do
  act (.pcounterAdd .compPoll)
  let request ← act (.cqPop c)
  if request.isSome then act (.pcounterAdd .compConsume)
  return .polled request

/-- The body of an API call. -/
def callBody : Call → Code CallResult
  | .put d rank buf length comp ctx => do
    let ret ← put isHandler d rank buf length comp ctx
    act (.pcounterAdd (if ret then .putStart else .putRetry))
    return .posted ret
  | .pollCq c => apiPollCq c
  | .doProgress _ => do
    act (.pcounterAdd .progress)
    return .progressed (← doProgress)
  | .barrier _ => do
    barrier
    return .void
  | .allocDevice _ c => return .device (← allocDevice c)
  | .freeDevice d => do
    freeDevice d
    return .void

/-- An API call from its start to its return. -/
def apiCall (c : Call) : Code Unit := do
  let r ← callBody isHandler c
  act (.endCall r)

end Api

end Lcw.Gex
