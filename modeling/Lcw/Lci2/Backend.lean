/- digest: The functions of the LCI2 backend as programs over the atomic operations. -/

import Lcw.Api.Request
import Lcw.Interleave.Program

set_option autoImplicit false
set_option relaxedAutoImplicit false

namespace Lcw.Lci2

open Interleave
open Lcw.Mpi (OpCode Counter toInt toSize toAint)

/-- A `comp_t`: the address of a queue or of a handler. -/
abbrev Comp := Nat

abbrev Request := Api.Request Nat

abbrev Ctx := Api.Ctx Nat

/-- What a post passes to `post_send_x`, `post_recv_x` or `post_am_x`. -/
structure Post where
  rank : Int
  buffer : Nat
  size : Nat
  tag : Option Int
  comp : Comp
  device : Nat
  userContext : Ctx
  deriving DecidableEq, Repr

/-- `lci::status_t` of a completed operation or of an incoming active message. -/
structure Status where
  userContext : Option Ctx
  rank : Int
  tag : Nat
  buffer : Nat
  size : Nat
  deriving DecidableEq, Repr

/-- The two places where a context is deleted. -/
inductive Site
  | poster | completion
  deriving DecidableEq, Repr

/-- What a call returns; the context of a post is history. -/
inductive CallResult
  | posted (p : Ctx) (ret : Bool)
  | polled (ret : Bool)
  | progressed (ret : Bool)
  | void
  deriving DecidableEq, Repr

/-- The API calls of the client. -/
inductive Call
  | send (device : Nat) (rank tag : Int) (buf : Nat) (length : Int) (comp : Comp) (ctx : Nat)
  | recv (device : Nat) (rank tag : Int) (buf : Nat) (length : Int) (comp : Comp) (ctx : Nat)
  | put (device : Nat) (rank : Int) (buf : Nat) (length : Int) (comp : Comp) (ctx : Nat)
  | pollCq (c : Comp)
  | doProgress (device : Nat)
  | barrier (device : Nat)
  deriving DecidableEq, Repr

/-- Atomic operations. A post is two of them, since LCI may complete it before it returns. -/
inductive Op
  | newRequest (q : Request)
  | post (x : Post)
  | postReturn
  | progress (device : Nat)
  | barrier (device : Nat)
  | cqPop (c : Comp)
  | readRequest (p : Ctx)
  | deleteRequest (p : Ctx) (at' : Site)
  | output (q : Request) (origin : Option Ctx)
  | pcounterAdd (c : Counter)
  | userCode
  | endCall (r : CallResult)
  deriving DecidableEq

/-- The reply of an operation; a post replies whether it was posted, else it is to be retried. -/
abbrev Op.Ret : Op → Type
  | .newRequest _ => Ctx
  | .post _ => Bool
  | .progress _ => Bool
  | .cqPop _ => Option Status
  | .readRequest _ => Request
  | _ => Unit

/-- Inside these LCI may run completion handlers. -/
def Op.isLci : Op → Bool
  | .post _ | .postReturn | .progress _ | .barrier _ | .cqPop _ => true
  | _ => false

abbrev Code := Prog Op Op.Ret

/-- Perform one atomic operation. -/
abbrev act (o : Op) : Code o.Ret := Prog.perform o

/-- The request a completion reports for an operation posted as `q`. -/
def reported (q : Request) (size : Nat) : Request :=
  if q.op = .recv then { q with length := toAint size } else q

/-- `get_request_from_status`. -/
def getRequestFromStatus (status : Status) : Code Request :=
  match status.userContext with
  | none => return {
      op := .putSignal, device := 0, rank := status.rank, tag := toAint status.tag
      buffer := status.buffer, length := toAint status.size, userContext := 0 }
  | some p => do
    let req ← act (.readRequest p)
    act (.deleteRequest p .completion)
    if req.op = .recv ∨ req.op = .putSignal then return { req with length := toAint status.size }
    else return req

/-- `comp_handler_lci_t::signal`; `m_handler` is client code. -/
def signal (status : Status) : Code Unit := do
  let request ← getRequestFromStatus status
  act (.output request status.userContext)
  act .userCode

/-- The `switch` of `poll_cq` on the operation. -/
def countCompletion : OpCode → Counter
  | .send => .sendEnd
  | .recv => .recvEnd
  | .put => .putEnd
  | .putSignal => .putSignal

/-- `backend_lci2_t::poll_cq`. -/
def pollCq (completion : Comp) : Code Bool := do
  match ← act (.cqPop completion) with
  | none => return false
  | some status => do
    let request ← getRequestFromStatus status
    act (.output request status.userContext)
    act (.pcounterAdd (countCompletion request.op))
    return true

/-- What `send`, `recv` and `put` have in common: allocate the context, post, and take the
context back if LCI asks to retry. -/
def post (request : Request) (call : Ctx → Post) : Code (Ctx × Bool) := do
  let p ← act (.newRequest request)
  let posted ← act (.post (call p))
  act .postReturn
  if !posted then act (.deleteRequest p .poster)
  return (p, posted)

/-- `backend_lci2_t::send`. -/
def send (device : Nat) (rank tag : Int) (buf : Nat) (length : Int) (completion : Comp)
    (userContext : Nat) : Code (Ctx × Bool) :=
  post ⟨.send, device, rank, tag, buf, length, userContext⟩ fun p =>
    ⟨toInt rank, buf, toSize length, some tag, completion, device, p⟩

/-- `backend_lci2_t::recv`. -/
def recv (device : Nat) (rank tag : Int) (buf : Nat) (length : Int) (completion : Comp)
    (userContext : Nat) : Code (Ctx × Bool) :=
  post ⟨.recv, device, rank, tag, buf, length, userContext⟩ fun p =>
    ⟨toInt rank, buf, toSize length, some tag, completion, device, p⟩

/-- `backend_lci2_t::put`, an active message. -/
def put (device : Nat) (rank : Int) (buf : Nat) (length : Int) (completion : Comp)
    (userContext : Nat) : Code (Ctx × Bool) :=
  post ⟨.put, device, rank, 0, buf, length, userContext⟩ fun p =>
    ⟨toInt rank, buf, toSize length, none, completion, device, p⟩

section Api

/-- `lcw::send`, `lcw::recv` and `lcw::put` count a started or a refused operation. -/
def counted (call : Code (Ctx × Bool)) (start retry : Counter) : Code CallResult := do
  let (p, ret) ← call
  act (.pcounterAdd (if ret then start else retry))
  return .posted p ret

/-- `lcw::poll_cq`. -/
def apiPollCq (c : Comp) : Code CallResult := do
  act (.pcounterAdd .compPoll)
  let ret ← pollCq c
  if ret then act (.pcounterAdd .compConsume)
  return .polled ret

/-- The body of an API call. -/
def callBody : Call → Code CallResult
  | .send d rank tag buf length comp ctx =>
    counted (send d rank tag buf length comp ctx) .sendStart .sendRetry
  | .recv d rank tag buf length comp ctx =>
    counted (recv d rank tag buf length comp ctx) .recvStart .recvRetry
  | .put d rank buf length comp ctx =>
    counted (put d rank buf length comp ctx) .putStart .putRetry
  | .pollCq c => apiPollCq c
  | .doProgress d => do
    act (.pcounterAdd .progress)
    return .progressed (← act (.progress d))
  | .barrier d => do
    act (.barrier d)
    return .void

/-- An API call from its start to its return. -/
def apiCall (c : Call) : Code Unit := do
  let r ← callBody c
  act (.endCall r)

end Api

end Lcw.Lci2
