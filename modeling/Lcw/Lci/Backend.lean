/- digest: The functions of the LCI backend as programs over the atomic operations. -/

import Lcw.Api.Request
import Lcw.Interleave.Program

set_option autoImplicit false
set_option relaxedAutoImplicit false

namespace Lcw.Lci

open Interleave
open Lcw.Mpi (OpCode Counter Rank Tid Byte toInt toSize toAint)

/-- A `comp_t`: the address of a queue. -/
abbrev Comp := Nat

/-- Memory blocks: the client's, a packet that LCI has filled, whose bytes are part of its name,
and a block from `posix_memalign`, named by the thread that allocated it. -/
inductive Buffer
  | user (r : Rank) (addr : Nat)
  | packet (k : Nat) (bytes : List Byte)
  | heap (t : Tid) (k : Nat)
  deriving DecidableEq, Repr

abbrev Request := Api.Request Buffer

abbrev Ctx := Api.Ctx Buffer

/-- `LCI_mbuffer_t`. -/
structure Mbuffer where
  address : Buffer
  length : Nat
  deriving DecidableEq, Repr

/-- `LCI_lbuffer_t`. -/
structure Lbuffer where
  segment : Nat
  address : Buffer
  length : Nat
  deriving DecidableEq, Repr

/-- `LCI_data_t`: the arm of the union that was written. -/
inductive Data
  | mbuffer (b : Mbuffer)
  | lbuffer (b : Lbuffer)
  deriving DecidableEq, Repr

/-- The two protocols of LCI. -/
inductive Protocol
  | medium | long
  deriving DecidableEq, Repr

def Data.type : Data → Protocol
  | .mbuffer _ => .medium
  | .lbuffer _ => .long

def Data.length : Data → Nat
  | .mbuffer b => b.length
  | .lbuffer b => b.length

def Data.address : Data → Buffer
  | .mbuffer b => b.address
  | .lbuffer b => b.address

/-- `LCI_MEDIUM_SIZE`, what the other arm of the union reads as, `LCI_SEGMENT_ALL`, and the queue
each process gave to `alloc_device` for each of its devices. -/
structure Config where
  mediumSize : Nat
  asMbuffer : Lbuffer → Mbuffer
  asLbuffer : Mbuffer → Lbuffer
  segmentAll : Nat
  putComp : Rank → Nat → Comp

/-- Reading `data.mbuffer`. -/
def Data.readMbuffer (cfg : Config) : Data → Mbuffer
  | .mbuffer b => b
  | .lbuffer b => cfg.asMbuffer b

/-- Reading `data.lbuffer`. -/
def Data.readLbuffer (cfg : Config) : Data → Lbuffer
  | .lbuffer b => b
  | .mbuffer b => cfg.asLbuffer b

/-- The posting functions of LCI. -/
inductive Primitive
  | sendmc | sendl | recvm | recvl | putmac | putla
  deriving DecidableEq, Repr

/-- What a post passes to LCI. -/
structure Post where
  primitive : Primitive
  device : Nat
  data : Data
  rank : Int
  tag : Int
  comp : Comp
  userContext : Ctx
  deriving DecidableEq, Repr

/-- A message on its way. -/
structure Message where
  src : Rank
  post : Post
  payload : List Byte
  deriving DecidableEq, Repr

/-- `LCI_request_t`; the message that completed a receive or a put at its target is history. -/
structure LciRequest where
  userContext : Option Ctx
  rank : Int
  tag : Int
  type : Protocol
  data : Data
  origin : Option Message
  deriving DecidableEq, Repr

/-- The API calls of the client. -/
inductive Call
  | send (device : Nat) (rank tag : Int) (buf : Buffer) (length : Int) (comp : Comp) (ctx : Nat)
  | recv (device : Nat) (rank tag : Int) (buf : Buffer) (length : Int) (comp : Comp) (ctx : Nat)
  | put (device : Nat) (rank : Int) (buf : Buffer) (length : Int) (comp : Comp) (ctx : Nat)
  | pollCq (c : Comp)
  | doProgress (device : Nat)
  | barrier (device : Nat)
  deriving DecidableEq, Repr

/-- What a completion the client sees comes from: a context of its own or a remote put, with
the message that arrived. -/
inductive Origin
  | own (p : Ctx) (m : Option Message)
  | remote (m : Option Message)
  deriving DecidableEq, Repr

/-- Atomic operations. -/
inductive Op
  | newRequest (q : Request)
  | post (x : Post)
  | progress (device : Nat)
  | barrier (device : Nat)
  | queuePop (c : Comp)
  | readRequest (p : Ctx)
  | deleteRequest (p : Ctx)
  | memalign (length : Nat)
  | memcpy (dst src : Buffer) (length : Nat)
  | mbufferFree (b : Mbuffer)
  | output (q : Request) (origin : Origin)
  | pcounterAdd (c : Counter)
  | userCode
  | abort
  deriving DecidableEq

/-- The reply of an operation; a post replies whether LCI returned `LCI_OK`. -/
abbrev Op.Ret : Op → Type
  | .newRequest _ => Ctx
  | .post _ => Bool
  | .queuePop _ => Option LciRequest
  | .readRequest _ => Request
  | .memalign _ => Option Buffer
  | .abort => Empty
  | _ => Unit

abbrev Code := Prog Op Op.Ret

/-- Perform one atomic operation. -/
abbrev act (o : Op) : Code o.Ret := Prog.perform o

variable (cfg : Config)

/-- The buffer descriptor a post passes: by the length, an `mbuffer` or an `lbuffer`. -/
def describe (buf : Buffer) (length : Int) : Data :=
  if length ≤ cfg.mediumSize then .mbuffer ⟨buf, toSize length⟩
  else .lbuffer ⟨cfg.segmentAll, buf, toSize length⟩

/-- What `send`, `recv` and `put` have in common: allocate the context, post, and take the
context back if LCI did not accept the operation. -/
def post (request : Request) (call : Ctx → Post) : Code Bool := do
  let p ← act (.newRequest request)
  let ok ← act (.post (call p))
  if !ok then act (.deleteRequest p)
  return ok

/-- What `send` passes to LCI. -/
def sendPost (comp : Comp) (p : Ctx) : Post where
  primitive := if p.posted.length ≤ cfg.mediumSize then .sendmc else .sendl
  device := p.posted.device
  data := describe cfg p.posted.buffer p.posted.length
  rank := toInt p.posted.rank
  tag := p.posted.tag
  comp := comp
  userContext := p

/-- What `recv` passes to LCI. -/
def recvPost (comp : Comp) (p : Ctx) : Post where
  primitive := if p.posted.length ≤ cfg.mediumSize then .recvm else .recvl
  device := p.posted.device
  data := describe cfg p.posted.buffer p.posted.length
  rank := toInt p.posted.rank
  tag := p.posted.tag
  comp := comp
  userContext := p

/-- What `put` passes to LCI, with `LCI_DEFAULT_COMP_REMOTE` at the target. -/
def putPost (comp : Comp) (p : Ctx) : Post where
  primitive := if p.posted.length ≤ cfg.mediumSize then .putmac else .putla
  device := p.posted.device
  data := describe cfg p.posted.buffer p.posted.length
  rank := toInt p.posted.rank
  tag := 0
  comp := comp
  userContext := p

/-- `backend_lci_t::send`. -/
def send (device : Nat) (rank tag : Int) (buf : Buffer) (length : Int) (completion : Comp)
    (userContext : Nat) : Code Bool :=
  post ⟨.send, device, rank, tag, buf, length, userContext⟩ (sendPost cfg completion)

/-- `backend_lci_t::recv`. -/
def recv (device : Nat) (rank tag : Int) (buf : Buffer) (length : Int) (completion : Comp)
    (userContext : Nat) : Code Bool :=
  post ⟨.recv, device, rank, tag, buf, length, userContext⟩ (recvPost cfg completion)

/-- `backend_lci_t::put`. -/
def put (device : Nat) (rank : Int) (buf : Buffer) (length : Int) (completion : Comp)
    (userContext : Nat) : Code Bool :=
  post ⟨.put, device, rank, 0, buf, length, userContext⟩ (putPost cfg completion)

/-- The branch of `poll_cq` for a null user context. -/
def pollRemote (lciReq : LciRequest) : Code Request := do
  let mbuffer := lciReq.data.readMbuffer cfg
  match ← act (.memalign mbuffer.length) with
  | none => do
    let never ← act .abort
    nomatch never
  | some buffer => do
    act (.memcpy buffer mbuffer.address mbuffer.length)
    let request : Request :=
      { op := .putSignal, device := 0, rank := lciReq.rank, tag := lciReq.tag, buffer
        length := toAint mbuffer.length, userContext := 0 }
    act (.output request (.remote lciReq.origin))
    act (.mbufferFree mbuffer)
    return request

/-- The length `poll_cq` reports for an operation of the process itself. -/
def localLength (request : Request) (lciReq : LciRequest) : Int :=
  if request.op = .recv ∨ request.op = .putSignal then
    if lciReq.type = .medium then toAint (lciReq.data.readMbuffer cfg).length
    else toAint (lciReq.data.readLbuffer cfg).length
  else request.length

/-- The branch of `poll_cq` for a context of this process. -/
def pollLocal (p : Ctx) (lciReq : LciRequest) : Code Request := do
  let request ← act (.readRequest p)
  act (.deleteRequest p)
  let request := { request with length := localLength cfg request lciReq }
  act (.output request (.own p lciReq.origin))
  return request

/-- The `switch` of `poll_cq` on the operation. -/
def countCompletion : OpCode → Counter
  | .send => .sendEnd
  | .recv => .recvEnd
  | .put => .putEnd
  | .putSignal => .putSignal

/-- `backend_lci_t::poll_cq`. -/
def pollCq (completion : Comp) : Code Bool := do
  match ← act (.queuePop completion) with
  | none => return false
  | some lciReq => do
    let request ← match lciReq.userContext with
      | none => pollRemote cfg lciReq
      | some p => pollLocal cfg p lciReq
    act (.pcounterAdd (countCompletion request.op))
    return true

section Api

/-- `lcw::send`, `lcw::recv` and `lcw::put` count a started or a refused operation. -/
def counted (call : Code Bool) (start retry : Counter) : Code Unit := do
  let ret ← call
  act (.pcounterAdd (if ret then start else retry))

/-- An API call from its start to its return. -/
def apiCall : Call → Code Unit
  | .send d rank tag buf length comp ctx =>
    counted (send cfg d rank tag buf length comp ctx) .sendStart .sendRetry
  | .recv d rank tag buf length comp ctx =>
    counted (recv cfg d rank tag buf length comp ctx) .recvStart .recvRetry
  | .put d rank buf length comp ctx =>
    counted (put cfg d rank buf length comp ctx) .putStart .putRetry
  | .pollCq c => do
    act (.pcounterAdd .compPoll)
    let ret ← pollCq cfg c
    if ret then act (.pcounterAdd .compConsume)
  | .doProgress d => do
    act (.pcounterAdd .progress)
    act (.progress d)
  | .barrier d => act (.barrier d)

end Api

end Lcw.Lci
