/- digest: Who answers for every request, permit, put slot and block, as one discipline. -/

import Lcw.Interleave.Placement
import Lcw.Mpi.Bigcount
import Lcw.Mpi.StructureCalls

set_option autoImplicit false
set_option relaxedAutoImplicit false

namespace Lcw.Mpi

open Interleave
open Function (update)

namespace Stage

def deque : Stage → Option Manager
  | .queued m => some m
  | _ => none

def conts : Stage → Option Manager
  | .attached m => some m
  | _ => none

/-- The completion object has been told. -/
def told : Stage → Bool
  | .owned _ .spent | .gone => true
  | _ => false

/-- A manager has had the operation. -/
def handed : Stage → Bool
  | .queued _ | .attached _ | .owned _ .held | .owned _ .spent | .gone => true
  | _ => false

/-- MPI has had the operation. -/
def begun : Stage → Bool
  | .unborn | .owned _ .posting => false
  | _ => true

end Stage

/-- What a thread knows of a `request_t` that only it can reach. -/
structure Token where
  kind : Owning
  content : Option Request
  result : Option Status
  permit : Option Nat

/-- What a thread knows of a put slot that only it can change: `rbuf` is the buffer while a
message waits in it. -/
structure SlotView where
  entry : Option Entry
  phase : Phase
  rbuf : List Byte
  size : Nat
  comp : Option Comp
  building : Bool

/-- Everything that only one thread can change. -/
@[ext]
structure Account where
  token : RequestPtr → Option Token
  permit : Option Nat
  passed : Bool
  acts : List Activation
  slot : Dev → Option SlotView
  block : Nat → Option (List Byte)

section Views

variable (t : Tid) (w : World)

def tokenOf (p : RequestPtr) : Option Token :=
  match w.store.stage p with
  | .owned u k =>
    if u = t then some ⟨k, w.store.heap p, w.net.result p, w.pend.permitOf p⟩ else none
  | _ => none

/-- A put slot belongs to the holder of its lock, or to the thread that allocates the device. -/
def Controls (d : Dev) : Prop :=
  w.sync.owner (.put d) = some t ∨ w.devs.builder d = some t

instance (d : Dev) : Decidable (Controls t w d) := inferInstanceAs (Decidable (_ ∨ _))

def Phase.full : Phase → Bool
  | .taken _ => true
  | _ => false

def slotView (d : Dev) : SlotView where
  entry := w.store.slot d
  phase := w.net.phase d
  rbuf := bif (w.net.phase d).full then w.memory.bytes (.putRbuf d) else []
  size := (w.memory.bytes (.putRbuf d)).length
  comp := w.devs.putComp d
  building := (w.devs.builder d).isSome

def slotOf (d : Dev) : Option SlotView := if Controls t w d then some (slotView w d) else none

def blockOf (k : Nat) : Option (List Byte) :=
  if w.memory.blockOwner k = some t then some (w.memory.bytes (.heap k)) else none

def account : Account where
  token := tokenOf t w
  permit := w.pend.permit t
  passed := w.pend.passed t
  acts := w.client.acts t
  slot := slotOf t w
  block := blockOf t w

end Views

namespace Account

variable (v : Account)

def setToken (p : RequestPtr) (x : Option Token) : Account :=
  { v with token := update v.token p x }

def setSlot (d : Dev) (s : Option SlotView) : Account := { v with slot := update v.slot d s }

def setBlock (k : Nat) (b : Option (List Byte)) : Account :=
  { v with block := update v.block k b }

def setActs (as : List Activation) : Account := { v with acts := as }

def setPermit (a : Option Nat) : Account := { v with permit := a }

def setPassed (b : Bool) : Account := { v with passed := b }

end Account

variable (cfg : Config)

/-- Rules for the runs in which user tags are below `max_tag`, which fits an `int`, and for those
in which also puts are within limits: `size` is the size of `put_rbuf` of each process's device on
a communicator. -/
structure PutRules where
  on : Bool
  tagged : Bool
  size : Rank → Nat → Nat
  both : on = true → tagged = true
  tags : tagged = true → 0 ≤ cfg.maxTag ∧ cfg.maxTag ≤ intMax

/-- A tag of the client, from 0 to `get_max_tag`. -/
def UserTag (tag : Int) : Prop := 0 ≤ tag ∧ tag < cfg.maxTag

variable {cfg} (P : PutRules cfg)

variable (cfg) in
/-- The request and completion object a posting call creates. -/
def Call.Posts : Call → Request → Option Comp → Prop
  | .send d rank tag buf len comp ctx, q, c =>
    q = ⟨.send, d, rank, tag, buf, len, ctx⟩ ∧ c = comp
  | .recv d rank tag buf len comp ctx, q, c =>
    q = ⟨.recv, d, rank, tag, buf, len, ctx⟩ ∧ c = comp
  | .put d rank buf len comp ctx, q, c =>
    q = ⟨.put, d, rank, cfg.maxTag, buf, len, ctx⟩ ∧ c = comp
  | _, _, _ => False

def Call.isPost : Call → Bool
  | .send .. | .recv .. | .put .. => true
  | _ => false

/-- The calls that ask for a permit. -/
def Call.throttled : Call → Bool
  | .send .. | .put .. => true
  | _ => false

variable (cfg) in
/-- A SEND or PUT under the throttle has a permit, and nothing else has one. -/
def PermitFits (op : OpCode) (a : Option Nat) : Prop :=
  a.isSome = true ↔ 0 < cfg.pendingMsgMax ∧ (op = .send ∨ op = .put)

variable (cfg) in
/-- The request an operation other than a put receive is completed with. -/
def finalRequest (p : RequestPtr) (st : Status) : Request :=
  match cfg.compType, p.posted.op with
  | .request, .recv => received cfg p.posted st
  | _, _ => p.posted

/-- A put within the limits of the device it is made for; a negative length does not get past
`isend`. -/
structure PutFits (len : Int) (dest : Rank) (context : Nat) : Prop where
  typed : -2 ^ 63 ≤ len
  small : len ≤ intMax
  size : len ≤ P.size dest context

structure Message.Ok (m : Message) : Prop where
  op : m.request.posted.op = .send ∨ m.request.posted.op = .put
  src : m.src = m.request.posted.device.rank
  rank : m.src < cfg.nranks
  dst : m.dst = (toInt m.request.posted.rank).toNat
  tag : m.tag = toInt m.request.posted.tag
  length : m.payload.length = toSize m.request.posted.length
  admitted : m.payload.length / intMax < intMax
  putTag : m.request.posted.op = .put → m.request.posted.tag = cfg.maxTag
  put : P.on = true → m.request.posted.op = .put →
    PutFits P m.request.posted.length m.dst m.context
  send : P.tagged = true → m.request.posted.op = .send → UserTag cfg m.request.posted.tag

/-- What MPI knows of a request is what it was started for. -/
structure MpiRequest.Ok (w : World) (h : Handle) (q : MpiRequest) : Prop where
  id : h.id < w.net.nextHandle
  begun : (w.store.stage h.request).begun = true
  buffer : q.buffer = h.request.posted.buffer
  recv : q.isRecv = true ↔ h.request.posted.op = .recv ∨ h.request.posted.op = .putSignal
  peer : h.request.posted.op = .recv → q.peer = toInt h.request.posted.rank
  tag : q.tag = toInt h.request.posted.tag
  layout : q.isRecv = true → q.layout = consecutive (toSize h.request.posted.length)
  admitted : toSize h.request.posted.length / intMax < intMax
  device : h.comm.device = h.request.posted.device
  recvTag : P.tagged = true → h.request.posted.op = .recv → UserTag cfg h.request.posted.tag
  putTag : h.request.posted.op = .putSignal → h.request.posted.tag = cfg.maxTag
  put : P.on = true → h.request.posted.op = .putSignal →
    toSize h.request.posted.length = P.size h.comm.device.rank h.comm.context

/-- The message a completed receive reports. -/
structure Message.For (w : World) (h : Handle) (q : MpiRequest) (st : Status) (m : Message) :
    Prop where
  ok : m.Ok P
  source : st.source = m.src
  tag : st.tag = m.tag
  message : st.message = some m
  sameTag : m.tag = q.tag
  peer : q.peer = cfg.anySource ∨ q.peer = m.src
  dst : m.dst = h.comm.device.rank
  context : m.context = h.comm.context
  error : st.error = true ↔ q.layout.length < m.payload.length
  route : w.net.route m.request = .matched h

structure Status.Ok (w : World) (h : Handle) (q : MpiRequest) (st : Status) : Prop where
  send : q.isRecv = false → st.error = false
  recv : q.isRecv = true → ∃ m, Message.For P w h q st m

/-- A status with which an operation was reported complete; put receives always have a request. -/
def Reported (w : World) (p : RequestPtr) (st : Status) : Prop :=
  st = cfg.indeterminate ∧ p.posted.op ≠ .putSignal ∨ ∃ h q, h.request = p ∧
    w.net.reqs h = some q ∧ q.state = .consumed ∧ st.Ok P w h q

/-- A put receive of `d` that MPI has not handed back. -/
structure Loaded (w : World) (d : Dev) (h : Handle) (q : MpiRequest) : Prop where
  req : w.net.reqs h = some q
  live : q.state ≠ .consumed
  op : h.request.posted.op = .putSignal
  device : h.comm.device = d
  own : h.request.posted.device = d
  buffer : h.request.posted.buffer = .putRbuf d
  size : toSize h.request.posted.length = (w.memory.bytes (.putRbuf d)).length
  comp : h.request.completion = w.devs.putComp d
  stored : ∀ st, q.state = .complete st → st.error = false → ∃ m, st.message = some m ∧
    m.payload.length ≤ (w.memory.bytes (.putRbuf d)).length ∧
      (w.memory.bytes (.putRbuf d)).take m.payload.length = m.payload

variable (cfg) in
/-- An operation that MPI answers with a null request is complete at once. -/
def atOnce (h : Option Handle) : Option Status :=
  if h.isNone then some cfg.indeterminate else none

variable (cfg) in
/-- An entry a manager keeps for an operation that is not complete, or was so at once. -/
structure Waiting (w : World) (e : Entry) : Prop where
  content : w.store.heap e.request = some e.request.posted
  result : w.net.result e.request = atOnce cfg e.mpiReq
  permit : PermitFits cfg e.request.posted.op (w.pend.permitOf e.request)

/-- What a completion object was told is right. -/
structure Delivery.Ok (w : World) (x : Delivery) : Prop where
  reported : ∃ st, w.net.result x.origin = some st ∧
    (x.origin.posted.op ≠ .putSignal → x.request = finalRequest cfg x.origin st) ∧
    (x.origin.posted.op = .putSignal → ∃ k,
      x.request = { received cfg x.origin.posted st with buffer := .heap k } ∧
        w.memory.given k = some x.origin ∧
        (P.on = true → ∃ m, st.message = some m ∧ x.contents = m.payload))

def toldTo (w : World) (p : RequestPtr) : Option Comp :=
  if (w.store.stage p).told then p.completion else none

variable (cfg) in
/-- Every operation is where its stage says, once. -/
structure Filed (w : World) : Prop where
  ptr : ∀ p, w.store.stage p ≠ .unborn → p.addr < w.store.nextPtr
  deque : Placed Entry.request w.store.entries (Stage.deque ∘ w.store.stage)
  conts : Placed Entry.request w.store.attached (Stage.conts ∘ w.store.stage)
  told : Placed Delivery.origin w.store.delivered (toldTo w)
  fifo : ∀ c, if cfg.isHandler c then w.store.cq c = [] ∧ w.store.polled c = []
    else w.store.delivered c = w.store.polled c ++ w.store.cq c

/-- What waits in a manager and what was delivered is what was posted. -/
structure Contents (w : World) : Prop where
  entries : ∀ m, ∀ e ∈ w.store.entries m, Waiting cfg w e
  attached : ∀ m, ∀ e ∈ w.store.attached m, Waiting cfg w e
  delivered : ∀ c, ∀ x ∈ w.store.delivered c, x.Ok P w

/-- Requests, messages and statuses belong to the operations they were made for. -/
structure Matching (w : World) : Prop where
  req : ∀ h q, w.net.reqs h = some q → q.Ok P w h
  complete : ∀ h q st, w.net.reqs h = some q → q.state = .complete st → st.Ok P w h q
  consumed : ∀ h q, w.net.reqs h = some q → q.state = .consumed →
    w.net.result h.request ≠ none
  result : ∀ p st, w.net.result p = some st → Reported P w p st
  resultBegun : ∀ p, w.net.result p ≠ none → (w.store.stage p).begun = true
  flying : ∀ m ∈ w.net.inflight, m.Ok P ∧ w.net.route m.request = .flying
  distinct : (w.net.inflight.map Message.request).Nodup
  sent : ∀ p, w.net.route p ≠ .unsent → (w.store.stage p).begun = true

/-- Permits are held by the thread or operation that will give them back. -/
structure Permits (w : World) : Prop where
  fresh : ∀ r a, w.pend.admitted r ≤ a → w.pend.holder r a = .released
  thread : ∀ r a t, w.pend.holder r a = .thread t ↔ t.rank = r ∧ w.pend.permit t = some a
  operation : ∀ r a p, w.pend.holder r a = .operation p ↔
    p.posted.device.rank = r ∧ w.pend.permitOf p = some a
  live : ∀ p, w.pend.permitOf p ≠ none → w.store.stage p ≠ .unborn ∧
    (w.store.stage p).told = false ∧ (p.posted.op = .send ∨ p.posted.op = .put)

/-- The put slot of a device holds the one put receive that is out for it, unless a thread is at
work on the slot. -/
structure Listening (w : World) (d : Dev) : Prop where
  armed : w.net.phase d = .armed → ∃ e h q, w.store.slot d = some e ∧ e.mpiReq = some h ∧
    Loaded w d h q ∧ w.store.stage h.request = .armed d ∧
      w.store.heap h.request = some h.request.posted ∧ w.net.result h.request = none ∧
        w.pend.permitOf h.request = none
  reposted : ∀ h, w.net.phase d = .reposted h → ∃ q, Loaded w d h q
  out : ∀ h q, w.net.reqs h = some q → q.state ≠ .consumed → h.request.posted.op = .putSignal →
    h.comm.device = d → w.net.phase d = .reposted h ∨ w.net.phase d = .armed ∧
      ∃ e, w.store.slot d = some e ∧ e.mpiReq = some h

/-- Put slots are worked on by one thread at a time, from the birth of their device on. -/
structure Homes (w : World) : Prop where
  free : ∀ d, w.sync.owner (.put d) = none → w.devs.builder d = none →
    w.net.phase d = .unborn ∨ w.net.phase d = .armed
  locked : ∀ d, w.sync.owner (.put d) ≠ none → w.devs.builder d = none ∧ w.net.phase d ≠ .unborn
  fresh : ∀ d : Dev, w.devs.nextAddr d.rank ≤ d.addr →
    w.net.phase d = .unborn ∧ w.devs.builder d = none ∧ w.devs.table d = none
  comp : P.on = true → ∀ d, w.devs.builder d ≠ none ∨ w.net.phase d ≠ .unborn →
    w.devs.putComp d ≠ none
  published : ∀ d, w.devs.published d = true →
    w.devs.builder d = none ∧ w.net.phase d ≠ .unborn
  table : ∀ d dev, w.devs.table d = some dev →
    (w.memory.bytes (.putRbuf d)).length = dev.putRbufSize ∧ dev.putRbufSize < 2 ^ 63 ∧
      (P.on = true → dev.putRbufSize = P.size d.rank dev.comm.context)

/-- A block belongs to a thread until it is given to the client. -/
structure Blocks (w : World) : Prop where
  block : ∀ k, w.memory.blockOwner k ≠ none → w.memory.given k = none ∧ k < w.memory.nextBlock
  given : ∀ k, w.memory.given k ≠ none → k < w.memory.nextBlock

structure Slots (w : World) : Prop extends Homes P w, Blocks w where
  listening : ∀ d, Listening w d

/-- A call in progress was one the client could make. -/
structure Call.Ok (w : World) (t : Tid) (c : Call) : Prop where
  device : ∀ d, c.device? = some d →
    d.rank = t.rank ∧ w.devs.builder d = none ∧ w.net.phase d ≠ .unborn
  buffer : ∀ b, c.buffer? = some b → w.accessible b = true
  alloc : P.on = true → ∀ n comp, c = .allocDevice n comp → comp ≠ none
  put : P.on = true → ∀ d rank buf len comp ctx, c = .put d rank buf len comp ctx →
    ∀ dev, w.devs.table d = some dev → PutFits P len (toInt rank).toNat dev.comm.context

/-- Operations answer to the calls that post them and the threads that hold them. -/
structure Calls (w : World) : Prop where
  ok : ∀ t, ∀ a ∈ w.client.acts t, a.call.Ok P w t
  added : ∀ t, ∀ a ∈ w.client.acts t, ∀ p, a.added = some p →
    (w.store.stage p).handed = true ∧ a.call.Posts cfg p.posted p.completion
  accepted : ∀ p, w.client.accepted p = true →
    (w.store.stage p).handed = true ∧ p.posted.op ≠ .putSignal
  accounted : ∀ p, p.posted.op ≠ .putSignal → (w.store.stage p).handed = true →
    w.client.accepted p = true ∨ ∃ t, ∃ a ∈ w.client.acts t, a.added = some p
  owned : ∀ p t k, w.store.stage p = .owned t k → w.client.acts t ≠ []
  held : ∀ p t, cfg.compType = .request → p.posted.op ≠ .putSignal →
    w.store.stage p = .owned t .held → ∃ d a rest, w.client.acts t = ⟨.doProgress d, a⟩ :: rest
  buffer : ∀ p, p.posted.op ≠ .putSignal → w.store.stage p ≠ .unborn →
    w.accessible p.posted.buffer = true

structure Books (w : World) : Prop where
  filed : Filed cfg w
  contents : Contents P w
  matching : Matching P w
  permits : Permits w
  slots : Slots P w
  calls : Calls P w

/-- A user operation's own failure. -/
def Failure.OfUser : Failure → Prop
  | .mpiTestFailed (some h) => h.request.posted.op ≠ .putSignal
  | .nullCompletion p | .continuationFailed p => p.posted.op ≠ .putSignal
  | _ => False

section Contract

namespace Account

variable (cfg) in
/-- Client code runs while the thread has nothing in hand but requests already signalled. -/
structure Idle (v : Account) : Prop where
  permit : v.permit = none
  passed : v.passed = false
  spent : cfg.compType = .request → ∀ p x, v.token p = some x → x.kind = .spent
  rooted : v.acts = [] → ∀ p, v.token p = none

/-- MPI is called from inside an API call, past admission. -/
structure Calm (v : Account) : Prop where
  permit : v.permit = none
  passed : v.passed = false
  acts : v.acts ≠ []

variable (cfg) in
/-- A call ends: it has handed over what it posted, and its device is ready. -/
structure MayReturn (v : Account) (r : CallResult) : Prop where
  idle : (v.setActs v.acts.tail).Idle cfg
  act : ∃ a rest, v.acts = a :: rest ∧ (∀ p, a.added = some p → r = .bool true) ∧
    (a.call.isPost = true → r = .bool true → a.added.isSome = true)
  device : ∀ d, r = .device d → ∃ s, v.slot d = some s ∧ s.phase = .armed ∧ s.building = true

variable (cfg) in
structure MayPost (v : Account) (t : Tid) (q : Request) (c : Option Comp) : Prop where
  op : q.op ≠ .putSignal
  act : ∃ a rest, v.acts = a :: rest ∧ a.call.Posts cfg q c
  permit : PermitFits cfg q.op v.permit
  rank : q.device.rank = t.rank

structure MayArm (v : Account) (q : Request) (c : Option Comp) : Prop where
  op : q.op = .putSignal
  permit : v.permit = none
  acts : v.acts ≠ []
  slot : ∃ s, v.slot q.device = some s ∧ c = s.comp

/-- A request just created may be started. -/
structure MayStart (v : Account) (a : Buffer) (n : Int) (ty : Datatype) (tag : Int) (comm : Comm)
    (p : RequestPtr) : Prop where
  calm : v.Calm
  token : ∃ x, v.token p = some x ∧ x.kind = .posting ∧ x.result = none
  buffer : a = p.posted.buffer
  layout : Datatype.layout n ty = consecutive (toSize p.posted.length)
  admitted : toSize p.posted.length / intMax < intMax
  narrowed : tag = toInt p.posted.tag
  device : comm.device = p.posted.device

structure MaySend (v : Account) (t : Tid) (a : Buffer) (n : Int) (ty : Datatype) (dest tag : Int)
    (comm : Comm) (p : RequestPtr) : Prop extends v.MayStart a n ty tag comm p where
  op : p.posted.op = .send ∨ p.posted.op = .put
  rank : p.posted.device.rank = t.rank
  target : dest = toInt p.posted.rank
  putTag : p.posted.op = .put → p.posted.tag = cfg.maxTag
  put : P.on = true → p.posted.op = .put → PutFits P p.posted.length dest.toNat comm.context
  send : P.tagged = true → p.posted.op = .send → UserTag cfg p.posted.tag

structure MayRecv (v : Account) (a : Buffer) (n : Int) (ty : Datatype) (source tag : Int)
    (comm : Comm) (p : RequestPtr) : Prop extends v.MayStart a n ty tag comm p where
  op : p.posted.op = .recv
  peer : source = toInt p.posted.rank
  recvTag : P.tagged = true → UserTag cfg p.posted.tag

structure MayListen (v : Account) (a : Buffer) (n : Int) (ty : Datatype) (source tag : Int)
    (comm : Comm) (p : RequestPtr) : Prop extends v.MayStart a n ty tag comm p where
  op : p.posted.op = .putSignal
  peer : source = cfg.anySource
  own : p.posted.buffer = .putRbuf p.posted.device
  slot : ∃ s, v.slot p.posted.device = some s ∧ (s.phase = .unborn ∨ s.phase = .copied) ∧
    toSize p.posted.length = s.size ∧ p.completion = s.comp
  putTag : p.posted.tag = cfg.maxTag
  put : P.on = true → toSize p.posted.length = P.size comm.device.rank comm.context

variable (cfg) in
/-- An entry may be given to a manager. -/
structure MayHand (v : Account) (e : Entry) : Prop where
  token : ∃ x, v.token e.request = some x ∧ x.content = some e.request.posted ∧
    x.result = atOnce cfg e.mpiReq ∧ PermitFits cfg e.request.posted.op x.permit ∧
      (x.kind = .held ∨ x.kind = .started ∧ ∃ a rest, v.acts = a :: rest ∧ a.added = none ∧
        a.call.Posts cfg e.request.posted e.request.completion)

/-- A completed operation may be delivered. -/
structure MaySignal (v : Account) (c : Comp) (q : Request) (p : RequestPtr) : Prop where
  token : ∃ st, v.token p = some ⟨.held, some q, some st, none⟩ ∧
    (p.posted.op ≠ .putSignal → q = finalRequest cfg p st) ∧
    (p.posted.op = .putSignal → ∃ k b,
      q = { received cfg p.posted st with buffer := .heap k } ∧ v.block k = some b ∧
        (P.on = true → ∃ m, st.message = some m ∧ b = m.payload))
  completion : p.completion = some c

/-- The test of an operation held by the thread, or of the put slot it controls. -/
structure MayTest (v : Account) (h : Handle) : Prop where
  calm : v.Calm
  held : h.request.posted.op ≠ .putSignal → ∃ x, v.token h.request = some x ∧
    x.kind = .held ∧ x.result = none
  slot : h.request.posted.op = .putSignal → ∃ s e, v.slot h.comm.device = some s ∧
    s.phase = .armed ∧ s.entry = some e ∧ e.mpiReq = some h

/-- Under the put rules `do_progress` stops for failures of user operations only. -/
def MayFail (v : Account) (f : Failure) : Prop :=
  P.on = true → ∀ d a rest, v.acts = ⟨.doProgress d, a⟩ :: rest → f.OfUser

variable (cfg) in
/-- A request was started and answered with a handle, or with none. -/
def Started (v v' : Account) (p : RequestPtr) (h : Option Handle) : Prop :=
  ∃ x, v.token p = some x ∧ v' = v.setToken p (some { x with
    kind := .started, result := atOnce cfg h })

/-- The account after a completion object was told. -/
def told (v : Account) (q : Request) (p : RequestPtr) (st : Status) : Account :=
  let v := v.setToken p (some ⟨.spent, some q, some st, none⟩)
  match q.op, q.buffer with
  | .putSignal, .heap k => v.setBlock k none
  | _, _ => v

/-- The account after an entry was handed over. -/
def handed (v : Account) (p : RequestPtr) (k : Owning) : Account :=
  let v := v.setToken p none
  match k, v.acts with
  | .started, a :: rest => v.setActs ({ a with added := some p } :: rest)
  | _, _ => v

end Account

/-- The put slot of a device in its resting state. -/
structure SlotView.Armed (d : Dev) (s : SlotView) : Prop where
  comp : P.on = true → s.comp ≠ none
  phase : s.phase = .armed
  building : s.building = false
  entry : ∃ e h, s.entry = some e ∧ e.mpiReq = some h ∧ e.completion = s.comp ∧ e.SlotOf d ∧
    e.request.posted.buffer = .putRbuf d
  admitted : s.size / intMax < intMax

/-- The buffer of a put slot holds the message its receive reported. -/
structure SlotView.Took (s : SlotView) (st : Status) : Prop where
  phase : s.phase = .taken st
  stored : ∃ m, st.message = some m ∧ m.Ok P ∧ s.rbuf.take m.payload.length = m.payload ∧
    (P.on = true → m.payload.length ≤ intMax)

/-- What a thread must have in hand for an operation. -/
def ledgerPre (t : Tid) (o : Op) (v : Account) : Prop :=
  (t.rank < cfg.nranks ∧ t.index < cfg.nthreads) ∧
  match o with
  | .userCode => v.Idle cfg
  | .endCall r => v.MayReturn cfg r
  | .loadPending => v.permit = none ∧ v.passed = false
  | .fetchAddPending => v.permit = none ∧ v.passed = true ∧
      ∃ a rest, v.acts = a :: rest ∧ a.call.throttled = true
  | .fetchSubPending p => p.posted.device.rank = t.rank ∧
      ∃ x, v.token p = some x ∧ x.kind = .held ∧ x.permit.isSome = true
  | .tryLock (.put d) => ∃ a rest, v.acts = ⟨.doProgress d, a⟩ :: rest
  | .unlock (.put d) => ∃ s, v.slot d = some s ∧ s.phase = .armed
  | .newRequest q c => v.MayPost cfg t q c ∨ v.MayArm q c
  | .readRequest p | .writeRequest p _ => ∃ x, v.token p = some x ∧ x.kind ≠ .spent
  | .deleteRequest p => ∃ x, v.token p = some x ∧ x.kind = .spent ∧ x.permit = none
  | .pushBack _ e => v.MayHand cfg e
  | .popFront m => m.rank = t.rank ∧ ∃ d a rest, v.acts = ⟨.doProgress d, a⟩ :: rest
  | .writeSlot d e => ∃ s h, v.slot d = some s ∧ s.phase = .reposted h ∧ e.mpiReq = some h ∧
      v.token e.request = some ⟨.started, some e.request.posted, none, none⟩
  | .clearSlot d => ∃ s st, v.slot d = some s ∧ s.phase = .taken st
  | .isend a n ty dest tag comm p => v.MaySend P t a n ty dest tag comm p
  | .irecv a n ty source tag comm p =>
    v.MayRecv P a n ty source tag comm p ∨ v.MayListen P a n ty source tag comm p
  | .test (some h) => v.MayTest h
  | .continue _ e _ => v.Calm ∧ v.MayHand cfg e
  | .test none | .continueReturn _ | .testContReq _ | .startContReq _ | .barrier _
  | .commCreate _ | .commFree _ => v.Calm
  | .allocate n => ∃ d s st, v.slot d = some s ∧ s.Took P st ∧ n = toSize (getCount cfg st)
  | .memcpy dst src _ => ∃ d k s st, src = .putRbuf d ∧ dst = .heap k ∧ v.slot d = some s ∧
      s.phase = .taken st ∧ ∃ b, v.block k = some b
  | .signal c q p => v.MaySignal P c q p
  | .newDevice => ∃ n c a rest, v.acts = ⟨.allocDevice n c, a⟩ :: rest
  | .initDevice d dev => ∃ s, v.slot d = some s ∧ s.phase = .unborn ∧ dev.putRbufSize < 2 ^ 63
  | .abort f => v.MayFail P f
  | _ => True

/-- What an operation changes of what the thread has in hand. -/
def ledgerPost (t : Tid) (o : Op) (v : Account) (r : o.Ret) (v' : Account) : Prop :=
  match o with
  | .endCall x => match x with
    | .device d => v' = (v.setActs v.acts.tail).setSlot d none
    | _ => v' = v.setActs v.acts.tail
  | .loadPending => v' = v.setPassed (decide ((r : Int) ≤ cfg.pendingMsgMax))
  | .fetchAddPending => ∃ a, v' = (v.setPassed false).setPermit (some a)
  | .fetchSubPending p => ∃ x, v.token p = some x ∧
      v' = v.setToken p (some { x with permit := none })
  | .tryLock (.put d) => match (r : Bool) with
    | true => v.slot d = none ∧ ∃ s, s.Armed P d ∧ v' = v.setSlot d (some s)
    | false => v' = v
  | .unlock (.put d) => v' = v.setSlot d none
  | .newRequest q _ => v.token r = none ∧
      v' = (v.setToken r (some ⟨.posting, some q, none, v.permit⟩)).setPermit none
  | .readRequest p => v' = v ∧ ∃ x, v.token p = some x ∧ x.content = some r
  | .writeRequest p q => ∃ x, v.token p = some x ∧
      v' = v.setToken p (some { x with content := some q })
  | .deleteRequest p => v' = v.setToken p none
  | .pushBack _ e | .continue _ e _ => ∃ x, v.token e.request = some x ∧
      v' = v.handed e.request x.kind
  | .popFront _ => v.token (Entry.request r) = none ∧ ∃ a,
      PermitFits cfg (Entry.request r).posted.op a ∧ v' = v.setToken (Entry.request r)
        (some ⟨.held, some (Entry.request r).posted, atOnce cfg (Entry.mpiReq r), a⟩)
  | .slotRequest d => v' = v ∧ ∀ s, v.slot d = some s → ∃ e, s.entry = some e ∧ r = e.mpiReq
  | .readSlot d => v' = v ∧ ∀ s, v.slot d = some s → s.entry = some r
  | .writeSlot d e => ∃ s, v.slot d = some s ∧
      v' = (v.setSlot d (some { s with entry := some e, phase := .armed, rbuf := [] })).setToken
        e.request none
  | .clearSlot d => ∃ s e, v.slot d = some s ∧ s.entry = some e ∧
      v' = v.setSlot d (some { s with entry := some { e with mpiReq := none } })
  | .isend _ _ _ _ _ _ p => match (r : Option (Option Handle)) with
    | none => v' = v
    | some h => v.Started cfg v' p h
  | .irecv _ _ _ _ _ _ p => match (r : Option (Option Handle)) with
    | none => v' = v ∧ (P.on = true → p.posted.op ≠ .putSignal)
    | some h => if p.posted.op = .putSignal then
        ∃ s k u, v.slot p.posted.device = some s ∧ h = some k ∧ v.Started cfg u p h ∧
          v' = u.setSlot p.posted.device (some { s with phase := .reposted k, rbuf := [] })
      else v.Started cfg v' p h
  | .test (some h) => match (r : TestResult) with
    | .notYet => v' = v
    | .failed => v' = v ∧ (P.on = true → h.request.posted.op ≠ .putSignal)
    | .done st => if h.request.posted.op = .putSignal then
        v.token h.request = none ∧ ∃ s s', v.slot h.comm.device = some s ∧ s'.Took P st ∧
          s' = { s with phase := .taken st, rbuf := s'.rbuf } ∧
          v' = (v.setSlot h.comm.device (some s')).setToken h.request
            (some ⟨.held, some h.request.posted, some st, none⟩)
      else ∃ x, v.token h.request = some x ∧
        v' = v.setToken h.request (some { x with result := some st })
  | .allocate n => match (r : Option Buffer) with
    | none => v' = v ∧ ¬ n < 2 ^ 63
    | some b => ∃ k bytes, b = .heap k ∧ v.block k = none ∧ v' = v.setBlock k (some bytes)
  | .memcpy dst src n => ∃ d k s, src = .putRbuf d ∧ dst = .heap k ∧ v.slot d = some s ∧
      v' = (v.setSlot d (some { s with phase := .copied, rbuf := [] })).setBlock k
        (some (s.rbuf.take n))
  | .signal _ q p => ∃ st, v.token p = some ⟨.held, some q, some st, none⟩ ∧ v' = v.told q p st
  | .newDevice => v.slot r = none ∧ Dev.rank r = t.rank ∧ ∃ s, v' = v.setSlot r (some s) ∧
      s.phase = .unborn ∧ s.building = true ∧
        ∀ n c a rest, v.acts = ⟨.allocDevice n c, a⟩ :: rest → s.comp = c
  | .readDevice d => v' = v ∧ Device.Of cfg d r ∧ Device.putRbufSize r < 2 ^ 63 ∧
      (P.on = true → Device.putRbufSize r = P.size d.rank (Device.comm r).context) ∧
      (∀ s, v.slot d = some s → s.size = Device.putRbufSize r) ∧
      ∀ rank buf len comp ctx a rest, v.acts = ⟨.put d rank buf len comp ctx, a⟩ :: rest →
        P.on = true → PutFits P len (toInt rank).toNat (Device.comm r).context
  | .initDevice d dev => ∃ s, v.slot d = some s ∧
      v' = v.setSlot d (some { s with size := dev.putRbufSize })
  | _ => v' = v

variable (cfg) in
/-- What the rules of the data say of an answer, whatever the thread holds. -/
def Op.Answers (t : Tid) (o : Op) (r : o.Ret) : Prop :=
  ∃ v v', structurePost cfg .none t o v r v'

def ledgerContract (t : Tid) : Contract Op Op.Ret Account where
  pre := ledgerPre P t
  post o v r v' := ledgerPost P t o v r v' ∧ o.Answers cfg t r

/-- The runs the books are kept for: all of them, those with user tags in their range, or those in
which also puts are within limits. -/
def Orderly (s : (machine cfg).State) (e : (machine cfg).Event) : Prop :=
  match e with
  | .exec t => match nextOp s t with
    | some (.initDevice d dev) =>
      P.on = true → dev.putRbufSize = P.size d.rank dev.comm.context
    | _ => True
  | .intr _ (.call c) => match c with
    | .send _ _ tag .. | .recv _ _ tag .. => P.tagged = true → UserTag cfg tag
    | .put d rank _ len .. => P.on = true → ∀ dev, s.shared.devs.table d = some dev →
        PutFits P len (toInt rank).toNat dev.comm.context
    | .allocDevice _ c => P.on = true → c ≠ none
    | _ => True
  | _ => True

end Contract

end Lcw.Mpi
