/- digest: The shared state of all processes and the atomic operations threads perform on it. -/

import Lcw.Mpi.Types
import Mathlib.Logic.Function.Basic

set_option autoImplicit false
set_option relaxedAutoImplicit false

namespace Lcw.Mpi

/-- What threads ask of memory, locks, MPI and completion objects, one atomic effect each. -/
inductive Op
  /-- Code of the client, at top level or in a completion handler: further calls may follow. -/
  | userCode
  | endCall (r : CallResult)
  | loadPending
  | fetchAddPending
  | fetchSubPending (p : RequestPtr)
  | lock (l : Lock)
  | tryLock (l : Lock)
  | unlock (l : Lock)
  | newRequest (q : Request) (c : Option Comp)
  | readRequest (p : RequestPtr)
  | writeRequest (p : RequestPtr) (q : Request)
  | deleteRequest (p : RequestPtr)
  | entriesEmpty (m : Manager)
  | pushBack (m : Manager) (e : Entry)
  | popFront (m : Manager)
  | slotRequest (d : Dev)
  | readSlot (d : Dev)
  | writeSlot (d : Dev) (e : Entry)
  | clearSlot (d : Dev)
  | isend (a : Buffer) (count : Int) (ty : Datatype) (dest tag : Int) (comm : Comm)
      (p : RequestPtr)
  | irecv (a : Buffer) (count : Int) (ty : Datatype) (source tag : Int) (comm : Comm)
      (p : RequestPtr)
  | test (h : Option Handle)
  | continue (m : Manager) (e : Entry) (flags : ContFlags)
  | continueReturn (h : Option Handle)
  | testContReq (m : Manager)
  | startContReq (m : Manager)
  | barrier (comm : Comm)
  | allocate (n : Nat)
  | memcpy (dst src : Buffer) (n : Nat)
  | signal (c : Comp) (q : Request) (p : RequestPtr)
  | cqPop (c : Comp)
  | pcounterAdd (k : Counter)
  | newDevice
  | fetchAddNdevices
  | commCreate (d : Dev)
  | initDevice (d : Dev) (dev : Device)
  | readDevice (d : Dev)
  | commFree (comm : Comm)
  | deleteDevice (d : Dev)
  /-- A continuation returns to the MPI call it ran in. -/
  | endCallback
  | abort (f : Failure)

/-- The reply of an operation. Starting a communication answers `none` for an error code. -/
abbrev Op.Ret : Op → Type
  | .loadPending => Int
  | .tryLock _ | .entriesEmpty _ | .testContReq _ => Bool
  | .newRequest .. => RequestPtr
  | .readRequest _ => Request
  | .popFront _ | .readSlot _ => Entry
  | .slotRequest _ => Option Handle
  | .isend .. | .irecv .. => Option (Option Handle)
  | .test _ => TestResult
  | .allocate _ => Option Buffer
  | .cqPop _ => Option Request
  | .newDevice => Dev
  | .fetchAddNdevices => Nat
  | .commCreate _ => Comm
  | .readDevice _ => Device
  | .abort _ => Empty
  | _ => Unit

def Op.isUserCode : Op → Bool
  | .userCode => true
  | _ => false

theorem Op.isUserCode_iff {o : Op} : o.isUserCode = true ↔ o = .userCode := by
  cases o <;> simp [isUserCode]

/-- Calls into the MPI library, where MPI may also run continuations. -/
def Op.isMpi : Op → Bool
  | .isend .. | .irecv .. | .test _ | .continue .. | .continueReturn _ | .testContReq _
  | .startContReq _ | .barrier _ | .commCreate _ | .commFree _ => true
  | _ => false

/-- The device whose stream a communication call works on, by its communicator or request. -/
def Op.streamDevice : Op → Option Dev
  | .isend _ _ _ _ _ comm _ | .irecv _ _ _ _ _ comm _ | .barrier comm => some comm.device
  | .test (some h) | .continueReturn (some h) => some h.comm.device
  | .continue _ e _ => some e.device
  | _ => none

/-- Who answers for an admitted SEND or PUT: the posting thread before the request exists, then
the operation, until its `fetch_sub`. -/
inductive Holder
  | thread (t : Tid)
  | operation (p : RequestPtr)
  | released
  deriving DecidableEq

/-- What a thread does with a `request_t` that only it knows of. -/
inductive Owning
  | posting | started | held | spent
  deriving DecidableEq

/-- Where an operation is between its post and its delivery. -/
inductive Stage
  | unborn
  | owned (t : Tid) (k : Owning)
  | queued (m : Manager)
  | attached (m : Manager)
  | armed (d : Dev)
  | gone
  deriving DecidableEq

/-- Progress of a device's put receive around its one buffer. -/
inductive Phase
  | unborn
  | reposted (h : Handle)
  | armed
  | taken (st : Status)
  | copied
  deriving DecidableEq

/-- Where the message of a send or put is. -/
inductive Route
  | unsent
  | flying
  | matched (h : Handle)
  deriving DecidableEq

inductive ReqState
  | pending
  | complete (st : Status)
  | consumed
  deriving DecidableEq

/-- What MPI keeps for a request: a receive's `peer` is its source or the wildcard. -/
structure MpiRequest where
  isRecv : Bool
  buffer : Buffer
  layout : List Int
  peer : Int
  tag : Int
  state : ReqState

/-- A delivery to a completion object: the request passed by value, and as history the
operation it completes and what its buffer holds at that moment. -/
structure Delivery where
  request : Request
  origin : RequestPtr
  contents : List Byte
  deriving DecidableEq

/-- The owners of the spinlocks. History: the MPI calls a thread runs continuations in. -/
structure Sync where
  owner : Lock → Option Tid
  inside : Tid → List Op

/-- `g_pending_msg` of each process. History: the permits issued by `fetch_add`, who holds each,
and the threads whose admission check has passed. -/
structure Pending where
  value : Rank → Int
  admitted : Rank → Nat
  holder : Rank → Nat → Holder
  permit : Tid → Option Nat
  permitOf : RequestPtr → Option Nat
  passed : Tid → Bool

/-- `request_t` objects, the managers' deques and registered continuations, the put slots, and
the completion queues. History: the stage of each operation, and every delivery. -/
structure Store where
  heap : RequestPtr → Option Request
  nextPtr : Nat
  entries : Manager → List Entry
  attached : Manager → List Entry
  slot : Dev → Option Entry
  cq : Comp → List Delivery
  polled : Comp → List Delivery
  delivered : Comp → List Delivery
  stage : RequestPtr → Stage

/-- Requests and messages MPI works on. History: the status with which an operation was reported
complete, the way of each message, and the phase of each put receive. -/
structure Net where
  reqs : Handle → Option MpiRequest
  nextHandle : Nat
  inflight : List Message
  contexts : Rank → Nat
  live : Comm → Bool
  result : RequestPtr → Option Status
  route : RequestPtr → Route
  phase : Dev → Phase

/-- Memory contents. History: the thread that allocated a block and has not passed it on, and
the PUT_SIGNAL that gave a block to the client. -/
structure Memory where
  bytes : Buffer → List Byte
  nextBlock : Nat
  blockOwner : Nat → Option Tid
  given : Nat → Option RequestPtr

/-- The devices. History: the thread that is still allocating one, and the completion object its
puts go to. -/
structure Devices where
  table : Dev → Option Device
  nextAddr : Rank → Nat
  ndevices : Rank → Nat
  published : Dev → Bool
  builder : Dev → Option Tid
  putComp : Dev → Option Comp

/-- A call in progress, and the operation it has handed to a manager. -/
structure Activation where
  call : Call
  added : Option RequestPtr
  deriving DecidableEq

/-- History of the client: the calls each thread is in, and the operations whose post returned
true. -/
structure Client where
  acts : Tid → List Activation
  accepted : RequestPtr → Bool

structure World where
  sync : Sync
  pend : Pending
  store : Store
  net : Net
  memory : Memory
  devs : Devices
  client : Client
  counters : Rank → Counter → Nat

open Function (update)

namespace World

variable (cfg : Config) (t : Tid)

def setStage (w : World) (p : RequestPtr) (s : Stage) : World :=
  { w with store := { w.store with stage := update w.store.stage p s } }

def setOwner (w : World) (l : Lock) (o : Option Tid) : World :=
  { w with sync := { w.sync with owner := update w.sync.owner l o } }

def setInside (w : World) (os : List Op) : World :=
  { w with sync := { w.sync with inside := update w.sync.inside t os } }

def setReq (w : World) (h : Handle) (q : MpiRequest) : World :=
  { w with net := { w.net with reqs := update w.net.reqs h (some q) } }

def setPhase (w : World) (d : Dev) (x : Phase) : World :=
  { w with net := { w.net with phase := update w.net.phase d x } }

def setResult (w : World) (p : RequestPtr) (st : Status) : World :=
  { w with net := { w.net with result := update w.net.result p (some st) } }

/-- A call returns; a post that returns true is from now on accepted. -/
def endCall (w : World) (r : CallResult) : World :=
  let added := (w.client.acts t).head?.bind Activation.added
  let accepted : RequestPtr → Bool := match r, added with
    | .bool true, some p => update w.client.accepted p true
    | _, _ => w.client.accepted
  let devs : Devices := match r with
    | .device d => { w.devs with
        published := update w.devs.published d true
        builder := update w.devs.builder d none }
    | _ => w.devs
  { w with devs, client := ⟨update w.client.acts t (w.client.acts t).tail, accepted⟩ }

def loadPending (w : World) : Int × World :=
  let v := w.pend.value t.rank
  (v, { w with pend := { w.pend with
    passed := update w.pend.passed t (decide (v ≤ cfg.pendingMsgMax)) } })

def fetchAddPending (w : World) : World :=
  let p := w.pend
  let r := t.rank
  let a := p.admitted r
  { w with pend := { p with
      value := update p.value r (toInt (p.value r + 1))
      admitted := update p.admitted r (a + 1)
      holder := update p.holder r (update (p.holder r) a (.thread t))
      permit := update p.permit t (some a)
      passed := update p.passed t false } }

def fetchSubPending (w : World) (q : RequestPtr) : World :=
  let p := w.pend
  let r := t.rank
  { w with pend := { p with
      value := update p.value r (toInt (p.value r - 1))
      holder := match p.permitOf q with
        | some a => update p.holder r (update (p.holder r) a .released)
        | none => p.holder
      permitOf := update p.permitOf q none } }

/-- The permit of the posting thread passes to the operation it posts. -/
def bindPermit (w : World) (q : RequestPtr) : World :=
  match w.pend.permit t with
  | some a => { w with pend := { w.pend with
      holder := update w.pend.holder t.rank
        (update (w.pend.holder t.rank) a (.operation q))
      permit := update w.pend.permit t none
      permitOf := update w.pend.permitOf q (some a) } }
  | none => w

def freshPtr (w : World) (q : Request) (c : Option Comp) : RequestPtr := ⟨w.store.nextPtr, q, c⟩

def newRequest (w : World) (q : Request) (c : Option Comp) : World :=
  let p := w.freshPtr q c
  let w := if q.op = .send ∨ q.op = .put then w.bindPermit t p else w
  { w with store := { w.store with
      heap := update w.store.heap p (some q)
      nextPtr := w.store.nextPtr + 1
      stage := update w.store.stage p (.owned t .posting) } }

def setHeap (w : World) (p : RequestPtr) (q : Option Request) : World :=
  { w with store := { w.store with heap := update w.store.heap p q } }

/-- The call in progress has handed an operation to its manager. -/
def noteAdded (w : World) (p : RequestPtr) : World :=
  match w.client.acts t, w.store.stage p with
  | a :: rest, .owned _ .started => { w with client := { w.client with
      acts := update w.client.acts t ({ a with added := some p } :: rest) } }
  | _, _ => w

def pushBack (w : World) (m : Manager) (e : Entry) : World :=
  let w := w.noteAdded t e.request
  { w with store := { w.store with
      entries := update w.store.entries m (w.store.entries m ++ [e])
      stage := update w.store.stage e.request (.queued m) } }

def popFront (w : World) (m : Manager) (e : Entry) (rest : List Entry) : World :=
  { w with store := { w.store with
      entries := update w.store.entries m rest
      stage := update w.store.stage e.request (.owned t .held) } }

def setSlot (w : World) (d : Dev) (e : Entry) : World :=
  { w with store := { w.store with slot := update w.store.slot d (some e) } }

def freshHandle (w : World) (comm : Comm) (p : RequestPtr) : Handle := ⟨w.net.nextHandle, comm, p⟩

/-- Start a request; a null answer means MPI has already finished with it, and leaves no
status to read. -/
def start (w : World) (null : Bool) (comm : Comm) (p : RequestPtr) (q : MpiRequest) :
    Option Handle × World :=
  let h := w.freshHandle comm p
  let w := { w with net := { w.net with nextHandle := w.net.nextHandle + 1 } }
  let w := w.setStage p (.owned t .started)
  if null then (none, w.setResult p cfg.indeterminate) else (some h, w.setReq h q)

def enqueue (w : World) (m : Message) : World :=
  { w with net := { w.net with
      inflight := w.net.inflight ++ [m]
      route := update w.net.route m.request .flying } }

/-- The message a send makes of the bytes it finds in memory. -/
def message (w : World) (a : Buffer) (layout : List Int) (dest tag : Int) (comm : Comm)
    (p : RequestPtr) : Message :=
  ⟨t.rank, dest.toNat, comm.context, tag, gather (w.memory.bytes a) layout, p⟩

def isend (w : World) (a : Buffer) (layout : List Int) (dest tag : Int) (comm : Comm)
    (p : RequestPtr) : Option Handle × World :=
  (w.enqueue (w.message t a layout dest tag comm p)).start cfg t
    (cfg.nullHandle w.net.nextHandle) comm p ⟨false, a, layout, dest, tag, .pending⟩

/-- A put receive that is started is the one its device waits for. -/
def expect (w : World) (comm : Comm) (p : RequestPtr) : World :=
  if p.posted.op = .putSignal
    then w.setPhase comm.device (.reposted (w.freshHandle comm p)) else w

/-- A wildcard receive always has a handle, since its status must be reported. -/
def irecv (w : World) (a : Buffer) (layout : List Int) (source tag : Int) (comm : Comm)
    (p : RequestPtr) : Option Handle × World :=
  (w.expect comm p).start cfg t (cfg.nullHandle w.net.nextHandle && source != cfg.anySource)
    comm p ⟨true, a, layout, source, tag, .pending⟩

def emptyStatus : Status := ⟨cfg.anySource, cfg.anySource, none, false⟩

/-- `MPI_Test` reads the request's state; a successful test consumes the request. -/
def test (w : World) (h : Option Handle) : TestResult × World :=
  match h with
  | none => (.done (emptyStatus cfg), w)
  | some h =>
    match w.net.reqs h with
    | some q =>
      match q.state with
      | .pending => (.notYet, w)
      | .consumed => (.failed, w)
      | .complete st =>
        if st.error then (.failed, w)
        else
          let w := (w.setReq h { q with state := .consumed }).setResult h.request st
          if h.request.posted.op = .putSignal then
            (.done st, (w.setPhase h.comm.device (.taken st)).setStage h.request (.owned t .held))
          else (.done st, w)
    | none => (.failed, w)

def attach (w : World) (m : Manager) (e : Entry) : World :=
  let w := w.noteAdded t e.request
  { w with store := { w.store with
      attached := update w.store.attached m (w.store.attached m ++ [e])
      stage := update w.store.stage e.request (.attached m) } }

def memcpy (w : World) (dst src : Buffer) (n : Nat) : World :=
  let w := { w with memory := { w.memory with
      bytes := update w.memory.bytes dst ((w.memory.bytes src).take n) } }
  match src with
  | .putRbuf d => w.setPhase d .copied
  | _ => w

/-- The block of a PUT_SIGNAL passes to the client with it. -/
def giveBlock (w : World) (q : Request) (p : RequestPtr) : World :=
  match q.op, q.buffer with
  | .putSignal, .heap k => { w with memory := { w.memory with
      blockOwner := update w.memory.blockOwner k none
      given := update w.memory.given k (some p) } }
  | _, _ => w

def signal (w : World) (c : Comp) (q : Request) (p : RequestPtr) : World :=
  let x : Delivery := ⟨q, p, w.memory.bytes q.buffer⟩
  let w := w.giveBlock q p
  { w with store := { w.store with
      delivered := update w.store.delivered c (w.store.delivered c ++ [x])
      cq := if cfg.isHandler c then w.store.cq
        else update w.store.cq c (w.store.cq c ++ [x])
      stage := update w.store.stage p (.owned t .spent) } }

def cqPop (w : World) (c : Comp) : Option Request × World :=
  match w.store.cq c with
  | [] => (none, w)
  | x :: rest => (some x.request, { w with store := { w.store with
      cq := update w.store.cq c rest
      polled := update w.store.polled c (w.store.polled c ++ [x]) } })

def addCounter (w : World) (r : Rank) (k : Counter) : World :=
  let counts := update (w.counters r) k (w.counters r k + 1)
  { w with counters := update w.counters r counts }

/-- A device begins its life in the call that allocates it. -/
def newDevice (w : World) : Dev × World :=
  let d : Dev := ⟨t.rank, w.devs.nextAddr t.rank⟩
  let comp := match (w.client.acts t).head?.map Activation.call with
    | some (.allocDevice _ c) => c
    | _ => none
  (d, { w with devs := { w.devs with
    nextAddr := update w.devs.nextAddr t.rank (w.devs.nextAddr t.rank + 1)
    builder := update w.devs.builder d (some t)
    putComp := update w.devs.putComp d comp } })

def setDevice (w : World) (d : Dev) (dev : Option Device) : World :=
  { w with devs := { w.devs with table := update w.devs.table d dev } }

end World

/-- `max_tag` as `alloc_device` obtains it. -/
def Config.maxTag (cfg : Config) : Int := cfg.tagUB.getD 32767

/-- Arguments MPI accepts; for others the call returns an error code. -/
def Config.validSend (cfg : Config) (dest tag : Int) : Bool :=
  0 ≤ dest && dest < cfg.nranks && 0 ≤ tag && tag ≤ cfg.maxTag

def Config.validRecv (cfg : Config) (source tag : Int) : Bool :=
  (source == cfg.anySource || (0 ≤ source && source < cfg.nranks)) && 0 ≤ tag && tag ≤ cfg.maxTag

open World in
/-- One atomic operation of a thread; `none` blocks it, or is undefined behaviour. -/
def exec (cfg : Config) (t : Tid) : (o : Op) → World → Option (o.Ret × World)
  | .userCode, w => some ((), w)
  | .endCall r, w => some ((), w.endCall t r)
  | .loadPending, w => some (w.loadPending cfg t)
  | .fetchAddPending, w => some ((), w.fetchAddPending t)
  | .fetchSubPending p, w => some ((), w.fetchSubPending t p)
  | .lock l, w => if w.sync.owner l = none then some ((), w.setOwner l (some t)) else none
  | .tryLock l, w =>
    if w.sync.owner l = none then some (true, w.setOwner l (some t)) else some (false, w)
  | .unlock l, w => some ((), w.setOwner l none)
  | .newRequest q c, w => some (w.freshPtr q c, w.newRequest t q c)
  | .readRequest p, w => (w.store.heap p).map fun q => (q, w)
  | .writeRequest p q, w => (w.store.heap p).map fun _ => ((), w.setHeap p (some q))
  | .deleteRequest p, w => (w.store.heap p).map fun _ => ((), (w.setHeap p none).setStage p .gone)
  | .entriesEmpty m, w => some ((w.store.entries m).isEmpty, w)
  | .pushBack m e, w => some ((), w.pushBack t m e)
  | .popFront m, w =>
    match w.store.entries m with
    | [] => none
    | e :: rest => some (e, w.popFront t m e rest)
  | .slotRequest d, w => (w.store.slot d).map fun e => (e.mpiReq, w)
  | .readSlot d, w => (w.store.slot d).map fun e => (e, w)
  | .writeSlot d e, w =>
    some ((), ((w.setSlot d e).setPhase d .armed).setStage e.request (.armed d))
  | .clearSlot d, w => (w.store.slot d).map fun e => ((), w.setSlot d { e with mpiReq := none })
  | .isend a n ty dest tag comm p, w =>
    if cfg.validSend dest tag then
      let x := w.isend cfg t a (Datatype.layout n ty) dest tag comm p
      some (some x.1, x.2)
    else some (none, w)
  | .irecv a n ty source tag comm p, w =>
    if cfg.validRecv source tag then
      let x := w.irecv cfg t a (Datatype.layout n ty) source tag comm p
      some (some x.1, x.2)
    else some (none, w)
  | .test h, w => some (w.test cfg t h)
  | .continue m e _, w => some ((), w.attach t m e)
  | .continueReturn _, w => some ((), w)
  | .testContReq m, w => some ((w.store.attached m).isEmpty, w)
  | .startContReq _, w => some ((), w)
  | .barrier _, w => some ((), w)
  | .allocate n, w =>
    if n < 2 ^ 63 then
      some (some (.heap w.memory.nextBlock),
        { w with memory := { w.memory with
          nextBlock := w.memory.nextBlock + 1
          blockOwner := update w.memory.blockOwner w.memory.nextBlock (some t) } })
    else some (none, w)
  | .memcpy dst src n, w => some ((), w.memcpy dst src n)
  | .signal c q p, w => some ((), w.signal cfg t c q p)
  | .cqPop c, w => some (w.cqPop c)
  | .pcounterAdd k, w =>
    some ((), w.addCounter t.rank k)
  | .newDevice, w => some (w.newDevice t)
  | .fetchAddNdevices, w =>
    some (w.devs.ndevices t.rank, { w with devs := { w.devs with
      ndevices := update w.devs.ndevices t.rank (w.devs.ndevices t.rank + 1) } })
  | .commCreate d, w =>
    let comm : Comm := ⟨d, w.net.contexts t.rank⟩
    some (comm, { w with net := { w.net with
      contexts := update w.net.contexts t.rank (w.net.contexts t.rank + 1)
      live := update w.net.live comm true } })
  | .initDevice d dev, w =>
    let w := w.setDevice d (some dev)
    some ((), { w with memory := { w.memory with
      bytes := update w.memory.bytes (.putRbuf d) (List.replicate dev.putRbufSize 0) } })
  | .readDevice d, w => (w.devs.table d).map fun dev => (dev, w)
  | .commFree comm, w =>
    some ((), { w with net := { w.net with live := update w.net.live comm false } })
  | .deleteDevice d, w => some ((), w.setDevice d none)
  | .endCallback, w => some ((), w.setInside t (w.sync.inside t).tail)
  | .abort _, _ => none

end Lcw.Mpi
