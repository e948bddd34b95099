/- digest: The processes of a job on GASNet-EX: their devices, and the active messages on the way. -/

import Lcw.Interleave.System
import Lcw.Gex.Backend

set_option autoImplicit false
set_option relaxedAutoImplicit false

namespace Lcw.Gex

open Interleave
open Lcw.Mpi (OpCode Counter Rank Tid Byte toSize)
open Function (update)

/-- The fields of a `device_impl_t`; none before they are assigned. -/
structure DeviceImpl where
  id : Option Nat
  comp : Option Comp
  deriving DecidableEq, Repr

/-- A completion object was signalled: by which process, with what, and for which message. -/
structure Output where
  rank : Rank
  comp : Comp
  request : Request
  origin : Option Message
  bytes : List Byte
  deriving DecidableEq, Repr

/-- `n` bytes from the start of a block. -/
def readBytes (n : Nat) (block : List Byte) : List Byte :=
  (List.range n).map fun i => block.getD i 0

/-- Where a message is: on the way, with the thread that runs its handler, or signalled. -/
inductive Stage
  | unsent
  | inflight
  | handled (t : Tid)
  | signalled
  deriving DecidableEq, Repr

/-- `devices` are the `g_devices` of each process, `impls` the live objects they point to.
`builder` is the thread in `alloc_device`; `filling`, `handling` and `target` tell what a thread
that runs a handler has got; `calls` counts, for each call a thread is in, the completions
signalled during it. -/
structure World where
  nextDev : Nat
  devices : Rank → List Dev
  impls : Dev → Option DeviceImpl
  builder : Rank → Option Tid
  published : Dev → Bool
  user : Rank → Nat → List Byte
  blocks : Tid → Nat → List Byte
  nextBlock : Tid → Nat
  filling : Tid → Option Nat
  available : Bool
  inflight : List Message
  arrived : Rank → Nat
  queues : Rank → Comp → List Request
  counters : Rank → Counter → Nat
  calls : Tid → List Nat
  sent : List Message
  stage : Nat → Stage
  handling : Tid → Option Message
  target : Tid → Option Dev
  outputs : List Output
  results : List (CallResult × Nat)

/-- Before the first call. -/
def World.init : World where
  nextDev := 0
  devices := fun _ => []
  impls := fun _ => none
  builder := fun _ => none
  published := fun _ => false
  user := fun _ _ => []
  blocks := fun _ _ => []
  nextBlock := fun _ => 0
  filling := fun _ => none
  available := true
  inflight := []
  arrived := fun _ => 0
  queues := fun _ _ => []
  counters := fun _ _ => 0
  calls := fun _ => []
  sent := []
  stage := fun _ => .unsent
  handling := fun _ => none
  target := fun _ => none
  outputs := []
  results := []

namespace World

variable (w : World)

def bytesOf : Buffer → List Byte
  | .user r a => w.user r a
  | .heap t k => w.blocks t k

def newDevice (d : Dev) : World :=
  { w with nextDev := w.nextDev + 1, impls := update w.impls d (some ⟨none, none⟩) }

def pushDevice (d : Dev) : World :=
  { w with devices := update w.devices d.rank (w.devices d.rank ++ [d]) }

def setImpl (d : Dev) (i : DeviceImpl) : World := { w with impls := update w.impls d (some i) }

/-- The message `gex_AM_RequestMedium1` injects; its bytes are taken at once. -/
def message (src dst : Rank) (buf : Buffer) (nbytes index : Nat) (d : Dev) : Message :=
  ⟨w.sent.length, src, dst, index, readBytes nbytes (w.bytesOf buf), d⟩

def send (m : Message) : World :=
  { w with
    inflight := w.inflight ++ [m]
    sent := w.sent ++ [m]
    stage := update w.stage m.id .inflight }

def allocate (t : Tid) : World :=
  { w with
    blocks := update w.blocks t (update (w.blocks t) (w.nextBlock t) [])
    nextBlock := update w.nextBlock t (w.nextBlock t + 1)
    filling := update w.filling t (some (w.nextBlock t)) }

def store (b : Buffer) (bytes : List Byte) : World :=
  match b with
  | .user r a => { w with user := update w.user r (update (w.user r) a bytes) }
  | .heap t k => { w with blocks := update w.blocks t (update (w.blocks t) k bytes) }

/-- A completion object is signalled; a queue stores the request. -/
def signal (isHandler : Comp → Bool) (t : Tid) (c : Comp) (q : Request)
    (origin : Option Message) : World :=
  { w with
    queues := if isHandler c then w.queues else
      update w.queues t.rank (update (w.queues t.rank) c (w.queues t.rank c ++ [q]))
    calls := update w.calls t ((w.calls t).map (· + 1))
    outputs := w.outputs ++ [⟨t.rank, c, q, origin, w.bytesOf q.buffer⟩]
    filling := match origin with
      | some _ => update w.filling t none
      | none => w.filling
    stage := match origin with
      | some m => update w.stage m.id .signalled
      | none => w.stage
    handling := match origin with
      | some _ => update w.handling t none
      | none => w.handling
    target := match origin with
      | some _ => update w.target t none
      | none => w.target }

def addCounter (r : Rank) (k : Counter) : World :=
  { w with counters := update w.counters r (update (w.counters r) k (w.counters r k + 1)) }

def endCall (t : Tid) (r : CallResult) : World :=
  { w with
    calls := update w.calls t (w.calls t).tail
    results := w.results ++ [(r, (w.calls t).headD 0)]
    builder := match r with
      | .device _ => update w.builder t.rank none
      | _ => w.builder
    published := match r with
      | .device d => update w.published d true
      | _ => w.published }

/-- GASNet runs the handler of a message that has arrived. -/
def deliver (t : Tid) (i : Nat) (m : Message) : World :=
  { w with
    inflight := w.inflight.eraseIdx i
    stage := update w.stage m.id (.handled t)
    handling := update w.handling t (some m) }

/-- A process calls with its own allocated devices and buffers, one `alloc_device` at a time. -/
def callable (nranks : Nat) (t : Tid) : Call → Bool
  | .put d rank buf length _ _ =>
    d.rank == t.rank && w.published d && (0 ≤ rank && rank < nranks) && mine buf &&
      (0 ≤ length && length < 2 ^ 63)
  | .doProgress d | .barrier d | .freeDevice d => d.rank == t.rank && w.published d
  | .allocDevice .. => (w.builder t.rank).isNone
  | .pollCq _ => true
where
  mine : Buffer → Bool
    | .user r _ => r == t.rank
    | _ => false

def pushCall (t : Tid) (c : Call) : World :=
  { w with
    calls := update w.calls t (0 :: w.calls t)
    builder := match c with
      | .allocDevice .. => update w.builder t.rank (some t)
      | _ => w.builder
    published := match c with
      | .freeDevice d => update w.published d false
      | _ => w.published }

end World

/-- The job: the number of processes, and which completion objects are handlers. -/
structure Config where
  nranks : Nat
  isHandler : Comp → Bool

variable (cfg : Config)

/-- The effect of an operation; reading what is not there, or waiting for a process that has not
entered the barrier, has none. -/
def exec (t : Tid) : (o : Op) → World → Option (o.Ret × World)
  | .newDevice c, w =>
    let d : Dev := ⟨t.rank, w.nextDev, (w.devices t.rank).length, c⟩
    some (d, w.newDevice d)
  | .pushDevice d, w => some ((), w.pushDevice d)
  | .devicesSize, w => some ((w.devices t.rank).length, w)
  | .setId d n, w => do
    let i ← w.impls d
    return ((), w.setImpl d { i with id := some n })
  | .setComp d c, w => do
    let i ← w.impls d
    return ((), w.setImpl d { i with comp := some c })
  | .deleteDevice d, w => some ((), { w with impls := update w.impls d none })
  | .readId d, w => do
    let i ← w.impls d
    let n ← i.id
    return (n, w)
  | .requestMedium dst buf nbytes index d, w =>
    some ((), w.send (w.message t.rank dst buf nbytes index d))
  | .barrierNB, w =>
    some (w.arrived t.rank + 1,
      { w with arrived := update w.arrived t.rank (w.arrived t.rank + 1) })
  | .eventWait n, w =>
    if (List.range cfg.nranks).all fun r => n ≤ w.arrived r then some ((), w) else none
  | .allocate _, w =>
    some (if w.available then (some (.heap t (w.nextBlock t)), w.allocate t) else (none, w))
  | .memcpy dst amBuf n, w => some ((), w.store dst (readBytes n amBuf))
  | .deviceAt index, w => do
    let d ← (w.devices t.rank)[index]?
    return (d, { w with target := update w.target t (some d) })
  | .readComp d, w => do
    let i ← w.impls d
    let c ← i.comp
    return (c, w)
  | .signal c q origin, w => some ((), w.signal cfg.isHandler t c q origin)
  | .cqPop c, w =>
    match w.queues t.rank c with
    | [] => some (none, w)
    | q :: rest => some (some q,
        { w with queues := update w.queues t.rank (update (w.queues t.rank) c rest) })
  | .pcounterAdd c, w =>
    some ((), w.addCounter t.rank c)
  | .endCall r, w => some ((), w.endCall t r)
  | .amPoll, w | .userCode, w => some ((), w)
  | .abort, _ => none

/-- Code entered at an operation: a call by the client, or the handler of a message. -/
inductive Intr
  | call (c : Call)
  | deliver (i : Nat)

def intr (t : Tid) (o : Op) (i : Intr) (w : World) : Option (Code Unit × World) :=
  match i with
  | .call c =>
    if o = .userCode ∧ w.callable cfg.nranks t c then
      some (apiCall cfg.isHandler c, w.pushCall t c)
    else none
  | .deliver i => do
    let m ← w.inflight[i]?
    if o.isGex ∧ m.dst = t.rank then return (gexReqhandler cfg.isHandler m, w.deliver t i m)
    else none

/-- Steps of the client's memory and of the allocator. -/
inductive Env
  | available (b : Bool)
  | write (r : Rank) (addr : Nat) (bytes : List Byte)

def env (e : Env) (w : World) : Option World :=
  match e with
  | .available b => some { w with available := b }
  | .write r a bytes => some (w.store (.user r a) bytes)

/-- Any number of processes and threads that call the backend. -/
def system : System where
  Tid := Tid
  Op := Op
  Ret := Op.Ret
  Shared := World
  Intr := Intr
  Env := Env
  exec := exec cfg
  intr := intr cfg
  env := env

/-- Every thread runs client code. -/
def start : (system cfg).State where
  shared := World.init
  prog := fun _ => act .userCode

end Lcw.Gex
