/- digest: All processes of a job as one interleaved system, with clients and MPI around the code. -/

import Lcw.Interleave.System
import Lcw.Mpi.Backend

set_option autoImplicit false
set_option relaxedAutoImplicit false

namespace Lcw.Mpi

open Interleave
open Function (update)

/-- Code entered at an operation: an API call by the client, or a continuation run by MPI. -/
inductive Intr
  | call (c : Call)
  | continuation (m : Manager) (i : Nat)
  deriving DecidableEq, Repr

/-- Steps of MPI and of the client's own memory. -/
inductive Env
  | sendDone (h : Handle)
  | deliver (i : Nat) (h : Handle)
  | write (b : Buffer) (bytes : List Byte)

namespace World

/-- User memory, or a block the client has been given. -/
def accessible (w : World) : Buffer → Bool
  | .user _ => true
  | .putRbuf _ => false
  | .heap k => (w.memory.given k).isSome

/-- A process calls with its own allocated devices and its own buffers. -/
def callable (w : World) (t : Tid) (c : Call) : Bool :=
  c.wellTyped &&
  (match c.device? with
    | some d => d.rank == t.rank && w.devs.published d
    | none => true) &&
  (match c.buffer? with
    | some b => w.accessible b
    | none => true)

def pushCall (w : World) (t : Tid) (c : Call) : World :=
  { w with
    client := { w.client with acts := update w.client.acts t (⟨c, none⟩ :: w.client.acts t) }
    devs := { w.devs with published := match c with
      | .freeDevice d => update w.devs.published d false
      | _ => w.devs.published } }

/-- The status of an entry's request once MPI has finished with it. -/
def outcome (w : World) (cfg : Config) (e : Entry) : Option Status :=
  match e.mpiReq with
  | none => some (emptyStatus cfg)
  | some h => match w.net.reqs h with
    | some ⟨_, _, _, _, _, .complete st⟩ => some st
    | _ => none

/-- MPI frees a completed request when it runs its continuation. -/
def consume (w : World) (p : RequestPtr) (st : Status) : Option Handle → World
  | none => w
  | some h => match w.net.reqs h with
    | none => w
    | some q => (w.setReq h { q with state := .consumed }).setResult p st

/-- Hand a registered continuation to the thread that runs it inside the MPI call `o`. -/
def takeContinuation (w : World) (t : Tid) (o : Op) (m : Manager) (i : Nat) (e : Entry)
    (st : Status) : World :=
  let w := (w.setInside t (o :: w.sync.inside t)).consume e.request st e.mpiReq
  { w with store := { w.store with
      attached := update w.store.attached m ((w.store.attached m).eraseIdx i)
      stage := update w.store.stage e.request (.owned t .held) } }

theorem consume_eq (w : World) (p : RequestPtr) (st : Status) (h : Option Handle) :
    w.consume p st h = { w with net := (w.consume p st h).net } := by
  unfold consume
  split
  · rfl
  · split <;> rfl

/-- A posted receive and a message match on context, source and tag. -/
def accepts (cfg : Config) (m : Message) (h : Handle) (q : MpiRequest) : Bool :=
  q.isRecv && h.comm.device.rank == m.dst && h.comm.context == m.context &&
    (q.peer == cfg.anySource || q.peer == m.src) && q.tag == m.tag

/-- A message reaches the posted receive it matches; a longer one is truncated. -/
def deliver (w : World) (i : Nat) (m : Message) (h : Handle) (q : MpiRequest) : World :=
  let st : Status := ⟨m.src, m.tag, some m, q.layout.length < m.payload.length⟩
  let w := w.setReq h { q with state := .complete st }
  let stored := scatter (w.memory.bytes q.buffer) q.layout m.payload
  { w with
    net := { w.net with
      inflight := w.net.inflight.eraseIdx i
      route := update w.net.route m.request (.matched h) }
    memory := { w.memory with bytes := update w.memory.bytes q.buffer stored } }

def sendDone (w : World) (cfg : Config) (h : Handle) (q : MpiRequest) : World :=
  w.setReq h { q with state := .complete (emptyStatus cfg) }

end World

/-- The client may call at any point of its code; MPI may run a completed continuation of the
process inside any MPI call, in the configuration that registers them. -/
def intr (cfg : Config) (t : Tid) (o : Op) (i : Intr) (w : World) : Option (Code Unit × World) :=
  match i with
  | .call c =>
    if o.isUserCode ∧ w.callable t c then some (apiCall cfg c, w.pushCall t c) else none
  | .continuation m i =>
    if o.isMpi ∧ cfg.compType = .continue ∧ m.rank = t.rank then do
      let e ← (w.store.attached m)[i]?
      let st ← w.outcome cfg e
      return (completeCb cfg (!st.error) e, w.takeContinuation t o m i e st)
    else none

/-- MPI completes a started send, or delivers a message; the client writes its buffers. -/
def env (cfg : Config) (e : Env) (w : World) : Option World :=
  match e with
  | .sendDone h => do
    let q ← w.net.reqs h
    if q.isRecv ∨ q.state ≠ .pending then none else return w.sendDone cfg h q
  | .deliver i h => do
    let m ← w.net.inflight[i]?
    let q ← w.net.reqs h
    if q.state = .pending ∧ World.accepts cfg m h q then return w.deliver i m h q else none
  | .write b bytes =>
    if w.accessible b then
      some { w with memory := { w.memory with bytes := update w.memory.bytes b bytes } }
    else none

section Inversion

variable {cfg : Config} {t : Tid} {o : Op} {w w' : World} {p : Code Unit}

theorem intr_call {c : Call} (h : intr cfg t o (.call c) w = some (p, w')) :
    o = .userCode ∧ w.callable t c = true ∧ p = apiCall cfg c ∧ w' = w.pushCall t c := by
  simp only [intr] at h
  split at h
  · rename_i hc
    cases h
    exact ⟨Op.isUserCode_iff.mp hc.1, hc.2, rfl, rfl⟩
  · cases h

theorem intr_continuation {m : Manager} {i : Nat}
    (h : intr cfg t o (.continuation m i) w = some (p, w')) :
    o.isMpi = true ∧ cfg.compType = .continue ∧ m.rank = t.rank ∧ ∃ e st,
      (w.store.attached m)[i]? = some e ∧ w.outcome cfg e = some st ∧
        p = completeCb cfg (!st.error) e ∧ w' = w.takeContinuation t o m i e st := by
  simp only [intr] at h
  split at h
  · rename_i hc
    obtain ⟨e, he, h⟩ := Option.bind_eq_some_iff.mp h
    obtain ⟨st, hs, h⟩ := Option.bind_eq_some_iff.mp h
    cases h
    exact ⟨hc.1, hc.2.1, hc.2.2, e, st, he, hs, rfl, rfl⟩
  · cases h

/-- What MPI and the client can do between the steps of threads. -/
inductive EnvStep (cfg : Config) (w : World) : World → Prop
  | sendDone (h : Handle) (q : MpiRequest) (hq : w.net.reqs h = some q)
      (send : q.isRecv = false) (pending : q.state = .pending) :
      EnvStep cfg w (w.sendDone cfg h q)
  | deliver (i : Nat) (m : Message) (h : Handle) (q : MpiRequest)
      (hm : w.net.inflight[i]? = some m) (hq : w.net.reqs h = some q)
      (pending : q.state = .pending) (accepts : World.accepts cfg m h q = true) :
      EnvStep cfg w (w.deliver i m h q)
  | write (b : Buffer) (bytes : List Byte) (hb : w.accessible b = true) :
      EnvStep cfg w { w with memory := { w.memory with bytes := update w.memory.bytes b bytes } }

theorem env_cases {e : Env} (h : env cfg e w = some w') : EnvStep cfg w w' := by
  cases e with
  | sendDone x =>
    obtain ⟨q, hq, h⟩ := Option.bind_eq_some_iff.mp h
    split at h
    · cases h
    rename_i hc
    cases h
    push Not at hc
    exact .sendDone x q hq (by simpa using hc.1) hc.2
  | deliver i x =>
    obtain ⟨m, hm, h⟩ := Option.bind_eq_some_iff.mp h
    obtain ⟨q, hq, h⟩ := Option.bind_eq_some_iff.mp h
    split at h
    · rename_i hc
      cases h
      exact .deliver i m x q hm hq hc.1 hc.2
    · cases h
  | write b bytes =>
    simp only [env] at h
    split at h <;> cases h
    exact .write b bytes ‹_›

end Inversion

/-- The MPI backend of a whole job. -/
abbrev machine (cfg : Config) : System where
  Tid := Tid
  Op := Op
  Ret := Op.Ret
  Shared := World
  Intr := Intr
  Env := Env
  exec := exec cfg
  intr := intr cfg
  env := env cfg

/-- After `initialize`: no device, no request, no message, every lock free. -/
def World.initial : World where
  sync := { owner := fun _ => none, inside := fun _ => [] }
  pend :=
    { value := fun _ => 0, admitted := fun _ => 0, holder := fun _ _ => .released
      permit := fun _ => none, permitOf := fun _ => none, passed := fun _ => false }
  store :=
    { heap := fun _ => none, nextPtr := 0, entries := fun _ => [], attached := fun _ => []
      slot := fun _ => none, cq := fun _ => [], polled := fun _ => [], delivered := fun _ => []
      stage := fun _ => .unborn }
  net :=
    { reqs := fun _ => none, nextHandle := 0, inflight := [], contexts := fun _ => 0
      live := fun _ => false, result := fun _ => none, route := fun _ => .unsent
      phase := fun _ => .unborn }
  memory :=
    { bytes := fun _ => [], nextBlock := 0, blockOwner := fun _ => none, given := fun _ => none }
  devs :=
    { table := fun _ => none, nextAddr := fun _ => 0, ndevices := fun _ => 0
      published := fun _ => false, builder := fun _ => none, putComp := fun _ => none }
  client := { acts := fun _ => [], accepted := fun _ => false }
  counters := fun _ _ => 0

/-- Every thread of every process starts in client code. -/
def start (cfg : Config) : (machine cfg).State where
  shared := World.initial
  prog := fun (t : Tid) =>
    if t.rank < cfg.nranks ∧ t.index < cfg.nthreads then act .userCode else .ret ()

/-- A job of one process with two threads, private managers and small constants. -/
def smallJob (compType : CompType) (useStream : Bool) (pendingMsgMax : Int) : Config where
  nranks := 1
  nthreads := 2
  compType := compType
  useStream := useStream
  useContReq := false
  contFlags := ⟨false, false⟩
  pendingMsgMax := pendingMsgMax
  numCompManagers := 0
  isHandler c := c == 1
  tagUB := none
  anySource := -2
  undefined := -32766
  nullHandle _ := false
  indeterminate := ⟨0, 0, none, false⟩

/-- A thread performs a number of its operations. -/
def steps (cfg : Config) (t : Tid) (n : Nat) : List (machine cfg).Event :=
  List.replicate n (.exec t)

/-- The first thread allocates a device with queue 7 for puts. -/
def allocFirst (cfg : Config) : List (machine cfg).Event :=
  .intr ⟨0, 0⟩ (.call (.allocDevice 4 (some 7))) :: steps cfg ⟨0, 0⟩ 12

/-- The put receive of a process's first device, of four bytes. -/
def firstPutRecv : Handle :=
  ⟨0, ⟨⟨0, 0⟩, 0⟩, ⟨0, ⟨.putSignal, ⟨0, 0⟩, -1, 32767, .putRbuf ⟨0, 0⟩, 4, 0⟩, some 7⟩⟩

/-- The operation a thread is about to perform. -/
def nextOp {cfg : Config} (s : (machine cfg).State) (t : Tid) : Option Op :=
  match s.prog t with
  | .ret _ => none
  | .op o _ => some o

theorem nextOp_eq_some {cfg : Config} {s : (machine cfg).State} {t : Tid} {o : Op} :
    nextOp s t = some o ↔ ∃ k, s.prog t = .op o k := by
  unfold nextOp
  cases h : s.prog t with
  | ret a => simp
  | op o' k =>
    constructor
    · intro e
      cases e
      exact ⟨k, rfl⟩
    · rintro ⟨k', e⟩
      cases e
      rfl

end Lcw.Mpi
