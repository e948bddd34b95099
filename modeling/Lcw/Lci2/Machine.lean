/- digest: A process on LCI2: its threads, what LCI holds, the history of its contexts. -/

import Lcw.Interleave.System
import Lcw.Lci2.Backend

set_option autoImplicit false
set_option relaxedAutoImplicit false

namespace Lcw.Lci2

open Interleave
open Lcw.Mpi (Counter)
open Function (update)

abbrev Tid := Nat

/-- What a thread does with a context it is responsible for; `n` is the size LCI reported. -/
inductive Held
  | fresh
  | refused
  | taken (n : Nat)
  | consumed (n : Nat)
  deriving DecidableEq, Repr

/-- Where a context is in its life: with a thread, with LCI, in a queue, or settled. -/
inductive Stage
  | unborn
  | held (t : Tid) (h : Held)
  | posted
  | queued (c : Comp) (n : Nat)
  | shown (n : Nat)
  | dropped
  deriving DecidableEq, Repr

/-- A completion the client has seen: from `poll_cq`, or as the argument of its handler. -/
structure Output where
  request : Request
  origin : Option Ctx
  deriving DecidableEq, Repr

/-- The heap, LCI, and the histories the claims are about. `willing` is what LCI answers next. -/
structure World where
  next : Nat
  heap : Ctx → Option Request
  willing : Bool
  pending : List Post
  queues : Comp → List Status
  depth : Tid → Nat
  counters : Counter → Nat
  stage : Ctx → Stage
  receipt : Tid → Ctx → Option Bool
  sizes : Ctx → Option Nat
  deletions : Ctx → List Site
  strayReads : Nat
  outputs : List Output
  returned : List (Ctx × Bool)

/-- Before the first call. -/
def World.init : World where
  next := 0
  heap := fun _ => none
  willing := true
  pending := []
  queues := fun _ => []
  depth := fun _ => 0
  counters := fun _ => 0
  stage := fun _ => .unborn
  receipt := fun _ _ => none
  sizes := fun _ => none
  deletions := fun _ => []
  strayReads := 0
  outputs := []
  returned := []

/-- Stages after a deletion. -/
def Stage.afterDelete : Stage → Stage
  | .held t (.taken n) => .held t (.consumed n)
  | _ => .dropped

/-- Stages after the completion has been shown to the client. -/
def Stage.afterOutput : Stage → Stage
  | .held _ (.consumed n) => .shown n
  | s => s

namespace World

variable (w : World)

/-- The client calls the backend. -/
def enter (t : Tid) : World := { w with depth := update w.depth t (w.depth t + 1) }

def newRequest (t : Tid) (q : Request) : World :=
  { w with
    next := w.next + 1
    heap := update w.heap ⟨w.next, q⟩ (some q)
    stage := update w.stage ⟨w.next, q⟩ (.held t .fresh) }

def accept (t : Tid) (x : Post) : World :=
  { w with
    pending := w.pending ++ [x]
    stage := update w.stage x.userContext .posted
    receipt := update w.receipt t (update (w.receipt t) x.userContext (some true)) }

def refuse (t : Tid) (x : Post) : World :=
  { w with
    stage := update w.stage x.userContext (.held t .refused)
    receipt := update w.receipt t (update (w.receipt t) x.userContext (some false)) }

/-- A queue hands its oldest status to a thread. -/
def pop (t : Tid) (c : Comp) (st : Status) (rest : List Status) : World :=
  { w with
    queues := update w.queues c rest
    stage := match st.userContext with
      | some p => update w.stage p (.held t (.taken st.size))
      | none => w.stage }

def delete (p : Ctx) (site : Site) : World :=
  { w with
    heap := update w.heap p none
    stage := update w.stage p (w.stage p).afterDelete
    deletions := update w.deletions p (w.deletions p ++ [site]) }

def output (q : Request) (origin : Option Ctx) : World :=
  { w with
    outputs := w.outputs ++ [⟨q, origin⟩]
    stage := match origin with
      | some p => update w.stage p (w.stage p).afterOutput
      | none => w.stage }

def endCall (t : Tid) (r : CallResult) : World :=
  let w := { w with depth := update w.depth t (w.depth t - 1) }
  match r with
  | .posted p ret => { w with
      receipt := update w.receipt t (update (w.receipt t) p none)
      returned := w.returned ++ [(p, ret)] }
  | _ => w

/-- LCI completes a posted operation: its status, with the size it moved. -/
def statusOf (x : Post) (n : Nat) : Status :=
  ⟨some x.userContext, x.rank, (x.tag.getD 0).toNat, x.buffer, n⟩

/-- A completed operation leaves LCI for a queue. -/
def enqueue (i : Nat) (x : Post) (n : Nat) : World :=
  { w with
    pending := w.pending.eraseIdx i
    queues := update w.queues x.comp (w.queues x.comp ++ [statusOf x n])
    stage := update w.stage x.userContext (.queued x.comp n)
    sizes := update w.sizes x.userContext (some n) }

/-- A completed operation leaves LCI for the thread that runs its handler. -/
def handOver (t : Tid) (i : Nat) (x : Post) (n : Nat) : World :=
  { w with
    pending := w.pending.eraseIdx i
    stage := update w.stage x.userContext (.held t (.taken n))
    sizes := update w.sizes x.userContext (some n) }

end World

/-- The effect of an operation; none of them blocks. -/
def exec (t : Tid) : (o : Op) → World → Option (o.Ret × World)
  | .newRequest q, w => some (⟨w.next, q⟩, w.newRequest t q)
  | .post x, w => some (if w.willing then (true, w.accept t x) else (false, w.refuse t x))
  | .progress _, w => some (w.willing, w)
  | .cqPop c, w =>
    match w.queues c with
    | [] => some (none, w)
    | st :: rest => some (some st, w.pop t c st rest)
  | .readRequest p, w =>
    match w.heap p with
    | some q => some (q, w)
    | none => some (p.posted, { w with strayReads := w.strayReads + 1 })
  | .deleteRequest p site, w => some ((), w.delete p site)
  | .output q origin, w => some ((), w.output q origin)
  | .pcounterAdd c, w =>
    some ((), { w with counters := update w.counters c (w.counters c + 1) })
  | .endCall r, w => some ((), w.endCall t r)
  | .postReturn, w | .barrier _, w | .userCode, w => some ((), w)

/-- What a polling thread finds. -/
theorem exec_cqPop {t : Tid} {w w' : World} {c : Comp} {r : Option Status}
    (hx : exec t (.cqPop c) w = some (r, w')) : r = none ∧ w' = w ∨
      ∃ st rest, w.queues c = st :: rest ∧ r = some st ∧ w' = w.pop t c st rest := by
  simp only [exec] at hx
  split at hx
  · obtain ⟨rfl, rfl⟩ := Prod.mk.inj (Option.some.inj hx)
    exact .inl ⟨rfl, rfl⟩
  · rename_i st rest hc
    obtain ⟨rfl, rfl⟩ := Prod.mk.inj (Option.some.inj hx)
    exact .inr ⟨st, rest, hc, rfl, rfl⟩

/-- Code entered at an operation: a call by the client, or a handler that LCI runs for a
completed operation or for an incoming active message. -/
inductive Intr
  | call (c : Call)
  | complete (i n : Nat)
  | incoming (rank : Int) (tag buffer size : Nat)

/-- Steps of LCI on its own. -/
inductive Env
  | willing (b : Bool)
  | complete (i n : Nat)
  | incoming (c : Comp) (rank : Int) (tag buffer size : Nat)

variable (isHandler : Comp → Bool)

/-- The client calls at any point of its code; LCI runs handlers inside its own functions. -/
def intr (t : Tid) (o : Op) (i : Intr) (w : World) : Option (Code Unit × World) :=
  match i with
  | .call c =>
    if o = .userCode then some (apiCall c, w.enter t) else none
  | .complete i n =>
    if o.isLci then do
      let x ← w.pending[i]?
      if isHandler x.comp then
        return (signal (World.statusOf x n), w.handOver t i x n)
      else none
    else none
  | .incoming rank tag buffer size =>
    if o.isLci then some (signal ⟨none, rank, tag, buffer, size⟩, w) else none

/-- LCI chooses its answers, completes operations and receives active messages in any order. -/
def env (e : Env) (w : World) : Option World :=
  match e with
  | .willing b => some { w with willing := b }
  | .complete i n => do
    let x ← w.pending[i]?
    if isHandler x.comp then none else return w.enqueue i x n
  | .incoming c rank tag buffer size =>
    some { w with
      queues := update w.queues c (w.queues c ++ [⟨none, rank, tag, buffer, size⟩]) }

/-- Any number of threads that call the backend. -/
def system : System where
  Tid := Tid
  Op := Op
  Ret := Op.Ret
  Shared := World
  Intr := Intr
  Env := Env
  exec := exec
  intr := intr isHandler
  env := env isHandler

instance (n : Nat) : OfNat (system isHandler).Tid n := inferInstanceAs (OfNat Nat n)

/-- Every thread runs client code. -/
def start : (system isHandler).State where
  shared := World.init
  prog := fun _ => act .userCode

end Lcw.Lci2
