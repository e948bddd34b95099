/- digest: Static facts of the data and lock ownership, as one discipline for every run. -/

import Lcw.Interleave.Discipline
import Lcw.Mpi.Machine
import Mathlib.Order.BooleanAlgebra.Set

set_option autoImplicit false
set_option relaxedAutoImplicit false

namespace Lcw.Mpi

open Interleave
open Function (update)

/-- A request handle is used for the entry it was started for, on its device's communicator. -/
def Handle.Of (h : Handle) (d : Dev) (p : RequestPtr) : Prop :=
  h.comm.device = d ∧ h.request = p

/-- An entry names the device and completion object its `request_t` was allocated for. -/
structure Entry.Coherent (e : Entry) : Prop where
  completion : e.completion = e.request.completion
  device : e.device = e.request.posted.device
  handle : ∀ h, e.mpiReq = some h → h.Of e.device e.request

/-- What `alloc_device` writes into a device. -/
structure Device.Of (cfg : Config) (d : Dev) (dev : Device) : Prop where
  comm : dev.comm.device = d
  manager : dev.manager = managerFor cfg d dev.id
  enablePut : dev.enablePut = true
  maxTag : dev.maxTag2sided = cfg.maxTag - 1
  putTag : dev.putTag = cfg.maxTag

theorem Device.Of.manager_rank {cfg : Config} {d : Dev} {dev : Device} (h : dev.Of cfg d) :
    dev.manager.rank = d.rank := by
  rw [h.manager, managerFor]
  split <;> rfl

/-- What a thread's steps depend on: the locks it holds and the MPI calls it runs
continuations in. -/
structure Stance where
  locks : Set Lock
  inside : List Op

def stance (t : Tid) (w : World) : Stance := ⟨{l | w.sync.owner l = some t}, w.sync.inside t⟩

/-- Rules beyond the ones that always hold: `strict` that no thread takes a lock it holds, and
`guarded` that the barrier is called under its stream lock, as other calls always are. -/
structure Guard where
  strict : Bool
  guarded : Bool

def Guard.none : Guard := ⟨false, false⟩

variable (cfg : Config) (G : Guard)

/-- A communication call is made under the stream lock of its device. -/
def Covers (locks : Set Lock) (o : Op) : Prop :=
  cfg.useStream = true → ((∃ comm, o = .barrier comm) → G.guarded = true) →
    ∀ d, o.streamDevice = some d → .stream d ∈ locks

/-- The stream locks of the calls a thread is inside are held. -/
def Stance.Covered (v : Stance) : Prop := ∀ o ∈ v.inside, Covers cfg G v.locks o

/-- Under the REQUEST manager client code runs with no lock held. -/
def Stance.Unlocked (v : Stance) : Prop := cfg.compType = .request → v.locks = ∅

def Stance.Unheld (v : Stance) (d : Dev) : Prop :=
  G.strict = true → cfg.useStream = true → .stream d ∉ v.locks

/-- A thread may wait for the stream lock of `d`. -/
structure Stance.Enterable (v : Stance) (d : Dev) : Prop where
  unheld : v.Unheld cfg G d
  request : cfg.compType = .request → ∀ d', .stream d' ∉ v.locks

def Stance.take (v : Stance) (l : Lock) : Stance := { v with locks := insert l v.locks }

def Stance.drop (v : Stance) (l : Lock) : Stance := { v with locks := v.locks \ {l} }

@[simp] theorem Stance.drop_take {v : Stance} {l : Lock} (h : l ∉ v.locks) :
    (v.take l).drop l = v := by
  simp only [take, drop, Set.insert_sdiff_self_of_notMem h]

/-- A manager's entries are operations of its own process, other than put receives. -/
structure Entry.ManagedBy (e : Entry) (m : Manager) : Prop where
  coherent : e.Coherent
  op : e.request.posted.op ≠ .putSignal
  rank : e.device.rank = m.rank

/-- The entry of a put slot is for the device's own put receive. -/
structure Entry.SlotOf (e : Entry) (d : Dev) : Prop where
  coherent : e.Coherent
  op : e.request.posted.op = .putSignal
  device : e.device = d

/-- The data of the shared state fits together. -/
structure Coherence (w : World) : Prop where
  heap : ∀ p q, w.store.heap p = some q → q.op = p.posted.op ∧ q.device = p.posted.device
  entries : ∀ m, ∀ e ∈ w.store.entries m, e.ManagedBy m
  attached : ∀ m, ∀ e ∈ w.store.attached m, e.ManagedBy m
  slot : ∀ d e, w.store.slot d = some e → e.SlotOf d
  table : ∀ d dev, w.devs.table d = some dev → dev.Of cfg d
  covered : ∀ t, (stance t w).Covered cfg G

/-- The rules of the backend for the operations that need some. -/
def structurePre (t : Tid) (o : Op) (v : Stance) : Prop :=
  Covers cfg G v.locks o ∧
  match o with
  | .userCode | .endCall _ | .signal .. => v.Unlocked cfg
  | .lock (.stream d) => cfg.useStream = true ∧ v.Enterable cfg G d
  | .lock (.manager _) => v.locks = ∅
  | .lock (.put _) => False
  | .unlock l => l ∈ v.locks ∧ (v.drop l).Covered cfg G
  | .writeRequest p q => q.op = p.posted.op ∧ q.device = p.posted.device
  | .pushBack m e => .manager m ∈ v.locks ∧ e.ManagedBy m
  | .popFront m => .manager m ∈ v.locks
  | .continue m e _ => e.ManagedBy m
  | .writeSlot d e => e.SlotOf d
  | .clearSlot d => .put d ∈ v.locks
  | .initDevice d dev => dev.Of cfg d ∧ d.rank = t.rank
  | _ => True

/-- A lock is new to the thread that gets it. -/
structure Stance.Taken (v : Stance) (l : Lock) (v' : Stance) : Prop where
  new : l ∉ v.locks
  covered : v.Covered cfg G
  eq : v' = v.take l
  unheld : ∀ d, l = .put d → v.Unheld cfg G d

/-- What the operations return. -/
def structurePost (t : Tid) (o : Op) (v : Stance) (r : o.Ret) (v' : Stance) : Prop :=
  match o with
  | .lock l => v.Taken cfg G l v'
  | .tryLock l => match (r : Bool) with
    | true => v.Taken cfg G l v'
    | false => v' = v
  | .unlock l => v' = v.drop l
  | .endCallback => v' = { v with inside := v.inside.tail }
  | .newRequest q c => v' = v ∧ RequestPtr.posted r = q ∧ RequestPtr.completion r = c ∧
      v.Unheld cfg G q.device
  | .readRequest p => v' = v ∧ Request.op r = p.posted.op ∧ Request.device r = p.posted.device
  | .popFront m => v' = v ∧ Entry.ManagedBy r m
  | .readSlot d => v' = v ∧ Entry.SlotOf r d
  | .slotRequest d => v' = v ∧ ∀ h, r = some h → h.comm.device = d
  | .isend _ _ _ _ _ comm p | .irecv _ _ _ _ _ comm p =>
    v' = v ∧ ∀ h, r = some (some h) → h.comm = comm ∧ h.request = p
  | .newDevice => v' = v ∧ Dev.rank r = t.rank
  | .commCreate d => v' = v ∧ Comm.device r = d
  | .readDevice d => v' = v ∧ Device.Of cfg d r
  | _ => v' = v

def structureContract (t : Tid) : Contract Op Op.Ret Stance where
  pre := structurePre cfg G t
  post := structurePost cfg G t

/-- The steps the rules are proved for: under `strict`, nothing past admission is posted on,
and no put slot is claimed of, a device whose stream lock the thread holds; under `guarded`,
no thread calls the barrier of a device without its stream lock. -/
def Regular (s : (machine cfg).State) : (machine cfg).Event → Prop
  | .exec t => match s.prog t with
    | .op (.newRequest q _) _ => (stance t s.shared).Unheld cfg G q.device
    | .op (.tryLock (.put d)) _ =>
      s.shared.sync.owner (.put d) = none → (stance t s.shared).Unheld cfg G d
    | _ => True
  | .intr t (.call (.barrier d)) =>
    G.guarded = true → cfg.useStream = true → .stream d ∈ (stance t s.shared).locks
  | _ => True

variable {cfg} in
theorem regular_none (s : (machine cfg).State) (e : (machine cfg).Event) :
    Regular cfg .none s e := by
  unfold Regular
  split
  · split
    · exact fun h => nomatch h
    · exact fun _ h => nomatch h
    · trivial
  · exact fun h => nomatch h
  · trivial

end Lcw.Mpi
