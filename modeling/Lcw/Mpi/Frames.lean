/- digest: Which part of the shared state each atomic operation can change. -/

import Lcw.Mpi.Machine

set_option autoImplicit false
set_option relaxedAutoImplicit false

namespace Lcw.Mpi

open Function (update)

namespace Op

def writesSync : Op → Bool
  | .lock _ | .tryLock _ | .unlock _ | .endCallback => true
  | _ => false

def writesPend : Op → Bool
  | .loadPending | .fetchAddPending | .fetchSubPending _ | .newRequest .. => true
  | _ => false

def writesStore : Op → Bool
  | .newRequest .. | .writeRequest .. | .deleteRequest _ | .pushBack .. | .popFront _
  | .writeSlot .. | .clearSlot _ | .isend .. | .irecv .. | .test _ | .continue .. | .signal ..
  | .cqPop _ => true
  | _ => false

def writesNet : Op → Bool
  | .isend .. | .irecv .. | .test _ | .writeSlot .. | .memcpy .. | .commCreate _
  | .commFree _ => true
  | _ => false

def writesMemory : Op → Bool
  | .allocate _ | .memcpy .. | .signal .. | .initDevice .. => true
  | _ => false

def writesDevs : Op → Bool
  | .endCall _ | .newDevice | .fetchAddNdevices | .initDevice .. | .deleteDevice _ => true
  | _ => false

def writesClient : Op → Bool
  | .endCall _ | .pushBack .. | .continue .. => true
  | _ => false

def writesCounters : Op → Bool
  | .pcounterAdd _ => true
  | _ => false

end Op

namespace World

variable (cfg : Config) (t : Tid) (w : World)

section Compound

variable (q : RequestPtr) (null : Bool) (comm : Comm) (p : RequestPtr) (x : MpiRequest)
  (a dst src : Buffer) (l : List Int) (peer tag : Int) (h : Option Handle) (c : Comp) (n : Nat)
  (m : Manager) (e : Entry) (r : Request)

theorem bindPermit_eq : w.bindPermit t q = { w with pend := (w.bindPermit t q).pend } := by
  unfold bindPermit
  split <;> rfl

theorem newRequest_eq (k : Option Comp) : w.newRequest t r k =
    { w with
      pend := (w.newRequest t r k).pend
      store := { w.store with
        heap := update w.store.heap (w.freshPtr r k) (some r)
        nextPtr := w.store.nextPtr + 1
        stage := update w.store.stage (w.freshPtr r k) (.owned t .posting) } } := by
  unfold newRequest bindPermit
  split
  · split <;> rfl
  · rfl

theorem noteAdded_eq : w.noteAdded t p = { w with client := (w.noteAdded t p).client } := by
  unfold noteAdded
  split <;> rfl

theorem pushBack_eq : w.pushBack t m e =
    { w with
      client := (w.noteAdded t e.request).client
      store := { w.store with
        entries := update w.store.entries m (w.store.entries m ++ [e])
        stage := update w.store.stage e.request (.queued m) } } := by
  unfold pushBack
  rw [noteAdded_eq]

theorem attach_eq : w.attach t m e =
    { w with
      client := (w.noteAdded t e.request).client
      store := { w.store with
        attached := update w.store.attached m (w.store.attached m ++ [e])
        stage := update w.store.stage e.request (.attached m) } } := by
  unfold attach
  rw [noteAdded_eq]

theorem start_eq : (w.start cfg t null comm p x).2 =
    { w with
      store := { w.store with stage := update w.store.stage p (.owned t .started) }
      net := (w.start cfg t null comm p x).2.net } := by
  unfold start
  split <;> rfl

theorem isend_eq : (w.isend cfg t a l peer tag comm p).2 =
    { w with
      store := { w.store with stage := update w.store.stage p (.owned t .started) }
      net := (w.isend cfg t a l peer tag comm p).2.net } := by
  unfold isend
  rw [start_eq]
  rfl

theorem irecv_eq : (w.irecv cfg t a l peer tag comm p).2 =
    { w with
      store := { w.store with stage := update w.store.stage p (.owned t .started) }
      net := (w.irecv cfg t a l peer tag comm p).2.net } := by
  unfold irecv expect
  split
  · rw [start_eq]; rfl
  · rw [start_eq]

theorem test_eq : (w.test cfg t h).2 =
    { w with
      store := { w.store with stage := (w.test cfg t h).2.store.stage }
      net := (w.test cfg t h).2.net } := by
  unfold test
  repeat' split
  all_goals rfl

theorem memcpy_eq : w.memcpy dst src n =
    { w with
      net := (w.memcpy dst src n).net
      memory := { w.memory with
        bytes := update w.memory.bytes dst ((w.memory.bytes src).take n) } } := by
  unfold memcpy
  split <;> rfl

theorem giveBlock_eq : w.giveBlock r p = { w with memory := (w.giveBlock r p).memory } := by
  unfold giveBlock
  split <;> rfl

/-- What a signalled completion object is given. -/
def delivery (w : World) (r : Request) (p : RequestPtr) : Delivery :=
  ⟨r, p, w.memory.bytes r.buffer⟩

theorem signal_eq : w.signal cfg t c r p =
    { w with
      memory := (w.giveBlock r p).memory
      store := { w.store with
        delivered := update w.store.delivered c (w.store.delivered c ++ [w.delivery r p])
        cq := if cfg.isHandler c then w.store.cq
          else update w.store.cq c (w.store.cq c ++ [w.delivery r p])
        stage := update w.store.stage p (.owned t .spent) } } := by
  unfold signal
  rw [giveBlock_eq]
  rfl

theorem cqPop_eq : (w.cqPop c).2 =
    { w with store := { w.store with
      cq := (w.cqPop c).2.store.cq
      polled := (w.cqPop c).2.store.polled } } := by
  unfold cqPop
  split <;> rfl

theorem takeContinuation_eq (o : Op) (i : Nat) (st : Status) : w.takeContinuation t o m i e st =
    { w with
      sync := (w.setInside t (o :: w.sync.inside t)).sync
      net := (w.consume e.request st e.mpiReq).net
      store := { w.store with
        attached := update w.store.attached m ((w.store.attached m).eraseIdx i)
        stage := update w.store.stage e.request (.owned t .held) } } := by
  unfold takeContinuation
  rw [consume_eq]
  unfold consume
  cases e.mpiReq with
  | none => rfl
  | some h =>
    simp only [setInside]
    cases w.net.reqs h <;> rfl

theorem newRequest_store (k : Option Comp) : (w.newRequest t r k).store =
    { w.store with
      heap := update w.store.heap (w.freshPtr r k) (some r)
      nextPtr := w.store.nextPtr + 1
      stage := update w.store.stage (w.freshPtr r k) (.owned t .posting) } := by
  rw [newRequest_eq]

variable {cfg t w null comm p x a l peer tag}

theorem start_handle {k : Handle} (hk : (w.start cfg t null comm p x).1 = some k) :
    k.comm = comm ∧ k.request = p := by
  unfold start at hk
  split at hk <;> cases hk
  exact ⟨rfl, rfl⟩

theorem isend_handle {k : Handle} (hk : (w.isend cfg t a l peer tag comm p).1 = some k) :
    k.comm = comm ∧ k.request = p := start_handle hk

theorem irecv_handle {k : Handle} (hk : (w.irecv cfg t a l peer tag comm p).1 = some k) :
    k.comm = comm ∧ k.request = p := start_handle hk

end Compound

end World

/-- The parts of the state an operation is not listed for are as they were. -/
structure Op.Frame (o : Op) (w w' : World) : Prop where
  sync : o.writesSync = false → w'.sync = w.sync
  pend : o.writesPend = false → w'.pend = w.pend
  store : o.writesStore = false → w'.store = w.store
  net : o.writesNet = false → w'.net = w.net
  memory : o.writesMemory = false → w'.memory = w.memory
  devs : o.writesDevs = false → w'.devs = w.devs
  client : o.writesClient = false → w'.client = w.client
  counters : o.writesCounters = false → w'.counters = w.counters

variable {cfg : Config} {t : Tid} {o : Op} {w w' : World} {r : o.Ret}

private theorem Op.Frame.refl (o : Op) (w : World) : o.Frame w w :=
  ⟨fun _ => rfl, fun _ => rfl, fun _ => rfl, fun _ => rfl, fun _ => rfl, fun _ => rfl,
    fun _ => rfl, fun _ => rfl⟩

/-- Every operation respects its frame. -/
theorem exec_frame (hx : exec cfg t o w = some (r, w')) : o.Frame w w' := by
  have reply {α : Type} {a : Option (α × World)} {x : α} (h : a = some (x, w')) :
      a.map Prod.snd = some w' := by rw [h]; rfl
  replace hx := reply hx
  clear reply
  cases o with
  | newRequest q c =>
    obtain rfl := Option.some.inj hx
    rw [World.newRequest_eq]
    constructor <;> first | exact fun _ => rfl | exact fun h => nomatch h
  | isend a n ty dest tag comm p =>
    simp only [exec] at hx
    split at hx <;> obtain rfl := Option.some.inj hx
    · rw [World.isend_eq]
      constructor <;> first | exact fun _ => rfl | exact fun h => nomatch h
    · exact .refl ..
  | irecv a n ty source tag comm p =>
    simp only [exec] at hx
    split at hx <;> obtain rfl := Option.some.inj hx
    · rw [World.irecv_eq]
      constructor <;> first | exact fun _ => rfl | exact fun h => nomatch h
    · exact .refl ..
  | test h =>
    obtain rfl := Option.some.inj hx
    rw [World.test_eq]
    constructor <;> first | exact fun _ => rfl | exact fun h => nomatch h
  | memcpy dst src n =>
    obtain rfl := Option.some.inj hx
    rw [World.memcpy_eq]
    constructor <;> first | exact fun _ => rfl | exact fun h => nomatch h
  | cqPop c =>
    obtain rfl := Option.some.inj hx
    rw [World.cqPop_eq]
    constructor <;> first | exact fun _ => rfl | exact fun h => nomatch h
  | pushBack m e =>
    obtain rfl := Option.some.inj hx
    rw [World.pushBack_eq]
    constructor <;> first | exact fun _ => rfl | exact fun h => nomatch h
  | «continue» m e f =>
    obtain rfl := Option.some.inj hx
    rw [World.attach_eq]
    constructor <;> first | exact fun _ => rfl | exact fun h => nomatch h
  | signal c q p =>
    obtain rfl := Option.some.inj hx
    rw [World.signal_eq]
    constructor <;> first | exact fun _ => rfl | exact fun h => nomatch h
  | lock | tryLock | popFront | allocate =>
    simp only [exec] at hx
    split at hx <;> cases hx
    all_goals constructor <;> first | exact fun _ => rfl | exact fun h => nomatch h
  | readRequest | writeRequest | deleteRequest | slotRequest | readSlot | clearSlot | readDevice =>
    simp only [exec, Option.map_map, Option.map_eq_some_iff] at hx
    obtain ⟨_, _, rfl⟩ := hx
    constructor <;> first | exact fun _ => rfl | exact fun h => nomatch h
  | abort => nomatch hx
  | _ =>
    obtain rfl := Option.some.inj hx
    constructor <;> first | exact fun _ => rfl | exact fun h => nomatch h

/-- Everything is where it was. -/
structure World.Same (w w' : World) : Prop where
  entries : w'.store.entries = w.store.entries
  attached : w'.store.attached = w.store.attached
  cq : w'.store.cq = w.store.cq
  delivered : w'.store.delivered = w.store.delivered
  slot : w'.store.slot = w.store.slot

/-- Operations that change what is kept of entries or completions. -/
def Op.files : Op → Bool
  | .pushBack .. | .popFront _ | .continue .. | .signal .. | .cqPop _ | .writeSlot ..
  | .clearSlot _ => true
  | _ => false

theorem exec_same (hx : exec cfg t o w = some (r, w')) (plain : o.files = false) : w.Same w' := by
  have frame := (exec_frame hx).store
  cases o with
  | pushBack _ _ | popFront _ | «continue» _ _ _ | signal _ _ _ | cqPop _ | writeSlot _ _
  | clearSlot _ => cases plain
  | newRequest q c =>
    obtain ⟨-, rfl⟩ := Prod.mk.inj (Option.some.inj hx)
    rw [World.newRequest_eq]
    exact ⟨rfl, rfl, rfl, rfl, rfl⟩
  | isend a n ty dest tag comm p =>
    simp only [exec] at hx
    split at hx <;> obtain ⟨-, rfl⟩ := Prod.mk.inj (Option.some.inj hx)
    · rw [World.isend_eq]
      exact ⟨rfl, rfl, rfl, rfl, rfl⟩
    · exact ⟨rfl, rfl, rfl, rfl, rfl⟩
  | irecv a n ty source tag comm p =>
    simp only [exec] at hx
    split at hx <;> obtain ⟨-, rfl⟩ := Prod.mk.inj (Option.some.inj hx)
    · rw [World.irecv_eq]
      exact ⟨rfl, rfl, rfl, rfl, rfl⟩
    · exact ⟨rfl, rfl, rfl, rfl, rfl⟩
  | test h =>
    have tested : w' = (w.test cfg t h).2 := (congrArg Prod.snd (Option.some.inj hx)).symm
    rw [tested, World.test_eq]
    exact ⟨rfl, rfl, rfl, rfl, rfl⟩
  | writeRequest p q =>
    obtain ⟨_, -, e⟩ := Option.map_eq_some_iff.mp hx
    obtain ⟨-, rfl⟩ := Prod.mk.inj e
    exact ⟨rfl, rfl, rfl, rfl, rfl⟩
  | deleteRequest p =>
    obtain ⟨_, -, e⟩ := Option.map_eq_some_iff.mp hx
    obtain ⟨-, rfl⟩ := Prod.mk.inj e
    exact ⟨rfl, rfl, rfl, rfl, rfl⟩
  | _ =>
    have store := frame rfl
    exact ⟨by rw [store], by rw [store], by rw [store], by rw [store], by rw [store]⟩

theorem env_same (step : EnvStep cfg w w') : w.Same w' ∧ w'.counters = w.counters := by
  cases step <;> exact ⟨⟨rfl, rfl, rfl, rfl, rfl⟩, rfl⟩

end Lcw.Mpi
