/- digest: Messages of puts and of sends, and of different devices, are never received as others. -/

import Lcw.Interleave.Observe
import Lcw.Mpi.LedgerApi
import Lcw.Mpi.Quiet

set_option autoImplicit false
set_option relaxedAutoImplicit false

namespace Lcw.Mpi

open Interleave Interleave.System
open Function (update)

/-- History of `MPI_Comm_dup`: the devices for which each process has called it, in order, and
the thread that is to call it for a device. -/
structure Duplicates where
  order : Rank → List Dev
  due : Dev → Option Tid

namespace Duplicates

variable (g : Duplicates) (t : Tid) (d : Dev)

def announce : Duplicates := { g with due := update g.due d (some t) }

def duplicate : Duplicates where
  order := update g.order t.rank (g.order t.rank ++ [d])
  due := update g.due d none

/-- The communicators that were made, each for its device. -/
def comms : Set Comm := {c | (g.order c.device.rank)[c.context]? = some c.device}

/-- Two processes allocated the devices as the same one: their calls of `MPI_Comm_dup` have the
same number. -/
def Same (d d' : Dev) : Prop :=
  ∃ i : Nat, (g.order d.rank)[i]? = some d ∧ (g.order d'.rank)[i]? = some d'

variable {g}

theorem comms_duplicate : g.comms ⊆ (g.duplicate t d).comms := by
  intro c made
  have made : (g.order c.device.rank)[c.context]? = some c.device := made
  show (update g.order t.rank _ c.device.rank)[c.context]? = some c.device
  by_cases same : c.device.rank = t.rank
  · rw [same] at made
    rw [same, Function.update_self]
    exact List.getElem?_append_left (List.getElem?_eq_some_iff.mp made).1 ▸ made
  · rw [Function.update_of_ne same]
    exact made

theorem duplicate_mem (rank : d.rank = t.rank) :
    (⟨d, (g.order t.rank).length⟩ : Comm) ∈ (g.duplicate t d).comms := by
  show (update g.order t.rank _ d.rank)[(g.order t.rank).length]? = some d
  rw [rank, Function.update_self]
  simp

end Duplicates

variable (cfg : Config)

/-- An onlooker that numbers the calls of `MPI_Comm_dup`. -/
def duplicates : (machine cfg).Observer where
  Record := Duplicates
  exec (t : Tid) (o : Op) (r : o.Ret) (g : Duplicates) := match o with
    | .newDevice => g.announce t (r : Dev)
    | .commCreate d => g.duplicate t d
    | _ => g
  intr _ _ g := g

abbrev numbered : System := (duplicates cfg).observed

def numberedStart : (numbered cfg).State :=
  (duplicates cfg).beside (start cfg) ⟨fun _ => [], fun _ => none⟩

variable {cfg} (K : Set Comm)

/-- Threads communicate on communicators that were made, and make one for each new device. -/
def commContract : Contract Op Op.Ret (Set Dev) where
  pre
    | .isend _ _ _ _ _ comm _, _ | .irecv _ _ _ _ _ comm _, _ => comm ∈ K
    | .initDevice _ dev, _ => dev.comm ∈ K
    | .commCreate d, v => d ∈ v
    | _, _ => True
  post
    | .newDevice, v, d, v' => (d : Dev) ∉ v ∧ v' = insert (d : Dev) v
    | .commCreate d, v, c, v' => (c : Comm) ∈ K ∧ v' = v \ {d}
    | .readDevice _, v, dev, v' => Device.comm dev ∈ K ∧ v' = v
    | _, v, _, v' => v' = v

section Programs

/-- Operations that make no device and use only communicators that were made. -/
def Op.settled : Op → Prop
  | .isend _ _ _ _ _ comm _ | .irecv _ _ _ _ _ comm _ => comm ∈ K
  | .initDevice _ dev => dev.comm ∈ K
  | .newDevice | .commCreate _ => False
  | _ => True

variable {K}

theorem settled_of_plain (o : Op) (h : o.plain) : o.settled K := by
  cases o <;> first | exact h.elim | exact trivial

theorem settled_quiet (o : Op) (v : Set Dev) (h : o.settled K) : (commContract K).pre o v ∧
    ∀ r v', (commContract K).post o v r v' → v' = v := by
  cases o <;> first
    | exact h.elim
    | exact ⟨trivial, fun _ _ hv => hv⟩
    | exact ⟨h, fun _ _ hv => hv⟩
    | exact ⟨trivial, fun _ _ hv => hv.2⟩

/-- A program that leaves its thread no device to make a communicator for. -/
def Balanced {α : Type} (K : Set Comm) (p : Code α) : Prop :=
  ∀ v, (commContract K).wp p (fun _ v' => v' = v) v

theorem balanced_of_uses {α : Type} {p : Code α} (h : p.Uses (Op.settled K)) : Balanced K p :=
  fun v => (commContract K).wp_of_uses settled_quiet h v

theorem balanced_bind {α β : Type} {p : Code α} {f : α → Code β} (hp : Balanced K p)
    (hf : ∀ a, Balanced K (f a)) : Balanced K (p.bind f) := fun v =>
  (commContract K).wp_call (hp v) fun a _ hv => hv ▸ hf a v

theorem balanced_ite {α : Type} {c : Prop} [Decidable c] {p q : Code α} (hp : Balanced K p)
    (hq : Balanced K q) : Balanced K (if c then p else q) := by
  split
  · exact hp
  · exact hq

theorem balanced_ret {α : Type} {a : α} : Balanced K (.ret a : Code α) := fun _ => rfl

/-- What is read of a device has a communicator that was made. -/
theorem balanced_readDevice {α : Type} {d : Dev} {f : Device → Code α}
    (hf : ∀ device : Device, device.comm ∈ K → Balanced K (f device)) :
    Balanced K ((act (.readDevice d)).bind f) := fun v =>
  (commContract K).wp_act trivial fun device _ hv => hv.2 ▸ hf device hv.1 v

theorem settled_isend {a : Buffer} {n : Nat} {rank tag : Int} {comm : Comm} {p : RequestPtr}
    (made : comm ∈ K) : (isend a n rank tag comm p).Uses (Op.settled K) :=
  Prog.uses_bind (uses_describe settled_of_plain n) fun _ =>
    Prog.uses_then made (uses_safecall settled_of_plain p)

theorem settled_irecv {a : Buffer} {n : Nat} {rank tag : Int} {comm : Comm} {p : RequestPtr}
    (made : comm ∈ K) : (irecv a n rank tag comm p).Uses (Op.settled K) :=
  Prog.uses_bind (uses_describe settled_of_plain n) fun _ =>
    Prog.uses_then made (uses_safecall settled_of_plain p)

theorem settled_signalComp {e : Entry} : (signalComp cfg e).Uses (Op.settled K) := by
  refine Prog.uses_then trivial fun q => ?_
  refine Prog.uses_bind (uses_countCompletion settled_of_plain (fun _ => trivial) _ _) fun _ => ?_
  refine Prog.uses_then trivial fun _ => Prog.uses_bind ?_ fun _ => uses_act trivial
  cases e.completion with
  | none => exact uses_assert settled_of_plain
  | some c => exact Prog.uses_then trivial fun _ => uses_when (uses_act trivial)

theorem settled_managerReq {m : Manager} : (managerReqDoProgress cfg m).Uses (Op.settled K) := by
  refine Prog.uses_then trivial fun empty => uses_ite trivial ?_
  refine Prog.uses_then trivial fun taken => uses_ite trivial ?_
  refine Prog.uses_then trivial fun empty => uses_ite (Prog.uses_then trivial fun _ => trivial) ?_
  refine Prog.uses_then trivial fun e => ?_
  refine Prog.uses_bind (uses_managerReqTest settled_of_plain fun _ => trivial) fun st => ?_
  cases st with
  | none => exact Prog.uses_then trivial fun _ => Prog.uses_then trivial fun _ => trivial
  | some st =>
    refine Prog.uses_then trivial fun _ => Prog.uses_bind ?_ fun _ => trivial
    refine Prog.uses_then trivial fun q => ?_
    refine Prog.uses_bind (uses_assert settled_of_plain) fun _ => ?_
    exact Prog.uses_bind (uses_when (uses_act trivial)) fun _ => settled_signalComp

theorem settled_manager {m : Manager} : (managerDoProgress cfg m).Uses (Op.settled K) := by
  unfold managerDoProgress
  cases cfg.compType with
  | request => exact settled_managerReq
  | «continue» =>
    exact uses_managerContDoProgress settled_of_plain fun _ => ⟨trivial, trivial, trivial⟩

theorem balanced_postPutRecv {d : Dev} {c : Option Comp} : Balanced K (postPutRecv cfg d c) := by
  refine balanced_readDevice fun device made => balanced_of_uses ?_
  refine Prog.uses_then trivial fun p => ?_
  refine Prog.uses_bind (uses_enter settled_of_plain) fun _ => Prog.uses_then trivial fun q => ?_
  refine Prog.uses_bind (settled_irecv made) fun h => ?_
  exact Prog.uses_bind (uses_leave settled_of_plain) fun _ => uses_act trivial

theorem balanced_act {o : Op} (h : o.settled K) : Balanced K (act o) := balanced_of_uses (uses_act h)

theorem balanced_assert {c : Bool} {why : Failure} : Balanced K (lcwAssert c why) :=
  balanced_of_uses (uses_assert settled_of_plain)

theorem balanced_putSlotTake {d : Dev} {st : Status} : Balanced K (putSlotTake cfg d st) := by
  refine balanced_bind (balanced_act trivial) fun e => balanced_bind (balanced_act trivial) fun q => ?_
  refine balanced_bind balanced_assert fun _ => balanced_bind (balanced_act trivial) fun b => ?_
  cases b with
  | none => exact balanced_bind balanced_assert fun _ => balanced_ret
  | some b =>
    refine balanced_bind (balanced_act trivial) fun _ => balanced_bind (balanced_act trivial) fun _ => ?_
    exact balanced_bind balanced_postPutRecv fun _ => balanced_ret

theorem balanced_putSlot (d : Dev) (device : Device) : Balanced K (putSlotProgress cfg d device) := by
  have unlock {b : Bool} : Balanced K ((act (.unlock (.put d))).bind fun _ => .ret b) :=
    balanced_bind (balanced_act trivial) fun _ => balanced_ret
  have test : (putSlotTest cfg d).Uses (Op.settled K) :=
    uses_putSlotTest settled_of_plain fun _ => trivial
  refine balanced_ite balanced_ret (balanced_bind (balanced_act trivial) fun h => balanced_ite balanced_ret ?_)
  refine balanced_bind (balanced_act trivial) fun taken => balanced_ite balanced_ret ?_
  refine balanced_bind (balanced_act trivial) fun h => balanced_ite unlock ?_
  refine balanced_bind (balanced_of_uses test) fun st => ?_
  cases st with
  | none => exact unlock
  | some st =>
    refine balanced_bind balanced_putSlotTake fun e => balanced_bind (balanced_act trivial) fun _ => ?_
    exact balanced_bind (balanced_of_uses settled_signalComp) fun _ => balanced_ret

theorem balanced_postEntry {d : Dev} {device : Device} {q : Request} {c : Option Comp}
    {call : Request → RequestPtr → Code (Option Handle)}
    (h : ∀ q p, (call q p).Uses (Op.settled K)) : Balanced K (postEntry cfg d device q c call) := by
  have handed {m : Manager} {e : Entry} : (addEntry cfg m e).Uses (Op.settled K) :=
    uses_addEntry settled_of_plain (fun _ => ⟨trivial, trivial, trivial⟩) trivial trivial
  refine balanced_of_uses (Prog.uses_then trivial fun p => ?_)
  refine Prog.uses_bind (uses_enter settled_of_plain) fun _ => Prog.uses_bind (h q p) fun x => ?_
  refine Prog.uses_bind (uses_leave settled_of_plain) fun _ => ?_
  exact Prog.uses_bind handed fun _ => trivial

theorem balanced_counted {post : Code Bool} {start retry : Counter} (h : Balanced K post) :
    Balanced K (counted post start retry) :=
  balanced_bind h fun _ => balanced_bind (balanced_act trivial) fun _ => balanced_ret

/-- A device that is allocated gets its communicator before anything else is done with it. -/
theorem balanced_allocDevice {n : Int} {c : Option Comp} : Balanced K (allocDevice cfg n c) := by
  intro v
  refine (commContract K).wp_act trivial fun d v₁ ⟨fresh, hv⟩ => ?_
  refine (commContract K).wp_act trivial fun id v₂ hv₂ => ?_
  have due : (d : Dev) ∈ v₂ := by
    rw [show v₂ = v₁ from hv₂, hv]
    exact Set.mem_insert _ _
  refine (commContract K).wp_act due fun comm v₃ ⟨made, hv₃⟩ => ?_
  have back : v₃ = v := by
    rw [hv₃, show v₂ = v₁ from hv₂, hv]
    exact Set.insert_sdiff_self_of_notMem fresh
  subst back
  refine (commContract K).wp_act made fun _ v₄ hv₄ => ?_
  rw [show v₄ = v₃ from hv₄]
  exact balanced_bind balanced_postPutRecv (fun _ => balanced_ret) v₃

theorem balanced_callBody (c : Call) : Balanced K (callBody cfg c) := by
  have admits : Balanced K (admitPost cfg) := balanced_of_uses (uses_admitPost settled_of_plain)
  cases c with
  | send d rank tag buf length comp ctx =>
    refine balanced_counted (balanced_bind admits fun ok => balanced_ite balanced_ret ?_)
    exact balanced_readDevice fun device made => balanced_postEntry fun _ _ => settled_isend made
  | recv d rank tag buf length comp ctx =>
    refine balanced_counted (balanced_readDevice fun device made => ?_)
    exact balanced_postEntry fun _ _ => settled_irecv made
  | put d rank buf length comp ctx =>
    refine balanced_counted (balanced_readDevice fun device made => balanced_bind balanced_assert fun _ => ?_)
    refine balanced_bind admits fun ok => balanced_ite balanced_ret ?_
    exact balanced_postEntry fun _ _ => settled_isend made
  | doProgress d =>
    refine balanced_bind (balanced_act trivial) fun _ => balanced_bind ?_ fun _ => balanced_ret
    refine balanced_bind (balanced_act trivial) fun device => ?_
    refine balanced_bind (balanced_putSlot d device) fun _ => ?_
    exact balanced_bind (balanced_of_uses settled_manager) fun _ => balanced_ret
  | pollCq c => exact balanced_of_uses (uses_pollCq (fun _ => trivial) trivial)
  | barrier d =>
    exact balanced_bind (balanced_of_uses (uses_barrier settled_of_plain d)) fun _ => balanced_ret
  | allocDevice n c => exact balanced_bind balanced_allocDevice fun _ => balanced_ret
  | freeDevice d =>
    exact balanced_bind (balanced_of_uses (uses_freeDevice settled_of_plain d)) fun _ => balanced_ret

theorem balanced_apiCall (c : Call) : Balanced K (apiCall cfg c) :=
  balanced_bind (balanced_callBody c) fun _ => balanced_act trivial

theorem balanced_completeCb {success : Bool} {e : Entry} : Balanced K (completeCb cfg success e) :=
  balanced_bind balanced_assert fun _ =>
    balanced_bind (balanced_of_uses settled_signalComp) fun _ => balanced_act trivial

end Programs

section Shared

variable {P : PutRules cfg} {t : Tid} {w w' : World} {g : Duplicates}

variable (cfg) in
/-- A message is on the communicator of the device it was sent on, to the rank it was meant for,
with a tag that MPI takes. -/
structure Message.Carried (K : Set Comm) (m : Message) : Prop where
  comm : (⟨m.request.posted.device, m.context⟩ : Comm) ∈ K
  target : (m.dst : Int) = toInt m.request.posted.rank
  tag : 0 ≤ m.tag ∧ m.tag ≤ cfg.maxTag

variable (cfg) in
/-- The calls of `MPI_Comm_dup` of each process number its devices, and MPI is used with the
communicators they made. -/
structure Numbered (K : Set Comm) (w : World) (g : Duplicates) : Prop where
  count : ∀ r, w.net.contexts r = (g.order r).length
  order : ∀ r, ∀ d ∈ g.order r, d.rank = r ∧ d.addr < w.devs.nextAddr r
  nodup : ∀ r, (g.order r).Nodup
  due : ∀ d t, g.due d = some t →
    d.rank = t.rank ∧ d.addr < w.devs.nextAddr d.rank ∧ d ∉ g.order d.rank
  table : ∀ d dev, w.devs.table d = some dev → dev.comm ∈ K
  reqs : ∀ h q, w.net.reqs h = some q → h.comm ∈ K
  flying : ∀ m ∈ w.net.inflight, m.Carried cfg K

/-- The devices a thread is about to make a communicator for. -/
def dueOf (t : Tid) (g : Duplicates) : Set Dev := {d | g.due d = some t}

variable {K}

theorem Numbered.carry (h : Numbered cfg K w g) (contexts : w'.net.contexts = w.net.contexts)
    (addr : w'.devs.nextAddr = w.devs.nextAddr)
    (table : ∀ d dev, w'.devs.table d = some dev → dev.comm ∈ K)
    (reqs : ∀ h q, w'.net.reqs h = some q → h.comm ∈ K)
    (flying : ∀ m ∈ w'.net.inflight, m.Carried cfg K) : Numbered cfg K w' g where
  count r := by rw [contexts, h.count]
  order r d hd := by
    rw [addr]
    exact h.order r d hd
  nodup := h.nodup
  due d t hd := by
    rw [addr]
    exact h.due d t hd
  table := table
  reqs := reqs
  flying := flying

/-- MPI goes on with the requests and messages it has. -/
theorem Numbered.still (h : Numbered cfg K w g) (contexts : w'.net.contexts = w.net.contexts)
    (devs : w'.devs = w.devs)
    (reqs : ∀ x q, w'.net.reqs x = some q → ∃ q', w.net.reqs x = some q')
    (flying : ∀ m ∈ w'.net.inflight, m ∈ w.net.inflight) : Numbered cfg K w' g := by
  refine h.carry contexts (by rw [devs]) (by rw [devs]; exact h.table) ?_ ?_
  · intro x q hq
    obtain ⟨q', before⟩ := reqs x q hq
    exact h.reqs x q' before
  · exact fun m hm => h.flying m (flying m hm)

theorem reqs_of_setReq {x y : Handle} {q q' r : MpiRequest} (hq : w.net.reqs x = some q')
    (hy : (w.setReq x q).net.reqs y = some r) : ∃ q, w.net.reqs y = some q := by
  rcases setReq_cases hy with ⟨rfl, -⟩ | ⟨-, hy⟩
  · exact ⟨q', hq⟩
  · exact ⟨r, hy⟩

/-- A started request is on the communicator it was started on. -/
theorem Numbered.start (h : Numbered cfg K w g) {null : Bool} {comm : Comm} {p : RequestPtr}
    {q : MpiRequest} (made : comm ∈ K) : Numbered cfg K (w.start cfg t null comm p q).2 g := by
  unfold World.start
  cases null with
  | true => exact h.carry rfl rfl h.table h.reqs h.flying
  | false =>
    refine h.carry rfl rfl h.table (fun x r hx => ?_) h.flying
    by_cases same : x = w.freshHandle comm p
    · subst same
      exact made
    · exact h.reqs x r ((Function.update_of_ne same _ _).symm.trans hx)

theorem Numbered.isend (h : Numbered cfg K w g) {a : Buffer} {n dest tag : Int} {ty : Datatype}
    {comm : Comm} {p : RequestPtr} (made : comm ∈ K) (valid : cfg.validSend dest tag = true)
    (may : (account t w).MaySend P t a n ty dest tag comm p) :
    Numbered cfg K (w.isend cfg t a (Datatype.layout n ty) dest tag comm p).2 g := by
  unfold World.isend
  rw [start_enqueue]
  have started : Numbered cfg K (w.start cfg t (cfg.nullHandle w.net.nextHandle) comm p
      ⟨false, a, Datatype.layout n ty, dest, tag, .pending⟩).2 g := h.start made
  refine started.carry rfl rfl started.table started.reqs fun m hm => ?_
  rcases List.mem_append.mp hm with hm | hm
  · exact started.flying m hm
  · obtain rfl := List.mem_singleton.mp hm
    simp only [Config.validSend, Bool.and_eq_true, decide_eq_true_eq] at valid
    refine ⟨?_, ?_, valid.1.2, valid.2⟩
    · simp only [World.message, ← may.device]
      exact made
    · simp only [World.message, ← may.target]
      omega

theorem Numbered.test (h : Numbered cfg K w g) (x : Option Handle) :
    Numbered cfg K (w.test cfg t x).2 g := by
  unfold World.test
  cases x with
  | none => exact h
  | some x =>
    dsimp only
    cases hq : w.net.reqs x with
    | none => exact h
    | some q =>
      dsimp only
      cases q.state with
      | pending => exact h
      | consumed => exact h
      | complete st =>
        dsimp only
        split
        · exact h
        · split <;> exact h.still rfl rfl (fun y r hy => reqs_of_setReq hq hy) fun m hm => hm

theorem Numbered.newDevice (h : Numbered cfg K w g) :
    Numbered cfg K (w.newDevice t).2 (g.announce t (w.newDevice t).1) ∧
      (w.newDevice t).1 ∉ dueOf t g ∧
      dueOf t (g.announce t (w.newDevice t).1) = insert (w.newDevice t).1 (dueOf t g) ∧
      ∀ u, u ≠ t → dueOf u (g.announce t (w.newDevice t).1) = dueOf u g := by
  have grows (r : Rank) : w.devs.nextAddr r ≤ (w.newDevice t).2.devs.nextAddr r := by
    by_cases same : r = t.rank <;> simp [World.newDevice, same]
  have fresh (u : Tid) : g.due (w.newDevice t).1 ≠ some u := fun due =>
    absurd (h.due _ _ due).2.1 (Nat.lt_irrefl _)
  refine ⟨⟨h.count, ?_, h.nodup, ?_, h.table, h.reqs, h.flying⟩, fresh t, ?_, ?_⟩
  · intro r d hd
    have before := h.order r d hd
    have bound := grows r
    exact ⟨before.1, by omega⟩
  · intro d u hd
    by_cases new : d = (w.newDevice t).1
    · subst new
      simp only [Duplicates.announce, Function.update_self, Option.some.injEq] at hd
      subst hd
      refine ⟨rfl, by simp [World.newDevice], fun old => ?_⟩
      exact absurd (h.order _ _ old).2 (Nat.lt_irrefl _)
    · simp only [Duplicates.announce, Function.update_of_ne new] at hd
      obtain ⟨rank, addr, absent⟩ := h.due d u hd
      have bound := grows d.rank
      exact ⟨rank, by omega, absent⟩
  · ext d
    by_cases new : d = (w.newDevice t).1
    · simp [dueOf, Duplicates.announce, new]
    · simp [dueOf, Duplicates.announce, new]
  · intro u hu
    ext d
    by_cases new : d = (w.newDevice t).1
    · subst new
      simp [dueOf, Duplicates.announce, fresh u, hu.symm]
    · simp [dueOf, Duplicates.announce, new]

theorem Numbered.commCreate (h : Numbered cfg K w g) {d : Dev} (due : d ∈ dueOf t g)
    {c : Comm} (hx : exec cfg t (.commCreate d) w = some (c, w')) :
    c ∈ (g.duplicate t d).comms ∧ Numbered cfg K w' (g.duplicate t d) ∧
      dueOf t (g.duplicate t d) = dueOf t g \ {d} ∧
      ∀ u, u ≠ t → dueOf u (g.duplicate t d) = dueOf u g := by
  have mine : g.due d = some t := due
  obtain ⟨rank, addr, absent⟩ := h.due d t mine
  obtain ⟨rfl, rfl⟩ := Prod.mk.inj (Option.some.inj hx)
  refine ⟨?_, ⟨?_, ?_, ?_, ?_, h.table, h.reqs, h.flying⟩, ?_, ?_⟩
  · rw [h.count]
    exact Duplicates.duplicate_mem t d rank
  · intro r
    by_cases same : r = t.rank
    · subst same
      simp [Duplicates.duplicate, h.count]
    · simp [Duplicates.duplicate, same, h.count]
  · intro r d' hd
    by_cases same : r = t.rank
    · subst same
      simp only [Duplicates.duplicate, Function.update_self] at hd
      rcases List.mem_append.mp hd with hd | hd
      · exact h.order _ d' hd
      · obtain rfl := List.mem_singleton.mp hd
        exact ⟨rank, rank ▸ addr⟩
    · simp only [Duplicates.duplicate, Function.update_of_ne same] at hd
      exact h.order r d' hd
  · intro r
    by_cases same : r = t.rank
    · subst same
      simp only [Duplicates.duplicate, Function.update_self]
      rw [rank] at absent
      exact List.concat_eq_append ▸ (h.nodup _).concat absent
    · simp only [Duplicates.duplicate, Function.update_of_ne same]
      exact h.nodup r
  · intro d' u hd
    by_cases same : d' = d
    · subst same
      simp [Duplicates.duplicate] at hd
    · simp only [Duplicates.duplicate, Function.update_of_ne same] at hd ⊢
      obtain ⟨rank', addr', absent'⟩ := h.due d' u hd
      refine ⟨rank', addr', ?_⟩
      by_cases here : d'.rank = t.rank
      · rw [here] at absent' ⊢
        simp [absent', same]
      · rw [Function.update_of_ne here]
        exact absent'
  · ext d'
    by_cases same : d' = d
    · simp [dueOf, Duplicates.duplicate, same]
    · simp [dueOf, Duplicates.duplicate, same]
  · intro u hu
    ext d'
    by_cases same : d' = d
    · subst same
      simp [dueOf, Duplicates.duplicate, mine, hu.symm]
    · simp [dueOf, Duplicates.duplicate, same]

theorem Numbered.irecv (h : Numbered cfg K w g) {a : Buffer} {l : List Int} {source tag : Int}
    {comm : Comm} {p : RequestPtr} (made : comm ∈ K) :
    Numbered cfg K (w.irecv cfg t a l source tag comm p).2 g := by
  have expected : Numbered cfg K (w.expect comm p) g := by
    unfold World.expect
    split
    · exact h.still rfl rfl (fun x q hq => ⟨q, hq⟩) fun m hm => hm
    · exact h
  exact expected.start made

/-- Operations other than those that make devices and communicators leave the numbers. -/
theorem Numbered.exec (h : Numbered cfg K w g) {o : Op} {r : o.Ret}
    (pre : ledgerPre P t o (account t w)) (known : (commContract K).pre o (dueOf t g))
    (other : o ≠ .newDevice) (other' : ∀ d, o ≠ .commCreate d)
    (hx : exec cfg t o w = some (r, w')) : Numbered cfg K w' g := by
  have frame := exec_frame hx
  have same {w' : World} (net : w'.net = w.net) (devs : w'.devs = w.devs) : Numbered cfg K w' g :=
    h.still (by rw [net]) devs (fun x q hq => ⟨q, by rw [← net]; exact hq⟩)
      fun m hm => by rw [← net]; exact hm
  cases o with
  | newDevice => exact absurd rfl other
  | commCreate d => exact absurd rfl (other' d)
  | isend a n ty dest tag comm p =>
    simp only [Lcw.Mpi.exec] at hx
    split at hx
    · rename_i valid
      cases hx
      exact h.isend known valid pre.2
    · cases hx
      exact h
  | irecv a n ty source tag comm p =>
    simp only [Lcw.Mpi.exec] at hx
    split at hx
    · cases hx
      exact h.irecv known
    · cases hx
      exact h
  | test x =>
    have after : (w.test cfg t x).2 = w' := congrArg Prod.snd (Option.some.inj hx)
    exact after ▸ h.test x
  | initDevice d dev =>
    cases hx
    refine h.carry rfl rfl (fun d' dev' hd => ?_) h.reqs h.flying
    have hd : update w.devs.table d (some dev) d' = some dev' := hd
    by_cases here : d' = d
    · rw [here, Function.update_self] at hd
      exact Option.some.inj hd ▸ known
    · rw [Function.update_of_ne here] at hd
      exact h.table d' dev' hd
  | deleteDevice d =>
    cases hx
    refine h.carry rfl rfl (fun d' dev' hd => ?_) h.reqs h.flying
    have hd : update w.devs.table d none d' = some dev' := hd
    by_cases here : d' = d
    · rw [here, Function.update_self] at hd
      cases hd
    · rw [Function.update_of_ne here] at hd
      exact h.table d' dev' hd
  | writeSlot d e =>
    cases hx
    exact h.still rfl rfl (fun x q hq => ⟨q, hq⟩) fun m hm => hm
  | memcpy dst src n =>
    cases hx
    unfold World.memcpy
    cases src <;> exact h.still rfl rfl (fun x q hq => ⟨q, hq⟩) fun m hm => hm
  | commFree c =>
    cases hx
    exact h.still rfl rfl (fun x q hq => ⟨q, hq⟩) fun m hm => hm
  | endCall x =>
    cases hx
    refine h.carry rfl ?_ ?_ h.reqs h.flying
    all_goals unfold World.endCall
    · cases x <;> rfl
    · cases x <;> exact h.table
  | fetchAddNdevices =>
    cases hx
    exact h.carry rfl rfl h.table h.reqs h.flying
  | abort f => cases hx
  | _ => exact same (frame.net rfl) (frame.devs rfl)

theorem Numbered.env (h : Numbered cfg K w g) (step : EnvStep cfg w w') : Numbered cfg K w' g := by
  cases step with
  | sendDone x q hq send pending =>
    exact h.still rfl rfl (fun y r hy => reqs_of_setReq hq hy) fun m hm => hm
  | deliver i m x q hm hq pending accepts =>
    exact h.still rfl rfl (fun y r hy => reqs_of_setReq hq hy) fun m hm => List.mem_of_mem_eraseIdx hm
  | write b bytes hb => exact h.still rfl rfl (fun x q hq => ⟨q, hq⟩) fun m hm => hm

theorem Numbered.takeContinuation (h : Numbered cfg K w g) {o : Op} {m : Manager} {i : Nat}
    {e : Entry} {st : Status} : Numbered cfg K (w.takeContinuation t o m i e st) g := by
  rw [World.takeContinuation_eq]
  unfold World.consume
  cases e.mpiReq with
  | none => exact h.still rfl rfl (fun x q hq => ⟨q, hq⟩) fun m hm => hm
  | some x =>
    dsimp only
    cases hq : w.net.reqs x with
    | none => exact h.still rfl rfl (fun x q hq => ⟨q, hq⟩) fun m hm => hm
    | some q => exact h.still rfl rfl (fun y r hy => reqs_of_setReq hq hy) fun m hm => hm

end Shared

section Discipline

variable (P : PutRules cfg)

/-- Communicators of an observed state. -/
def made (s : (numbered cfg).State) : Set Comm := s.shared.2.comms

/-- The runs that are about communicators in `K`, with the books in order. -/
def Within (s : (numbered cfg).State) (e : (numbered cfg).Event) : Prop :=
  (ledgerDiscipline P).Holds ((duplicates cfg).bare s) ∧
    ∀ s', System.step s e = some s' → made s' ⊆ K

variable {P K} in
theorem exec_made {s : (numbered cfg).State} {t : Tid} {o : Op}
    {k : o.Ret → Code Unit} {r : o.Ret} {x : World × Duplicates}
    (within : Within K P s (.exec t)) (hs : s.prog t = .op o k)
    (hx : (numbered cfg).exec t o s.shared = some (r, x)) : x.2.comms ⊆ K := by
  refine within.2 ⟨x, update s.prog t (k r)⟩ ?_
  simp only [System.step, hs, hx]
  rfl

/-- Each process numbers its devices, whatever its threads do at the same time. -/
def numbering : Discipline (numbered cfg) (Within K P) where
  View := Set Dev
  view t x := dueOf t x.2
  inv x := Numbered cfg K x.1 x.2
  contract _ := commContract K
  exec s t o k r x h hok hs pre hx := by
    have inside := exec_made hok hs hx
    obtain ⟨step, record⟩ := System.Observer.exec_some hx
    have books := hok.1.2 t
    have prog : ((duplicates cfg).bare s).prog t = .op o k := hs
    rw [prog] at books
    have pays : ledgerPre P t o (account t s.shared.1) := books.1
    replace step : Lcw.Mpi.exec cfg t o s.shared.1 = some (r, x.1) := step
    cases o with
    | newDevice =>
      obtain ⟨rfl, after⟩ := Prod.mk.inj (Option.some.inj step)
      obtain ⟨numbered, fresh, mine, others⟩ := h.newDevice (t := t)
      rw [record, ← after]
      exact ⟨numbered, ⟨fresh, mine⟩, others⟩
    | commCreate d =>
      obtain ⟨new, numbered, mine, others⟩ := h.commCreate pre step
      rw [record] at inside ⊢
      exact ⟨numbered, ⟨inside new, mine⟩, others⟩
    | readDevice d =>
      rw [record]
      obtain ⟨dev, hd, same⟩ := Option.map_eq_some_iff.mp step
      obtain ⟨rfl, after⟩ := Prod.mk.inj same
      rw [← after]
      exact ⟨h, ⟨h.table d dev hd, rfl⟩, fun _ _ => rfl⟩
    | _ =>
      rw [record]
      refine ⟨h.exec pays pre (by simp) (by simp) step, ?_, fun _ _ => rfl⟩
      exact rfl
  intr s t o k i p x h hok hs pre hx := by
    obtain ⟨step, record⟩ := System.Observer.intr_some hx
    rw [record]
    cases i with
    | call c =>
      obtain ⟨rfl, -, rfl, after⟩ := intr_call step
      rw [after]
      refine ⟨h.carry rfl rfl h.table h.reqs h.flying, ?_, fun _ _ => rfl⟩
      exact balanced_apiCall c _
    | continuation m j =>
      obtain ⟨-, -, -, e, st, -, -, rfl, after⟩ := intr_continuation step
      rw [after]
      exact ⟨h.takeContinuation, balanced_completeCb _, fun _ _ => rfl⟩
  env s e x h hok hx := by
    obtain ⟨step, record⟩ := System.Observer.env_some hx
    rw [record]
    exact ⟨h.env (env_cases step), fun _ => rfl⟩

theorem numbering_start : (numbering K P).Holds (numberedStart cfg) := by
  refine ⟨⟨fun r => rfl, ?_, fun r => List.nodup_nil, ?_, ?_, ?_, ?_⟩, fun t => ?_⟩
  · intro r d hd
    cases hd
  · intro d t hd
    cases hd
  · intro d dev hd
    cases hd
  · intro x q hq
    cases hq
  · intro m hm
    cases hm
  · simp only [numberedStart, System.Observer.beside, start]
    split
    · exact ⟨trivial, fun _ _ _ => trivial⟩
    · trivial

variable {P}

theorem made_step {s s' : (numbered cfg).State} {e : (numbered cfg).Event}
    (step : System.step s e = some s') : made s ⊆ made s' := by
  cases e with
  | exec t =>
    obtain ⟨o, k, r, x, hs, hx, rfl⟩ := System.step_exec step
    have record := (System.Observer.exec_some hx).2
    have grows : s.shared.2.comms ⊆ x.2.comms := by
      rw [record]
      cases o with
      | newDevice => exact fun _ hc => hc
      | commCreate d => exact Duplicates.comms_duplicate t d
      | _ => exact fun _ hc => hc
    exact grows
  | intr t i =>
    obtain ⟨o, k, p, x, hs, hx, rfl⟩ := System.step_intr step
    have record := (System.Observer.intr_some hx).2
    show s.shared.2.comms ⊆ x.2.comms
    rw [record]
    exact fun _ hc => hc
  | env e =>
    obtain ⟨x, hx, rfl⟩ := System.step_env step
    have record := (System.Observer.env_some hx).2
    show s.shared.2.comms ⊆ x.2.comms
    rw [record]

/-- In a reached state every communicator in use is one that was made for its device. -/
theorem numbered_of_reach {s : (numbered cfg).State}
    (h : Reach (fun s e => Orderly P ((duplicates cfg).bare s) ((duplicates cfg).event e))
      (numberedStart cfg) s) : Numbered cfg (made s) s.shared.1 s.shared.2 := by
  have known (x : (numbered cfg).State)
      (reached : Reach (fun s e => Orderly P ((duplicates cfg).bare s) ((duplicates cfg).event e))
        (numberedStart cfg) x) : (ledgerDiscipline P).Holds ((duplicates cfg).bare x) :=
    ledger_of_reach (System.Observer.reach_bare reached)
  have inside := (h.strengthen known).toward (f := made) fun _ _ _ => made_step
  have within := inside.mono fun x e ok => (⟨ok.1.2, ok.2⟩ : Within (made s) P x e)
  exact ((numbering (made s) P).reach (numbering_start _ P) within).1

end Discipline

section Matching

/-- The rules for runs in which user tags are in their range. -/
def PutRules.userTags (tags : 0 ≤ cfg.maxTag ∧ cfg.maxTag ≤ intMax) : PutRules cfg where
  on := false
  tagged := true
  size _ _ := 0
  both _ := rfl
  tags _ := tags

/-- Sends and receives have tags from 0 to `get_max_tag`. -/
def TagsInRange (_ : (machine cfg).State) : (machine cfg).Event → Prop
  | .intr _ (.call c) => match c with
    | .send _ _ tag .. | .recv _ _ tag .. => 0 ≤ tag ∧ tag ≤ cfg.maxTag - 1
    | _ => True
  | _ => True

theorem orderly_of_tags (tags : 0 ≤ cfg.maxTag ∧ cfg.maxTag ≤ intMax)
    {s : (machine cfg).State} {e : (machine cfg).Event} (ok : TagsInRange s e) :
    Orderly (.userTags tags) s e := by
  have user {tag : Int} (range : 0 ≤ tag ∧ tag ≤ cfg.maxTag - 1) : UserTag cfg tag :=
    ⟨range.1, by have := range.2; omega⟩
  unfold Orderly
  split
  · split
    · intro on
      cases on
    · trivial
  · split
    · exact fun _ => user ok
    · exact fun _ => user ok
    · exact fun on => by cases on
    · exact fun on => by cases on
    · trivial
  · trivial

/-- The receive `x` is the one the message is meant for. -/
structure Isolated (g : Duplicates) (m : Message) (x : Handle) : Prop where
  sent : m.request.posted.op = .put ∨ m.request.posted.op = .send
  put : m.request.posted.op = .put → x.request.posted.op = .putSignal
  send : m.request.posted.op = .send →
    x.request.posted.op = .recv ∧ x.request.posted.tag = m.request.posted.tag
  device : g.Same m.request.posted.device x.request.posted.device
  target : (x.request.posted.device.rank : Int) = toInt m.request.posted.rank
  rank : -2 ^ 31 ≤ m.request.posted.rank → m.request.posted.rank < 2 ^ 31 →
    x.request.posted.device.rank = m.request.posted.rank

/-- The operations of a message and of a receive with the tag it carries. -/
theorem ops_agree {P : PutRules cfg} (tagged : P.tagged = true) {w : World} {m : Message}
    {x : Handle} {q : MpiRequest} (sent : m.Ok P) (posted : q.Ok P w x)
    (recv : q.isRecv = true) (same : q.tag = m.tag) :
    (m.request.posted.op = .put → x.request.posted.op = .putSignal) ∧
      (m.request.posted.op = .send → x.request.posted.op = .recv ∧
        x.request.posted.tag = m.request.posted.tag) := by
  obtain ⟨lo, hi⟩ := P.tags tagged
  have narrow (n : Int) (low : 0 ≤ n) (high : n ≤ cfg.maxTag) : toInt n = n := by
    unfold intMax at hi
    exact toInt_of_range (by omega) (by omega)
  rw [sent.tag, posted.tag] at same
  rcases posted.recv.mp recv with op | op
  · have user := posted.recvTag tagged op
    unfold UserTag at user
    rw [narrow _ user.1 (by omega)] at same
    constructor
    · intro put
      rw [sent.putTag put, narrow _ lo (le_refl _)] at same
      omega
    · intro send
      have mine := sent.send tagged send
      unfold UserTag at mine
      rw [narrow _ mine.1 (by omega)] at same
      exact ⟨op, same⟩
  · refine ⟨fun _ => op, fun send => ?_⟩
    have mine := sent.send tagged send
    unfold UserTag at mine
    rw [posted.putTag op, narrow _ lo (le_refl _), narrow _ mine.1 (by omega)] at same
    omega

/-- Put and user traffic, the traffic of different devices and that with different tags are kept
apart, however the ranks post, match and progress. -/
theorem traffic_isolated (int : ∀ n, cfg.tagUB = some n → -2 ^ 31 ≤ n ∧ n < 2 ^ 31)
    {s : (numbered cfg).State}
    (h : Reach (fun s e => TagsInRange ((duplicates cfg).bare s) ((duplicates cfg).event e))
      (numberedStart cfg) s) :
    (∀ d dev, s.shared.1.devs.table d = some dev → dev.maxTag2sided = cfg.maxTag - 1) ∧
    (∀ d e e', s.shared.2.Same d e → s.shared.2.Same d e' → e.rank = e'.rank → e = e') ∧
    ∀ m ∈ s.shared.1.net.inflight, ∀ x q, s.shared.1.net.reqs x = some q →
      World.accepts cfg m x q = true → Isolated s.shared.2 m x := by
  have numbered := numbered_of_reach (h.mono fun x e _ => orderly_free _ _)
  have bare := System.Observer.reach_bare h
  have coherent := coherent_of_reach bare
  refine ⟨fun d dev hd => (coherent.table d dev hd).maxTag, ?_, ?_⟩
  · rintro d e e' ⟨i, hi, he⟩ ⟨j, hj, he'⟩ rank
    have same : i = j :=
      (List.getElem?_inj (List.getElem?_eq_some_iff.mp hi).1 (numbered.nodup _)).mp (hi.trans hj.symm)
    subst same
    rw [rank, he'] at he
    exact (Option.some.inj he).symm
  · intro m hm x q hq accepts
    have hi : cfg.maxTag ≤ intMax := by
      unfold Config.maxTag intMax
      cases ub : cfg.tagUB with
      | none => decide
      | some n => exact Int.le_of_lt_add_one (int n ub).2
    obtain ⟨comm, target, low, high⟩ := numbered.flying m hm
    have tags : 0 ≤ cfg.maxTag ∧ cfg.maxTag ≤ intMax := ⟨low.trans high, hi⟩
    have books := books_of_reach (bare.mono fun x e ok => orderly_of_tags tags ok)
    have sent := (books.matching.flying m hm).1
    have posted := books.matching.req x q hq
    have own := numbered.reqs x q hq
    simp only [World.accepts, Bool.and_eq_true, beq_iff_eq] at accepts
    obtain ⟨⟨⟨⟨recv, rank⟩, context⟩, -⟩, tag⟩ := accepts
    have named : (x.request.posted.device.rank : Int) = toInt m.request.posted.rank := by
      rw [← posted.device, rank, target]
    obtain ⟨put, send⟩ := ops_agree rfl sent posted recv tag
    refine ⟨sent.op.symm, put, send, ⟨m.context, comm, ?_⟩, named, fun lo hi => ?_⟩
    · rw [← posted.device, ← context]
      exact own
    · rw [named, toInt_of_range lo hi]

/-- A put to the own process is in flight, and the put receive of the device takes it. -/
theorem traffic_isolated_put : ∃ s : (numbered (smallJob .request false 0)).State,
    ∃ m ∈ s.shared.1.net.inflight, ∃ x q, s.shared.1.net.reqs x = some q ∧
      World.accepts (smallJob .request false 0) m x q = true ∧ m.request.posted.op = .put ∧
        Isolated s.shared.2 m x := by
  let J := smallJob .request false 0
  let t : Tid := ⟨0, 0⟩
  let d : Dev := ⟨0, 0⟩
  let x : Handle := ⟨0, ⟨d, 0⟩, ⟨0, ⟨.putSignal, d, -1, 32767, .putRbuf d, 4, 0⟩, some 7⟩⟩
  let es : List (numbered J).Event :=
    .intr t (.call (.allocDevice 4 (some 7)) : Intr) :: List.replicate 10 (.exec t) ++
      .intr t (.call (.put d 0 (.user 0) 3 (some 5) 0) : Intr) :: List.replicate 3 (.exec t)
  have played : (run (numberedStart J) es).map (fun s =>
      s.shared.1.net.inflight.head?.bind fun m => (s.shared.1.net.reqs x).map fun q =>
        (World.accepts J m x q, m.request.posted.op)) = some (some (true, .put)) := by
    decide +kernel
  have ranged : ∀ e ∈ es, ∀ s : (numbered J).State,
      TagsInRange ((duplicates J).bare s) ((duplicates J).event e) := by
    simp [es, TagsInRange, System.Observer.event]
  obtain ⟨s, reached, found⟩ := reach_probe (admitted_of_mem ranged _) played
  obtain ⟨m, first, found⟩ := Option.bind_eq_some_iff.mp found
  obtain ⟨q, hq, both⟩ := Option.map_eq_some_iff.mp found
  obtain ⟨accepts, op⟩ := Prod.mk.inj both
  have flying := List.mem_of_head? first
  have isolated := (traffic_isolated (by decide) reached).2.2 m flying x q hq accepts
  exact ⟨s, m, flying, x, q, hq, accepts, op, isolated⟩

end Matching

end Lcw.Mpi
