/- digest: What the counters of the GASNet-EX processes have counted when all threads are at rest. -/

import Lcw.Api.Counters
import Lcw.Gex.Machine
import Lcw.Interleave.Accounting
import Mathlib.Tactic.Abel

set_option autoImplicit false
set_option relaxedAutoImplicit false

namespace Lcw.Gex

open Interleave
open Api (Balance Conserved operation completion gain net nets nets_bump
  nets_zero sum_single conserved_iff)
open Lcw.Mpi (OpCode Counter Rank Tid Byte toSize)
open Function (update)

/-- For each process the operations and completions owed, and the completions of the job. -/
abbrev Owed := (Rank → Balance) × Int

/-- No code adds to two of the counters. -/
def Op.countable : Op → Bool
  | .pcounterAdd .putEnd | .pcounterAdd .compProduce => false
  | _ => true

/-- A put is owed its message and its completion. -/
def tariff (t : Tid) : Tariff Op Op.Ret Owed where
  pre o := o.countable = true
  info _ _ := True
  move
    | .pcounterAdd k, _ => (Pi.single t.rank (gain k), 0)
    | .requestMedium .., _ => (-Pi.single t.rank (operation .put), -1)
    | .signal .., _ => (0, 1)
    | .cqPop _, some _ => (Pi.single t.rank completion, 0)
    | _, _ => 0

namespace World

variable (isHandler : Comp → Bool) (w : World)

/-- The puts every process has sent. -/
def putsSent : Rank → Balance := (w.sent.map fun m => Pi.single m.src (operation .put)).sum

/-- The completions the queues of every process were given. -/
def enqueued : Rank → Balance :=
  ((w.outputs.filter fun o => !isHandler o.comp).map fun o => Pi.single o.rank completion).sum

/-- What is in a queue. -/
def stock (x : Rank × Comp) : Rank → Balance :=
  (w.queues x.1 x.2).length • Pi.single x.1 completion

/-- Completions and messages of the job, less two for each put. -/
def surplus : Int := w.outputs.length + w.inflight.length - 2 * w.sent.length

def Level (a : Owed) : Prop :=
  ∃ q, Sums w.stock q ∧ a = (nets w.counters - w.putsSent + w.enqueued isHandler - q, w.surplus)

end World

section Programs

variable {isHandler : Comp → Bool} {t : Tid}

theorem adds_free {o : Op} (free : (tariff t).Free o) : (tariff t).Adds (act o) 0 :=
  Tariff.adds_act free.1 free.2

theorem adds_signalComp {c : Comp} {q : Request} {origin : Option Message} :
    (tariff t).Adds (signalComp isHandler c q origin) (0, 1) := by
  have told : (tariff t).Adds (act (.signal c q origin)) (0, 1) :=
    Tariff.adds_act rfl fun _ => rfl
  refine Tariff.adds_then told (fun _ => Tariff.adds_ite (fun _ => ?_) fun _ => ?_) (add_zero _)
  · exact adds_free ⟨rfl, fun _ => rfl⟩
  · exact Tariff.adds_ret

/-- A handler signals one completion. -/
theorem adds_gexReqhandler {m : Message} : (tariff t).Adds (gexReqhandler isHandler m) (0, 1) := by
  have free {o : Op} (h : (tariff t).Free o) : (tariff t).Adds (act o) 0 := adds_free h
  refine Tariff.adds_bind (free ⟨rfl, fun _ => rfl⟩) fun b => ?_
  cases b with
  | none => exact fun v => ⟨rfl, fun r => r.elim⟩
  | some b =>
    refine Tariff.adds_bind (free ⟨rfl, fun _ => rfl⟩) fun _ => ?_
    refine Tariff.adds_bind (free ⟨rfl, fun _ => rfl⟩) fun d => ?_
    refine Tariff.adds_bind (free ⟨rfl, fun _ => ?_⟩) fun _ => ?_
    · simp [tariff, gain]
    · refine Tariff.adds_bind (free ⟨rfl, fun _ => rfl⟩) fun c => ?_
      exact adds_signalComp

/-- A put that has been sent and signalled owes its start. -/
theorem wp_putBody {d : Dev} {rank : Int} {buf : Buffer} {length : Int} {comp : Comp} {ctx : Nat}
    (v : Owed) : (tariff t).contract.wp (put isHandler d rank buf length comp ctx)
      (fun ret v' => ret = true ∧ v' = v + (-Pi.single t.rank (operation .put), 0)) v := by
  refine (tariff t).contract.wp_act rfl fun id _ hv => ?_
  obtain ⟨-, rfl⟩ := hv
  refine (tariff t).contract.wp_act rfl fun _ _ hv => ?_
  obtain ⟨-, rfl⟩ := hv
  refine (tariff t).contract.wp_call (adds_signalComp _) fun _ _ hv => ⟨rfl, ?_⟩
  rw [hv]
  simp [tariff, add_assoc]

theorem adds_apiCall (c : Call) : (tariff t).Adds (apiCall isHandler c) 0 := by
  have free {o : Op} (h : (tariff t).Free o) : (tariff t).Adds (act o) 0 := adds_free h
  refine Tariff.adds_bind ?_ fun _ => free ⟨rfl, fun _ => rfl⟩
  cases c with
  | put d rank buf length comp ctx =>
    intro v
    refine (tariff t).contract.wp_call (wp_putBody v) fun ret _ hv => ?_
    obtain ⟨rfl, rfl⟩ := hv
    refine (tariff t).contract.wp_act rfl fun _ _ hv => ?_
    obtain ⟨-, rfl⟩ := hv
    simp [tariff, gain, add_assoc]
  | pollCq c =>
    refine Tariff.adds_bind (free ⟨rfl, fun _ => ?_⟩) fun _ => ?_
    · simp [tariff, gain]
    · refine Tariff.adds_op rfl fun q _ => ?_
      cases q with
      | none => exact Tariff.adds_ret
      | some q =>
        refine Tariff.adds_then (Tariff.adds_act rfl fun _ => rfl)
          (fun _ => Tariff.adds_ret) ?_
        simp [tariff, gain, Pi.single_neg]
  | doProgress d =>
    refine Tariff.adds_bind (free ⟨rfl, fun _ => ?_⟩) fun _ => ?_
    · simp [tariff, gain]
    · refine Tariff.adds_bind (free ⟨rfl, fun _ => rfl⟩) fun _ => Tariff.adds_ret
  | barrier d =>
    refine Tariff.adds_bind ?_ fun _ => Tariff.adds_ret
    refine Tariff.adds_bind (free ⟨rfl, fun _ => rfl⟩) fun n => ?_
    exact free ⟨rfl, fun _ => rfl⟩
  | allocDevice n c =>
    refine Tariff.adds_bind ?_ fun _ => Tariff.adds_ret
    refine Tariff.adds_bind (free ⟨rfl, fun _ => rfl⟩) fun d => ?_
    refine Tariff.adds_bind (free ⟨rfl, fun _ => rfl⟩) fun _ => ?_
    refine Tariff.adds_bind (free ⟨rfl, fun _ => rfl⟩) fun n => ?_
    refine Tariff.adds_bind (free ⟨rfl, fun _ => rfl⟩) fun _ => ?_
    exact Tariff.adds_bind (free ⟨rfl, fun _ => rfl⟩) fun _ => Tariff.adds_ret
  | freeDevice d =>
    exact Tariff.adds_bind (free ⟨rfl, fun _ => rfl⟩) fun _ => Tariff.adds_ret

end Programs

section Steps

variable {cfg : Config} {w w' : World} {t : Tid} {a : Owed}

/-- Nothing that is counted changes. -/
structure World.Same (w w' : World) : Prop where
  queues : w'.queues = w.queues
  counters : w'.counters = w.counters
  sent : w'.sent = w.sent
  outputs : w'.outputs = w.outputs
  inflight : w'.inflight = w.inflight

theorem World.Level.same {isHandler : Comp → Bool} (h : w.Level isHandler a)
    (same : w.Same w') : w'.Level isHandler a := by
  obtain ⟨q, sums, rfl⟩ := h
  obtain ⟨queues, counters, sent, outputs, inflight⟩ := same
  have stock : w'.stock = w.stock := by
    unfold World.stock
    rw [queues]
  refine ⟨q, stock ▸ sums, ?_⟩
  simp only [World.putsSent, World.enqueued, World.surplus, counters, sent, outputs, inflight]

/-- Operations that change nothing that is counted. -/
def Op.uncounted : Op → Prop
  | .pcounterAdd _ | .requestMedium .. | .signal .. | .cqPop _ => False
  | _ => True

theorem exec_same {o : Op} {r : o.Ret} (hx : exec cfg t o w = some (r, w'))
    (plain : o.uncounted) : w.Same w' := by
  cases o with
  | pcounterAdd _ | requestMedium _ _ _ _ _ | signal _ _ _ | cqPop _ => exact plain.elim
  | eventWait n =>
    simp only [exec] at hx
    split at hx
    · obtain ⟨-, rfl⟩ := Prod.mk.inj (Option.some.inj hx)
      exact ⟨rfl, rfl, rfl, rfl, rfl⟩
    · cases hx
  | setId d n =>
    obtain ⟨i, -, rest⟩ := Option.bind_eq_some_iff.mp hx
    obtain ⟨-, rfl⟩ := Prod.mk.inj (Option.some.inj rest)
    exact ⟨rfl, rfl, rfl, rfl, rfl⟩
  | setComp d c =>
    obtain ⟨i, -, rest⟩ := Option.bind_eq_some_iff.mp hx
    obtain ⟨-, rfl⟩ := Prod.mk.inj (Option.some.inj rest)
    exact ⟨rfl, rfl, rfl, rfl, rfl⟩
  | readId d =>
    obtain ⟨i, -, rest⟩ := Option.bind_eq_some_iff.mp hx
    obtain ⟨n, -, rest⟩ := Option.bind_eq_some_iff.mp rest
    obtain ⟨-, rfl⟩ := Prod.mk.inj (Option.some.inj rest)
    exact ⟨rfl, rfl, rfl, rfl, rfl⟩
  | readComp d =>
    obtain ⟨i, -, rest⟩ := Option.bind_eq_some_iff.mp hx
    obtain ⟨c, -, rest⟩ := Option.bind_eq_some_iff.mp rest
    obtain ⟨-, rfl⟩ := Prod.mk.inj (Option.some.inj rest)
    exact ⟨rfl, rfl, rfl, rfl, rfl⟩
  | deviceAt i =>
    obtain ⟨d, -, rest⟩ := Option.bind_eq_some_iff.mp hx
    obtain ⟨-, rfl⟩ := Prod.mk.inj (Option.some.inj rest)
    exact ⟨rfl, rfl, rfl, rfl, rfl⟩
  | allocate n =>
    simp only [exec] at hx
    split at hx <;> obtain ⟨-, rfl⟩ := Prod.mk.inj (Option.some.inj hx) <;>
      exact ⟨rfl, rfl, rfl, rfl, rfl⟩
  | memcpy dst amBuf n =>
    obtain ⟨-, rfl⟩ := Prod.mk.inj (Option.some.inj hx)
    cases dst <;> exact ⟨rfl, rfl, rfl, rfl, rfl⟩
  | abort => cases hx
  | _ =>
    obtain ⟨-, rfl⟩ := Prod.mk.inj (Option.some.inj hx)
    exact ⟨rfl, rfl, rfl, rfl, rfl⟩

theorem exec_cqPop {c : Comp} {r : Option Request} (hx : exec cfg t (.cqPop c) w = some (r, w')) :
    r = none ∧ w' = w ∨ ∃ q rest, w.queues t.rank c = q :: rest ∧ r = some q ∧
      w' = { w with queues := update w.queues t.rank (update (w.queues t.rank) c rest) } := by
  simp only [exec] at hx
  split at hx
  · obtain ⟨rfl, rfl⟩ := Prod.mk.inj (Option.some.inj hx)
    exact .inl ⟨rfl, rfl⟩
  · rename_i q rest hc
    obtain ⟨rfl, rfl⟩ := Prod.mk.inj (Option.some.inj hx)
    exact .inr ⟨q, rest, hc, rfl, rfl⟩

/-- The stock of a queue that changes its length. -/
theorem stock_change {q : Rank → Balance} (h : Sums w.stock q)
    {r : Rank} {c : Comp} {l : List Request} {x : Rank → Balance}
    (queues : w'.queues = update w.queues r (update (w.queues r) c l))
    (length : l.length • Pi.single r completion = w.stock (r, c) + x) : Sums w'.stock (q + x) := by
  refine h.change (i := (r, c)) ?_ fun j hj => ?_
  · simp only [World.stock, queues, Function.update_self]
    exact length
  · obtain ⟨u, d⟩ := j
    simp only [World.stock, queues]
    by_cases hu : u = r
    · subst hu
      have hd : d ≠ c := fun e => hj (by rw [e])
      simp [hd]
    · simp [hu]

theorem level_signal {isHandler : Comp → Bool} {c : Comp} {request : Request}
    {origin : Option Message} (h : w.Level isHandler a) :
    (w.signal isHandler t c request origin).Level isHandler (a + (0, 1)) := by
  obtain ⟨q, sums, rfl⟩ := h
  have surplus : (w.signal isHandler t c request origin).surplus = w.surplus + 1 := by
    simp only [World.surplus, World.signal, List.length_append, List.length_singleton]
    omega
  cases handler : isHandler c with
  | true =>
    have same : (w.signal isHandler t c request origin).stock = w.stock := by
      unfold World.stock
      simp [World.signal, handler]
    refine ⟨q, same ▸ sums, Prod.ext ?_ surplus.symm⟩
    simp [World.putsSent, World.enqueued, World.signal, handler]
  | false =>
    refine ⟨q + Pi.single t.rank completion, ?_, Prod.ext ?_ surplus.symm⟩
    · refine stock_change (r := t.rank) (c := c) (l := w.queues t.rank c ++ [request]) sums ?_ ?_
      · simp [World.signal, handler]
      · simp [World.stock, add_smul]
    · simp [World.putsSent, World.enqueued, World.signal, handler]
      abel

theorem exec_level {o : Op} {r : o.Ret} (hx : exec cfg t o w = some (r, w'))
    (h : w.Level cfg.isHandler a) : w'.Level cfg.isHandler (a + (tariff t).move o r) := by
  cases o with
  | pcounterAdd k =>
    obtain ⟨-, rfl⟩ := Prod.mk.inj (Option.some.inj hx)
    obtain ⟨q, sums, rfl⟩ := h
    refine ⟨q, sums, Prod.ext ?_ (add_zero _)⟩
    have bumped := nets_bump w.counters t.rank k
    simp only [World.putsSent, World.enqueued, World.addCounter, tariff, Prod.fst_add, bumped]
    abel
  | requestMedium dst buf nbytes index d =>
    obtain ⟨-, rfl⟩ := Prod.mk.inj (Option.some.inj hx)
    obtain ⟨q, sums, rfl⟩ := h
    refine ⟨q, sums, Prod.ext ?_ ?_⟩
    · simp [World.putsSent, World.enqueued, World.send, World.message, tariff]
      abel
    · simp [World.surplus, World.send, tariff]
      omega
  | signal c request origin =>
    obtain ⟨-, rfl⟩ := Prod.mk.inj (Option.some.inj hx)
    exact level_signal h
  | cqPop c =>
    rcases exec_cqPop hx with ⟨rfl, rfl⟩ | ⟨request, rest, hc, rfl, rfl⟩
    · rw [show (tariff t).move (.cqPop c) none = 0 from rfl, add_zero]
      exact h
    · obtain ⟨q, sums, rfl⟩ := h
      refine ⟨q + -Pi.single t.rank completion, ?_, Prod.ext ?_ (add_zero _)⟩
      · apply stock_change (r := t.rank) (c := c) (l := rest) sums rfl
        simp [World.stock, hc, add_smul]
      · simp [World.putsSent, World.enqueued, tariff]
        abel
  | _ =>
    have same := h.same (exec_same hx trivial)
    rw [← add_zero a] at same
    exact same

theorem intr_level {o : Op} {i : Intr} {p : Code Unit} (hi : intr cfg t o i w = some (p, w')) :
    ∃ x, (tariff t).Adds p (-x) ∧
      ∀ a, w.Level cfg.isHandler a → w'.Level cfg.isHandler (a + x) := by
  cases i with
  | call c =>
    simp only [intr] at hi
    split at hi
    · obtain ⟨rfl, rfl⟩ := Prod.mk.inj (Option.some.inj hi)
      refine ⟨0, ?_, fun a h => ?_⟩
      · rw [neg_zero]
        exact adds_apiCall c
      · rw [add_zero]
        exact h.same ⟨rfl, rfl, rfl, rfl, rfl⟩
    · cases hi
  | deliver i =>
    obtain ⟨m, hm, rest⟩ := Option.bind_eq_some_iff.mp hi
    split at rest
    · obtain ⟨rfl, rfl⟩ := Prod.mk.inj (Option.some.inj rest)
      refine ⟨(0, -1), ?_, fun a h => ?_⟩
      · have paid : -((0, -1) : Owed) = (0, 1) := Prod.ext neg_zero (neg_neg 1)
        rw [paid]
        exact adds_gexReqhandler
      · obtain ⟨q, sums, rfl⟩ := h
        refine ⟨q, sums, Prod.ext (add_zero _) ?_⟩
        have bound := (List.getElem?_eq_some_iff.mp hm).1
        simp only [World.surplus, World.deliver, List.length_eraseIdx_of_lt bound, Prod.snd_add]
        omega
    · cases rest

theorem env_level {e : Env} (he : env e w = some w') {isHandler : Comp → Bool}
    (h : w.Level isHandler a) : w'.Level isHandler a := by
  cases e <;> obtain rfl := Option.some.inj he <;> exact h.same ⟨rfl, rfl, rfl, rfl, rfl⟩

/-- No end of a put and no completion that was produced is ever counted. -/
def Uncounted (w : World) : Prop :=
  ∀ r, w.counters r .putEnd = 0 ∧ w.counters r .compProduce = 0

theorem exec_uncounted {o : Op} {r : o.Ret} (hx : exec cfg t o w = some (r, w'))
    (pre : (tariff t).pre o) (h : Uncounted w) : Uncounted w' := by
  cases o with
  | pcounterAdd k =>
    obtain ⟨-, rfl⟩ := Prod.mk.inj (Option.some.inj hx)
    have other : Counter.putEnd ≠ k ∧ Counter.compProduce ≠ k := by
      constructor <;> rintro rfl <;> cases pre
    intro u
    by_cases hu : u = t.rank
    · subst hu
      simp only [World.addCounter, Function.update_self, Function.update_of_ne other.1,
        Function.update_of_ne other.2]
      exact h t.rank
    · simp only [World.addCounter, Function.update_of_ne hu]
      exact h u
  | requestMedium _ _ _ _ _ | signal _ _ _ =>
    obtain ⟨-, rfl⟩ := Prod.mk.inj (Option.some.inj hx)
    exact h
  | cqPop c =>
    rcases exec_cqPop hx with ⟨-, rfl⟩ | ⟨q, rest, -, -, rfl⟩ <;> exact h
  | _ =>
    have same := (exec_same hx trivial).counters
    intro u
    rw [same]
    exact h u

theorem intr_uncounted {o : Op} {i : Intr} {p : Code Unit} (hi : intr cfg t o i w = some (p, w'))
    (h : Uncounted w) : Uncounted w' := by
  cases i with
  | call c =>
    simp only [intr] at hi
    split at hi
    · obtain ⟨-, rfl⟩ := Prod.mk.inj (Option.some.inj hi)
      exact h
    · cases hi
  | deliver i =>
    obtain ⟨m, -, rest⟩ := Option.bind_eq_some_iff.mp hi
    split at rest
    · obtain ⟨-, rfl⟩ := Prod.mk.inj (Option.some.inj rest)
      exact h
    · cases rest

end Steps

/-- Puts and completions are accounted for in every run. -/
def counting (cfg : Config) : Accounting (system cfg) (fun _ _ => True) Owed where
  inv := Uncounted
  level := World.Level cfg.isHandler
  tariff := tariff
  exec _ _ _ _ _ _ inv _ _ pre hx :=
    ⟨exec_uncounted hx pre inv, trivial, fun _ => exec_level hx⟩
  intr _ _ _ _ _ _ _ inv _ _ _ hi := ⟨intr_uncounted hi inv, intr_level hi⟩
  env _ e _ inv _ he := by
    refine ⟨?_, fun _ => env_level he⟩
    cases e <;> obtain rfl := Option.some.inj he <;> exact inv

theorem counting_start (cfg : Config) : (counting cfg).Balanced (start cfg) := by
  refine (counting cfg).balanced_start (fun _ => ⟨rfl, rfl⟩) ⟨0, ?_, ?_⟩ fun t => ?_
  · have empty : World.init.stock = fun _ => 0 := funext fun _ => zero_smul ..
    rw [start, empty]
    exact Sums.zero
  · refine Prod.ext ?_ rfl
    simp [World.putsSent, World.enqueued, start, World.init, nets_zero]
  · exact ⟨rfl, fun _ v hv => hv.2.trans (add_zero _)⟩

/-- No call is in progress, every put is delivered, every completion queue is drained. -/
structure Quiescent {cfg : Config} (s : (system cfg).State) : Prop where
  idle : ∀ t, s.prog t = act .userCode ∨ s.prog t = .ret ()
  delivered : s.shared.inflight = []
  drained : ∀ r c, s.shared.queues r c = []

/-- Every process has counted an end for each start, and a consumed completion for each that was
produced if all went through queues. -/
def Tallied {cfg : Config} (s : (system cfg).State) : Prop :=
  ∀ r, Conserved (s.shared.counters r) ∧
    ((∀ o ∈ s.shared.outputs, o.rank = r → cfg.isHandler o.comp = false) →
      s.shared.counters r .compProduce = s.shared.counters r .compConsume)

section Claim

variable {cfg : Config} {s : (system cfg).State}

/-- At rest every process is short of its puts' ends, and of its queues' completions. -/
theorem counted_at_rest (h : System.Reach (fun _ _ => True) (start cfg) s) (rest : Quiescent s) :
    nets s.shared.counters = s.shared.putsSent - s.shared.enqueued cfg.isHandler ∧
      s.shared.outputs.length = 2 * s.shared.sent.length := by
  have balanced := (counting cfg).reach (counting_start cfg) h
  have level : s.shared.Level cfg.isHandler 0 := by
    refine (counting cfg).level_zero balanced fun t v settles => ?_
    unfold Accounting.Settles at settles
    rcases rest.idle t with idle | idle
    · rw [idle] at settles
      exact Tariff.settled_act () trivial rfl rfl settles
    · rw [idle] at settles
      exact settles
  obtain ⟨q, sums, owed⟩ := level
  have none : q = 0 := sums.eq_zero fun x => by simp [World.stock, rest.drained]
  obtain ⟨counted, surplus⟩ := Prod.mk.inj owed
  subst none
  constructor
  · rw [sub_zero] at counted
    rw [← sub_eq_zero, sub_sub_eq_add_sub, add_sub_right_comm]
    exact counted.symm
  · simp only [World.surplus, rest.delivered, List.length_nil] at surplus
    omega

/-- The counters of all processes agree at rest exactly when no put was made. -/
theorem tallied_iff (h : System.Reach (fun _ _ => True) (start cfg) s) (rest : Quiescent s) :
    Tallied s ↔ s.shared.sent = [] := by
  obtain ⟨counted, outputs⟩ := counted_at_rest h rest
  obtain ⟨uncounted, -⟩ := (counting cfg).reach (counting_start cfg) h
  constructor
  · intro tallied
    by_contra made
    obtain ⟨m, hm⟩ := List.exists_mem_of_ne_nil _ made
    obtain ⟨⟨-, -, ended⟩, -⟩ := tallied m.src
    have started := congrFun (congrFun counted m.src) (.op .put)
    unfold World.putsSent World.enqueued at started
    rw [Pi.sub_apply, Pi.sub_apply, sum_single, sum_single] at started
    have counts : 0 < s.shared.sent.countP fun x => x.src = m.src :=
      List.countP_pos_iff.mpr ⟨m, hm, by simp⟩
    simp [nets, net, ended, operation, completion] at started
    omega
  · intro none r
    have silent : s.shared.outputs = [] := by
      rw [none] at outputs
      exact List.eq_nil_of_length_eq_zero outputs
    have balanced : net (s.shared.counters r) = 0 := by
      have here := congrFun counted r
      simpa [World.putsSent, World.enqueued, none, silent, nets] using here
    refine ⟨conserved_iff.mpr fun k => congrFun balanced _, fun _ => ?_⟩
    have completions := congrFun balanced .comp
    simp only [net, Pi.zero_apply] at completions
    omega

end Claim

section Example

/-- One process, and queues only. -/
def alone : Config := ⟨1, fun _ => false⟩

private def main : (system alone).Tid := (⟨0, 0⟩ : Tid)

private def begin (c : Call) : (system alone).Event := .intr main (.call c : Intr)

private def turns (n : Nat) : List (system alone).Event := List.replicate n (.exec main)

/-- The process allocates a device, puts three bytes to itself, and polls both completions. -/
private def selfPut : List (system alone).Event :=
  begin (.allocDevice 8 10) :: turns 6 ++
    begin (.put ⟨0, 0, 0, 10⟩ 0 (.user 0 4) 3 7 6) :: turns 5 ++
    begin (.doProgress ⟨0, 0, 0, 10⟩) :: .exec main ::
      .intr main (.deliver 0 : Intr) :: turns 8 ++
    begin (.pollCq 7) :: turns 4 ++ begin (.pollCq 10) :: turns 5

private theorem selfPut_ends : (System.run (start alone) selfPut).isSome := by decide +kernel

private theorem selfPut_alone : ∀ e ∈ selfPut, e.By main := by decide +kernel

private def last : (system alone).State := (System.run (start alone) selfPut).get selfPut_ends

private theorem last_prog : last.prog main = .ret () := rfl

private theorem last_inflight : last.shared.inflight = [] := rfl

private def sentPut : Request := ⟨.put, 0, 0, 0, .user 0 4, 3, 6⟩

private def arrived : Request := ⟨.putSignal, 0, 0, 0, .heap ⟨0, 0⟩ 0, 3, 0⟩

private def queue (q : Rank → Comp → List Request) (c : Comp) (l : List Request) :=
  update q 0 (update (q 0) c l)

private theorem last_queues : last.shared.queues =
    queue (queue (queue (queue (fun _ _ => []) 7 [sentPut]) 10 [arrived]) 7 []) 10 [] := rfl

private theorem last_counters :
    last.shared.counters 0 .putStart = 1 ∧ last.shared.counters 0 .putEnd = 0 ∧
      last.shared.counters 0 .compProduce = 0 ∧ last.shared.counters 0 .compConsume = 2 := by
  decide +kernel

theorem put_at_rest : ∃ s : (system alone).State,
    System.Reach (fun _ _ => True) (start alone) s ∧ Quiescent s ∧
      s.shared.counters 0 .putStart = 1 ∧ s.shared.counters 0 .putEnd = 0 ∧
        s.shared.counters 0 .compProduce = 0 ∧ s.shared.counters 0 .compConsume = 2 := by
  have run : System.run (start alone) selfPut = some last := (Option.some_get selfPut_ends).symm
  have reached := System.reach_run run (System.admitted_of_forall (fun _ _ => trivial) _ _)
  refine ⟨last, reached, ⟨fun u => ?_, last_inflight, fun r c => ?_⟩, last_counters⟩
  · by_cases mine : u = main
    · subst mine
      exact .inr last_prog
    · exact .inl (System.run_alone selfPut_alone mine run)
  · rw [last_queues]
    by_cases here : r = 0
    · subst here
      by_cases first : c = 7 <;> by_cases second : c = 10 <;> simp [queue, first, second]
    · simp [queue, here]

end Example

end Lcw.Gex
