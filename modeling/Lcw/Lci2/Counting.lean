/- digest: What the counters of an LCI2 process have counted when all threads are at rest. -/

import Lcw.Api.Counters
import Lcw.Interleave.Accounting
import Lcw.Interleave.Observe
import Lcw.Lci2.Machine
import Mathlib.Tactic.Abel

set_option autoImplicit false
set_option relaxedAutoImplicit false

namespace Lcw.Lci2

open Interleave
open Api (Balance Conserved operation completion gain net net_bump sum_eraseIdx conserved_iff)
open Lcw.Mpi (OpCode Counter)
open Function (update)

/-- The posts LCI has accepted, the completions taken from queues, and the handlers run. -/
structure Traffic where
  posts : List Post
  polled : Nat
  handled : Nat

/-- An onlooker that keeps the traffic of the process. -/
def traffic (isHandler : Comp → Bool) : (system isHandler).Observer where
  Record := Traffic
  exec _ (o : Op) (r : o.Ret) g := match o with
    | .post x => match (r : Bool) with
      | true => { g with posts := g.posts ++ [x] }
      | false => g
    | .cqPop _ => match (r : Option Status) with
      | some _ => { g with polled := g.polled + 1 }
      | none => g
    | _ => g
  intr _ (i : Intr) g := match i with
    | .call _ => g
    | .complete .. | .incoming .. => { g with handled := g.handled + 1 }

abbrev watched (isHandler : Comp → Bool) : System := (traffic isHandler).observed

def watchedStart (isHandler : Comp → Bool) : (watched isHandler).State :=
  (traffic isHandler).beside (start isHandler) ⟨[], 0, 0⟩

/-- The operation a status completes, if it is one of the client's. -/
def Status.operation (st : Status) : Balance :=
  match st.userContext with
  | some p => Api.operation p.posted.op
  | none => 0

def Post.operation (x : Post) : Balance := Api.operation x.userContext.posted.op

/-- What every operation moves: an accepted post owes its start, a polled status its end. -/
def tariff : Tariff Op Op.Ret Balance where
  pre
    | .newRequest q => q.op ≠ .putSignal
    | .post x => x.userContext.posted.op ≠ .putSignal
    | .pcounterAdd k => k ≠ .compProduce
    | _ => True
  info
    | .newRequest q, p => Api.Ctx.posted p = q
    | .readRequest p, q => q = p.posted
    | _, _ => True
  move
    | .pcounterAdd k, _ => gain k
    | .post x, r => match (r : Bool) with
      | true => -x.operation
      | false => 0
    | .cqPop _, r => match (r : Option Status) with
      | some st => st.operation + completion
      | none => 0
    | _, _ => 0

section Programs

theorem countCompletion_ne (q : OpCode) : countCompletion q ≠ .compProduce := by
  cases q <;> simp [countCompletion]

theorem gain_countCompletion (op : OpCode) : gain (countCompletion op) = -operation op := by
  cases op <;> simp [countCompletion, gain, operation]

theorem adds_free {o : Op} (free : tariff.Free o) : tariff.Adds (act o) 0 :=
  Tariff.adds_act free.1 free.2

/-- The request a status stands for is of the operation it completes. -/
theorem wp_getRequest (st : Status) (v : Balance) : tariff.contract.wp (getRequestFromStatus st)
    (fun q v' => operation q.op = st.operation ∧ v' = v) v := by
  unfold getRequestFromStatus Status.operation
  cases st.userContext with
  | none => exact ⟨rfl, rfl⟩
  | some p =>
    refine tariff.contract.wp_act trivial fun q _ hv => ?_
    obtain ⟨rfl, rfl⟩ := hv
    refine tariff.contract.wp_act trivial fun _ _ hv => ?_
    obtain ⟨-, rfl⟩ := hv
    split <;> exact ⟨rfl, by simp [tariff]⟩

theorem adds_signal (st : Status) : tariff.Adds (signal st) 0 := by
  intro v
  refine tariff.contract.wp_call (wp_getRequest st v) fun q _ hv => ?_
  obtain ⟨-, rfl⟩ := hv
  refine tariff.contract.wp_act trivial fun _ _ hv => ⟨trivial, fun _ _ hu => ?_⟩
  rw [hu.2, hv.2, add_assoc]
  rfl

/-- A polled completion owes its consumption. -/
theorem wp_pollCqBody (c : Comp) (v : Balance) : tariff.contract.wp (pollCq c)
    (fun ret v' => v' = v + if ret then completion else 0) v := by
  refine tariff.contract.wp_act trivial fun st _ hv => ?_
  obtain ⟨-, rfl⟩ := hv
  cases st with
  | none => simp [tariff]
  | some st =>
    refine tariff.contract.wp_call (wp_getRequest st _) fun q _ hv => ?_
    obtain ⟨op, rfl⟩ := hv
    refine tariff.contract.wp_act trivial fun _ _ hv => ?_
    obtain ⟨-, rfl⟩ := hv
    refine tariff.contract.wp_act (countCompletion_ne q.op) fun _ _ hv => ?_
    obtain ⟨-, rfl⟩ := hv
    simp only [Prog.pure_eq, Contract.wp_ret, tariff, gain_countCompletion, op, if_true]
    abel

/-- An accepted post owes its start. -/
theorem wp_postBody {request : Request} {call : Ctx → Post} (op : request.op ≠ .putSignal)
    (own : ∀ p, (call p).userContext = p) (v : Balance) :
    tariff.contract.wp (post request call)
      (fun x v' => v' = v + if x.2 then -operation request.op else 0) v := by
  refine tariff.contract.wp_act op fun p _ hv => ?_
  obtain ⟨named, rfl⟩ := hv
  have posted : (call p).userContext.posted = request := by
    rw [own]
    exact named
  refine tariff.contract.wp_act (posted ▸ op) fun ret _ hv => ?_
  obtain ⟨-, rfl⟩ := hv
  refine tariff.contract.wp_act trivial fun _ _ hv => ?_
  obtain ⟨-, rfl⟩ := hv
  cases ret with
  | true => simp [tariff, Post.operation, posted]
  | false =>
    refine tariff.contract.wp_act trivial fun _ _ hv => ?_
    obtain ⟨-, rfl⟩ := hv
    simp [tariff]

theorem adds_counted {request : Request} {call : Ctx → Post} {start retry : Counter}
    (op : request.op ≠ .putSignal) (own : ∀ p, (call p).userContext = p)
    (starts : gain start = operation request.op) (retries : gain retry = 0)
    (user : start ≠ .compProduce ∧ retry ≠ .compProduce) :
    tariff.Adds (counted (post request call) start retry) 0 := by
  intro v
  refine tariff.contract.wp_call (wp_postBody op own v) fun x _ hv => ?_
  obtain ⟨p, ret⟩ := x
  obtain rfl := hv
  cases ret with
  | true =>
    refine tariff.contract.wp_act user.1 fun _ _ hv => ?_
    obtain ⟨-, rfl⟩ := hv
    simp [tariff, starts]
  | false =>
    refine tariff.contract.wp_act user.2 fun _ _ hv => ?_
    obtain ⟨-, rfl⟩ := hv
    simp [tariff, retries]

theorem adds_apiCall (c : Call) : tariff.Adds (apiCall c) 0 := by
  have ends {r : CallResult} : tariff.Adds (act (.endCall r)) 0 := adds_free ⟨trivial, fun _ => rfl⟩
  refine Tariff.adds_bind ?_ fun _ => ends
  have counts {k : Counter} (h : k ≠ .compProduce) : tariff.pre (.pcounterAdd k) := h
  cases c with
  | send d rank tag buf length comp ctx =>
    exact adds_counted (by simp) (fun _ => rfl) rfl rfl (by simp)
  | recv d rank tag buf length comp ctx =>
    exact adds_counted (by simp) (fun _ => rfl) rfl rfl (by simp)
  | put d rank buf length comp ctx =>
    exact adds_counted (by simp) (fun _ => rfl) rfl rfl (by simp)
  | pollCq c =>
    refine Tariff.adds_bind (adds_free ⟨counts (by simp), fun _ => rfl⟩) fun _ v => ?_
    refine tariff.contract.wp_call (wp_pollCqBody c v) fun ret _ hv => ?_
    obtain rfl := hv
    cases ret with
    | true =>
      refine tariff.contract.wp_act (counts (by simp)) fun _ _ hv => ?_
      obtain ⟨-, rfl⟩ := hv
      simp [tariff, gain]
    | false => simp
  | doProgress d =>
    refine Tariff.adds_bind (adds_free ⟨counts (by simp), fun _ => rfl⟩) fun _ => ?_
    exact Tariff.adds_bind (adds_free ⟨trivial, fun _ => rfl⟩) fun _ => Tariff.adds_ret
  | barrier d => exact Tariff.adds_bind (adds_free ⟨trivial, fun _ => rfl⟩) fun _ => Tariff.adds_ret

end Programs

namespace World

variable (isHandler : Comp → Bool) (w : World)

/-- The operations in a queue. -/
def stock (c : Comp) : Balance := ((w.queues c).map Status.operation).sum

/-- The operations LCI will complete through queues. -/
def outstanding : Balance :=
  (w.pending.map fun x => if isHandler x.comp then 0 else x.operation).sum

end World

/-- The accepted operations whose completion object is a handler. -/
def Traffic.unended (isHandler : Comp → Bool) (g : Traffic) : Balance :=
  ((g.posts.filter fun x => isHandler x.comp).map Post.operation).sum

def Level (isHandler : Comp → Bool) (x : World × Traffic) (a : Balance) : Prop :=
  ∃ q, Sums x.1.stock q ∧ a = net x.1.counters - x.2.unended isHandler -
    x.1.outstanding isHandler - q + x.2.polled • completion

/-- Contexts hold what they were posted with; no produced completion is ever counted. -/
structure Kept (x : World × Traffic) : Prop where
  heap : ∀ p q, x.1.heap p = some q → q = p.posted
  produced : x.1.counters .compProduce = 0
  posts : ∀ y ∈ x.2.posts, y.userContext.posted.op ≠ .putSignal

section Steps

variable {isHandler : Comp → Bool} {x y : World × Traffic} {t : Tid} {a : Balance}

theorem stock_change {w w' : World} {q b : Balance} {c : Comp} {l : List Status}
    (h : Sums w.stock q) (queues : w'.queues = update w.queues c l)
    (here : (l.map Status.operation).sum = w.stock c + b) : Sums w'.stock (q + b) := by
  refine h.change (i := c) ?_ fun d hd => ?_
  · simp only [World.stock, queues, Function.update_self]
    exact here
  · simp only [World.stock, queues, Function.update_of_ne hd]

/-- Nothing that is counted changes. -/
theorem Level.same (h : Level isHandler x a) (queues : y.1.queues = x.1.queues)
    (counters : y.1.counters = x.1.counters) (pending : y.1.pending = x.1.pending)
    (posts : y.2.posts = x.2.posts) (polled : y.2.polled = x.2.polled) : Level isHandler y a := by
  obtain ⟨q, sums, rfl⟩ := h
  have stock : y.1.stock = x.1.stock := by
    unfold World.stock
    rw [queues]
  refine ⟨q, stock ▸ sums, ?_⟩
  simp only [World.outstanding, Traffic.unended, counters, pending, posts, polled]

theorem exec_level {o : Op} {r : o.Ret} (hx : (watched isHandler).exec t o x = some (r, y))
    (h : Level isHandler x a) : Level isHandler y (a + tariff.move o r) := by
  obtain ⟨step, record⟩ := System.Observer.exec_some hx
  obtain ⟨w, g⟩ := x
  obtain ⟨w', g'⟩ := y
  obtain rfl : g' = (traffic isHandler).exec t o r g := record
  replace step : exec t o w = some (r, w') := step
  have still (free : tariff.move o r = 0)
      (same : Level isHandler (w', (traffic isHandler).exec t o r g) a) :
      Level isHandler (w', (traffic isHandler).exec t o r g) (a + tariff.move o r) := by
    rw [free, add_zero]
    exact same
  cases o with
  | pcounterAdd k =>
    obtain ⟨-, rfl⟩ := Prod.mk.inj (Option.some.inj step)
    obtain ⟨q, sums, rfl⟩ := h
    refine ⟨q, sums, ?_⟩
    simp only [net_bump, tariff, traffic, World.outstanding]
    abel
  | post p =>
    simp only [exec] at step
    split at step
    · obtain ⟨rfl, rfl⟩ := Prod.mk.inj (Option.some.inj step)
      obtain ⟨q, sums, rfl⟩ := h
      refine ⟨q, sums, ?_⟩
      simp only [World.accept, World.outstanding, Traffic.unended, tariff, traffic,
        List.filter_append, List.map_append, List.sum_append]
      cases handler : isHandler p.comp with
      | true =>
        simp [handler]
        abel
      | false =>
        simp [handler]
        abel
    · obtain ⟨rfl, rfl⟩ := Prod.mk.inj (Option.some.inj step)
      exact still rfl (h.same rfl rfl rfl rfl rfl)
  | cqPop c =>
    rcases exec_cqPop step with ⟨rfl, rfl⟩ | ⟨st, rest, hc, rfl, rfl⟩
    · exact still rfl h
    · obtain ⟨q, sums, rfl⟩ := h
      refine ⟨q + -st.operation, ?_, ?_⟩
      · apply stock_change (c := c) (l := rest) sums rfl
        simp [World.stock, hc]
      · simp only [World.pop, World.outstanding, Traffic.unended, tariff, traffic, succ_nsmul]
        abel
  | readRequest p =>
    simp only [exec] at step
    split at step <;> obtain ⟨-, rfl⟩ := Prod.mk.inj (Option.some.inj step) <;>
      exact still rfl (h.same rfl rfl rfl rfl rfl)
  | endCall result =>
    obtain ⟨-, rfl⟩ := Prod.mk.inj (Option.some.inj step)
    cases result <;> exact still rfl (h.same rfl rfl rfl rfl rfl)
  | _ =>
    obtain ⟨-, rfl⟩ := Prod.mk.inj (Option.some.inj step)
    exact still rfl (h.same rfl rfl rfl rfl rfl)

/-- An accepted operation that LCI completes leaves what is outstanding. -/
theorem outstanding_eraseIdx (isHandler : Comp → Bool) {w : World} {i : Nat} {p : Post}
    (found : w.pending[i]? = some p) :
    w.outstanding isHandler = (if isHandler p.comp then 0 else p.operation) +
      ((w.pending.eraseIdx i).map fun x => if isHandler x.comp then 0 else x.operation).sum :=
  sum_eraseIdx _ found

theorem intr_level {o : Op} {i : Intr} {p : Code Unit}
    (hi : (watched isHandler).intr t o i x = some (p, y)) :
    tariff.Adds p 0 ∧ (Level isHandler x a → Level isHandler y a) := by
  obtain ⟨step, record⟩ := System.Observer.intr_some hi
  obtain ⟨w, g⟩ := x
  obtain ⟨w', g'⟩ := y
  obtain rfl : g' = (traffic isHandler).intr t i g := record
  replace step : intr isHandler t o i w = some (p, w') := step
  cases i with
  | call c =>
    simp only [intr] at step
    split at step
    · obtain ⟨rfl, rfl⟩ := Prod.mk.inj (Option.some.inj step)
      exact ⟨adds_apiCall c, fun h => h.same rfl rfl rfl rfl rfl⟩
    · cases step
  | complete i n =>
    simp only [intr] at step
    split at step
    · obtain ⟨p, found, rest⟩ := Option.bind_eq_some_iff.mp step
      split at rest
      · rename_i handler
        obtain ⟨rfl, rfl⟩ := Prod.mk.inj (Option.some.inj rest)
        refine ⟨adds_signal _, fun ⟨q, sums, owed⟩ => ⟨q, sums, ?_⟩⟩
        have left := outstanding_eraseIdx isHandler found
        rw [if_pos handler, zero_add] at left
        rw [owed, left]
        rfl
      · cases rest
    · cases step
  | incoming rank tag buffer size =>
    simp only [intr] at step
    split at step
    · obtain ⟨rfl, rfl⟩ := Prod.mk.inj (Option.some.inj step)
      exact ⟨adds_signal _, fun h => h.same rfl rfl rfl rfl rfl⟩
    · cases step

theorem env_level {e : Env} (he : (watched isHandler).env e x = some y)
    (h : Level isHandler x a) : Level isHandler y a := by
  obtain ⟨step, record⟩ := System.Observer.env_some he
  obtain ⟨w, g⟩ := x
  obtain ⟨w', g'⟩ := y
  obtain rfl : g' = g := record
  replace step : env isHandler e w = some w' := step
  cases e with
  | willing b =>
    obtain rfl := Option.some.inj step
    exact h.same rfl rfl rfl rfl rfl
  | complete i n =>
    obtain ⟨p, found, rest⟩ := Option.bind_eq_some_iff.mp step
    split at rest
    · cases rest
    · rename_i queue
      obtain rfl := Option.some.inj rest
      obtain ⟨q, sums, rfl⟩ := h
      have left := outstanding_eraseIdx isHandler found
      rw [if_neg queue] at left
      refine ⟨q + p.operation, ?_, ?_⟩
      · apply stock_change (c := p.comp) sums rfl
        simp [World.stock, World.statusOf, Status.operation, Post.operation]
      · simp only [World.enqueue, World.outstanding] at left ⊢
        rw [left]
        abel
  | incoming c rank tag buffer size =>
    obtain rfl := Option.some.inj step
    obtain ⟨q, sums, rfl⟩ := h
    refine ⟨q + 0, ?_, by rw [add_zero]; rfl⟩
    apply stock_change (c := c) sums rfl
    simp [World.stock, Status.operation]

/-- The facts only depend on what they are about. -/
theorem Kept.carry (h : Kept x) (heap : ∀ p q, y.1.heap p = some q → x.1.heap p = some q)
    (counters : y.1.counters = x.1.counters) (posts : y.2.posts = x.2.posts) : Kept y where
  heap p q hq := h.heap p q (heap p q hq)
  produced := by rw [counters, h.produced]
  posts := by rw [posts]; exact h.posts

theorem exec_kept {o : Op} {r : o.Ret} (hx : (watched isHandler).exec t o x = some (r, y))
    (pre : tariff.pre o) (h : Kept x) : Kept y ∧ tariff.info o r := by
  obtain ⟨step, record⟩ := System.Observer.exec_some hx
  obtain ⟨w, g⟩ := x
  obtain ⟨w', g'⟩ := y
  obtain rfl : g' = (traffic isHandler).exec t o r g := record
  replace step : exec t o w = some (r, w') := step
  cases o with
  | newRequest q =>
    obtain ⟨rfl, rfl⟩ := Prod.mk.inj (Option.some.inj step)
    refine ⟨⟨fun p x hp => ?_, h.produced, h.posts⟩, rfl⟩
    by_cases new : p = ⟨w.next, q⟩
    · subst new
      simp only [World.newRequest, Function.update_self] at hp
      exact (Option.some.inj hp).symm
    · simp only [World.newRequest, Function.update_of_ne new] at hp
      exact h.heap p x hp
  | post p =>
    simp only [exec] at step
    split at step
    · obtain ⟨rfl, rfl⟩ := Prod.mk.inj (Option.some.inj step)
      refine ⟨⟨h.heap, h.produced, fun q hq => ?_⟩, trivial⟩
      rcases List.mem_append.mp hq with old | new
      · exact h.posts q old
      · obtain rfl := List.mem_singleton.mp new
        exact pre
    · obtain ⟨rfl, rfl⟩ := Prod.mk.inj (Option.some.inj step)
      exact ⟨h.carry (fun _ _ hp => hp) rfl rfl, trivial⟩
  | cqPop c =>
    rcases exec_cqPop step with ⟨rfl, rfl⟩ | ⟨st, rest, hc, rfl, rfl⟩ <;>
      exact ⟨h.carry (fun _ _ hp => hp) rfl rfl, trivial⟩
  | readRequest p =>
    simp only [exec] at step
    split at step
    · rename_i q hp
      obtain ⟨rfl, rfl⟩ := Prod.mk.inj (Option.some.inj step)
      exact ⟨h.carry (fun _ _ hp => hp) rfl rfl, h.heap p q hp⟩
    · obtain ⟨rfl, rfl⟩ := Prod.mk.inj (Option.some.inj step)
      exact ⟨h.carry (fun _ _ hp => hp) rfl rfl, rfl⟩
  | deleteRequest p site =>
    obtain ⟨-, rfl⟩ := Prod.mk.inj (Option.some.inj step)
    refine ⟨h.carry (fun q x hq => ?_) rfl rfl, trivial⟩
    by_cases gone : q = p
    · subst gone
      simp [World.delete] at hq
    · simpa only [World.delete, Function.update_of_ne gone] using hq
  | pcounterAdd k =>
    obtain ⟨-, rfl⟩ := Prod.mk.inj (Option.some.inj step)
    have other : Counter.compProduce ≠ k := fun e => pre e.symm
    refine ⟨⟨h.heap, ?_, h.posts⟩, trivial⟩
    simp only [Function.update_of_ne other]
    exact h.produced
  | endCall result =>
    obtain ⟨-, rfl⟩ := Prod.mk.inj (Option.some.inj step)
    cases result <;> exact ⟨h.carry (fun _ _ hp => hp) rfl rfl, trivial⟩
  | _ =>
    obtain ⟨-, rfl⟩ := Prod.mk.inj (Option.some.inj step)
    exact ⟨h.carry (fun _ _ hp => hp) rfl rfl, trivial⟩

theorem intr_kept {o : Op} {i : Intr} {p : Code Unit}
    (hi : (watched isHandler).intr t o i x = some (p, y)) (h : Kept x) : Kept y := by
  obtain ⟨step, record⟩ := System.Observer.intr_some hi
  obtain ⟨w, g⟩ := x
  obtain ⟨w', g'⟩ := y
  obtain rfl : g' = (traffic isHandler).intr t i g := record
  replace step : intr isHandler t o i w = some (p, w') := step
  cases i with
  | call c =>
    simp only [intr] at step
    split at step
    · obtain ⟨-, rfl⟩ := Prod.mk.inj (Option.some.inj step)
      exact h.carry (fun _ _ hp => hp) rfl rfl
    · cases step
  | complete i n =>
    simp only [intr] at step
    split at step
    · obtain ⟨p, found, rest⟩ := Option.bind_eq_some_iff.mp step
      split at rest
      · obtain ⟨-, rfl⟩ := Prod.mk.inj (Option.some.inj rest)
        exact h.carry (fun _ _ hp => hp) rfl rfl
      · cases rest
    · cases step
  | incoming rank tag buffer size =>
    simp only [intr] at step
    split at step
    · obtain ⟨-, rfl⟩ := Prod.mk.inj (Option.some.inj step)
      exact h.carry (fun _ _ hp => hp) rfl rfl
    · cases step

theorem env_kept {e : Env} (he : (watched isHandler).env e x = some y) (h : Kept x) : Kept y := by
  obtain ⟨step, record⟩ := System.Observer.env_some he
  obtain ⟨w, g⟩ := x
  obtain ⟨w', g'⟩ := y
  obtain rfl : g' = g := record
  replace step : env isHandler e w = some w' := step
  cases e with
  | complete i n =>
    obtain ⟨p, found, rest⟩ := Option.bind_eq_some_iff.mp step
    split at rest
    · cases rest
    · obtain rfl := Option.some.inj rest
      exact h.carry (fun _ _ hp => hp) rfl rfl
  | willing _ | incoming _ _ _ _ _ =>
    obtain rfl := Option.some.inj step
    exact h.carry (fun _ _ hp => hp) rfl rfl

end Steps

/-- Operations and completions are accounted for in every run. -/
def counting (isHandler : Comp → Bool) :
    Accounting (watched isHandler) (fun _ _ => True) Balance where
  inv := Kept
  level := Level isHandler
  tariff _ := tariff
  exec _ _ _ _ _ _ inv _ _ pre hx :=
    have kept := exec_kept hx pre inv
    ⟨kept.1, kept.2, fun _ => exec_level hx⟩
  intr _ _ _ _ _ _ _ inv _ _ _ hi := by
    refine ⟨intr_kept hi inv, 0, ?_, fun a h => ?_⟩
    · rw [neg_zero]
      exact (intr_level (a := 0) hi).1
    · rw [add_zero]
      exact (intr_level hi).2 h
  env _ _ _ inv _ he := ⟨env_kept he inv, fun _ => env_level he⟩

theorem counting_start (isHandler : Comp → Bool) :
    (counting isHandler).Balanced (watchedStart isHandler) := by
  have kept : Kept (watchedStart isHandler).shared :=
    ⟨fun _ _ h => (by cases h), rfl, fun _ h => (by cases h)⟩
  refine (counting isHandler).balanced_start kept ⟨0, Sums.zero, ?_⟩ fun t => ?_
  · simp [watchedStart, System.Observer.beside, start, World.init, Api.net_zero,
      World.outstanding, Traffic.unended]
  · exact ⟨trivial, fun _ v hv => hv.2.trans (add_zero _)⟩

/-- No call is in progress, every accepted operation is completed, every queue is drained. -/
structure Quiescent {isHandler : Comp → Bool} (s : (watched isHandler).State) : Prop where
  idle : ∀ t, s.prog t = act .userCode ∨ s.prog t = .ret ()
  delivered : s.shared.1.pending = []
  drained : ∀ c, s.shared.1.queues c = []

/-- The process has counted an end for each start, and a consumed completion for each that was
produced if all went through queues. -/
def Tallied {isHandler : Comp → Bool} (s : (watched isHandler).State) : Prop :=
  Conserved s.shared.1.counters ∧ (s.shared.2.handled = 0 →
    s.shared.1.counters .compProduce = s.shared.1.counters .compConsume)

section Claim

variable {isHandler : Comp → Bool} {s : (watched isHandler).State}

theorem counted_at_rest (h : System.Reach (fun _ _ => True) (watchedStart isHandler) s)
    (rest : Quiescent s) : net s.shared.1.counters =
      s.shared.2.unended isHandler - s.shared.2.polled • completion := by
  have balanced := (counting isHandler).reach (counting_start isHandler) h
  have level : Level isHandler s.shared 0 := by
    refine (counting isHandler).level_zero balanced fun t v settles => ?_
    unfold Accounting.Settles at settles
    rcases rest.idle t with idle | idle
    · rw [idle] at settles
      exact Tariff.settled_act () trivial rfl rfl settles
    · rw [idle] at settles
      exact settles
  obtain ⟨q, sums, owed⟩ := level
  have none : q = 0 := sums.eq_zero fun c => by simp [World.stock, rest.drained]
  subst none
  simp only [World.outstanding, rest.delivered, List.map_nil, List.sum_nil, sub_zero] at owed
  rw [← sub_eq_zero, owed]
  abel

/-- The kinds of the accepted operations whose completion object is a handler. -/
def Traffic.untold (isHandler : Comp → Bool) (g : Traffic) : List OpCode :=
  (g.posts.filter fun x => isHandler x.comp).map fun x => x.userContext.posted.op

theorem unended_eq (isHandler : Comp → Bool) (g : Traffic) :
    g.unended isHandler = ((g.untold isHandler).map operation).sum := by
  rw [Traffic.untold, List.map_map]
  rfl

/-- The counters agree at rest exactly when no operation was posted with a handler, and no
completion was polled unless a handler was run. -/
theorem tallied_iff (h : System.Reach (fun _ _ => True) (watchedStart isHandler) s)
    (rest : Quiescent s) : Tallied s ↔
      (∀ x ∈ s.shared.2.posts, isHandler x.comp = false) ∧
        (s.shared.2.handled = 0 → s.shared.2.polled = 0) := by
  obtain ⟨kept, -⟩ := (counting isHandler).reach (counting_start isHandler) h
  have counted := counted_at_rest h rest
  rw [unended_eq isHandler s.shared.2] at counted
  obtain ⟨neither, kinds⟩ := Api.sum_operation (s.shared.2.untold isHandler)
  have consumed : s.shared.1.counters .compConsume = s.shared.2.polled := by
    have completions := congrFun counted .comp
    have produced := kept.produced
    simp [net, completion, neither] at completions
    omega
  have ended (k : OpCode) : net s.shared.1.counters (.op k) =
      ((s.shared.2.untold isHandler).map operation).sum (.op k) := by
    rw [counted]
    simp [completion]
  unfold Tallied
  rw [kept.produced, consumed, eq_comm (a := 0), conserved_iff]
  refine and_congr_left fun _ => ⟨fun zero x hx => ?_, fun queues k => ?_⟩
  · by_contra handler
    have client := kept.posts x hx
    have listed : x.userContext.posted.op ∈ s.shared.2.untold isHandler :=
      List.mem_map.mpr ⟨x, List.mem_filter.mpr ⟨hx, by simpa using handler⟩, rfl⟩
    have owed := (ended _).symm.trans (zero x.userContext.posted.op)
    rw [kinds _ client] at owed
    have counts := List.count_pos_iff.mpr listed
    omega
  · have none : s.shared.2.untold isHandler = [] := by
      apply List.map_eq_nil_iff.mpr
      exact List.filter_eq_nil_iff.mpr fun x hx => by simp [queues x hx]
    rw [ended, none]
    rfl

end Claim

section Example

/-- One completion object is a handler. -/
def seven (c : Comp) : Bool := c == 7

private def main : (watched seven).Tid := (0 : Tid)

/-- LCI runs the handler of a send of five bytes before the post returns. -/
private def handledSend : List (watched seven).Event :=
  .intr main (.call (.send 1 2 3 4 5 7 6) : Intr) :: List.replicate 2 (.exec main) ++
    .intr main (.complete 0 5 : Intr) :: List.replicate 8 (.exec main)

private theorem handledSend_ends : (System.run (watchedStart seven) handledSend).isSome := by
  decide +kernel

private theorem handledSend_alone : ∀ e ∈ handledSend, e.By main := by decide +kernel

theorem handled_send_at_rest : ∃ s : (watched seven).State,
    System.Reach (fun _ _ => True) (watchedStart seven) s ∧ Quiescent s ∧
      s.shared.1.counters .sendStart = 1 ∧ s.shared.1.counters .sendEnd = 0 := by
  have run := (Option.some_get handledSend_ends).symm
  refine ⟨_, System.reach_run run (System.admitted_of_forall (fun _ _ => trivial) _ _),
    ⟨fun u => ?_, rfl, fun c => rfl⟩, rfl, rfl⟩
  by_cases mine : u = main
  · subst mine
    exact .inr rfl
  · exact .inl (System.run_alone handledSend_alone mine run)

end Example

end Lcw.Lci2
