/- digest: Every context of the LCI backend is in one place until it is deleted, once. -/

import Lcw.Interleave.Discipline
import Lcw.Interleave.Observe
import Lcw.Interleave.Placement
import Lcw.Lci.Protocol
import Mathlib.Data.List.InsertIdx
import Mathlib.Data.List.Nodup

set_option autoImplicit false
set_option relaxedAutoImplicit false

namespace Lcw.Lci

open Interleave
open Lcw.Mpi (OpCode Counter Rank Tid Byte toInt toSize toAint)
open Function (update)

variable {cfg : Config}

/-- What a thread does with a context that only it knows of. -/
inductive Held
  | fresh | refused | taken | consumed
  deriving DecidableEq

/-- Who answers for a context: a thread, LCI with its queues, or nobody any more. -/
inductive Custody
  | unborn
  | held (t : Tid) (h : Held)
  | given
  | dropped
  | shown
  deriving DecidableEq

namespace Custody

/-- Whether the context is still allocated. -/
def live : Custody → Bool
  | .held _ .consumed | .unborn | .dropped | .shown => false
  | .held .. | .given => true

def heldBy (t : Tid) : Custody → Option Held
  | .held u h => if u = t then some h else none
  | _ => none

/-- What LCI answered to the post. -/
def answer : Custody → Option Bool
  | .unborn | .held _ .fresh => none
  | .held _ .refused | .dropped => some false
  | _ => some true

theorem heldBy_eq_some {t : Tid} {x : Custody} {h : Held} :
    x.heldBy t = some h ↔ x = .held t h := by
  cases x with
  | held u k =>
    by_cases e : u = t
    · simp [heldBy, e]
    · simp [heldBy, e]
  | _ => simp [heldBy]

end Custody

/-- Who answers for the contexts once an operation is performed. -/
def Op.entrusts (t : Tid) (g : Ctx → Custody) : (o : Op) → o.Ret → Ctx → Custody
  | .newRequest _, p => update g p (.held t .fresh)
  | .post x, ok => update g x.userContext (if ok then .given else .held t .refused)
  | .queuePop _, r => match (r : Option LciRequest) with
    | some ⟨some p, _, _, _, _, _⟩ => update g p (.held t .taken)
    | _ => g
  | .deleteRequest p, _ =>
    update g p (if g p = .held t .taken then .held t .consumed else .dropped)
  | .output _ (.own p _), _ => update g p .shown
  | _, _ => g

/-- What LCI answered to the posts so far. -/
def Op.answers (a : Ctx → Option Bool) : (o : Op) → o.Ret → Ctx → Option Bool
  | .post x, ok => update a x.userContext (some ok)
  | _, _ => a

/-- What an onlooker notes of each context: who answers for it, and what LCI answered. -/
structure Watch where
  custody : Ctx → Custody
  answers : Ctx → Option Bool

variable (cfg) in
def custodian : (system cfg).Observer where
  Record := Watch
  exec t o r g := ⟨o.entrusts t g.custody r, o.answers g.answers r⟩
  intr _ _ g := g

variable (cfg) in
abbrev guarded : System := (custodian cfg).observed

variable (cfg) in
def guardedStart : (guarded cfg).State :=
  (custodian cfg).beside (start cfg) ⟨fun _ => .unborn, fun _ => none⟩

namespace World

/-- The contexts LCI has, in each of its lists. -/
def lists (w : World) : Option (Option (Rank × Comp)) → List Ctx
  | none => w.locals.map (·.2.userContext)
  | some none => w.recvs.map (·.2.userContext)
  | some (some (r, c)) => (w.queues r c).filterMap LciRequest.userContext

/-- How often the client has seen the completion of a context. -/
def timesShown (w : World) (p : Ctx) : Nat :=
  w.outputs.countP fun o => match o.origin with
    | .own q _ => q = p
    | .remote _ => false

end World

/-- The heap, the lists of LCI and what the client saw agree with who answers for a context. -/
structure Entrusted (w : World) (g : Ctx → Custody) : Prop where
  unborn : ∀ p, w.next ≤ p.addr → g p = .unborn
  heap : ∀ p, w.heap p = if (g p).live then some p.posted else none
  placed : ∃ place, Placed id w.lists place ∧ ∀ p, place p ≠ none ↔ g p = .given
  shown : ∀ p, w.timesShown p = if g p = .shown then 1 else 0

def holds (t : Tid) (g : Ctx → Custody) : Ctx → Option Held := Custody.heldBy t ∘ g

/-- What a thread must hold for an operation, and what it holds after it. -/
def custodyContract : Contract Op Op.Ret (Ctx → Option Held) where
  pre
    | .post x, v => v x.userContext = some .fresh
    | .readRequest p, v => v p = some .taken
    | .deleteRequest p, v => v p = some .taken ∨ v p = some .refused
    | .output _ (.own p _), v => v p = some .consumed
    | .userCode, v => v = fun _ => none
    | _, _ => True
  post
    | .newRequest q, v, p, v' => p.posted = q ∧ v' = update v p (some .fresh)
    | .post x, v, ok, v' => v' = update v x.userContext (if ok then none else some .refused)
    | .queuePop _, v, r, v' => match (r : Option LciRequest) with
      | some ⟨some p, _, _, _, _, _⟩ => v' = update v p (some .taken)
      | _ => v' = v
    | .deleteRequest p, v, _, v' =>
      v' = update v p (if v p = some .taken then some .consumed else none)
    | .output _ (.own p _), v, _, v' => v' = update v p none
    | _, v, _, v' => v' = v

section Moves

variable {w w' : World} {g : Ctx → Custody} {t u : Tid} {p : Ctx}

theorem holds_update (x : Custody) :
    holds t (update g p x) = update (holds t g) p (x.heldBy t) := by
  unfold holds
  exact Function.comp_update ..

theorem update_none (v : Ctx → Option Held) (free : v p = none) : update v p none = v := by
  rw [← free]
  exact Function.update_eq_self p v

/-- A context another thread holds, or nobody, is not in this thread's hands. -/
theorem holds_other {x : Custody} (before : (g p).heldBy u = none) (after : x.heldBy u = none) :
    holds u (update g p x) = holds u g := by
  rw [holds_update, after]
  exact update_none _ before

theorem heldBy_other (h : u ≠ t) (k : Held) : (Custody.held t k).heldBy u = none := by
  simp [Custody.heldBy, Ne.symm h]

theorem lists_push (r : Rank) (c : Comp) (st : LciRequest) :
    (w.push r c st).lists = update w.lists (some (some (r, c)))
      (w.lists (some (some (r, c))) ++ st.userContext.toList) := by
  funext i
  cases i with
  | none => rfl
  | some i =>
    cases i with
    | none => rfl
    | some x =>
      obtain ⟨s, d⟩ := x
      by_cases e : (s, d) = (r, c)
      · obtain ⟨rfl, rfl⟩ := Prod.mk.inj e
        rw [Function.update_self]
        cases ctx : st.userContext <;> simp [World.lists, World.push, ctx]
      · have other : (some (some (s, d)) : Option (Option (Rank × Comp))) ≠ some (some (r, c)) :=
          fun same => e (Option.some.inj (Option.some.inj same))
        rw [Function.update_of_ne other]
        by_cases hr : s = r
        · subst hr
          have hc : d ≠ c := fun same => e (by rw [same])
          simp [World.lists, World.push, hc]
        · simp [World.lists, World.push, hr]

theorem lists_pop {r : Rank} {c : Comp} {st : LciRequest} {rest : List LciRequest}
    (front : w.queues r c = st :: rest) :
    ({ w with queues := update w.queues r (update (w.queues r) c rest) } : World).lists =
      update w.lists (some (some (r, c))) (rest.filterMap LciRequest.userContext) ∧
    w.lists (some (some (r, c))) =
      st.userContext.toList ++ rest.filterMap LciRequest.userContext := by
  constructor
  · funext i
    cases i with
    | none => rfl
    | some i =>
      cases i with
      | none => rfl
      | some x =>
        obtain ⟨s, d⟩ := x
        by_cases e : (s, d) = (r, c)
        · obtain ⟨rfl, rfl⟩ := Prod.mk.inj e
          simp [World.lists]
        · have other : (some (some (s, d)) : Option (Option (Rank × Comp))) ≠
              some (some (r, c)) := fun same => e (Option.some.inj (Option.some.inj same))
          rw [Function.update_of_ne other]
          by_cases hr : s = r
          · subst hr
            have hc : d ≠ c := fun same => e (by rw [same])
            simp [World.lists, hc]
          · simp [World.lists, hr]
  · cases ctx : st.userContext <;> simp [World.lists, front, ctx]

/-- One context changes hands. -/
theorem Entrusted.move (h : Entrusted w g) {x : Custody} (next : w.next ≤ w'.next)
    (born : p.addr < w'.next)
    (heap : w'.heap = update w.heap p (if x.live then some p.posted else none))
    (placed : ∃ place, Placed id w'.lists place ∧ ∀ q, place q ≠ none ↔ update g p x q = .given)
    (shown : ∀ q, w'.timesShown q = if update g p x q = .shown then 1 else 0) :
    Entrusted w' (update g p x) where
  unborn q hq := by
    have other : q ≠ p := by
      rintro rfl
      omega
    rw [Function.update_of_ne other]
    exact h.unborn q (by omega)
  heap q := by
    rw [heap]
    by_cases e : q = p
    · subst e
      simp
    · rw [Function.update_of_ne e, Function.update_of_ne e]
      exact h.heap q
  placed := placed
  shown := shown

/-- Nothing changes hands. -/
theorem Entrusted.carry (h : Entrusted w g) (next : w'.next = w.next) (heap : w'.heap = w.heap)
    (lists : w'.lists = w.lists) (shown : ∀ q, w'.timesShown q = w.timesShown q) :
    Entrusted w' g where
  unborn q hq := h.unborn q (by omega)
  heap q := by
    rw [heap]
    exact h.heap q
  placed := by
    rw [lists]
    exact h.placed
  shown q := (shown q).trans (h.shown q)

theorem Entrusted.born (h : Entrusted w g) (hp : g p ≠ .unborn) : p.addr < w.next := by
  by_contra fresh
  exact hp (h.unborn p (by omega))

/-- Contexts that are not LCI's stay in no list. -/
theorem Entrusted.still_placed (h : Entrusted w g) (lists : w'.lists = w.lists) {x : Custody}
    (out : g p ≠ .given) (stays : x ≠ .given) :
    ∃ place, Placed id w'.lists place ∧ ∀ q, place q ≠ none ↔ update g p x q = .given := by
  obtain ⟨place, placed, given⟩ := h.placed
  refine ⟨place, by rwa [lists], fun q => (given q).trans ?_⟩
  by_cases e : q = p
  · subst e
    rw [Function.update_self]
    exact ⟨fun here => absurd here out, fun here => absurd here stays⟩
  · rw [Function.update_of_ne e]

theorem Entrusted.still_shown (h : Entrusted w g) (same : ∀ q, w'.timesShown q = w.timesShown q)
    {x : Custody} (before : g p ≠ .shown) (after : x ≠ .shown) (q : Ctx) :
    w'.timesShown q = if update g p x q = .shown then 1 else 0 := by
  rw [same, h.shown]
  by_cases e : q = p
  · subst e
    rw [Function.update_self, if_neg before, if_neg after]
  · rw [Function.update_of_ne e]

theorem Entrusted.heap_stay (h : Entrusted w g) {x : Custody} (live : x.live = (g p).live) :
    w.heap = update w.heap p (if x.live then some p.posted else none) := by
  rw [live, ← h.heap p]
  exact (Function.update_eq_self p w.heap).symm

theorem given_iff {place : Ctx → Option (Option (Option (Rank × Comp)))}
    (given : ∀ q, place q ≠ none ↔ g q = .given) {i : Option (Option (Option (Rank × Comp)))}
    {x : Custody} (here : i ≠ none ↔ x = .given) (q : Ctx) :
    update place p i q ≠ none ↔ update g p x q = .given := by
  by_cases e : q = p
  · subst e
    rw [Function.update_self, Function.update_self]
    exact here
  · rw [Function.update_of_ne e, Function.update_of_ne e]
    exact given q

end Moves

section Steps

variable {w w' : World} {g : Ctx → Custody} {t : Tid} {p : Ctx}

theorem lists_accept (r : Rank) (x : Post) : ∃ i, (w.accept r x).lists =
    update w.lists i (w.lists i ++ [x.userContext]) := by
  unfold World.accept
  split
  · refine ⟨some none, ?_⟩
    funext i
    cases i with
    | none => rfl
    | some i =>
      cases i with
      | none => simp [World.lists]
      | some y => rfl
  · refine ⟨none, ?_⟩
    funext i
    cases i with
    | none => simp [World.lists]
    | some i => cases i <;> rfl

theorem accept_frame (r : Rank) (x : Post) : (w.accept r x).next = w.next ∧
    (w.accept r x).heap = w.heap ∧ (w.accept r x).outputs = w.outputs := by
  unfold World.accept
  split <;> exact ⟨rfl, rfl, rfl⟩

theorem store_frame (b : Buffer) (bytes : List Byte) : (w.store b bytes).next = w.next ∧
    (w.store b bytes).heap = w.heap ∧ (w.store b bytes).outputs = w.outputs ∧
      (w.store b bytes).lists = w.lists := by
  cases b <;> exact ⟨rfl, rfl, rfl, rfl⟩

theorem timesShown_congr (outputs : w'.outputs = w.outputs) (q : Ctx) :
    w'.timesShown q = w.timesShown q := by
  unfold World.timesShown
  rw [outputs]

/-- A context passes to its thread, and out of every list. -/
theorem Entrusted.accept (h : Entrusted w g) {x : Post} (mine : g x.userContext = .held t .fresh)
    (r : Rank) : Entrusted (w.accept r x) (update g x.userContext .given) := by
  obtain ⟨next, heap, outputs⟩ := accept_frame (w := w) r x
  obtain ⟨place, placed, given⟩ := h.placed
  obtain ⟨i, lists⟩ := lists_accept (w := w) r x
  have free : place x.userContext = none := by
    by_contra here
    have gave := (given _).mp here
    simp [mine] at gave
  refine h.move (by omega) ?_ ?_ ⟨update place x.userContext (some i), ?_, ?_⟩ ?_
  · rw [next]
    exact h.born (by simp [mine])
  · rw [heap]
    exact h.heap_stay (by rw [mine]; rfl)
  · rw [lists]
    exact placed.push free
  · exact given_iff given (by simp)
  · exact h.still_shown (timesShown_congr outputs) (by simp [mine]) (by simp)

theorem Entrusted.pop (h : Entrusted w g) {r : Rank} {c : Comp} {st : LciRequest}
    {rest : List LciRequest} (front : w.queues r c = st :: rest) :
    match st.userContext with
    | none =>
      Entrusted { w with queues := update w.queues r (update (w.queues r) c rest) } g
    | some p => g p = .given ∧
      Entrusted { w with queues := update w.queues r (update (w.queues r) c rest) }
        (update g p (.held t .taken)) := by
  obtain ⟨lists, before⟩ := lists_pop (w := w) front
  obtain ⟨place, placed, given⟩ := h.placed
  cases ctx : st.userContext with
  | none =>
    refine h.carry rfl rfl ?_ fun _ => rfl
    rw [lists]
    rw [ctx, Option.toList_none, List.nil_append] at before
    rw [← before]
    exact Function.update_eq_self _ _
  | some p =>
    rw [ctx, Option.toList_some, List.singleton_append] at before
    have here := placed.place_of_mem (i := some (some (r, c))) (a := p) (by rw [before]; simp)
    have gave : g p = .given := (given p).mp (by rw [show place p = _ from here]; simp)
    refine ⟨gave, h.move (Nat.le_refl _) ?_ ?_ ⟨update place p none, ?_, ?_⟩ ?_⟩
    · exact h.born (by simp [gave])
    · exact h.heap_stay (by rw [gave]; rfl)
    · rw [lists]
      exact placed.pop before
    · exact given_iff given (by simp)
    · exact h.still_shown (fun _ => rfl) (by simp [gave]) (by simp)

theorem Entrusted.delete (h : Entrusted w g) {x : Custody} (dead : x.live = false)
    (mine : g p = .held t .taken ∧ x ≠ .shown ∨ g p = .held t .refused ∧ x ≠ .shown) :
    Entrusted { w with heap := update w.heap p none } (update g p x) := by
  have held : g p ≠ .given ∧ g p ≠ .shown ∧ g p ≠ .unborn ∧ x ≠ .shown := by
    rcases mine with ⟨here, other⟩ | ⟨here, other⟩ <;> simp [here, other]
  obtain ⟨ungiven, unshown, born, other⟩ := held
  refine h.move (Nat.le_refl _) (h.born born) (by simp [dead]) (h.still_placed rfl ungiven ?_)
    (h.still_shown (fun _ => rfl) unshown other)
  rintro rfl
  cases dead

theorem Entrusted.output (h : Entrusted w g) (mine : g p = .held t .consumed) (q : Request)
    (m : Option Message) : Entrusted (w.output t q (.own p m)) (update g p .shown) := by
  refine h.move (Nat.le_refl _) (h.born (by simp [mine])) (h.heap_stay (by rw [mine]; rfl))
    (h.still_placed rfl (by simp [mine]) (by simp)) fun r => ?_
  have count : (w.output t q (.own p m)).timesShown r =
      w.timesShown r + if p = r then 1 else 0 := by
    simp [World.timesShown, World.output, List.countP_append]
  rw [count, h.shown r]
  by_cases e : r = p
  · subst e
    simp [mine]
  · simp [Function.update_of_ne e, Ne.symm e]

theorem Entrusted.newRequest (h : Entrusted w g) (t : Tid) (q : Request) :
    Entrusted { w with next := w.next + 1, heap := update w.heap ⟨w.next, q⟩ (some q) }
      (update g ⟨w.next, q⟩ (.held t .fresh)) := by
  have unborn : g ⟨w.next, q⟩ = .unborn := h.unborn _ (Nat.le_refl _)
  exact h.move (Nat.le_succ _) (Nat.lt_succ_self _) rfl
    (h.still_placed rfl (by simp [unborn]) (by simp))
    (h.still_shown (fun _ => rfl) (by simp [unborn]) (by simp))

theorem Entrusted.refuse (h : Entrusted w g) (mine : g p = .held t .fresh) :
    Entrusted w (update g p (.held t .refused)) := by
  refine h.move (Nat.le_refl _) (h.born (by simp [mine])) (h.heap_stay (by rw [mine]; rfl))
    (h.still_placed rfl (by simp [mine]) (by simp))
    (h.still_shown (fun _ => rfl) (by simp [mine]) (by simp))

/-- LCI moves a context from one of its lists to a queue. -/
theorem Entrusted.complete (h : Entrusted w g) {i : Option (Option (Rank × Comp))} {n : Nat}
    (found : (w.lists i)[n]? = some p)
    (lists : w'.lists = update w.lists i ((w.lists i).eraseIdx n)) (next : w'.next = w.next)
    (heap : w'.heap = w.heap) (outputs : w'.outputs = w.outputs) (r : Rank) (c : Comp)
    {st : LciRequest} (ctx : st.userContext = some p) : Entrusted (w'.push r c st) g := by
  obtain ⟨place, placed, given⟩ := h.placed
  have here : place p = some i := placed.place_of_mem (List.mem_of_getElem? found)
  have gave : g p = .given := (given p).mp (by simp [here])
  have moved := (placed.erase found).push (i := some (some (r, c))) (Function.update_self _ _ _)
  rw [Function.update_idem] at moved
  refine ⟨fun q hq => h.unborn q (next ▸ hq), fun q => ?_,
    ⟨update place p (some (some (some (r, c)))), ?_, fun q => ?_⟩, fun q => ?_⟩
  · rw [← h.heap q, ← heap]
    rfl
  · rw [lists_push, lists, ctx]
    exact moved
  · have keep := given_iff given (p := p) (i := some (some (some (r, c)))) (x := .given)
      (by simp) q
    have same : update g p .given = g := by
      rw [← gave]
      exact Function.update_eq_self p g
    rwa [same] at keep
  · exact (timesShown_congr outputs q).trans (h.shown q)

theorem Entrusted.signal (h : Entrusted w g) (next : w'.next = w.next) (heap : w'.heap = w.heap)
    (lists : w'.lists = w.lists) (outputs : w'.outputs = w.outputs) (r : Rank) (c : Comp)
    {st : LciRequest} (ctx : st.userContext = none) : Entrusted (w'.push r c st) g := by
  have same : (w'.push r c st).lists = w.lists := by
    rw [lists_push, ctx, Option.toList_none, List.append_nil, Function.update_eq_self, lists]
  exact h.carry next heap same (timesShown_congr outputs)

end Steps

section Operations

variable {w w' : World} {g : Ctx → Custody} {a : Ctx → Option Bool} {t : Tid}

theorem own_of_holds {p : Ctx} {k : Held} (h : holds t g p = some k) : g p = .held t k :=
  Custody.heldBy_eq_some.mp h

/-- Each operation keeps the contexts in order, by its contract, unseen by other threads. -/
theorem exec_entrusted {o : Op} {r : o.Ret} (h : Entrusted w g)
    (pre : custodyContract.pre o (holds t g)) (hx : exec t o w = some (r, w')) :
    Entrusted w' (o.entrusts t g r) ∧
      custodyContract.post o (holds t g) r (holds t (o.entrusts t g r)) ∧
      ∀ u, u ≠ t → holds u (o.entrusts t g r) = holds u g := by
  have mine (p : Ctx) (k : Held) :
      holds t (update g p (.held t k)) = update (holds t g) p (some k) := by
    rw [holds_update]
    simp [Custody.heldBy]
  cases o with
  | newRequest q =>
    obtain ⟨rfl, rfl⟩ := Prod.mk.inj (Option.some.inj hx)
    have unborn : g ⟨w.next, q⟩ = .unborn := h.unborn _ (Nat.le_refl _)
    refine ⟨h.newRequest t q, ⟨rfl, mine _ _⟩, fun u hu => holds_other ?_ (heldBy_other hu _)⟩
    rw [unborn]
    rfl
  | post x =>
    have here := own_of_holds pre
    have before (u : Tid) (hu : u ≠ t) : (g x.userContext).heldBy u = none := by
      rw [here]
      exact heldBy_other hu _
    have hx := Option.some.inj hx
    split at hx
    · obtain ⟨rfl, rfl⟩ := Prod.mk.inj hx
      exact ⟨h.accept here _, holds_update _, fun u hu => holds_other (before u hu) rfl⟩
    · obtain ⟨rfl, rfl⟩ := Prod.mk.inj hx
      exact ⟨h.refuse here, mine _ _, fun u hu => holds_other (before u hu) (heldBy_other hu _)⟩
  | queuePop c =>
    simp only [exec] at hx
    split at hx
    · obtain ⟨rfl, rfl⟩ := Prod.mk.inj (Option.some.inj hx)
      exact ⟨h, rfl, fun _ _ => rfl⟩
    · rename_i st rest front
      obtain ⟨rfl, rfl⟩ := Prod.mk.inj (Option.some.inj hx)
      have popped := h.pop (t := t) front
      obtain ⟨ctx, rank, tag, type, data, origin⟩ := st
      cases ctx with
      | none => exact ⟨popped, rfl, fun _ _ => rfl⟩
      | some p =>
        obtain ⟨gave, kept⟩ := popped
        refine ⟨kept, mine _ _, fun u hu => holds_other ?_ (heldBy_other hu _)⟩
        rw [gave]
        rfl
  | deleteRequest p =>
    obtain ⟨-, rfl⟩ := Prod.mk.inj (Option.some.inj hx)
    rcases pre with held | held
    · have here := own_of_holds held
      simp only [Op.entrusts, custodyContract, if_pos here, if_pos held]
      refine ⟨h.delete rfl (.inl ⟨here, by simp⟩), mine _ _, fun u hu => holds_other ?_ ?_⟩
      · rw [here]
        exact heldBy_other hu _
      · exact heldBy_other hu _
    · have here := own_of_holds held
      have other : g p ≠ .held t .taken := by simp [here]
      have other' : holds t g p ≠ some .taken := by simp [held]
      simp only [Op.entrusts, custodyContract, if_neg other, if_neg other']
      refine ⟨h.delete rfl (.inr ⟨here, by simp⟩), holds_update _, fun u hu => holds_other ?_ rfl⟩
      rw [here]
      exact heldBy_other hu _
  | output q origin =>
    obtain ⟨-, rfl⟩ := Prod.mk.inj (Option.some.inj hx)
    cases origin with
    | own p m =>
      have here := own_of_holds pre
      refine ⟨h.output here q m, holds_update _, fun u hu => holds_other ?_ rfl⟩
      rw [here]
      exact heldBy_other hu _
    | remote m =>
      refine ⟨h.carry rfl rfl rfl fun p => ?_, rfl, fun _ _ => rfl⟩
      simp [World.timesShown, World.output, List.countP_append]
  | memalign n =>
    have hx := Option.some.inj hx
    split at hx
    · obtain ⟨-, rfl⟩ := Prod.mk.inj hx
      exact ⟨h.carry rfl rfl rfl fun _ => rfl, rfl, fun _ _ => rfl⟩
    · obtain ⟨-, rfl⟩ := Prod.mk.inj hx
      exact ⟨h, rfl, fun _ _ => rfl⟩
  | memcpy dst src n =>
    obtain ⟨-, rfl⟩ := Prod.mk.inj (Option.some.inj hx)
    obtain ⟨next, heap, outputs, lists⟩ := store_frame (w := w) dst (readBytes n (w.bytesOf src))
    exact ⟨h.carry next heap lists (timesShown_congr outputs), rfl, fun _ _ => rfl⟩
  | pcounterAdd c =>
    obtain ⟨-, rfl⟩ := Prod.mk.inj (Option.some.inj hx)
    exact ⟨h.carry rfl rfl rfl fun _ => rfl, rfl, fun _ _ => rfl⟩
  | readRequest p | mbufferFree b | progress d | barrier d | userCode =>
    obtain ⟨-, rfl⟩ := Prod.mk.inj (Option.some.inj hx)
    exact ⟨h, rfl, fun _ _ => rfl⟩
  | abort => cases hx

/-- What LCI answered is what the custody of the context tells. -/
theorem exec_answers {o : Op} {r : o.Ret} (h : Entrusted w g) (told : ∀ p, a p = (g p).answer)
    (pre : custodyContract.pre o (holds t g)) (hx : exec t o w = some (r, w')) (p : Ctx) :
    o.answers a r p = (o.entrusts t g r p).answer := by
  have keep {q : Ctx} {x : Custody} (same : x.answer = (g q).answer) :
      a p = (update g q x p).answer := by
    by_cases e : p = q
    · subst e
      rw [Function.update_self, same, told]
    · rw [Function.update_of_ne e, told]
  cases o with
  | newRequest q =>
    obtain ⟨rfl, -⟩ := Prod.mk.inj (Option.some.inj hx)
    refine keep ?_
    rw [h.unborn _ (Nat.le_refl _)]
    rfl
  | post x =>
    by_cases e : p = x.userContext
    · subst e
      simp only [Op.answers, Op.entrusts, Function.update_self]
      cases r <;> rfl
    · simp only [Op.answers, Op.entrusts, Function.update_of_ne e]
      exact told p
  | queuePop c =>
    simp only [exec] at hx
    split at hx
    · obtain ⟨rfl, -⟩ := Prod.mk.inj (Option.some.inj hx)
      exact told p
    · rename_i st rest front
      obtain ⟨rfl, -⟩ := Prod.mk.inj (Option.some.inj hx)
      have popped := h.pop (t := t) front
      obtain ⟨ctx, rank, tag, type, data, origin⟩ := st
      cases ctx with
      | none => exact told p
      | some q =>
        refine keep ?_
        rw [popped.1]
        rfl
  | deleteRequest q =>
    rcases pre with held | held
    · have here := own_of_holds held
      simp only [Op.answers, Op.entrusts, if_pos here]
      exact keep (by rw [here]; rfl)
    · have here := own_of_holds held
      have other : g q ≠ .held t .taken := by simp [here]
      simp only [Op.answers, Op.entrusts, if_neg other]
      exact keep (by rw [here]; rfl)
  | output q origin =>
    cases origin with
    | own s m =>
      refine keep ?_
      rw [own_of_holds pre]
      rfl
    | remote m => exact told p
  | _ => exact told p

variable (w) in
theorem deliver_lists (i j : Nat) (m : Message) (r : Rank) (x : Post) :
    ∃ w₁ : World, w.deliver i j m r x =
        w₁.push r x.comp (World.localStatus x (World.received x m.payload.length) (some m)) ∧
      w₁.lists = update w.lists (some none) ((w.lists (some none)).eraseIdx j) ∧
      w₁.next = w.next ∧ w₁.heap = w.heap ∧ w₁.outputs = w.outputs := by
  let bytes := m.payload ++ (w.bytesOf x.data.address).drop m.payload.length
  obtain ⟨next, heap, outputs, lists⟩ := store_frame (w := w) x.data.address bytes
  have recvs : (w.store x.data.address bytes).recvs = w.recvs := by
    cases x.data.address <;> rfl
  refine ⟨_, rfl, ?_, next, heap, outputs⟩
  funext k
  have same := congrFun lists k
  cases k with
  | none => exact same
  | some k =>
    cases k with
    | none => simp [World.lists, recvs, bytes, List.eraseIdx_map]
    | some y => exact same

/-- What LCI and the memory of the client do by themselves leaves all contexts in order. -/
theorem env_entrusted {e : Env} (h : Entrusted w g) (he : env cfg e w = some w') :
    Entrusted w' g := by
  cases e with
  | willing b | available b =>
    obtain rfl := Option.some.inj he
    exact h.carry rfl rfl rfl fun _ => rfl
  | write r addr bytes =>
    obtain rfl := Option.some.inj he
    obtain ⟨next, heap, outputs, lists⟩ := store_frame (w := w) (.user r addr) bytes
    exact h.carry next heap lists (timesShown_congr outputs)
  | localDone i =>
    obtain ⟨⟨r, x⟩, hx, rest⟩ := Option.bind_eq_some_iff.mp he
    obtain rfl := Option.some.inj rest
    have found : (w.lists none)[i]? = some x.userContext := by simp [World.lists, hx]
    have lists : ({ w with locals := w.locals.eraseIdx i } : World).lists =
        update w.lists none ((w.lists none).eraseIdx i) := by
      funext j
      cases j with
      | none => simp [World.lists, List.eraseIdx_map]
      | some j => cases j <;> rfl
    exact h.complete found lists rfl rfl rfl r x.comp rfl
  | meet i j =>
    obtain ⟨m, hm, rest⟩ := Option.bind_eq_some_iff.mp he
    obtain ⟨⟨r, x⟩, hx, rest⟩ := Option.bind_eq_some_iff.mp rest
    simp only at rest
    split at rest
    · obtain rfl := Option.some.inj rest
      have found : (w.lists (some none))[j]? = some x.userContext := by simp [World.lists, hx]
      obtain ⟨w₁, delivered, lists, next, heap, outputs⟩ := deliver_lists w i j m r x
      rw [delivered]
      exact h.complete found lists next heap outputs r x.comp rfl
    · cases rest
  | arrive i segment =>
    obtain ⟨m, hm, rest⟩ := Option.bind_eq_some_iff.mp he
    split at rest
    · obtain rfl := Option.some.inj rest
      refine h.signal ?_ ?_ ?_ ?_ _ _ ?_ <;> rfl
    · cases rest

end Operations

section Programs

/-- The view of a thread with no context in hand. -/
def bare : Ctx → Option Held := fun _ => none

theorem update_bare (p : Ctx) : update bare p none = bare := update_none bare rfl

/-- A post leaves its thread with nothing in hand, accepted or not. -/
theorem bare_post {request : Request} {call : Ctx → Post} (own : ∀ p, (call p).userContext = p) :
    custodyContract.wp (post request call) (fun _ v => v = bare) bare := by
  refine ⟨trivial, fun p v hv => ?_⟩
  obtain ⟨-, rfl⟩ := hv
  have fresh : update bare p (some Held.fresh) (call p).userContext = some .fresh := by
    rw [own, Function.update_self]
  refine ⟨fresh, fun posted v hv => ?_⟩
  simp only [custodyContract, own, Function.update_idem] at hv
  cases posted with
  | true => exact hv.trans (update_bare p)
  | false =>
    subst hv
    refine ⟨.inr (Function.update_self _ _ _), fun _ v hv => ?_⟩
    simp only [custodyContract, Function.update_self, Function.update_idem] at hv
    exact hv.trans (update_bare p)

theorem bare_pollRemote (lciReq : LciRequest) :
    custodyContract.wp (pollRemote cfg lciReq) (fun _ v => v = bare) bare := by
  refine ⟨trivial, fun buffer v hv => ?_⟩
  obtain rfl := hv
  cases buffer with
  | none => exact ⟨trivial, fun never => never.elim⟩
  | some b =>
    refine ⟨trivial, fun _ v hv => ?_⟩
    obtain rfl := hv
    refine ⟨trivial, fun _ v hv => ?_⟩
    obtain rfl := hv
    exact ⟨trivial, fun _ v hv => hv⟩

/-- A context taken from a queue is read, deleted and shown. -/
theorem bare_pollLocal (p : Ctx) (lciReq : LciRequest) :
    custodyContract.wp (pollLocal cfg p lciReq) (fun _ v => v = bare)
      (update bare p (some .taken)) := by
  have taken : update bare p (some Held.taken) p = some .taken := Function.update_self _ _ _
  refine ⟨taken, fun request v hv => ?_⟩
  obtain rfl := hv
  refine ⟨.inl taken, fun _ v hv => ?_⟩
  simp only [custodyContract, taken, if_true, Function.update_idem] at hv
  subst hv
  refine ⟨Function.update_self _ _ _, fun _ v hv => ?_⟩
  simp only [custodyContract, Function.update_idem] at hv
  exact hv.trans (update_bare p)

theorem bare_pollCq (c : Comp) :
    custodyContract.wp (pollCq cfg c) (fun _ v => v = bare) bare := by
  refine ⟨trivial, fun popped v hv => ?_⟩
  cases popped with
  | none => exact hv
  | some lciReq =>
    have finish {call : Code Request} (h : custodyContract.wp call (fun _ v => v = bare) v) :
        custodyContract.wp (call.bind fun request =>
          (act (.pcounterAdd (countCompletion request.op))).bind fun _ => Prog.ret true)
          (fun _ v => v = bare) v := by
      refine custodyContract.wp_call h fun request v hv => ⟨trivial, fun _ v' hv' => ?_⟩
      exact hv'.trans hv
    obtain ⟨ctx, rank, tag, type, data, origin⟩ := lciReq
    cases ctx with
    | none =>
      obtain rfl := hv
      exact finish (bare_pollRemote _)
    | some p =>
      obtain rfl := hv
      exact finish (bare_pollLocal p _)

theorem bare_counted {call : Code Bool} {start retry : Counter}
    (h : custodyContract.wp call (fun _ v => v = bare) bare) :
    custodyContract.wp (counted call start retry) (fun _ v => v = bare) bare :=
  custodyContract.wp_call h fun _ _ hv => ⟨trivial, fun _ _ hv' => hv'.trans hv⟩

variable (cfg) in
/-- An API call returns with nothing in hand. -/
theorem bare_apiCall (c : Call) :
    custodyContract.wp (apiCall cfg c) (fun _ v => v = bare) bare := by
  cases c with
  | send d rank tag buf length comp ctx => exact bare_counted (bare_post fun _ => rfl)
  | recv d rank tag buf length comp ctx => exact bare_counted (bare_post fun _ => rfl)
  | put d rank buf length comp ctx => exact bare_counted (bare_post fun _ => rfl)
  | pollCq c =>
    refine ⟨trivial, fun _ v hv => ?_⟩
    obtain rfl := hv
    simp only [Prog.ret_bind]
    refine custodyContract.wp_call (bare_pollCq c) fun ret v hv => ?_
    cases ret with
    | true => exact ⟨trivial, fun _ v' hv' => hv'.trans hv⟩
    | false => exact hv
  | doProgress d =>
    refine ⟨trivial, fun _ v hv => ?_⟩
    obtain rfl := hv
    exact ⟨trivial, fun _ v hv => hv⟩
  | barrier d => exact ⟨trivial, fun _ v hv => hv⟩

end Programs

section Runs

variable (cfg) in
/-- Threads hold contexts by the contract, in every interleaving of all processes. -/
def guarding : Discipline (guarded cfg) fun _ _ => True where
  View := Ctx → Option Held
  view t x := holds t x.2.custody
  inv x := Entrusted x.1 x.2.custody ∧ ∀ p, x.2.answers p = (x.2.custody p).answer
  contract _ := custodyContract
  exec s t o k r x h _ _ pre hx := by
    obtain ⟨step, record⟩ := System.Observer.exec_some hx
    obtain ⟨kept, post, others⟩ := exec_entrusted h.1 pre step
    rw [record]
    exact ⟨⟨kept, exec_answers h.1 h.2 pre step⟩, post, others⟩
  intr s t o k i p x h _ _ pre hx := by
    obtain ⟨step, record⟩ := System.Observer.intr_some hx
    rw [record]
    simp only [system] at step
    split at step
    · rename_i client
      obtain ⟨rfl, after⟩ := Prod.mk.inj (Option.some.inj step)
      obtain ⟨rfl, -⟩ := client
      have free : holds t s.shared.2.custody = bare := pre
      refine ⟨⟨after ▸ h.1, h.2⟩, ?_, fun _ _ => rfl⟩
      have call := bare_apiCall cfg i
      rwa [← free] at call
    · cases step
  env s e x h _ hx := by
    obtain ⟨step, record⟩ := System.Observer.env_some hx
    rw [record]
    exact ⟨⟨env_entrusted h.1 step, h.2⟩, fun _ => rfl⟩

theorem guarding_start : (guarding cfg).Holds (guardedStart cfg) := by
  refine ⟨⟨⟨fun _ _ => rfl, fun _ => rfl, ⟨fun _ => none, ?_, fun p => ?_⟩, fun _ => rfl⟩,
    fun _ => rfl⟩, fun t => ⟨rfl, fun _ _ _ => trivial⟩⟩
  · have lists : World.init.lists = fun _ => [] := by
      funext i
      cases i with
      | none => rfl
      | some i => cases i <;> rfl
    exact lists ▸ Placed.empty
  · simp [guardedStart, System.Observer.beside]

/-- The operation a thread performs next. -/
def nextOp (s : (guarded cfg).State) (t : Tid) : Option Op :=
  match s.prog t with
  | .ret _ => none
  | .op o _ => some o

theorem nextOp_eq_some {s : (guarded cfg).State} {t : Tid} {o : Op} :
    nextOp s t = some o ↔ ∃ k, s.prog t = .op o k := by
  unfold nextOp
  cases s.prog t with
  | ret a => simp
  | op o' k =>
    constructor
    · intro same
      obtain rfl := Option.some.inj same
      exact ⟨k, rfl⟩
    · rintro ⟨k', same⟩
      cases same
      rfl

/-- The thread is in a call of the client. -/
def Calling (s : (guarded cfg).State) (t : Tid) : Prop :=
  ∃ o, nextOp s t = some o ∧ o ≠ .userCode

/-- The operation reads, passes on or deletes the context. -/
def Op.touches (p : Ctx) : Op → Prop
  | .post x => x.userContext = p
  | .readRequest q | .deleteRequest q => q = p
  | _ => False

/-- What holds of the contexts in a state: `touched` and `alone` are about memory, the others
about where a context is, by what LCI answered to its post. -/
structure Kept (s : (guarded cfg).State) : Prop where
  touched : ∀ t o p, nextOp s t = some o → o.touches p → s.shared.1.heap p = some p.posted
  alone : ∀ t o u o' p, nextOp s t = some o → o.touches p → nextOp s u = some o' →
    o'.touches p → t = u
  listed : ∀ p i, p ∈ s.shared.1.lists i → s.shared.1.heap p = some p.posted ∧
    s.shared.2.answers p = some true ∧ (s.shared.1.lists i).count p = 1 ∧
      ∀ j, p ∈ s.shared.1.lists j → j = i
  shown : ∀ p, s.shared.1.timesShown p ≤ 1 ∧ (s.shared.1.timesShown p = 1 →
    s.shared.1.heap p = none ∧ s.shared.2.answers p = some true ∧
      ∀ i, p ∉ s.shared.1.lists i)
  refused : ∀ p, s.shared.2.answers p = some false → s.shared.1.timesShown p = 0 ∧
    (∀ i, p ∉ s.shared.1.lists i) ∧
      (s.shared.1.heap p = none ∨ ∃ t, Calling s t ∧ holds t s.shared.2.custody p ≠ none)
  accepted : ∀ p, s.shared.2.answers p = some true → s.shared.1.timesShown p = 1 ∨
    (∃ i, p ∈ s.shared.1.lists i) ∨ ∃ t, Calling s t ∧ holds t s.shared.2.custody p ≠ none
  drained : (∀ t, ¬ Calling s t) → ∀ p, s.shared.1.heap p ≠ none ↔ ∃ i, p ∈ s.shared.1.lists i

variable {s : (guarded cfg).State}

theorem calling_of_holds (h : System.Reach (fun _ _ => True) (guardedStart cfg) s) {t : Tid}
    {p : Ctx} (mine : holds t s.shared.2.custody p ≠ none) : Calling s t := by
  cases prog : s.prog t with
  | ret a =>
    have free : holds t s.shared.2.custody = bare := by
      refine (guarding cfg).finished (I := fun o => o = Op.userCode) (Q := fun _ v => v = bare)
        guarding_start h (fun u o v r v' last pre post => ?_) (fun u => .inr ?_) prog
      · subst last
        exact Eq.trans post pre
      · exact fun _ => .inl ⟨rfl, _, rfl⟩
    exact absurd (congrFun free p) mine
  | op o k =>
    refine ⟨o, nextOp_eq_some.mpr ⟨k, prog⟩, ?_⟩
    rintro rfl
    have free : holds t s.shared.2.custody = bare :=
      (guarding cfg).pre_of_reach guarding_start h prog
    exact mine (congrFun free p)

/-- Who touches a context holds it, and it is still allocated. -/
theorem held_of_touches (h : System.Reach (fun _ _ => True) (guardedStart cfg) s) {t : Tid}
    {o : Op} (next : nextOp s t = some o) {p : Ctx} (touches : o.touches p) :
    ∃ x, s.shared.2.custody p = .held t x ∧ (Custody.held t x).live := by
  obtain ⟨k, prog⟩ := nextOp_eq_some.mp next
  have pre : custodyContract.pre o (holds t s.shared.2.custody) :=
    (guarding cfg).pre_of_reach guarding_start h prog
  cases o with
  | post x =>
    obtain rfl := touches
    exact ⟨.fresh, own_of_holds pre, rfl⟩
  | readRequest q =>
    obtain rfl := touches
    exact ⟨.taken, own_of_holds pre, rfl⟩
  | deleteRequest q =>
    obtain rfl := touches
    rcases pre with taken | refused
    · exact ⟨.taken, own_of_holds taken, rfl⟩
    · exact ⟨.refused, own_of_holds refused, rfl⟩
  | _ => cases touches

theorem Entrusted.mem_iff {w : World} {g : Ctx → Custody} (h : Entrusted w g) (p : Ctx) :
    (∃ i, p ∈ w.lists i) ↔ g p = .given := by
  obtain ⟨place, placed, given⟩ := h.placed
  rw [← given p]
  constructor
  · rintro ⟨i, hp⟩ none
    cases (placed.place_of_mem (a := p) hp).symm.trans none
  · intro here
    obtain ⟨i, hi⟩ := Option.ne_none_iff_exists'.mp here
    obtain ⟨q, hq, rfl⟩ := placed.exists_mem hi
    exact ⟨i, hq⟩

theorem Entrusted.count_eq_one {w : World} {g : Ctx → Custody} (h : Entrusted w g) {p : Ctx}
    {i : Option (Option (Rank × Comp))} (hp : p ∈ w.lists i) :
    (w.lists i).count p = 1 ∧ ∀ j, p ∈ w.lists j → j = i := by
  obtain ⟨place, placed, -⟩ := h.placed
  have here : place p = some i := placed.place_of_mem (a := p) hp
  refine ⟨?_, fun j hj => ?_⟩
  · have distinct := placed.nodup i
    rw [List.map_id] at distinct
    exact List.count_eq_one_of_mem distinct hp
  · exact Option.some.inj ((placed.place_of_mem (a := p) hj).symm.trans here)

/-- In every run of the processes, a context is deleted once, after its completion is taken or
its post refused, no thread touches it later or meanwhile, and none is lost. -/
theorem contexts_kept (h : System.Reach (fun _ _ => True) (guardedStart cfg) s) : Kept s := by
  obtain ⟨⟨books, told⟩, -⟩ := (guarding cfg).reach guarding_start h
  have busy {t : Tid} {p : Ctx} {x : Held} (here : s.shared.2.custody p = .held t x) :
      Calling s t ∧ holds t s.shared.2.custody p ≠ none := by
    have mine : holds t s.shared.2.custody p ≠ none := by
      simp [holds, here, Custody.heldBy]
    exact ⟨calling_of_holds h mine, mine⟩
  refine ⟨?_, ?_, ?_, ?_, ?_, ?_, ?_⟩
  · intro t o p next touches
    obtain ⟨x, here, live⟩ := held_of_touches h next touches
    rw [books.heap, here, if_pos live]
  · intro t o u o' p next touches next' touches'
    obtain ⟨x, here, -⟩ := held_of_touches h next touches
    obtain ⟨y, there, -⟩ := held_of_touches h next' touches'
    exact (Custody.held.inj (here.symm.trans there)).1
  · intro p i hp
    have given := (books.mem_iff p).mp ⟨i, hp⟩
    refine ⟨?_, ?_, books.count_eq_one hp⟩
    · rw [books.heap, given]
      rfl
    · rw [told, given]
      rfl
  · intro p
    rw [books.shown]
    split
    · rename_i shown
      refine ⟨Nat.le_refl 1, fun _ => ⟨?_, ?_, fun i hp => ?_⟩⟩
      · rw [books.heap, shown]
        rfl
      · rw [told, shown]
        rfl
      · have given := (books.mem_iff p).mp ⟨i, hp⟩
        simp [shown] at given
    · exact ⟨Nat.zero_le 1, fun none => by cases none⟩
  · intro p refused
    rw [told] at refused
    have unlisted (i : Option (Option (Rank × Comp))) : p ∉ s.shared.1.lists i := by
      intro hp
      rw [(books.mem_iff p).mp ⟨i, hp⟩] at refused
      cases refused
    have unshown : s.shared.1.timesShown p = 0 := by
      rw [books.shown, if_neg]
      intro shown
      rw [shown] at refused
      cases refused
    refine ⟨unshown, unlisted, ?_⟩
    cases here : s.shared.2.custody p with
    | held t x => exact .inr ⟨t, busy here⟩
    | dropped =>
      refine .inl ?_
      rw [books.heap, here]
      rfl
    | _ =>
      rw [here] at refused
      cases refused
  · intro p accepted
    rw [told] at accepted
    cases here : s.shared.2.custody p with
    | held t x => exact .inr (.inr ⟨t, busy here⟩)
    | given => exact .inr (.inl ((books.mem_iff p).mpr here))
    | shown => exact .inl (by rw [books.shown, if_pos here])
    | _ =>
      rw [here] at accepted
      cases accepted
  · intro quiet p
    rw [books.mem_iff, books.heap]
    cases here : s.shared.2.custody p with
    | held t x => exact absurd (busy here).1 (quiet t)
    | _ => simp [Custody.live]

/-- A send that one thread posts and another is about to read from its queue. -/
theorem contexts_kept_send : ∃ s : (guarded smallPackets).State,
    s.shared.1.heap ⟨0, ⟨.send, 1, 1, 5, .user 0 4, 3, 6⟩⟩ =
      some ⟨.send, 1, 1, 5, .user 0 4, 3, 6⟩ ∧ Kept s := by
  let t : Tid := ⟨0, 0⟩
  let u : Tid := ⟨0, 1⟩
  let p : Ctx := ⟨0, ⟨.send, 1, 1, 5, .user 0 4, 3, 6⟩⟩
  have run : (System.run (guardedStart smallPackets)
      [.intr t (.send 1 1 5 (.user 0 4) 3 7 6), .exec t, .exec t, .exec t, .env (.localDone 0),
        .intr u (.pollCq 7), .exec u, .exec u]).map (fun s => nextOp s u) =
          some (some (.readRequest p)) := by
    decide
  obtain ⟨s, reached, next⟩ := System.reach_probe_any run
  exact ⟨s, (contexts_kept reached).touched u _ p next rfl, contexts_kept reached⟩

end Runs

end Lcw.Lci
