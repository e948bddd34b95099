/- digest: Every context has one place, and its stage tells all that happened to it. -/

import Lcw.Interleave.Discipline
import Lcw.Interleave.Placement
import Lcw.Lci2.Machine

set_option autoImplicit false
set_option relaxedAutoImplicit false

namespace Lcw.Lci2

open Interleave
open Function (update)

namespace Stage

/-- Whether the context is still allocated. -/
def live : Stage → Bool
  | .held _ (.consumed _) | .unborn | .shown _ | .dropped => false
  | .held _ _ | .posted | .queued _ _ => true

/-- What a thread holds of the context. -/
def heldBy (t : Tid) : Stage → Option Held
  | .held u h => if u = t then some h else none
  | _ => none

/-- The list the context is in: LCI's own, or that of a queue. -/
def place : Stage → Option (Option Comp)
  | .posted => some none
  | .queued c _ => some (some c)
  | _ => none

/-- The size LCI reported. -/
def size : Stage → Option Nat
  | .held _ (.taken n) | .held _ (.consumed n) | .queued _ n | .shown n => some n
  | _ => none

/-- Where the context was deleted. -/
def deletions : Stage → List Site
  | .held _ (.consumed _) | .shown _ => [.completion]
  | .dropped => [.poster]
  | _ => []

/-- What LCI answered to the post. -/
def answer : Stage → Option Bool
  | .unborn | .held _ .fresh => none
  | .held _ .refused | .dropped => some false
  | _ => some true

/-- The completions the client has seen. -/
def outputs (p : Ctx) : Stage → List Output
  | .shown n => [⟨reported p.posted n, some p⟩]
  | _ => []

end Stage

namespace World

/-- The contexts LCI holds, in its own list or in a queue. -/
def lists (w : World) : Option Comp → List Ctx
  | none => w.pending.map (·.userContext)
  | some c => (w.queues c).filterMap (·.userContext)

/-- The completions of one context. -/
def outputsOf (w : World) (p : Ctx) : List Output := w.outputs.filter (·.origin = some p)

end World

/-- The heap and the histories are what the stages say. -/
structure Books (w : World) : Prop where
  unborn : ∀ p, w.next ≤ p.addr → w.stage p = .unborn
  op : ∀ p, w.stage p ≠ .unborn → p.posted.op ≠ .putSignal
  heap : ∀ p, w.heap p = if (w.stage p).live then some p.posted else none
  placed : Placed id w.lists (Stage.place ∘ w.stage)
  queued : ∀ c st p, st ∈ w.queues c → st.userContext = some p → w.stage p = .queued c st.size
  sizes : ∀ p, w.sizes p = (w.stage p).size
  deletions : ∀ p, w.deletions p = (w.stage p).deletions
  outputs : ∀ p, w.outputsOf p = (w.stage p).outputs p
  incoming : ∀ o ∈ w.outputs, o.origin = none → o.request.op = .putSignal
  receipt : ∀ t p b, w.receipt t p = some b →
    (w.stage p).answer = some b ∧ ∀ u, w.stage p = .held u .refused → u = t
  returned : ∀ p b, (p, b) ∈ w.returned →
    (w.stage p).answer = some b ∧ (b = false → w.stage p = .dropped)
  quiet : ∀ t p, w.depth t = 0 → (w.stage p).heldBy t = none
  stray : w.strayReads = 0

/-- The contexts a thread holds, the answers it has to pass on, the calls it is in. -/
structure View where
  held : Ctx → Option Held
  receipt : Ctx → Option Bool
  depth : Nat

def view (t : Tid) (w : World) : View where
  held := Stage.heldBy t ∘ w.stage
  receipt := w.receipt t
  depth := w.depth t

/-- What a thread must hold to perform an operation, and what it holds afterwards. -/
def contract : Contract Op Op.Ret View where
  pre
    | .newRequest q, v => q.op ≠ .putSignal ∧ 0 < v.depth
    | .post x, v => v.held x.userContext = some .fresh ∧ 0 < v.depth
    | .postReturn, v | .progress _, v | .barrier _, v | .cqPop _, v => 0 < v.depth
    | .readRequest p, v => ∃ n, v.held p = some (.taken n)
    | .deleteRequest p .poster, v => v.held p = some .refused
    | .deleteRequest p .completion, v => ∃ n, v.held p = some (.taken n)
    | .output q none, _ => q.op = .putSignal
    | .output q (some p), v => ∃ n, v.held p = some (.consumed n) ∧ q = reported p.posted n
    | .endCall r, v => 0 < v.depth ∧ (v.depth = 1 → ∀ p, v.held p = none) ∧
        ∀ p b, r = .posted p b → v.receipt p = some b ∧ v.held p = none
    | .pcounterAdd _, _ | .userCode, _ => True
  post
    | .newRequest q, v, p, v' => p.posted = q ∧ v.held p = none ∧ v.receipt p = none ∧
        v' = { v with held := update v.held p (some .fresh) }
    | .post x, v, b, v' => v' = { v with
        held := update v.held x.userContext (if b then none else some .refused)
        receipt := update v.receipt x.userContext (some b) }
    | .cqPop _, v, none, v' => v' = v
    | .cqPop _, v, some st, v' => match st.userContext with
        | none => v' = v
        | some p => p.posted.op ≠ .putSignal ∧ v.held p = none ∧
            v' = { v with held := update v.held p (some (.taken st.size)) }
    | .readRequest p, v, q, v' => q = p.posted ∧ v' = v
    | .deleteRequest p .poster, v, _, v' => v' = { v with held := update v.held p none }
    | .deleteRequest p .completion, v, _, v' => ∀ n, v.held p = some (.taken n) →
        v' = { v with held := update v.held p (some (.consumed n)) }
    | .output _ none, v, _, v' => v' = v
    | .output _ (some p), v, _, v' => v' = { v with held := update v.held p none }
    | .endCall r, v, _, v' => match r with
        | .posted p _ =>
          v' = { v with receipt := update v.receipt p none, depth := v.depth - 1 }
        | _ => v' = { v with depth := v.depth - 1 }
    | .postReturn, v, _, v' | .progress _, v, _, v' | .barrier _, v, _, v'
    | .pcounterAdd _, v, _, v' | .userCode, v, _, v' => v' = v

section Moves

variable {w : World} {t : Tid} {p : Ctx}

/-- A quantity read off the stages follows a change of one stage. -/
theorem follow {α : Type} {f : Ctx → α} {g : Ctx → Stage → α} {stage : Ctx → Stage}
    (h : ∀ q, f q = g q (stage q)) (p : Ctx) (s : Stage) (q : Ctx) :
    update f p (g p s) q = g q (update stage p s q) := by
  by_cases e : q = p
  · rw [e, Function.update_self, Function.update_self]
  · rw [Function.update_of_ne e, Function.update_of_ne e]
    exact h q

/-- A quantity that both stages of the change agree on stays. -/
theorem stay {α : Type} {f : Ctx → α} {g : Ctx → Stage → α} {stage : Ctx → Stage}
    (h : ∀ q, f q = g q (stage q)) {p : Ctx} {s : Stage} (same : g p s = g p (stage p)) (q : Ctx) :
    f q = g q (update stage p s q) := by
  rw [← follow h p s q, same, ← h p, Function.update_eq_self]

theorem place_stay {s : Stage} (h : s.place = (w.stage p).place) :
    Stage.place ∘ update w.stage p s = Stage.place ∘ w.stage := by
  rw [Function.comp_update, h]
  exact Function.update_eq_self _ _

/-- Statuses in queues keep their stage when a context outside the queues changes its own. -/
theorem Books.queued_stay (h : Books w) {s : Stage} (out : ∀ c n, w.stage p ≠ .queued c n)
    (c : Comp) (st : Status) (q : Ctx) (hst : st ∈ w.queues c) (hq : st.userContext = some q) :
    update w.stage p s q = .queued c st.size := by
  have here := h.queued c st q hst hq
  have other : q ≠ p := fun e => out c st.size (e ▸ here)
  rw [Function.update_of_ne other]
  exact here

theorem heldBy_some {s : Stage} {h : Held} : s.heldBy t = some h ↔ s = .held t h := by
  cases s with
  | held u g =>
    simp only [Stage.heldBy]
    split
    · rename_i e
      simp [e]
    · rename_i e
      simp [e]
  | _ => simp [Stage.heldBy]

/-- One context changes its stage, with all that hangs on it. -/
theorem Books.move {w' : World} (h : Books w) {s : Stage} (stage : w'.stage = update w.stage p s)
    (next : w.next ≤ w'.next) (born : p.addr < w'.next) (op : p.posted.op ≠ .putSignal)
    (heap : w'.heap = update w.heap p (if s.live then some p.posted else none))
    (placed : Placed id w'.lists (Stage.place ∘ update w.stage p s))
    (queued : ∀ c st q, st ∈ w'.queues c → st.userContext = some q →
      update w.stage p s q = .queued c st.size)
    (sizes : w'.sizes = update w.sizes p s.size)
    (deletions : w'.deletions = update w.deletions p s.deletions)
    (outputs : ∀ q, w'.outputsOf q = update w.outputsOf p (s.outputs p) q)
    (incoming : ∀ o ∈ w'.outputs, o.origin = none → o.request.op = .putSignal)
    (answer : ∀ b, (w.stage p).answer = some b →
      s.answer = some b ∧ ∀ u, s ≠ .held u .refused)
    (open' : w.stage p ≠ .dropped)
    (receipt : ∀ u q b, w'.receipt u q = some b → w.receipt u q = some b ∨
      q = p ∧ s.answer = some b ∧ ∀ v, s = .held v .refused → v = u)
    (returned : w'.returned = w.returned) (depth : w'.depth = w.depth)
    (busy : ∀ u, w.depth u = 0 → s.heldBy u = none) (stray : w'.strayReads = w.strayReads) :
    Books w' where
  unborn q hq := by
    have other : q ≠ p := by
      rintro rfl
      omega
    rw [stage, Function.update_of_ne other]
    exact h.unborn q (by omega)
  op q hq := by
    by_cases e : q = p
    · rw [e]
      exact op
    · rw [stage, Function.update_of_ne e] at hq
      exact h.op q hq
  heap q := by
    rw [heap, stage]
    exact follow (g := fun q s => if s.live then some q.posted else none) h.heap p s q
  placed := by
    rw [stage]
    exact placed
  queued := by
    rw [stage]
    exact queued
  sizes q := by
    rw [sizes, stage]
    exact follow (g := fun _ s => s.size) h.sizes p s q
  deletions q := by
    rw [deletions, stage]
    exact follow (g := fun _ s => s.deletions) h.deletions p s q
  outputs q := by
    rw [outputs, stage]
    exact follow (g := fun q s => s.outputs q) h.outputs p s q
  incoming := incoming
  receipt u q b hr := by
    rw [stage]
    rcases receipt u q b hr with old | ⟨rfl, now⟩
    · have known := h.receipt u q b old
      by_cases e : q = p
      · subst e
        rw [Function.update_self]
        obtain ⟨same, other⟩ := answer b known.1
        exact ⟨same, fun v hv => absurd hv (other v)⟩
      · rw [Function.update_of_ne e]
        exact known
    · rw [Function.update_self]
      exact now
  returned q b hq := by
    rw [returned] at hq
    obtain ⟨known, gone⟩ := h.returned q b hq
    rw [stage]
    by_cases e : q = p
    · subst e
      rw [Function.update_self]
      exact ⟨(answer b known).1, fun hb => absurd (gone hb) open'⟩
    · rw [Function.update_of_ne e]
      exact ⟨known, gone⟩
  quiet u q hu := by
    rw [depth] at hu
    rw [stage]
    by_cases e : q = p
    · subst e
      rw [Function.update_self]
      exact busy u hu
    · rw [Function.update_of_ne e]
      exact h.quiet u q hu
  stray := by
    rw [stray]
    exact h.stray

theorem Books.heap_stay (h : Books w) {a s : Stage} (hp : w.stage p = a)
    (same : s.live = a.live) :
    w.heap = update w.heap p (if s.live then some p.posted else none) := by
  rw [same, ← hp, ← h.heap, Function.update_eq_self]

theorem Books.sizes_stay (h : Books w) {a s : Stage} (hp : w.stage p = a)
    (same : s.size = a.size) : w.sizes = update w.sizes p s.size := by
  rw [same, ← hp, ← h.sizes, Function.update_eq_self]

theorem Books.deletions_stay (h : Books w) {a s : Stage} (hp : w.stage p = a)
    (same : s.deletions = a.deletions) :
    w.deletions = update w.deletions p s.deletions := by
  rw [same, ← hp, ← h.deletions, Function.update_eq_self]

theorem Books.outputs_stay (h : Books w) {a s : Stage} (hp : w.stage p = a)
    (same : s.outputs p = a.outputs p) (q : Ctx) :
    w.outputsOf q = update w.outputsOf p (s.outputs p) q := by
  rw [same, ← hp, ← h.outputs, Function.update_eq_self]

/-- The stage of a context that a thread holds. -/
theorem stage_of_held {h : Held} (hp : (view t w).held p = some h) : w.stage p = .held t h :=
  heldBy_some.mp hp

theorem Books.idle_of_held (b : Books w) {h : Held} (hp : w.stage p = .held t h) {g : Held}
    (u : Tid) (hu : w.depth u = 0) : Stage.heldBy u (.held t g) = none := by
  have none' := b.quiet u p hu
  rw [hp] at none'
  simp only [Stage.heldBy] at none' ⊢
  split
  · rename_i e
    simp [e] at none'
  · rfl

theorem idle_of_deep (deep : 0 < w.depth t) {g : Held} (u : Tid) (hu : w.depth u = 0) :
    Stage.heldBy u (.held t g) = none := by
  have other : ¬ t = u := by
    rintro rfl
    omega
  simp [Stage.heldBy, other]

theorem Books.born (h : Books w) (hp : w.stage p ≠ .unborn) : p.addr < w.next := by
  by_contra old
  exact hp (h.unborn p (by omega))

theorem Books.newRequest (h : Books w) {q : Request} (hq : q.op ≠ .putSignal)
    (deep : 0 < w.depth t) : Books (w.newRequest t q) := by
  have fresh : w.stage ⟨w.next, q⟩ = .unborn := h.unborn _ le_rfl
  refine h.move (p := ⟨w.next, q⟩) (s := .held t .fresh) rfl (Nat.le_succ _) (Nat.lt_succ_self _)
    hq rfl ?_ (h.queued_stay (by simp [fresh])) (h.sizes_stay fresh rfl)
    (h.deletions_stay fresh rfl) (h.outputs_stay fresh rfl) h.incoming
    (by simp [fresh, Stage.answer]) (by simp [fresh]) (fun u r b hr => .inl hr) rfl rfl
    (idle_of_deep deep) rfl
  rw [place_stay (by rw [fresh]; rfl)]
  exact h.placed

/-- The receipt of a post. -/
theorem receipt_posted {x : Post} {b : Bool} {u : Tid} {q : Ctx} {c : Bool}
    (hr : update w.receipt t (update (w.receipt t) x.userContext (some b)) u q = some c) :
    w.receipt u q = some c ∨ q = x.userContext ∧ some b = some c ∧ u = t := by
  by_cases e : u = t
  · subst e
    rw [Function.update_self] at hr
    by_cases same : q = x.userContext
    · rw [same, Function.update_self] at hr
      exact .inr ⟨same, hr, rfl⟩
    · rw [Function.update_of_ne same] at hr
      exact .inl hr
  · rw [Function.update_of_ne e] at hr
    exact .inl hr

theorem Books.accept (h : Books w) {x : Post} (hx : w.stage x.userContext = .held t .fresh) :
    Books (w.accept t x) := by
  have lists : (w.accept t x).lists =
      update w.lists none (w.lists none ++ [x.userContext]) := by
    funext i
    cases i with
    | none => simp [World.lists, World.accept]
    | some c => simp [World.lists, World.accept]
  refine h.move (p := x.userContext) (s := .posted) rfl le_rfl (h.born (by simp [hx]))
    (h.op _ (by simp [hx])) (h.heap_stay hx rfl) ?_ (h.queued_stay (by simp [hx]))
    (h.sizes_stay hx rfl) (h.deletions_stay hx rfl) (h.outputs_stay hx rfl) h.incoming
    (by simp [hx, Stage.answer]) (by simp [hx]) (fun u q b hr => ?_) rfl rfl
    (fun u hu => rfl) rfl
  · rw [lists, Function.comp_update]
    exact h.placed.push (by simp [hx, Stage.place])
  · rcases receipt_posted hr with old | ⟨same, now, -⟩
    · exact .inl old
    · exact .inr ⟨same, now, fun v hv => by cases hv⟩

theorem Books.refuse (h : Books w) {x : Post} (hx : w.stage x.userContext = .held t .fresh) :
    Books (w.refuse t x) := by
  refine h.move (p := x.userContext) (s := .held t .refused) rfl le_rfl (h.born (by simp [hx]))
    (h.op _ (by simp [hx])) (h.heap_stay hx rfl) ?_ (h.queued_stay (by simp [hx]))
    (h.sizes_stay hx rfl) (h.deletions_stay hx rfl) (h.outputs_stay hx rfl) h.incoming
    (by simp [hx, Stage.answer]) (by simp [hx]) (fun u q b hr => ?_) rfl rfl
    (h.idle_of_held hx) rfl
  · rw [place_stay (by rw [hx]; rfl)]
    exact h.placed
  · rcases receipt_posted hr with old | ⟨same, now, poster⟩
    · exact .inl old
    · refine .inr ⟨same, now, fun v hv => ?_⟩
      cases hv
      exact poster.symm

/-- The context of the oldest status of a queue. -/
theorem Books.front (h : Books w) {c : Comp} {st : Status} {rest : List Status} {p : Ctx}
    (hc : w.queues c = st :: rest) (hst : st.userContext = some p) :
    w.stage p = .queued c st.size := by
  refine h.queued c st p ?_ hst
  rw [hc]
  exact List.mem_cons_self

theorem Books.pop (h : Books w) {c : Comp} {st : Status} {rest : List Status} {p : Ctx}
    (hc : w.queues c = st :: rest) (hst : st.userContext = some p) (deep : 0 < w.depth t) :
    Books (w.pop t c st rest) := by
  have here := h.front hc hst
  have front : w.lists (some c) = p :: rest.filterMap (·.userContext) := by
    simp [World.lists, hc, hst]
  have lists : (w.pop t c st rest).lists =
      update w.lists (some c) (rest.filterMap (·.userContext)) := by
    funext i
    cases i with
    | none => simp [World.lists, World.pop]
    | some d =>
      by_cases e : d = c
      · subst e
        simp [World.lists, World.pop]
      · simp [World.lists, World.pop, e]
  have placed : Placed id (w.pop t c st rest).lists
      (update (Stage.place ∘ w.stage) p none) := by
    rw [lists]
    exact h.placed.pop front
  have stage : (w.pop t c st rest).stage = update w.stage p (.held t (.taken st.size)) := by
    simp [World.pop, hst]
  refine h.move stage le_rfl (h.born (by simp [here])) (h.op _ (by simp [here]))
    (h.heap_stay here rfl) ?_ ?_ (h.sizes_stay here rfl) (h.deletions_stay here rfl)
    (h.outputs_stay here rfl) h.incoming (by simp [here, Stage.answer]) (by simp [here])
    (fun u q b hr => .inl hr) rfl rfl (idle_of_deep deep) rfl
  · rw [Function.comp_update]
    exact placed
  · intro d st' q hd hq
    have other : q ≠ p := by
      rintro rfl
      have listed : q ∈ (w.pop t c st rest).lists (some d) :=
        List.mem_filterMap.mpr ⟨st', hd, hq⟩
      have gone := placed.place_of_mem listed
      simp at gone
    rw [Function.update_of_ne other]
    refine h.queued d st' q ?_ hq
    by_cases e : d = c
    · subst e
      simp only [World.pop, Function.update_self] at hd
      rw [hc]
      exact List.mem_cons_of_mem _ hd
    · simpa only [World.pop, Function.update_of_ne e] using hd

/-- Steps that leave every context where it is. -/
theorem Books.carry {w' : World} (h : Books w) (stage : w'.stage = w.stage)
    (next : w'.next = w.next) (heap : w'.heap = w.heap) (lists : w'.lists = w.lists)
    (members : ∀ c st p, st ∈ w'.queues c → st.userContext = some p → st ∈ w.queues c)
    (sizes : w'.sizes = w.sizes) (deletions : w'.deletions = w.deletions)
    (outputs : ∀ p, w'.outputsOf p = w.outputsOf p)
    (incoming : ∀ o ∈ w'.outputs, o.origin = none → o.request.op = .putSignal)
    (receipt : ∀ t p b, w'.receipt t p = some b → w.receipt t p = some b)
    (returned : ∀ p b, (p, b) ∈ w'.returned → (p, b) ∈ w.returned ∨
      (w.stage p).answer = some b ∧ (b = false → w.stage p = .dropped))
    (depth : ∀ t p, w'.depth t = 0 → (w.stage p).heldBy t = none)
    (stray : w'.strayReads = w.strayReads) : Books w' where
  unborn := by rw [stage, next]; exact h.unborn
  op := by rw [stage]; exact h.op
  heap := by rw [stage, heap]; exact h.heap
  placed := by rw [stage, lists]; exact h.placed
  queued := by rw [stage]; exact fun c st p hs hp => h.queued c st p (members c st p hs hp) hp
  sizes := by rw [stage, sizes]; exact h.sizes
  deletions := by rw [stage, deletions]; exact h.deletions
  outputs := by rw [stage]; exact fun p => (outputs p).trans (h.outputs p)
  incoming := incoming
  receipt := by rw [stage]; exact fun t p b hr => h.receipt t p b (receipt t p b hr)
  returned := by rw [stage]; exact fun p b hp => (returned p b hp).elim (h.returned p b) id
  quiet := by rw [stage]; exact depth
  stray := by rw [stray]; exact h.stray

/-- Statuses of active messages carry no context. -/
theorem Books.popIncoming (h : Books w) {c : Comp} {st : Status} {rest : List Status}
    (hc : w.queues c = st :: rest) (hst : st.userContext = none) :
    Books (w.pop t c st rest) := by
  have stage : (w.pop t c st rest).stage = w.stage := by
    simp [World.pop, hst]
  have lists : (w.pop t c st rest).lists = w.lists := by
    funext i
    cases i with
    | none => rfl
    | some d =>
      by_cases e : d = c
      · subst e
        simp [World.lists, World.pop, hc, hst]
      · simp [World.lists, World.pop, e]
  refine h.carry stage rfl rfl lists (fun d st' p hd _ => ?_) rfl rfl (fun _ => rfl) h.incoming
    (fun _ _ _ hr => hr) (fun _ _ hp => .inl hp) h.quiet rfl
  by_cases e : d = c
  · subst e
    simp only [World.pop, Function.update_self] at hd
    rw [hc]
    exact List.mem_cons_of_mem _ hd
  · simpa only [World.pop, Function.update_of_ne e] using hd

theorem Books.deletePoster (h : Books w) (hp : w.stage p = .held t .refused) :
    Books (w.delete p .poster) := by
  have stage : (w.delete p .poster).stage = update w.stage p .dropped := by
    simp [World.delete, hp, Stage.afterDelete]
  have deletions : (w.delete p .poster).deletions = update w.deletions p [.poster] := by
    simp [World.delete, h.deletions, hp, Stage.deletions]
  refine h.move stage le_rfl (h.born (by simp [hp])) (h.op _ (by simp [hp])) rfl ?_
    (h.queued_stay (by simp [hp])) (h.sizes_stay hp rfl) deletions (h.outputs_stay hp rfl)
    h.incoming (by simp [hp, Stage.answer]) (by simp [hp]) (fun u q b hr => .inl hr) rfl rfl
    (fun u hu => rfl) rfl
  rw [place_stay (by rw [hp]; rfl)]
  exact h.placed

theorem Books.deleteCompletion (h : Books w) {n : Nat} (hp : w.stage p = .held t (.taken n)) :
    Books (w.delete p .completion) := by
  have stage : (w.delete p .completion).stage = update w.stage p (.held t (.consumed n)) := by
    simp [World.delete, hp, Stage.afterDelete]
  have deletions : (w.delete p .completion).deletions = update w.deletions p [.completion] := by
    simp [World.delete, h.deletions, hp, Stage.deletions]
  refine h.move stage le_rfl (h.born (by simp [hp])) (h.op _ (by simp [hp])) rfl ?_
    (h.queued_stay (by simp [hp])) (h.sizes_stay hp rfl) deletions (h.outputs_stay hp rfl)
    h.incoming (by simp [hp, Stage.answer]) (by simp [hp]) (fun u q b hr => .inl hr) rfl rfl
    (h.idle_of_held hp) rfl
  rw [place_stay (by rw [hp]; rfl)]
  exact h.placed

theorem Books.output (h : Books w) {n : Nat} (hp : w.stage p = .held t (.consumed n)) :
    Books (w.output (reported p.posted n) (some p)) := by
  have stage : (w.output (reported p.posted n) (some p)).stage =
      update w.stage p (.shown n) := by
    simp [World.output, hp, Stage.afterOutput]
  have none' : w.outputsOf p = [] := by
    rw [h.outputs, hp]
    rfl
  refine h.move stage le_rfl (h.born (by simp [hp])) (h.op _ (by simp [hp]))
    (h.heap_stay hp rfl) ?_ (h.queued_stay (by simp [hp])) (h.sizes_stay hp rfl)
    (h.deletions_stay hp rfl) (fun q => ?_) ?_ (by simp [hp, Stage.answer]) (by simp [hp])
    (fun u q b hr => .inl hr) rfl rfl (fun u hu => rfl) rfl
  · rw [place_stay (by rw [hp]; rfl)]
    exact h.placed
  · unfold World.outputsOf at none' ⊢
    by_cases e : q = p
    · subst e
      simp [World.output, none', Stage.outputs]
    · have other : ¬ p = q := fun e' => e e'.symm
      simp [World.output, other, Function.update_of_ne e]
  · intro o ho hn
    simp only [World.output, List.mem_append, List.mem_singleton] at ho
    rcases ho with ho | rfl
    · exact h.incoming o ho hn
    · cases hn

theorem Books.outputIncoming (h : Books w) {q : Request} (hq : q.op = .putSignal) :
    Books (w.output q none) := by
  refine h.carry rfl rfl rfl rfl (fun _ _ _ hs _ => hs) rfl rfl (fun p => ?_) ?_
    (fun _ _ _ hr => hr) (fun _ _ hp => .inl hp) h.quiet rfl
  · simp [World.outputsOf, World.output]
  · intro o ho hn
    simp only [World.output, List.mem_append, List.mem_singleton] at ho
    rcases ho with ho | rfl
    · exact h.incoming o ho hn
    · exact hq

theorem Books.endCall (h : Books w) {r : CallResult}
    (last : w.depth t = 1 → ∀ p, (w.stage p).heldBy t = none)
    (done : ∀ p b, r = .posted p b → w.receipt t p = some b ∧ (w.stage p).heldBy t = none) :
    Books (w.endCall t r) := by
  have depth (u : Tid) (q : Ctx) (hu : update w.depth t (w.depth t - 1) u = 0) :
      (w.stage q).heldBy u = none := by
    by_cases e : u = t
    · subst e
      rw [Function.update_self] at hu
      by_cases one : w.depth u = 1
      · exact last one q
      · exact h.quiet u q (by omega)
    · rw [Function.update_of_ne e] at hu
      exact h.quiet u q hu
  cases r with
  | posted p b =>
    obtain ⟨answered, free⟩ := done p b rfl
    refine h.carry rfl rfl rfl rfl (fun _ _ _ hs _ => hs) rfl rfl (fun _ => rfl) h.incoming
      (fun u q c hr => ?_) (fun q c hq => ?_) depth rfl
    · by_cases e : u = t
      · subst e
        simp only [World.endCall, Function.update_self] at hr
        by_cases same : q = p
        · simp [same] at hr
        · simpa only [Function.update_of_ne same] using hr
      · simpa only [World.endCall, Function.update_of_ne e] using hr
    · simp only [World.endCall, List.mem_append, List.mem_singleton] at hq
      rcases hq with hq | hq
      · exact .inl hq
      · obtain ⟨rfl, rfl⟩ := Prod.mk.inj hq
        obtain ⟨answer, poster⟩ := h.receipt t q c answered
        refine .inr ⟨answer, fun hc => ?_⟩
        subst hc
        cases e : w.stage q with
        | dropped => rfl
        | held u g =>
          rw [e] at answer free poster
          cases g with
          | refused => simp [Stage.heldBy, poster u rfl] at free
          | _ => simp [Stage.answer] at answer
        | _ => simp [e, Stage.answer] at answer
  | polled b =>
    exact h.carry rfl rfl rfl rfl (fun _ _ _ hs _ => hs) rfl rfl (fun _ => rfl) h.incoming
      (fun _ _ _ hr => hr) (fun _ _ hp => .inl hp) depth rfl
  | progressed b =>
    exact h.carry rfl rfl rfl rfl (fun _ _ _ hs _ => hs) rfl rfl (fun _ => rfl) h.incoming
      (fun _ _ _ hr => hr) (fun _ _ hp => .inl hp) depth rfl
  | void =>
    exact h.carry rfl rfl rfl rfl (fun _ _ _ hs _ => hs) rfl rfl (fun _ => rfl) h.incoming
      (fun _ _ _ hr => hr) (fun _ _ hp => .inl hp) depth rfl

/-- An operation LCI has accepted and not completed. -/
theorem Books.posted (h : Books w) {i : Nat} {x : Post} (hx : w.pending[i]? = some x) :
    w.stage x.userContext = .posted := by
  have listed : x.userContext ∈ w.lists none :=
    List.mem_map.mpr ⟨x, List.mem_of_getElem? hx, rfl⟩
  have place : (w.stage x.userContext).place = some none := h.placed.place_of_mem listed
  cases e : w.stage x.userContext <;> rw [e] at place <;> simp_all [Stage.place]

/-- An accepted operation leaves LCI's list. -/
theorem Books.left (h : Books w) {i : Nat} {x : Post} (hx : w.pending[i]? = some x) :
    Placed id (update w.lists none ((w.pending.eraseIdx i).map (·.userContext)))
      (update (Stage.place ∘ w.stage) x.userContext none) := by
  have found : (w.lists none)[i]? = some x.userContext := by
    simp [World.lists, hx]
  have erased : (w.lists none).eraseIdx i = (w.pending.eraseIdx i).map (·.userContext) := by
    simp only [World.lists]
    exact List.eraseIdx_map _ _ _
  rw [← erased]
  exact h.placed.erase found

theorem Books.handOver (h : Books w) {i n : Nat} {x : Post} (hx : w.pending[i]? = some x)
    (deep : 0 < w.depth t) : Books (w.handOver t i x n) := by
  have here := h.posted hx
  have lists : (w.handOver t i x n).lists =
      update w.lists none ((w.pending.eraseIdx i).map (·.userContext)) := by
    funext j
    cases j with
    | none => simp [World.lists, World.handOver]
    | some c => simp [World.lists, World.handOver]
  refine h.move (p := x.userContext) (s := .held t (.taken n)) rfl le_rfl (h.born (by simp [here]))
    (h.op _ (by simp [here])) (h.heap_stay here rfl) ?_ (h.queued_stay (by simp [here])) rfl
    (h.deletions_stay here rfl) (h.outputs_stay here rfl) h.incoming
    (by simp [here, Stage.answer]) (by simp [here]) (fun u q b hr => .inl hr) rfl rfl
    (idle_of_deep deep) rfl
  rw [lists, Function.comp_update]
  exact h.left hx

theorem Books.enqueue (h : Books w) {i n : Nat} {x : Post} (hx : w.pending[i]? = some x) :
    Books (w.enqueue i x n) := by
  have here := h.posted hx
  have removed := h.left hx
  have lists : (w.enqueue i x n).lists =
      update (update w.lists none ((w.pending.eraseIdx i).map (·.userContext))) (some x.comp)
        (update w.lists none ((w.pending.eraseIdx i).map (·.userContext)) (some x.comp) ++
          [x.userContext]) := by
    funext j
    cases j with
    | none => simp [World.lists, World.enqueue]
    | some c =>
      by_cases e : c = x.comp
      · subst e
        simp [World.lists, World.enqueue, World.statusOf]
      · simp [World.lists, World.enqueue, e]
  refine h.move (p := x.userContext) (s := .queued x.comp n) rfl le_rfl
    (h.born (by simp [here])) (h.op _ (by simp [here])) (h.heap_stay here rfl) ?_ ?_ rfl
    (h.deletions_stay here rfl) (h.outputs_stay here rfl) h.incoming
    (by simp [here, Stage.answer]) (by simp [here]) (fun u q b hr => .inl hr) rfl rfl
    (fun u hu => rfl) rfl
  · have place : Stage.place ∘ update w.stage x.userContext (.queued x.comp n) =
        update (update (Stage.place ∘ w.stage) x.userContext none) x.userContext
          (some (some x.comp)) := by
      rw [Function.comp_update, Function.update_idem]
      rfl
    rw [lists, place]
    exact removed.push (Function.update_self _ _ _)
  · intro c st q hs hq
    have old (hs : st ∈ w.queues c) :
        update w.stage x.userContext (.queued x.comp n) q = .queued c st.size :=
      h.queued_stay (by simp [here]) c st q hs hq
    by_cases e : c = x.comp
    · subst e
      simp only [World.enqueue, Function.update_self, List.mem_append, List.mem_singleton] at hs
      rcases hs with hs | rfl
      · exact old hs
      · obtain rfl := Option.some.inj hq
        exact Function.update_self _ _ _
    · simp only [World.enqueue, Function.update_of_ne e] at hs
      exact old hs

theorem Books.incomingQueued (h : Books w) (c : Comp) {st : Status}
    (hst : st.userContext = none) :
    Books { w with queues := update w.queues c (w.queues c ++ [st]) } := by
  refine h.carry rfl rfl rfl ?_ (fun d st' p hd hp => ?_) rfl rfl (fun _ => rfl) h.incoming
    (fun _ _ _ hr => hr) (fun _ _ hp => .inl hp) h.quiet rfl
  · funext i
    cases i with
    | none => rfl
    | some d =>
      by_cases e : d = c
      · subst e
        simp [World.lists, hst]
      · simp [World.lists, e]
  · by_cases e : d = c
    · subst e
      simp only [Function.update_self, List.mem_append, List.mem_singleton] at hd
      rcases hd with hd | rfl
      · exact hd
      · rw [hst] at hp
        cases hp
    · simpa only [Function.update_of_ne e] using hd

end Moves

theorem books_init : Books World.init where
  unborn _ _ := rfl
  op _ hp := absurd rfl hp
  heap _ := rfl
  placed := by
    have lists : World.init.lists = fun _ => [] := by
      funext i
      cases i <;> rfl
    rw [lists]
    exact Placed.empty
  queued _ _ _ hs := by cases hs
  sizes _ := rfl
  deletions _ := rfl
  outputs _ := rfl
  incoming _ ho := by cases ho
  receipt _ _ _ hr := by cases hr
  returned _ _ hp := by cases hp
  quiet _ _ _ := rfl
  stray := rfl

section Views

variable {w w' : World} {t u : Tid} {p : Ctx} {s : Stage}

/-- What a change of one context's stage does to what a thread holds. -/
theorem held_move (stage : w'.stage = update w.stage p s) :
    (view t w').held = update (view t w).held p (s.heldBy t) := by
  simp only [view, stage]
  exact Function.comp_update _ _ _ _

/-- A context in nobody's hands before and after, or in the hands of others. -/
theorem view_stay (stage : w'.stage = update w.stage p s)
    (same : s.heldBy t = (w.stage p).heldBy t) (receipt : w'.receipt t = w.receipt t)
    (depth : w'.depth t = w.depth t) : view t w' = view t w := by
  have held : (view t w').held = (view t w).held := by
    rw [held_move stage, same]
    exact Function.update_eq_self _ _
  simp only [view] at held ⊢
  rw [held, receipt, depth]

theorem view_carry (stage : w'.stage = w.stage) (receipt : w'.receipt t = w.receipt t)
    (depth : w'.depth t = w.depth t) : view t w' = view t w := by
  simp only [view, stage, receipt, depth]

theorem heldBy_other (h : u ≠ t) (g : Held) : (Stage.held t g).heldBy u = none := by
  have other : ¬ t = u := fun e => h e.symm
  simp [Stage.heldBy, other]

@[simp] theorem heldBy_self (g : Held) : (Stage.held t g).heldBy t = some g := by
  simp [Stage.heldBy]

end Views

section Steps

variable {w w' : World} {t : Tid}

/-- A thread pops a queue. -/
theorem view_counters {u : Tid} (c : Mpi.Counter → Nat) :
    view u { w with counters := c } = view u w := rfl

/-- Each operation keeps the books, follows its contract, and is invisible to other threads. -/
theorem exec_books {o : Op} {r : o.Ret} (h : Books w) (pre : contract.pre o (view t w))
    (hx : exec t o w = some (r, w')) :
    Books w' ∧ contract.post o (view t w) r (view t w') ∧ ∀ u, u ≠ t → view u w' = view u w := by
  cases o with
  | newRequest q =>
    obtain ⟨rfl, rfl⟩ := Prod.mk.inj (Option.some.inj hx)
    have fresh : w.stage ⟨w.next, q⟩ = .unborn := h.unborn _ le_rfl
    have mine : (view t (w.newRequest t q)).held =
        update (view t w).held ⟨w.next, q⟩ (some .fresh) := by
      rw [held_move (p := ⟨w.next, q⟩) (s := .held t .fresh) rfl, heldBy_self]
    refine ⟨h.newRequest pre.1 pre.2, ⟨rfl, ?_, ?_, ?_⟩, fun u hu => ?_⟩
    · simp [view, fresh, Stage.heldBy]
    · cases e : w.receipt t ⟨w.next, q⟩ with
      | none => exact e
      | some b =>
        have answer := (h.receipt t _ b e).1
        rw [fresh] at answer
        cases answer
    · rw [← mine]
      rfl
    · refine view_stay (p := ⟨w.next, q⟩) (s := .held t .fresh) rfl ?_ rfl rfl
      rw [fresh, heldBy_other hu]
      rfl
  | post x =>
    have hp : w.stage x.userContext = .held t .fresh := stage_of_held pre.1
    simp only [exec] at hx
    split at hx
    · obtain ⟨rfl, rfl⟩ := Prod.mk.inj (Option.some.inj hx)
      refine ⟨h.accept hp, ?_, fun u hu => ?_⟩
      · have mine : (view t (w.accept t x)).held =
            update (view t w).held x.userContext none := held_move (s := .posted) rfl
        have receipt : (view t (w.accept t x)).receipt =
            update (view t w).receipt x.userContext (some true) := by
          simp [view, World.accept]
        simp only [contract, if_true]
        rw [← mine, ← receipt]
        rfl
      · refine view_stay (p := x.userContext) (s := .posted) rfl ?_ ?_ rfl
        · rw [hp, heldBy_other hu]
          rfl
        · simp [World.accept, hu]
    · obtain ⟨rfl, rfl⟩ := Prod.mk.inj (Option.some.inj hx)
      refine ⟨h.refuse hp, ?_, fun u hu => ?_⟩
      · have mine : (view t (w.refuse t x)).held =
            update (view t w).held x.userContext (some .refused) := by
          rw [held_move (p := x.userContext) (s := .held t .refused) rfl, heldBy_self]
        have receipt : (view t (w.refuse t x)).receipt =
            update (view t w).receipt x.userContext (some false) := by
          simp [view, World.refuse]
        simp only [contract, Bool.false_eq_true, if_false]
        rw [← mine, ← receipt]
        rfl
      · refine view_stay (p := x.userContext) (s := .held t .refused) rfl ?_ ?_ rfl
        · rw [hp, heldBy_other hu, heldBy_other hu]
        · simp [World.refuse, hu]
  | cqPop c =>
    rcases exec_cqPop hx with ⟨rfl, rfl⟩ | ⟨st, rest, hc, rfl, rfl⟩
    · exact ⟨h, rfl, fun u _ => rfl⟩
    · cases hst : st.userContext with
      | none =>
        have stage : (w.pop t c st rest).stage = w.stage := by
          simp [World.pop, hst]
        refine ⟨h.popIncoming hc hst, ?_, fun u _ => view_carry stage rfl rfl⟩
        simp only [contract, hst]
        exact view_carry stage rfl rfl
      | some p =>
        have here := h.front hc hst
        have stage : (w.pop t c st rest).stage = update w.stage p (.held t (.taken st.size)) := by
          simp [World.pop, hst]
        have mine : (view t (w.pop t c st rest)).held =
            update (view t w).held p (some (.taken st.size)) := by
          rw [held_move stage, heldBy_self]
        refine ⟨h.pop hc hst pre, ?_, fun u hu => view_stay stage ?_ rfl rfl⟩
        · simp only [contract, hst]
          refine ⟨h.op p (by simp [here]), by simp [view, here, Stage.heldBy], ?_⟩
          rw [← mine]
          rfl
        · rw [here, heldBy_other hu]
          rfl
  | readRequest p =>
    obtain ⟨n, held⟩ := pre
    have here := stage_of_held held
    have live : w.heap p = some p.posted := by
      rw [h.heap, here]
      rfl
    simp only [exec, live] at hx
    obtain ⟨rfl, rfl⟩ := Prod.mk.inj (Option.some.inj hx)
    exact ⟨h, ⟨rfl, rfl⟩, fun u _ => rfl⟩
  | deleteRequest p site =>
    obtain ⟨-, rfl⟩ := Prod.mk.inj (Option.some.inj hx)
    cases site with
    | poster =>
      have here := stage_of_held pre
      have stage : (w.delete p .poster).stage = update w.stage p .dropped := by
        simp [World.delete, here, Stage.afterDelete]
      refine ⟨h.deletePoster here, ?_, fun u hu => view_stay stage ?_ rfl rfl⟩
      · have mine : (view t (w.delete p .poster)).held = update (view t w).held p none :=
          held_move stage
        simp only [contract]
        rw [← mine]
        rfl
      · rw [here, heldBy_other hu]
        rfl
    | completion =>
      obtain ⟨n, held⟩ := pre
      have here := stage_of_held held
      have stage : (w.delete p .completion).stage =
          update w.stage p (.held t (.consumed n)) := by
        simp [World.delete, here, Stage.afterDelete]
      refine ⟨h.deleteCompletion here, ?_, fun u hu => view_stay stage ?_ rfl rfl⟩
      · intro m hm
        rw [held] at hm
        cases hm
        have mine : (view t (w.delete p .completion)).held =
            update (view t w).held p (some (.consumed n)) := by
          rw [held_move stage, heldBy_self]
        rw [← mine]
        rfl
      · rw [here, heldBy_other hu, heldBy_other hu]
  | output q origin =>
    obtain ⟨-, rfl⟩ := Prod.mk.inj (Option.some.inj hx)
    cases origin with
    | none =>
      exact ⟨h.outputIncoming pre, view_carry rfl rfl rfl, fun u _ => view_carry rfl rfl rfl⟩
    | some p =>
      obtain ⟨n, held, rfl⟩ := pre
      have here := stage_of_held held
      have stage : (w.output (reported p.posted n) (some p)).stage =
          update w.stage p (.shown n) := by
        simp [World.output, here, Stage.afterOutput]
      refine ⟨h.output here, ?_, fun u hu => view_stay stage ?_ rfl rfl⟩
      · have mine : (view t (w.output (reported p.posted n) (some p))).held =
            update (view t w).held p none := held_move stage
        simp only [contract]
        rw [← mine]
        rfl
      · rw [here, heldBy_other hu]
        rfl
  | endCall result =>
    obtain ⟨-, rfl⟩ := Prod.mk.inj (Option.some.inj hx)
    obtain ⟨-, last, done⟩ := pre
    refine ⟨h.endCall last done, ?_, fun u hu => ?_⟩
    · cases result <;> simp [contract, view, World.endCall]
    · cases result <;> simp [view, World.endCall, hu]
  | pcounterAdd c =>
    obtain ⟨-, rfl⟩ := Prod.mk.inj (Option.some.inj hx)
    refine ⟨?_, rfl, fun u _ => rfl⟩
    exact h.carry rfl rfl rfl rfl (fun _ _ _ hs _ => hs) rfl rfl (fun _ => rfl) h.incoming
      (fun _ _ _ hr => hr) (fun _ _ hp => .inl hp) h.quiet rfl
  | postReturn | progress _ | barrier _ | userCode =>
    obtain ⟨-, rfl⟩ := Prod.mk.inj (Option.some.inj hx)
    exact ⟨h, rfl, fun u _ => rfl⟩

end Steps

end Lcw.Lci2
