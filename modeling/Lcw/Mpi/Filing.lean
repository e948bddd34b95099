/- digest: Every operation stays in the one place its stage names, and waits there as posted. -/

import Lcw.Mpi.LedgerSteps

set_option autoImplicit false
set_option relaxedAutoImplicit false

namespace Lcw.Mpi

open Interleave
open Function (update)

variable {cfg : Config} {P : PutRules cfg} {G : Guard} {t : Tid} {w w' : World}

section Filed

theorem deque_move {stage : RequestPtr → Stage} {p : RequestPtr} {s : Stage} :
    Stage.deque ∘ update stage p s = update (Stage.deque ∘ stage) p s.deque :=
  Function.comp_update ..

theorem conts_move {stage : RequestPtr → Stage} {p : RequestPtr} {s : Stage} :
    Stage.conts ∘ update stage p s = update (Stage.conts ∘ stage) p s.conts :=
  Function.comp_update ..

theorem toldTo_move {p : RequestPtr} {s : Stage}
    (stage : w'.store.stage = update w.store.stage p s) :
    toldTo w' = update (toldTo w) p (if s.told then p.completion else none) := by
  funext q
  unfold toldTo
  rw [stage]
  by_cases e : q = p
  · subst e
    simp only [Function.update_self]
  · simp only [Function.update_of_ne e]

theorem deque_still {stage : RequestPtr → Stage} {p : RequestPtr} {s : Stage}
    (h : s.deque = (stage p).deque) : Stage.deque ∘ update stage p s = Stage.deque ∘ stage := by
  have same : s.deque = (Stage.deque ∘ stage) p := h
  rw [deque_move, same, Function.update_eq_self]

theorem conts_still {stage : RequestPtr → Stage} {p : RequestPtr} {s : Stage}
    (h : s.conts = (stage p).conts) : Stage.conts ∘ update stage p s = Stage.conts ∘ stage := by
  have same : s.conts = (Stage.conts ∘ stage) p := h
  rw [conts_move, same, Function.update_eq_self]

theorem toldTo_still {p : RequestPtr} {s : Stage}
    (stage : w'.store.stage = update w.store.stage p s) (h : s.told = (w.store.stage p).told) :
    toldTo w' = toldTo w := by
  have same : (if s.told then p.completion else none) = toldTo w p := by rw [h]; rfl
  rw [toldTo_move stage, same, Function.update_eq_self]

/-- An operation changes its stage without entering or leaving a list. -/
structure QuietMove (w w' : World) (p : RequestPtr) (s : Stage) : Prop where
  stage : w'.store.stage = update w.store.stage p s
  nextPtr : w'.store.nextPtr = w.store.nextPtr
  entries : w'.store.entries = w.store.entries
  attached : w'.store.attached = w.store.attached
  delivered : w'.store.delivered = w.store.delivered
  cq : w'.store.cq = w.store.cq
  polled : w'.store.polled = w.store.polled

theorem Filed.ptr_move (h : Filed cfg w) {p : RequestPtr} {s : Stage}
    (stage : w'.store.stage = update w.store.stage p s)
    (nextPtr : w'.store.nextPtr = w.store.nextPtr) (born : w.store.stage p ≠ .unborn)
    (q : RequestPtr) (hq : w'.store.stage q ≠ .unborn) : q.addr < w'.store.nextPtr := by
  rw [nextPtr]
  apply h.ptr q
  rw [stage] at hq
  by_cases e : q = p
  · subst e
    exact born
  · rwa [Function.update_of_ne e] at hq

theorem Filed.quiet (h : Filed cfg w) {p : RequestPtr} {s : Stage} (m : QuietMove w w' p s)
    (born : w.store.stage p ≠ .unborn) (deque : s.deque = (w.store.stage p).deque)
    (conts : s.conts = (w.store.stage p).conts) (told : s.told = (w.store.stage p).told) :
    Filed cfg w' where
  ptr := h.ptr_move m.stage m.nextPtr born
  deque := by
    rw [m.entries, m.stage, deque_still deque]
    exact h.deque
  conts := by
    rw [m.attached, m.stage, conts_still conts]
    exact h.conts
  told := by
    rw [m.delivered, toldTo_still m.stage told]
    exact h.told
  fifo := by
    rw [m.delivered, m.polled, m.cq]
    exact h.fifo

theorem Filed.congr (h : Filed cfg w) (stage : w'.store.stage = w.store.stage)
    (nextPtr : w'.store.nextPtr = w.store.nextPtr) (entries : w'.store.entries = w.store.entries)
    (attached : w'.store.attached = w.store.attached)
    (delivered : w'.store.delivered = w.store.delivered)
    (fifo : ∀ c, if cfg.isHandler c then w'.store.cq c = [] ∧ w'.store.polled c = []
      else w.store.delivered c = w'.store.polled c ++ w'.store.cq c) : Filed cfg w' where
  ptr := by
    rw [stage, nextPtr]
    exact h.ptr
  deque := by
    rw [entries, stage]
    exact h.deque
  conts := by
    rw [attached, stage]
    exact h.conts
  told := by
    have same : toldTo w' = toldTo w := by
      unfold toldTo
      rw [stage]
    rw [delivered, same]
    exact h.told
  fifo := by
    rw [delivered]
    exact fifo

theorem Filed.of_store (h : Filed cfg w) (store : w'.store = w.store) : Filed cfg w' :=
  h.congr (by rw [store]) (by rw [store]) (by rw [store]) (by rw [store]) (by rw [store])
    (by rw [store]; exact h.fifo)

theorem Filed.newRequest (h : Filed cfg w) (q : Request) (c : Option Comp) :
    Filed cfg (w.newRequest t q c) := by
  have unborn := h.fresh q c
  have stage : (w.newRequest t q c).store.stage =
      update w.store.stage (w.freshPtr q c) (.owned t .posting) := by
    rw [World.newRequest_eq]
  constructor
  · intro p hp
    rw [stage] at hp
    have bound : p.addr < w.store.nextPtr + 1 := by
      by_cases e : p = w.freshPtr q c
      · simp [e, World.freshPtr]
      · rw [Function.update_of_ne e] at hp
        have old := h.ptr p hp
        omega
    rw [World.newRequest_eq]
    exact bound
  · rw [stage, deque_still (by simp [unborn, Stage.deque]), World.newRequest_eq]
    exact h.deque
  · rw [stage, conts_still (by simp [unborn, Stage.conts]), World.newRequest_eq]
    exact h.conts
  · rw [toldTo_still stage (by simp [unborn, Stage.told]), World.newRequest_eq]
    exact h.told
  · rw [World.newRequest_eq]
    exact h.fifo

theorem Filed.pushBack (h : Filed cfg w) {m : Manager} {e : Entry} {k : Owning}
    (owned : w.store.stage e.request = .owned t k) (hk : k = .started ∨ k = .held) :
    Filed cfg (w.pushBack t m e) := by
  rw [World.pushBack_eq]
  refine ⟨h.ptr_move rfl rfl (by simp [owned]), ?_, ?_, ?_, h.fifo⟩
  · rw [deque_move]
    exact h.deque.push (by simp [owned, Stage.deque])
  · rw [conts_still (by simp [owned, Stage.conts])]
    exact h.conts
  · rw [toldTo_still rfl (by rcases hk with rfl | rfl <;> simp [owned, Stage.told])]
    exact h.told

theorem Filed.attach (h : Filed cfg w) {m : Manager} {e : Entry} {k : Owning}
    (owned : w.store.stage e.request = .owned t k) (hk : k = .started ∨ k = .held) :
    Filed cfg (w.attach t m e) := by
  rw [World.attach_eq]
  refine ⟨h.ptr_move rfl rfl (by simp [owned]), ?_, ?_, ?_, h.fifo⟩
  · rw [deque_still (by simp [owned, Stage.deque])]
    exact h.deque
  · rw [conts_move]
    exact h.conts.push (by simp [owned, Stage.conts])
  · rw [toldTo_still rfl (by rcases hk with rfl | rfl <;> simp [owned, Stage.told])]
    exact h.told

theorem Filed.popFront (h : Filed cfg w) {m : Manager} {e : Entry} {rest : List Entry}
    (front : w.store.entries m = e :: rest) : Filed cfg (w.popFront t m e rest) := by
  have queued := h.queued_of_mem (front ▸ List.mem_cons_self)
  refine ⟨h.ptr_move rfl rfl (by simp [queued]), ?_, ?_, ?_, h.fifo⟩
  · unfold World.popFront
    rw [deque_move]
    exact h.deque.pop front
  · unfold World.popFront
    rw [conts_still (by simp [queued, Stage.conts])]
    exact h.conts
  · rw [toldTo_still rfl (by simp [queued, Stage.told])]
    exact h.told

theorem Filed.takeContinuation (h : Filed cfg w) {o : Op} {m : Manager} {i : Nat} {e : Entry}
    {st : Status} (found : (w.store.attached m)[i]? = some e) :
    Filed cfg (w.takeContinuation t o m i e st) := by
  have attached := h.attached_of_mem (List.mem_of_getElem? found)
  rw [World.takeContinuation_eq]
  refine ⟨h.ptr_move rfl rfl (by simp [attached]), ?_, ?_, ?_, h.fifo⟩
  · rw [deque_still (by simp [attached, Stage.deque])]
    exact h.deque
  · rw [conts_move]
    exact h.conts.erase found
  · rw [toldTo_still rfl (by simp [attached, Stage.told])]
    exact h.told

/-- A completion object is told: the operation takes its place among the deliveries. -/
theorem Filed.signal (h : Filed cfg w) {c : Comp} {q : Request} {p : RequestPtr}
    (held : w.store.stage p = .owned t .held) (named : p.completion = some c) :
    Filed cfg (w.signal cfg t c q p) := by
  rw [World.signal_eq]
  refine ⟨h.ptr_move rfl rfl (by simp [held]), ?_, ?_, ?_, fun c' => ?_⟩
  · rw [deque_still (by simp [held, Stage.deque])]
    exact h.deque
  · rw [conts_still (by simp [held, Stage.conts])]
    exact h.conts
  · have free : toldTo w p = none := by simp [toldTo, held, Stage.told]
    rw [toldTo_move rfl]
    simp only [Stage.told, if_true, named]
    exact h.told.push (a := w.delivery q p) free
  · have before := h.fifo c'
    by_cases same : c' = c
    · subst same
      by_cases handler : cfg.isHandler c' = true
      · simp only [handler, if_true] at before ⊢
        exact before
      · rw [if_neg handler] at before ⊢
        simp only [handler, Bool.false_eq_true, if_false, Function.update_self]
        rw [before, List.append_assoc]
    · have cq : (if cfg.isHandler c then w.store.cq
          else update w.store.cq c (w.store.cq c ++ [w.delivery q p])) c' = w.store.cq c' := by
        split
        · rfl
        · exact Function.update_of_ne same _ _
      simp only [Function.update_of_ne same, cq]
      exact before

theorem Filed.cqPop (h : Filed cfg w) {c : Comp} {x : Delivery} {rest : List Delivery}
    (front : w.store.cq c = x :: rest) :
    Filed cfg { w with store := { w.store with
      cq := update w.store.cq c rest
      polled := update w.store.polled c (w.store.polled c ++ [x]) } } := by
  refine h.congr rfl rfl rfl rfl rfl fun c' => ?_
  have before := h.fifo c'
  by_cases same : c' = c
  · subst same
    by_cases handler : cfg.isHandler c' = true
    · rw [if_pos handler] at before
      simp [before.1] at front
    · rw [if_neg handler] at before ⊢
      simp only [Function.update_self]
      rw [before, front, List.append_assoc]
      rfl
  · simp only [Function.update_of_ne same]
    exact before

theorem Filed.exec (h : Books P w) {o : Op} {r : o.Ret} (pre : ledgerPre P t o (account t w))
    (hx : exec cfg t o w = some (r, w')) : Filed cfg w' := by
  have pre := pre.2
  have filed := h.filed
  cases o with
  | newRequest q c =>
    cases hx
    exact filed.newRequest q c
  | writeRequest p q | clearSlot d =>
    obtain ⟨_, -, e⟩ := Option.map_eq_some_iff.mp hx
    cases e
    exact filed.congr rfl rfl rfl rfl rfl filed.fifo
  | deleteRequest p =>
    obtain ⟨_, -, e⟩ := Option.map_eq_some_iff.mp hx
    cases e
    obtain ⟨x, hx', kind, -⟩ := pre
    have stage := (tokenOf_eq_some.mp hx').1
    rw [kind] at stage
    exact filed.quiet ⟨rfl, rfl, rfl, rfl, rfl, rfl, rfl⟩ (by simp [stage])
      (by simp [stage, Stage.deque]) (by simp [stage, Stage.conts]) (by simp [stage, Stage.told])
  | pushBack m e =>
    cases hx
    obtain ⟨x, hx', -, -, -, kind⟩ := pre.token
    exact filed.pushBack (tokenOf_eq_some.mp hx').1 (by rcases kind with k | k <;> simp [k])
  | «continue» m e f =>
    cases hx
    obtain ⟨x, hx', -, -, -, kind⟩ := pre.2.token
    exact filed.attach (tokenOf_eq_some.mp hx').1 (by rcases kind with k | k <;> simp [k])
  | popFront m =>
    obtain ⟨rest, front, rfl⟩ := exec_popFront hx
    exact filed.popFront front
  | writeSlot d e =>
    cases hx
    obtain ⟨s, x, -, -, -, token⟩ := pre
    have stage : w.store.stage e.request = .owned t .started := (tokenOf_eq_some.mp token).1
    exact filed.quiet ⟨rfl, rfl, rfl, rfl, rfl, rfl, rfl⟩ (by simp [stage])
      (by simp [stage, Stage.deque]) (by simp [stage, Stage.conts]) (by simp [stage, Stage.told])
  | isend a n ty dest tag comm p =>
    obtain ⟨x, hx', kind, -⟩ := pre.token
    have stage := (tokenOf_eq_some.mp hx').1
    rw [kind] at stage
    rcases exec_isend hx with ⟨-, rfl⟩ | ⟨-, -, rfl⟩
    · exact filed
    · rw [World.isend_eq]
      exact filed.quiet ⟨rfl, rfl, rfl, rfl, rfl, rfl, rfl⟩ (by simp [stage])
        (by simp [stage, Stage.deque]) (by simp [stage, Stage.conts])
        (by simp [stage, Stage.told])
  | irecv a n ty source tag comm p =>
    have token : ∃ x, (account t w).token p = some x ∧ x.kind = .posting ∧ x.result = none := by
      rcases pre with pre | pre
      · exact pre.token
      · exact pre.token
    obtain ⟨x, hx', kind, -⟩ := token
    have stage := (tokenOf_eq_some.mp hx').1
    rw [kind] at stage
    rcases exec_irecv hx with ⟨-, rfl, -⟩ | ⟨-, rfl⟩
    · exact filed
    · rw [World.irecv_eq]
      exact filed.quiet ⟨rfl, rfl, rfl, rfl, rfl, rfl, rfl⟩ (by simp [stage])
        (by simp [stage, Stage.deque]) (by simp [stage, Stage.conts])
        (by simp [stage, Stage.told])
  | test x =>
    cases x with
    | none =>
      cases hx
      exact filed
    | some x =>
      cases exec_test hx with
      | taken q st hq done ok op =>
        obtain ⟨-, -, -, stage, -⟩ := h.slots.receive pre op
        exact filed.quiet ⟨rfl, rfl, rfl, rfl, rfl, rfl, rfl⟩ (by simp [stage])
          (by simp [stage, Stage.deque]) (by simp [stage, Stage.conts])
          (by simp [stage, Stage.told])
      | _ => exact filed.of_store rfl
  | signal c q p =>
    cases hx
    obtain ⟨st, token, -⟩ := pre.token
    exact filed.signal (tokenOf_eq_some.mp token).1 pre.completion
  | cqPop c =>
    rcases exec_cqPop hx with ⟨-, rfl⟩ | ⟨x, rest, front, -, rfl⟩
    · exact filed
    · exact filed.cqPop front
  | _ => exact filed.of_store ((exec_frame hx).store rfl)

end Filed

section Contents

theorem Waiting.same {e : Entry} (h : Waiting cfg w e)
    (heap : w'.store.heap e.request = w.store.heap e.request)
    (result : w'.net.result e.request = w.net.result e.request)
    (permit : w'.pend.permitOf e.request = w.pend.permitOf e.request) : Waiting cfg w' e where
  content := heap.trans h.content
  result := by rw [result]; exact h.result
  permit := by rw [permit]; exact h.permit

theorem Delivery.Ok.mono {x : Delivery} (h : x.Ok P w)
    (result : w'.net.result x.origin = w.net.result x.origin)
    (given : ∀ k p, w.memory.given k = some p → w'.memory.given k = some p) : x.Ok P w' := by
  obtain ⟨st, done, user, put⟩ := h.reported
  refine ⟨st, result.trans done, user, fun op => ?_⟩
  obtain ⟨k, request, owner, contents⟩ := put op
  exact ⟨k, request, given k _ owner, contents⟩

theorem Filed.told_of_mem (h : Filed cfg w) {c : Comp} {x : Delivery}
    (hx : x ∈ w.store.delivered c) : (w.store.stage x.origin).told = true := by
  have place := h.told.place_of_mem hx
  unfold toldTo at place
  by_contra quiet
  rw [if_neg quiet] at place
  cases place

/-- Operations only move between lists. -/
theorem Contents.carry (h : Contents P w) (heap : w'.store.heap = w.store.heap)
    (delivered : w'.store.delivered = w.store.delivered) (result : w'.net.result = w.net.result)
    (permitOf : w'.pend.permitOf = w.pend.permitOf) (given : w'.memory.given = w.memory.given)
    (entries : ∀ m, ∀ e ∈ w'.store.entries m, Waiting cfg w e)
    (attached : ∀ m, ∀ e ∈ w'.store.attached m, Waiting cfg w e) : Contents P w' where
  entries m e he := (entries m e he).same (by rw [heap]) (by rw [result]) (by rw [permitOf])
  attached m e he := (attached m e he).same (by rw [heap]) (by rw [result]) (by rw [permitOf])
  delivered c x hx := by
    rw [delivered] at hx
    exact (h.delivered c x hx).mono (by rw [result]) (by rw [given]; exact fun _ _ e => e)

theorem Contents.congr (h : Contents P w) (heap : w'.store.heap = w.store.heap)
    (entries : w'.store.entries = w.store.entries)
    (attached : w'.store.attached = w.store.attached)
    (delivered : w'.store.delivered = w.store.delivered) (result : w'.net.result = w.net.result)
    (permitOf : w'.pend.permitOf = w.pend.permitOf) (given : w'.memory.given = w.memory.given) :
    Contents P w' :=
  h.carry heap delivered result permitOf given (by rw [entries]; exact h.entries)
    (by rw [attached]; exact h.attached)

theorem mem_append_update {lists : Manager → List Entry} {m m' : Manager} {e e' : Entry}
    (h : e' ∈ update lists m (lists m ++ [e]) m') : e' ∈ lists m' ∨ e' = e := by
  by_cases same : m' = m
  · subst same
    rw [Function.update_self] at h
    simpa using h
  · rw [Function.update_of_ne same] at h
    exact .inl h

/-- A change to one operation that waits in no list leaves the others as they were. -/
theorem Contents.touch (h : Contents P w) (filed : Filed cfg w') {p : RequestPtr}
    (touch : ∀ q, q ≠ p → SameAt w w' q) (deque : (w'.store.stage p).deque = none)
    (conts : (w'.store.stage p).conts = none)
    (entries : ∀ m, ∀ e ∈ w'.store.entries m, e ∈ w.store.entries m)
    (attached : ∀ m, ∀ e ∈ w'.store.attached m, e ∈ w.store.attached m)
    (delivered : ∀ c, ∀ x ∈ w'.store.delivered c, x.Ok P w') : Contents P w' where
  entries m e he := by
    have other : e.request ≠ p := by
      rintro rfl
      simp [filed.queued_of_mem he, Stage.deque] at deque
    have same := touch _ other
    exact (h.entries m e (entries m e he)).same same.heap same.result same.permit
  attached m e he := by
    have other : e.request ≠ p := by
      rintro rfl
      simp [filed.attached_of_mem he, Stage.conts] at conts
    have same := touch _ other
    exact (h.attached m e (attached m e he)).same same.heap same.result same.permit
  delivered := delivered

/-- What was delivered stays right while no result of a told operation changes. -/
theorem Contents.delivered_mono (h : Contents P w) (filed : Filed cfg w)
    (result : ∀ p, (w.store.stage p).told = true → w'.net.result p = w.net.result p)
    (given : ∀ k p, w.memory.given k = some p → w'.memory.given k = some p) :
    ∀ c, ∀ x ∈ w.store.delivered c, x.Ok P w' := fun c x hx =>
  (h.delivered c x hx).mono (result _ (filed.told_of_mem hx)) given

theorem Contents.delivered_touch (h : Contents P w) (filed : Filed cfg w) {p : RequestPtr}
    (touch : ∀ q, q ≠ p → SameAt w w' q) (untold : (w.store.stage p).told = false)
    (given : w'.memory.given = w.memory.given) :
    ∀ c, ∀ x ∈ w.store.delivered c, x.Ok P w' := by
  refine h.delivered_mono filed (fun q told => (touch q ?_).result) (by simp [given])
  rintro rfl
  simp [told] at untold

/-- An entry that is handed to a manager waits there as it was posted. -/
theorem Account.MayHand.waiting {e : Entry} (may : (account t w).MayHand cfg e) :
    Waiting cfg w e := by
  obtain ⟨x, hx, content, result, permit, -⟩ := may.token
  obtain ⟨-, heap, result', permit'⟩ := tokenOf_eq_some.mp hx
  refine ⟨heap.trans content, ?_, ?_⟩
  · rw [result']
    exact result
  · rw [permit']
    exact permit

/-- The block of a delivered PUT_SIGNAL was the delivering thread's. -/
theorem given_giveBlock (h : Books P w) {q : Request} {p : RequestPtr}
    (mine : ∀ k, q.op = .putSignal → q.buffer = .heap k → w.memory.blockOwner k = some t)
    (k : Nat) (p' : RequestPtr) (given : w.memory.given k = some p') :
    (w.giveBlock q p).memory.given k = some p' := by
  unfold World.giveBlock
  split
  · rename_i k' op buffer
    have free := (h.slots.block k' (by simp [mine k' op buffer])).1
    have other : k ≠ k' := by
      rintro rfl
      simp [given] at free
    simpa only [Function.update_of_ne other] using given
  · exact given

theorem Contents.signal (h : Books P w) (coh : Coherence cfg G w) {c : Comp} {q : Request}
    {p : RequestPtr} (filed : Filed cfg (w.signal cfg t c q p))
    (may : (account t w).MaySignal P c q p) : Contents P (w.signal cfg t c q p) := by
  obtain ⟨st, token, user, put⟩ := may.token
  obtain ⟨-, heap, result, -⟩ := tokenOf_eq_some.mp token
  have op : q.op = p.posted.op := (coh.heap p q heap).1
  have mine (k : Nat) (hop : q.op = .putSignal) (buffer : q.buffer = .heap k) :
      w.memory.blockOwner k = some t := by
    obtain ⟨k', b, eq, block, -⟩ := put (op.symm.trans hop)
    rw [eq] at buffer
    rw [← Buffer.heap.inj buffer]
    exact (blockOf_eq_some.mp block).1
  have given := given_giveBlock (p := p) h mine
  have old (c' : Comp) (x : Delivery) (hx : x ∈ w.store.delivered c') :
      x.Ok P (w.signal cfg t c q p) :=
    h.contents.delivered_mono h.filed (fun _ _ => by rw [World.signal_eq])
      (by rw [World.signal_eq]; exact given) c' x hx
  refine h.contents.touch filed (fun r hr => sameAt_signal hr) ?_ ?_ ?_ ?_ ?_
  · rw [World.signal_eq]
    simp [Stage.deque]
  · rw [World.signal_eq]
    simp [Stage.conts]
  · rw [World.signal_eq]
    exact fun _ _ he => he
  · rw [World.signal_eq]
    exact fun _ _ he => he
  · intro c' x hx
    have here : x ∈ w.store.delivered c' ∨ x = w.delivery q p := by
      rw [World.signal_eq] at hx
      by_cases same : c' = c
      · subst same
        simpa only [Function.update_self, List.mem_append, List.mem_singleton] using hx
      · simp only [Function.update_of_ne same] at hx
        exact .inl hx
    rcases here with here | rfl
    · exact old c' x here
    · refine ⟨st, by rw [World.signal_eq]; exact result, user, fun hp => ?_⟩
      obtain ⟨k, b, eq, block, whole⟩ := put hp
      have hq : q.op = .putSignal := op.trans hp
      have buffer : q.buffer = .heap k := by rw [eq]
      refine ⟨k, eq, ?_, fun on => ?_⟩
      · rw [World.signal_eq]
        simp [World.giveBlock, hq, buffer, World.delivery]
      · obtain ⟨m, message, bytes⟩ := whole on
        refine ⟨m, message, ?_⟩
        rw [← bytes, ← (blockOf_eq_some.mp block).2]
        simp [World.delivery, buffer]

theorem Contents.exec (h : Books P w) (coh : Coherence cfg G w) {o : Op} {r : o.Ret}
    (pre : ledgerPre P t o (account t w)) (hx : exec cfg t o w = some (r, w')) :
    Contents P w' := by
  have filed := Filed.exec h pre hx
  have pre := pre.2
  have contents := h.contents
  cases o with
  | loadPending | fetchAddPending =>
    cases hx
    exact contents.congr rfl rfl rfl rfl rfl rfl rfl
  | fetchSubPending p =>
    cases hx
    obtain ⟨-, x, hx', kind, -⟩ := pre
    have stage := (tokenOf_eq_some.mp hx').1
    rw [kind] at stage
    have touch (q : RequestPtr) (hq : q ≠ p) : SameAt w (w.fetchSubPending t p) q :=
      sameAt_fetchSub hq
    refine contents.touch filed touch ?_ ?_ (fun _ _ he => he) (fun _ _ he => he) ?_
    · simp [World.fetchSubPending, stage, Stage.deque]
    · simp [World.fetchSubPending, stage, Stage.conts]
    · exact contents.delivered_touch h.filed touch (by simp [stage, Stage.told]) rfl
  | newRequest q c =>
    cases hx
    have unborn := h.filed.fresh q c
    have touch (p : RequestPtr) (hp : p ≠ w.freshPtr q c) : SameAt w (w.newRequest t q c) p :=
      sameAt_newRequest hp
    refine contents.touch filed touch ?_ ?_ ?_ ?_ ?_
    · simp [World.newRequest_store, Stage.deque]
    · simp [World.newRequest_store, Stage.conts]
    · rw [World.newRequest_store]
      exact fun _ _ he => he
    · rw [World.newRequest_store]
      exact fun _ _ he => he
    · have delivered := contents.delivered_touch h.filed touch (by simp [unborn, Stage.told])
        (by rw [World.newRequest_eq])
      rw [World.newRequest_store]
      exact delivered
  | writeRequest p q =>
    obtain ⟨_, -, e⟩ := Option.map_eq_some_iff.mp hx
    cases e
    obtain ⟨x, hx', -⟩ := pre
    have stage := (tokenOf_eq_some.mp hx').1
    refine contents.touch filed (fun _ hq => sameAt_setHeap hq) ?_ ?_ (fun _ _ he => he)
      (fun _ _ he => he) ?_
    · simp [World.setHeap, stage, Stage.deque]
    · simp [World.setHeap, stage, Stage.conts]
    · exact contents.delivered_mono h.filed (fun _ _ => rfl) fun _ _ given => given
  | deleteRequest p =>
    obtain ⟨_, -, e⟩ := Option.map_eq_some_iff.mp hx
    cases e
    refine contents.touch filed (fun _ hq => sameAt_delete hq) ?_ ?_ (fun _ _ he => he)
      (fun _ _ he => he) ?_
    · simp [World.setStage, Stage.deque]
    · simp [World.setStage, Stage.conts]
    · exact contents.delivered_mono h.filed (fun _ _ => rfl) fun _ _ given => given
  | pushBack m e =>
    cases hx
    have waits := pre.waiting
    rw [World.pushBack_eq]
    refine contents.carry rfl rfl rfl rfl rfl (fun m' e' he => ?_) contents.attached
    rcases mem_append_update he with he | rfl
    · exact contents.entries m' e' he
    · exact waits
  | «continue» m e f =>
    cases hx
    have waits := pre.2.waiting
    rw [World.attach_eq]
    refine contents.carry rfl rfl rfl rfl rfl contents.entries fun m' e' he => ?_
    rcases mem_append_update he with he | rfl
    · exact contents.attached m' e' he
    · exact waits
  | popFront m =>
    obtain ⟨rest, front, rfl⟩ := exec_popFront hx
    refine contents.carry rfl rfl rfl rfl rfl (fun m' e he => ?_) contents.attached
    refine contents.entries m' e ?_
    by_cases same : m' = m
    · subst same
      simp only [World.popFront, Function.update_self] at he
      rw [front]
      exact List.mem_cons_of_mem _ he
    · simpa only [World.popFront, Function.update_of_ne same] using he
  | writeSlot d e =>
    cases hx
    exact contents.congr rfl rfl rfl rfl rfl rfl rfl
  | clearSlot d =>
    obtain ⟨_, -, e⟩ := Option.map_eq_some_iff.mp hx
    cases e
    exact contents.congr rfl rfl rfl rfl rfl rfl rfl
  | isend a n ty dest tag comm p =>
    obtain ⟨x, hx', kind, -⟩ := pre.token
    have stage := (tokenOf_eq_some.mp hx').1
    rw [kind] at stage
    rcases exec_isend hx with ⟨-, rfl⟩ | ⟨-, -, rfl⟩
    · exact contents
    · have touch (q : RequestPtr) (hq : q ≠ p) : SameAt w
          (w.isend cfg t a (Datatype.layout n ty) dest tag comm p).2 q := sameAt_isend hq
      have delivered := contents.delivered_touch h.filed touch (by simp [stage, Stage.told])
        (by rw [World.isend_eq])
      refine contents.touch filed touch ?_ ?_ ?_ ?_ ?_
      all_goals rw [World.isend_eq]
      · simp [Stage.deque]
      · simp [Stage.conts]
      · exact fun _ _ he => he
      · exact fun _ _ he => he
      · rw [World.isend_eq] at delivered
        exact delivered
  | irecv a n ty source tag comm p =>
    have token : ∃ x, (account t w).token p = some x ∧ x.kind = .posting ∧ x.result = none := by
      rcases pre with pre | pre
      · exact pre.token
      · exact pre.token
    obtain ⟨x, hx', kind, -⟩ := token
    have stage := (tokenOf_eq_some.mp hx').1
    rw [kind] at stage
    rcases exec_irecv hx with ⟨-, rfl, -⟩ | ⟨-, rfl⟩
    · exact contents
    · have touch (q : RequestPtr) (hq : q ≠ p) : SameAt w
          (w.irecv cfg t a (Datatype.layout n ty) source tag comm p).2 q := sameAt_irecv hq
      have delivered := contents.delivered_touch h.filed touch (by simp [stage, Stage.told])
        (by rw [World.irecv_eq])
      refine contents.touch filed touch ?_ ?_ ?_ ?_ ?_
      all_goals rw [World.irecv_eq]
      · simp [Stage.deque]
      · simp [Stage.conts]
      · exact fun _ _ he => he
      · exact fun _ _ he => he
      · rw [World.irecv_eq] at delivered
        exact delivered
  | test x =>
    cases x with
    | none =>
      cases hx
      exact contents
    | some x =>
      cases exec_test hx with
      | notYet => exact contents
      | failed dead => exact contents
      | taken q st hq done ok op =>
        obtain ⟨-, -, -, stage, -⟩ := h.slots.receive pre op
        have touch (p : RequestPtr) (hp : p ≠ x.request) : SameAt w
            ((((w.setReq x { q with state := .consumed }).setResult x.request st).setPhase
              x.comm.device (.taken st)).setStage x.request (.owned t .held)) p :=
          ⟨Function.update_of_ne hp _ _, rfl, Function.update_of_ne hp _ _, rfl⟩
        refine contents.touch filed touch ?_ ?_ (fun _ _ he => he) (fun _ _ he => he) ?_
        · simp [World.setStage, Stage.deque]
        · simp [World.setStage, Stage.conts]
        · exact contents.delivered_touch h.filed touch (by simp [stage, Stage.told]) rfl
      | done q st hq done ok op =>
        obtain ⟨y, hy, kind, -⟩ := pre.held op
        have stage := (tokenOf_eq_some.mp hy).1
        rw [kind] at stage
        have touch (p : RequestPtr) (hp : p ≠ x.request) : SameAt w
            ((w.setReq x { q with state := .consumed }).setResult x.request st) p :=
          ⟨rfl, rfl, Function.update_of_ne hp _ _, rfl⟩
        refine contents.touch filed touch ?_ ?_ (fun _ _ he => he) (fun _ _ he => he) ?_
        · simp [World.setResult, World.setReq, stage, Stage.deque]
        · simp [World.setResult, World.setReq, stage, Stage.conts]
        · exact contents.delivered_touch h.filed touch (by simp [stage, Stage.told]) rfl
  | signal c q p =>
    cases hx
    exact Contents.signal h coh filed pre
  | cqPop c =>
    rcases exec_cqPop hx with ⟨-, rfl⟩ | ⟨x, rest, front, -, rfl⟩
    · exact contents
    · exact contents.congr rfl rfl rfl rfl rfl rfl rfl
  | allocate n =>
    simp only [Lcw.Mpi.exec] at hx
    split at hx <;> cases hx
    · exact contents.congr rfl rfl rfl rfl rfl rfl rfl
    · exact contents
  | memcpy dst src n =>
    cases hx
    rw [World.memcpy_eq]
    refine contents.congr rfl rfl rfl rfl ?_ rfl rfl
    unfold World.memcpy
    split <;> rfl
  | initDevice d dev =>
    cases hx
    exact contents.congr rfl rfl rfl rfl rfl rfl rfl
  | commCreate d | commFree comm =>
    cases hx
    exact contents.congr rfl rfl rfl rfl rfl rfl rfl
  | _ =>
    have frame := exec_frame hx
    have store := frame.store rfl
    exact contents.congr (by rw [store]) (by rw [store]) (by rw [store]) (by rw [store])
      (by rw [frame.net rfl]) (by rw [frame.pend rfl]) (by rw [frame.memory rfl])

theorem Contents.takeContinuation (h : Books P w) {o : Op} {m : Manager} {i : Nat} {e : Entry}
    {st : Status} (found : (w.store.attached m)[i]? = some e) :
    Contents P (w.takeContinuation t o m i e st) := by
  have attached := h.filed.attached_of_mem (List.mem_of_getElem? found)
  have touch (q : RequestPtr) (hq : q ≠ e.request) :
      SameAt w (w.takeContinuation t o m i e st) q := sameAt_takeContinuation hq
  have delivered := h.contents.delivered_touch h.filed touch (by simp [attached, Stage.told])
    (by rw [World.takeContinuation_eq])
  refine h.contents.touch (h.filed.takeContinuation found) touch ?_ ?_ ?_ ?_ ?_
  all_goals rw [World.takeContinuation_eq]
  · simp [Stage.deque]
  · simp [Stage.conts]
  · exact fun _ _ he => he
  · intro m' e' he
    by_cases same : m' = m
    · subst same
      simp only [Function.update_self] at he
      exact List.mem_of_mem_eraseIdx he
    · simpa only [Function.update_of_ne same] using he
  · rw [World.takeContinuation_eq] at delivered
    exact delivered

end Contents

end Lcw.Mpi
