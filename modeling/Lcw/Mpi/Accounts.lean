/- digest: In every run, each process counts an end for each start once all is delivered. -/

import Lcw.Mpi.Counting
import Lcw.Mpi.LedgerApi
import Mathlib.Tactic.Abel

set_option autoImplicit false
set_option relaxedAutoImplicit false

namespace Lcw.Mpi

open Interleave
open Api (Balance Conserved operation completion gain net nets nets_bump nets_zero sum_eraseIdx
  conserved_iff)
open Function (update)

variable (cfg : Config) (home : Comp → Rank)

/-- The operations of the entries. -/
def owed (l : List Entry) : Balance := (l.map fun e => operation e.request.posted.op).sum

namespace World

variable (w : World)

/-- The operations a manager keeps. -/
def managed (m : Manager) : Rank → Balance :=
  Pi.single m.rank (owed (w.store.entries m) + owed (w.store.attached m))

/-- The completions a completion object keeps: what is in the queue, or was told to the handler. -/
def stock (c : Comp) : Rank → Balance :=
  (w.store.cq c).length • Pi.single (home c) completion +
    if cfg.isHandler c then (w.store.delivered c).length • Pi.single (home c) completion else 0

def Level (a : Rank → Balance) : Prop :=
  ∃ q b, Sums w.managed q ∧ Sums (w.stock cfg home) b ∧ a = nets w.counters - q - b

/-- Every entry completes to a completion object of the process that keeps it. -/
structure Homed : Prop where
  entries : ∀ m, ∀ e ∈ w.store.entries m, e.Home home m.rank
  attached : ∀ m, ∀ e ∈ w.store.attached m, e.Home home m.rank
  slot : ∀ d e, w.store.slot d = some e → e.Home home d.rank

end World

/-- Processes name their own completion objects. -/
def OwnComps (_ : (machine cfg).State) : (machine cfg).Event → Prop
  | .intr (t : Tid) (.call c : Intr) => ∀ k, c.comp? = some k → home k = t.rank
  | _ => True

variable {cfg home} {w w' : World} {t : Tid} {o : Op} {r : o.Ret} {a q : Rank → Balance}

section Levels

theorem World.Same.managed (h : w.Same w') : w'.managed = w.managed := by
  unfold World.managed
  rw [h.entries, h.attached]

theorem World.Same.stock (h : w.Same w') : w'.stock cfg home = w.stock cfg home := by
  unfold World.stock
  rw [h.cq, h.delivered]

theorem World.Level.same (h : w.Level cfg home a) (same : w.Same w')
    (counters : w'.counters = w.counters) : w'.Level cfg home a := by
  obtain ⟨q, b, managed, stock, rfl⟩ := h
  refine ⟨q, b, ?_, ?_, by rw [counters]⟩
  · rw [same.managed]
    exact managed
  · rw [same.stock]
    exact stock

/-- One manager's entries change. -/
theorem managed_change {m : Manager} {x : Balance} (h : Sums w.managed q)
    (here : owed (w'.store.entries m) + owed (w'.store.attached m) =
      owed (w.store.entries m) + owed (w.store.attached m) + x)
    (other : ∀ n, n ≠ m → w'.store.entries n = w.store.entries n ∧
      w'.store.attached n = w.store.attached n) :
    Sums w'.managed (q + Pi.single m.rank x) := by
  refine h.change (i := m) ?_ fun n hn => ?_
  · rw [World.managed, World.managed, here, Pi.single_add]
  · rw [World.managed, World.managed, (other n hn).1, (other n hn).2]

theorem owed_append (l : List Entry) (e : Entry) :
    owed (l ++ [e]) = owed l + operation e.request.posted.op := by
  simp [owed]

theorem owed_cons (l : List Entry) (e : Entry) :
    owed (e :: l) = operation e.request.posted.op + owed l := by
  simp [owed]

/-- An entry is put to the others of its manager. -/
theorem level_pushBack {m : Manager} {e : Entry} (h : w.Level cfg home a) :
    (w.pushBack t m e).Level cfg home (a + -Pi.single m.rank (operation e.request.posted.op)) := by
  obtain ⟨q, b, managed, stock, rfl⟩ := h
  rw [World.pushBack_eq]
  refine ⟨q + Pi.single m.rank (operation e.request.posted.op), b, ?_, stock, ?_⟩
  · refine managed_change managed ?_ fun n hn => ⟨Function.update_of_ne hn .., rfl⟩
    simp only [Function.update_self, owed_append]
    abel
  · abel

theorem level_attach {m : Manager} {e : Entry} (h : w.Level cfg home a) :
    (w.attach t m e).Level cfg home (a + -Pi.single m.rank (operation e.request.posted.op)) := by
  obtain ⟨q, b, managed, stock, rfl⟩ := h
  rw [World.attach_eq]
  refine ⟨q + Pi.single m.rank (operation e.request.posted.op), b, ?_, stock, ?_⟩
  · refine managed_change managed ?_ fun n hn => ⟨rfl, Function.update_of_ne hn ..⟩
    simp only [Function.update_self, owed_append]
    abel
  · abel

theorem level_popFront {m : Manager} {e : Entry} {rest : List Entry}
    (front : w.store.entries m = e :: rest) (h : w.Level cfg home a) :
    (w.popFront t m e rest).Level cfg home
      (a + Pi.single m.rank (operation e.request.posted.op)) := by
  obtain ⟨q, b, managed, stock, rfl⟩ := h
  refine ⟨q + Pi.single m.rank (-operation e.request.posted.op), b, ?_, stock, ?_⟩
  · refine managed_change managed ?_ fun n hn => ⟨Function.update_of_ne hn .., rfl⟩
    simp only [World.popFront, Function.update_self, front, owed_cons]
    abel
  · rw [Pi.single_neg]
    simp only [World.popFront]
    abel

theorem level_takeContinuation {m : Manager} {i : Nat} {e : Entry} {st : Status}
    (found : (w.store.attached m)[i]? = some e) (h : w.Level cfg home a) :
    (w.takeContinuation t o m i e st).Level cfg home
      (a + Pi.single m.rank (operation e.request.posted.op)) := by
  obtain ⟨q, b, managed, stock, rfl⟩ := h
  rw [World.takeContinuation_eq]
  refine ⟨q + Pi.single m.rank (-operation e.request.posted.op), b, ?_, stock, ?_⟩
  · refine managed_change managed ?_ fun n hn => ⟨rfl, Function.update_of_ne hn ..⟩
    have left := sum_eraseIdx (fun x : Entry => operation x.request.posted.op) found
    simp only [Function.update_self, owed] at left ⊢
    rw [left]
    abel
  · rw [Pi.single_neg]
    abel

/-- One completion object keeps a completion more or less. -/
theorem stock_change {c : Comp} {b x : Rank → Balance} (h : Sums (w.stock cfg home) b)
    (here : w'.stock cfg home c = w.stock cfg home c + x)
    (other : ∀ k, k ≠ c → w'.store.cq k = w.store.cq k ∧
      w'.store.delivered k = w.store.delivered k) : Sums (w'.stock cfg home) (b + x) := by
  refine h.change here fun k hk => ?_
  rw [World.stock, World.stock, (other k hk).1, (other k hk).2]

theorem level_signal {c : Comp} {x : Request} {p : RequestPtr} (h : w.Level cfg home a) :
    (w.signal cfg t c x p).Level cfg home (a + -Pi.single (home c) completion) := by
  obtain ⟨q, b, managed, stock, rfl⟩ := h
  rw [World.signal_eq]
  refine ⟨q, b + Pi.single (home c) completion, managed, ?_, ?_⟩
  · refine stock_change stock ?_ fun k hk => ⟨?_, Function.update_of_ne hk ..⟩
    · cases handler : cfg.isHandler c <;> simp [World.stock, handler, add_smul, add_assoc]
    · cases cfg.isHandler c
      · exact Function.update_of_ne hk ..
      · rfl
  · abel

theorem level_cqPop {c : Comp} {x : Delivery} {rest l : List Delivery}
    (front : w.store.cq c = x :: rest) (h : w.Level cfg home a) :
    World.Level cfg home { w with store := { w.store with
      cq := update w.store.cq c rest
      polled := update w.store.polled c l } } (a + Pi.single (home c) completion) := by
  obtain ⟨q, b, managed, stock, rfl⟩ := h
  refine ⟨q, b + -Pi.single (home c) completion, managed, ?_, ?_⟩
  · refine stock_change stock ?_ fun k hk => ⟨Function.update_of_ne hk .., rfl⟩
    simp only [World.stock, Function.update_self, front, List.length_cons, succ_nsmul]
    abel
  · simp only
    abel

end Levels

section Steps

theorem exec_level (hx : exec cfg t o w = some (r, w')) (pre : (tariff home t).pre o)
    (h : w.Level cfg home a) : w'.Level cfg home (a + (tariff home t).move o r) := by
  have frame := (exec_frame hx).counters
  cases o with
  | pcounterAdd k =>
    obtain ⟨-, rfl⟩ := Prod.mk.inj (Option.some.inj hx)
    obtain ⟨q, b, managed, stock, rfl⟩ := h
    refine ⟨q, b, managed, stock, ?_⟩
    simp only [World.addCounter, nets_bump, tariff]
    abel
  | pushBack m e =>
    obtain ⟨-, rfl⟩ := Prod.mk.inj (Option.some.inj hx)
    have pushed := level_pushBack (t := t) (m := m) (e := e) h
    rw [show m.rank = t.rank from pre.1] at pushed
    exact pushed
  | «continue» m e f =>
    obtain ⟨-, rfl⟩ := Prod.mk.inj (Option.some.inj hx)
    have pushed := level_attach (t := t) (m := m) (e := e) h
    rw [show m.rank = t.rank from pre.1] at pushed
    exact pushed
  | popFront m =>
    obtain ⟨rest, front, rfl⟩ := exec_popFront hx
    have popped := level_popFront (t := t) front h
    rw [show m.rank = t.rank from pre] at popped
    exact popped
  | signal c x p =>
    obtain ⟨-, rfl⟩ := Prod.mk.inj (Option.some.inj hx)
    have told := level_signal (t := t) (c := c) (x := x) (p := p) h
    rw [show home c = t.rank from pre] at told
    exact told
  | cqPop c =>
    rcases exec_cqPop hx with ⟨rfl, rfl⟩ | ⟨x, rest, front, rfl, rfl⟩
    · rw [show (tariff home t).move (.cqPop c) none = 0 from rfl, add_zero]
      exact h
    · have popped := level_cqPop (x := x) (l := w.store.polled c ++ [x]) front h
      rw [show home c = t.rank from pre] at popped
      exact popped
  | writeSlot d e =>
    obtain ⟨-, rfl⟩ := Prod.mk.inj (Option.some.inj hx)
    obtain ⟨q, b, managed, stock, rfl⟩ := h
    exact ⟨q, b, managed, stock, add_zero _⟩
  | clearSlot d =>
    obtain ⟨e, -, eq⟩ := Option.map_eq_some_iff.mp hx
    obtain ⟨-, rfl⟩ := Prod.mk.inj eq
    obtain ⟨q, b, managed, stock, rfl⟩ := h
    exact ⟨q, b, managed, stock, add_zero _⟩
  | _ =>
    have same := h.same (exec_same hx rfl) (frame rfl)
    rw [← add_zero a] at same
    exact same

theorem World.Homed.same (h : w.Homed home) (same : w.Same w') : w'.Homed home where
  entries := by rw [same.entries]; exact h.entries
  attached := by rw [same.attached]; exact h.attached
  slot := by rw [same.slot]; exact h.slot

/-- An entry is put to the others of a list that is kept by manager. -/
theorem home_append {l : Manager → List Entry} {m : Manager} {e : Entry}
    (h : ∀ n, ∀ x ∈ l n, x.Home home n.rank) (own : e.Home home m.rank) (n : Manager) (x : Entry)
    (hx : x ∈ update l m (l m ++ [e]) n) : x.Home home n.rank := by
  by_cases here : n = m
  · subst here
    rw [Function.update_self] at hx
    rcases List.mem_append.mp hx with old | new
    · exact h n x old
    · obtain rfl := List.mem_singleton.mp new
      exact own
  · rw [Function.update_of_ne here] at hx
    exact h n x hx

/-- Entries leave a list that is kept by manager. -/
theorem home_update {l : Manager → List Entry} {m : Manager} {rest : List Entry}
    (h : ∀ n, ∀ x ∈ l n, x.Home home n.rank) (sub : ∀ x ∈ rest, x ∈ l m) (n : Manager) (x : Entry)
    (hx : x ∈ update l m rest n) : x.Home home n.rank := by
  by_cases here : n = m
  · subst here
    rw [Function.update_self] at hx
    exact h n x (sub x hx)
  · rw [Function.update_of_ne here] at hx
    exact h n x hx

theorem home_slot {slot : Dev → Option Entry} {d : Dev} {e : Entry}
    (h : ∀ b x, slot b = some x → x.Home home b.rank) (own : e.Home home d.rank) (b : Dev)
    (x : Entry) (hx : update slot d (some e) b = some x) : x.Home home b.rank := by
  by_cases here : b = d
  · subst here
    rw [Function.update_self] at hx
    obtain rfl := Option.some.inj hx
    exact own
  · rw [Function.update_of_ne here] at hx
    exact h b x hx

theorem exec_homed (hx : exec cfg t o w = some (r, w')) (pre : (tariff home t).pre o)
    (h : w.Homed home) : w'.Homed home := by
  cases o with
  | pushBack m e =>
    obtain ⟨-, rfl⟩ := Prod.mk.inj (Option.some.inj hx)
    rw [World.pushBack_eq]
    exact ⟨home_append h.entries pre.2, h.attached, h.slot⟩
  | «continue» m e f =>
    obtain ⟨-, rfl⟩ := Prod.mk.inj (Option.some.inj hx)
    rw [World.attach_eq]
    exact ⟨h.entries, home_append h.attached pre.2, h.slot⟩
  | popFront m =>
    obtain ⟨rest, front, rfl⟩ := exec_popFront hx
    refine ⟨home_update h.entries fun x hx => ?_, h.attached, h.slot⟩
    rw [front]
    exact List.mem_cons_of_mem _ hx
  | signal c x p =>
    obtain ⟨-, rfl⟩ := Prod.mk.inj (Option.some.inj hx)
    rw [World.signal_eq]
    exact ⟨h.entries, h.attached, h.slot⟩
  | cqPop c =>
    rcases exec_cqPop hx with ⟨-, rfl⟩ | ⟨x, rest, front, -, rfl⟩
    · exact h
    · exact ⟨h.entries, h.attached, h.slot⟩
  | writeSlot d e =>
    obtain ⟨-, rfl⟩ := Prod.mk.inj (Option.some.inj hx)
    exact ⟨h.entries, h.attached, home_slot h.slot pre⟩
  | clearSlot d =>
    obtain ⟨e, slot, eq⟩ := Option.map_eq_some_iff.mp hx
    obtain ⟨-, rfl⟩ := Prod.mk.inj eq
    exact ⟨h.entries, h.attached, home_slot h.slot fun c named => h.slot d e slot c named⟩
  | _ => exact h.same (exec_same hx rfl)

/-- What the replies of operations tell. -/
theorem exec_info (hx : exec cfg t o w = some (r, w')) (h : w.Homed home)
    (data : Coherence cfg .none w) : (tariff home t).info o r := by
  cases o with
  | popFront m =>
    obtain ⟨rest, front, rfl⟩ := exec_popFront hx
    apply h.entries m
    rw [front]
    exact List.mem_cons_self
  | readSlot d =>
    obtain ⟨e, slot, eq⟩ := Option.map_eq_some_iff.mp hx
    obtain ⟨rfl, rfl⟩ := Prod.mk.inj eq
    have own := data.slot d e slot
    exact ⟨h.slot d e slot, own.op, own.coherent.device.symm.trans own.device⟩
  | readRequest p =>
    obtain ⟨q, content, eq⟩ := Option.map_eq_some_iff.mp hx
    obtain ⟨rfl, rfl⟩ := Prod.mk.inj eq
    exact data.heap p q content
  | newRequest q c =>
    obtain ⟨rfl, -⟩ := Prod.mk.inj (Option.some.inj hx)
    rfl
  | readDevice d =>
    obtain ⟨dev, found, eq⟩ := Option.map_eq_some_iff.mp hx
    obtain ⟨rfl, rfl⟩ := Prod.mk.inj eq
    exact (data.table d dev found).manager_rank
  | newDevice =>
    obtain ⟨rfl, -⟩ := Prod.mk.inj (Option.some.inj hx)
    rfl
  | _ => trivial

theorem intr_level {i : Intr} {p : Code Unit} (hi : intr cfg t o i w = some (p, w'))
    (own : ∀ c, i = .call c → ∀ k, c.comp? = some k → home k = t.rank) (h : w.Homed home) :
    w'.Homed home ∧ ∃ x, (tariff home t).Adds p (-x) ∧
      ∀ a, w.Level cfg home a → w'.Level cfg home (a + x) := by
  cases i with
  | call c =>
    obtain ⟨-, callable, rfl, rfl⟩ := intr_call hi
    have same : w.Same (w.pushCall t c) := ⟨rfl, rfl, rfl, rfl, rfl⟩
    have rank (d : Dev) (hd : c.device? = some d) : d.rank = t.rank := by
      simp only [World.callable, Bool.and_eq_true, hd, beq_iff_eq] at callable
      exact callable.1.2.1
    refine ⟨h.same same, 0, ?_, fun a level => ?_⟩
    · rw [neg_zero]
      exact adds_apiCall rank (own c rfl)
    · rw [add_zero]
      exact level.same same rfl
  | continuation m i =>
    obtain ⟨-, -, rank, e, st, found, -, rfl, rfl⟩ := intr_continuation hi
    have mine : e.Home home t.rank := by
      rw [← rank]
      exact h.attached m e (List.mem_of_getElem? found)
    refine ⟨?_, Pi.single t.rank (operation e.request.posted.op), adds_completeCb mine, ?_⟩
    · rw [World.takeContinuation_eq]
      exact ⟨h.entries, home_update h.attached fun x hx => List.mem_of_mem_eraseIdx hx, h.slot⟩
    · intro a level
      rw [← rank]
      exact level_takeContinuation found level

end Steps

variable (cfg home) in
/-- Operations and completions are accounted for in every run. -/
def accounting : Accounting (machine cfg)
    (fun s e => OwnComps cfg home s e ∧ Coherence cfg .none s.shared) (Rank → Balance) where
  inv := World.Homed home
  level := World.Level cfg home
  tariff := tariff home
  exec _ _ _ _ _ _ inv ok _ pre hx :=
    ⟨exec_homed hx pre inv, exec_info hx inv ok.2, fun _ => exec_level hx pre⟩
  intr s t _ _ i _ _ inv ok _ _ hi := by
    refine intr_level hi (fun c call => ?_) inv
    subst call
    exact ok.1
  env _ _ _ inv _ he := by
    obtain ⟨same, counters⟩ := env_same (env_cases he)
    exact ⟨inv.same same, fun _ level => level.same same counters⟩

theorem accounting_start : (accounting cfg home).Balanced (start cfg) := by
  have empty : World.initial.managed = fun _ => 0 := by
    funext m
    simp [World.managed, World.initial, owed]
  have nothing : World.initial.stock cfg home = fun _ => 0 := by
    funext c
    simp [World.stock, World.initial]
  have homed : World.initial.Homed home :=
    ⟨fun _ _ h => (by cases h), fun _ _ h => (by cases h), fun _ _ h => (by cases h)⟩
  have level : World.initial.Level cfg home 0 := by
    refine ⟨0, 0, ?_, ?_, ?_⟩
    · rw [empty]
      exact Sums.zero
    · rw [nothing]
      exact Sums.zero
    · simp [World.initial, nets_zero]
  refine (accounting cfg home).balanced_start homed level fun t => ?_
  unfold Accounting.Settles start
  dsimp only
  split
  · exact ⟨trivial, fun _ v hv => hv.2.trans (add_zero _)⟩
  · exact rfl

/-- No call is in progress, every accepted operation is delivered, every queue is drained. -/
structure Quiescent (s : (machine cfg).State) : Prop where
  idle : ∀ t, (s.prog t = act .userCode ∨ s.prog t = .ret ()) ∧ s.shared.client.acts t = []
  delivered : ∀ p, s.shared.client.accepted p = true →
    ∃ c, ∃ x ∈ s.shared.store.delivered c, x.origin = p
  drained : ∀ c, s.shared.store.cq c = []

variable (home) in
/-- Every process has counted an end for each start, and a consumed completion for each that was
produced if it told no handler. -/
def Tallied (s : (machine cfg).State) : Prop :=
  ∀ r, Conserved (s.shared.counters r) ∧
    ((∀ c, cfg.isHandler c = true → home c = r → s.shared.store.delivered c = []) →
      s.shared.counters r .compProduce = s.shared.counters r .compConsume)

section Claim

variable {s : (machine cfg).State}

/-- What is accepted and delivered is with no manager. -/
theorem nothing_kept (h : System.Reach (fun _ _ => True) (start cfg) s) (rest : Quiescent s) :
    s.shared.managed = fun _ => 0 := by
  have books := (ledgered_of_reach h).books
  have data := coherent_of_reach h
  have away (e : Entry) (op : e.request.posted.op ≠ .putSignal)
      (handed : (s.shared.store.stage e.request).handed = true) :
      (s.shared.store.stage e.request).told = true := by
    rcases books.calls.accounted _ op handed with accepted | ⟨t, a, busy, -⟩
    · obtain ⟨c, x, listed, origin⟩ := rest.delivered _ accepted
      have told := books.filed.told.place_of_mem listed
      rw [origin, toldTo] at told
      by_contra untold
      rw [if_neg untold] at told
      cases told
    · rw [(rest.idle t).2] at busy
      cases busy
  have entries (m : Manager) : s.shared.store.entries m = [] := by
    refine List.eq_nil_iff_forall_not_mem.mpr fun e he => ?_
    have place : (s.shared.store.stage e.request).deque = some m :=
      books.filed.deque.place_of_mem he
    have told := away e (data.entries m e he).op
    cases stage : s.shared.store.stage e.request <;> simp [stage, Stage.deque] at place
    simp [stage, Stage.handed, Stage.told] at told
  have attached (m : Manager) : s.shared.store.attached m = [] := by
    refine List.eq_nil_iff_forall_not_mem.mpr fun e he => ?_
    have place : (s.shared.store.stage e.request).conts = some m :=
      books.filed.conts.place_of_mem he
    have told := away e (data.attached m e he).op
    cases stage : s.shared.store.stage e.request <;> simp [stage, Stage.conts] at place
    simp [stage, Stage.handed, Stage.told] at told
  funext m
  simp [World.managed, entries, attached, owed]

/-- In every run the counters of every process agree at rest. -/
theorem tallied (h : System.Reach (OwnComps cfg home) (start cfg) s) (rest : Quiescent s) :
    Tallied home s := by
  have balanced := (accounting cfg home).reach accounting_start
    (h.strengthen fun _ reached => coherent_of_reach reached)
  have level : s.shared.Level cfg home 0 := by
    refine (accounting cfg home).level_zero balanced fun t v settles => ?_
    unfold Accounting.Settles at settles
    rcases (rest.idle t).1 with idle | idle
    · rw [idle] at settles
      exact Tariff.settled_act () trivial rfl rfl settles
    · rw [idle] at settles
      exact settles
  obtain ⟨q, b, managed, stock, owed⟩ := level
  rw [nothing_kept (h.mono fun _ _ _ => trivial) rest] at managed
  obtain rfl : q = 0 := managed.eq_zero fun _ => rfl
  rw [sub_zero] at owed
  have counted : nets s.shared.counters = b := (sub_eq_zero.mp owed.symm)
  intro r
  have here (l : Api.Law) : Sums (fun c => s.shared.stock cfg home c r l)
      (net (s.shared.counters r) l) := by
    rw [← counted] at stock
    exact (stock.at' r).at' l
  constructor
  · refine conserved_iff.mpr fun k => (here (.op k)).eq_zero fun c => ?_
    have never : (Pi.single (home c) completion : Rank → Balance) r (.op k) = 0 := by
      by_cases own : home c = r
      · subst own
        simp [completion]
      · simp [Ne.symm own]
    cases handler : cfg.isHandler c <;> simp [World.stock, handler, never]
  · intro queues
    have none : net (s.shared.counters r) .comp = 0 := by
      refine (here .comp).eq_zero fun c => ?_
      have drained := rest.drained c
      cases handler : cfg.isHandler c with
      | false => simp [World.stock, handler, drained]
      | true =>
        by_cases own : home c = r
        · simp [World.stock, drained, queues c handler own]
        · simp [World.stock, drained, handler, Ne.symm own]
    simp only [net] at none
    omega

end Claim

section Example

/-- Calls begin and end in their own thread. -/
theorem acts_alone {e : (machine cfg).Event} {s s' : (machine cfg).State} {t u : Tid}
    (alone : e.By t) (other : u ≠ t) (h : System.step s e = some s') :
    s'.shared.client.acts u = s.shared.client.acts u := by
  cases e with
  | exec v =>
    obtain ⟨o, k, r, w, -, hx, rfl⟩ := System.step_exec h
    obtain own | none := alone
    · obtain rfl := Option.some.inj own
      have frame := (exec_frame hx).client
      cases o with
      | pushBack m e =>
        obtain ⟨-, rfl⟩ := Prod.mk.inj (Option.some.inj hx)
        rw [World.pushBack_eq]
        exact noteAdded_acts_of_ne other
      | «continue» m e f =>
        obtain ⟨-, rfl⟩ := Prod.mk.inj (Option.some.inj hx)
        rw [World.attach_eq]
        exact noteAdded_acts_of_ne other
      | endCall x =>
        obtain ⟨-, rfl⟩ := Prod.mk.inj (Option.some.inj hx)
        exact Function.update_of_ne other ..
      | _ => rw [frame rfl]
    · cases none
  | intr v i =>
    obtain ⟨o, k, p, w, -, hi, rfl⟩ := System.step_intr h
    obtain own | none := alone
    · obtain rfl := Option.some.inj own
      cases i with
      | call c =>
        obtain ⟨-, -, -, rfl⟩ := intr_call hi
        exact Function.update_of_ne other ..
      | continuation m i =>
        obtain ⟨-, -, -, e, st, -, -, -, rfl⟩ := intr_continuation hi
        rw [World.takeContinuation_eq]
    · cases none
  | env e =>
    obtain ⟨w, he, rfl⟩ := System.step_env h
    cases env_cases he <;> rfl

/-- One process that polls requests. -/
def job : Config := smallJob .request false 0

private def main : (machine job).Tid := (⟨0, 0⟩ : Tid)

private def message : RequestPtr := ⟨1, ⟨.send, ⟨0, 0⟩, 0, 1, .user 0, 2, 0⟩, some 5⟩

/-- A process sends two bytes, makes progress, and polls the completion. -/
private def sendRun : List (machine job).Event :=
  .intr main (.call (.allocDevice 4 (some 7)) : Intr) :: steps job main 10 ++
    .intr main (.call (.send ⟨0, 0⟩ 0 1 (.user 0) 2 (some 5) 0) : Intr) :: steps job main 8 ++
    .env (.sendDone ⟨1, ⟨⟨0, 0⟩, 0⟩, message⟩ : Env) ::
    .intr main (.call (.doProgress ⟨0, 0⟩) : Intr) :: steps job main 21 ++
    .intr main (.call (.pollCq 5) : Intr) :: steps job main 5

private theorem sendRun_ends : (System.run (start job) sendRun).isSome := by decide +kernel

private theorem sendRun_alone : ∀ e ∈ sendRun, e.By main := by decide +kernel

private def last : (machine job).State := (System.run (start job) sendRun).get sendRun_ends

private theorem last_prog : last.prog main = .ret () := rfl

private theorem last_acts : last.shared.client.acts main = [] := rfl

private theorem last_accepted :
    last.shared.client.accepted = update (fun _ => false) message true := rfl

private theorem last_told : ⟨message.posted, message, []⟩ ∈ last.shared.store.delivered 5 := by
  decide +kernel

private theorem last_cq : last.shared.store.cq =
    update (update (fun _ => []) 5 [⟨message.posted, message, []⟩]) 5 [] := rfl

private theorem last_counters : last.shared.counters 0 .sendStart = 1 ∧
    last.shared.counters 0 .compProduce = 1 := by decide +kernel

private theorem sendRun_own (e : (machine job).Event) (listed : e ∈ sendRun)
    (s : (machine job).State) : OwnComps job (fun _ => 0) s e := by
  cases e with
  | intr u i =>
    cases i with
    | call c =>
      intro k _
      rcases sendRun_alone _ listed with mine | none
      · obtain rfl := Option.some.inj mine
        rfl
      · cases none
    | continuation m i => trivial
  | exec u => trivial
  | env e => trivial

theorem send_at_rest : ∃ s : (machine job).State,
    System.Reach (OwnComps job fun _ => 0) (start job) s ∧ Quiescent s ∧
        s.shared.counters 0 .sendStart = 1 ∧ s.shared.counters 0 .compProduce = 1 := by
  have run : System.run (start job) sendRun = some last := (Option.some_get sendRun_ends).symm
  have reached := System.reach_run run (System.admitted_of_mem sendRun_own _)
  refine ⟨last, reached, ⟨fun u => ?_, fun q accepted => ?_, fun c => ?_⟩, last_counters⟩
  · by_cases mine : u = main
    · subst mine
      exact ⟨.inr last_prog, last_acts⟩
    · have acts : last.shared.client.acts u = [] :=
        System.run_keeps (fun _ _ _ alone h => acts_alone alone mine h) sendRun_alone run
      refine ⟨?_, acts⟩
      rw [System.run_alone sendRun_alone mine run]
      unfold start
      dsimp only
      split
      · exact .inl rfl
      · exact .inr rfl
  · have own : q = message := by
      by_contra other
      rw [last_accepted, Function.update_of_ne other] at accepted
      cases accepted
    exact ⟨5, _, last_told, own.symm⟩
  · simp [last_cq]

end Example

end Lcw.Mpi
