/- digest: Every operation does to its own account what the contract says, and frames the others. -/

import Lcw.Mpi.LedgerViews

set_option autoImplicit false
set_option relaxedAutoImplicit false

namespace Lcw.Mpi

open Interleave
open Function (update)

variable {cfg : Config} {P : PutRules cfg} {G : Guard} {t u : Tid} {w w' : World}

section PutReceive

/-- The narrowing to `int` keeps tags up to `max_tag` apart. -/
theorem PutRules.toInt_tag (on : P.tagged = true) {tag : Int} (lo : 0 ≤ tag)
    (hi : tag ≤ cfg.maxTag) : toInt tag = tag := by
  obtain ⟨-, bound⟩ := P.tags on
  simp only [intMax] at bound
  apply toInt_of_range
  · omega
  · omega

theorem UserTag.ne_put {tag : Int} (h : UserTag cfg tag) (on : P.tagged = true) :
    toInt tag ≠ toInt cfg.maxTag := by
  obtain ⟨lo, hi⟩ := h
  rw [P.toInt_tag on lo (by omega), P.toInt_tag on (P.tags on).1 le_rfl]
  omega

/-- Under the tag rules put receives are only ever matched by puts. -/
theorem Message.For.isPut {h : Handle} {q : MpiRequest} {st : Status} {m : Message}
    (hm : Message.For P w h q st m) (on : P.tagged = true) (hq : q.Ok P w h)
    (op : h.request.posted.op = .putSignal) : m.request.posted.op = .put := by
  have sameTag : toInt m.request.posted.tag = toInt cfg.maxTag := by
    rw [← hm.ok.tag, hm.sameTag, hq.tag, hq.putTag op]
  rcases hm.ok.op with send | put
  · exact absurd sameTag ((hm.ok.send on send).ne_put on)
  · exact put

/-- Under the put rules a put receive is only ever matched by a put that fits it. -/
theorem Message.For.fits {h : Handle} {q : MpiRequest} {st : Status} {m : Message}
    (hm : Message.For P w h q st m) (on : P.on = true) (hq : q.Ok P w h)
    (op : h.request.posted.op = .putSignal) :
    m.request.posted.op = .put ∧ m.payload.length ≤ intMax ∧
      m.payload.length ≤ toSize h.request.posted.length := by
  have size := hq.put on op
  have isPut := hm.isPut (P.both on) hq op
  obtain ⟨typed, small, fits⟩ := hm.ok.put on isPut
  have length := hm.ok.length
  have bound : (intMax : Int) < 2 ^ 64 := by decide
  have nonneg : 0 ≤ m.request.posted.length := by
    have started := hm.ok.admitted
    rw [length] at started
    unfold toSize intMax at started
    omega
  rw [length, toSize_of_range nonneg (by omega)]
  refine ⟨isPut, ?_, ?_⟩
  · omega
  · rw [size, ← hm.dst, ← hm.context]
    omega

/-- A put receive that is complete has not been truncated, under the put rules. -/
theorem Matching.not_truncated (h : Matching P w) (on : P.on = true) {x : Handle} {q : MpiRequest}
    {st : Status} (hq : w.net.reqs x = some q) (op : x.request.posted.op = .putSignal)
    (done : q.state = .complete st) : st.error = false := by
  have ok := h.req x q hq
  have recv : q.isRecv = true := ok.recv.mpr (.inr op)
  obtain ⟨m, hm⟩ := (h.complete x q st hq done).recv recv
  obtain ⟨-, -, fits⟩ := hm.fits on ok op
  have room : q.layout.length = toSize x.request.posted.length := by
    rw [ok.layout recv, length_consecutive]
  by_contra error
  have truncated := hm.error.mp (by simpa using error)
  omega

/-- The put receive a thread may test is the one its slot holds. -/
theorem Slots.receive (h : Slots P w) {x : Handle} (may : (account t w).MayTest x)
    (op : x.request.posted.op = .putSignal) : Controls t w x.comm.device ∧
      ∃ q, Loaded w x.comm.device x q ∧ w.store.stage x.request = .armed x.comm.device ∧
        w.store.heap x.request = some x.request.posted ∧ w.net.result x.request = none ∧
          w.pend.permitOf x.request = none := by
  obtain ⟨s, e, hs, phase, entry, handle⟩ := may.slot op
  obtain ⟨controls, rfl⟩ := slotOf_eq_some.mp hs
  obtain ⟨e', x', q, entry', handle', loaded, stage, heap, result, permit⟩ := (h.listening _).armed phase
  obtain rfl : e = e' := Option.some.inj (entry.symm.trans entry')
  obtain rfl : x = x' := Option.some.inj (handle.symm.trans handle')
  exact ⟨controls, q, loaded, stage, heap, result, permit⟩

/-- A resting put slot. -/
theorem Books.armed_slot (h : Books P w) (coh : Coherence cfg G w) {d : Dev}
    (phase : w.net.phase d = .armed) (built : w.devs.builder d = none) :
    (slotView w d).Armed P d := by
  obtain ⟨e, x, q, entry, handle, loaded, -⟩ := (h.slots.listening d).armed phase
  have mine := coh.slot d e entry
  have request := (mine.coherent.handle x handle).2
  refine ⟨fun on => ?_, phase, by simp [slotView, built],
    ⟨e, x, entry, handle, ?_, mine, ?_⟩, ?_⟩
  · exact h.slots.comp on d (.inr (by simp [phase]))
  · rw [mine.coherent.completion, ← request]
    exact loaded.comp
  · rw [← request]
    exact loaded.buffer
  · have admitted := (h.matching.req x q loaded.req).admitted
    rw [loaded.size] at admitted
    exact admitted

end PutReceive

section Inversion

variable (t w) in
/-- What `MPI_Test` on a request can answer, and what it then changes. -/
inductive Tested (x : Handle) : TestResult → World → Prop
  | notYet : Tested x .notYet w
  | failed (dead : ∀ q, w.net.reqs x = some q →
      q.state = .consumed ∨ ∃ st, q.state = .complete st ∧ st.error = true) : Tested x .failed w
  | taken (q : MpiRequest) (st : Status) (hq : w.net.reqs x = some q)
      (done : q.state = .complete st) (ok : st.error = false)
      (op : x.request.posted.op = .putSignal) :
      Tested x (.done st) ((((w.setReq x { q with state := .consumed }).setResult
        x.request st).setPhase x.comm.device (.taken st)).setStage x.request (.owned t .held))
  | done (q : MpiRequest) (st : Status) (hq : w.net.reqs x = some q)
      (done : q.state = .complete st) (ok : st.error = false)
      (op : x.request.posted.op ≠ .putSignal) :
      Tested x (.done st) ((w.setReq x { q with state := .consumed }).setResult x.request st)

theorem exec_test {x : Handle} {r : TestResult}
    (hx : exec cfg t (.test (some x)) w = some (r, w')) : Tested t w x r w' := by
  replace hx := Option.some.inj hx
  unfold World.test at hx
  cases hq : w.net.reqs x with
  | none =>
    simp only [hq] at hx
    cases hx
    exact .failed (by simp [hq])
  | some q =>
    simp only [hq] at hx
    cases done : q.state with
    | pending =>
      simp only [done] at hx
      cases hx
      exact .notYet
    | consumed =>
      simp only [done] at hx
      cases hx
      exact .failed fun q' hq' => .inl (by cases hq.symm.trans hq'; exact done)
    | complete st =>
      simp only [done] at hx
      by_cases error : st.error = true
      · rw [if_pos error] at hx
        cases hx
        exact .failed fun q' hq' => .inr ⟨st, by cases hq.symm.trans hq'; exact done, error⟩
      · rw [if_neg error] at hx
        have ok : st.error = false := by simpa using error
        by_cases op : x.request.posted.op = .putSignal
        · rw [if_pos op] at hx
          cases hx
          exact .taken q st hq done ok op
        · rw [if_neg op] at hx
          cases hx
          exact .done q st hq done ok op

theorem exec_cqPop {c : Comp} {r : Option Request} (hx : exec cfg t (.cqPop c) w = some (r, w')) :
    r = none ∧ w' = w ∨ ∃ x rest, w.store.cq c = x :: rest ∧ r = some x.request ∧
      w' = { w with store := { w.store with
        cq := update w.store.cq c rest
        polled := update w.store.polled c (w.store.polled c ++ [x]) } } := by
  replace hx := Option.some.inj hx
  unfold World.cqPop at hx
  cases hc : w.store.cq c with
  | nil =>
    simp only [hc] at hx
    cases hx
    exact .inl ⟨rfl, rfl⟩
  | cons x rest =>
    simp only [hc] at hx
    cases hx
    exact .inr ⟨x, rest, rfl, rfl, rfl⟩

theorem exec_popFront {m : Manager} {e : Entry} (hx : exec cfg t (.popFront m) w = some (e, w')) :
    ∃ rest, w.store.entries m = e :: rest ∧ w' = w.popFront t m e rest := by
  simp only [exec] at hx
  cases front : w.store.entries m with
  | nil =>
    simp only [front] at hx
    cases hx
  | cons e' rest =>
    simp only [front] at hx
    cases hx
    exact ⟨rest, rfl, rfl⟩

/-- Entries move only by `push_back` and `pop_front`. -/
theorem exec_entries {o : Op} {r : o.Ret} (hx : exec cfg t o w = some (r, w'))
    (push : ∀ m e, o ≠ .pushBack m e) (pop : ∀ m, o ≠ .popFront m) :
    w'.store.entries = w.store.entries := by
  cases o with
  | pushBack m e => exact absurd rfl (push m e)
  | popFront m => exact absurd rfl (pop m)
  | «continue» m e f =>
    cases hx
    rw [World.attach_eq]
  | signal c q p =>
    cases hx
    rw [World.signal_eq]
  | cqPop c =>
    rcases exec_cqPop hx with ⟨-, rfl⟩ | ⟨x, rest, -, -, rfl⟩ <;> rfl
  | writeSlot d e =>
    cases hx
    rfl
  | clearSlot d =>
    obtain ⟨_, -, e⟩ := Option.map_eq_some_iff.mp hx
    cases e
    rfl
  | _ => exact (exec_same hx rfl).entries

/-- Only a signal delivers anything. -/
theorem exec_delivered {o : Op} {r : o.Ret} (hx : exec cfg t o w = some (r, w')) :
    w'.store.delivered = w.store.delivered ∨ ∃ c q p, o = .signal c q p ∧
      w'.store.delivered = update w.store.delivered c (w.store.delivered c ++ [w.delivery q p]) := by
  cases files : o.files with
  | false => exact .inl (exec_same hx files).delivered
  | true =>
    cases o with
    | signal c q p =>
      cases hx
      exact .inr ⟨c, q, p, rfl, by rw [World.signal_eq]⟩
    | pushBack m e =>
      cases hx
      exact .inl (by rw [World.pushBack_eq])
    | «continue» m e f =>
      cases hx
      exact .inl (by rw [World.attach_eq])
    | popFront m =>
      obtain ⟨rest, -, rfl⟩ := exec_popFront hx
      exact .inl rfl
    | cqPop c =>
      rcases exec_cqPop hx with ⟨-, rfl⟩ | ⟨x, rest, -, -, rfl⟩ <;> exact .inl rfl
    | writeSlot d e =>
      cases hx
      exact .inl rfl
    | clearSlot d =>
      obtain ⟨_, -, e⟩ := Option.map_eq_some_iff.mp hx
      cases e
      exact .inl rfl
    | _ => cases files

theorem exec_isend {a : Buffer} {n : Int} {ty : Datatype} {dest tag : Int} {comm : Comm}
    {p : RequestPtr} {r : Option (Option Handle)}
    (hx : exec cfg t (.isend a n ty dest tag comm p) w = some (r, w')) :
    r = none ∧ w' = w ∨ cfg.validSend dest tag = true ∧
      r = some (w.isend cfg t a (Datatype.layout n ty) dest tag comm p).1 ∧
        w' = (w.isend cfg t a (Datatype.layout n ty) dest tag comm p).2 := by
  simp only [exec] at hx
  split at hx
  · rename_i valid
    cases hx
    exact .inr ⟨valid, rfl, rfl⟩
  · cases hx
    exact .inl ⟨rfl, rfl⟩

theorem exec_irecv {a : Buffer} {n : Int} {ty : Datatype} {source tag : Int} {comm : Comm}
    {p : RequestPtr} {r : Option (Option Handle)}
    (hx : exec cfg t (.irecv a n ty source tag comm p) w = some (r, w')) :
    r = none ∧ w' = w ∧ cfg.validRecv source tag = false ∨
      r = some (w.irecv cfg t a (Datatype.layout n ty) source tag comm p).1 ∧
        w' = (w.irecv cfg t a (Datatype.layout n ty) source tag comm p).2 := by
  simp only [exec] at hx
  split at hx
  · cases hx
    exact .inr ⟨rfl, rfl⟩
  · rename_i invalid
    cases hx
    refine .inl ⟨rfl, rfl, ?_⟩
    simpa using invalid

end Inversion

section Moves

theorem phase_ne_unborn {d d' : Dev} {x : Phase} (hx : x ≠ .unborn)
    (h : w.net.phase d' ≠ .unborn) : update w.net.phase d x d' ≠ .unborn := by
  by_cases e : d' = d
  · subst e
    rwa [Function.update_self]
  · rwa [Function.update_of_ne e]

theorem Filed.queued_of_mem (h : Filed cfg w) {m : Manager} {e : Entry}
    (he : e ∈ w.store.entries m) : w.store.stage e.request = .queued m := by
  have place := h.deque.place_of_mem he
  simp only [Function.comp] at place
  cases hs : w.store.stage e.request <;> simp_all [Stage.deque]

theorem Filed.attached_of_mem (h : Filed cfg w) {m : Manager} {e : Entry}
    (he : e ∈ w.store.attached m) : w.store.stage e.request = .attached m := by
  have place := h.conts.place_of_mem he
  simp only [Function.comp] at place
  cases hs : w.store.stage e.request <;> simp_all [Stage.conts]

/-- How a thread moves an operation from stage to stage. -/
inductive StageMove (t : Tid) : Stage → Stage → Prop
  | post : StageMove t .unborn (.owned t .posting)
  | start : StageMove t (.owned t .posting) (.owned t .started)
  | queue (k : Owning) (m : Manager) (hk : k = .started ∨ k = .held) :
    StageMove t (.owned t k) (.queued m)
  | attach (k : Owning) (m : Manager) (hk : k = .started ∨ k = .held) :
    StageMove t (.owned t k) (.attached m)
  | pop (m : Manager) : StageMove t (.queued m) (.owned t .held)
  | take (m : Manager) : StageMove t (.attached m) (.owned t .held)
  | arm (d : Dev) : StageMove t (.owned t .started) (.armed d)
  | receive (d : Dev) : StageMove t (.armed d) (.owned t .held)
  | tell : StageMove t (.owned t .held) (.owned t .spent)
  | delete : StageMove t (.owned t .spent) .gone

theorem StageMove.begun {s s' : Stage} (h : StageMove t s s') (hb : s.begun = true) :
    s'.begun = true := by
  cases h <;> first | rfl | exact hb

theorem StageMove.handed {s s' : Stage} (h : StageMove t s s') (hb : s.handed = true) :
    s'.handed = true := by
  cases h <;> first | rfl | exact hb

theorem StageMove.told {s s' : Stage} (h : StageMove t s s') (hb : s.told = true) :
    s'.told = true := by
  cases h with
  | queue k m hk | attach k m hk => rcases hk with rfl | rfl <;> cases hb
  | delete => rfl
  | tell => rfl
  | _ => cases hb

theorem StageMove.born {s s' : Stage} (h : StageMove t s s') : s' ≠ .unborn := by
  cases h <;> simp

/-- At most one operation changes its stage, by a move of the thread; one that is told has no
permit left, and named a completion object. -/
def Moved (t : Tid) (w w' : World) : Prop :=
  w'.store.stage = w.store.stage ∨ ∃ p s, StageMove t (w.store.stage p) s ∧
    w'.store.stage = update w.store.stage p s ∧ (s.told = true → w.pend.permitOf p = none ∧
      ((w.store.stage p).told = true ∨ p.completion ≠ none))

theorem Moved.of_self (h : w'.store.stage = w.store.stage) : Moved t w w' := .inl h

/-- What no move undoes is kept. -/
theorem Moved.keeps {Q : Stage → Prop} (h : Moved t w w')
    (keep : ∀ s s', StageMove t s s' → Q s → Q s') {p : RequestPtr} (hp : Q (w.store.stage p)) :
    Q (w'.store.stage p) := by
  rcases h with same | ⟨p', s, move, stage, -⟩
  · rw [same]
    exact hp
  · rw [stage]
    by_cases e : p = p'
    · subst e
      rw [Function.update_self]
      exact keep _ _ move hp
    · rw [Function.update_of_ne e]
      exact hp

theorem Moved.untold (h : Moved t w w') {p : RequestPtr} (quiet : (w.store.stage p).told = false)
    (permit : w.pend.permitOf p ≠ none) : (w'.store.stage p).told = false := by
  rcases h with same | ⟨p', s, move, stage, free⟩
  · rw [same]
    exact quiet
  · rw [stage]
    by_cases e : p = p'
    · subst e
      rw [Function.update_self]
      by_contra told
      exact permit (free (by simpa using told)).1
    · rw [Function.update_of_ne e]
      exact quiet

theorem Moved.named (h : Moved t w w')
    (named : ∀ p, (w.store.stage p).told = true → p.completion ≠ none) (p : RequestPtr)
    (told : (w'.store.stage p).told = true) : p.completion ≠ none := by
  rcases h with same | ⟨p', s, -, stage, free⟩
  · rw [same] at told
    exact named p told
  · rw [stage] at told
    by_cases e : p = p'
    · subst e
      rw [Function.update_self] at told
      exact (free told).2.elim (named p) id
    · rw [Function.update_of_ne e] at told
      exact named p told

theorem Moved.begun (h : Moved t w w') {p : RequestPtr} (hp : (w.store.stage p).begun = true) :
    (w'.store.stage p).begun = true :=
  h.keeps (Q := fun s => s.begun = true) (fun _ _ move => move.begun) hp

theorem Moved.handed (h : Moved t w w') {p : RequestPtr} (hp : (w.store.stage p).handed = true) :
    (w'.store.stage p).handed = true :=
  h.keeps (Q := fun s => s.handed = true) (fun _ _ move => move.handed) hp

theorem Moved.born (h : Moved t w w') {p : RequestPtr} (hp : w.store.stage p ≠ .unborn) :
    w'.store.stage p ≠ .unborn :=
  h.keeps (Q := fun s => s ≠ .unborn) (fun _ _ move _ => move.born) hp

/-- The stage moves of every operation. -/
theorem exec_moved (h : Books P w) {o : Op} {r : o.Ret} (pre : ledgerPre P t o (account t w))
    (hx : exec cfg t o w = some (r, w')) : Moved t w w' := by
  have pre := pre.2
  cases o with
  | newRequest q c =>
    cases hx
    have unborn := h.filed.fresh q c
    refine .inr ⟨w.freshPtr q c, _, ?_, by rw [World.newRequest_eq], by simp [Stage.told]⟩
    rw [unborn]
    exact .post
  | deleteRequest p =>
    obtain ⟨x, hx', kind, free⟩ := pre
    obtain ⟨stage, -, -, permit⟩ := tokenOf_eq_some.mp hx'
    obtain ⟨q, -, e⟩ := Option.map_eq_some_iff.mp hx
    cases e
    refine .inr ⟨p, .gone, ?_, rfl, fun _ => ⟨permit.trans free, .inl (by simp [stage, kind,
      Stage.told])⟩⟩
    rw [stage, kind]
    exact .delete
  | pushBack m e =>
    cases hx
    obtain ⟨x, hx', -, -, -, kind⟩ := pre.token
    have stage := (tokenOf_eq_some.mp hx').1
    refine .inr ⟨e.request, .queued m, ?_, by rw [World.pushBack_eq], nofun⟩
    rw [stage]
    exact .queue _ m (by rcases kind with k | k <;> simp [k])
  | «continue» m e f =>
    cases hx
    obtain ⟨x, hx', -, -, -, kind⟩ := pre.2.token
    have stage := (tokenOf_eq_some.mp hx').1
    refine .inr ⟨e.request, .attached m, ?_, by rw [World.attach_eq], nofun⟩
    rw [stage]
    exact .attach _ m (by rcases kind with k | k <;> simp [k])
  | popFront m =>
    obtain ⟨rest, front, rfl⟩ := exec_popFront hx
    have queued := h.filed.queued_of_mem (front ▸ List.mem_cons_self)
    refine .inr ⟨Entry.request r, _, ?_, rfl, nofun⟩
    rw [queued]
    exact .pop m
  | writeSlot d e =>
    obtain ⟨s, x, -, -, -, token⟩ := pre
    have stage := (tokenOf_eq_some.mp token).1
    cases hx
    refine .inr ⟨e.request, .armed d, ?_, rfl, nofun⟩
    rw [stage]
    exact .arm d
  | isend a n ty dest tag comm p =>
    obtain ⟨x, hx', kind, -⟩ := pre.token
    have stage := (tokenOf_eq_some.mp hx').1
    rcases exec_isend hx with ⟨-, rfl⟩ | ⟨-, -, rfl⟩
    · exact .of_self rfl
    · refine .inr ⟨p, .owned t .started, ?_, by rw [World.isend_eq], nofun⟩
      rw [stage, kind]
      exact .start
  | irecv a n ty source tag comm p =>
    have token : ∃ x, (account t w).token p = some x ∧ x.kind = .posting ∧ x.result = none := by
      rcases pre with pre | pre
      · exact pre.token
      · exact pre.token
    obtain ⟨x, hx', kind, -⟩ := token
    have stage := (tokenOf_eq_some.mp hx').1
    rcases exec_irecv hx with ⟨-, rfl, -⟩ | ⟨-, rfl⟩
    · exact .of_self rfl
    · refine .inr ⟨p, .owned t .started, ?_, by rw [World.irecv_eq], nofun⟩
      rw [stage, kind]
      exact .start
  | test x =>
    cases x with
    | none =>
      cases hx
      exact .of_self rfl
    | some x =>
      cases exec_test hx with
      | taken q st hq done ok op =>
        obtain ⟨-, -, -, stage, -⟩ := h.slots.receive pre op
        refine .inr ⟨x.request, .owned t .held, ?_, rfl, nofun⟩
        rw [stage]
        exact .receive _
      | _ => exact .of_self rfl
  | signal c q p =>
    obtain ⟨st, token, -⟩ := pre.token
    obtain ⟨stage, -, -, permit⟩ := tokenOf_eq_some.mp token
    cases hx
    refine .inr ⟨p, .owned t .spent, ?_, by rw [World.signal_eq], fun _ => ⟨permit, .inr ?_⟩⟩
    · rw [stage]
      exact .tell
    · simp [pre.completion]
  | writeRequest p q | clearSlot d =>
    obtain ⟨_, -, e⟩ := Option.map_eq_some_iff.mp hx
    cases e
    exact .of_self rfl
  | cqPop c =>
    rcases exec_cqPop hx with ⟨-, rfl⟩ | ⟨x, rest, -, -, rfl⟩ <;> exact .of_self rfl
  | _ => exact .of_self (congrArg Store.stage ((exec_frame hx).store rfl))

/-- A continuation MPI runs is taken by the thread that runs it. -/
theorem Filed.moved_takeContinuation (h : Filed cfg w) {o : Op} {m : Manager} {i : Nat} {e : Entry}
    {st : Status} (found : (w.store.attached m)[i]? = some e) :
    Moved t w (w.takeContinuation t o m i e st) := by
  refine .inr ⟨e.request, .owned t .held, ?_, ?_, nofun⟩
  · rw [h.attached_of_mem (List.mem_of_getElem? found)]
    exact .take m
  · rw [World.takeContinuation_eq]

end Moves

section OwnAccount

variable {h : Handle}

theorem post_start {null : Bool} {comm : Comm} {p : RequestPtr} {q : MpiRequest} {x : Token}
    (hx : (account t w).token p = some x) (result : x.result = none) :
    (account t w).Started cfg (account t (w.start cfg t null comm p q).2) p
      (w.start cfg t null comm p q).1 := by
  refine ⟨x, hx, ?_⟩
  rw [account_start_self hx result, atOnce, start_isNone]

theorem post_isend {a : Buffer} {n : Int} {ty : Datatype} {dest tag : Int} {comm : Comm}
    {p : RequestPtr} {r : Option (Option Handle)}
    (pre : (account t w).MaySend P t a n ty dest tag comm p)
    (hx : exec cfg t (.isend a n ty dest tag comm p) w = some (r, w')) :
    ledgerPost P t (.isend a n ty dest tag comm p) (account t w) r (account t w') := by
  obtain ⟨x, hx', -, result⟩ := pre.token
  rcases exec_isend hx with ⟨rfl, rfl⟩ | ⟨-, rfl, rfl⟩
  · rfl
  · exact post_start (w := w.enqueue _) hx' result

theorem post_irecv {a : Buffer} {n : Int} {ty : Datatype} {source tag : Int} {comm : Comm}
    {p : RequestPtr} {r : Option (Option Handle)}
    (pre : (account t w).MayRecv P a n ty source tag comm p ∨
      (account t w).MayListen P a n ty source tag comm p)
    (hx : exec cfg t (.irecv a n ty source tag comm p) w = some (r, w')) :
    ledgerPost P t (.irecv a n ty source tag comm p) (account t w) r (account t w') := by
  rcases exec_irecv hx with ⟨rfl, rfl, invalid⟩ | ⟨rfl, rfl⟩
  · refine ⟨rfl, fun on op => ?_⟩
    rcases pre with pre | pre
    · simp [pre.op] at op
    · have lo := (P.tags (P.both on)).1
      have narrow : toInt cfg.maxTag = cfg.maxTag := P.toInt_tag (P.both on) lo le_rfl
      have valid : cfg.validRecv source tag = true := by
        simp [Config.validRecv, pre.peer, pre.narrowed, pre.putTag, narrow, lo]
      simp [valid] at invalid
  · by_cases op : p.posted.op = .putSignal
    · have listen : (account t w).MayListen P a n ty source tag comm p := by
        rcases pre with pre | pre
        · exact absurd op (by simp [pre.op])
        · exact pre
      obtain ⟨x, hx', -, result⟩ := listen.token
      obtain ⟨s, hs, -⟩ := listen.slot
      have handle : (w.irecv cfg t a (Datatype.layout n ty) source tag comm p).1 =
          some (w.freshHandle comm p) := by
        simp [World.irecv, World.expect, op, World.start, listen.peer, World.freshHandle,
          World.setPhase]
      have phase : account t (w.expect comm p) = (account t w).setSlot p.posted.device
          (some { s with phase := .reposted (w.freshHandle comm p), rbuf := [] }) := by
        unfold World.expect
        rw [if_pos op, listen.device]
        exact account_setPhase_self rfl hs
      have token : (account t (w.expect comm p)).token p = some x := by
        rw [phase]
        exact hx'
      obtain ⟨y, hy, started⟩ : (account t (w.expect comm p)).Started cfg
          (account t (w.irecv cfg t a (Datatype.layout n ty) source tag comm p).2) p
          (w.irecv cfg t a (Datatype.layout n ty) source tag comm p).1 := post_start token result
      obtain rfl : x = y := Option.some.inj (token.symm.trans hy)
      simp only [ledgerPost, if_pos op]
      refine ⟨s, w.freshHandle comm p, (account t w).setToken p (some { x with
        kind := .started, result := none }), hs, handle, ⟨x, hx', ?_⟩, ?_⟩
      · rw [handle]
        rfl
      · rw [started, phase, handle]
        rfl
    · have user : (account t w).MayRecv P a n ty source tag comm p := by
        rcases pre with pre | pre
        · exact pre
        · exact absurd pre.op op
      obtain ⟨x, hx', -, result⟩ := user.token
      have same : w.expect comm p = w := if_neg op
      simp only [ledgerPost, if_neg op]
      unfold World.irecv
      rw [same]
      exact post_start hx' result

theorem post_test (h : Books P w) {x : Handle} {r : TestResult} (may : (account t w).MayTest x)
    (hx : exec cfg t (.test (some x)) w = some (r, w')) :
    ledgerPost P t (.test (some x)) (account t w) r (account t w') := by
  cases exec_test hx with
  | notYet => rfl
  | failed dead =>
    refine ⟨rfl, fun on op => ?_⟩
    obtain ⟨-, q, loaded, -⟩ := h.slots.receive may op
    rcases dead q loaded.req with consumed | ⟨st, done, error⟩
    · exact loaded.live consumed
    · have whole := h.matching.not_truncated on loaded.req op done
      simp [whole] at error
  | taken q st hq done ok op =>
    obtain ⟨controls, q', loaded, stage, heap, -, permit⟩ := h.slots.receive may op
    obtain rfl : q = q' := Option.some.inj (hq.symm.trans loaded.req)
    obtain ⟨s, e, hs, -⟩ := may.slot op
    obtain ⟨m, message, -, stored⟩ := loaded.stored st done ok
    obtain ⟨m', hm⟩ := (h.matching.complete x q st hq done).recv
      ((h.matching.req x q hq).recv.mpr (.inr op))
    obtain rfl : m = m' := Option.some.inj (message.symm.trans hm.message)
    simp only [ledgerPost, if_pos op]
    refine ⟨tokenOf_eq_none (by simp [stage]), s,
      { s with phase := .taken st, rbuf := w.memory.bytes (.putRbuf x.comm.device) }, hs,
      ⟨rfl, m, message, hm.ok, stored, fun on => ?_⟩, rfl, ?_⟩
    · exact (hm.fits on (h.matching.req x q hq) op).2.1
    · rw [account_testTaken_self hs, heap, permit]
  | done q st hq done ok op =>
    obtain ⟨y, hy, -⟩ := may.held op
    simp only [ledgerPost, if_neg op]
    exact ⟨y, hy, account_testDone_self hy⟩

/-- Every operation does to its thread's account what the contract says. -/
theorem ledgerPost_exec (h : Books P w) (coh : Coherence cfg G w) {o : Op} {r : o.Ret}
    (locks : structurePre cfg G t o (stance t w)) (pre : ledgerPre P t o (account t w))
    (hx : exec cfg t o w = some (r, w')) : ledgerPost P t o (account t w) r (account t w') := by
  have pre := pre.2
  have locks := locks.2
  cases o with
  | endCall x =>
    cases hx
    exact account_endCall_self h.slots pre
  | loadPending =>
    cases hx
    exact account_loadPending_self
  | fetchAddPending =>
    cases hx
    exact ⟨_, account_fetchAddPending_self⟩
  | fetchSubPending p =>
    cases hx
    obtain ⟨-, x, hx, -⟩ := pre
    exact ⟨x, hx, account_fetchSubPending_self hx⟩
  | lock l =>
    simp only [exec] at hx
    split at hx <;> cases hx
    refine account_setOwner fun d e => ?_
    subst e
    exact locks
  | tryLock l =>
    simp only [exec] at hx
    split at hx
    · rename_i free
      cases hx
      cases l with
      | put d =>
        obtain ⟨a, rest, top⟩ := pre
        have ok := (h.calls.ok t ⟨.doProgress d, a⟩ (by
          rw [show w.client.acts t = _ from top]
          exact List.mem_cons_self)).device d rfl
        obtain ⟨-, built, born⟩ := ok
        have phase : w.net.phase d = .armed := by
          rcases h.slots.free d free built with unborn | armed
          · exact absurd unborn born
          · exact armed
        refine ⟨slotOf_eq_none ?_, slotView w d, h.armed_slot coh phase built,
          account_lockPut_self⟩
        simp [Controls, free, built]
      | _ => exact account_setOwner (by simp)
    · cases hx
      cases l <;> rfl
  | unlock l =>
    cases hx
    cases l with
    | put d =>
      have mine : w.sync.owner (.put d) = some t := locks.1
      exact account_unlockPut_self (h.slots.locked d (by simp [mine])).1
    | _ => exact account_setOwner (by simp)
  | newRequest q c =>
    cases hx
    have fits : (w.pend.permit t).isSome = true → q.op = .send ∨ q.op = .put := by
      intro some
      rcases pre with post | arm
      · exact (post.permit.mp some).2
      · have none : w.pend.permit t = none := arm.permit
        simp [none] at some
    exact ⟨tokenOf_eq_none (by simp [h.filed.fresh q c]), account_newRequest_self h fits⟩
  | readRequest p =>
    obtain ⟨q, hq, e⟩ := Option.map_eq_some_iff.mp hx
    cases e
    obtain ⟨x, hx, -⟩ := pre
    have heap := (tokenOf_eq_some.mp hx).2.1
    exact ⟨rfl, x, hx, heap.symm.trans hq⟩
  | writeRequest p q =>
    obtain ⟨_, -, e⟩ := Option.map_eq_some_iff.mp hx
    cases e
    obtain ⟨x, hx, -⟩ := pre
    exact ⟨x, hx, account_writeRequest_self hx⟩
  | deleteRequest p =>
    obtain ⟨_, -, e⟩ := Option.map_eq_some_iff.mp hx
    cases e
    exact account_deleteRequest_self
  | pushBack m e =>
    cases hx
    obtain ⟨x, hx, -⟩ := pre.token
    exact ⟨x, hx, account_pushBack_self hx⟩
  | popFront m =>
    obtain ⟨rest, front, rfl⟩ := exec_popFront hx
    have here : r ∈ w.store.entries m := front ▸ List.mem_cons_self
    have queued := h.filed.queued_of_mem here
    have waits := h.contents.entries m r here
    refine ⟨tokenOf_eq_none (by simp [queued]), _, waits.permit, ?_⟩
    rw [account_popFront_self, waits.content, waits.result]
  | slotRequest d =>
    obtain ⟨e, he, x⟩ := Option.map_eq_some_iff.mp hx
    cases x
    refine ⟨rfl, fun s hs => ⟨e, ?_, rfl⟩⟩
    obtain ⟨-, rfl⟩ := slotOf_eq_some.mp hs
    exact he
  | readSlot d =>
    obtain ⟨e, he, x⟩ := Option.map_eq_some_iff.mp hx
    cases x
    refine ⟨rfl, fun s hs => ?_⟩
    obtain ⟨-, rfl⟩ := slotOf_eq_some.mp hs
    exact he
  | writeSlot d e =>
    cases hx
    obtain ⟨s, x, hs, -⟩ := pre
    exact ⟨s, hs, account_writeSlot_self hs⟩
  | clearSlot d =>
    obtain ⟨e, he, x⟩ := Option.map_eq_some_iff.mp hx
    cases x
    obtain ⟨s, st, hs, -⟩ := pre
    refine ⟨s, e, hs, ?_, account_clearSlot_self hs⟩
    obtain ⟨-, rfl⟩ := slotOf_eq_some.mp hs
    exact he
  | isend a n ty dest tag comm p => exact post_isend pre hx
  | irecv a n ty source tag comm p => exact post_irecv pre hx
  | test x =>
    cases x with
    | none =>
      cases hx
      rfl
    | some x => exact post_test h pre hx
  | «continue» m e f =>
    cases hx
    obtain ⟨x, hx, -⟩ := pre.2.token
    exact ⟨x, hx, account_attach_self hx⟩
  | allocate n =>
    simp only [exec] at hx
    split at hx
    · cases hx
      obtain ⟨free, post⟩ := account_allocate_self h.slots rfl
      exact ⟨_, _, rfl, free, post⟩
    · rename_i large
      cases hx
      exact ⟨rfl, large⟩
  | memcpy dst src n =>
    cases hx
    obtain ⟨d, k, s, st, rfl, rfl, hs, taken, b, hb⟩ := pre
    exact ⟨d, k, s, rfl, rfl, hs, account_memcpy_self hs taken hb⟩
  | signal c q p =>
    cases hx
    obtain ⟨st, token, -⟩ := pre.token
    exact ⟨st, token, account_signal_self token⟩
  | cqPop c =>
    rcases exec_cqPop hx with ⟨-, rfl⟩ | ⟨x, rest, -, -, rfl⟩ <;> rfl
  | newDevice =>
    cases hx
    refine ⟨slotOf_eq_none (h.slots.not_controls_fresh t.rank), rfl, _, account_newDevice_self,
      ?_, ?_, ?_⟩
    · exact (h.slots.fresh ⟨t.rank, w.devs.nextAddr t.rank⟩ (le_refl _)).1
    · simp [slotView, World.newDevice]
    · intro n c a rest top
      have top : w.client.acts t = ⟨.allocDevice n c, a⟩ :: rest := top
      simp [slotView, World.newDevice, top]
  | initDevice d dev =>
    cases hx
    obtain ⟨s, hs, unborn, -⟩ := pre
    exact ⟨s, hs, account_initDevice_self hs unborn⟩
  | readDevice d =>
    obtain ⟨dev, hdev, e⟩ := Option.map_eq_some_iff.mp hx
    obtain ⟨rfl, rfl⟩ := Prod.mk.inj e
    obtain ⟨size, small, rule⟩ := h.slots.table d dev hdev
    refine ⟨rfl, coh.table d dev hdev, small, rule, fun s hs => ?_, ?_⟩
    · obtain ⟨-, rfl⟩ := slotOf_eq_some.mp hs
      exact size
    · intro rank buf len comp ctx a rest top on
      have ok := h.calls.ok t ⟨.put d rank buf len comp ctx, a⟩ (by
        rw [show w.client.acts t = _ from top]
        exact List.mem_cons_self)
      exact ok.put on d rank buf len comp ctx rfl dev hdev
  | abort f => cases hx
  | _ =>
    cases hx
    rfl

end OwnAccount

section OtherAccounts

/-- The tokens, slots and blocks of one thread are no other thread's. -/
theorem stage_of_token {p : RequestPtr} {x : Token} (hx : (account t w).token p = some x)
    (hu : u ≠ t) (k : Owning) : w.store.stage p ≠ .owned u k := by
  have stage := (tokenOf_eq_some.mp hx).1
  intro other
  exact hu (Stage.owned.inj (other.symm.trans stage)).1

theorem frame_irecv (h : Books P w) {a : Buffer} {n : Int} {ty : Datatype} {source tag : Int}
    {comm : Comm} {p : RequestPtr} {r : Option (Option Handle)}
    (pre : (account t w).MayRecv P a n ty source tag comm p ∨
      (account t w).MayListen P a n ty source tag comm p)
    (hx : exec cfg t (.irecv a n ty source tag comm p) w = some (r, w')) (hu : u ≠ t) :
    account u w' = account u w := by
  rcases exec_irecv hx with ⟨-, rfl, -⟩ | ⟨-, rfl⟩
  · rfl
  have token : ∃ x, (account t w).token p = some x := by
    rcases pre with pre | pre
    · obtain ⟨x, hx', -⟩ := pre.token
      exact ⟨x, hx'⟩
    · obtain ⟨x, hx', -⟩ := pre.token
      exact ⟨x, hx'⟩
  obtain ⟨x, hx'⟩ := token
  have expected : account u (w.expect comm p) = account u w := by
    unfold World.expect
    split
    · rename_i op
      have listen : (account t w).MayListen P a n ty source tag comm p := by
        rcases pre with pre | pre
        · exact absurd op (by simp [pre.op])
        · exact pre
      obtain ⟨s, hs, -⟩ := listen.slot
      rw [listen.device]
      exact account_setPhase_of_ne (h.slots.not_controls (slotOf_eq_some.mp hs).1 hu)
    · rfl
  have token : (account t (w.expect comm p)).token p = some x := by
    unfold World.expect
    split
    · exact hx'
    · exact hx'
  unfold World.irecv
  rw [account_start_of_ne token hu, expected]

theorem frame_test (h : Books P w) {x : Handle} {r : TestResult} (may : (account t w).MayTest x)
    (hx : exec cfg t (.test (some x)) w = some (r, w')) (hu : u ≠ t) :
    account u w' = account u w := by
  cases exec_test hx with
  | notYet => rfl
  | failed dead => rfl
  | taken q st hq done ok op =>
    obtain ⟨controls, -, -, stage, -⟩ := h.slots.receive may op
    exact account_testTaken_of_ne (h.slots.not_controls controls hu) (by simp [stage]) hu
  | done q st hq done ok op =>
    obtain ⟨y, hy, -⟩ := may.held op
    exact account_testDone_of_ne (stage_of_token hy hu)

/-- No operation touches the account of another thread. -/
theorem account_exec_of_ne (h : Books P w) (coh : Coherence cfg G w) {o : Op} {r : o.Ret}
    (locks : structurePre cfg G t o (stance t w)) (pre : ledgerPre P t o (account t w))
    (hx : exec cfg t o w = some (r, w')) (hu : u ≠ t) : account u w' = account u w := by
  have pre := pre.2
  have locks := locks.2
  cases o with
  | endCall x =>
    cases hx
    exact account_endCall_of_ne h.slots pre hu
  | loadPending =>
    cases hx
    exact account_loadPending_of_ne hu
  | fetchAddPending =>
    cases hx
    exact account_fetchAddPending_of_ne hu
  | fetchSubPending p =>
    cases hx
    obtain ⟨-, x, hx, -⟩ := pre
    exact account_fetchSubPending_of_ne hx hu
  | lock l =>
    simp only [exec] at hx
    split at hx <;> cases hx
    refine account_setOwner fun d e => ?_
    subst e
    exact locks
  | tryLock l =>
    simp only [exec] at hx
    split at hx
    · rename_i free
      cases hx
      cases l with
      | put d =>
        obtain ⟨a, rest, top⟩ := pre
        have ok := (h.calls.ok t ⟨.doProgress d, a⟩ (by
          rw [show w.client.acts t = _ from top]
          exact List.mem_cons_self)).device d rfl
        exact account_lockPut_of_ne free ok.2.1 hu
      | _ => exact account_setOwner (by simp)
    · cases hx
      rfl
  | unlock l =>
    cases hx
    cases l with
    | put d =>
      have mine : w.sync.owner (.put d) = some t := locks.1
      exact account_unlockPut_of_ne mine (h.slots.locked d (by simp [mine])).1 hu
    | _ => exact account_setOwner (by simp)
  | newRequest q c =>
    cases hx
    exact account_newRequest_of_ne h hu
  | writeRequest p q =>
    obtain ⟨_, -, e⟩ := Option.map_eq_some_iff.mp hx
    cases e
    obtain ⟨x, hx, -⟩ := pre
    exact account_writeRequest_of_ne hx hu
  | deleteRequest p =>
    obtain ⟨_, -, e⟩ := Option.map_eq_some_iff.mp hx
    cases e
    obtain ⟨x, hx, -⟩ := pre
    exact account_deleteRequest_of_ne hx hu
  | pushBack m e =>
    cases hx
    obtain ⟨x, hx, -⟩ := pre.token
    exact account_pushBack_of_ne hx hu
  | popFront m =>
    obtain ⟨rest, front, rfl⟩ := exec_popFront hx
    exact account_popFront_of_ne (h.filed.queued_of_mem (front ▸ List.mem_cons_self)) hu
  | readRequest p | slotRequest d | readSlot d | readDevice d =>
    obtain ⟨_, -, e⟩ := Option.map_eq_some_iff.mp hx
    cases e
    rfl
  | writeSlot d e =>
    cases hx
    obtain ⟨s, x, hs, -, -, token⟩ := pre
    exact account_writeSlot_of_ne (h.slots.not_controls (slotOf_eq_some.mp hs).1 hu)
      (stage_of_token token hu)
  | clearSlot d =>
    obtain ⟨e, he, x⟩ := Option.map_eq_some_iff.mp hx
    cases x
    obtain ⟨s, st, hs, -⟩ := pre
    exact account_setSlot_of_ne (h.slots.not_controls (slotOf_eq_some.mp hs).1 hu)
  | isend a n ty dest tag comm p =>
    rcases exec_isend hx with ⟨-, rfl⟩ | ⟨-, -, rfl⟩
    · rfl
    · obtain ⟨x, hx', -⟩ := pre.token
      have token : (account t (w.enqueue
          (w.message t a (Datatype.layout n ty) dest tag comm p))).token p = some x := hx'
      exact account_start_of_ne token hu
  | irecv a n ty source tag comm p => exact frame_irecv h pre hx hu
  | test x =>
    cases x with
    | none =>
      cases hx
      rfl
    | some x => exact frame_test h pre hx hu
  | «continue» m e f =>
    cases hx
    obtain ⟨x, hx, -⟩ := pre.2.token
    exact account_attach_of_ne hx hu
  | allocate n =>
    simp only [exec] at hx
    split at hx <;> cases hx
    · exact account_allocate_of_ne h.slots rfl hu
    · rfl
  | memcpy dst src n =>
    cases hx
    obtain ⟨d, k, s, st, rfl, rfl, hs, taken, b, hb⟩ := pre
    exact account_memcpy_of_ne (h.slots.not_controls (slotOf_eq_some.mp hs).1 hu) hb hu
  | signal c q p =>
    cases hx
    obtain ⟨st, token, -, put⟩ := pre.token
    refine account_signal_of_ne token (fun k op buffer => ?_) hu
    have same := (coh.heap p q (tokenOf_eq_some.mp token).2.1).1
    obtain ⟨k', b, eq, block, -⟩ := put (same.symm.trans op)
    obtain rfl : k' = k := by
      rw [eq] at buffer
      exact Buffer.heap.inj buffer
    exact (blockOf_eq_some.mp block).1
  | cqPop c =>
    rcases exec_cqPop hx with ⟨-, rfl⟩ | ⟨x, rest, -, -, rfl⟩ <;> rfl
  | newDevice =>
    cases hx
    exact account_newDevice_of_ne h.slots hu
  | initDevice d dev =>
    cases hx
    obtain ⟨s, hs, -⟩ := pre
    exact account_initDevice_of_ne (h.slots.not_controls (slotOf_eq_some.mp hs).1 hu)
  | deleteDevice d =>
    cases hx
    rfl
  | abort f => cases hx
  | _ =>
    cases hx
    rfl

end OtherAccounts

end Lcw.Mpi
