/- digest: Calls stay within what their client could ask, and operations answer to their calls. -/

import Lcw.Mpi.LedgerSteps

set_option autoImplicit false
set_option relaxedAutoImplicit false

namespace Lcw.Mpi

open Interleave
open Function (update)

variable {cfg : Config} {P : PutRules cfg} {t u : Tid} {w w' : World}

section Grows

/-- Memory of the client stays the client's, and devices it may name keep what they are. -/
structure Grows (w w' : World) : Prop where
  accessible : ∀ b, w.accessible b = true → w'.accessible b = true
  device : ∀ d, w.devs.builder d = none → w.net.phase d ≠ .unborn →
    w'.devs.builder d = none ∧ w'.net.phase d ≠ .unborn ∧
      ∀ dev, w'.devs.table d = some dev → w.devs.table d = some dev

theorem accessible_congr (given : w'.memory.given = w.memory.given) (b : Buffer) :
    w'.accessible b = w.accessible b := by
  cases b <;> simp only [World.accessible, given]

theorem Grows.of_eq (given : w'.memory.given = w.memory.given)
    (builder : w'.devs.builder = w.devs.builder) (table : w'.devs.table = w.devs.table)
    (phase : ∀ d, w.net.phase d ≠ .unborn → w'.net.phase d ≠ .unborn) : Grows w w' where
  accessible b hb := by rwa [accessible_congr given]
  device d built born := by
    rw [builder, table]
    exact ⟨built, phase d born, fun _ e => e⟩

theorem giveBlock_accessible {q : Request} {p : RequestPtr} (b : Buffer)
    (hb : w.accessible b = true) : (w.giveBlock q p).accessible b = true := by
  unfold World.giveBlock
  split
  · rename_i k' op buffer
    cases b with
    | heap k =>
      simp only [World.accessible] at hb ⊢
      by_cases e : k = k'
      · simp [e]
      · rwa [Function.update_of_ne e]
    | _ => exact hb
  · exact hb

theorem exec_grows (h : Books P w) {o : Op} {r : o.Ret} (pre : ledgerPre P t o (account t w))
    (hx : exec cfg t o w = some (r, w')) : Grows w w' := by
  have pre := pre.2
  cases o with
  | endCall x =>
    cases hx
    refine ⟨fun b hb => ?_, fun d built born => ?_⟩
    · rwa [accessible_congr rfl]
    · cases x with
      | device d' =>
        refine ⟨?_, born, fun _ e => e⟩
        by_cases e : d = d'
        · simp [World.endCall, e]
        · simpa only [World.endCall, Function.update_of_ne e] using built
      | _ => exact ⟨built, born, fun _ e => e⟩
  | writeSlot d e =>
    cases hx
    exact .of_eq rfl rfl rfl fun _ born => phase_ne_unborn (by simp) born
  | irecv a n ty source tag comm p =>
    rcases exec_irecv hx with ⟨-, rfl, -⟩ | ⟨-, rfl⟩
    · exact .of_eq rfl rfl rfl fun _ born => born
    · refine .of_eq (by rw [World.irecv_eq]) (by rw [World.irecv_eq]) (by rw [World.irecv_eq])
        fun d born => ?_
      have started : (w.irecv cfg t a (Datatype.layout n ty) source tag comm p).2.net.phase =
          (w.expect comm p).net.phase := by
        unfold World.irecv World.start
        split <;> rfl
      rw [started]
      unfold World.expect
      split
      · exact phase_ne_unborn (by simp) born
      · exact born
  | test x =>
    cases x with
    | none =>
      cases hx
      exact .of_eq rfl rfl rfl fun _ born => born
    | some x =>
      cases exec_test hx with
      | taken q st hq done ok op =>
        exact .of_eq rfl rfl rfl fun _ born => phase_ne_unborn (by simp) born
      | _ => exact .of_eq rfl rfl rfl fun _ born => born
  | isend a n ty dest tag comm p =>
    rcases exec_isend hx with ⟨-, rfl⟩ | ⟨-, -, rfl⟩
    · exact .of_eq rfl rfl rfl fun _ born => born
    · refine .of_eq (by rw [World.isend_eq]) (by rw [World.isend_eq]) (by rw [World.isend_eq])
        fun d born => ?_
      have started : (w.isend cfg t a (Datatype.layout n ty) dest tag comm p).2.net.phase =
          w.net.phase := by
        unfold World.isend World.start
        split <;> rfl
      rw [started]
      exact born
  | memcpy dst src n =>
    cases hx
    refine .of_eq (by rw [World.memcpy_eq]) (by rw [World.memcpy_eq]) (by rw [World.memcpy_eq])
      fun d born => ?_
    unfold World.memcpy
    split
    · exact phase_ne_unborn (by simp) born
    · exact born
  | signal c q p =>
    cases hx
    refine ⟨fun b hb => ?_, fun d built born => ?_⟩
    · have given : (w.signal cfg t c q p).memory.given = (w.giveBlock q p).memory.given := by
        rw [World.signal_eq]
      rw [accessible_congr given]
      exact giveBlock_accessible b hb
    · rw [World.signal_eq]
      exact ⟨built, born, fun _ e => e⟩
  | allocate n =>
    simp only [exec] at hx
    split at hx <;> cases hx
    · exact .of_eq rfl rfl rfl fun _ born => born
    · exact .of_eq rfl rfl rfl fun _ born => born
  | newDevice =>
    cases hx
    refine ⟨fun b hb => ?_, fun d built born => ?_⟩
    · rwa [accessible_congr rfl]
    · have other : d ≠ ⟨t.rank, w.devs.nextAddr t.rank⟩ := by
        rintro rfl
        exact born (h.slots.fresh _ (le_refl _)).1
      refine ⟨?_, born, fun _ e => e⟩
      simpa only [World.newDevice, Function.update_of_ne other] using built
  | initDevice d dev =>
    cases hx
    obtain ⟨s, hs, unborn, -⟩ := pre
    obtain ⟨-, rfl⟩ := slotOf_eq_some.mp hs
    refine ⟨fun b hb => ?_, fun d' built born => ⟨built, born, fun dev' table => ?_⟩⟩
    · rwa [accessible_congr rfl]
    · have other : d' ≠ d := by
        rintro rfl
        exact born unborn
      simpa only [World.setDevice, Function.update_of_ne other] using table
  | deleteDevice d =>
    cases hx
    refine ⟨fun b hb => ?_, fun d' built born => ⟨built, born, fun dev' table => ?_⟩⟩
    · rwa [accessible_congr rfl]
    · have other : d' ≠ d := by
        rintro rfl
        simp [World.setDevice] at table
      simpa only [World.setDevice, Function.update_of_ne other] using table
  | fetchAddNdevices | commCreate d | commFree comm =>
    cases hx
    exact .of_eq rfl rfl rfl fun _ born => born
  | _ =>
    have frame := exec_frame hx
    exact .of_eq (by rw [frame.memory rfl]) (by rw [frame.devs rfl]) (by rw [frame.devs rfl])
      (by rw [frame.net rfl]; exact fun _ born => born)

end Grows

section Calls

theorem Call.Posts.op {c : Call} {q : Request} {comp : Option Comp} (h : c.Posts cfg q comp) :
    q.op ≠ .putSignal ∧ c.buffer? = some q.buffer := by
  cases c with
  | send | recv | put =>
    obtain ⟨rfl, -⟩ := h
    exact ⟨by simp, rfl⟩
  | _ => cases h

theorem Call.Ok.mono {c : Call} (ok : c.Ok P w t) (grows : Grows w w') : c.Ok P w' t where
  device d hd := by
    obtain ⟨rank, built, born⟩ := ok.device d hd
    obtain ⟨built', born', -⟩ := grows.device d built born
    exact ⟨rank, built', born'⟩
  buffer b hb := grows.accessible b (ok.buffer b hb)
  alloc := ok.alloc
  put on d rank buf len comp ctx e dev table := by
    obtain ⟨-, built, born⟩ := ok.device d (by rw [e]; rfl)
    obtain ⟨-, -, old⟩ := grows.device d built born
    exact ok.put on d rank buf len comp ctx e dev (old dev table)

/-- No operation changes its stage. -/
theorem Calls.still (h : Calls P w) (client : w'.client = w.client)
    (stage : w'.store.stage = w.store.stage) (grows : Grows w w') : Calls P w' where
  ok u a ha := by
    rw [client] at ha
    exact (h.ok u a ha).mono grows
  added u a ha p hp := by
    rw [client] at ha
    rw [stage]
    exact h.added u a ha p hp
  accepted p hp := by
    rw [client] at hp
    rw [stage]
    exact h.accepted p hp
  accounted p op handed := by
    rw [stage] at handed
    rw [client]
    exact h.accounted p op handed
  owned p u k owned := by
    rw [stage] at owned
    rw [client]
    exact h.owned p u k owned
  held p u request op held := by
    rw [stage] at held
    rw [client]
    exact h.held p u request op held
  buffer p op born := by
    rw [stage] at born
    exact grows.accessible _ (h.buffer p op born)

/-- One operation changes its stage, in a call that may do so. -/
theorem Calls.move (h : Calls P w) {p : RequestPtr} {s : Stage} (client : w'.client = w.client)
    (stage : w'.store.stage = update w.store.stage p s) (grows : Grows w w')
    (kept : (w.store.stage p).handed = true → s.handed = true)
    (handed : p.posted.op ≠ .putSignal → s.handed = true → (w.store.stage p).handed = true)
    (owned : ∀ u k, s = .owned u k → w.client.acts u ≠ [])
    (held : ∀ u, cfg.compType = .request → p.posted.op ≠ .putSignal → s = .owned u .held →
      ∃ d a rest, w.client.acts u = ⟨.doProgress d, a⟩ :: rest)
    (buffer : p.posted.op ≠ .putSignal → w.accessible p.posted.buffer = true) : Calls P w' := by
  have keep (q : RequestPtr) (hq : (w.store.stage q).handed = true) :
      (w'.store.stage q).handed = true := by
    rw [stage]
    by_cases e : q = p
    · subst e
      rw [Function.update_self]
      exact kept hq
    · rwa [Function.update_of_ne e]
  constructor
  · intro u a ha
    rw [client] at ha
    exact (h.ok u a ha).mono grows
  · intro u a ha q hq
    rw [client] at ha
    obtain ⟨was, posts⟩ := h.added u a ha q hq
    exact ⟨keep q was, posts⟩
  · intro q hq
    rw [client] at hq
    obtain ⟨was, op⟩ := h.accepted q hq
    exact ⟨keep q was, op⟩
  · intro q op now
    rw [client]
    rw [stage] at now
    by_cases e : q = p
    · subst e
      rw [Function.update_self] at now
      exact h.accounted q op (handed op now)
    · rw [Function.update_of_ne e] at now
      exact h.accounted q op now
  · intro q u k now
    rw [client]
    rw [stage] at now
    by_cases e : q = p
    · subst e
      rw [Function.update_self] at now
      exact owned u k now
    · rw [Function.update_of_ne e] at now
      exact h.owned q u k now
  · intro q u request op now
    rw [client]
    rw [stage] at now
    by_cases e : q = p
    · subst e
      rw [Function.update_self] at now
      exact held u request op now
    · rw [Function.update_of_ne e] at now
      exact h.held q u request op now
  · intro q op now
    rw [stage] at now
    by_cases e : q = p
    · subst e
      exact grows.accessible _ (buffer op)
    · rw [Function.update_of_ne e] at now
      exact grows.accessible _ (h.buffer q op now)

/-- A manager gets an operation of the thread, and the call that posts it takes note. -/
theorem Calls.hand (h : Calls P w) {e : Entry} {s : Stage}
    (may : (account t w).MayHand cfg e) (client : w'.client = (w.noteAdded t e.request).client)
    (stage : w'.store.stage = update w.store.stage e.request s) (handed : s.handed = true)
    (free : ∀ u k, s ≠ .owned u k) (grows : Grows w w') : Calls P w' := by
  obtain ⟨x, hx, -, -, -, kind⟩ := may.token
  have owned := (tokenOf_eq_some.mp hx).1
  rcases kind with kind | ⟨kind, a, rest, top, blank, posts⟩
  · rw [kind] at owned
    have same : w'.client = w.client := by
      rw [client]
      unfold World.noteAdded
      rw [owned]
      split
      · rename_i e
        cases e
      · rfl
    refine h.move same stage grows (fun _ => handed) (fun _ _ => by rw [owned]; rfl)
      (fun u k e => absurd e (free u k)) (fun u _ _ e => absurd e (free u .held)) fun op => ?_
    exact h.buffer e.request op (by simp [owned])
  · rw [kind] at owned
    have top : w.client.acts t = a :: rest := top
    have acts : w'.client.acts =
        update w.client.acts t ({ a with added := some e.request } :: rest) := by
      rw [client]
      unfold World.noteAdded
      rw [top, owned]
    have accepted : w'.client.accepted = w.client.accepted := by
      rw [client]
      unfold World.noteAdded
      rw [top, owned]
    have keep (q : RequestPtr) (hq : (w.store.stage q).handed = true) :
        (w'.store.stage q).handed = true := by
      rw [stage]
      by_cases e' : q = e.request
      · subst e'
        rwa [Function.update_self]
      · rwa [Function.update_of_ne e']
    have old {u : Tid} {b : Activation} (hb : b ∈ w'.client.acts u) :
        b ∈ w.client.acts u ∨ u = t ∧ b = { a with added := some e.request } := by
      rw [acts] at hb
      by_cases hu : u = t
      · subst hu
        rw [Function.update_self] at hb
        rw [top]
        rcases List.mem_cons.mp hb with hb | hb
        · exact .inr ⟨rfl, hb⟩
        · exact .inl (List.mem_cons_of_mem _ hb)
      · rw [Function.update_of_ne hu] at hb
        exact .inl hb
    constructor
    · intro u b hb
      rcases old hb with hb | ⟨rfl, rfl⟩
      · exact (h.ok u b hb).mono grows
      · exact (h.ok u a (top ▸ List.mem_cons_self)).mono grows
    · intro u b hb q hq
      rcases old hb with hb | ⟨rfl, rfl⟩
      · obtain ⟨was, posts'⟩ := h.added u b hb q hq
        exact ⟨keep q was, posts'⟩
      · obtain rfl := Option.some.inj hq
        refine ⟨?_, posts⟩
        rw [stage, Function.update_self]
        exact handed
    · intro q hq
      rw [accepted] at hq
      obtain ⟨was, op⟩ := h.accepted q hq
      exact ⟨keep q was, op⟩
    · intro q op now
      rw [accepted, acts]
      by_cases e' : q = e.request
      · subst e'
        refine .inr ⟨t, { a with added := some e.request }, ?_, rfl⟩
        rw [Function.update_self]
        exact List.mem_cons_self
      · rw [stage, Function.update_of_ne e'] at now
        rcases h.accounted q op now with done | ⟨u, b, hb, hq⟩
        · exact .inl done
        · refine .inr ⟨u, b, ?_, hq⟩
          by_cases hu : u = t
          · subst hu
            rw [Function.update_self]
            rw [top] at hb
            rcases List.mem_cons.mp hb with rfl | hb
            · simp [blank] at hq
            · exact List.mem_cons_of_mem _ hb
          · rwa [Function.update_of_ne hu]
    · intro q u k now
      rw [stage] at now
      have other : q ≠ e.request := by
        rintro rfl
        rw [Function.update_self] at now
        exact free u k now
      rw [Function.update_of_ne other] at now
      rw [acts]
      by_cases hu : u = t
      · subst hu
        simp
      · rw [Function.update_of_ne hu]
        exact h.owned q u k now
    · intro q u request op now
      rw [stage] at now
      have other : q ≠ e.request := by
        rintro rfl
        rw [Function.update_self] at now
        exact free u _ now
      rw [Function.update_of_ne other] at now
      obtain ⟨d, b, rest', top'⟩ := h.held q u request op now
      rw [acts]
      by_cases hu : u = t
      · subst hu
        rw [top] at top'
        cases top'
        exact ⟨d, _, _, by rw [Function.update_self]⟩
      · rw [Function.update_of_ne hu]
        exact ⟨d, b, rest', top'⟩
    · intro q op now
      rw [stage] at now
      by_cases e' : q = e.request
      · subst e'
        exact grows.accessible _ (h.buffer _ op (by simp [owned]))
      · rw [Function.update_of_ne e'] at now
        exact grows.accessible _ (h.buffer q op now)

/-- A call returns: what it handed over is accepted from now on. -/
theorem Calls.endCall (h : Calls P w) {r : CallResult} (may : (account t w).MayReturn cfg r)
    (grows : Grows w (w.endCall t r)) : Calls P (w.endCall t r) := by
  obtain ⟨a, rest, top, added, -⟩ := may.act
  have top : w.client.acts t = a :: rest := top
  have acts : (w.endCall t r).client.acts = update w.client.acts t rest := by
    simp only [World.endCall, top, List.tail_cons]
  have accepted (q : RequestPtr) : (w.endCall t r).client.accepted q = true ↔
      w.client.accepted q = true ∨ a.added = some q := by
    simp only [World.endCall, top, List.head?_cons, Option.bind_some]
    cases hadd : a.added with
    | none => cases r <;> simp
    | some p =>
      obtain rfl := added p hadd
      by_cases e : q = p
      · subst e
        simp
      · simp [Function.update_of_ne e, Ne.symm e]
  have old {u : Tid} {b : Activation} (hb : b ∈ (w.endCall t r).client.acts u) :
      b ∈ w.client.acts u := by
    rw [acts] at hb
    by_cases hu : u = t
    · subst hu
      rw [Function.update_self] at hb
      rw [top]
      exact List.mem_cons_of_mem _ hb
    · rwa [Function.update_of_ne hu] at hb
  constructor
  · exact fun u b hb => (h.ok u b (old hb)).mono grows
  · exact fun u b hb => h.added u b (old hb)
  · intro q hq
    rcases (accepted q).mp hq with hq | hq
    · exact h.accepted q hq
    · obtain ⟨handed, posts⟩ := h.added t a (top ▸ List.mem_cons_self) q hq
      exact ⟨handed, posts.op.1⟩
  · intro q op handed
    rcases h.accounted q op handed with done | ⟨u, b, hb, hq⟩
    · exact .inl ((accepted q).mpr (.inl done))
    · by_cases hu : u = t
      · subst hu
        rw [top] at hb
        rcases List.mem_cons.mp hb with rfl | hb
        · exact .inl ((accepted q).mpr (.inr hq))
        · refine .inr ⟨u, b, ?_, hq⟩
          rwa [acts, Function.update_self]
      · refine .inr ⟨u, b, ?_, hq⟩
        rwa [acts, Function.update_of_ne hu]
  · intro q u k owned
    have owned : w.store.stage q = .owned u k := owned
    rw [acts]
    by_cases hu : u = t
    · subst hu
      rw [Function.update_self]
      rintro rfl
      have none := may.idle.rooted (by simp [Account.setActs, account, top]) q
      have some := tokenOf_of_owned owned
      cases some.symm.trans none
    · rw [Function.update_of_ne hu]
      exact h.owned q u k owned
  · intro q u request op held
    have held : w.store.stage q = .owned u .held := held
    rw [acts]
    by_cases hu : u = t
    · subst hu
      have spent := may.idle.spent request q _ (tokenOf_of_owned held)
      cases spent
    · rw [Function.update_of_ne hu]
      exact h.held q u request op held
  · exact fun q op born => grows.accessible _ (h.buffer q op born)

theorem Calls.exec (h : Books P w) {o : Op} {r : o.Ret} (pre : ledgerPre P t o (account t w))
    (hx : exec cfg t o w = some (r, w')) : Calls P w' := by
  have grows := exec_grows h pre hx
  have calls := h.calls
  have pre := pre.2
  cases o with
  | endCall x =>
    cases hx
    exact calls.endCall pre grows
  | newRequest q c =>
    cases hx
    have unborn := h.filed.fresh q c
    have busy : w.client.acts t ≠ [] := by
      rcases pre with post | arm
      · obtain ⟨a, rest, top, -⟩ := post.act
        have top : w.client.acts t = a :: rest := top
        simp [top]
      · exact arm.acts
    refine calls.move (by rw [World.newRequest_eq]) (by rw [World.newRequest_eq]) grows ?_ ?_ ?_ ?_
      fun op => ?_
    · simp [unborn, Stage.handed]
    · simp [Stage.handed]
    · rintro u k e
      cases e
      exact busy
    · simp
    · rcases pre with post | arm
      · obtain ⟨a, rest, top, posts⟩ := post.act
        have top : w.client.acts t = a :: rest := top
        exact (calls.ok t a (top ▸ List.mem_cons_self)).buffer _ posts.op.2
      · exact absurd arm.op op
  | writeRequest p q | clearSlot d =>
    obtain ⟨_, -, e⟩ := Option.map_eq_some_iff.mp hx
    cases e
    exact calls.still rfl rfl grows
  | deleteRequest p =>
    obtain ⟨_, -, e⟩ := Option.map_eq_some_iff.mp hx
    cases e
    obtain ⟨x, hx', kind, -⟩ := pre
    have stage := (tokenOf_eq_some.mp hx').1
    rw [kind] at stage
    refine calls.move rfl rfl grows (fun _ => rfl) (fun _ _ => ?_) nofun nofun fun op => ?_
    · rw [stage]
      rfl
    · exact calls.buffer p op (by simp [stage])
  | pushBack m e =>
    cases hx
    have stage : (w.pushBack t m e).store.stage =
        update w.store.stage e.request (.queued m) := by rw [World.pushBack_eq]
    exact calls.hand pre (by rw [World.pushBack_eq]) stage rfl (by simp) grows
  | «continue» m e f =>
    cases hx
    have stage : (w.attach t m e).store.stage =
        update w.store.stage e.request (.attached m) := by rw [World.attach_eq]
    exact calls.hand pre.2 (by rw [World.attach_eq]) stage rfl (by simp) grows
  | popFront m =>
    obtain ⟨rest, front, rfl⟩ := exec_popFront hx
    obtain ⟨-, d, a, acts, top⟩ := pre
    have top : w.client.acts t = ⟨.doProgress d, a⟩ :: acts := top
    have queued := h.filed.queued_of_mem (front ▸ List.mem_cons_self)
    refine calls.move rfl rfl grows (fun _ => rfl) (fun _ _ => by rw [queued]; rfl) ?_ ?_ ?_
    · rintro u k e
      cases e
      simp [top]
    · rintro u - - e
      cases e
      exact ⟨d, a, acts, top⟩
    · exact fun op => calls.buffer _ op (by simp [queued])
  | writeSlot d e =>
    cases hx
    obtain ⟨s, x, -, -, -, token⟩ := pre
    have stage : w.store.stage e.request = .owned t .started := (tokenOf_eq_some.mp token).1
    refine calls.move rfl rfl grows ?_ nofun nofun nofun fun op => ?_
    · simp [stage, Stage.handed]
    · exact calls.buffer _ op (by simp [stage])
  | isend a n ty dest tag comm p =>
    obtain ⟨x, hx', kind, -⟩ := pre.token
    have stage := (tokenOf_eq_some.mp hx').1
    rw [kind] at stage
    rcases exec_isend hx with ⟨-, rfl⟩ | ⟨-, -, rfl⟩
    · exact calls
    · refine calls.move (by rw [World.isend_eq]) (by rw [World.isend_eq]) grows ?_
        (by simp [Stage.handed]) ?_ (by simp) fun op => calls.buffer p op (by simp [stage])
      · simp [stage, Stage.handed]
      · rintro u k e
        cases e
        exact calls.owned p t _ stage
  | irecv a n ty source tag comm p =>
    have token : ∃ x, (account t w).token p = some x ∧ x.kind = .posting ∧ x.result = none := by
      rcases pre with pre | pre
      · exact pre.token
      · exact pre.token
    obtain ⟨x, hx', kind, -⟩ := token
    have stage := (tokenOf_eq_some.mp hx').1
    rw [kind] at stage
    rcases exec_irecv hx with ⟨-, rfl, -⟩ | ⟨-, rfl⟩
    · exact calls
    · refine calls.move (by rw [World.irecv_eq]) (by rw [World.irecv_eq]) grows ?_
        (by simp [Stage.handed]) ?_ (by simp) fun op => calls.buffer p op (by simp [stage])
      · simp [stage, Stage.handed]
      · rintro u k e
        cases e
        exact calls.owned p t _ stage
  | test x =>
    cases x with
    | none =>
      cases hx
      exact calls
    | some x =>
      cases exec_test hx with
      | taken q st hq done ok op =>
        obtain ⟨-, -, -, stage, -⟩ := h.slots.receive pre op
        refine calls.move rfl rfl grows (fun _ => rfl) (fun op' => absurd op op') ?_
          (fun _ _ op' => absurd op op') fun op' => absurd op op'
        rintro u k e
        cases e
        exact pre.calm.acts
      | _ => exact calls.still rfl rfl grows
  | signal c q p =>
    cases hx
    obtain ⟨st, token, -⟩ := pre.token
    have stage : w.store.stage p = .owned t .held := (tokenOf_eq_some.mp token).1
    refine calls.move (by rw [World.signal_eq]) (by rw [World.signal_eq]) grows (fun _ => rfl)
      (fun _ _ => by rw [stage]; rfl) ?_ (by simp) fun op => calls.buffer p op (by simp [stage])
    rintro u k e
    cases e
    exact calls.owned p t _ stage
  | cqPop c =>
    rcases exec_cqPop hx with ⟨-, rfl⟩ | ⟨x, rest, front, -, rfl⟩
    · exact calls
    · exact calls.still rfl rfl grows
  | _ =>
    have frame := exec_frame hx
    exact calls.still (frame.client rfl) (by rw [frame.store rfl]) grows

/-- The client calls with what it may use. -/
theorem Calls.pushCall (h : Books P w) {c : Call} (callable : w.callable t c = true)
    (idle : (account t w).Idle cfg)
    (alloc : P.on = true → ∀ n comp, c = .allocDevice n comp → comp ≠ none)
    (put : P.on = true → ∀ d rank buf len comp ctx, c = .put d rank buf len comp ctx →
      ∀ dev, w.devs.table d = some dev → PutFits P len (toInt rank).toNat dev.comm.context) :
    Calls P (w.pushCall t c) := by
  have calls := h.calls
  have acts : (w.pushCall t c).client.acts =
      update w.client.acts t (⟨c, none⟩ :: w.client.acts t) := rfl
  have grows : Grows w (w.pushCall t c) := .of_eq rfl rfl rfl fun _ born => born
  have ok : c.Ok P w t := by
    simp only [World.callable, Bool.and_eq_true] at callable
    obtain ⟨⟨-, device⟩, buffer⟩ := callable
    refine ⟨fun d hd => ?_, fun b hb => ?_, alloc, put⟩
    · rw [hd] at device
      simp only [Bool.and_eq_true, beq_iff_eq] at device
      exact ⟨device.1, h.slots.published d device.2⟩
    · rwa [hb] at buffer
  have old {u : Tid} {b : Activation} (hb : b ∈ (w.pushCall t c).client.acts u) :
      b ∈ w.client.acts u ∨ u = t ∧ b = ⟨c, none⟩ := by
    rw [acts] at hb
    by_cases hu : u = t
    · subst hu
      rw [Function.update_self] at hb
      rcases List.mem_cons.mp hb with hb | hb
      · exact .inr ⟨rfl, hb⟩
      · exact .inl hb
    · rw [Function.update_of_ne hu] at hb
      exact .inl hb
  have new {u : Tid} {b : Activation} (hb : b ∈ w.client.acts u) :
      b ∈ (w.pushCall t c).client.acts u := by
    rw [acts]
    by_cases hu : u = t
    · subst hu
      rw [Function.update_self]
      exact List.mem_cons_of_mem _ hb
    · rwa [Function.update_of_ne hu]
  constructor
  · intro u b hb
    rcases old hb with hb | ⟨rfl, rfl⟩
    · exact (calls.ok u b hb).mono grows
    · exact ok.mono grows
  · intro u b hb p hp
    rcases old hb with hb | ⟨rfl, rfl⟩
    · exact calls.added u b hb p hp
    · cases hp
  · exact calls.accepted
  · intro p op handed
    rcases calls.accounted p op handed with done | ⟨u, b, hb, hp⟩
    · exact .inl done
    · exact .inr ⟨u, b, new hb, hp⟩
  · intro p u k owned
    rw [acts]
    by_cases hu : u = t
    · subst hu
      simp
    · rw [Function.update_of_ne hu]
      exact calls.owned p u k owned
  · intro p u request op held
    have held : w.store.stage p = .owned u .held := held
    rw [acts]
    by_cases hu : u = t
    · subst hu
      have spent := idle.spent request p _ (tokenOf_of_owned held)
      cases spent
    · rw [Function.update_of_ne hu]
      exact calls.held p u request op held
  · exact calls.buffer

theorem Calls.takeContinuation (h : Calls P w) {o : Op} {m : Manager} {i : Nat} {e : Entry}
    {st : Status} (compType : cfg.compType = .continue)
    (attached : w.store.stage e.request = .attached m) (busy : w.client.acts t ≠ []) :
    Calls P (w.takeContinuation t o m i e st) := by
  have grows : Grows w (w.takeContinuation t o m i e st) := by
    rw [World.takeContinuation_eq]
    refine .of_eq rfl rfl rfl fun d born => ?_
    simp only [consume_phase]
    exact born
  refine h.move (by rw [World.takeContinuation_eq]) (by rw [World.takeContinuation_eq]) grows
    (fun _ => rfl) (fun _ _ => by rw [attached]; rfl) ?_ ?_
    fun op => h.buffer e.request op (by simp [attached])
  · rintro u k e
    cases e
    exact busy
  · intro u request
    simp [compType] at request

end Calls

end Lcw.Mpi
