/- digest: In every interleaving, puts on settled devices are signalled once, as they were put. -/

import Lcw.Gex.Routing

set_option autoImplicit false
set_option relaxedAutoImplicit false

namespace Lcw.Gex

open Interleave
open Lcw.Mpi (OpCode Counter Rank Tid Byte toSize)
open Function (update)

section Views

variable {w w' : World} {t u : Tid}

theorem view_same (builder : w'.builder u.rank = some u ↔ w.builder u.rank = some u)
    (devices : w.builder u.rank = some u → w'.devices u.rank = w.devices u.rank)
    (handling : w'.handling u = w.handling u) (filling : w'.filling u = w.filling u)
    (blocks : w'.blocks u = w.blocks u) (target : w'.target u = w.target u) :
    view u w' = view u w := by
  simp only [view, handling, filling, blocks, target]
  congr 1
  by_cases mine : w.builder u.rank = some u
  · rw [if_pos mine, if_pos (builder.mpr mine), devices mine]
  · rw [if_neg mine, if_neg fun e => mine (builder.mp e)]

theorem builder_of_list (h : (view t w).list.isSome) : w.builder t.rank = some t := by
  by_contra other
  rw [view, if_neg other] at h
  cases h

theorem list_of_builder (h : w.builder t.rank = some t) :
    (view t w).list = some (w.devices t.rank) := by
  rw [view, if_pos h]

theorem filling_of_view {k : Nat} {bytes : List Byte}
    (h : (view t w).filling = some (k, bytes)) : w.filling t = some k ∧ w.blocks t k = bytes := by
  obtain ⟨j, hj, e⟩ := Option.map_eq_some_iff.mp h
  obtain ⟨rfl, rfl⟩ := Prod.mk.inj e
  exact ⟨hj, rfl⟩

/-- Two threads that allocate devices are in different processes. -/
theorem builder_rank (h : w.builder t.rank = some t) (hu : u ≠ t)
    (other : w.builder u.rank = some u) : u.rank ≠ t.rank := by
  intro same
  rw [same, h] at other
  exact hu (Option.some.inj other).symm

end Views

section Steps

variable {cfg : Config} {w w' : World} {t : Tid}

theorem exec_newDevice {c : Comp} {d : Dev} (h : Books w) (pre : (view t w).list.isSome)
    (hx : exec cfg t (.newDevice c) w = some (d, w')) :
    Books w' ∧ (contract t).post (.newDevice c) (view t w) d (view t w') ∧
      ∀ u, u ≠ t → view u w' = view u w := by
  obtain ⟨rfl, rfl⟩ := Prod.mk.inj (Option.some.inj hx)
  refine ⟨h.newDevice rfl rfl, ⟨rfl, rfl, rfl, fun l hl => ?_⟩, fun u _ => rfl⟩
  rw [list_of_builder (builder_of_list pre)] at hl
  rw [← Option.some.inj hl]

theorem exec_pushDevice {d : Dev} {r : Unit} {l : List Dev} (h : Books w)
    (hl : (view t w).list = some l) (rank : d.rank = t.rank) (index : d.index = l.length)
    (hx : exec cfg t (.pushDevice d) w = some (r, w')) :
    Books w' ∧ (contract t).post (.pushDevice d) (view t w) r (view t w') ∧
      ∀ u, u ≠ t → view u w' = view u w := by
  obtain ⟨-, rfl⟩ := Prod.mk.inj (Option.some.inj hx)
  have builder := builder_of_list (by rw [hl]; rfl)
  have devices := list_of_builder builder
  obtain rfl := Option.some.inj (devices.symm.trans hl)
  refine ⟨h.pushDevice rank index, ?_, fun u hu => ?_⟩
  · have pushed : (w.pushDevice d).devices t.rank = w.devices t.rank ++ [d] := by
      rw [World.pushDevice, ← rank]
      exact Function.update_self _ _ _
    have list : (view t (w.pushDevice d)).list = some (w.devices t.rank ++ [d]) := by
      rw [list_of_builder (w := w.pushDevice d) builder, pushed]
    have others : view t (w.pushDevice d) =
        { view t w with list := (view t (w.pushDevice d)).list } := rfl
    simp only [contract, devices, Option.map_some]
    rw [others, list]
  · refine view_same Iff.rfl (fun mine => ?_) rfl rfl rfl rfl
    exact Function.update_of_ne (rank ▸ builder_rank builder hu mine) _ _

theorem exec_setImpl {d : Dev} {n : Nat} {c : Comp} {o : Op}
    (field : o = .setId d n ∧ n = d.index ∨ o = .setComp d c ∧ c = d.putComp) {r : o.Ret}
    (h : Books w) (hx : exec cfg t o w = some (r, w')) :
    Books w' ∧ ∀ u, view u w' = view u w := by
  rcases field with ⟨rfl, rfl⟩ | ⟨rfl, rfl⟩
  · obtain ⟨i, live, rest⟩ := Option.bind_eq_some_iff.mp hx
    obtain ⟨-, rfl⟩ := Prod.mk.inj (Option.some.inj rest)
    refine ⟨h.setImpl live (fun n hn => ?_) (fun c hc => (h.impl d i live).2 c hc) id,
      fun u => rfl⟩
    exact (Option.some.inj hn).symm
  · obtain ⟨i, live, rest⟩ := Option.bind_eq_some_iff.mp hx
    obtain ⟨-, rfl⟩ := Prod.mk.inj (Option.some.inj rest)
    refine ⟨h.setImpl live (fun n hn => (h.impl d i live).1 n hn) (fun c hc => ?_) fun _ => rfl,
      fun u => rfl⟩
    exact (Option.some.inj hc).symm

theorem exec_requestMedium {dst : Rank} {buf : Buffer} {nbytes index : Nat} {d : Dev} {r : Unit}
    (h : Books w) (rank : d.rank = t.rank) (own : index = d.index) (ready : w.Ready dst index)
    (hx : exec cfg t (.requestMedium dst buf nbytes index d) w = some (r, w')) :
    Books w' ∧ ∀ u, view u w' = view u w := by
  obtain ⟨-, rfl⟩ := Prod.mk.inj (Option.some.inj hx)
  exact ⟨h.sentNew rfl ⟨rank, own⟩ ready, fun u => rfl⟩

theorem exec_allocate {n : Nat} {b : Option Buffer} (h : Books w)
    (hx : exec cfg t (.allocate n) w = some (b, w')) :
    Books w' ∧ (contract t).post (.allocate n) (view t w) b (view t w') ∧
      ∀ u, u ≠ t → view u w' = view u w := by
  simp only [exec] at hx
  split at hx
  · obtain ⟨rfl, rfl⟩ := Prod.mk.inj (Option.some.inj hx)
    refine ⟨h.carry rfl rfl rfl rfl rfl rfl rfl rfl h.results, ⟨w.nextBlock t, rfl, ?_⟩,
      fun u hu => ?_⟩
    · simp only [view, World.allocate, Function.update_self, Option.map_some]
      rfl
    · exact view_same Iff.rfl (fun _ => rfl) rfl (Function.update_of_ne hu _ _)
        (Function.update_of_ne hu _ _) rfl
  · obtain ⟨rfl, rfl⟩ := Prod.mk.inj (Option.some.inj hx)
    exact ⟨h, rfl, fun u _ => rfl⟩

theorem exec_memcpy {dst : Buffer} {amBuf : List Byte} {n k : Nat} {bytes : List Byte} {r : Unit}
    (h : Books w) (filling : (view t w).filling = some (k, bytes)) (into : dst = .heap t k)
    (hx : exec cfg t (.memcpy dst amBuf n) w = some (r, w')) :
    Books w' ∧ (contract t).post (.memcpy dst amBuf n) (view t w) r (view t w') ∧
      ∀ u, u ≠ t → view u w' = view u w := by
  obtain ⟨-, rfl⟩ := Prod.mk.inj (Option.some.inj hx)
  subst into
  refine ⟨h.carry rfl rfl rfl rfl rfl rfl rfl rfl h.results, fun j old hj => ?_, fun u hu => ?_⟩
  · obtain ⟨rfl, -⟩ := Prod.mk.inj (Option.some.inj (filling.symm.trans hj))
    have hk := (filling_of_view filling).1
    simp only [view, World.store, hk, Function.update_self, Option.map_some]
    rfl
  · exact view_same Iff.rfl (fun _ => rfl) rfl rfl (Function.update_of_ne hu _ _) rfl

theorem exec_deviceAt {i : Nat} {d : Dev} {m : Message} (h : Books w)
    (handling : w.handling t = some m) (index : i = m.index)
    (hx : exec cfg t (.deviceAt i) w = some (d, w')) :
    Books w' ∧ (contract t).post (.deviceAt i) (view t w) d (view t w') ∧
      ∀ u, u ≠ t → view u w' = view u w := by
  obtain ⟨e, found, rest⟩ := Option.bind_eq_some_iff.mp hx
  obtain ⟨rfl, rfl⟩ := Prod.mk.inj (Option.some.inj rest)
  refine ⟨{ h with target := fun u f hf => ?_ }, ?_, fun u hu => ?_⟩
  · by_cases same : u = t
    · subst same
      simp only [Function.update_self] at hf
      obtain rfl := Option.some.inj hf
      exact ⟨m, handling, by rw [h.here u m handling, ← index]; exact found⟩
    · exact h.target u f (by simpa only [Function.update_of_ne same] using hf)
  · simp [contract, view]
  · exact view_same Iff.rfl (fun _ => rfl) rfl rfl rfl (Function.update_of_ne hu _ _)

/-- The device a handler found is the one its message was put on. -/
theorem Books.found (h : Books w) {m : Message} {d : Dev} (handling : w.handling t = some m)
    (target : w.target t = some d) :
    (w.devices m.dst)[m.index]? = some d ∧ ∃ n, w.impls d = some ⟨n, some d.putComp⟩ := by
  obtain ⟨m', hm, found⟩ := h.target t d target
  obtain rfl := Option.some.inj (handling.symm.trans hm)
  obtain ⟨e, here, live⟩ := h.ready m (.inr ⟨t, handling⟩)
  obtain rfl := Option.some.inj (found.symm.trans here)
  exact ⟨found, live⟩

theorem exec_signal {c : Comp} {q : Request} {m : Message} {r : Unit} (h : Books w)
    (pre : (contract t).pre (.signal c q (some m)) (view t w))
    (hx : exec cfg t (.signal c q (some m)) w = some (r, w')) :
    Books w' ∧ (contract t).post (.signal c q (some m)) (view t w) r (view t w') ∧
      ∀ u, u ≠ t → view u w' = view u w := by
  obtain ⟨-, rfl⟩ := Prod.mk.inj (Option.some.inj hx)
  obtain ⟨handling, k, d, filling, target, rfl, rfl⟩ := pre
  have bytes := (filling_of_view filling).2
  have found := (h.found handling target).1
  refine ⟨h.signal handling ⟨(h.here t m handling).symm, d, found, rfl, rfl, bytes⟩, ?_,
    fun u hu => ?_⟩
  · simp only [contract, view, World.signal, Function.update_self, Option.map_none]
    rfl
  · refine view_same Iff.rfl (fun _ => rfl) ?_ ?_ rfl ?_
    · exact Function.update_of_ne hu _ _
    · exact Function.update_of_ne hu _ _
    · exact Function.update_of_ne hu _ _

theorem exec_endCall {x : CallResult} {r : Unit} (h : Books w)
    (pre : (contract t).pre (.endCall x) (view t w))
    (hx : exec cfg t (.endCall x) w = some (r, w')) :
    Books w' ∧ (contract t).post (.endCall x) (view t w) r (view t w') ∧
      ∀ u, u ≠ t → view u w' = view u w := by
  obtain ⟨-, rfl⟩ := Prod.mk.inj (Option.some.inj hx)
  have results : ∀ e ∈ (w.endCall t x).results, ∀ ret, e.1 = .progressed ret → ret = false := by
    intro e he ret hr
    rcases List.mem_append.mp he with old | new
    · exact h.results e old ret hr
    · obtain rfl := List.mem_singleton.mp new
      obtain rfl := hr
      exact pre
  refine ⟨h.carry rfl rfl rfl rfl rfl rfl rfl rfl results, ?_, fun u hu => ?_⟩
  · cases x with
    | device d => simp [contract, view, World.endCall]
    | _ => exact rfl
  · cases x with
    | device d =>
      have builder := builder_of_list pre
      refine view_same ?_ (fun _ => rfl) rfl rfl rfl rfl
      by_cases same : u.rank = t.rank
      · have other : ¬ t = u := fun e => hu e.symm
        simp [World.endCall, same, builder, other]
      · simp [World.endCall, same]
    | _ => exact rfl

/-- Each operation of a settled run keeps the books, follows its contract, and is invisible to
other threads. -/
theorem exec_books {o : Op} {r : o.Ret} (h : Books w) (pre : (contract t).pre o (view t w))
    (ready : ∀ dst buf nbytes index d, o = .requestMedium dst buf nbytes index d →
      w.Ready dst index)
    (unused : ∀ d, o = .deleteDevice d → ∀ m, w.Open m → ¬ (m.dst = d.rank ∧ m.index = d.index))
    (hx : exec cfg t o w = some (r, w')) :
    Books w' ∧ (contract t).post o (view t w) r (view t w') ∧
      ∀ u, u ≠ t → view u w' = view u w := by
  cases o with
  | newDevice c => exact exec_newDevice h pre hx
  | pushDevice d =>
    obtain ⟨l, hl, rank, index⟩ := pre
    exact exec_pushDevice h hl rank index hx
  | devicesSize =>
    obtain ⟨rfl, rfl⟩ := Prod.mk.inj (Option.some.inj hx)
    refine ⟨h, ⟨rfl, fun l hl => ?_⟩, fun u _ => rfl⟩
    rw [list_of_builder (builder_of_list (by rw [hl]; rfl))] at hl
    rw [← Option.some.inj hl]
  | setId d n =>
    obtain ⟨books, same⟩ := exec_setImpl (c := 0) (.inl ⟨rfl, pre⟩) h hx
    exact ⟨books, same t, fun u _ => same u⟩
  | setComp d c =>
    obtain ⟨books, same⟩ := exec_setImpl (n := 0) (.inr ⟨rfl, pre⟩) h hx
    exact ⟨books, same t, fun u _ => same u⟩
  | deleteDevice d =>
    obtain ⟨-, rfl⟩ := Prod.mk.inj (Option.some.inj hx)
    exact ⟨h.deleteDevice (unused d rfl), rfl, fun u _ => rfl⟩
  | readId d =>
    obtain ⟨i, live, rest⟩ := Option.bind_eq_some_iff.mp hx
    obtain ⟨n, hn, rest⟩ := Option.bind_eq_some_iff.mp rest
    obtain ⟨rfl, rfl⟩ := Prod.mk.inj (Option.some.inj rest)
    exact ⟨h, ⟨rfl, (h.impl d i live).1 _ hn⟩, fun u _ => rfl⟩
  | requestMedium dst buf nbytes index d =>
    obtain ⟨books, same⟩ := exec_requestMedium h pre.2.1 pre.2.2 (ready _ _ _ _ _ rfl) hx
    exact ⟨books, same t, fun u _ => same u⟩
  | barrierNB =>
    obtain ⟨-, rfl⟩ := Prod.mk.inj (Option.some.inj hx)
    exact ⟨h.carry rfl rfl rfl rfl rfl rfl rfl rfl h.results, rfl, fun u _ => rfl⟩
  | eventWait n =>
    simp only [exec] at hx
    split at hx
    · obtain ⟨-, rfl⟩ := Prod.mk.inj (Option.some.inj hx)
      exact ⟨h, rfl, fun u _ => rfl⟩
    · cases hx
  | allocate n => exact exec_allocate h hx
  | memcpy dst amBuf n =>
    obtain ⟨k, bytes, filling, into⟩ := pre
    exact exec_memcpy h filling into hx
  | deviceAt i =>
    obtain ⟨m, handling, index, -⟩ := pre
    exact exec_deviceAt h handling index hx
  | readComp d =>
    obtain ⟨i, live, rest⟩ := Option.bind_eq_some_iff.mp hx
    obtain ⟨c, hc, rest⟩ := Option.bind_eq_some_iff.mp rest
    obtain ⟨rfl, rfl⟩ := Prod.mk.inj (Option.some.inj rest)
    exact ⟨h, ⟨rfl, (h.impl d i live).2 _ hc⟩, fun u _ => rfl⟩
  | signal c q origin =>
    cases origin with
    | some m => exact exec_signal h pre hx
    | none =>
      obtain ⟨-, rfl⟩ := Prod.mk.inj (Option.some.inj hx)
      exact ⟨h.signalLocal, rfl, fun u _ => rfl⟩
  | cqPop c =>
    simp only [exec] at hx
    split at hx
    · obtain ⟨-, rfl⟩ := Prod.mk.inj (Option.some.inj hx)
      exact ⟨h, rfl, fun u _ => rfl⟩
    · obtain ⟨-, rfl⟩ := Prod.mk.inj (Option.some.inj hx)
      exact ⟨h.carry rfl rfl rfl rfl rfl rfl rfl rfl h.results, rfl, fun u _ => rfl⟩
  | pcounterAdd c =>
    obtain ⟨-, rfl⟩ := Prod.mk.inj (Option.some.inj hx)
    exact ⟨h.carry rfl rfl rfl rfl rfl rfl rfl rfl h.results, rfl, fun u _ => rfl⟩
  | endCall x => exact exec_endCall h pre hx
  | amPoll | userCode =>
    obtain ⟨-, rfl⟩ := Prod.mk.inj (Option.some.inj hx)
    exact ⟨h, rfl, fun u _ => rfl⟩
  | abort => cases hx

end Steps

section Interjections

variable {cfg : Config} {w w' : World} {t : Tid} {o : Op} {p : Code Unit}

theorem pushCall_books {c : Call} (h : Books w) : Books (w.pushCall t c) :=
  h.carry rfl rfl rfl rfl rfl rfl rfl rfl h.results

theorem view_pushCall {c : Call} (may : w.callable cfg.nranks t c) :
    (view t w).Enters (view t (w.pushCall t c)) c ∧
      ∀ u, u ≠ t → view u (w.pushCall t c) = view u w := by
  cases c with
  | allocDevice n c =>
    have free : w.builder t.rank = none := by simpa [World.callable] using may
    refine ⟨⟨by simp [view, free], w.devices t.rank, ?_⟩, fun u hu => ?_⟩
    · simp only [view, World.pushCall, Function.update_self, if_true]
    · refine view_same ?_ (fun _ => rfl) rfl rfl rfl rfl
      by_cases same : u.rank = t.rank
      · have other : ¬ t = u := fun e => hu e.symm
        simp [World.pushCall, same, free, other]
      · simp [World.pushCall, same]
  | _ => exact ⟨rfl, fun u _ => rfl⟩

theorem call_books {c : Call} (h : Books w) (free : (view t w).Free)
    (may : w.callable cfg.nranks t c) :
    Books (w.pushCall t c) ∧
      (contract t).wp (apiCall cfg.isHandler c) (fun _ v => v = view t w)
        (view t (w.pushCall t c)) ∧
      ∀ u, u ≠ t → view u (w.pushCall t c) = view u w := by
  obtain ⟨enter, others⟩ := view_pushCall may
  have entered : (view t (w.pushCall t c)).Free := ⟨free.1, free.2.1, free.2.2⟩
  refine ⟨pushCall_books h, wp_apiCall entered ?_ enter, others⟩
  rintro d rank buf length comp ctx rfl
  simp only [World.callable, Bool.and_eq_true, beq_iff_eq] at may
  exact may.1.1.1.1

theorem gex_free {v : View} (gex : o.isGex) (pre : (contract t).pre o v) : v.Free := by
  cases o with
  | requestMedium => exact pre.1
  | amPoll | barrierNB | eventWait _ => exact pre
  | _ => cases gex

theorem deliver_books {i : Nat} {m : Message} (h : Books w) (free : (view t w).Free)
    (hm : w.inflight[i]? = some m) (here : m.dst = t.rank) :
    Books (w.deliver t i m) ∧
      (contract t).wp (gexReqhandler cfg.isHandler m) (fun _ v => v = view t w)
        (view t (w.deliver t i m)) ∧
      ∀ u, u ≠ t → view u (w.deliver t i m) = view u w := by
  have entered : view t (w.deliver t i m) = { view t w with handling := some m } := by
    simp only [view, World.deliver, Function.update_self]
    rfl
  refine ⟨h.deliver hm here free.1 free.2.2, ?_, fun u hu => ?_⟩
  · rw [entered]
    exact wp_gexReqhandler free
  · exact view_same Iff.rfl (fun _ => rfl) (Function.update_of_ne hu _ _) rfl rfl rfl

theorem intr_books {i : Intr} (h : Books w) (pre : (contract t).pre o (view t w))
    (hi : intr cfg t o i w = some (p, w')) :
    Books w' ∧ (contract t).wp p (fun _ v => v = view t w) (view t w') ∧
      ∀ u, u ≠ t → view u w' = view u w := by
  cases i with
  | call c =>
    simp only [intr] at hi
    split at hi
    · rename_i may
      obtain ⟨rfl, rfl⟩ := Prod.mk.inj (Option.some.inj hi)
      obtain ⟨rfl, may⟩ := may
      exact call_books h pre may
    · cases hi
  | deliver i =>
    obtain ⟨m, hm, rest⟩ := Option.bind_eq_some_iff.mp hi
    split at rest
    · rename_i may
      obtain ⟨rfl, rfl⟩ := Prod.mk.inj (Option.some.inj rest)
      exact deliver_books h (gex_free may.1 pre) hm may.2
    · cases rest

theorem env_books {e : Env} (h : Books w) (he : env e w = some w') :
    Books w' ∧ ∀ t, view t w' = view t w := by
  cases e with
  | available b =>
    obtain rfl := Option.some.inj he
    exact ⟨h.carry rfl rfl rfl rfl rfl rfl rfl rfl h.results, fun t => rfl⟩
  | write r a bytes =>
    obtain rfl := Option.some.inj he
    exact ⟨h.carry rfl rfl rfl rfl rfl rfl rfl rfl h.results, fun t => rfl⟩

end Interjections

theorem books_init : Books World.init where
  position _ _ _ found := by cases found
  impl _ _ live := by cases live
  ready m hm := by rcases hm with hm | ⟨t, hm⟩ <;> cases hm
  ids _ _ hm := by cases hm
  known m hm := by rcases hm with hm | ⟨t, hm⟩ <;> cases hm
  source _ hm := by cases hm
  placed := by
    have lists : World.init.lists = fun _ => [] := by
      funext b
      cases b <;> rfl
    rw [lists]
    exact Placed.empty
  unsent _ := by simp [World.init]
  handled _ _ := by simp [World.init]
  here _ _ hm := by cases hm
  target _ _ hd := by cases hd
  outputs _ ho := by cases ho
  results _ he := by cases he

/-- Threads handle messages by the contract, and the books are kept, in every settled run. -/
def routing (cfg : Config) : Discipline (system cfg) (Settled cfg) where
  View := View
  view := view
  inv := Books
  contract := contract
  exec s t o k r w inv ok hp pre hx := by
    refine exec_books inv pre ?_ ?_ hx
    · rintro dst buf nbytes index d rfl
      simpa only [Settled, hp] using ok
    · rintro d rfl
      simpa only [Settled, hp] using ok
  intr _ _ _ _ _ _ _ inv _ _ pre hi := intr_books inv pre hi
  env _ _ _ inv _ he := env_books inv he

theorem routing_start (cfg : Config) : (routing cfg).Holds (start cfg) :=
  ⟨books_init, fun _ => ⟨⟨rfl, rfl, rfl⟩, fun _ _ _ => trivial⟩⟩

/-- How often a completion object was signalled for a message. -/
def World.signals (w : World) (m : Message) : Nat := (w.outputs.filterMap (·.origin)).count m

/-- Handlers find the devices of their messages, and each message is signalled once, as put. -/
structure Routed (cfg : Config) (s : (system cfg).State) : Prop where
  found : ∀ t i k, s.prog t = .op (.deviceAt i) k →
    ∃ m d, s.shared.handling t = some m ∧ i = m.index ∧
      (s.shared.devices t.rank)[i]? = some d ∧ ∃ n, s.shared.impls d = some ⟨n, some d.putComp⟩
  alive : ∀ t d k, s.prog t = .op (.readComp d) k →
    ∃ n, s.shared.impls d = some ⟨n, some d.putComp⟩
  exact' : ∀ o ∈ s.shared.outputs, ∀ m, o.origin = some m →
    m ∈ s.shared.sent ∧ o.Exact s.shared m
  once : ∀ m ∈ s.shared.sent, s.shared.Open m ∧ s.shared.signals m = 0 ∨
    ¬ s.shared.Open m ∧ s.shared.signals m = 1
  put : ∀ m ∈ s.shared.sent, m.device.rank = m.src ∧ m.index = m.device.index

section Claim

variable {cfg : Config} {w : World}

theorem Books.same (h : Books w) {m m' : Message} (hm : m ∈ w.sent) (hm' : m' ∈ w.sent)
    (id : m.id = m'.id) : m = m' := by
  obtain ⟨i, hi⟩ := List.getElem?_of_mem hm
  obtain ⟨j, hj⟩ := List.getElem?_of_mem hm'
  have ij : i = j := by rw [← h.ids i m hi, ← h.ids j m' hj, id]
  rw [ij, hj] at hi
  exact (Option.some.inj hi).symm

theorem Books.signals (h : Books w) {m : Message} (hm : m ∈ w.sent) :
    w.signals m = if w.stage m.id = .signalled then 1 else 0 := by
  have count := h.placed true m.id
  have same : w.signals m = (w.lists true).countP (fun a => a.id = m.id) := by
    refine List.countP_congr fun a ha => ?_
    obtain ⟨o, ho, origin⟩ := List.mem_filterMap.mp ha
    have sent := (h.outputs o ho a origin).1
    rw [beq_iff_eq, decide_eq_true_iff]
    exact ⟨fun e => e ▸ rfl, h.same sent hm⟩
  rw [same, count]
  cases e : w.stage m.id <;> simp [e, Stage.place]

theorem Books.open_iff (h : Books w) {m : Message} (hm : m ∈ w.sent) :
    w.Open m ↔ w.stage m.id ≠ .signalled := by
  constructor
  · rintro (listed | ⟨t, handling⟩)
    · simp [h.stage_inflight listed]
    · simp [(h.handled m.id t).mpr ⟨m, handling, rfl⟩]
  · intro other
    cases e : w.stage m.id with
    | unsent =>
      obtain ⟨i, hi⟩ := List.getElem?_of_mem hm
      have late := (h.unsent m.id).mp e
      have bound := (List.getElem?_eq_some_iff.mp hi).1
      rw [h.ids i m hi] at late
      omega
    | inflight =>
      obtain ⟨a, ha, id⟩ := h.placed.exists_mem (k := m.id) (i := false) (by simp [e, Stage.place])
      rw [← h.same (h.known a (.inl ha)) hm id]
      exact .inl ha
    | handled t =>
      obtain ⟨a, ha, id⟩ := (h.handled m.id t).mp e
      rw [← h.same (h.known a (.inr ⟨t, ha⟩)) hm id]
      exact .inr ⟨t, ha⟩
    | signalled => exact absurd e other

/-- In every settled run, active messages reach the devices they were put on. -/
theorem settled_routed {s : (system cfg).State}
    (h : System.Reach (Settled cfg) (start cfg) s) : Routed cfg s where
  found t i k hp := by
    have books := ((routing cfg).reach (routing_start cfg) h).1
    obtain ⟨m, handling, rfl, -⟩ := (routing cfg).pre_of_reach (routing_start cfg) h hp
    obtain ⟨d, found, live⟩ := books.ready m (.inr ⟨t, handling⟩)
    rw [books.here t m handling] at found
    exact ⟨m, d, handling, rfl, found, live⟩
  alive t d k hp := by
    have books := ((routing cfg).reach (routing_start cfg) h).1
    have target := (routing cfg).pre_of_reach (routing_start cfg) h hp
    obtain ⟨m, handling, -⟩ := books.target t d target
    exact (books.found handling target).2
  exact' := ((routing cfg).reach (routing_start cfg) h).1.outputs
  once m hm := by
    have books := ((routing cfg).reach (routing_start cfg) h).1
    rw [books.signals hm, books.open_iff hm]
    by_cases done : s.shared.stage m.id = .signalled
    · rw [if_pos done]
      exact .inr ⟨fun other => other done, rfl⟩
    · rw [if_neg done]
      exact .inl ⟨done, rfl⟩
  put := ((routing cfg).reach (routing_start cfg) h).1.source

/-- The next operation injects a put at a ready target, and frees no device. -/
def PutsReady (w : World) : Code Unit → Prop
  | .op (.requestMedium dst _ _ index _) _ => w.Ready dst index
  | .op (.deleteDevice _) _ => False
  | _ => True

instance PutsReady.decidable (w : World) (p : Code Unit) : Decidable (PutsReady w p) := by
  unfold PutsReady
  split <;> infer_instance

/-- Settled, and no device is freed. -/
def NothingFreed (cfg : Config) (s : (system cfg).State) : (system cfg).Event → Prop
  | .exec t => PutsReady s.shared (s.prog t)
  | _ => True

instance NothingFreed.decidable (s : (system cfg).State) :
    (e : (system cfg).Event) → Decidable (NothingFreed cfg s e)
  | .exec t => PutsReady.decidable s.shared (s.prog t)
  | .intr _ _ | .env _ => instDecidableTrue

theorem NothingFreed.settled {s : (system cfg).State} {e : (system cfg).Event}
    (h : NothingFreed cfg s e) : Settled cfg s e := by
  cases e with
  | exec t =>
    have next : PutsReady s.shared (s.prog t) := h
    unfold Settled
    dsimp only
    split
    · rename_i hp
      rwa [hp] at next
    · rename_i hp
      rw [hp] at next
      exact next.elim
    · trivial
  | _ => trivial

/-- Two processes, and queues only. -/
def pair : Config := ⟨2, fun _ => false⟩

/-- The main thread of a process allocates a device. -/
def allocRun (r : Rank) (c : Comp) : List (system pair).Event :=
  .intr ⟨r, 0⟩ (.call (.allocDevice 8 c)) :: List.replicate 6 (.exec ⟨r, 0⟩)

/-- Process 0 puts three bytes to process 1. -/
def putRun (d : Dev) : List (system pair).Event :=
  .env (.write 0 4 [1, 2, 3]) :: .intr ⟨0, 0⟩ (.call (.put d 1 (.user 0 4) 3 7 6)) ::
    List.replicate 5 (.exec ⟨0, 0⟩)

/-- Process 1 makes progress on its device, receives the message, and does `n` steps. -/
def receiveRun (d : Dev) (n : Nat) : List (system pair).Event :=
  .intr ⟨1, 0⟩ (.call (.doProgress d)) :: .exec ⟨1, 0⟩ :: .intr ⟨1, 0⟩ (.deliver 0) ::
    List.replicate n (.exec ⟨1, 0⟩)

end Claim

/-- A put of three bytes, signalled at the other process. -/
theorem settled_routed_three_bytes : ∃ s : (system pair).State,
    s.shared.outputs.filterMap (fun o => o.origin.map fun m => (o.rank, o.comp, o.bytes, m.src)) =
      [(1, 10, [1, 2, 3], 0)] ∧ Routed pair s := by
  let es := allocRun 0 10 ++ allocRun 1 10 ++ putRun ⟨0, 0, 0, 10⟩ ++ receiveRun ⟨1, 1, 0, 10⟩ 8
  have run : (System.run (start pair) es).map (fun s =>
      s.shared.outputs.filterMap (fun o =>
        o.origin.map fun m => (o.rank, o.comp, o.bytes, m.src))) =
      some [(1, 10, [1, 2, 3], 0)] := by
    decide
  have ready : System.Admitted (NothingFreed pair) (start pair) es := by
    decide
  obtain ⟨s, reached, outputs⟩ := System.reach_probe ready run
  exact ⟨s, outputs, settled_routed (reached.mono fun _ _ => NothingFreed.settled)⟩

/-- The device code is about to look up. -/
private def lookedUp : Code Unit → Option Nat
  | .op (.deviceAt i) _ => some i
  | _ => none

private theorem lookedUp_eq {p : Code Unit} {i : Nat} (h : lookedUp p = some i) :
    ∃ k, p = .op (.deviceAt i) k := by
  unfold lookedUp at h
  split at h
  · rename_i j k
    obtain rfl := Option.some.inj h
    exact ⟨k, rfl⟩
  · cases h

/-- Process 0 puts on its second device before process 1 has allocated its own: the handler
reads past the end of `g_devices`. -/
theorem early_put_finds_no_device : ∃ s : (system pair).State,
    System.Reach (fun _ _ => True) (start pair) s ∧
      (s.shared.devices 1).length = 1 ∧ (∃ k, s.prog ⟨1, 0⟩ = .op (.deviceAt 1) k) ∧
        ¬ Routed pair s := by
  have run : (System.run (start pair) (allocRun 0 10 ++ allocRun 0 11 ++ allocRun 1 10 ++
      putRun ⟨0, 1, 1, 11⟩ ++ receiveRun ⟨1, 2, 0, 10⟩ 2)).map (fun s =>
        ((s.shared.devices 1).length, lookedUp (s.prog ⟨1, 0⟩))) = some (1, some 1) := by
    decide
  obtain ⟨s, reached, stuck⟩ := System.reach_probe_any run
  obtain ⟨size, next⟩ := Prod.mk.inj stuck
  have waiting : ∃ k, s.prog ⟨1, 0⟩ = .op (.deviceAt 1) k := lookedUp_eq next
  refine ⟨s, reached, size, waiting, fun routed => ?_⟩
  obtain ⟨k, hp⟩ := waiting
  obtain ⟨m, d, -, -, found, -⟩ := routed.found _ _ _ hp
  have bound := (List.getElem?_eq_some_iff.mp found).1
  rw [size] at bound
  omega

end Lcw.Gex
