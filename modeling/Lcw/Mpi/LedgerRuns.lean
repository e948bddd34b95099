/- digest: The books are kept by every operation, every interjection and every step of MPI. -/

import Lcw.Mpi.Callers
import Lcw.Mpi.Filing
import Lcw.Mpi.Listening
import Lcw.Mpi.Matching
import Lcw.Mpi.Permits
import Lcw.Mpi.PutSlots

set_option autoImplicit false
set_option relaxedAutoImplicit false

namespace Lcw.Mpi

open Interleave
open Function (update)

variable {cfg : Config} {P : PutRules cfg} {G : Guard} {t : Tid} {w w' : World}

section Keeping

/-- An operation whose precondition holds keeps the books. -/
theorem Books.exec (h : Books P w) (coh : Coherence cfg G w) {o : Op} {r : o.Ret}
    (locks : structurePre cfg G t o (stance t w)) (pre : ledgerPre P t o (account t w))
    (rule : P.on = true → ∀ d dev, o = .initDevice d dev →
      dev.putRbufSize = P.size d.rank dev.comm.context)
    (hx : exec cfg t o w = some (r, w')) : Books P w' where
  filed := Filed.exec h pre hx
  contents := Contents.exec h coh pre hx
  matching := Matching.exec h pre hx
  permits := Permits.exec h pre hx
  slots :=
    { toHomes := Homes.exec h coh locks pre rule hx
      toBlocks := Blocks.exec h coh pre hx
      listening := Listening.exec h coh locks pre hx }
  calls := Calls.exec h pre hx

theorem Homes.pushCall (h : Homes P w) {c : Call} : Homes P (w.pushCall t c) := by
  refine ⟨h.free, h.locked, h.fresh, h.comp, fun d known => ?_, h.table⟩
  apply h.published d
  cases c with
  | freeDevice d' =>
    have known : update w.devs.published d' false d = true := known
    by_cases e : d = d'
    · subst e
      simp at known
    · rwa [Function.update_of_ne e] at known
  | _ => exact known

/-- The client calls with what it may use. -/
theorem Books.pushCall (h : Books P w) {c : Call} (callable : w.callable t c = true)
    (idle : (account t w).Idle cfg)
    (alloc : P.on = true → ∀ n comp, c = .allocDevice n comp → comp ≠ none)
    (put : P.on = true → ∀ d rank buf len comp ctx, c = .put d rank buf len comp ctx →
      ∀ dev, w.devs.table d = some dev → PutFits P len (toInt rank).toNat dev.comm.context) :
    Books P (w.pushCall t c) where
  filed := h.filed.of_store rfl
  contents := h.contents.congr rfl rfl rfl rfl rfl rfl rfl
  matching := h.matching.carry (fun _ e => e) rfl rfl rfl rfl rfl
  permits := h.permits.carry rfl (Moved.of_self (t := t) rfl)
  slots :=
    { toHomes := h.slots.toHomes.pushCall
      toBlocks := h.slots.toBlocks.carry rfl rfl rfl
      listening := fun d => (h.slots.listening d).carry rfl rfl (fun _ _ _ => rfl)
        (fun _ => rfl) (fun _ => rfl) fun _ _ => ⟨rfl, rfl, rfl, rfl⟩ }
  calls := Calls.pushCall h callable idle alloc put

theorem consume_reqs {p : RequestPtr} {st : Status} {h : Option Handle} {x : Handle}
    (hx : ∀ y, h = some y → x ≠ y) : (w.consume p st h).net.reqs x = w.net.reqs x := by
  unfold World.consume
  split
  · rfl
  · rename_i y
    split
    · rfl
    · exact Function.update_of_ne (hx y rfl) _ _

/-- A continuation MPI runs takes its operation out of the hands of the manager. -/
theorem Books.takeContinuation (h : Books P w) (coh : Coherence cfg G w) {o : Op} {m : Manager}
    {i : Nat} {e : Entry} {st : Status} (compType : cfg.compType = .continue)
    (found : (w.store.attached m)[i]? = some e) (outcome : w.outcome cfg e = some st)
    (busy : w.client.acts t ≠ []) : Books P (w.takeContinuation t o m i e st) := by
  have here := List.mem_of_getElem? found
  have attached := h.filed.attached_of_mem here
  have managed := coh.attached m e here
  have own (x : Handle) (hx : e.mpiReq = some x) : x.request = e.request :=
    (managed.coherent.handle x hx).2
  have phase : (w.takeContinuation t o m i e st).net.phase = w.net.phase := by
    rw [World.takeContinuation_eq]
    exact consume_phase
  have moved : Moved t w (w.takeContinuation t o m i e st) := h.filed.moved_takeContinuation found
  constructor
  · exact h.filed.takeContinuation found
  · exact Contents.takeContinuation h found
  · exact h.matching.takeContinuation attached own outcome
  · apply h.permits.carry _ moved
    rw [World.takeContinuation_eq]
  · constructor
    · apply h.slots.toHomes.carry _ phase
      · rw [World.takeContinuation_eq]
      · rw [World.takeContinuation_eq]
        exact fun _ => rfl
      · rw [World.takeContinuation_eq]
        exact fun _ => rfl
    · apply h.slots.toBlocks.carry
      all_goals rw [World.takeContinuation_eq]
    · intro d
      apply (h.slots.listening d).touch (fun _ hq => sameAt_takeContinuation hq)
      · rw [attached]
        intro e'
        cases e'
      · rw [phase]
      all_goals rw [World.takeContinuation_eq]
      intro x op _
      apply consume_reqs
      rintro y hy rfl
      exact managed.op (own x hy ▸ op)
  · exact h.calls.takeContinuation compType attached busy

/-- Steps of MPI and of the client's memory keep the books. -/
theorem Books.env (h : Books P w) (hx : EnvStep cfg w w') : Books P w' := by
  cases hx with
  | sendDone x q hq send pending =>
    refine ⟨h.filed.of_store rfl, h.contents.congr rfl rfl rfl rfl rfl rfl rfl,
      h.matching.sendDone hq send pending, h.permits.carry rfl (Moved.of_self (t := ⟨0, 0⟩) rfl),
      ⟨h.slots.toHomes.carry (fun _ => rfl) rfl rfl fun _ => rfl,
        h.slots.toBlocks.carry rfl rfl rfl, fun d => ?_⟩,
      h.calls.still rfl rfl (.of_eq rfl rfl rfl fun _ born => born)⟩
    refine (h.slots.listening d).carry rfl rfl (fun y op _ => ?_) (fun _ => rfl) (fun _ => rfl)
      fun _ _ => ⟨rfl, rfl, rfl, rfl⟩
    apply Function.update_of_ne
    rintro rfl
    have recv := (h.matching.req y q hq).recv.mpr (.inr op)
    simp [send] at recv
  | deliver i m x q hm hq pending accepts =>
    refine ⟨h.filed.of_store rfl, h.contents.congr rfl rfl rfl rfl rfl rfl rfl,
      h.matching.deliver hm hq pending accepts,
      h.permits.carry rfl (Moved.of_self (t := ⟨0, 0⟩) rfl),
      ⟨h.slots.toHomes.carry (fun _ => rfl) rfl rfl fun d => ?_,
        h.slots.toBlocks.carry rfl rfl rfl, fun d => Listening.deliver h hq pending d⟩,
      h.calls.still rfl rfl (.of_eq rfl rfl rfl fun _ born => born)⟩
    simp only [World.deliver, World.setReq]
    by_cases e : Buffer.putRbuf d = q.buffer
    · rw [e, Function.update_self, length_scatter]
    · rw [Function.update_of_ne e]
  | write b bytes hb =>
    have other (d : Dev) : Buffer.putRbuf d ≠ b := by
      rintro rfl
      simp [World.accessible] at hb
    refine ⟨h.filed.of_store rfl, h.contents.congr rfl rfl rfl rfl rfl rfl rfl,
      h.matching.carry (fun _ e => e) rfl rfl rfl rfl rfl,
      h.permits.carry rfl (Moved.of_self (t := ⟨0, 0⟩) rfl),
      ⟨h.slots.toHomes.carry (fun _ => rfl) rfl rfl fun d => ?_,
        h.slots.toBlocks.carry rfl rfl rfl, fun d => ?_⟩,
      h.calls.still rfl rfl (.of_eq rfl rfl rfl fun _ born => born)⟩
    · simp only [Function.update_of_ne (other d)]
    · refine (h.slots.listening d).carry rfl rfl (fun _ _ _ => rfl) (fun _ => ?_) (fun _ => rfl)
        fun _ _ => ⟨rfl, rfl, rfl, rfl⟩
      simp only [Function.update_of_ne (other d)]

end Keeping

section Start

theorem filed_initial : Filed cfg World.initial where
  ptr _ h := absurd rfl h
  deque := .empty
  conts := .empty
  told := .empty
  fifo c := by
    split
    · exact ⟨rfl, rfl⟩
    · rfl

theorem contents_initial : Contents P World.initial where
  entries _ _ h := by cases h
  attached _ _ h := by cases h
  delivered _ _ h := by cases h

theorem matching_initial : Matching P World.initial where
  req _ _ h := by cases h
  complete _ _ _ h := by cases h
  consumed _ _ h := by cases h
  result _ _ h := by cases h
  resultBegun _ h := absurd rfl h
  flying _ h := by cases h
  distinct := List.nodup_nil
  sent _ h := absurd rfl h

theorem permits_initial : Permits World.initial where
  fresh _ _ _ := rfl
  thread := by simp [World.initial]
  operation := by simp [World.initial]
  live _ h := absurd rfl h

theorem slots_initial : Slots P World.initial where
  free _ _ _ := .inl rfl
  locked _ h := absurd rfl h
  fresh _ _ := ⟨rfl, rfl, rfl⟩
  comp _ _ h := by simp [World.initial] at h
  published _ h := by cases h
  table _ _ h := by cases h
  block _ h := absurd rfl h
  given _ h := absurd rfl h
  listening _ :=
    { armed := fun h => by cases h
      reposted := fun _ h => by cases h
      out := fun _ _ h => by cases h }

theorem calls_initial : Calls P World.initial where
  ok _ _ h := by cases h
  added _ _ h := by cases h
  accepted _ h := by cases h
  accounted _ _ h := by cases h
  owned _ _ _ h := by cases h
  held _ _ _ _ h := by cases h
  buffer _ _ h := absurd rfl h

/-- Nothing is outstanding after `initialize`. -/
theorem books_initial : Books P World.initial where
  filed := filed_initial
  contents := contents_initial
  matching := matching_initial
  permits := permits_initial
  slots := slots_initial
  calls := calls_initial

end Start

end Lcw.Mpi
