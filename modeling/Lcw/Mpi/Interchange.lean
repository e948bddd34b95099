/- digest: Which completion manager a job has shows only in what its receives report. -/

import Lcw.Mpi.LedgerApi
import Mathlib.Logic.Equiv.Defs

set_option autoImplicit false
set_option relaxedAutoImplicit false

namespace Lcw.Mpi

open Interleave System

/-- The job with this completion manager. -/
def Config.under (cfg : Config) (k : CompType) : Config := { cfg with compType := k }

/-- What two jobs can agree on of a notice: where the bytes of a put are kept is up to the
allocator. -/
def Request.content (q : Request) : Request :=
  if q.op = .putSignal then { q with buffer := .putRbuf q.device } else q

/-- All there is to tell was told: every operation of the client, and every put that has arrived. -/
structure Settled (w : World) : Prop where
  posted : ∀ p, p.posted.op ≠ .putSignal → w.store.stage p ≠ .unborn →
    (w.store.stage p).told = true
  arrived : ∀ p, p.posted.op = .putSignal → w.net.result p ≠ none →
    (w.store.stage p).told = true

/-- Two jobs of which each posted the operations of the other, and got the same puts. -/
structure Alike (w w' : World) (σ : Equiv.Perm RequestPtr) : Prop where
  posted : ∀ p, (σ p).posted = p.posted
  completion : ∀ p, (σ p).completion = p.completion
  begun : ∀ p, w.store.stage p = .unborn ↔ w'.store.stage (σ p) = .unborn
  reported : ∀ p, p.posted.op = .putSignal →
    (w.net.result p = none ↔ w'.net.result (σ p) = none)
  arrived : ∀ p st st', p.posted.op = .putSignal → w.net.result p = some st →
    w'.net.result (σ p) = some st' → st.source = st'.source ∧ st.tag = st'.tag ∧
      st.bytes = st'.bytes

variable (cfg : Config)

/-- The receive got a message of the length it was posted with, from whom and with the tag it was
posted for. -/
def World.Exact (w : World) (p : RequestPtr) : Prop :=
  ∀ st, w.net.result p = some st → received cfg p.posted st = p.posted

/-- Each completion object is told of the same operations, each as often and with the same content
but for receives: one manager reports what has arrived, the other what was posted. -/
structure Interchangeable (w w' : World) (σ : Equiv.Perm RequestPtr) : Prop where
  arrived : ∀ c, ∀ x ∈ w.store.delivered c, x.origin.posted.op = .recv →
    ∃ st, w.net.result x.origin = some st ∧ x.request = received cfg x.origin.posted st
  posted : ∀ c, ∀ x' ∈ w'.store.delivered c, x'.origin.posted.op ≠ .putSignal →
    x'.request = x'.origin.posted
  origins : ∀ c, ((w.store.delivered c).map fun x => σ x.origin).Perm
    ((w'.store.delivered c).map Delivery.origin)
  agree : ∀ c, ∀ x ∈ w.store.delivered c, ∀ x' ∈ w'.store.delivered c, σ x.origin = x'.origin →
    (x.request.content = x'.request.content ↔
      (x.origin.posted.op = .recv → w.Exact cfg x.origin))
  notices : ∀ c, (∀ x ∈ w.store.delivered c, x.origin.posted.op = .recv → w.Exact cfg x.origin) →
    ((w.store.delivered c).map fun x => x.request.content).Perm
      ((w'.store.delivered c).map fun x => x.request.content)

variable {cfg} {w w' : World} {σ : Equiv.Perm RequestPtr} {p : RequestPtr} {c : Comp}

section Correspondence

theorem Alike.symm (h : Alike w w' σ) : Alike w' w σ.symm where
  posted p := by simpa using (h.posted (σ.symm p)).symm
  completion p := by simpa using (h.completion (σ.symm p)).symm
  begun p := by simpa using (h.begun (σ.symm p)).symm
  reported p put := by
    have put : (σ.symm p).posted.op = .putSignal := by
      simpa [put] using congrArg Request.op (h.posted (σ.symm p)).symm
    simpa using (h.reported (σ.symm p) put).symm
  arrived p st st' put here there := by
    have put : (σ.symm p).posted.op = .putSignal := by
      simpa [put] using congrArg Request.op (h.posted (σ.symm p)).symm
    obtain ⟨source, tag, bytes⟩ := h.arrived (σ.symm p) st' st put there (by simpa using here)
    exact ⟨source.symm, tag.symm, bytes.symm⟩

/-- What was told in one job was told to the same completion object in the other. -/
theorem Alike.toldTo (h : Alike w w' σ) {P : PutRules cfg} (books : Books P w)
    (settled : Settled w') {x : Delivery} (told : x ∈ w.store.delivered c) :
    Mpi.toldTo w' (σ x.origin) = some c := by
  have place := books.filed.told.place_of_mem told
  obtain ⟨st, result, -⟩ := (books.contents.delivered c x told).reported
  unfold Mpi.toldTo at place ⊢
  split at place
  · rename_i gone
    have there : (w'.store.stage (σ x.origin)).told = true := by
      by_cases op : x.origin.posted.op = .putSignal
      · refine settled.arrived _ (by rwa [h.posted]) fun none => ?_
        have none := (h.reported x.origin op).mpr none
        rw [result] at none
        cases none
      · refine settled.posted _ (by rwa [h.posted]) fun unborn => ?_
        have unborn := (h.begun x.origin).mpr unborn
        rw [unborn] at gone
        cases gone
    rw [if_pos there, h.completion, place]
  · cases place

theorem Alike.mem_origins (h : Alike w w' σ) {cfg' : Config} {P : PutRules cfg}
    {P' : PutRules cfg'} (books : Books P w) (books' : Books P' w') (settled : Settled w')
    (here : p ∈ (w.store.delivered c).map Delivery.origin) :
    σ p ∈ (w'.store.delivered c).map Delivery.origin := by
  obtain ⟨x, told, rfl⟩ := List.mem_map.mp here
  obtain ⟨x', told', same⟩ := books'.filed.told.exists_mem (h.toldTo books settled told)
  exact List.mem_map.mpr ⟨x', told', same⟩

theorem Alike.origins (h : Alike w w' σ) {cfg' : Config} {P : PutRules cfg} {P' : PutRules cfg'}
    (books : Books P w) (books' : Books P' w') (settled : Settled w) (settled' : Settled w')
    (c : Comp) : ((w.store.delivered c).map fun x => σ x.origin).Perm
      ((w'.store.delivered c).map Delivery.origin) := by
  have split : ((w.store.delivered c).map fun x => σ x.origin) =
      ((w.store.delivered c).map Delivery.origin).map σ := by
    rw [List.map_map]
    rfl
  rw [split]
  have once := (books.filed.told.nodup c).map σ.injective
  refine (List.perm_ext_iff_of_nodup once (books'.filed.told.nodup c)).mpr fun p' => ?_
  constructor
  · intro mapped
    obtain ⟨p, here, rfl⟩ := List.mem_map.mp mapped
    exact h.mem_origins books books' settled' here
  · intro there
    have here := h.symm.mem_origins books' books settled there
    exact List.mem_map.mpr ⟨σ.symm p', here, σ.apply_symm_apply p'⟩

end Correspondence

section Notices

theorem content_of_user {q : Request} (user : q.op ≠ .putSignal) : q.content = q := if_neg user

theorem finalRequest_request {st : Status} (recv : p.posted.op = .recv) :
    finalRequest (cfg.under .request) p st = received cfg p.posted st := by
  simp only [finalRequest, Config.under, recv]
  rfl

theorem finalRequest_other {st : Status} (other : p.posted.op ≠ .recv) :
    finalRequest cfg p st = p.posted := by
  unfold finalRequest
  split
  · rename_i recv
    exact absurd recv other
  · rfl

/-- What is read of two statuses for which the same arrived. -/
theorem received_congr {cfg' : Config} {q : Request} {st st' : Status}
    (undefined : cfg.undefined = cfg'.undefined) (source : st.source = st'.source)
    (tag : st.tag = st'.tag) (bytes : st.bytes = st'.bytes) :
    received cfg q st = received cfg' q st' := by
  unfold received getCount
  rw [source, tag, bytes, undefined]

theorem Alike.agree (h : Alike w w' σ) {P : PutRules (cfg.under .request)}
    {P' : PutRules (cfg.under .continue)} (books : Books P w) (books' : Books P' w')
    {x x' : Delivery} (told : x ∈ w.store.delivered c) (told' : x' ∈ w'.store.delivered c)
    (same : σ x.origin = x'.origin) :
    x.request.content = x'.request.content ↔
      (x.origin.posted.op = .recv → w.Exact cfg x.origin) := by
  obtain ⟨st, result, user, signal⟩ := (books.contents.delivered c x told).reported
  obtain ⟨st', result', user', signal'⟩ := (books'.contents.delivered c x' told').reported
  rw [← same] at result' user' signal'
  rw [h.posted] at user' signal'
  by_cases put : x.origin.posted.op = .putSignal
  · obtain ⟨source, tag, bytes⟩ := h.arrived x.origin st st' put result result'
    obtain ⟨k, final, -⟩ := signal put
    obtain ⟨k', final', -⟩ := signal' put
    have fields : received (cfg.under .request) x.origin.posted st =
        received (cfg.under .continue) x.origin.posted st' :=
      received_congr rfl source tag bytes
    refine iff_of_true ?_ fun op => absurd (put.symm.trans op) (by simp)
    rw [final, final', fields]
    simp [Request.content, received, put]
  · have told' : x'.request = x.origin.posted := by
      rw [user' put, finalRequest, h.posted]
      rfl
    have told : x.request = finalRequest (cfg.under .request) x.origin st := user put
    by_cases op : x.origin.posted.op = .recv
    · rw [told', told, finalRequest_request op, content_of_user put, content_of_user (by simpa [received] using put)]
      constructor
      · intro exact' _ st' here
        obtain rfl := Option.some.inj (result.symm.trans here)
        exact exact'
      · intro exact'
        exact exact' op st result
    · refine iff_of_true ?_ fun recv => absurd recv op
      rw [told', told, finalRequest_other op]

end Notices

section Runs

/-- Where two runs, one under each manager, have the same operations and the same messages arrive
for them, each completion object is told of the same operations; whatever it is told is the same,
but for receives of other messages than those they were posted for. -/
theorem managers_interchangeable {s : (machine (cfg.under .request)).State}
    {s' : (machine (cfg.under .continue)).State}
    (h : Reach (fun _ _ => True) (start (cfg.under .request)) s)
    (h' : Reach (fun _ _ => True) (start (cfg.under .continue)) s')
    (settled : Settled s.shared) (settled' : Settled s'.shared)
    (alike : Alike s.shared s'.shared σ) : Interchangeable cfg s.shared s'.shared σ := by
  have books := (ledgered_of_reach h).books
  have books' := (ledgered_of_reach h').books
  have origins (c : Comp) := alike.origins books books' settled settled' c
  have agree (c : Comp) (x : Delivery) (told : x ∈ s.shared.store.delivered c) (x' : Delivery)
      (told' : x' ∈ s'.shared.store.delivered c) (same : σ x.origin = x'.origin) :=
    alike.agree books books' told told' same
  refine ⟨fun c x told recv => ?_, fun c x' told' user => ?_, origins, agree, fun c whole => ?_⟩
  · obtain ⟨st, result, final, -⟩ := (books.contents.delivered c x told).reported
    refine ⟨st, result, ?_⟩
    rw [final (by simp [recv]), finalRequest_request recv]
  · obtain ⟨st, -, final, -⟩ := (books'.contents.delivered c x' told').reported
    rw [final user]
    rfl
  · refine map_perm_of_keys (origins c) fun x told x' told' same => ?_
    exact (agree c x told x' told' same).mpr (whole x told)

end Runs

end Lcw.Mpi
