/- digest: Lock order, stream serialization and handler re-entry, as consequences of the rules. -/

import Lcw.Interleave.WaitFor
import Lcw.Mpi.StructureCalls

set_option autoImplicit false
set_option relaxedAutoImplicit false

namespace Lcw.Mpi

open Interleave System

variable {cfg : Config} {s : (machine cfg).State}

/-- The rules for the next operation of a thread hold in every state of a regular run. -/
theorem structurePre_of_reach {G : Guard} (h : Reach (Regular cfg G) (start cfg) s) {t : Tid}
    {o : Op} (ho : nextOp s t = some o) : structurePre cfg G t o (stance t s.shared) := by
  obtain ⟨k, hk⟩ := nextOp_eq_some.mp ho
  exact (structureDiscipline cfg G).pre_of_reach structure_start h hk

section Order

/-- Put slots come before managers, and managers before streams. -/
def Lock.rank : Lock → Nat
  | .put _ => 0
  | .manager _ => 1
  | .stream _ => 2

/-- The lock a thread is blocked on, or about to take, by `lock()`. -/
def waitsFor (s : (machine cfg).State) (t : Tid) : Option Lock :=
  match nextOp s t with
  | some (.lock l) => some l
  | _ => none

theorem waitsFor_eq_some {t : Tid} {l : Lock} :
    waitsFor s t = some l ↔ nextOp s t = some (.lock l) := by
  unfold waitsFor
  split <;> simp_all

/-- Locks are taken without circular waits, released by their holder before a call returns, and
never held while client code or a queue is signalled. -/
structure LockDiscipline (s : (machine cfg).State) : Prop where
  acyclic : ∀ t, ¬ Relation.TransGen (Blocked s.shared.sync.owner (waitsFor s)) t t
  release : ∀ t l, nextOp s t = some (.unlock l) → s.shared.sync.owner l = some t
  returned : ∀ t r l, nextOp s t = some (.endCall r) → s.shared.sync.owner l ≠ some t
  signalled : ∀ t c q p l, nextOp s t = some (.signal c q p) → s.shared.sync.owner l ≠ some t
  client : ∀ t l, nextOp s t = some .userCode → s.shared.sync.owner l ≠ some t

theorem rising_waits {G : Guard} (hr : cfg.compType = .request)
    (h : Reach (Regular cfg G) (start cfg) s) :
    RisingWaits s.shared.sync.owner (waitsFor s) Lock.rank := by
  intro t l hl k hk
  have pre := structurePre_of_reach h (waitsFor_eq_some.mp hl)
  have mine : k ∈ (stance t s.shared).locks := hk
  cases l with
  | put d => exact pre.2.elim
  | manager m =>
    have none_held : (stance t s.shared).locks = ∅ := pre.2
    simp [none_held] at mine
  | stream d =>
    have enterable : (stance t s.shared).Enterable cfg G d := pre.2.2
    cases k with
    | put d' => exact Nat.zero_lt_two
    | manager m => exact Nat.one_lt_two
    | stream d' => exact (enterable.request hr d' mine).elim

/-- Under the REQUEST manager every run keeps the lock discipline. -/
theorem request_lock_discipline (hr : cfg.compType = .request)
    (h : Reach (fun _ _ => True) (start cfg) s) : LockDiscipline s := by
  have h : Reach (Regular cfg .none) (start cfg) s := h.mono fun _ _ _ => regular_none _ _
  have free {t : Tid} {l : Lock} (hv : (stance t s.shared).Unlocked cfg) :
      s.shared.sync.owner l ≠ some t := fun e => by
    have mine : l ∈ (stance t s.shared).locks := e
    simp [hv hr] at mine
  exact
    { acyclic := (rising_waits hr h).no_cycle
      release := fun t l hn => (structurePre_of_reach h hn).2.1
      returned := fun t r l hn => free (structurePre_of_reach h hn).2
      signalled := fun t c q p l hn => free (structurePre_of_reach h hn).2
      client := fun t l hn => free (structurePre_of_reach h hn).2 }

/-- A send of the small job is about to take its manager's lock. -/
theorem request_lock_discipline_addEntry : ∃ s,
    Reach (fun _ _ => True) (start (smallJob .request true 0)) s ∧
      nextOp s ⟨0, 0⟩ = some (.lock (.manager (.priv ⟨0, 0⟩))) ∧ LockDiscipline s := by
  let J := smallJob .request true 0
  let es := allocFirst J ++
    .intr ⟨0, 0⟩ (.call (.send ⟨0, 0⟩ 0 3 (.user 0) 1 (some 5) 0)) :: steps J ⟨0, 0⟩ 5
  have played : (run (start J) es).map (fun s => nextOp s ⟨0, 0⟩) =
      some (some (.lock (.manager (.priv ⟨0, 0⟩)))) := rfl
  obtain ⟨s, hs, hn⟩ := reach_probe_any played
  exact ⟨s, hs, hn, request_lock_discipline rfl hs⟩

end Order

section Streams

/-- The MPI calls a thread is inside: its next operation, and those it was interrupted in. -/
def insideCalls (s : (machine cfg).State) (t : Tid) : List Op :=
  match nextOp s t with
  | some o => o :: s.shared.sync.inside t
  | none => s.shared.sync.inside t

/-- A thread inside a communication call on a stream holds its lock, and no other thread is. -/
def StreamSerialized (s : (machine cfg).State) : Prop :=
  ∀ t, ∀ o ∈ insideCalls s t, ∀ d, o.streamDevice = some d →
    s.shared.sync.owner (.stream d) = some t ∧
      ∀ u, ∀ o' ∈ insideCalls s u, o'.streamDevice = some d → u = t

/-- Barriers are called by threads that hold the stream lock already. -/
def BarrierStreamed (cfg : Config) (s : (machine cfg).State) : (machine cfg).Event → Prop
  | .intr t (.call (.barrier d)) => s.shared.sync.owner (.stream d) = some t
  | _ => True

instance (s : (machine cfg).State) (e : (machine cfg).Event) :
    Decidable (BarrierStreamed cfg s e) := by
  unfold BarrierStreamed
  split <;> infer_instance

theorem regular_barrierStreamed (s : (machine cfg).State) (e : (machine cfg).Event)
    (h : BarrierStreamed cfg s e) : Regular cfg ⟨false, true⟩ s e := by
  unfold Regular
  split
  · split
    · exact fun h => nomatch h
    · exact fun _ h => nomatch h
    · trivial
  · exact fun _ _ => h
  · trivial

theorem covers_insideCalls {G : Guard} (h : Reach (Regular cfg G) (start cfg) s) {t : Tid}
    {o : Op} (ho : o ∈ insideCalls s t) : Covers cfg G (stance t s.shared).locks o := by
  have covered := ((structureDiscipline cfg G).reach structure_start h).1.covered t
  unfold insideCalls at ho
  split at ho
  · rename_i n hn
    rcases List.mem_cons.mp ho with rfl | ho
    · exact (structurePre_of_reach h hn).1
    · exact covered o ho
  · exact covered o ho

/-- Runs whose barriers are made under the stream lock serialize every stream. -/
theorem stream_calls_serialized (hs : cfg.useStream = true)
    (h : Reach (BarrierStreamed cfg) (start cfg) s) : StreamSerialized s := by
  have h : Reach (Regular cfg ⟨false, true⟩) (start cfg) s := h.mono regular_barrierStreamed
  have holds {t : Tid} {o : Op} {d : Dev} (ho : o ∈ insideCalls s t)
      (hd : o.streamDevice = some d) : s.shared.sync.owner (.stream d) = some t :=
    covers_insideCalls h ho hs (fun _ => rfl) d hd
  intro t o ho d hd
  refine ⟨holds ho hd, fun u o' ho' hd' => ?_⟩
  exact Option.some.inj ((holds ho' hd').symm.trans (holds ho hd))

/-- One thread is inside a send, and a second one waits for the stream. -/
theorem stream_calls_serialized_send : ∃ s,
    Reach (BarrierStreamed _) (start (smallJob .request true 0)) s ∧
      nextOp s ⟨0, 1⟩ = some (.lock (.stream ⟨0, 0⟩)) ∧ StreamSerialized s := by
  let J := smallJob .request true 0
  let call : Call := .send ⟨0, 0⟩ 0 3 (.user 0) 1 (some 5) 0
  let es := allocFirst J ++ .intr ⟨0, 0⟩ (.call call) :: steps J ⟨0, 0⟩ 3 ++
    .intr ⟨0, 1⟩ (.call call) :: steps J ⟨0, 1⟩ 2
  have played : (run (start J) es).map (fun s => nextOp s ⟨0, 1⟩) =
      some (some (.lock (.stream ⟨0, 0⟩))) := rfl
  have admitted : Admitted (BarrierStreamed J) (start J) es := by decide +kernel
  obtain ⟨s, hs, hn⟩ := reach_probe admitted played
  exact ⟨s, hs, hn, stream_calls_serialized rfl hs⟩

/-- One thread is in `MPI_Barrier` while another one sends on the same stream. -/
theorem barrier_overlaps_send : ∃ s,
    Reach (fun _ _ => True) (start (smallJob .request true 0)) s ∧ ¬ StreamSerialized s := by
  let J := smallJob .request true 0
  let d : Dev := ⟨0, 0⟩
  let es := allocFirst J ++ .intr ⟨0, 0⟩ (.call (.barrier d)) :: steps J ⟨0, 0⟩ 1 ++
    .intr ⟨0, 1⟩ (.call (.send d 0 3 (.user 0) 1 (some 5) 0)) :: steps J ⟨0, 1⟩ 3
  have played : (run (start J) es).map (fun s =>
      ((nextOp s ⟨0, 0⟩).bind Op.streamDevice, (nextOp s ⟨0, 1⟩).bind Op.streamDevice)) =
      some (some d, some d) := rfl
  obtain ⟨s, hs, hn⟩ := reach_probe_any played
  refine ⟨s, hs, fun serialized => ?_⟩
  have inside {t : Tid} (ht : (nextOp s t).bind Op.streamDevice = some d) :
      ∃ o ∈ insideCalls s t, o.streamDevice = some d := by
    obtain ⟨o, ho, hd⟩ := Option.bind_eq_some_iff.mp ht
    exact ⟨o, by simp [insideCalls, ho], hd⟩
  obtain ⟨o, ho, hd⟩ := inside (congrArg Prod.fst hn)
  obtain ⟨o', ho', hd'⟩ := inside (congrArg Prod.snd hn)
  have same : (⟨0, 1⟩ : Tid) = ⟨0, 0⟩ := (serialized _ o ho d hd).2 _ o' ho' hd'
  exact absurd same (by decide)

end Streams

section Reentry

/-- No thread waits for a lock that it holds. -/
def NoSelfBlock (s : (machine cfg).State) : Prop :=
  ∀ t l, nextOp s t = some (.lock l) → s.shared.sync.owner l ≠ some t

/-- No thread that holds the stream lock of a device gets past admission in a post on it, or
obtains its put slot. -/
def EntersUnheld (cfg : Config) (s : (machine cfg).State) : (machine cfg).Event → Prop
  | .exec t => match nextOp s t with
    | some (.newRequest q _) =>
      cfg.useStream = true → s.shared.sync.owner (.stream q.device) ≠ some t
    | some (.tryLock (.put d)) => s.shared.sync.owner (.put d) = none →
      cfg.useStream = true → s.shared.sync.owner (.stream d) ≠ some t
    | _ => True
  | _ => True

instance (s : (machine cfg).State) (e : (machine cfg).Event) :
    Decidable (EntersUnheld cfg s e) := by
  unfold EntersUnheld
  split
  · split <;> infer_instance
  · infer_instance

theorem regular_entersUnheld (s : (machine cfg).State) (e : (machine cfg).Event)
    (h : EntersUnheld cfg s e) : Regular cfg ⟨true, false⟩ s e := by
  cases e with
  | exec t =>
    simp only [EntersUnheld, nextOp] at h
    simp only [Regular]
    split
    · rename_i hs
      rw [hs] at h
      exact fun _ hu => h hu
    · rename_i hs
      rw [hs] at h
      exact fun free _ hu => h free hu
    · trivial
  | intr t i =>
    unfold Regular
    split
    · trivial
    · intro h
      cases h
    · trivial
  | env e => trivial

/-- Runs in which handlers enter only devices whose stream lock their thread does not hold
never block a thread on itself. -/
theorem reentrant_handlers_never_self_block (h : Reach (EntersUnheld cfg) (start cfg) s) :
    NoSelfBlock s := by
  have h : Reach (Regular cfg ⟨true, false⟩) (start cfg) s := h.mono regular_entersUnheld
  intro t l hl mine
  have pre := structurePre_of_reach h hl
  have mine : l ∈ (stance t s.shared).locks := mine
  cases l with
  | put d => exact pre.2.elim
  | manager m =>
    have none_held : (stance t s.shared).locks = ∅ := pre.2
    simp [none_held] at mine
  | stream d => exact pre.2.2.unheld rfl pre.2.1 mine

/-- A run of the small job in which the continuation of a send with a handler runs inside a
receive's `MPI_Irecv`, which holds the stream lock. -/
def handlerRun (cfg : Config) : List (machine cfg).Event :=
  let d : Dev := ⟨0, 0⟩
  let q : Request := ⟨.send, d, 0, 3, .user 0, 1, 0⟩
  allocFirst cfg ++ .intr ⟨0, 0⟩ (.call (.send d 0 3 (.user 0) 1 (some 1) 0)) ::
    steps cfg ⟨0, 0⟩ 11 ++ .env (.sendDone ⟨1, ⟨d, 0⟩, ⟨1, q, some 1⟩⟩) ::
    .intr ⟨0, 0⟩ (.call (.recv d 0 3 (.user 0) 1 (some 5) 0)) :: steps cfg ⟨0, 0⟩ 3 ++
    .intr ⟨0, 0⟩ (.continuation (.priv d) 0) :: steps cfg ⟨0, 0⟩ 4

/-- The handler runs under the stream lock, and takes no lock. -/
theorem reentrant_handlers_never_self_block_handler : ∃ s,
    Reach (EntersUnheld _) (start (smallJob .continue true 0)) s ∧
      nextOp s ⟨0, 0⟩ = some .userCode ∧ NoSelfBlock s := by
  let J := smallJob .continue true 0
  have played : (run (start J) (handlerRun J)).map (fun s => nextOp s ⟨0, 0⟩) =
      some (some .userCode) := rfl
  have admitted : Admitted (EntersUnheld J) (start J) (handlerRun J) := by decide +kernel
  obtain ⟨s, hs, hn⟩ := reach_probe admitted played
  exact ⟨s, hs, hn, reentrant_handlers_never_self_block hs⟩

/-- The handler sends on the device it runs under, and its thread waits for itself. -/
theorem handler_relocks_its_stream : ∃ s,
    Reach (fun _ _ => True) (start (smallJob .continue true 0)) s ∧ ¬ NoSelfBlock s := by
  let J := smallJob .continue true 0
  let es := handlerRun J ++
    .intr ⟨0, 0⟩ (.call (.send ⟨0, 0⟩ 0 3 (.user 0) 1 (some 5) 0)) :: steps J ⟨0, 0⟩ 2
  have played : (run (start J) es).map (fun s =>
      (nextOp s ⟨0, 0⟩, s.shared.sync.owner (.stream ⟨0, 0⟩))) =
      some (some (.lock (.stream ⟨0, 0⟩)), some ⟨0, 0⟩) := rfl
  obtain ⟨s, hs, hn⟩ := reach_probe_any played
  exact ⟨s, hs, fun free => free _ _ (congrArg Prod.fst hn) (congrArg Prod.snd hn)⟩

end Reentry

end Lcw.Mpi
