/- digest: What threads rely on is theirs alone, and devices stay until they are freed. -/

import Lcw.Mpi.Grasp

set_option autoImplicit false
set_option relaxedAutoImplicit false

namespace Lcw.Mpi

open Interleave
open Function (update)

variable {cfg : Config} {t u : Tid} {w w' : World}

section Views

def grasp (t : Tid) (w : World) : Grasp where
  calls := (w.client.acts t).map Activation.call
  deque m := if w.sync.owner (.manager m) = some t then some !(w.store.entries m).isEmpty else none
  made := {d | w.devs.builder d = some t ∧ w.devs.table d ≠ none}

theorem grasp_congr
    (calls : (w'.client.acts t).map Activation.call = (w.client.acts t).map Activation.call)
    (owner : ∀ m, w'.sync.owner (.manager m) = w.sync.owner (.manager m))
    (entries : w'.store.entries = w.store.entries)
    (made : ∀ d, w'.devs.builder d = some t ∧ w'.devs.table d ≠ none ↔
      w.devs.builder d = some t ∧ w.devs.table d ≠ none) : grasp t w' = grasp t w := by
  unfold grasp
  congr 1
  · refine funext fun m => ?_
    rw [owner, entries]
  · exact Set.ext made

theorem deque_of_ne {m : Manager} (away : w.sync.owner (.manager m) ≠ some t) :
    (grasp t w).deque m = none := if_neg away

theorem grasp_setOwner_of_ne {l : Lock} {x : Option Tid} (before : w.sync.owner l ≠ some t)
    (after : x ≠ some t) : grasp t (w.setOwner l x) = grasp t w := by
  refine Grasp.ext rfl (funext fun m => ?_) rfl
  by_cases e : Lock.manager m = l
  · subst e
    rw [deque_of_ne before]
    exact deque_of_ne (by simpa [World.setOwner] using after)
  · simp only [grasp, World.setOwner, Function.update_of_ne e]

/-- Locks other than those of managers are of no matter. -/
theorem grasp_setOwner {l : Lock} {x : Option Tid} (other : ∀ m, l ≠ .manager m) :
    grasp t (w.setOwner l x) = grasp t w := by
  refine Grasp.ext rfl (funext fun m => ?_) rfl
  simp only [grasp, World.setOwner, Function.update_of_ne (other m).symm]

theorem grasp_see {m : Manager}
    (calls : (w'.client.acts t).map Activation.call = (w.client.acts t).map Activation.call)
    (owner : ∀ m', m' ≠ m → w'.sync.owner (.manager m') = w.sync.owner (.manager m'))
    (entries : ∀ m', m' ≠ m → w'.store.entries m' = w.store.entries m')
    (devs : w'.devs = w.devs) : grasp t w' = (grasp t w).see m ((grasp t w').deque m) := by
  refine Grasp.ext calls (funext fun m' => ?_) ?_
  · show _ = update (grasp t w).deque m _ m'
    by_cases e : m' = m
    · subst e
      rw [Function.update_self]
    · rw [Function.update_of_ne e]
      simp only [grasp, owner m' e, entries m' e]
  · simp only [grasp, Grasp.see, devs]

theorem calls_noteAdded {p : RequestPtr} :
    ((w.noteAdded t p).client.acts u).map Activation.call =
      (w.client.acts u).map Activation.call := by
  unfold World.noteAdded
  split
  · rename_i a rest k acts stage
    by_cases e : u = t
    · subst e
      simp [acts]
    · simp [Function.update_of_ne e]
  · rfl

/-- Only the end of a call takes one away. -/
theorem exec_calls {o : Op} {r : o.Ret} (hx : exec cfg t o w = some (r, w'))
    (inside : ∀ x, o ≠ .endCall x) :
    (w'.client.acts u).map Activation.call = (w.client.acts u).map Activation.call := by
  cases o with
  | endCall x => exact absurd rfl (inside x)
  | pushBack m e =>
    cases hx
    rw [World.pushBack_eq]
    exact calls_noteAdded
  | «continue» m e f =>
    cases hx
    rw [World.attach_eq]
    exact calls_noteAdded
  | _ => rw [(exec_frame hx).client rfl]

/-- Only the locks of managers matter, and only to those who take or release them. -/
theorem exec_owner {o : Op} {r : o.Ret} (hx : exec cfg t o w = some (r, w'))
    (others : ∀ m, o ≠ .lock (.manager m) ∧ o ≠ .tryLock (.manager m) ∧ o ≠ .unlock (.manager m))
    (m : Manager) : w'.sync.owner (.manager m) = w.sync.owner (.manager m) := by
  have kept {l : Lock} {x : Option Tid} (other : Lock.manager m ≠ l) :
      (w.setOwner l x).sync.owner (.manager m) = w.sync.owner (.manager m) :=
    Function.update_of_ne other _ _
  cases o with
  | lock l | tryLock l =>
    have other : Lock.manager m ≠ l := by
      rintro rfl
      simp at others
    simp only [exec] at hx
    split at hx <;> cases hx
    all_goals first | exact kept other | rfl
  | unlock l =>
    have other : Lock.manager m ≠ l := by
      rintro rfl
      simp at others
    cases hx
    exact kept other
  | endCallback =>
    cases hx
    rfl
  | _ => rw [(exec_frame hx).sync rfl]

/-- A device is made by being allocated, written, returned or deleted. -/
theorem made_exec {o : Op} {r : o.Ret} (hx : exec cfg t o w = some (r, w'))
    (fresh : ∀ d : Dev, w.devs.nextAddr d.rank ≤ d.addr → w.devs.table d = none)
    (init : ∀ d dev, o ≠ .initDevice d dev) (delete : ∀ d, o ≠ .deleteDevice d)
    (inside : ∀ x, o ≠ .endCall x) (d : Dev) :
    w'.devs.builder d = some u ∧ w'.devs.table d ≠ none ↔
      w.devs.builder d = some u ∧ w.devs.table d ≠ none := by
  cases o with
  | initDevice d dev => exact absurd rfl (init d dev)
  | deleteDevice d => exact absurd rfl (delete d)
  | endCall x => exact absurd rfl (inside x)
  | newDevice =>
    cases hx
    by_cases e : d = ⟨t.rank, w.devs.nextAddr t.rank⟩
    · have absent := fresh d (by rw [e])
      simp [absent]
    · have same : (w.newDevice t).2.devs.builder d = w.devs.builder d :=
        Function.update_of_ne e _ _
      exact Iff.of_eq (congrArg (fun b => b = some u ∧ w.devs.table d ≠ none) same)
  | fetchAddNdevices =>
    cases hx
    rfl
  | _ => rw [(exec_frame hx).devs rfl]

end Views

section Steps

variable {P : PutRules cfg} {G : Guard}

theorem see_setOwner {m : Manager} {x : Option Tid} :
    grasp t (w.setOwner (.manager m) x) =
      (grasp t w).see m ((grasp t (w.setOwner (.manager m) x)).deque m) := by
  refine grasp_see rfl (fun m' other => ?_) (fun _ _ => rfl) rfl
  exact Function.update_of_ne (fun e => other (Lock.manager.inj e)) _ _

/-- Operations that change what a thread relies on. -/
def Op.grasps : Op → Bool
  | .lock _ | .tryLock _ | .unlock _ | .pushBack .. | .popFront _ | .initDevice ..
  | .deleteDevice _ | .endCall _ => true
  | _ => false

theorem grasp_exec_same (h : Books P w) {o : Op} {r : o.Ret} (hx : exec cfg t o w = some (r, w'))
    (plain : o.grasps = false) : grasp u w' = grasp u w := by
  refine grasp_congr (exec_calls hx ?_) (exec_owner hx ?_) (exec_entries hx ?_ ?_)
    (made_exec hx (fun d absent => (h.slots.fresh d absent).2.2) ?_ ?_ ?_)
  · rintro x rfl
    cases plain
  · refine fun m => ⟨?_, ?_, ?_⟩
    all_goals
      rintro rfl
      cases plain
  all_goals
    first | rintro m e rfl | rintro m rfl
    cases plain

/-- A thread writes only the devices it is allocating. -/
theorem Books.builds (h : Books P w) {d : Dev} {dev : Device}
    (pre : ledgerPre P t (.initDevice d dev) (account t w)) : w.devs.builder d = some t := by
  obtain ⟨s, hs, phase, -⟩ := pre.2
  obtain ⟨controls, rfl⟩ := slotOf_eq_some.mp hs
  rcases controls with locked | mine
  · exact absurd phase (h.slots.locked d (by simp [locked])).2
  · exact mine

/-- A device that is in use has been built. -/
theorem Books.built (h : Books P w) {d : Dev} {c : Call} (device : c.device? = some d)
    (call : c ∈ (w.client.acts t).map Activation.call) :
    w.devs.builder d = none ∧ w.net.phase d ≠ .unborn := by
  obtain ⟨a, ha, rfl⟩ := List.mem_map.mp call
  exact ((h.calls.ok t a ha).device d device).2

/-- A thread deletes only devices that no thread is allocating. -/
theorem grasp_deleteDevice (h : Books P w) {d : Dev}
    (pre : graspPre (.deleteDevice d) (grasp t w)) :
    grasp u (w.setDevice d none) = grasp u w := by
  obtain ⟨rest, calls⟩ := pre
  have head : Call.freeDevice d ∈ (w.client.acts t).map Activation.call := by
    rw [show (w.client.acts t).map Activation.call = _ from calls]
    exact List.mem_cons_self
  have builder := (h.built rfl head).1
  refine grasp_congr rfl (fun _ => rfl) rfl fun d' => ?_
  by_cases e : d' = d
  · subst e
    have nobody : w.devs.builder d' ≠ some u := by simp [builder]
    exact iff_of_false (fun x => nobody x.1) fun x => nobody x.1
  · have same : update w.devs.table d none d' = w.devs.table d' := Function.update_of_ne e _ _
    exact Iff.of_eq (congrArg (fun x => w.devs.builder d' = some u ∧ x ≠ none) same)

theorem grasp_exec_of_ne (h : Books P w) {o : Op} {r : o.Ret}
    (locks : structurePre cfg G t o (stance t w)) (mine : ledgerPre P t o (account t w))
    (pre : graspPre o (grasp t w)) (hx : exec cfg t o w = some (r, w')) (other : u ≠ t) :
    grasp u w' = grasp u w := by
  have away {x : Option Tid} (e : x = some t) : x ≠ some u :=
    fun e' => other (Option.some.inj (e'.symm.trans e))
  cases o with
  | lock l =>
    simp only [exec] at hx
    split at hx <;> cases hx
    exact grasp_setOwner_of_ne (by simp [*]) (away rfl)
  | tryLock l =>
    simp only [exec] at hx
    split at hx <;> cases hx
    · exact grasp_setOwner_of_ne (by simp [*]) (away rfl)
    · rfl
  | unlock l =>
    cases hx
    exact grasp_setOwner_of_ne (away locks.2.1) (by simp)
  | pushBack m e =>
    have own : w.sync.owner (.manager m) ≠ some u := away locks.2.1
    cases hx
    have same : (grasp u w).see m none = grasp u w :=
      Grasp.ext rfl ((congrArg _ (deque_of_ne own).symm).trans (Function.update_eq_self ..)) rfl
    refine (grasp_see (w := w) (m := m) ?_ (fun _ _ => ?_) (fun m' e => ?_) ?_).trans ?_
    · rw [World.pushBack_eq]
      exact calls_noteAdded
    · rw [World.pushBack_eq]
    · rw [World.pushBack_eq]
      exact Function.update_of_ne e _ _
    · rw [World.pushBack_eq]
    · rw [deque_of_ne (by rw [World.pushBack_eq]; exact own), same]
  | popFront m =>
    have own : w.sync.owner (.manager m) ≠ some u := away locks.2
    have same : (grasp u w).see m none = grasp u w :=
      Grasp.ext rfl ((congrArg _ (deque_of_ne own).symm).trans (Function.update_eq_self ..)) rfl
    obtain ⟨rest, -, rfl⟩ := exec_popFront hx
    refine (grasp_see (w := w) (m := m) ?_ (fun _ _ => ?_) (fun m' e => ?_) ?_).trans ?_
    · rfl
    · rfl
    · exact Function.update_of_ne e _ _
    · rfl
    · rw [deque_of_ne (by exact own), same]
  | initDevice d dev =>
    have builder := h.builds mine
    cases hx
    refine grasp_congr rfl (fun _ => rfl) rfl fun d' => ?_
    by_cases e : d' = d
    · subst e
      have theirs : w.devs.builder d' ≠ some u := away builder
      exact iff_of_false (fun x => theirs x.1) fun x => theirs x.1
    · have same : update w.devs.table d (some dev) d' = w.devs.table d' :=
        Function.update_of_ne e _ _
      exact Iff.of_eq (congrArg (fun x => w.devs.builder d' = some u ∧ x ≠ none) same)
  | deleteDevice d =>
    cases hx
    exact grasp_deleteDevice h pre
  | endCall x =>
    cases hx
    have calls : ((w.endCall t x).client.acts u).map Activation.call =
        (w.client.acts u).map Activation.call := by
      unfold World.endCall
      simp [Function.update_of_ne other]
    refine grasp_congr calls (fun _ => rfl) rfl fun d => ?_
    cases x with
    | device d' =>
      by_cases e : d = d'
      · subst e
        have theirs : w.devs.builder d ≠ some u := away pre.1
        have gone : (w.endCall t (.device d)).devs.builder d = none := Function.update_self ..
        exact iff_of_false (fun x => by simp [gone] at x) fun x => theirs x.1
      · have same : (w.endCall t (.device d')).devs.builder d = w.devs.builder d :=
          Function.update_of_ne e _ _
        exact Iff.of_eq (congrArg (fun b => b = some u ∧ w.devs.table d ≠ none) same)
    | _ => rfl
  | _ => exact grasp_exec_same h hx rfl

/-- What an operation does to what its thread relies on. -/
theorem graspPost_exec (h : Books P w) {o : Op} {r : o.Ret} (mine : ledgerPre P t o (account t w))
    (pre : graspPre o (grasp t w)) (answers : o.Answers cfg t r)
    (hx : exec cfg t o w = some (r, w')) : graspPost o (grasp t w) r (grasp t w') := by
  cases o with
  | lock l =>
    simp only [exec] at hx
    split at hx <;> cases hx
    rename_i free
    cases l with
    | manager m => exact ⟨deque_of_ne (by simp [free]), _, see_setOwner⟩
    | put d | stream d => exact grasp_setOwner (by simp)
  | tryLock l =>
    simp only [exec] at hx
    split at hx <;> cases hx
    · rename_i free
      cases l with
      | manager m =>
        refine ⟨deque_of_ne (by simp [free]), !(w.store.entries m).isEmpty, ?_⟩
        refine see_setOwner.trans (congrArg _ ?_)
        exact if_pos (Function.update_self ..)
      | put d | stream d => exact grasp_setOwner (by simp)
    · cases l <;> rfl
  | unlock l =>
    cases hx
    cases l with
    | manager m =>
      refine see_setOwner.trans (congrArg _ (deque_of_ne ?_))
      simp [World.setOwner]
    | put d | stream d => exact grasp_setOwner (by simp)
  | entriesEmpty m =>
    cases hx
    refine ⟨rfl, fun here => ?_⟩
    have owner : w.sync.owner (.manager m) = some t := by
      by_contra away
      exact here (deque_of_ne away)
    exact if_pos owner
  | pushBack m e =>
    cases hx
    refine ⟨_, grasp_see ?_ (fun _ _ => ?_) (fun m' e => ?_) ?_⟩
    · rw [World.pushBack_eq]
      exact calls_noteAdded
    · rw [World.pushBack_eq]
    · rw [World.pushBack_eq]
      exact Function.update_of_ne e _ _
    · rw [World.pushBack_eq]
  | popFront m =>
    obtain ⟨rest, -, rfl⟩ := exec_popFront hx
    refine ⟨_, grasp_see ?_ (fun _ _ => ?_) (fun m' e => ?_) ?_⟩
    · rfl
    · rfl
    · exact Function.update_of_ne e _ _
    · rfl
  | newDevice =>
    refine ⟨grasp_exec_same h hx rfl, ?_⟩
    cases hx
    exact fun known => known.2 (h.slots.fresh ⟨t.rank, _⟩ le_rfl).2.2
  | initDevice d dev =>
    have builder := h.builds mine
    cases hx
    refine Grasp.ext rfl rfl (Set.ext fun d' => ?_)
    by_cases e : d' = d
    · subst e
      refine iff_of_true ⟨builder, ?_⟩ (Set.mem_insert _ _)
      simp [World.setDevice]
    · have same : update w.devs.table d (some dev) d' = w.devs.table d' :=
        Function.update_of_ne e _ _
      rw [Set.mem_insert_iff, or_iff_right e]
      exact Iff.of_eq (congrArg (fun x => w.devs.builder d' = some t ∧ x ≠ none) same)
  | endCall x =>
    cases hx
    refine Grasp.ext ?_ rfl ?_
    · show (update w.client.acts t (w.client.acts t).tail t).map Activation.call = _
      rw [Function.update_self, List.map_tail]
      rfl
    · cases x with
      | device d =>
        refine Set.ext fun d' => ?_
        by_cases e : d' = d
        · subst e
          have gone : (w.endCall t (.device d')).devs.builder d' = none := Function.update_self ..
          exact iff_of_false (fun x => by cases gone.symm.trans x.1) fun x => x.2 rfl
        · have same : (w.endCall t (.device d)).devs.builder d' = w.devs.builder d' :=
            Function.update_of_ne e _ _
          have kept : d' ∈ (grasp t w).made \ {d} ↔ d' ∈ (grasp t w).made := by simp [e]
          rw [kept]
          exact Iff.of_eq (congrArg (fun b => b = some t ∧ w.devs.table d' ≠ none) same)
      | _ => rfl
  | deleteDevice d =>
    cases hx
    exact grasp_deleteDevice h pre
  | readRequest p =>
    obtain ⟨_, _, _, -, device⟩ := answers
    exact ⟨grasp_exec_same h hx rfl, device⟩
  | readSlot d =>
    obtain ⟨_, _, _, slot⟩ := answers
    exact ⟨grasp_exec_same h hx rfl, slot⟩
  | _ => exact grasp_exec_same h hx rfl

/-- A device is there from its allocation to the call that frees it. -/
structure Granted (w : World) : Prop where
  table : ∀ d, w.devs.published d = true → w.devs.table d ≠ none
  freed : ∀ t d, Call.freeDevice d ∈ (grasp t w).calls → w.devs.published d = false

theorem Granted.carry (h : Granted w) (calls : ∀ u, ∀ c ∈ (grasp u w').calls, c ∈ (grasp u w).calls)
    (table : w'.devs.table = w.devs.table) (published : w'.devs.published = w.devs.published) :
    Granted w' where
  table d hd := by
    rw [published] at hd
    rw [table]
    exact h.table d hd
  freed u d hd := by
    rw [published]
    exact h.freed u d (calls u _ hd)

theorem Granted.exec (h : Granted w) (books : Books P w) {o : Op} {r : o.Ret}
    (pre : graspPre o (grasp t w)) (hx : exec cfg t o w = some (r, w')) : Granted w' := by
  have inside (other : ∀ x, o ≠ .endCall x) (u : Tid) :
      ∀ c ∈ (grasp u w').calls, c ∈ (grasp u w).calls := by
    intro c hc
    rwa [show (grasp u w').calls = (grasp u w).calls from exec_calls hx other] at hc
  cases o with
  | endCall x =>
    cases hx
    have fewer (u : Tid) : ∀ c ∈ (grasp u (w.endCall t x)).calls, c ∈ (grasp u w).calls := by
      intro c hc
      obtain ⟨a, ha, rfl⟩ := List.mem_map.mp hc
      refine List.mem_map_of_mem ?_
      have ha : a ∈ update w.client.acts t (w.client.acts t).tail u := ha
      by_cases e : u = t
      · subst e
        rw [Function.update_self] at ha
        exact List.mem_of_mem_tail ha
      · rwa [Function.update_of_ne e] at ha
    cases x with
    | device d =>
      have made : d ∈ (grasp t w).made := pre
      refine ⟨fun d' hd => ?_, fun u d' hd => ?_⟩
      · by_cases e : d' = d
        · subst e
          exact made.2
        · have same : (w.endCall t (.device d)).devs.published d' = w.devs.published d' :=
            Function.update_of_ne e _ _
          exact h.table d' (same.symm.trans hd)
      · have before := fewer u _ hd
        have other : d' ≠ d := by
          rintro rfl
          cases (books.built rfl before).1.symm.trans made.1
        exact (Function.update_of_ne other _ _).trans (h.freed u d' before)
    | _ => exact h.carry fewer rfl rfl
  | deleteDevice d =>
    have freed : w.devs.published d = false := by
      obtain ⟨rest, calls⟩ := pre
      exact h.freed t d (by rw [calls]; exact List.mem_cons_self)
    refine ⟨fun d' hd => ?_, fun u d' hd => ?_⟩
    · cases hx
      have other : d' ≠ d := by
        rintro rfl
        cases freed.symm.trans hd
      have same : update w.devs.table d none d' = w.devs.table d' := Function.update_of_ne other _ _
      exact fun gone => h.table d' hd (same.symm.trans gone)
    · have before := inside (by simp) u _ hd
      cases hx
      exact h.freed u d' before
  | initDevice d dev =>
    refine ⟨fun d' hd => ?_, fun u d' hd => ?_⟩
    · cases hx
      by_cases e : d' = d
      · subst e
        simp [World.setDevice]
      · have same : update w.devs.table d (some dev) d' = w.devs.table d' :=
          Function.update_of_ne e _ _
        exact fun gone => h.table d' hd (same.symm.trans gone)
    · have before := inside (by simp) u _ hd
      cases hx
      exact h.freed u d' before
  | newDevice | fetchAddNdevices =>
    have inside := inside (by simp)
    cases hx
    exact h.carry inside rfl rfl
  | _ =>
    have devs := (exec_frame hx).devs rfl
    exact h.carry (inside (by simp)) (by rw [devs]) (by rw [devs])

theorem Granted.pushCall (h : Granted w) {c : Call} : Granted (w.pushCall t c) := by
  have calls (u : Tid) (x : Call) (hx : x ∈ (grasp u (w.pushCall t c)).calls) :
      x = c ∨ x ∈ (grasp u w).calls := by
    obtain ⟨a, ha, rfl⟩ := List.mem_map.mp hx
    have ha : a ∈ update w.client.acts t (⟨c, none⟩ :: w.client.acts t) u := ha
    by_cases e : u = t
    · subst e
      rw [Function.update_self] at ha
      rcases List.mem_cons.mp ha with rfl | ha
      · exact .inl rfl
      · exact .inr (List.mem_map_of_mem ha)
    · rw [Function.update_of_ne e] at ha
      exact .inr (List.mem_map_of_mem ha)
  have published (d : Dev) (hd : (w.pushCall t c).devs.published d = true) :
      w.devs.published d = true ∧ c ≠ .freeDevice d := by
    cases c with
    | freeDevice d' =>
      have hd : update w.devs.published d' false d = true := hd
      by_cases e : d = d'
      · subst e
        simp at hd
      · rw [Function.update_of_ne e] at hd
        exact ⟨hd, fun same => e (Call.freeDevice.inj same).symm⟩
    | _ => exact ⟨hd, by simp⟩
  refine ⟨fun d hd => h.table d (published d hd).1, fun u d hd => ?_⟩
  by_contra still
  obtain ⟨before, other⟩ := published d (by simpa using still)
  rcases calls u _ hd with same | old
  · exact other same.symm
  · cases (h.freed u d old).symm.trans before

end Steps

section Discipline

variable (cfg) in
/-- Threads find what they look for, in every run. -/
def graspDiscipline : Discipline (machine cfg)
    (fun s _ => Ledgered s ∧ (structureDiscipline cfg .none).Holds s) where
  View := Grasp
  view := grasp
  inv := Granted
  contract _ := graspContract
  exec s t o k r w h hok hs pre hx := by
    obtain ⟨⟨books, ledger⟩, coh, locks⟩ := hok
    have mine := ledger t o (nextOp_eq_some.mpr ⟨k, hs⟩)
    have locks : structurePre cfg .none t o (stance t s.shared) := by
      have thread := locks t
      rw [hs] at thread
      exact thread.1
    have answers : o.Answers cfg t r :=
      ⟨_, _, structurePost_exec coh (regular_none s _) hs locks hx⟩
    exact ⟨h.exec books pre hx, graspPost_exec books mine pre answers hx,
      fun u other => grasp_exec_of_ne books locks mine pre hx other⟩
  intr s t o k i p w h hok hs pre hi := by
    cases i with
    | call c =>
      obtain ⟨-, -, rfl, rfl⟩ := intr_call hi
      have calling : grasp t (s.shared.pushCall t c) =
          { grasp t s.shared with calls := c :: (grasp t s.shared).calls } := by
        refine Grasp.ext ?_ rfl rfl
        show (update s.shared.client.acts t _ t).map Activation.call = _
        rw [Function.update_self]
        rfl
      refine ⟨h.pushCall, ?_, fun u other => grasp_congr ?_ (fun _ => rfl) rfl fun _ => Iff.rfl⟩
      · rw [calling]
        exact grasps_apiCall
      · show (update s.shared.client.acts t _ u).map Activation.call = _
        rw [Function.update_of_ne other]
    | continuation m i =>
      obtain ⟨-, -, -, e, st, -, -, rfl, rfl⟩ := intr_continuation hi
      have same (u : Tid) : grasp u (s.shared.takeContinuation t o m i e st) = grasp u s.shared := by
        rw [World.takeContinuation_eq]
        rfl
      refine ⟨h.carry (fun u c hc => ?_) ?_ ?_, ?_, fun u _ => same u⟩
      · rwa [same u] at hc
      · rw [World.takeContinuation_eq]
      · rw [World.takeContinuation_eq]
      · rw [same t]
        exact rests_light light_completeCb
  env s e w h hok he := by
    have same : ∀ u, grasp u w = grasp u s.shared := by
      cases env_cases he <;> exact fun _ => rfl
    refine ⟨?_, same⟩
    cases env_cases he <;> exact ⟨h.table, h.freed⟩

theorem grasp_start : (graspDiscipline cfg).Holds (start cfg) := by
  refine ⟨⟨fun d hd => ?_, fun t d hd => ?_⟩, fun t => ?_⟩
  · cases hd
  · cases hd
  · simp only [start]
    split
    · exact ⟨trivial, fun _ _ _ => trivial⟩
    · trivial

end Discipline

end Lcw.Mpi
