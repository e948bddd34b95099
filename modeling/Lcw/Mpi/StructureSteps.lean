/- digest: Each atomic operation, interjection and environment step keeps the structural rules. -/

import Lcw.Mpi.Frames
import Lcw.Mpi.Structure

set_option autoImplicit false
set_option relaxedAutoImplicit false

namespace Lcw.Mpi

open Interleave
open Function (update)

variable {cfg : Config} {G : Guard} {t u : Tid} {o : Op} {w w' : World} {r : o.Ret}

theorem stance_congr (h : w'.sync = w.sync) : stance t w' = stance t w := by
  simp only [stance, h]

theorem stance_setOwner_self {l : Lock} : stance t (w.setOwner l (some t)) =
    (stance t w).take l := by
  simp only [stance, World.setOwner, Stance.take, Stance.mk.injEq, and_true]
  ext k
  by_cases h : k = l <;> simp [Function.update_apply, h]

theorem stance_setOwner_none {l : Lock} : stance t (w.setOwner l none) =
    (stance t w).drop l := by
  simp only [stance, World.setOwner, Stance.drop, Stance.mk.injEq, and_true]
  ext k
  by_cases h : k = l <;> simp [Function.update_apply, h]

theorem stance_setOwner_of_ne {l : Lock} {x : Option Tid} (free : w.sync.owner l ≠ some u)
    (hx : x ≠ some u) : stance u (w.setOwner l x) = stance u w := by
  simp only [stance, World.setOwner, Stance.mk.injEq, and_true]
  ext k
  by_cases h : k = l
  · subst h
    simp [free, hx]
  · simp [Function.update_apply, h]

theorem stance_setInside_of_ne {os : List Op} (h : u ≠ t) :
    stance u (w.setInside t os) = stance u w := by
  simp only [stance, World.setInside, Function.update_of_ne h]

theorem stance_setInside_self {os : List Op} :
    stance t (w.setInside t os) = { stance t w with inside := os } := by
  simp only [stance, World.setInside, Function.update_self]

theorem Covers.mono {l l' : Set Lock} (h : Covers cfg G l o) (sub : l ⊆ l') :
    Covers cfg G l' o := fun hs hb d hd => sub (h hs hb d hd)

theorem Stance.Covered.take {v : Stance} (h : v.Covered cfg G) (l : Lock) :
    (v.take l).Covered cfg G := fun o ho => (h o ho).mono (Set.subset_insert _ _)

theorem Stance.Covered.popInside {v : Stance} (h : v.Covered cfg G) :
    Stance.Covered cfg G { v with inside := v.inside.tail } :=
  fun o ho => h o (List.mem_of_mem_tail ho)

theorem Coherence.of_eq (h : Coherence cfg G w) (hs : w'.store = w.store)
    (hd : w'.devs.table = w.devs.table) (hy : w'.sync = w.sync) : Coherence cfg G w' where
  heap := by rw [hs]; exact h.heap
  entries := by rw [hs]; exact h.entries
  attached := by rw [hs]; exact h.attached
  slot := by rw [hs]; exact h.slot
  table := by rw [hd]; exact h.table
  covered t := by rw [stance_congr hy]; exact h.covered t

/-- Steps that only move an operation to another stage, or touch queues of completions. -/
theorem Coherence.of_store (h : Coherence cfg G w) (heap : w'.store.heap = w.store.heap)
    (entries : w'.store.entries = w.store.entries)
    (attached : w'.store.attached = w.store.attached) (slot : w'.store.slot = w.store.slot)
    (hd : w'.devs.table = w.devs.table) (hy : w'.sync = w.sync) : Coherence cfg G w' where
  heap := by rw [heap]; exact h.heap
  entries := by rw [entries]; exact h.entries
  attached := by rw [attached]; exact h.attached
  slot := by rw [slot]; exact h.slot
  table := by rw [hd]; exact h.table
  covered t := by rw [stance_congr hy]; exact h.covered t

private theorem Coherence.setOwner_some (h : Coherence cfg G w) {l : Lock}
    (free : w.sync.owner l = none) : Coherence cfg G (w.setOwner l (some t)) where
  heap := h.heap
  entries := h.entries
  attached := h.attached
  slot := h.slot
  table := h.table
  covered u := by
    by_cases hu : u = t
    · subst hu
      rw [stance_setOwner_self]
      exact (h.covered u).take l
    · rw [stance_setOwner_of_ne (by simp [free]) fun e => hu (Option.some.inj e).symm]
      exact h.covered u

private theorem Coherence.setOwner_none (h : Coherence cfg G w) {l : Lock}
    (mine : l ∈ (stance t w).locks) (hc : ((stance t w).drop l).Covered cfg G) :
    Coherence cfg G (w.setOwner l none) where
  heap := h.heap
  entries := h.entries
  attached := h.attached
  slot := h.slot
  table := h.table
  covered u := by
    by_cases hu : u = t
    · subst hu
      rw [stance_setOwner_none]
      exact hc
    · have other : w.sync.owner l ≠ some u := fun e => hu (Option.some.inj (e.symm.trans mine))
      rw [stance_setOwner_of_ne other (by simp)]
      exact h.covered u

theorem Coherence.setInside (h : Coherence cfg G w) {os : List Op}
    (hc : ∀ o ∈ os, Covers cfg G (stance t w).locks o) :
    Coherence cfg G (w.setInside t os) where
  heap := h.heap
  entries := h.entries
  attached := h.attached
  slot := h.slot
  table := h.table
  covered u := by
    by_cases hu : u = t
    · subst hu
      rw [stance_setInside_self]
      exact hc
    · rw [stance_setInside_of_ne hu]
      exact h.covered u

private theorem Coherence.setHeap (h : Coherence cfg G w) {p : RequestPtr} {q : Option Request}
    (hq : ∀ x, q = some x → x.op = p.posted.op ∧ x.device = p.posted.device) :
    Coherence cfg G (w.setHeap p q) where
  heap p' q' h' := by
    by_cases e : p' = p
    · subst e
      exact hq q' (by simpa [World.setHeap] using h')
    · exact h.heap p' q' (by simpa [World.setHeap, Function.update_of_ne e] using h')
  entries := h.entries
  attached := h.attached
  slot := h.slot
  table := h.table
  covered := h.covered

private theorem Coherence.setSlot (h : Coherence cfg G w) {d : Dev} {e : Entry}
    (he : e.SlotOf d) : Coherence cfg G (w.setSlot d e) where
  heap := h.heap
  entries := h.entries
  attached := h.attached
  slot d' e' h' := by
    by_cases hd : d' = d
    · subst hd
      obtain rfl : e = e' := by simpa [World.setSlot] using h'
      exact he
    · exact h.slot d' e' (by simpa [World.setSlot, Function.update_of_ne hd] using h')
  table := h.table
  covered := h.covered

private theorem Coherence.setEntries (h : Coherence cfg G w) {m : Manager} {es : List Entry}
    (hes : ∀ e ∈ es, e.ManagedBy m) (entries : w'.store.entries = update w.store.entries m es)
    (heap : w'.store.heap = w.store.heap)
    (attached : w'.store.attached = w.store.attached) (slot : w'.store.slot = w.store.slot)
    (hd : w'.devs.table = w.devs.table) (hy : w'.sync = w.sync) : Coherence cfg G w' where
  heap := by rw [heap]; exact h.heap
  entries m' e he := by
    rw [entries] at he
    by_cases hm : m' = m
    · subst hm
      exact hes e (by simpa using he)
    · exact h.entries m' e (by simpa [Function.update_of_ne hm] using he)
  attached := by rw [attached]; exact h.attached
  slot := by rw [slot]; exact h.slot
  table := by rw [hd]; exact h.table
  covered t := by rw [stance_congr hy]; exact h.covered t

theorem Coherence.setAttached (h : Coherence cfg G w) {m : Manager} {es : List Entry}
    (hes : ∀ e ∈ es, e.ManagedBy m)
    (attached : w'.store.attached = update w.store.attached m es)
    (heap : w'.store.heap = w.store.heap)
    (entries : w'.store.entries = w.store.entries) (slot : w'.store.slot = w.store.slot)
    (hd : w'.devs.table = w.devs.table) (hy : w'.sync = w.sync) : Coherence cfg G w' where
  heap := by rw [heap]; exact h.heap
  entries := by rw [entries]; exact h.entries
  attached m' e he := by
    rw [attached] at he
    by_cases hm : m' = m
    · subst hm
      exact hes e (by simpa using he)
    · exact h.attached m' e (by simpa [Function.update_of_ne hm] using he)
  slot := by rw [slot]; exact h.slot
  table := by rw [hd]; exact h.table
  covered t := by rw [stance_congr hy]; exact h.covered t

private theorem Coherence.setDevice (h : Coherence cfg G w) {d : Dev} {dev : Option Device}
    (hdev : ∀ x, dev = some x → x.Of cfg d) : Coherence cfg G (w.setDevice d dev) where
  heap := h.heap
  entries := h.entries
  attached := h.attached
  slot := h.slot
  table d' x h' := by
    by_cases hd : d' = d
    · subst hd
      exact hdev x (by simpa [World.setDevice] using h')
    · exact h.table d' x (by simpa [World.setDevice, Function.update_of_ne hd] using h')
  covered := h.covered

theorem Entry.SlotOf.clear {e : Entry} {d : Dev} (h : e.SlotOf d) :
    Entry.SlotOf { e with mpiReq := none } d :=
  ⟨⟨h.coherent.completion, h.coherent.device, fun _ he => nomatch he⟩, h.op, h.device⟩

/-- An operation whose rules are met keeps the data fitting together. -/
theorem coherence_exec (h : Coherence cfg G w) (hp : structurePre cfg G t o (stance t w))
    (hx : exec cfg t o w = some (r, w')) : Coherence cfg G w' := by
  have F := exec_frame hx
  obtain ⟨-, hp⟩ := hp
  cases o with
  | lock l =>
    simp only [exec] at hx
    split at hx <;> cases hx
    exact h.setOwner_some ‹_›
  | tryLock l =>
    simp only [exec] at hx
    split at hx <;> cases hx
    · exact h.setOwner_some ‹_›
    · exact h
  | unlock l =>
    cases hx
    exact h.setOwner_none hp.1 hp.2
  | endCallback =>
    cases hx
    exact h.setInside fun o ho => h.covered t o (List.mem_of_mem_tail ho)
  | newRequest q c =>
    have e : w.newRequest t q c = w' := congrArg Prod.snd (Option.some.inj hx)
    have hheap : w'.store.heap = update w.store.heap ⟨w.store.nextPtr, q, c⟩ (some q) := by
      rw [← e, World.newRequest_store]; rfl
    have h1 : Coherence cfg G (w.setHeap ⟨w.store.nextPtr, q, c⟩ (some q)) :=
      h.setHeap fun x hx => by cases hx; exact ⟨rfl, rfl⟩
    refine h1.of_store hheap ?_ ?_ ?_ (congrArg Devices.table (F.devs rfl)) (F.sync rfl)
    all_goals rw [← e, World.newRequest_store]; rfl
  | writeRequest p q =>
    obtain ⟨_, _, hx⟩ := Option.map_eq_some_iff.mp hx
    cases hx
    exact h.setHeap fun x hx => by cases hx; exact hp
  | deleteRequest p =>
    obtain ⟨_, _, hx⟩ := Option.map_eq_some_iff.mp hx
    cases hx
    have h1 : Coherence cfg G (w.setHeap p none) := h.setHeap (by simp)
    exact h1.of_store rfl rfl rfl rfl rfl rfl
  | pushBack m e =>
    cases hx
    rw [World.pushBack_eq]
    refine h.setEntries ?_ rfl rfl rfl rfl rfl rfl
    intro x hx
    rcases List.mem_append.mp hx with hx | hx
    · exact h.entries m x hx
    · rw [List.mem_singleton.mp hx]
      exact hp.2
  | popFront m =>
    simp only [exec] at hx
    split at hx <;> cases hx
    rename_i es _
    refine h.setEntries (fun x hx => h.entries m x ?_) rfl rfl rfl rfl rfl rfl
    simp [*]
  | writeSlot d e =>
    cases hx
    exact (h.setSlot hp).of_store rfl rfl rfl rfl rfl rfl
  | clearSlot d =>
    obtain ⟨e, he, hx⟩ := Option.map_eq_some_iff.mp hx
    cases hx
    exact h.setSlot (h.slot d e he).clear
  | isend a n ty dest tag comm p =>
    simp only [exec] at hx
    split at hx <;> cases hx
    · rw [World.isend_eq]
      exact h.of_store rfl rfl rfl rfl rfl rfl
    · exact h
  | irecv a n ty source tag comm p =>
    simp only [exec] at hx
    split at hx <;> cases hx
    · rw [World.irecv_eq]
      exact h.of_store rfl rfl rfl rfl rfl rfl
    · exact h
  | test x =>
    obtain rfl : (w.test cfg t x).2 = w' := congrArg Prod.snd (Option.some.inj hx)
    rw [World.test_eq]
    exact h.of_store rfl rfl rfl rfl rfl rfl
  | «continue» m e f =>
    cases hx
    rw [World.attach_eq]
    refine h.setAttached ?_ rfl rfl rfl rfl rfl rfl
    intro x hx
    rcases List.mem_append.mp hx with hx | hx
    · exact h.attached m x hx
    · rw [List.mem_singleton.mp hx]
      exact hp
  | signal c q p =>
    cases hx
    rw [World.signal_eq]
    exact h.of_store rfl rfl rfl rfl rfl rfl
  | cqPop c =>
    obtain rfl : (w.cqPop c).2 = w' := congrArg Prod.snd (Option.some.inj hx)
    rw [World.cqPop_eq]
    exact h.of_store rfl rfl rfl rfl rfl rfl
  | endCall x =>
    cases hx
    refine h.of_eq rfl ?_ rfl
    unfold World.endCall
    cases x <;> rfl
  | newDevice | fetchAddNdevices =>
    cases hx
    exact h.of_eq rfl rfl rfl
  | initDevice d dev =>
    cases hx
    have h1 : Coherence cfg G (w.setDevice d (some dev)) :=
      h.setDevice fun x hx => by cases hx; exact hp.1
    exact h1.of_eq rfl rfl rfl
  | deleteDevice d =>
    cases hx
    exact h.setDevice (by simp)
  | _ => exact h.of_eq (F.store rfl) (congrArg Devices.table (F.devs rfl)) (F.sync rfl)

theorem Coherence.taken (h : Coherence cfg G w) {l : Lock} (free : w.sync.owner l = none)
    (hl : ∀ d, l = .put d → (stance t w).Unheld cfg G d) :
    (stance t w).Taken cfg G l (stance t (w.setOwner l (some t))) where
  new := by simp [stance, free]
  covered := h.covered t
  eq := stance_setOwner_self
  unheld := hl

/-- What an operation answers, and what it does to the thread's stance. -/
theorem structurePost_exec {s : (machine cfg).State} {k : o.Ret → Code Unit}
    (h : Coherence cfg G s.shared) (hok : Regular cfg G s (.exec t)) (hs : s.prog t = .op o k)
    (hp : structurePre cfg G t o (stance t s.shared))
    (hx : exec cfg t o s.shared = some (r, w')) :
    structurePost cfg G t o (stance t s.shared) r (stance t w') := by
  have F := exec_frame hx
  have same (hw : o.writesSync = false) : stance t w' = stance t s.shared :=
    stance_congr (F.sync hw)
  cases o with
  | lock l =>
    simp only [exec] at hx
    split at hx <;> cases hx
    exact h.taken ‹_› fun d hd => by subst hd; exact hp.2.elim
  | tryLock l =>
    simp only [exec] at hx
    split at hx <;> cases hx
    · refine h.taken ‹_› fun d hd => ?_
      subst hd
      simp only [Regular, hs] at hok
      exact hok ‹_›
    · rfl
  | unlock l =>
    cases hx
    exact stance_setOwner_none
  | endCallback =>
    cases hx
    exact stance_setInside_self
  | newRequest q c =>
    obtain rfl : World.freshPtr s.shared q c = r := congrArg Prod.fst (Option.some.inj hx)
    simp only [Regular, hs] at hok
    exact ⟨same rfl, rfl, rfl, hok⟩
  | readRequest p =>
    obtain ⟨q, hq, hx⟩ := Option.map_eq_some_iff.mp hx
    cases hx
    exact ⟨same rfl, h.heap p _ hq⟩
  | popFront m =>
    simp only [exec] at hx
    split at hx <;> cases hx
    exact ⟨same rfl, h.entries m _ (by simp [*])⟩
  | readSlot d =>
    obtain ⟨e, he, hx⟩ := Option.map_eq_some_iff.mp hx
    cases hx
    exact ⟨same rfl, h.slot d _ he⟩
  | slotRequest d =>
    obtain ⟨e, he, hx⟩ := Option.map_eq_some_iff.mp hx
    cases hx
    refine ⟨same rfl, fun x hx => ?_⟩
    have hs := h.slot d e he
    rw [← hs.device]
    exact (hs.coherent.handle x hx).1
  | isend a n ty dest tag comm p =>
    refine ⟨same rfl, ?_⟩
    simp only [exec] at hx
    split at hx <;> cases hx
    · exact fun x hx => World.isend_handle (Option.some.inj hx)
    · simp
  | irecv a n ty dest tag comm p =>
    refine ⟨same rfl, ?_⟩
    simp only [exec] at hx
    split at hx <;> cases hx
    · exact fun x hx => World.irecv_handle (Option.some.inj hx)
    · simp
  | newDevice =>
    cases hx
    exact ⟨rfl, rfl⟩
  | commCreate d =>
    cases hx
    exact ⟨rfl, rfl⟩
  | readDevice d =>
    obtain ⟨dev, hdev, hx⟩ := Option.map_eq_some_iff.mp hx
    cases hx
    exact ⟨rfl, h.table d _ hdev⟩
  | _ => exact same rfl

/-- No other thread notices. -/
theorem stance_exec_of_ne (hp : structurePre cfg G t o (stance t w))
    (hx : exec cfg t o w = some (r, w')) (hu : u ≠ t) : stance u w' = stance u w := by
  have F := exec_frame hx
  cases o with
  | lock l =>
    simp only [exec] at hx
    split at hx <;> cases hx
    exact stance_setOwner_of_ne (by simp [*]) fun e => hu (Option.some.inj e).symm
  | tryLock l =>
    simp only [exec] at hx
    split at hx <;> cases hx
    · exact stance_setOwner_of_ne (by simp [*]) fun e => hu (Option.some.inj e).symm
    · rfl
  | unlock l =>
    cases hx
    have mine : w.sync.owner l = some t := hp.2.1
    exact stance_setOwner_of_ne (fun e => hu (Option.some.inj (e.symm.trans mine))) (by simp)
  | endCallback =>
    cases hx
    exact stance_setInside_of_ne hu
  | _ => exact stance_congr (F.sync rfl)

end Lcw.Mpi
