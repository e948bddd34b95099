/- digest: Devices of a process have ordinals of their own, by which managers share their entries. -/

import Lcw.Interleave.Discipline
import Lcw.Interleave.Observe
import Lcw.Mpi.Frames
import Lcw.Mpi.Quiet
import Mathlib.Data.Int.CardIntervalMod
import Mathlib.Data.Set.Insert

set_option autoImplicit false
set_option relaxedAutoImplicit false

namespace Lcw.Mpi

open Interleave Interleave.System
open Function (update)

/-- History of `alloc_device`: the devices each thread has yet to initialize, the innermost call
first, the ordinals that were drawn for devices, and the devices with the ordinals they got. -/
structure Roster where
  raw : Tid → List Dev
  drawn : Rank → List (Dev × Nat)
  made : Rank → List (Dev × Nat)

/-- The ordinals that were drawn for devices, and those that devices got. -/
structure Roll where
  drawn : Set (Dev × Nat)
  made : Set (Dev × Nat)

instance : Preorder Roll where
  le K L := K.drawn ⊆ L.drawn ∧ K.made ⊆ L.made
  le_refl _ := ⟨fun _ h => h, fun _ h => h⟩
  le_trans _ _ _ h g := ⟨fun _ x => g.1 (h.1 x), fun _ x => g.2 (h.2 x)⟩

namespace Roster

variable (g : Roster) (t : Tid) (d : Dev) (n : Nat)

def roll : Roll := ⟨{x | x ∈ g.drawn x.1.rank}, {x | x ∈ g.made x.1.rank}⟩

def newDevice : Roster := { g with raw := update g.raw t (d :: g.raw t) }

def initDevice : Roster where
  raw := update g.raw t (g.raw t).tail
  drawn := g.drawn
  made := update g.made d.rank (g.made d.rank ++ [(d, n)])

end Roster

variable (cfg : Config)

/-- The manager is the one of the entry's device. -/
def Entry.Belongs (K : Roll) (m : Manager) (e : Entry) : Prop :=
  ∃ n, (e.device, n) ∈ K.made ∧ m = managerFor cfg e.device n

variable (K : Roll)

/-- Threads initialize the device they allocate with the ordinal they drew for it, and hand
entries to the manager of their device. -/
def rosterContract : Contract Op Op.Ret (List Dev) where
  pre
    | .initDevice d dev, v => (∃ rest, v = d :: rest) ∧ (d, dev.id) ∈ K.drawn ∧
        dev.manager = managerFor cfg d dev.id
    | .pushBack m e, _ | .continue m e _, _ => e.Belongs cfg K m
    | _, _ => True
  post
    | .newDevice, v, d, v' => v' = (d : Dev) :: v
    | .fetchAddNdevices, v, n, v' => v' = v ∧ ∀ d rest, v = d :: rest → (d, (n : Nat)) ∈ K.drawn
    | .initDevice _ _, v, _, v' => v' = v.tail
    | .readDevice d, v, dev, v' => v' = v ∧ (d, Device.id dev) ∈ K.made ∧
        Device.manager dev = managerFor cfg d (Device.id dev)
    | .popFront m, v, e, v' => v' = v ∧ Entry.Belongs cfg K m e
    | _, v, _, v' => v' = v

variable {cfg}

section Programs

variable {K}

end Programs

section Shared

variable {t u : Tid} {w w' : World} {g : Roster}

variable (cfg) in
/-- The roster agrees with the counters of the processes, and the table and the managers with it. -/
structure Rostered (w : World) (g : Roster) : Prop where
  raw : ∀ t d, d ∈ g.raw t → d.rank = t.rank ∧ d.addr < w.devs.nextAddr d.rank ∧
    d ∉ (g.made d.rank).map Prod.fst
  alone : ∀ t, (g.raw t).Nodup ∧ ∀ u d, d ∈ g.raw t → d ∈ g.raw u → t = u
  drawn : ∀ r, ((g.drawn r).map Prod.snd).Nodup ∧
    ∀ x ∈ g.drawn r, x.1.rank = r ∧ x.2 < w.devs.ndevices r
  made : ∀ r, ((g.made r).map Prod.fst).Nodup ∧
    ∀ x ∈ g.made r, x.1.rank = r ∧ x.1.addr < w.devs.nextAddr r ∧ x ∈ K.drawn
  table : ∀ d dev, w.devs.table d = some dev →
    (d, dev.id) ∈ K.made ∧ dev.manager = managerFor cfg d dev.id
  entries : ∀ m, ∀ e ∈ w.store.entries m, e.Belongs cfg K m
  attached : ∀ m, ∀ e ∈ w.store.attached m, e.Belongs cfg K m

variable {K}

/-- Only entries move, between managers and threads. -/
theorem Rostered.carry (h : Rostered cfg K w g) (addr : w'.devs.nextAddr = w.devs.nextAddr)
    (count : w'.devs.ndevices = w.devs.ndevices)
    (table : ∀ d dev, w'.devs.table d = some dev → w.devs.table d = some dev)
    (entries : ∀ m, ∀ e ∈ w'.store.entries m, e.Belongs cfg K m)
    (attached : ∀ m, ∀ e ∈ w'.store.attached m, e.Belongs cfg K m) : Rostered cfg K w' g where
  raw t d hd := by
    rw [addr]
    exact h.raw t d hd
  alone := h.alone
  drawn r := by
    rw [count]
    exact h.drawn r
  made r := by
    rw [addr]
    exact h.made r
  table d dev hd := h.table d dev (table d dev hd)
  entries := entries
  attached := attached

/-- What the operation does not touch stays as it is on the roster. -/
theorem Rostered.same (h : Rostered cfg K w g) (devs : w'.devs = w.devs)
    (entries : w'.store.entries = w.store.entries)
    (attached : w'.store.attached = w.store.attached) : Rostered cfg K w' g := by
  refine h.carry (by rw [devs]) (by rw [devs]) (fun d dev hd => by rwa [devs] at hd) ?_ ?_
  · rw [entries]
    exact h.entries
  · rw [attached]
    exact h.attached

theorem Rostered.newDevice (h : Rostered cfg K w g) :
    Rostered cfg K (w.newDevice t).2 (g.newDevice t (w.newDevice t).1) := by
  have grows (r : Rank) : w.devs.nextAddr r ≤ (w.newDevice t).2.devs.nextAddr r := by
    by_cases e : r = t.rank <;> simp [World.newDevice, e]
  have fresh (u : Tid) : (w.newDevice t).1 ∉ g.raw u := fun old =>
    absurd (h.raw u _ old).2.1 (Nat.lt_irrefl _)
  have mem {u : Tid} {d : Dev} (hd : d ∈ (g.newDevice t (w.newDevice t).1).raw u) :
      d ∈ g.raw u ∨ u = t ∧ d = (w.newDevice t).1 := by
    by_cases e : u = t
    · subst e
      simp only [Roster.newDevice, Function.update_self, List.mem_cons] at hd
      exact hd.symm.imp_right fun new => ⟨rfl, new⟩
    · simp only [Roster.newDevice, Function.update_of_ne e] at hd
      exact .inl hd
  refine ⟨fun u d hd => ?_, fun u => ⟨?_, fun v d hd hd' => ?_⟩, h.drawn, fun r => ?_, h.table,
    h.entries, h.attached⟩
  · rcases mem hd with old | ⟨rfl, rfl⟩
    · obtain ⟨rank, addr, unmade⟩ := h.raw u d old
      exact ⟨rank, Nat.lt_of_lt_of_le addr (grows _), unmade⟩
    · refine ⟨rfl, by simp [World.newDevice], fun old => ?_⟩
      obtain ⟨x, hx, same⟩ := List.mem_map.mp old
      have bound := ((h.made _).2 x hx).2.1
      rw [same] at bound
      exact absurd bound (Nat.lt_irrefl _)
  · by_cases e : u = t
    · subst e
      simp only [Roster.newDevice, Function.update_self]
      exact List.nodup_cons.mpr ⟨fresh u, (h.alone u).1⟩
    · simp only [Roster.newDevice, Function.update_of_ne e]
      exact (h.alone u).1
  · rcases mem hd with old | ⟨rfl, rfl⟩
    · rcases mem hd' with old' | ⟨-, rfl⟩
      · exact (h.alone u).2 v d old old'
      · exact absurd old (fresh u)
    · rcases mem hd' with old' | ⟨rfl, -⟩
      · exact absurd old' (fresh v)
      · rfl
  · refine ⟨(h.made r).1, fun x hx => ?_⟩
    obtain ⟨rank, addr, drawn⟩ := (h.made r).2 x hx
    exact ⟨rank, Nat.lt_of_lt_of_le addr (grows r), drawn⟩

/-- A device is initialized, with the ordinal that was drawn for it. -/
theorem Rostered.initDevice (h : Rostered cfg K w g) {d : Dev} {dev : Device} {rest : List Dev}
    (raw : g.raw t = d :: rest) (drawn : (d, dev.id) ∈ K.drawn) (made : (d, dev.id) ∈ K.made)
    (manager : dev.manager = managerFor cfg d dev.id)
    (devs : w'.devs = { w.devs with table := update w.devs.table d (some dev) })
    (entries : w'.store.entries = w.store.entries)
    (attached : w'.store.attached = w.store.attached) :
    Rostered cfg K w' (g.initDevice t d dev.id) := by
  obtain ⟨rank, addr, unmade⟩ := h.raw t d (by rw [raw]; simp)
  have nodup := (h.alone t).1
  rw [raw, List.nodup_cons] at nodup
  have mem {u : Tid} {d' : Dev} (hd : d' ∈ (g.initDevice t d dev.id).raw u) :
      d' ∈ g.raw u ∧ d' ≠ d := by
    by_cases e : u = t
    · subst e
      simp only [Roster.initDevice, Function.update_self, raw, List.tail_cons] at hd
      exact ⟨by rw [raw]; exact List.mem_cons_of_mem _ hd, fun same => nodup.1 (same ▸ hd)⟩
    · simp only [Roster.initDevice, Function.update_of_ne e] at hd
      refine ⟨hd, fun same => e ?_⟩
      exact (h.alone u).2 t d' hd (by rw [same, raw]; simp)
  refine ⟨fun u d' hd => ?_, fun u => ⟨?_, fun v d' hd hd' => ?_⟩, ?_, fun r => ?_,
    fun d' dev' hd => ?_, ?_, ?_⟩
  · obtain ⟨old, other⟩ := mem hd
    obtain ⟨rank', addr', unmade'⟩ := h.raw u d' old
    refine ⟨rank', by rw [devs]; exact addr', fun new => unmade' ?_⟩
    by_cases e : d'.rank = d.rank
    · simp only [Roster.initDevice, e, Function.update_self, List.map_append, List.mem_append,
        List.map_cons, List.map_nil, List.mem_singleton] at new
      rw [e]
      exact new.resolve_right other
    · simpa only [Roster.initDevice, Function.update_of_ne e] using new
  · by_cases e : u = t
    · subst e
      simp only [Roster.initDevice, Function.update_self, raw, List.tail_cons]
      exact nodup.2
    · simp only [Roster.initDevice, Function.update_of_ne e]
      exact (h.alone u).1
  · exact (h.alone u).2 v d' (mem hd).1 (mem hd').1
  · rw [devs]
    exact h.drawn
  · rw [devs]
    by_cases e : r = d.rank
    · subst e
      simp only [Roster.initDevice, Function.update_self, List.map_append, List.map_cons,
        List.map_nil]
      refine ⟨List.concat_eq_append ▸ (h.made _).1.concat unmade, fun x hx => ?_⟩
      rcases List.mem_append.mp hx with old | new
      · exact (h.made _).2 x old
      · obtain rfl := List.mem_singleton.mp new
        exact ⟨rfl, addr, drawn⟩
    · simp only [Roster.initDevice, Function.update_of_ne e]
      exact h.made r
  · rw [devs] at hd
    have hd : update w.devs.table d (some dev) d' = some dev' := hd
    by_cases e : d' = d
    · rw [e, Function.update_self] at hd
      obtain rfl := Option.some.inj hd
      exact ⟨e ▸ made, e ▸ manager⟩
    · rw [Function.update_of_ne e] at hd
      exact h.table d' dev' hd
  · rw [entries]
    exact h.entries
  · rw [attached]
    exact h.attached

/-- An entry is added to its manager. -/
theorem belongs_append {m : Manager} {e : Entry} {lists : Manager → List Entry}
    (h : ∀ m, ∀ e ∈ lists m, e.Belongs cfg K m) (new : e.Belongs cfg K m) (m' : Manager)
    (x : Entry) (hx : x ∈ update lists m (lists m ++ [e]) m') : x.Belongs cfg K m' := by
  by_cases same : m' = m
  · subst same
    rw [Function.update_self] at hx
    rcases List.mem_append.mp hx with old | last
    · exact h m' x old
    · rw [List.mem_singleton.mp last]
      exact new
  · rw [Function.update_of_ne same] at hx
    exact h m' x hx

/-- Entries are taken from a manager. -/
theorem belongs_subset {m : Manager} {rest : List Entry} {lists : Manager → List Entry}
    (h : ∀ m, ∀ e ∈ lists m, e.Belongs cfg K m) (less : ∀ e ∈ rest, e ∈ lists m) (m' : Manager)
    (x : Entry) (hx : x ∈ update lists m rest m') : x.Belongs cfg K m' := by
  by_cases same : m' = m
  · subst same
    rw [Function.update_self] at hx
    exact h m' x (less x hx)
  · rw [Function.update_of_ne same] at hx
    exact h m' x hx

/-- Operations other than those of `alloc_device` leave the roster. -/
theorem Rostered.exec (h : Rostered cfg K w g) {o : Op} {r : o.Ret} {v : List Dev}
    (pre : (rosterContract cfg K).pre o v) (other : o ≠ .newDevice)
    (other' : o ≠ .fetchAddNdevices) (other'' : ∀ d dev, o ≠ .initDevice d dev)
    (hx : exec cfg t o w = some (r, w')) : Rostered cfg K w' g := by
  have frame := exec_frame hx
  have still (devs : o.writesDevs = false) (files : o.files = false) : Rostered cfg K w' g :=
    h.same (frame.devs devs) (exec_same hx files).entries (exec_same hx files).attached
  have filed (devs : o.writesDevs = false) (store : o.writesStore = false) :
      Rostered cfg K w' g :=
    h.same (frame.devs devs) (by rw [frame.store store]) (by rw [frame.store store])
  cases o with
  | newDevice => exact absurd rfl other
  | fetchAddNdevices => exact absurd rfl other'
  | initDevice d dev => exact absurd rfl (other'' d dev)
  | pushBack m e =>
    cases hx
    rw [World.pushBack_eq]
    exact h.carry rfl rfl (fun _ _ hd => hd) (belongs_append h.entries pre) h.attached
  | «continue» m e f =>
    cases hx
    rw [World.attach_eq]
    exact h.carry rfl rfl (fun _ _ hd => hd) h.entries (belongs_append h.attached pre)
  | popFront m =>
    simp only [Lcw.Mpi.exec] at hx
    split at hx
    · cases hx
    rename_i first rest entries
    cases hx
    refine h.carry rfl rfl (fun _ _ hd => hd) (belongs_subset h.entries fun e he => ?_) h.attached
    rw [entries]
    exact List.mem_cons_of_mem _ he
  | deleteDevice d =>
    cases hx
    refine h.carry rfl rfl (fun d' dev hd => ?_) h.entries h.attached
    have hd : update w.devs.table d none d' = some dev := hd
    by_cases same : d' = d
    · rw [same, Function.update_self] at hd
      cases hd
    · rwa [Function.update_of_ne same] at hd
  | endCall x =>
    cases hx
    unfold World.endCall
    refine h.carry ?_ ?_ (fun d dev hd => ?_) h.entries h.attached
    · cases x <;> rfl
    · cases x <;> rfl
    · cases x <;> exact hd
  | signal c q p =>
    cases hx
    rw [World.signal_eq]
    exact h.same rfl rfl rfl
  | cqPop c =>
    have after : (w.cqPop c).2 = w' := congrArg Prod.snd (Option.some.inj hx)
    rw [← after, World.cqPop_eq]
    exact h.same rfl rfl rfl
  | writeSlot d e =>
    cases hx
    exact h.same rfl rfl rfl
  | clearSlot d =>
    obtain ⟨e, -, same⟩ := Option.map_eq_some_iff.mp hx
    obtain rfl := congrArg Prod.snd same
    exact h.same rfl rfl rfl
  | _ => exact still rfl rfl

theorem Rostered.takeContinuation (h : Rostered cfg K w g) {o : Op} {m : Manager} {i : Nat}
    {e : Entry} {st : Status} : Rostered cfg K (w.takeContinuation t o m i e st) g := by
  rw [World.takeContinuation_eq]
  exact h.carry rfl rfl (fun _ _ hd => hd) h.entries
    (belongs_subset h.attached fun _ he => List.mem_of_mem_eraseIdx he)

theorem Rostered.env (h : Rostered cfg K w g) (step : EnvStep cfg w w') : Rostered cfg K w' g := by
  cases step <;> exact h.same rfl rfl rfl

end Shared

section Discipline

variable {K}

end Discipline

section Sharing

variable (cfg)

/-- An operation is with a manager. -/
def World.Filed (w : World) (m : Manager) (e : Entry) : Prop :=
  e ∈ w.store.entries m ∨ e ∈ w.store.attached m

variable {cfg} {w : World} {g : Roster}

theorem Rostered.bound (h : Rostered cfg g.roll w g) {d : Dev} {n : Nat}
    (hn : (d, n) ∈ g.roll.made) : (d, n) ∈ g.drawn d.rank ∧ n < w.devs.ndevices d.rank := by
  have drawn : (d, n) ∈ g.drawn d.rank := ((h.made d.rank).2 (d, n) hn).2.2
  exact ⟨drawn, ((h.drawn d.rank).2 (d, n) drawn).2⟩

theorem Rostered.distinct (h : Rostered cfg g.roll w g) {d d' : Dev} {n : Nat}
    (hn : (d, n) ∈ g.roll.made) (hn' : (d', n) ∈ g.roll.made) (rank : d.rank = d'.rank) :
    d = d' := by
  have drawn' := (h.bound hn').1
  rw [← rank] at drawn'
  have same := List.inj_on_of_nodup_map (h.drawn d.rank).1 (h.bound hn).1 drawn' rfl
  exact congrArg Prod.fst same

theorem Rostered.filed (h : Rostered cfg g.roll w g) {m : Manager} {e : Entry} (filed : w.Filed m e) :
    e.Belongs cfg g.roll m := filed.elim (h.entries m e) (h.attached m e)

end Sharing

end Lcw.Mpi
