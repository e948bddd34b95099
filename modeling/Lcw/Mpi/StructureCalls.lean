/- digest: Every function of the backend follows the structural rules and gives back its locks. -/

import Lcw.Mpi.StructureSteps

set_option autoImplicit false
set_option relaxedAutoImplicit false

namespace Lcw.Mpi

open Interleave

section Calls

variable (cfg : Config) (G : Guard) (t : Tid)

/-- A program that follows the rules and ends in the stance it started in, with `R`. -/
def Keeps {α : Type} (p : Code α) (R : α → Prop) (v : Stance) : Prop :=
  (structureContract cfg G t).wp p (fun a v' => v' = v ∧ R a) v

variable {cfg G t} {α β : Type} {v v' : Stance} {d : Dev}

theorem Keeps.ret {a : α} {R : α → Prop} (h : R a) : Keeps cfg G t (pure a : Code α) R v :=
  ⟨rfl, h⟩

theorem Keeps.bind {p : Code α} {f : α → Code β} {R : α → Prop} {S : β → Prop}
    (hp : Keeps cfg G t p R v) (hf : ∀ a, R a → Keeps cfg G t (f a) S v) :
    Keeps cfg G t (p >>= f) S v :=
  (structureContract cfg G t).wp_call hp fun a _ h => h.1 ▸ hf a h.2

theorem Keeps.mono {p : Code α} {R S : α → Prop} (hp : Keeps cfg G t p R v)
    (h : ∀ a, R a → S a) : Keeps cfg G t p S v :=
  (structureContract cfg G t).wp_mono hp fun a _ k => ⟨k.1, h a k.2⟩

/-- An operation that leaves the stance alone. -/
theorem Keeps.act {o : Op} {R : o.Ret → Prop} (pre : structurePre cfg G t o v)
    (post : ∀ r v', structurePost cfg G t o v r v' → v' = v ∧ R r) :
    Keeps cfg G t (Lcw.Mpi.act o) R v := ⟨pre, post⟩

theorem Covers.quiet {l : Set Lock} {o : Op} (h : o.streamDevice = none) : Covers cfg G l o :=
  fun _ _ _ hd => nomatch h.symm.trans hd

theorem Covers.streamed {l : Set Lock} {o : Op} (hd : o.streamDevice = some d)
    (h : cfg.useStream = true → .stream d ∈ l) : Covers cfg G l o :=
  fun hs _ _ hd' => Option.some.inj (hd.symm.trans hd') ▸ h hs

/-- Operations without a rule of their own that leave the stance alone and whose answer the
rules say nothing about. -/
theorem Keeps.plain {o : Op} (pre : structurePre cfg G t o v)
    (post : ∀ r v', structurePost cfg G t o v r v' → v' = v) :
    Keeps cfg G t (Lcw.Mpi.act o) (fun _ => True) v :=
  .act pre fun r v' h => ⟨post r v' h, trivial⟩

theorem keeps_when {c : Bool} {p : Code Unit}
    (h : Keeps cfg G t p (fun _ => True) v) : Keeps cfg G t (when c p) (fun _ => True) v := by
  cases c
  · exact .ret trivial
  · exact h

theorem keeps_lcwAssert (c : Bool) (why : Failure) :
    Keeps cfg G t (lcwAssert c why) (fun _ => c = true) v := by
  cases c
  · exact ⟨⟨.quiet rfl, trivial⟩, fun r => nomatch r⟩
  · exact .ret rfl

section Bigcount

theorem keeps_typeContiguous (n : Nat) :
    Keeps cfg G t (typeContiguous n) (fun _ => True) v :=
  (keeps_lcwAssert _ _).bind fun _ _ => (keeps_lcwAssert _ _).bind fun _ _ => .ret trivial

theorem keeps_describe (n : Nat) : Keeps cfg G t (describe n) (fun _ => True) v := by
  unfold describe
  split
  · exact (keeps_typeContiguous n).bind fun _ _ => .ret trivial
  · exact .ret trivial

theorem keeps_mpiSafecall (p : RequestPtr) (x : Option (Option Handle)) :
    Keeps cfg G t (mpiSafecall p x) (fun h => x = some h) v := by
  cases x
  · exact (keeps_lcwAssert _ _).bind fun _ h => nomatch h
  · exact .ret rfl

/-- The handle a started communication answers with. -/
def StartedOn (comm : Comm) (p : RequestPtr) (h : Option Handle) : Prop :=
  ∀ x, h = some x → x.comm = comm ∧ x.request = p

variable {comm : Comm}

theorem keeps_isend (hs : cfg.useStream = true → .stream comm.device ∈ v.locks) (a : Buffer)
    (n : Nat) (rank tag : Int) (p : RequestPtr) :
    Keeps cfg G t (isend a n rank tag comm p) (StartedOn comm p) v := by
  refine (keeps_describe n).bind fun x _ => ?_
  refine Keeps.bind (.act ⟨.streamed rfl hs, trivial⟩ fun _ _ h => h) fun y hy => ?_
  exact (keeps_mpiSafecall p y).mono fun h e x hx => hy x (by rw [e, hx])

theorem keeps_irecv (hs : cfg.useStream = true → .stream comm.device ∈ v.locks) (a : Buffer)
    (n : Nat) (rank tag : Int) (p : RequestPtr) :
    Keeps cfg G t (irecv a n rank tag comm p) (StartedOn comm p) v := by
  refine (keeps_describe n).bind fun x _ => ?_
  refine Keeps.bind (.act ⟨.streamed rfl hs, trivial⟩ fun _ _ h => h) fun y hy => ?_
  exact (keeps_mpiSafecall p y).mono fun h e x hx => hy x (by rw [e, hx])

end Bigcount

theorem Stance.Taken.drop {l : Lock} (h : v.Taken cfg G l v') : v'.drop l = v := by
  rw [h.eq, Stance.drop_take h.new]

theorem Stance.Taken.mem {l : Lock} (h : v.Taken cfg G l v') : l ∈ v'.locks := by
  rw [h.eq]
  exact .inl rfl

/-- Releasing a lock leads back to the stance in which it was taken. -/
theorem wp_unlock {l : Lock} {p : Code α} {Q : α → Stance → Prop} (taken : v.Taken cfg G l v')
    (hp : (structureContract cfg G t).wp p Q v) :
    (structureContract cfg G t).wp (do act (.unlock l); p) Q v' := by
  refine (structureContract cfg G t).wp_act ⟨.quiet rfl, taken.mem, ?_⟩ ?_
  · rw [taken.drop]
    exact taken.covered
  · rintro _ _ rfl
    rw [taken.drop]
    exact hp

theorem keeps_unlock {l : Lock} (taken : v.Taken cfg G l v') :
    (structureContract cfg G t).wp (act (.unlock l)) (fun _ v'' => v'' = v ∧ True) v' := by
  have h : (structureContract cfg G t).wp (pure () : Code Unit) (fun _ v'' => v'' = v ∧ True) v :=
    ⟨rfl, trivial⟩
  exact wp_unlock taken h

theorem keeps_tryLock {l : Lock} {f : Bool → Code α} {R : α → Prop}
    (refused : Keeps cfg G t (f false) R v)
    (taken : ∀ v', v.Taken cfg G l v' →
      (structureContract cfg G t).wp (f true) (fun a v'' => v'' = v ∧ R a) v') :
    Keeps cfg G t (do let got ← act (.tryLock l); f got) R v := by
  refine (structureContract cfg G t).wp_act ⟨.quiet rfl, trivial⟩ fun got v' h => ?_
  cases got
  · obtain rfl := h
    exact refused
  · exact taken v' h

/-- The stance between `enter_stream_cs` and `leave_stream_cs`. -/
def Stance.enter (cfg : Config) (v : Stance) (d : Dev) : Stance :=
  if cfg.useStream then v.take (.stream d) else v

theorem Stance.mem_enter (h : cfg.useStream = true) : .stream d ∈ (v.enter cfg d).locks := by
  simp [enter, h, take]

/-- The stream lock of `d` was new to the thread that entered. -/
def Stance.Entered (cfg : Config) (G : Guard) (v : Stance) (d : Dev) : Prop :=
  cfg.useStream = true → v.Taken cfg G (.stream d) (v.enter cfg d)

theorem wp_enterStreamCs {p : Code α} {Q : α → Stance → Prop} (he : v.Enterable cfg G d)
    (hp : v.Entered cfg G d → (structureContract cfg G t).wp p Q (v.enter cfg d)) :
    (structureContract cfg G t).wp (do enterStreamCs cfg d; p) Q v := by
  unfold enterStreamCs when Stance.Entered Stance.enter at *
  cases hs : cfg.useStream
  · simp only [hs, Bool.false_eq_true, if_false] at hp ⊢
    exact hp nofun
  · simp only [hs, if_true, forall_const] at hp ⊢
    refine (structureContract cfg G t).wp_act ⟨.quiet rfl, hs, he⟩ fun _ v' taken => ?_
    obtain rfl := taken.eq
    exact hp taken

theorem keeps_leaveStreamCs (h : v.Entered cfg G d) :
    (structureContract cfg G t).wp (leaveStreamCs cfg d) (fun _ v' => v' = v ∧ True)
      (v.enter cfg d) := by
  unfold leaveStreamCs when Stance.Entered Stance.enter at *
  cases hs : cfg.useStream
  · exact ⟨rfl, trivial⟩
  · simp only [hs, if_true, forall_const] at h ⊢
    exact keeps_unlock h

/-- A critical section under the stream lock of `d`. -/
theorem keeps_streamed {body : Code α} {f : α → Code β} {R : α → Prop} {S : β → Prop}
    (he : v.Enterable cfg G d) (hb : Keeps cfg G t body R (v.enter cfg d))
    (hf : ∀ a, R a → Keeps cfg G t (f a) S v) :
    Keeps cfg G t (do enterStreamCs cfg d; let a ← body; leaveStreamCs cfg d; f a) S v := by
  refine wp_enterStreamCs he fun entered => (structureContract cfg G t).wp_call hb ?_
  rintro a _ ⟨rfl, ha⟩
  refine (structureContract cfg G t).wp_call (keeps_leaveStreamCs entered) ?_
  rintro _ _ ⟨rfl, -⟩
  exact hf a ha

theorem keeps_mpiTest {h : Option Handle}
    (hs : ∀ x, h = some x → cfg.useStream = true → .stream x.comm.device ∈ v.locks) :
    Keeps cfg G t (mpiTest h) (fun _ => True) v := by
  have pre : structurePre cfg G t (.test h) v := by
    cases h with
    | none => exact ⟨.quiet rfl, trivial⟩
    | some x => exact ⟨.streamed rfl (hs x rfl), trivial⟩
  refine Keeps.bind (.plain pre fun _ _ e => e) fun x _ => ?_
  cases x with
  | notYet => exact .ret trivial
  | done st => exact .ret trivial
  | failed => exact (keeps_lcwAssert _ _).bind fun _ _ => .ret trivial

section Completion

variable (hv : v.Unlocked cfg)
include hv

theorem keeps_utilSignalComp (c : Option Comp) (q : Request) (p : RequestPtr) :
    Keeps cfg G t (utilSignalComp cfg c q p) (fun _ => True) v := by
  cases c with
  | none => exact (keeps_lcwAssert _ _).mono fun _ _ => trivial
  | some c =>
    refine Keeps.bind (.plain ⟨.quiet rfl, hv⟩ fun _ _ e => e) fun _ _ => ?_
    exact keeps_when (.plain ⟨.quiet rfl, hv⟩ fun _ _ e => e)

omit hv in
theorem keeps_countCompletion (op : OpCode) (p : RequestPtr) :
    Keeps cfg G t (countCompletion cfg op p) (fun _ => True) v := by
  have add (k : Counter) : Keeps cfg G t (act (.pcounterAdd k)) (fun _ => True) v :=
    .plain ⟨.quiet rfl, trivial⟩ fun _ _ e => e
  have sub : Keeps cfg G t (when (cfg.pendingMsgMax > 0) (act (.fetchSubPending p)))
      (fun _ => True) v := keeps_when (.plain ⟨.quiet rfl, trivial⟩ fun _ _ e => e)
  cases op
  · exact sub.bind fun _ _ => add _
  · exact add _
  · exact sub.bind fun _ _ => add _
  · exact add _

theorem keeps_signalComp (e : Entry) : Keeps cfg G t (signalComp cfg e) (fun _ => True) v := by
  refine Keeps.bind (.act ⟨.quiet rfl, trivial⟩ fun _ _ h => h) fun q _ => ?_
  refine (keeps_countCompletion q.op e.request).bind fun _ _ => ?_
  refine Keeps.bind (.plain ⟨.quiet rfl, trivial⟩ fun _ _ h => h) fun _ _ => ?_
  refine (keeps_utilSignalComp hv e.completion q e.request).bind fun _ _ => ?_
  exact .plain ⟨.quiet rfl, trivial⟩ fun _ _ h => h

end Completion

section Managers

/-- A thread that holds at most locks other than stream locks may wait for one. -/
theorem Stance.Unlocked.enterable (hv : v.Unlocked cfg) (hd : v.Unheld cfg G d) :
    v.Enterable cfg G d := ⟨hd, fun hr d' => by simp [hv hr]⟩

theorem Stance.Enterable.take (h : v.Enterable cfg G d) {l : Lock}
    (hl : ∀ d', l ≠ .stream d') : (v.take l).Enterable cfg G d where
  unheld hs hu := by
    simpa [Stance.take, (hl d).symm] using h.unheld hs hu
  request hr d' := by
    simpa [Stance.take, (hl d').symm] using h.request hr d'

variable {m : Manager} {e : Entry}

theorem keeps_managerReqAddEntry (hv : v.locks = ∅) (he : e.ManagedBy m) :
    Keeps cfg G t (managerReqAddEntry m e) (fun _ => True) v := by
  refine (structureContract cfg G t).wp_act ⟨.quiet rfl, hv⟩ fun _ v' taken => ?_
  refine (structureContract cfg G t).wp_act ⟨.quiet rfl, taken.mem, he⟩ ?_
  rintro _ _ rfl
  exact keeps_unlock taken

theorem keeps_managerReqTest (hd : v.Enterable cfg G e.device) (he : e.Coherent) :
    Keeps cfg G t (managerReqTest cfg e) (fun _ => True) v := by
  unfold managerReqTest
  split
  · exact .ret trivial
  · rename_i h hh
    refine keeps_streamed hd (keeps_mpiTest ?_) fun a _ => .ret trivial
    intro x hx hs
    rw [← Option.some.inj hx, (he.handle h hh).1]
    exact Stance.mem_enter hs

theorem keeps_managerReqComplete (hv : v.Unlocked cfg) (e : Entry) (st : Status) :
    Keeps cfg G t (managerReqComplete cfg e st) (fun _ => True) v := by
  refine Keeps.bind (.act ⟨.quiet rfl, trivial⟩ fun _ _ h => h) fun q hq => ?_
  refine (keeps_lcwAssert _ _).bind fun _ _ => ?_
  refine Keeps.bind (keeps_when (.plain ⟨.quiet rfl, hq⟩ fun _ _ h => h)) fun _ _ => ?_
  exact keeps_signalComp hv e

theorem keeps_managerReqDoProgress (hr : cfg.compType = .request) (hv : v.Unlocked cfg) :
    Keeps cfg G t (managerReqDoProgress cfg m) (fun _ => True) v := by
  have empty : v.locks = ∅ := hv hr
  refine Keeps.bind (.plain ⟨.quiet rfl, trivial⟩ fun _ _ h => h) fun none₁ _ => ?_
  cases none₁
  swap
  · exact .ret trivial
  refine keeps_tryLock (.ret trivial) fun v' taken => ?_
  refine (structureContract cfg G t).wp_act ⟨.quiet rfl, trivial⟩ ?_
  rintro none₂ v' rfl
  cases none₂
  swap
  · exact wp_unlock taken ⟨rfl, trivial⟩
  refine (structureContract cfg G t).wp_act ⟨.quiet rfl, taken.mem⟩ ?_
  rintro e v' ⟨rfl, he⟩
  have hd : v'.Enterable cfg G e.device := by
    rw [taken.eq]
    exact Stance.Enterable.take ⟨fun _ _ => by simp [empty], fun _ _ => by simp [empty]⟩ (by simp)
  refine (structureContract cfg G t).wp_call (keeps_managerReqTest hd he.coherent) ?_
  rintro tested v' ⟨rfl, -⟩
  cases tested with
  | none =>
    refine (structureContract cfg G t).wp_act ⟨.quiet rfl, taken.mem, he⟩ ?_
    rintro _ _ rfl
    exact wp_unlock taken ⟨rfl, trivial⟩
  | some st =>
    exact wp_unlock taken ((keeps_managerReqComplete hv _ st).bind fun _ _ => .ret trivial)

theorem keeps_managerContAddEntry (hd : v.Enterable cfg G e.device) (he : e.ManagedBy m) :
    Keeps cfg G t (managerContAddEntry cfg m e) (fun _ => True) v := by
  refine wp_enterStreamCs hd fun entered => ?_
  refine (structureContract cfg G t).wp_act ⟨.streamed rfl Stance.mem_enter, he⟩ ?_
  rintro _ _ rfl
  have returns : structurePre cfg G t (.continueReturn e.mpiReq) (v.enter cfg e.device) := by
    refine ⟨?_, trivial⟩
    cases hm : e.mpiReq with
    | none => exact .quiet rfl
    | some h =>
      refine .streamed rfl fun hs => ?_
      rw [(he.coherent.handle h hm).1]
      exact Stance.mem_enter hs
  refine (structureContract cfg G t).wp_act returns ?_
  rintro _ _ rfl
  exact keeps_leaveStreamCs entered

theorem keeps_managerContDoProgress :
    Keeps cfg G t (managerContDoProgress cfg m) (fun _ => True) v := by
  unfold managerContDoProgress
  split
  · exact .ret trivial
  refine keeps_tryLock (.ret trivial) fun v' taken => ?_
  refine (structureContract cfg G t).wp_act ⟨.quiet rfl, trivial⟩ ?_
  rintro done v' rfl
  have restart : Keeps cfg G t (when done (act (.startContReq m))) (fun _ => True) v' :=
    keeps_when (.plain ⟨.quiet rfl, trivial⟩ fun _ _ h => h)
  refine (structureContract cfg G t).wp_call restart ?_
  rintro _ _ ⟨rfl, -⟩
  exact wp_unlock taken ⟨rfl, trivial⟩

theorem keeps_addEntry (hv : v.Unlocked cfg) (hd : v.Unheld cfg G e.device)
    (he : e.ManagedBy m) : Keeps cfg G t (addEntry cfg m e) (fun _ => True) v := by
  unfold addEntry
  split
  · exact keeps_managerReqAddEntry (hv ‹_›) he
  · exact keeps_managerContAddEntry (hv.enterable hd) he

theorem keeps_managerDoProgress (hv : v.Unlocked cfg) :
    Keeps cfg G t (managerDoProgress cfg m) (fun _ => True) v := by
  unfold managerDoProgress
  split
  · exact keeps_managerReqDoProgress ‹_› hv
  · exact keeps_managerContDoProgress

end Managers

section PutSlot

variable {device : Device}

theorem keeps_postPutRecv (hr : cfg.compType = .request → ∀ d', .stream d' ∉ v.locks)
    (c : Option Comp) : Keeps cfg G t (postPutRecv cfg d c) (fun _ => True) v := by
  refine Keeps.bind (.act ⟨.quiet rfl, trivial⟩ fun _ _ h => h) fun device hdev => ?_
  refine Keeps.bind (.act ⟨.quiet rfl, trivial⟩ fun _ _ h => h) fun p hp => ?_
  obtain ⟨posted, completion, unheld⟩ := hp
  have body : Keeps cfg G t (do
      let request ← act (.readRequest p)
      irecv request.buffer (toSize request.length) cfg.anySource (toInt request.tag) device.comm p)
      (StartedOn device.comm p) (v.enter cfg d) := by
    refine Keeps.bind (.plain ⟨.quiet rfl, trivial⟩ fun _ _ h => h.1) fun q _ => ?_
    exact keeps_irecv (hdev.comm ▸ Stance.mem_enter) _ _ _ _ _
  refine keeps_streamed ⟨unheld, hr⟩ body fun h hh => ?_
  refine .plain ⟨.quiet rfl, ⟨completion.symm, ?_, ?_⟩, ?_, rfl⟩ fun _ _ h => h
  · rw [posted]
  · exact fun x hx => ⟨(hh x hx).1 ▸ hdev.comm, (hh x hx).2⟩
  · rw [posted]

theorem keeps_putSlotTake (hr : cfg.compType = .request → ∀ d', .stream d' ∉ v.locks)
    (st : Status) : Keeps cfg G t (putSlotTake cfg d st) (fun e => e.SlotOf d) v := by
  refine Keeps.bind (.act ⟨.quiet rfl, trivial⟩ fun _ _ h => h) fun e he => ?_
  refine Keeps.bind (.act ⟨.quiet rfl, trivial⟩ fun _ _ h => h) fun q hq => ?_
  refine (keeps_lcwAssert _ _).bind fun _ _ => ?_
  refine Keeps.bind (.plain ⟨.quiet rfl, trivial⟩ fun _ _ h => h) fun b _ => ?_
  cases b with
  | none => exact (keeps_lcwAssert _ _).bind fun _ h => nomatch h
  | some buffer =>
    refine Keeps.bind (.plain ⟨.quiet rfl, trivial⟩ fun _ _ h => h) fun _ _ => ?_
    refine Keeps.bind (.plain ⟨.quiet rfl, hq⟩ fun _ _ h => h) fun _ _ => ?_
    exact (keeps_postPutRecv hr e.completion).bind fun _ _ => .ret he

theorem keeps_putSlotTest (hd : v.Enterable cfg G d) (hp : .put d ∈ v.locks) :
    Keeps cfg G t (putSlotTest cfg d) (fun _ => True) v := by
  refine wp_enterStreamCs hd fun entered => ?_
  refine (structureContract cfg G t).wp_act ⟨.quiet rfl, trivial⟩ ?_
  rintro h _ ⟨rfl, hh⟩
  have tested : Keeps cfg G t (mpiTest h) (fun _ => True) (v.enter cfg d) :=
    keeps_mpiTest fun x hx hs => by
      rw [hh x hx]
      exact Stance.mem_enter hs
  refine (structureContract cfg G t).wp_call tested ?_
  rintro succeed _ ⟨rfl, -⟩
  have put : .put d ∈ (v.enter cfg d).locks := by
    unfold Stance.enter
    split
    · exact .inr hp
    · exact hp
  have clear : Keeps cfg G t (when succeed.isSome (act (.clearSlot d))) (fun _ => True)
      (v.enter cfg d) := keeps_when (.plain ⟨.quiet rfl, put⟩ fun _ _ h => h)
  refine (structureContract cfg G t).wp_call clear ?_
  rintro _ _ ⟨rfl, -⟩
  refine (structureContract cfg G t).wp_call (keeps_leaveStreamCs entered) ?_
  rintro _ _ ⟨rfl, -⟩
  exact ⟨rfl, trivial⟩

theorem keeps_putSlotProgress (hv : v.Unlocked cfg) :
    Keeps cfg G t (putSlotProgress cfg d device) (fun _ => True) v := by
  unfold putSlotProgress
  split
  · exact .ret trivial
  refine Keeps.bind (.plain ⟨.quiet rfl, trivial⟩ fun _ _ h => h.1) fun h _ => ?_
  split
  · exact .ret trivial
  refine keeps_tryLock (.ret trivial) fun v' taken => ?_
  have hd : v'.Enterable cfg G d := by
    rw [taken.eq]
    exact (hv.enterable (taken.unheld d rfl)).take (by simp)
  refine (structureContract cfg G t).wp_act ⟨.quiet rfl, trivial⟩ ?_
  rintro h v' ⟨rfl, -⟩
  cases h with
  | none => exact wp_unlock taken ⟨rfl, trivial⟩
  | some h =>
    refine (structureContract cfg G t).wp_call (keeps_putSlotTest hd taken.mem) ?_
    rintro tested v' ⟨rfl, -⟩
    cases tested with
    | none => exact wp_unlock taken ⟨rfl, trivial⟩
    | some st =>
      refine (structureContract cfg G t).wp_call (keeps_putSlotTake hd.request st) ?_
      rintro e _ ⟨rfl, -⟩
      exact wp_unlock taken ((keeps_signalComp hv e).bind fun _ _ => .ret trivial)

end PutSlot

section Posts

variable (hv : v.Unlocked cfg)
include hv

theorem keeps_doProgress (d : Dev) : Keeps cfg G t (doProgress cfg d) (fun _ => True) v := by
  refine Keeps.bind (.plain ⟨.quiet rfl, trivial⟩ fun _ _ h => h.1) fun device _ => ?_
  refine (keeps_putSlotProgress hv).bind fun _ _ => ?_
  exact (keeps_managerDoProgress hv).bind fun _ _ => .ret trivial

omit hv in
theorem keeps_admitPost : Keeps cfg G t (admitPost cfg) (fun _ => True) v := by
  unfold admitPost
  split
  · exact .ret trivial
  refine Keeps.bind (.plain ⟨.quiet rfl, trivial⟩ fun _ _ h => h) fun pending _ => ?_
  split
  · exact .ret trivial
  · exact Keeps.bind (.plain ⟨.quiet rfl, trivial⟩ fun _ _ h => h) fun _ _ => .ret trivial

theorem keeps_postEntry {device : Device} {q : Request} {c : Option Comp}
    {call : Request → RequestPtr → Code (Option Handle)} (hdev : device.Of cfg d)
    (hq : q.op ≠ .putSignal) (hqd : q.device = d)
    (hcall : ∀ p, Keeps cfg G t (call q p) (StartedOn device.comm p) (v.enter cfg d)) :
    Keeps cfg G t (postEntry cfg d device q c call) (fun _ => True) v := by
  refine Keeps.bind (.act ⟨.quiet rfl, trivial⟩ fun _ _ h => h) fun p hp => ?_
  obtain ⟨posted, completion, unheld⟩ := hp
  rw [hqd] at unheld
  refine keeps_streamed (hv.enterable unheld) (hcall p) fun h hh => ?_
  have managed : Entry.ManagedBy ⟨h, d, c, p⟩ device.manager :=
    { coherent :=
        { completion := completion.symm
          device := by rw [posted, hqd]
          handle := fun x hx => ⟨(hh x hx).1 ▸ hdev.comm, (hh x hx).2⟩ }
      op := by rw [posted]; exact hq
      rank := hdev.manager_rank.symm }
  exact (keeps_addEntry hv unheld managed).bind fun _ _ => .ret trivial

theorem keeps_send (d : Dev) (rank tag : Int) (buf : Buffer) (n : Int) (c : Option Comp)
    (ctx : Nat) : Keeps cfg G t (send cfg d rank tag buf n c ctx) (fun _ => True) v := by
  refine keeps_admitPost.bind fun ok _ => ?_
  cases ok
  · exact .ret trivial
  refine Keeps.bind (.act ⟨.quiet rfl, trivial⟩ fun _ _ h => h) fun device hdev => ?_
  have streamed : cfg.useStream = true → .stream device.comm.device ∈ (v.enter cfg d).locks := by
    rw [hdev.comm]
    exact Stance.mem_enter
  exact keeps_postEntry hv hdev (by simp) rfl fun p => keeps_isend streamed _ _ _ _ _

theorem keeps_recv (d : Dev) (rank tag : Int) (buf : Buffer) (n : Int) (c : Option Comp)
    (ctx : Nat) : Keeps cfg G t (recv cfg d rank tag buf n c ctx) (fun _ => True) v := by
  refine Keeps.bind (.act ⟨.quiet rfl, trivial⟩ fun _ _ h => h) fun device hdev => ?_
  have streamed : cfg.useStream = true → .stream device.comm.device ∈ (v.enter cfg d).locks := by
    rw [hdev.comm]
    exact Stance.mem_enter
  exact keeps_postEntry hv hdev (by simp) rfl fun p => keeps_irecv streamed _ _ _ _ _

theorem keeps_put (d : Dev) (rank : Int) (buf : Buffer) (n : Int) (c : Option Comp)
    (ctx : Nat) : Keeps cfg G t (put cfg d rank buf n c ctx) (fun _ => True) v := by
  refine Keeps.bind (.act ⟨.quiet rfl, trivial⟩ fun _ _ h => h) fun device hdev => ?_
  refine (keeps_lcwAssert _ _).bind fun _ _ => keeps_admitPost.bind fun ok _ => ?_
  cases ok
  · exact .ret trivial
  have streamed : cfg.useStream = true → .stream device.comm.device ∈ (v.enter cfg d).locks := by
    rw [hdev.comm]
    exact Stance.mem_enter
  simp only [Bool.not_true, Bool.false_eq_true, if_false]
  exact keeps_postEntry hv hdev (by simp) rfl fun p => keeps_isend streamed _ _ _ _ _

omit hv in
theorem keeps_barrier (hb : G.guarded = true → cfg.useStream = true → .stream d ∈ v.locks) :
    Keeps cfg G t (barrier d) (fun _ => True) v := by
  refine Keeps.bind (.act ⟨.quiet rfl, trivial⟩ fun _ _ h => h) fun device hdev => ?_
  refine .plain ⟨fun hs guarded d' hd' => ?_, trivial⟩ fun _ _ h => h
  rw [← Option.some.inj hd', hdev.comm]
  exact hb (guarded ⟨_, rfl⟩) hs

theorem keeps_allocDevice (n : Int) (c : Option Comp) :
    Keeps cfg G t (allocDevice cfg n c) (fun _ => True) v := by
  refine Keeps.bind (.act ⟨.quiet rfl, trivial⟩ fun _ _ h => h) fun d hd => ?_
  refine Keeps.bind (.plain ⟨.quiet rfl, trivial⟩ fun _ _ h => h) fun id _ => ?_
  refine Keeps.bind (.act ⟨.quiet rfl, trivial⟩ fun _ _ h => h) fun comm hcomm => ?_
  refine Keeps.bind (.plain ⟨.quiet rfl, ⟨hcomm, rfl, rfl, rfl, rfl⟩, hd⟩ fun _ _ h => h)
    fun _ _ => ?_
  exact (keeps_when (keeps_postPutRecv (fun hr d' => by simp [hv hr]) c)).bind fun _ _ =>
    .ret trivial

omit hv in
theorem keeps_freeDevice (d : Dev) : Keeps cfg G t (freeDevice d) (fun _ => True) v := by
  refine Keeps.bind (.plain ⟨.quiet rfl, trivial⟩ fun _ _ h => h.1) fun device _ => ?_
  refine Keeps.bind (keeps_when (.plain ⟨.quiet rfl, trivial⟩ fun _ _ h => h)) fun _ _ => ?_
  exact .plain ⟨.quiet rfl, trivial⟩ fun _ _ h => h

omit hv in
theorem keeps_counted {post : Code Bool} (h : Keeps cfg G t post (fun _ => True) v)
    (start retry : Counter) : Keeps cfg G t (counted post start retry) (fun _ => True) v :=
  h.bind fun _ _ =>
    Keeps.bind (.plain ⟨.quiet rfl, trivial⟩ fun _ _ h => h) fun _ _ => .ret trivial

/-- Every call ends with the locks it started with. -/
theorem keeps_apiCall (c : Call)
    (hb : ∀ d, c = .barrier d →
      G.guarded = true → cfg.useStream = true → .stream d ∈ v.locks) :
    Keeps cfg G t (apiCall cfg c) (fun _ => True) v := by
  have body : Keeps cfg G t (callBody cfg c) (fun _ => True) v := by
    cases c with
    | send => exact keeps_counted (keeps_send hv _ _ _ _ _ _ _) _ _
    | recv => exact keeps_counted (keeps_recv hv _ _ _ _ _ _ _) _ _
    | put => exact keeps_counted (keeps_put hv _ _ _ _ _ _) _ _
    | doProgress d =>
      refine Keeps.bind (.plain ⟨.quiet rfl, trivial⟩ fun _ _ h => h) fun _ _ => ?_
      exact (keeps_doProgress hv d).bind fun _ _ => .ret trivial
    | pollCq c =>
      refine Keeps.bind (.plain ⟨.quiet rfl, trivial⟩ fun _ _ h => h) fun _ _ => ?_
      refine Keeps.bind (.plain ⟨.quiet rfl, trivial⟩ fun _ _ h => h) fun q _ => ?_
      refine Keeps.bind (keeps_when (.plain ⟨.quiet rfl, trivial⟩ fun _ _ h => h)) fun _ _ => ?_
      exact .ret trivial
    | barrier d => exact (keeps_barrier (hb d rfl)).bind fun _ _ => .ret trivial
    | allocDevice n c => exact (keeps_allocDevice hv n c).bind fun _ _ => .ret trivial
    | freeDevice d => exact (keeps_freeDevice d).bind fun _ _ => .ret trivial
  exact body.bind fun r _ => .plain ⟨.quiet rfl, hv⟩ fun _ _ h => h

/-- A continuation returns to the MPI call it ran in with the locks it started with. -/
theorem wp_completeCb (success : Bool) (e : Entry) :
    (structureContract cfg G t).wp (completeCb cfg success e)
      (fun _ v' => v' = { v with inside := v.inside.tail }) v := by
  refine (structureContract cfg G t).wp_call (keeps_lcwAssert _ _) ?_
  rintro _ _ ⟨rfl, -⟩
  refine (structureContract cfg G t).wp_call (keeps_signalComp hv e) ?_
  rintro _ _ ⟨rfl, -⟩
  exact ⟨⟨.quiet rfl, trivial⟩, fun _ _ h => h⟩

end Posts

end Calls

section Interjections

variable {cfg : Config} {G : Guard} {t u : Tid} {w w' : World}

theorem stance_takeContinuation {o : Op} {m : Manager} {i : Nat} {e : Entry} {st : Status} :
    stance t (w.takeContinuation t o m i e st) =
      { stance t w with inside := o :: w.sync.inside t } := by
  rw [World.takeContinuation_eq]
  exact stance_setInside_self

theorem stance_takeContinuation_of_ne {o : Op} {m : Manager} {i : Nat} {e : Entry} {st : Status}
    (hu : u ≠ t) : stance u (w.takeContinuation t o m i e st) = stance u w := by
  rw [World.takeContinuation_eq]
  exact stance_setInside_of_ne hu

theorem coherence_takeContinuation {o : Op} {m : Manager} {i : Nat} {e : Entry} {st : Status}
    (h : Coherence cfg G w) (hp : structurePre cfg G t o (stance t w)) :
    Coherence cfg G (w.takeContinuation t o m i e st) := by
  have h1 : Coherence cfg G (w.setInside t (o :: w.sync.inside t)) :=
    h.setInside fun x hx => by
      rcases List.mem_cons.mp hx with rfl | hx
      · exact hp.1
      · exact h.covered t x hx
  have rest : ∀ x ∈ (w.store.attached m).eraseIdx i, x.ManagedBy m :=
    fun x hx => h.attached m x (List.mem_of_mem_eraseIdx hx)
  rw [World.takeContinuation_eq]
  exact h1.setAttached rest rfl rfl rfl rfl rfl rfl

theorem coherence_env (h : Coherence cfg G w) (hx : EnvStep cfg w w') :
    Coherence cfg G w' ∧ ∀ t, stance t w' = stance t w := by
  cases hx <;> exact ⟨h.of_eq rfl rfl rfl, fun _ => rfl⟩

theorem structure_call (c : Call) (h : Coherence cfg G w) (hv : (stance t w).Unlocked cfg)
    (hb : ∀ d, c = .barrier d →
      G.guarded = true → cfg.useStream = true → .stream d ∈ (stance t w).locks) :
    Coherence cfg G (w.pushCall t c) ∧
      (structureContract cfg G t).wp (apiCall cfg c) (fun _ v => v = stance t w)
        (stance t (w.pushCall t c)) :=
  ⟨h.of_eq rfl rfl rfl,
    (structureContract cfg G t).wp_mono (keeps_apiCall hv c hb) fun _ _ h => h.1⟩

theorem structure_continuation {o : Op} {m : Manager} {i : Nat} {e : Entry} {st : Status}
    (success : Bool) (hc : cfg.compType = .continue) :
    (structureContract cfg G t).wp (completeCb cfg success e) (fun _ v => v = stance t w)
      (stance t (w.takeContinuation t o m i e st)) := by
  have hv : Stance.Unlocked cfg (stance t (w.takeContinuation t o m i e st)) :=
    fun hr => nomatch hc.symm.trans hr
  refine (structureContract cfg G t).wp_mono (wp_completeCb hv success e) fun _ v hv' => ?_
  rw [hv', stance_takeContinuation]
  rfl

/-- The rules hold of every regular run. -/
def structureDiscipline (cfg : Config) (G : Guard) :
    Discipline (machine cfg) (Regular cfg G) where
  View := Stance
  view := stance
  inv := Coherence cfg G
  contract := structureContract cfg G
  exec s t o k r w h hok hs hp hx :=
    ⟨coherence_exec h hp hx, structurePost_exec h hok hs hp hx,
      fun _ hu => stance_exec_of_ne hp hx hu⟩
  intr s t o k i p w h hok hs hp hx := by
    cases i with
    | call c =>
      obtain ⟨rfl, -, rfl, rfl⟩ := intr_call hx
      have call := structure_call c h hp.2 fun d hd => by subst hd; exact hok
      exact ⟨call.1, call.2, fun _ _ => rfl⟩
    | continuation m i =>
      obtain ⟨-, hc, -, e, st, -, -, rfl, rfl⟩ := intr_continuation hx
      exact ⟨coherence_takeContinuation h hp, structure_continuation _ hc,
        fun u hu => stance_takeContinuation_of_ne hu⟩
  env s e w h hok hx := coherence_env h (env_cases hx)

theorem coherence_initial : Coherence cfg G World.initial where
  heap _ _ h := nomatch h
  entries _ _ h := nomatch h
  attached _ _ h := nomatch h
  slot _ _ h := nomatch h
  table _ _ h := nomatch h
  covered _ _ h := nomatch h

theorem structure_start : (structureDiscipline cfg G).Holds (start cfg) := by
  refine ⟨coherence_initial, fun t => ?_⟩
  have hv : (stance t World.initial).Unlocked cfg := fun _ => by
    simp [stance, World.initial]
  simp only [start]
  split
  · exact ⟨⟨.quiet rfl, hv⟩, fun _ _ _ => trivial⟩
  · trivial

/-- The data fits together in every reached state. -/
theorem coherent_of_reach {ok : (machine cfg).State → (machine cfg).Event → Prop}
    {s : (machine cfg).State} (h : System.Reach ok (start cfg) s) :
    Coherence cfg .none s.shared :=
  ((structureDiscipline cfg .none).reach structure_start
    (h.mono fun s e _ => regular_none s e)).1

end Interjections

end Lcw.Mpi
