/- digest: The put slot of a device and its buffer pass through their phases one thread at a time. -/

import Lcw.Mpi.LedgerSteps

set_option autoImplicit false
set_option relaxedAutoImplicit false

namespace Lcw.Mpi

open Interleave
open Function (update)

variable {cfg : Config} {P : PutRules cfg} {G : Guard} {t : Tid} {w w' : World}

section Blocks

theorem Blocks.carry (h : Blocks w) (memory : w'.memory.given = w.memory.given)
    (owner : w'.memory.blockOwner = w.memory.blockOwner)
    (next : w'.memory.nextBlock = w.memory.nextBlock) : Blocks w' where
  block k hk := by
    rw [owner] at hk
    rw [memory, next]
    exact h.block k hk
  given k hk := by
    rw [memory] at hk
    rw [next]
    exact h.given k hk

theorem Blocks.giveBlock (h : Blocks w) {q : Request} {p : RequestPtr}
    (mine : ∀ k, q.op = .putSignal → q.buffer = .heap k → w.memory.blockOwner k ≠ none) :
    Blocks (w.giveBlock q p) := by
  unfold World.giveBlock
  split
  · rename_i k op buffer
    have bound := (h.block k (mine k op buffer)).2
    refine ⟨fun k' owned => ?_, fun k' given => ?_⟩
    · have other : k' ≠ k := by
        rintro rfl
        simp at owned
      simp only [Function.update_of_ne other] at owned ⊢
      exact h.block k' owned
    · by_cases e : k' = k
      · subst e
        exact bound
      · simp only [Function.update_of_ne e] at given
        exact h.given k' given
  · exact h

theorem Blocks.exec (h : Books P w) (coh : Coherence cfg G w) {o : Op} {r : o.Ret}
    (pre : ledgerPre P t o (account t w)) (hx : exec cfg t o w = some (r, w')) : Blocks w' := by
  have blocks := h.slots.toBlocks
  have pre := pre.2
  cases o with
  | allocate n =>
    simp only [Lcw.Mpi.exec] at hx
    split at hx <;> cases hx
    · refine ⟨fun k owned => ?_, fun k given => ?_⟩
      · by_cases e : k = w.memory.nextBlock
        · subst e
          refine ⟨?_, Nat.lt_succ_self _⟩
          by_contra given
          exact Nat.lt_irrefl _ (blocks.given _ given)
        · simp only [Function.update_of_ne e] at owned
          obtain ⟨free, bound⟩ := blocks.block k owned
          exact ⟨free, Nat.lt_succ_of_lt bound⟩
      · exact Nat.lt_succ_of_lt (blocks.given k given)
    · exact blocks
  | signal c q p =>
    cases hx
    obtain ⟨st, token, -, put⟩ := pre.token
    have op : q.op = p.posted.op := (coh.heap p q (tokenOf_eq_some.mp token).2.1).1
    have mine (k : Nat) (hop : q.op = .putSignal) (buffer : q.buffer = .heap k) :
        w.memory.blockOwner k ≠ none := by
      obtain ⟨k', b, eq, block, -⟩ := put (op.symm.trans hop)
      rw [eq] at buffer
      rw [← Buffer.heap.inj buffer, (blockOf_eq_some.mp block).1]
      simp
    have given : Blocks (w.giveBlock q p) := blocks.giveBlock mine
    refine given.carry ?_ ?_ ?_
    all_goals rw [World.signal_eq]
  | memcpy dst src n =>
    cases hx
    refine blocks.carry ?_ ?_ ?_
    all_goals rw [World.memcpy_eq]
  | initDevice d dev =>
    cases hx
    exact blocks.carry rfl rfl rfl
  | _ =>
    have memory := (exec_frame hx).memory rfl
    exact blocks.carry (by rw [memory]) (by rw [memory]) (by rw [memory])

end Blocks

section Homes

theorem Homes.carry (h : Homes P w) (owner : ∀ d, w'.sync.owner (.put d) = w.sync.owner (.put d))
    (phase : w'.net.phase = w.net.phase) (devs : w'.devs = w.devs)
    (size : ∀ d, (w'.memory.bytes (.putRbuf d)).length = (w.memory.bytes (.putRbuf d)).length) :
    Homes P w' where
  free d unlocked built := by
    rw [owner] at unlocked
    rw [devs] at built
    rw [phase]
    exact h.free d unlocked built
  locked d taken := by
    rw [owner] at taken
    rw [phase, devs]
    exact h.locked d taken
  fresh d new := by
    rw [devs] at new ⊢
    rw [phase]
    exact h.fresh d new
  comp on d known := by
    rw [phase, devs] at known
    rw [devs]
    exact h.comp on d known
  published d known := by
    rw [devs] at known ⊢
    rw [phase]
    exact h.published d known
  table d dev known := by
    rw [devs] at known
    rw [size]
    exact h.table d dev known

/-- A thread at work on a put slot moves it to another phase. -/
theorem Homes.phase (h : Homes P w) {d : Dev} {x : Phase} (mine : Controls t w d)
    (born : x ≠ .unborn) (owner : ∀ d, w'.sync.owner (.put d) = w.sync.owner (.put d))
    (phase : w'.net.phase = update w.net.phase d x) (devs : w'.devs = w.devs)
    (size : ∀ d, (w'.memory.bytes (.putRbuf d)).length = (w.memory.bytes (.putRbuf d)).length) :
    Homes P w' where
  free d' unlocked built := by
    rw [owner] at unlocked
    rw [devs] at built
    have other : d' ≠ d := by
      rintro rfl
      simp [Controls, unlocked, built] at mine
    rw [phase, Function.update_of_ne other]
    exact h.free d' unlocked built
  locked d' taken := by
    rw [owner] at taken
    obtain ⟨built, alive⟩ := h.locked d' taken
    rw [phase, devs]
    exact ⟨built, phase_ne_unborn born alive⟩
  fresh d' new := by
    rw [devs] at new ⊢
    obtain ⟨unborn, built, table⟩ := h.fresh d' new
    have other : d' ≠ d := by
      rintro rfl
      rcases mine with owned | building
      · exact (h.locked d' (by simp [owned])).2 unborn
      · simp [built] at building
    rw [phase, Function.update_of_ne other]
    exact ⟨unborn, built, table⟩
  comp on d' known := by
    rw [phase, devs] at known
    rw [devs]
    by_cases e : d' = d
    · subst e
      apply h.comp on d'
      rcases mine with owned | building
      · exact .inr (h.locked d' (by simp [owned])).2
      · exact .inl (by simp [building])
    · rw [Function.update_of_ne e] at known
      exact h.comp on d' known
  published d' known := by
    rw [devs] at known ⊢
    obtain ⟨built, alive⟩ := h.published d' known
    rw [phase]
    exact ⟨built, phase_ne_unborn born alive⟩
  table d' dev known := by
    rw [devs] at known
    rw [size]
    exact h.table d' dev known

theorem Homes.setOwner (h : Homes P w) {l : Lock} {x : Option Tid}
    (free : ∀ d, l = .put d → x = none → w.devs.builder d = none →
      w.net.phase d = .unborn ∨ w.net.phase d = .armed)
    (locked : ∀ d, l = .put d → x ≠ none → w.devs.builder d = none ∧ w.net.phase d ≠ .unborn) :
    Homes P (w.setOwner l x) where
  free d unlocked built := by
    by_cases e : .put d = l
    · subst e
      simp only [World.setOwner, Function.update_self] at unlocked
      exact free d rfl unlocked built
    · simp only [World.setOwner, Function.update_of_ne e] at unlocked
      exact h.free d unlocked built
  locked d taken := by
    by_cases e : .put d = l
    · subst e
      simp only [World.setOwner, Function.update_self] at taken
      exact locked d rfl taken
    · simp only [World.setOwner, Function.update_of_ne e] at taken
      exact h.locked d taken
  fresh := h.fresh
  comp := h.comp
  published := h.published
  table := h.table

/-- A new device is nobody's but its builder's. -/
theorem Homes.newDevice (h : Homes P w)
    (comp : P.on = true → ∃ n c a rest, w.client.acts t = ⟨.allocDevice n c, a⟩ :: rest ∧ c ≠ none) :
    Homes P (w.newDevice t).2 := by
  obtain ⟨unborn, built, table⟩ := h.fresh ⟨t.rank, w.devs.nextAddr t.rank⟩ (le_refl _)
  refine ⟨fun d unlocked built' => ?_, fun d taken => ?_, fun d new => ?_, fun on d known => ?_,
    fun d known => ?_, h.table⟩
  · by_cases e : d = ⟨t.rank, w.devs.nextAddr t.rank⟩
    · subst e
      exact .inl unborn
    · simp only [World.newDevice, Function.update_of_ne e] at built'
      exact h.free d unlocked built'
  · obtain ⟨built', alive⟩ := h.locked d taken
    have other : d ≠ ⟨t.rank, w.devs.nextAddr t.rank⟩ := by
      rintro rfl
      exact alive unborn
    refine ⟨?_, alive⟩
    simpa only [World.newDevice, Function.update_of_ne other] using built'
  · have bound : w.devs.nextAddr d.rank ≤ d.addr ∧ d ≠ ⟨t.rank, w.devs.nextAddr t.rank⟩ := by
      simp only [World.newDevice] at new
      by_cases e : d.rank = t.rank
      · rw [e, Function.update_self] at new
        rw [e]
        refine ⟨by omega, ?_⟩
        rintro rfl
        simp at new
      · rw [Function.update_of_ne e] at new
        refine ⟨new, ?_⟩
        rintro rfl
        exact e rfl
    obtain ⟨unborn', built', table'⟩ := h.fresh d bound.1
    refine ⟨unborn', ?_, table'⟩
    simpa only [World.newDevice, Function.update_of_ne bound.2] using built'
  · by_cases e : d = ⟨t.rank, w.devs.nextAddr t.rank⟩
    · subst e
      obtain ⟨n, c, a, rest, top, some⟩ := comp on
      simpa [World.newDevice, top] using some
    · simp only [World.newDevice, Function.update_of_ne e] at known ⊢
      exact h.comp on d known
  · obtain ⟨built', alive⟩ := h.published d known
    have other : d ≠ ⟨t.rank, w.devs.nextAddr t.rank⟩ := by
      rintro rfl
      exact alive unborn
    refine ⟨?_, alive⟩
    simpa only [World.newDevice, Function.update_of_ne other] using built'

theorem Homes.endCall (h : Homes P w) {r : CallResult} (may : (account t w).MayReturn cfg r) :
    Homes P (w.endCall t r) := by
  cases r with
  | device d =>
    obtain ⟨s, hs, armed, -⟩ := may.device d rfl
    obtain ⟨-, rfl⟩ := slotOf_eq_some.mp hs
    have armed : w.net.phase d = .armed := armed
    refine ⟨fun d' unlocked built => ?_, fun d' taken => ?_, fun d' new => ?_,
      fun on d' known => ?_, fun d' known => ?_, h.table⟩
    · by_cases e : d' = d
      · subst e
        exact .inr armed
      · simp only [World.endCall, Function.update_of_ne e] at built
        exact h.free d' unlocked built
    · obtain ⟨built, alive⟩ := h.locked d' taken
      refine ⟨?_, alive⟩
      by_cases e : d' = d
      · simp [World.endCall, e]
      · simpa only [World.endCall, Function.update_of_ne e] using built
    · obtain ⟨unborn, built, table⟩ := h.fresh d' new
      have other : d' ≠ d := by
        rintro rfl
        simp [armed] at unborn
      refine ⟨unborn, ?_, table⟩
      simpa only [World.endCall, Function.update_of_ne other] using built
    · by_cases e : d' = d
      · subst e
        exact h.comp on d' (.inr (by simp [armed]))
      · simp only [World.endCall, Function.update_of_ne e] at known
        exact h.comp on d' known
    · by_cases e : d' = d
      · subst e
        exact ⟨by simp [World.endCall], by simp [World.endCall, armed]⟩
      · simp only [World.endCall, Function.update_of_ne e] at known ⊢
        exact h.published d' known
  | _ => exact ⟨h.free, h.locked, h.fresh, h.comp, h.published, h.table⟩

/-- `put_rbuf` is allocated. -/
theorem Homes.initDevice (h : Homes P w) {d : Dev} {dev : Device} (mine : Controls t w d)
    (small : dev.putRbufSize < 2 ^ 63)
    (rule : P.on = true → dev.putRbufSize = P.size d.rank dev.comm.context) :
    Homes P { w.setDevice d (some dev) with memory := { w.memory with
      bytes := update w.memory.bytes (.putRbuf d) (List.replicate dev.putRbufSize 0) } } := by
  refine ⟨h.free, h.locked, fun d' new => ?_, h.comp, h.published, fun d' dev' known => ?_⟩
  · obtain ⟨unborn, built, table⟩ := h.fresh d' new
    have other : d' ≠ d := by
      rintro rfl
      rcases mine with owned | building
      · exact (h.locked d' (by simp [owned])).2 unborn
      · simp [built] at building
    refine ⟨unborn, built, ?_⟩
    simpa only [World.setDevice, Function.update_of_ne other] using table
  · by_cases e : d' = d
    · subst e
      simp only [World.setDevice, Function.update_self, Option.some.injEq] at known
      subst known
      exact ⟨by simp, small, rule⟩
    · simp only [World.setDevice, Function.update_of_ne e] at known
      have other : Buffer.putRbuf d' ≠ .putRbuf d := fun e' => e (Buffer.putRbuf.inj e')
      simp only [Function.update_of_ne other]
      exact h.table d' dev' known

theorem Homes.exec (h : Books P w) (coh : Coherence cfg G w) {o : Op} {r : o.Ret}
    (locks : structurePre cfg G t o (stance t w)) (pre : ledgerPre P t o (account t w))
    (rule : P.on = true → ∀ d dev, o = .initDevice d dev →
      dev.putRbufSize = P.size d.rank dev.comm.context)
    (hx : exec cfg t o w = some (r, w')) : Homes P w' := by
  have homes := h.slots.toHomes
  have locks := locks.2
  have pre := pre.2
  cases o with
  | endCall x =>
    cases hx
    exact homes.endCall pre
  | lock l =>
    simp only [Lcw.Mpi.exec] at hx
    split at hx <;> cases hx
    refine homes.setOwner (fun d e => ?_) fun d e => ?_
    · subst e
      exact locks.elim
    · subst e
      exact locks.elim
  | tryLock l =>
    simp only [Lcw.Mpi.exec] at hx
    split at hx <;> cases hx
    · refine homes.setOwner (fun d _ unlocked => by cases unlocked) fun d e _ => ?_
      subst e
      obtain ⟨a, rest, top⟩ := pre
      have top : w.client.acts t = ⟨.doProgress d, a⟩ :: rest := top
      exact ((h.calls.ok t _ (top ▸ List.mem_cons_self)).device d rfl).2
    · exact homes
  | unlock l =>
    cases hx
    refine homes.setOwner (fun d e _ _ => ?_) fun _ _ none => absurd rfl none
    subst e
    obtain ⟨s, hs, armed⟩ := pre
    obtain ⟨-, rfl⟩ := slotOf_eq_some.mp hs
    exact .inr armed
  | writeSlot d e =>
    cases hx
    obtain ⟨s, x, hs, -⟩ := pre
    exact homes.phase (slotOf_eq_some.mp hs).1 (by simp) (fun _ => rfl) rfl rfl fun _ => rfl
  | isend a n ty dest tag comm p =>
    rcases exec_isend hx with ⟨-, rfl⟩ | ⟨-, -, rfl⟩
    · exact homes
    · refine homes.carry ?_ ?_ ?_ ?_
      · rw [World.isend_eq]
        exact fun _ => rfl
      · unfold World.isend World.start
        split <;> rfl
      · rw [World.isend_eq]
      · rw [World.isend_eq]
        exact fun _ => rfl
  | irecv a n ty source tag comm p =>
    rcases exec_irecv hx with ⟨-, rfl, -⟩ | ⟨-, rfl⟩
    · exact homes
    · have started : (w.irecv cfg t a (Datatype.layout n ty) source tag comm p).2.net.phase =
          (w.expect comm p).net.phase := by
        unfold World.irecv World.start
        split <;> rfl
      by_cases op : p.posted.op = .putSignal
      · have listen : (account t w).MayListen P a n ty source tag comm p := by
          rcases pre with pre | pre
          · exact absurd op (by simp [pre.op])
          · exact pre
        obtain ⟨s, hs, -⟩ := listen.slot
        rw [← listen.device] at hs
        refine homes.phase (slotOf_eq_some.mp hs).1 (x := .reposted (w.freshHandle comm p))
          (by simp) ?_ ?_ ?_ ?_
        · rw [World.irecv_eq]
          exact fun _ => rfl
        · rw [started]
          unfold World.expect
          rw [if_pos op]
          rfl
        · rw [World.irecv_eq]
        · rw [World.irecv_eq]
          exact fun _ => rfl
      · refine homes.carry ?_ ?_ ?_ ?_
        · rw [World.irecv_eq]
          exact fun _ => rfl
        · rw [started]
          unfold World.expect
          rw [if_neg op]
        · rw [World.irecv_eq]
        · rw [World.irecv_eq]
          exact fun _ => rfl
  | test x =>
    cases x with
    | none =>
      cases hx
      exact homes
    | some x =>
      cases exec_test hx with
      | taken q st hq done ok op =>
        obtain ⟨mine, -⟩ := h.slots.receive pre op
        exact homes.phase mine (by simp) (fun _ => rfl) rfl rfl fun _ => rfl
      | _ => exact homes.carry (fun _ => rfl) rfl rfl fun _ => rfl
  | memcpy dst src n =>
    cases hx
    obtain ⟨d, k, s, st, rfl, rfl, hs, -⟩ := pre
    exact homes.phase (slotOf_eq_some.mp hs).1 (by simp) (fun _ => rfl) rfl rfl fun _ => rfl
  | allocate n =>
    simp only [Lcw.Mpi.exec] at hx
    split at hx <;> cases hx
    · exact homes.carry (fun _ => rfl) rfl rfl fun _ => rfl
    · exact homes
  | signal c q p =>
    cases hx
    refine homes.carry ?_ ?_ ?_ fun d => ?_
    · rw [World.signal_eq]
      exact fun _ => rfl
    · rw [World.signal_eq]
    · rw [World.signal_eq]
    · rw [World.signal_eq]
      simp only [bytes_giveBlock]
  | newDevice =>
    cases hx
    obtain ⟨n, c, a, rest, top⟩ := pre
    have top : w.client.acts t = ⟨.allocDevice n c, a⟩ :: rest := top
    have ok := h.calls.ok t _ (top ▸ List.mem_cons_self)
    exact homes.newDevice fun on => ⟨n, c, a, rest, top, ok.alloc on n c rfl⟩
  | initDevice d dev =>
    cases hx
    obtain ⟨s, hs, -, small⟩ := pre
    exact homes.initDevice (slotOf_eq_some.mp hs).1 small fun on => rule on d dev rfl
  | deleteDevice d =>
    cases hx
    refine ⟨homes.free, homes.locked, fun d' new => ?_, homes.comp, homes.published,
      fun d' dev known => ?_⟩
    · obtain ⟨unborn, built, table⟩ := homes.fresh d' new
      refine ⟨unborn, built, ?_⟩
      by_cases e : d' = d
      · simp [World.setDevice, e]
      · simpa only [World.setDevice, Function.update_of_ne e] using table
    · by_cases e : d' = d
      · simp [World.setDevice, e] at known
      · simp only [World.setDevice, Function.update_of_ne e] at known
        exact homes.table d' dev known
  | endCallback | commCreate d | commFree comm =>
    cases hx
    exact homes.carry (fun _ => rfl) rfl rfl fun _ => rfl
  | fetchAddNdevices =>
    cases hx
    exact ⟨homes.free, homes.locked, homes.fresh, homes.comp, homes.published, homes.table⟩
  | _ =>
    have frame := exec_frame hx
    refine homes.carry (fun _ => ?_) ?_ (frame.devs rfl) fun _ => ?_
    · rw [frame.sync rfl]
    · rw [frame.net rfl]
    · rw [frame.memory rfl]

end Homes

end Lcw.Mpi
