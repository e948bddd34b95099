/- digest: Agreement of the two sides: sends with receives, and puts with their target. -/

import Lcw.Lci.Wire

set_option autoImplicit false
set_option relaxedAutoImplicit false

namespace Lcw.Lci

open Interleave
open Lcw.Mpi (OpCode Counter Rank Tid Byte toInt toSize toAint)
open Function (update)

section Steps

variable {cfg : Config} {w w' : World} {t : Tid}

theorem update_eq_some {α β : Type} [DecidableEq α] {f : α → Option β} {a b : α} {v : Option β}
    {x : β} (h : update f a v b = some x) : b = a ∧ v = some x ∨ f b = some x := by
  by_cases e : b = a
  · subst e
    rw [Function.update_self] at h
    exact .inl ⟨rfl, h⟩
  · rw [Function.update_of_ne e] at h
    exact .inr h

theorem mem_push {w : World} {r s : Rank} {c d : Comp} {st st' : LciRequest}
    (h : st' ∈ (w.push r c st).queues s d) : st' ∈ w.queues s d ∨ st' = st := by
  by_cases hr : s = r
  · subst hr
    by_cases hc : d = c
    · subst hc
      simpa [World.push] using h
    · exact .inl (by simpa [World.push, hc] using h)
  · exact .inl (by simpa [World.push, hr] using h)

theorem Books.push (h : Books cfg w) (r : Rank) (c : Comp) {st : LciRequest}
    (honest : Honest cfg st) : Books cfg (w.push r c st) where
  heap := h.heap
  locals := h.locals
  messages := h.messages
  recvs := h.recvs
  queues s d st' hs := by
    rcases mem_push hs with old | rfl
    · exact h.queues s d st' old
    · exact honest
  outputs := h.outputs

theorem Books.store (h : Books cfg w) (b : Buffer) (bytes : List Byte) :
    Books cfg (w.store b bytes) := by
  cases b <;> exact ⟨h.heap, h.locals, h.messages, h.recvs, h.queues, h.outputs⟩

theorem Books.accept (h : Books cfg w) (r : Rank) {x : Post} (chosen : Chosen cfg x) :
    Books cfg (w.accept r x) := by
  unfold World.accept
  split
  · rename_i recv
    refine ⟨h.heap, h.locals, h.messages, fun s y hy => ?_, h.queues, h.outputs⟩
    rcases List.mem_append.mp hy with old | new
    · exact h.recvs s y old
    · obtain ⟨rfl, rfl⟩ := Prod.mk.inj (List.mem_singleton.mp new)
      exact ⟨chosen, chosen.isRecv.mp recv⟩
  · rename_i sends
    have notRecv : x.primitive.isRecv = false := by simpa using sends
    refine ⟨h.heap, fun s y hy => ?_, fun m hm => ?_, h.recvs, h.queues, h.outputs⟩
    · rcases List.mem_append.mp hy with old | new
      · exact h.locals s y old
      · obtain ⟨rfl, rfl⟩ := Prod.mk.inj (List.mem_singleton.mp new)
        exact ⟨chosen, fun op => sends (chosen.isRecv.mpr op)⟩
    · rcases List.mem_append.mp hm with old | new
      · exact h.messages m old
      · obtain rfl := List.mem_singleton.mp new
        exact ⟨chosen, notRecv, length_readBytes _ _⟩

theorem Books.output (h : Books cfg w) {q : Request} {origin : Origin}
    (shown : Shown cfg ⟨q, origin, w.bytesOf q.buffer⟩) : Books cfg (w.output t q origin) := by
  refine ⟨h.heap, h.locals, h.messages, h.recvs, h.queues, fun o ho => ?_⟩
  rcases List.mem_append.mp ho with old | new
  · exact h.outputs o old
  · obtain rfl := List.mem_singleton.mp new
    exact shown

theorem view_accept (u : Tid) (r : Rank) (x : Post) : view u (w.accept r x) = view u w := by
  unfold World.accept
  split <;> rfl

/-- Each operation keeps the invariant and its contract, unseen by other threads. -/
theorem exec_books {o : Op} {r : o.Ret} (h : Books cfg w)
    (pre : (contract cfg t).pre o (view t w)) (hx : exec t o w = some (r, w')) :
    Books cfg w' ∧ (contract cfg t).post o (view t w) r (view t w') ∧
      ∀ u, u ≠ t → view u w' = view u w := by
  cases o with
  | newRequest q =>
    obtain ⟨rfl, rfl⟩ := Prod.mk.inj (Option.some.inj hx)
    refine ⟨⟨fun p q' hp => ?_, h.locals, h.messages, h.recvs, h.queues, h.outputs⟩,
      ⟨rfl, rfl⟩, fun u _ => rfl⟩
    rcases update_eq_some hp with ⟨rfl, new⟩ | old
    · exact (Option.some.inj new).symm
    · exact h.heap p q' old
  | post x =>
    simp only [exec] at hx
    split at hx
    · obtain ⟨rfl, rfl⟩ := Prod.mk.inj (Option.some.inj hx)
      exact ⟨h.accept t.rank pre, view_accept t _ x, fun u _ => view_accept u _ x⟩
    · obtain ⟨rfl, rfl⟩ := Prod.mk.inj (Option.some.inj hx)
      exact ⟨h, rfl, fun u _ => rfl⟩
  | queuePop c =>
    simp only [exec] at hx
    split at hx
    · obtain ⟨rfl, rfl⟩ := Prod.mk.inj (Option.some.inj hx)
      exact ⟨h, ⟨fun st hst => (by cases hst), rfl⟩, fun u _ => rfl⟩
    · rename_i st rest hc
      obtain ⟨rfl, rfl⟩ := Prod.mk.inj (Option.some.inj hx)
      refine ⟨⟨h.heap, h.locals, h.messages, h.recvs, fun s d st' hs => ?_, h.outputs⟩,
        ⟨fun st' hst => ?_, rfl⟩, fun u _ => rfl⟩
      · refine h.queues s d st' ?_
        by_cases hr : s = t.rank
        · subst hr
          by_cases hd : d = c
          · subst hd
            rw [hc]
            exact List.mem_cons_of_mem _ (by simpa using hs)
          · simpa [hd] using hs
        · simpa [hr] using hs
      · obtain rfl := Option.some.inj hst
        exact h.queues t.rank c st (by rw [hc]; exact List.mem_cons_self)
  | readRequest p =>
    obtain ⟨rfl, rfl⟩ := Prod.mk.inj (Option.some.inj hx)
    refine ⟨h, ⟨?_, rfl⟩, fun u _ => rfl⟩
    cases e : w.heap p with
    | none => rfl
    | some q => exact h.heap p q e
  | deleteRequest p =>
    obtain ⟨-, rfl⟩ := Prod.mk.inj (Option.some.inj hx)
    refine ⟨⟨fun p' q hp => ?_, h.locals, h.messages, h.recvs, h.queues, h.outputs⟩, rfl,
      fun u _ => rfl⟩
    rcases update_eq_some hp with ⟨-, new⟩ | old
    · cases new
    · exact h.heap p' q old
  | memalign n =>
    simp only [exec] at hx
    split at hx
    · obtain ⟨rfl, rfl⟩ := Prod.mk.inj (Option.some.inj hx)
      refine ⟨⟨h.heap, h.locals, h.messages, h.recvs, h.queues, h.outputs⟩,
        ⟨w.nextBlock t, rfl, ?_⟩, fun u hu => ?_⟩
      · simp [view, World.memalign]
      · simp [view, World.memalign, hu]
    · obtain ⟨rfl, rfl⟩ := Prod.mk.inj (Option.some.inj hx)
      exact ⟨h, rfl, fun u _ => rfl⟩
  | memcpy dst src n =>
    obtain ⟨-, rfl⟩ := Prod.mk.inj (Option.some.inj hx)
    obtain ⟨k, old, hv, rfl⟩ := pre
    obtain ⟨j, filling, here⟩ := Option.map_eq_some_iff.mp hv
    obtain ⟨rfl, rfl⟩ := Prod.mk.inj here
    refine ⟨h.store _ _, fun k' old' hv' => ?_, fun u hu => ?_⟩
    · rw [hv] at hv'
      obtain ⟨rfl, rfl⟩ := Prod.mk.inj (Option.some.inj hv')
      refine ⟨readBytes n (w.bytesOf src), ?_, fun i packed hs => ?_⟩
      · simp [view, World.store, filling]
      · rw [hs]
        rfl
    · simp [view, World.store, hu]
  | output q origin =>
    obtain ⟨-, rfl⟩ := Prod.mk.inj (Option.some.inj hx)
    have mine : view t (w.output t q origin) = none := by simp [view, World.output]
    have others (u : Tid) (hu : u ≠ t) : view u (w.output t q origin) = view u w := by
      simp [view, World.output, hu]
    cases origin with
    | own p m => exact ⟨h.output pre.2, mine, others⟩
    | remote m =>
      obtain ⟨m', k, bytes, hv, buffer, rfl, read⟩ := pre
      obtain ⟨j, -, here⟩ := Option.map_eq_some_iff.mp hv
      obtain ⟨rfl, rfl⟩ := Prod.mk.inj here
      refine ⟨h.output ⟨m', rfl, ?_⟩, mine, others⟩
      rw [buffer]
      exact read
  | pcounterAdd c =>
    obtain ⟨-, rfl⟩ := Prod.mk.inj (Option.some.inj hx)
    exact ⟨⟨h.heap, h.locals, h.messages, h.recvs, h.queues, h.outputs⟩, rfl, fun u _ => rfl⟩
  | mbufferFree _ | progress _ | barrier _ | userCode =>
    obtain ⟨-, rfl⟩ := Prod.mk.inj (Option.some.inj hx)
    exact ⟨h, rfl, fun u _ => rfl⟩
  | abort => cases hx

theorem view_store_user (u : Tid) (r : Rank) (a : Nat) (bytes : List Byte) :
    view u (w.store (.user r a) bytes) = view u w := rfl

theorem view_push (u : Tid) (r : Rank) (c : Comp) (st : LciRequest) :
    view u (w.push r c st) = view u w := rfl

/-- A receive tells the message it matched. -/
theorem honest_received {x : Post} {m : Message} (sent : Sent cfg m) (chosen : Chosen cfg x) :
    Honest cfg (World.localStatus x (World.received x m.payload.length) (some m)) := by
  refine ⟨chosen.op, rfl, fun _ => ⟨m, sent, rfl, ?_⟩⟩
  unfold World.received World.localStatus
  cases x.data <;> rfl

theorem honest_done {x : Post} (chosen : Chosen cfg x) (op : x.userContext.posted.op ≠ .recv) :
    Honest cfg (World.localStatus x x.data none) :=
  ⟨chosen.op, rfl, fun recv => absurd recv op⟩

theorem env_books {e : Env} (h : Books cfg w) (he : env cfg e w = some w') :
    Books cfg w' ∧ ∀ t, view t w' = view t w := by
  cases e with
  | willing b | available b =>
    obtain rfl := Option.some.inj he
    exact ⟨⟨h.heap, h.locals, h.messages, h.recvs, h.queues, h.outputs⟩, fun t => rfl⟩
  | write r a bytes =>
    obtain rfl := Option.some.inj he
    exact ⟨h.store _ _, fun t => rfl⟩
  | localDone i =>
    obtain ⟨⟨r, x⟩, hx, rest⟩ := Option.bind_eq_some_iff.mp he
    obtain rfl := Option.some.inj rest
    obtain ⟨chosen, op⟩ := h.locals r x (List.mem_of_getElem? hx)
    refine ⟨Books.push ?_ r x.comp (honest_done chosen op), fun t => rfl⟩
    exact ⟨h.heap, fun s y hy => h.locals s y (List.mem_of_mem_eraseIdx hy), h.messages,
      h.recvs, h.queues, h.outputs⟩
  | meet i j =>
    obtain ⟨m, hm, rest⟩ := Option.bind_eq_some_iff.mp he
    obtain ⟨⟨r, x⟩, hx, rest⟩ := Option.bind_eq_some_iff.mp rest
    simp only at rest
    split at rest
    · obtain rfl := Option.some.inj rest
      have sent := h.messages m (List.mem_of_getElem? hm)
      obtain ⟨chosen, -⟩ := h.recvs r x (List.mem_of_getElem? hx)
      have stored := h.store x.data.address
        (m.payload ++ (w.bytesOf x.data.address).drop m.payload.length)
      refine ⟨Books.push ?_ r x.comp (honest_received sent chosen), fun t => ?_⟩
      · exact ⟨stored.heap, stored.locals,
          fun m' hm' => stored.messages m' (List.mem_of_mem_eraseIdx hm'),
          fun s y hy => stored.recvs s y (List.mem_of_mem_eraseIdx hy), stored.queues,
          stored.outputs⟩
      · obtain ⟨s, a, user⟩ := chosen.address
        unfold World.deliver
        rw [user]
        rfl
    · cases rest
  | arrive i segment =>
    obtain ⟨m, hm, rest⟩ := Option.bind_eq_some_iff.mp he
    split at rest
    · rename_i isPut
      obtain rfl := Option.some.inj rest
      have sent := h.messages m (List.mem_of_getElem? hm)
      refine ⟨Books.push ?_ _ _ ⟨m, _, segment, sent, isPut, rfl⟩, fun t => rfl⟩
      exact ⟨h.heap, h.locals, fun m' hm' => h.messages m' (List.mem_of_mem_eraseIdx hm'),
        h.recvs, h.queues, h.outputs⟩
    · cases rest

end Steps

/-- The invariant and the contracts hold in every interleaving of all processes. -/
def wire (cfg : Config) : Discipline (system cfg) fun _ _ => True where
  View := View
  view := view
  inv := Books cfg
  contract := contract cfg
  exec _ _ _ _ _ _ inv _ _ pre hx := exec_books inv pre hx
  intr s t o k c p w inv _ _ pre hi := by
    simp only [system] at hi
    split at hi
    · rename_i may
      obtain ⟨rfl, rfl⟩ := Prod.mk.inj (Option.some.inj hi)
      obtain ⟨rfl, may⟩ := may
      have idle : view t s.shared = none := pre
      refine ⟨inv, ?_, fun u _ => rfl⟩
      rw [idle]
      exact wp_apiCall may
    · cases hi
  env _ _ _ inv _ he := env_books inv he

theorem wire_start (cfg : Config) : (wire cfg).Holds (start cfg) := by
  refine ⟨⟨?_, ?_, ?_, ?_, ?_, ?_⟩, fun t => ⟨rfl, fun _ _ _ => trivial⟩⟩ <;>
    simp [start, World.init]

variable {cfg : Config} {s : (system cfg).State}

theorem books_of_reach (h : System.Reach (fun _ _ => True) (start cfg) s) : Books cfg s.shared :=
  ((wire cfg).reach (wire_start cfg) h).1

section Put

/-- Reading the `mbuffer` of a long completion gives another address and another `size_t`. -/
structure ArmsDiffer (cfg : Config) : Prop where
  address : ∀ b, (cfg.asMbuffer b).address ≠ b.address
  length : ∀ b, (cfg.asMbuffer b).length ≠ b.length
  size : ∀ b, (cfg.asMbuffer b).length < 2 ^ 64

/-- The client at the target sees the put: a `PUT_SIGNAL` with its length and its bytes. -/
def Output.Exact (o : Output) (m : Message) : Prop :=
  o.request.op = .putSignal ∧ o.request.length = m.post.userContext.posted.length ∧
    o.bytes = m.payload

theorem toAint_ne {a n : Nat} (size : a < 2 ^ 64) (bound : (n : Int) < 2 ^ 63) (ne : a ≠ n) :
    toAint a ≠ n := by
  unfold toAint
  rw [Int.bmod_def]
  split <;> omega

/-- A put is seen as it was made exactly when it was sent through a packet. -/
theorem put_signal_exact_iff (arms : ArmsDiffer cfg)
    (h : System.Reach (fun _ _ => True) (start cfg) s) {o : Output} (ho : o ∈ s.shared.outputs)
    {m : Message} (hm : o.origin = .remote (some m)) :
    o.Exact m ↔ m.post.userContext.posted.length ≤ cfg.mediumSize := by
  have shown := (books_of_reach h).outputs o ho
  unfold Shown at shown
  rw [hm] at shown
  obtain ⟨m', same, op, sent, -, read⟩ := shown
  obtain rfl := Option.some.inj same
  have length := sent.length
  have bound : (m.payload.length : Int) < 2 ^ 63 := by
    rw [length]
    exact sent.1.countable.2
  rw [sent.1.protocol] at read
  unfold Output.Exact
  by_cases fits : m.post.userContext.posted.length ≤ cfg.mediumSize
  · rw [if_pos fits] at read
    exact ⟨fun _ => fits, fun _ => ⟨op, read.1.trans length, read.2⟩⟩
  · rw [if_neg fits] at read
    obtain ⟨k, segment, wrong⟩ := read
    refine ⟨fun exact' => ?_, fun small => absurd small fits⟩
    refine absurd (wrong.symm.trans (exact'.2.1.trans length.symm)) ?_
    exact toAint_ne (arms.size _) bound (arms.length _)

/-- LCI with packets of eight bytes, whose address words read as some other length. -/
def smallPackets : Config where
  mediumSize := 8
  asMbuffer b :=
    { address := if b.address = .user 0 b.segment then .user 1 b.segment else .user 0 b.segment
      length := if b.length = 29601808 then 29601824 else 29601808 }
  asLbuffer b := ⟨b.length, b.address, 0⟩
  segmentAll := 0
  putComp := fun _ _ => 2

theorem smallPackets_arms : ArmsDiffer smallPackets where
  address b := by
    simp only [smallPackets]
    split
    · rename_i same
      simp [same]
    · rename_i other
      exact fun same => other same.symm
  length b := by
    simp only [smallPackets]
    split <;> omega
  size b := by
    simp only [smallPackets]
    split <;> omega

/-- Rank 0 puts `n` bytes on rank 1, which polls the completion. -/
def putRun (n : Int) : List (system smallPackets).Event :=
  [.intr ⟨0, 0⟩ (.put 1 1 (.user 0 4) n 7 6), .exec ⟨0, 0⟩, .exec ⟨0, 0⟩, .exec ⟨0, 0⟩,
    .env (.arrive 0 5), .intr ⟨1, 0⟩ (.pollCq 2), .exec ⟨1, 0⟩, .exec ⟨1, 0⟩, .exec ⟨1, 0⟩,
    .exec ⟨1, 0⟩, .exec ⟨1, 0⟩]

theorem put_signal_exact_iff_three : ∃ (s : (system smallPackets).State) (o : Output)
    (m : Message), o ∈ s.shared.outputs ∧ m.post.userContext.posted.length = 3 ∧ o.Exact m := by
  let q : Request := ⟨.put, 1, 1, 0, .user 0 4, 3, 6⟩
  let m : Message := ⟨0, putPost smallPackets 7 ⟨0, q⟩, [0, 0, 0]⟩
  have run : (System.run (start smallPackets) (putRun 3)).map
      (fun s => s.shared.outputs.map fun o => (o.origin, o.bytes)) =
        some [(.remote (some m), [0, 0, 0])] := by
    decide
  obtain ⟨s, reached, outputs⟩ := System.reach_probe_any run
  obtain ⟨o, ho, seen⟩ := List.mem_map.mp (outputs ▸ List.mem_singleton_self _)
  have origin : o.origin = .remote (some m) := congrArg Prod.fst seen
  exact ⟨s, o, m, ho, rfl, (put_signal_exact_iff smallPackets_arms reached ho origin).mpr
    (by decide)⟩

/-- The length of the put a message from another process is of. -/
private def sentLength : Origin → Int
  | .remote (some m) => m.post.userContext.posted.length
  | _ => 0

/-- A put of nine bytes, one more than a packet holds, is polled with another length. -/
theorem long_put_misread : ¬ ∀ s : (system smallPackets).State,
    System.Reach (fun _ _ => True) (start smallPackets) s → ∀ o ∈ s.shared.outputs,
      ∀ m, o.origin = .remote (some m) → o.Exact m := by
  intro claim
  have run : (System.run (start smallPackets) (putRun 9)).map
      (fun s => s.shared.outputs.map fun o => (sentLength o.origin, o.request.length)) =
        some [(9, 29601808)] := by
    decide
  obtain ⟨s, reached, outputs⟩ := System.reach_probe_any run
  obtain ⟨o, ho, seen⟩ := List.mem_map.mp (outputs ▸ List.mem_singleton_self _)
  obtain ⟨put, polled⟩ := Prod.mk.inj seen
  cases origin : o.origin with
  | own p m => simp [sentLength, origin] at put
  | remote m =>
    cases m with
    | none => simp [sentLength, origin] at put
    | some m =>
      simp only [sentLength, origin] at put
      have same := (claim s reached o ho m origin).2.1
      omega

end Put

section TwoSided

/-- The receive names the sender and the message names the receiver, on one device and tag. -/
structure Paired (m : Message) (r : Rank) (x : Post) : Prop where
  device : m.post.device = x.device
  dst : m.post.rank = r
  src : x.rank = m.src
  tag : m.post.tag = x.tag

/-- The message can meet the receive; then its bytes are in the receive buffer, a completion is
queued, and whenever it is polled it is a `RECV` of the length of the message. -/
def Delivers (s : (system cfg).State) (m : Message) (r : Rank) (x : Post) : Prop :=
  ∃ i j s', s.shared.messages[i]? = some m ∧ s.shared.recvs[j]? = some (r, x) ∧
    System.step s (.env (.meet i j)) = some s' ∧
    readBytes m.payload.length (s'.shared.bytesOf x.data.address) = m.payload ∧
    (∃ st ∈ s'.shared.queues r x.comp, st.userContext = some x.userContext ∧
      st.origin = some m) ∧
    ∀ s'', System.Reach (fun _ _ => True) s' s'' → ∀ o ∈ s''.shared.outputs,
      o.origin = .own x.userContext (some m) →
        o.request = { x.userContext.posted with length := m.post.userContext.posted.length }

theorem readBytes_append (a b : List Byte) : readBytes a.length (a ++ b) = a := by
  unfold readBytes
  apply List.ext_getElem
  · simp
  · intro i h1 h2
    simp [List.getElem?_append_left h2, h2]

theorem counterpart_iff {m : Message} {r : Rank} {x : Post} (sent : Sent cfg m)
    (sends : m.post.userContext.posted.op = .send) (chosen : Chosen cfg x)
    (paired : Paired m r x)
    (fits : m.post.userContext.posted.length ≤ x.userContext.posted.length) :
    counterpart m r x = true ↔ ¬ (m.post.userContext.posted.length ≤ cfg.mediumSize ∧
      cfg.mediumSize < x.userContext.posted.length) := by
  have notPut : m.post.primitive.isPut = false := by
    rw [← Bool.not_eq_true, sent.1.isPut, sends]
    simp
  have room : m.payload.length ≤ x.data.length := by
    have n := sent.length
    have l := chosen.length
    omega
  unfold counterpart
  simp only [notPut, paired.device, paired.dst, paired.src, paired.tag, beq_self_eq_true,
    Bool.not_false, Bool.true_and, Bool.and_true, room, decide_true, beq_iff_eq]
  rw [sent.1.protocol, chosen.protocol]
  split <;> split <;> simp <;> omega

theorem deliver_meets {m : Message} {r : Rank} {x : Post} {i j : Nat}
    (hm : s.shared.messages[i]? = some m) (hx : s.shared.recvs[j]? = some (r, x))
    (accepted : counterpart m r x = true) :
    System.step s (.env (.meet i j)) = some ⟨s.shared.deliver i j m r x, s.prog⟩ := by
  simp [System.step, system, env, hm, hx, accepted]

/-- A send and a receive with room for it agree unless the medium size lies between them. -/
theorem two_sided_agree_iff (h : System.Reach (fun _ _ => True) (start cfg) s) {m : Message}
    (hm : m ∈ s.shared.messages) (sends : m.post.userContext.posted.op = .send) {r : Rank}
    {x : Post} (hx : (r, x) ∈ s.shared.recvs) (paired : Paired m r x)
    (fits : m.post.userContext.posted.length ≤ x.userContext.posted.length) :
    Delivers s m r x ↔ ¬ (m.post.userContext.posted.length ≤ cfg.mediumSize ∧
      cfg.mediumSize < x.userContext.posted.length) := by
  have books := books_of_reach h
  have sent := books.messages m hm
  obtain ⟨chosen, recv⟩ := books.recvs r x hx
  rw [← counterpart_iff sent sends chosen paired fits]
  constructor
  · rintro ⟨i, j, s', hi, hj, step, -⟩
    by_contra refused
    simp [System.step, system, env, hi, hj, refused] at step
  · intro accepted
    obtain ⟨i, hi⟩ := List.getElem?_of_mem hm
    obtain ⟨j, hj⟩ := List.getElem?_of_mem hx
    have step := deliver_meets hi hj accepted
    let st := World.localStatus x (World.received x m.payload.length) (some m)
    refine ⟨i, j, _, hi, hj, step, ?_, ⟨st, ?_, rfl, rfl⟩, fun s'' later o ho origin => ?_⟩
    · obtain ⟨q, a, user⟩ := chosen.address
      simp only [World.deliver, World.push, user, World.store, World.bytesOf,
        Function.update_self]
      exact readBytes_append _ _
    · simp only [World.deliver, World.push, Function.update_self, List.mem_append]
      exact .inr (List.mem_singleton_self _)
    · have reached := (System.Reach.step _ h trivial step).trans later
      have shown := (books_of_reach reached).outputs o ho
      unfold Shown at shown
      rw [origin] at shown
      simp only [LocalExact, if_pos recv] at shown
      obtain ⟨m', same, request⟩ := shown
      obtain rfl := Option.some.inj same
      rw [request, sent.length]

/-- Rank 0 sends `n` bytes, rank 1 posts a receive of `l` bytes. -/
def sendRun (n l : Int) : List (system smallPackets).Event :=
  [.intr ⟨0, 0⟩ (.send 1 1 5 (.user 0 4) n 7 6), .exec ⟨0, 0⟩, .exec ⟨0, 0⟩,
    .intr ⟨1, 0⟩ (.recv 1 0 5 (.user 1 4) l 7 6), .exec ⟨1, 0⟩, .exec ⟨1, 0⟩]

/-- What the run leaves with LCI. -/
def sentMessage (n : Int) : Message :=
  ⟨0, sendPost smallPackets 7 ⟨0, ⟨.send, 1, 1, 5, .user 0 4, n, 6⟩⟩, readBytes n.toNat []⟩

def postedRecv (l : Int) : Post :=
  recvPost smallPackets 7 ⟨1, ⟨.recv, 1, 0, 5, .user 1 4, l, 6⟩⟩

theorem two_sided_agree_iff_medium : ∃ s : (system smallPackets).State,
    Delivers s (sentMessage 3) 1 (postedRecv 8) := by
  have run : (System.run (start smallPackets) (sendRun 3 8)).map
      (fun s => (s.shared.messages, s.shared.recvs)) =
        some ([sentMessage 3], [(1, postedRecv 8)]) := by
    decide
  obtain ⟨s, reached, posted⟩ := System.reach_probe_any run
  obtain ⟨messages, recvs⟩ := Prod.mk.inj posted
  have hm : sentMessage 3 ∈ s.shared.messages := messages ▸ List.mem_singleton_self _
  have hx : (1, postedRecv 8) ∈ s.shared.recvs := recvs ▸ List.mem_singleton_self _
  exact ⟨s, (two_sided_agree_iff reached hm rfl hx ⟨rfl, rfl, rfl, rfl⟩ (by decide)).mpr
    (by decide)⟩

/-- A send of three bytes never meets a receive of nine, one more than a packet holds. -/
theorem medium_send_misses_long_recv : ¬ ∀ s : (system smallPackets).State,
    System.Reach (fun _ _ => True) (start smallPackets) s → ∀ m ∈ s.shared.messages,
      m.post.userContext.posted.op = .send → ∀ r x, (r, x) ∈ s.shared.recvs → Paired m r x →
        m.post.userContext.posted.length ≤ x.userContext.posted.length → Delivers s m r x := by
  intro claim
  have run : (System.run (start smallPackets) (sendRun 3 9)).map
      (fun s => (s.shared.messages, s.shared.recvs)) =
        some ([sentMessage 3], [(1, postedRecv 9)]) := by
    decide
  obtain ⟨s, reached, posted⟩ := System.reach_probe_any run
  obtain ⟨messages, recvs⟩ := Prod.mk.inj posted
  have hm : sentMessage 3 ∈ s.shared.messages := messages ▸ List.mem_singleton_self _
  have hx : (1, postedRecv 9) ∈ s.shared.recvs := recvs ▸ List.mem_singleton_self _
  obtain ⟨i, j, s', hi, hj, step, -⟩ :=
    claim s reached _ hm rfl 1 _ hx ⟨rfl, rfl, rfl, rfl⟩ (by decide)
  have refused : counterpart (sentMessage 3) 1 (postedRecv 9) = false := by decide
  simp [System.step, system, env, hi, hj, refused] at step

end TwoSided

end Lcw.Lci
