/- digest: What LCI holds and hands out is what the posts chose by their lengths. -/

import Lcw.Interleave.Discipline
import Lcw.Lci.Machine

set_option autoImplicit false
set_option relaxedAutoImplicit false

namespace Lcw.Lci

open Interleave
open Lcw.Mpi (OpCode Counter Rank Tid Byte toInt toSize toAint)
open Function (update)

section Facts

variable (cfg : Config)

/-- A length that counts the bytes of a buffer. -/
def Countable (length : Int) : Prop := 0 ≤ length ∧ length < 2 ^ 63

/-- A block of client memory. -/
def Buffer.IsUser (b : Buffer) : Prop := ∃ r a, b = .user r a

/-- The post is the one its function makes for its context. -/
structure Chosen (x : Post) : Prop where
  user : x.userContext.posted.buffer.IsUser
  countable : Countable x.userContext.posted.length
  form : x.userContext.posted.op = .send ∧ x = sendPost cfg x.comp x.userContext ∨
    x.userContext.posted.op = .recv ∧ x = recvPost cfg x.comp x.userContext ∨
    x.userContext.posted.op = .put ∧ x = putPost cfg x.comp x.userContext

/-- A message on its way was sent or put, and carries its bytes. -/
def Sent (m : Message) : Prop :=
  Chosen cfg m.post ∧ m.post.primitive.isRecv = false ∧ m.payload.length = m.post.data.length

/-- A completion that LCI hands out tells what happened. -/
def Honest (st : LciRequest) : Prop :=
  match st.userContext with
  | none => ∃ m k segment, Sent cfg m ∧ m.post.primitive.isPut ∧
      st = World.remoteStatus m k segment
  | some p => p.posted.op ≠ .putSignal ∧ st.type = st.data.type ∧
      (p.posted.op = .recv → ∃ m, Sent cfg m ∧ st.origin = some m ∧
        st.data.length = m.payload.length)

/-- A completion of the process itself reports its context, a receive with the length of the
message. -/
def LocalExact (q : Request) (p : Ctx) (origin : Option Message) : Prop :=
  if p.posted.op = .recv then
    ∃ m, origin = some m ∧ q = { p.posted with length := m.payload.length }
  else q = p.posted

/-- A remote completion reports the message, or what the wrong arm of the union reads as. -/
def RemoteRead (q : Request) (m : Message) (bytes : List Byte) : Prop :=
  q.op = .putSignal ∧ Sent cfg m ∧ m.post.primitive.isPut ∧
    match m.post.primitive.protocol with
    | .medium => q.length = m.payload.length ∧ bytes = m.payload
    | .long => ∃ k segment, q.length = toAint
        (cfg.asMbuffer ⟨segment, .packet k m.payload, m.payload.length⟩).length

/-- What the client sees. -/
def Shown (o : Output) : Prop :=
  match o.origin with
  | .own p m => LocalExact o.request p m
  | .remote m => ∃ m', m = some m' ∧ RemoteRead cfg o.request m' o.bytes

/-- The invariant of the whole job. -/
structure Books (w : World) : Prop where
  heap : ∀ p q, w.heap p = some q → q = p.posted
  locals : ∀ r x, (r, x) ∈ w.locals → Chosen cfg x ∧ x.userContext.posted.op ≠ .recv
  messages : ∀ m ∈ w.messages, Sent cfg m
  recvs : ∀ r x, (r, x) ∈ w.recvs → Chosen cfg x ∧ x.userContext.posted.op = .recv
  queues : ∀ r c, ∀ st ∈ w.queues r c, Honest cfg st
  outputs : ∀ o ∈ w.outputs, Shown cfg o

end Facts

section Choice

variable {cfg : Config} {x : Post}

theorem Chosen.op (h : Chosen cfg x) : x.userContext.posted.op ≠ .putSignal := by
  rcases h.form with ⟨op, -⟩ | ⟨op, -⟩ | ⟨op, -⟩ <;> simp [op]

/-- The protocol and the descriptor follow the length. -/
theorem Chosen.protocol (h : Chosen cfg x) : x.primitive.protocol =
    if x.userContext.posted.length ≤ cfg.mediumSize then .medium else .long := by
  rcases h.form with ⟨-, e⟩ | ⟨-, e⟩ | ⟨-, e⟩ <;>
    have primitive := congrArg Post.primitive e <;>
    simp only [sendPost, recvPost, putPost] at primitive <;>
    rw [primitive] <;> by_cases fits : x.userContext.posted.length ≤ cfg.mediumSize <;>
    simp [fits, Primitive.protocol]

theorem Chosen.data (h : Chosen cfg x) :
    x.data = describe cfg x.userContext.posted.buffer x.userContext.posted.length := by
  rcases h.form with ⟨-, e⟩ | ⟨-, e⟩ | ⟨-, e⟩ <;> rw [e] <;> rfl

theorem Chosen.address (h : Chosen cfg x) : x.data.address.IsUser := by
  have user := h.user
  rw [h.data]
  unfold describe
  split <;> exact user

theorem Chosen.length (h : Chosen cfg x) :
    (x.data.length : Int) = x.userContext.posted.length := by
  obtain ⟨lo, hi⟩ := h.countable
  have size : toSize x.userContext.posted.length = x.userContext.posted.length.toNat :=
    Mpi.toSize_of_range lo (by omega)
  rw [h.data]
  unfold describe
  split <;> simp only [Data.length, size] <;> omega

theorem Chosen.isRecv (h : Chosen cfg x) :
    x.primitive.isRecv = true ↔ x.userContext.posted.op = .recv := by
  rcases h.form with ⟨op, e⟩ | ⟨op, e⟩ | ⟨op, e⟩ <;> rw [op, e] <;>
    simp only [sendPost, recvPost, putPost] <;> split <;> simp [Primitive.isRecv]

theorem Chosen.isPut (h : Chosen cfg x) :
    x.primitive.isPut = true ↔ x.userContext.posted.op = .put := by
  rcases h.form with ⟨op, e⟩ | ⟨op, e⟩ | ⟨op, e⟩ <;> rw [op, e] <;>
    simp only [sendPost, recvPost, putPost] <;> split <;> simp [Primitive.isPut]

theorem Sent.length {m : Message} (h : Sent cfg m) :
    (m.payload.length : Int) = m.post.userContext.posted.length := by
  rw [h.2.2]
  exact h.1.length

theorem toAint_natCast {n : Nat} (h : (n : Int) < 2 ^ 63) : toAint n = n := by
  unfold toAint
  rw [Int.bmod_def]
  split <;> omega

end Choice

/-- The block a thread is about to hand to the client. -/
abbrev View := Option (Nat × List Byte)

def view (t : Tid) (w : World) : View := (w.filling t).map fun k => (k, w.blocks t k)

/-- What a thread must know to perform an operation, and what it learns. -/
def contract (cfg : Config) (t : Tid) : Contract Op Op.Ret View where
  pre
    | .post x, _ => Chosen cfg x
    | .memcpy dst _ _, v => ∃ k bytes, v = some (k, bytes) ∧ dst = .heap t k
    | .output q (.own p m), v => v = none ∧ LocalExact q p m
    | .output q (.remote m), v => ∃ m' k bytes, v = some (k, bytes) ∧ q.buffer = .heap t k ∧
        m = some m' ∧ RemoteRead cfg q m' bytes
    | .memalign _, v | .userCode, v => v = none
    | _, _ => True
  post
    | .newRequest q, v, p, v' => p.posted = q ∧ v' = v
    | .readRequest p, v, q, v' => q = p.posted ∧ v' = v
    | .queuePop _, v, r, v' => (∀ st, r = some st → Honest cfg st) ∧ v' = v
    | .memalign _, v, none, v' => v' = v
    | .memalign _, _, some b, v' => ∃ k, b = .heap t k ∧ v' = some (k, [])
    | .memcpy _ src n, v, _, v' => ∀ k old, v = some (k, old) →
        ∃ bytes, v' = some (k, bytes) ∧ ∀ j packed, src = .packet j packed →
          bytes = readBytes n packed
    | .output _ _, _, _, v' => v' = none
    | _, v, _, v' => v' = v

section Programs

variable {cfg : Config} {t : Tid}

theorem wp_post {request : Request} {call : Ctx → Post}
    (chosen : ∀ p, p.posted = request → Chosen cfg (call p)) (v : View) :
    (contract cfg t).wp (post request call) (fun _ v' => v' = v) v := by
  refine ⟨trivial, fun p v' hp => ⟨chosen p hp.1, fun ok v'' hok => ?_⟩⟩
  have same : v'' = v := hok.trans hp.2
  cases ok with
  | true => exact same
  | false => exact ⟨trivial, fun _ u hu => hu.trans same⟩

theorem wp_pollRemote {st : LciRequest} (honest : Honest cfg st) (null : st.userContext = none) :
    (contract cfg t).wp (pollRemote cfg st) (fun _ v' => v' = none) none := by
  unfold Honest at honest
  rw [null] at honest
  obtain ⟨m, j, segment, sent, isPut, rfl⟩ := honest
  refine ⟨rfl, fun b v' hb => ?_⟩
  cases b with
  | none => exact ⟨trivial, fun r => r.elim⟩
  | some b =>
    obtain ⟨k, rfl, rfl⟩ := hb
    refine ⟨⟨k, [], rfl, rfl⟩, fun _ v' hv => ?_⟩
    obtain ⟨bytes, rfl, copied⟩ := hv k [] rfl
    refine ⟨⟨m, k, bytes, rfl, rfl, rfl, rfl, sent, isPut, ?_⟩, fun _ v' hv => ?_⟩
    · have bound : (m.payload.length : Int) < 2 ^ 63 := by
        rw [sent.length]
        exact sent.1.countable.2
      cases protocol : m.post.primitive.protocol with
      | medium =>
        simp only [World.remoteStatus, protocol, Data.readMbuffer] at copied ⊢
        refine ⟨toAint_natCast bound, ?_⟩
        rw [copied _ _ rfl, readBytes_self]
      | long =>
        simp only [World.remoteStatus, protocol, Data.readMbuffer]
        exact ⟨j, segment, rfl⟩
    · exact ⟨trivial, fun _ v'' hv' => hv'.trans hv⟩

theorem wp_pollLocal {st : LciRequest} {p : Ctx} (honest : Honest cfg st)
    (own : st.userContext = some p) :
    (contract cfg t).wp (pollLocal cfg p st) (fun _ v' => v' = none) none := by
  unfold Honest at honest
  rw [own] at honest
  obtain ⟨op, type, recv⟩ := honest
  refine ⟨trivial, fun q v' hq => ⟨trivial, fun _ v'' hv => ⟨⟨hv.trans hq.2, ?_⟩, fun _ u hu => hu⟩⟩⟩
  rw [hq.1]
  unfold LocalExact localLength
  by_cases isRecv : p.posted.op = .recv
  · obtain ⟨m, sent, origin, length⟩ := recv isRecv
    have bound : (m.payload.length : Int) < 2 ^ 63 := by
      rw [sent.length]
      exact sent.1.countable.2
    rw [if_pos isRecv, if_pos (.inl isRecv), type]
    refine ⟨m, origin, ?_⟩
    cases data : st.data with
    | mbuffer b =>
      rw [data] at length
      simp only [Data.length] at length
      simp only [Data.type, Data.readMbuffer, if_true, length, toAint_natCast bound]
    | lbuffer b =>
      rw [data] at length
      simp only [Data.length] at length
      simp [Data.type, Data.readLbuffer, length, toAint_natCast bound]
  · rw [if_neg isRecv, if_neg (not_or.mpr ⟨isRecv, op⟩)]

theorem wp_pollCq (c : Comp) :
    (contract cfg t).wp (pollCq cfg c) (fun _ v' => v' = none) none := by
  refine ⟨trivial, fun r v' hr => ?_⟩
  obtain ⟨honest, rfl⟩ := hr
  cases r with
  | none => exact rfl
  | some st =>
    have known := honest st rfl
    cases own : st.userContext with
    | none =>
      simp only [Prog.ret_bind, own]
      refine (contract cfg t).wp_call (wp_pollRemote known own) fun q v' hv => ?_
      exact ⟨trivial, fun _ u hu => hu.trans hv⟩
    | some p =>
      simp only [Prog.ret_bind, own]
      refine (contract cfg t).wp_call (wp_pollLocal known own) fun q v' hv => ?_
      exact ⟨trivial, fun _ u hu => hu.trans hv⟩

theorem wp_counted {call : Code Bool} {start retry : Counter} {v : View}
    (h : (contract cfg t).wp call (fun _ v' => v' = v) v) :
    (contract cfg t).wp (counted call start retry) (fun _ v' => v' = v) v :=
  (contract cfg t).wp_call h fun _ _ hv => ⟨trivial, fun _ _ hu => hu.trans hv⟩

theorem callable_args {buf : Buffer} {length : Int}
    (may : (callable.mine t buf && decide (0 ≤ length) && decide (length < 2 ^ 63)) = true) :
    buf.IsUser ∧ Countable length := by
  simp only [Bool.and_eq_true, decide_eq_true_eq] at may
  refine ⟨?_, may.1.2, may.2⟩
  cases buf with
  | user r a => exact ⟨r, a, rfl⟩
  | _ => simp [callable.mine] at may

/-- A call leaves no block in its thread's hands. -/
theorem wp_apiCall {c : Call} (may : callable t c) :
    (contract cfg t).wp (apiCall cfg c) (fun _ v' => v' = none) none := by
  cases c with
  | send d rank tag buf length comp ctx =>
    obtain ⟨user, countable⟩ := callable_args may
    refine wp_counted (wp_post (fun p hp => ⟨?_, ?_, ?_⟩) none)
    · rw [show (sendPost cfg comp p).userContext = p from rfl, hp]
      exact user
    · rw [show (sendPost cfg comp p).userContext = p from rfl, hp]
      exact countable
    · rw [show (sendPost cfg comp p).userContext = p from rfl, hp]
      exact .inl ⟨rfl, rfl⟩
  | recv d rank tag buf length comp ctx =>
    obtain ⟨user, countable⟩ := callable_args may
    refine wp_counted (wp_post (fun p hp => ⟨?_, ?_, ?_⟩) none)
    · rw [show (recvPost cfg comp p).userContext = p from rfl, hp]
      exact user
    · rw [show (recvPost cfg comp p).userContext = p from rfl, hp]
      exact countable
    · rw [show (recvPost cfg comp p).userContext = p from rfl, hp]
      exact .inr (.inl ⟨rfl, rfl⟩)
  | put d rank buf length comp ctx =>
    obtain ⟨user, countable⟩ := callable_args may
    refine wp_counted (wp_post (fun p hp => ⟨?_, ?_, ?_⟩) none)
    · rw [show (putPost cfg comp p).userContext = p from rfl, hp]
      exact user
    · rw [show (putPost cfg comp p).userContext = p from rfl, hp]
      exact countable
    · rw [show (putPost cfg comp p).userContext = p from rfl, hp]
      exact .inr (.inr ⟨rfl, rfl⟩)
  | pollCq c =>
    refine ⟨trivial, fun _ v' hv => ?_⟩
    rw [show v' = none from hv]
    simp only [Prog.ret_bind]
    refine (contract cfg t).wp_call (wp_pollCq c) fun ret u hu => ?_
    cases ret with
    | true => exact ⟨trivial, fun _ u' hu' => hu'.trans hu⟩
    | false => exact hu
  | doProgress d => exact ⟨trivial, fun _ v' hv => ⟨trivial, fun _ u hu => hu.trans hv⟩⟩
  | barrier d => exact ⟨trivial, fun _ u hu => hu⟩

end Programs

end Lcw.Lci
