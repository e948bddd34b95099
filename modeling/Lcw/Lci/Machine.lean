/- digest: The processes of a job on LCI, with the messages and receives LCI holds for them. -/

import Lcw.Interleave.System
import Lcw.Lci.Backend

set_option autoImplicit false
set_option relaxedAutoImplicit false

namespace Lcw.Lci

open Interleave
open Lcw.Mpi (OpCode Counter Rank Tid Byte toInt toSize toAint)
open Function (update)

/-- `n` bytes from the start of a block. -/
def readBytes (n : Nat) (block : List Byte) : List Byte :=
  (List.range n).map fun i => block.getD i 0

@[simp] theorem length_readBytes (n : Nat) (block : List Byte) :
    (readBytes n block).length = n := by
  simp [readBytes]

theorem readBytes_self (block : List Byte) : readBytes block.length block = block := by
  unfold readBytes
  apply List.ext_getElem
  · simp
  · intro i h1 h2
    simp [h2]

/-- A completion the client has seen, with the bytes of its buffer at that time. -/
structure Output where
  request : Request
  origin : Origin
  bytes : List Byte
  deriving DecidableEq, Repr

/-- `willing` is what LCI answers to the next post, `available` whether memory is left;
`filling` is the block a thread is about to hand to the client. -/
structure World where
  next : Nat
  heap : Ctx → Option Request
  willing : Bool
  available : Bool
  user : Rank → Nat → List Byte
  blocks : Tid → Nat → List Byte
  nextBlock : Tid → Nat
  filling : Tid → Option Nat
  nextPacket : Nat
  locals : List (Rank × Post)
  messages : List Message
  recvs : List (Rank × Post)
  queues : Rank → Comp → List LciRequest
  counters : Counter → Nat
  outputs : List Output

/-- Before the first call. -/
def World.init : World where
  next := 0
  heap := fun _ => none
  willing := true
  available := true
  user := fun _ _ => []
  blocks := fun _ _ => []
  nextBlock := fun _ => 0
  filling := fun _ => none
  nextPacket := 0
  locals := []
  messages := []
  recvs := []
  queues := fun _ _ => []
  counters := fun _ => 0
  outputs := []

/-- What the post starts: a message, or a receive. -/
def Primitive.isRecv : Primitive → Bool
  | .recvm | .recvl => true
  | _ => false

def Primitive.isPut : Primitive → Bool
  | .putmac | .putla => true
  | _ => false

/-- The protocol a primitive belongs to. -/
def Primitive.protocol : Primitive → Protocol
  | .sendmc | .recvm | .putmac => .medium
  | .sendl | .recvl | .putla => .long

namespace World

variable (w : World)

def bytesOf : Buffer → List Byte
  | .user r a => w.user r a
  | .packet _ bytes => bytes
  | .heap t k => w.blocks t k

def store (b : Buffer) (bytes : List Byte) : World :=
  match b with
  | .user r a => { w with user := update w.user r (update (w.user r) a bytes) }
  | .packet _ _ => w
  | .heap t k => { w with blocks := update w.blocks t (update (w.blocks t) k bytes) }

def push (r : Rank) (c : Comp) (st : LciRequest) : World :=
  { w with queues := update w.queues r (update (w.queues r) c (w.queues r c ++ [st])) }

/-- LCI accepts a post; a message takes its bytes from memory. -/
def accept (r : Rank) (x : Post) : World :=
  if x.primitive.isRecv then { w with recvs := w.recvs ++ [(r, x)] }
  else { w with
    locals := w.locals ++ [(r, x)]
    messages := w.messages ++
      [⟨r, x, readBytes x.data.length (w.bytesOf x.data.address)⟩] }

/-- `posix_memalign`. -/
def memalign (t : Tid) : World :=
  { w with
    blocks := update w.blocks t (update (w.blocks t) (w.nextBlock t) [])
    nextBlock := update w.nextBlock t (w.nextBlock t + 1)
    filling := update w.filling t (some (w.nextBlock t)) }

def output (t : Tid) (q : Request) (origin : Origin) : World :=
  { w with
    outputs := w.outputs ++ [⟨q, origin, w.bytesOf q.buffer⟩]
    filling := update w.filling t none }

/-- The completion of an operation of the process itself. -/
def localStatus (x : Post) (data : Data) (origin : Option Message) : LciRequest :=
  ⟨some x.userContext, x.rank, x.tag, data.type, data, origin⟩

/-- The completion of a put at its target, in a packet of LCI. -/
def remoteStatus (m : Message) (k segment : Nat) : LciRequest where
  userContext := none
  rank := m.src
  tag := m.post.tag
  type := m.post.primitive.protocol
  data := match m.post.primitive.protocol with
    | .medium => .mbuffer ⟨.packet k m.payload, m.payload.length⟩
    | .long => .lbuffer ⟨segment, .packet k m.payload, m.payload.length⟩
  origin := some m

/-- What a receive of `n` bytes reports in its buffer. -/
def received (x : Post) (n : Nat) : Data :=
  match x.data with
  | .mbuffer b => .mbuffer { b with length := n }
  | .lbuffer b => .lbuffer { b with length := n }

/-- The bytes of a message reach the buffer of the receive it matches. -/
def deliver (i j : Nat) (m : Message) (r : Rank) (x : Post) : World :=
  let w := w.store x.data.address
    (m.payload ++ (w.bytesOf x.data.address).drop m.payload.length)
  let w := { w with messages := w.messages.eraseIdx i, recvs := w.recvs.eraseIdx j }
  w.push r x.comp (localStatus x (received x m.payload.length) (some m))

end World

/-- Sends and receives match within a protocol, on device, ranks and tag, if there is room. -/
def counterpart (m : Message) (r : Rank) (x : Post) : Bool :=
  !m.post.primitive.isPut && m.post.primitive.protocol == x.primitive.protocol &&
    m.post.device == x.device && m.post.rank == r && x.rank == m.src && m.post.tag == x.tag &&
    m.payload.length ≤ x.data.length

/-- The effect of an operation; only the end of the process does not return. -/
def exec (t : Tid) : (o : Op) → World → Option (o.Ret × World)
  | .newRequest q, w =>
    some (⟨w.next, q⟩, { w with next := w.next + 1, heap := update w.heap ⟨w.next, q⟩ (some q) })
  | .post x, w => some (if w.willing then (true, w.accept t.rank x) else (false, w))
  | .queuePop c, w =>
    match w.queues t.rank c with
    | [] => some (none, w)
    | st :: rest => some (some st,
        { w with queues := update w.queues t.rank (update (w.queues t.rank) c rest) })
  | .readRequest p, w => some ((w.heap p).getD p.posted, w)
  | .deleteRequest p, w => some ((), { w with heap := update w.heap p none })
  | .memalign _, w =>
    some (if w.available then (some (.heap t (w.nextBlock t)), w.memalign t) else (none, w))
  | .memcpy dst src n, w => some ((), w.store dst (readBytes n (w.bytesOf src)))
  | .output q origin, w => some ((), w.output t q origin)
  | .pcounterAdd c, w =>
    some ((), { w with counters := update w.counters c (w.counters c + 1) })
  | .mbufferFree _, w | .progress _, w | .barrier _, w | .userCode, w => some ((), w)
  | .abort, _ => none

/-- The client calls with buffers of its own process and lengths that count bytes. -/
def callable (t : Tid) : Call → Bool
  | .send _ _ _ buf length .. | .recv _ _ _ buf length .. | .put _ _ buf length .. =>
    mine buf && 0 ≤ length && length < 2 ^ 63
  | _ => true
where
  mine : Buffer → Bool
    | .user r _ => r == t.rank
    | _ => false

/-- Steps of LCI and of the client's memory. -/
inductive Env
  | willing (b : Bool)
  | available (b : Bool)
  | write (r : Rank) (addr : Nat) (bytes : List Byte)
  | localDone (i : Nat)
  | meet (i j : Nat)
  | arrive (i segment : Nat)

variable (cfg : Config)

/-- LCI completes what was posted in any order. -/
def env (e : Env) (w : World) : Option World :=
  match e with
  | .willing b => some { w with willing := b }
  | .available b => some { w with available := b }
  | .write r a bytes => some (w.store (.user r a) bytes)
  | .localDone i => do
    let (r, x) ← w.locals[i]?
    return ({ w with locals := w.locals.eraseIdx i }).push r x.comp
      (World.localStatus x x.data none)
  | .meet i j => do
    let m ← w.messages[i]?
    let (r, x) ← w.recvs[j]?
    if counterpart m r x then return w.deliver i j m r x else none
  | .arrive i segment => do
    let m ← w.messages[i]?
    if m.post.primitive.isPut then
      let r := m.post.rank.toNat
      return ({ w with
        messages := w.messages.eraseIdx i
        nextPacket := w.nextPacket + 1 }).push r (cfg.putComp r m.post.device)
          (World.remoteStatus m w.nextPacket segment)
    else none

/-- Any number of processes and threads that call the backend. -/
def system : System where
  Tid := Tid
  Op := Op
  Ret := Op.Ret
  Shared := World
  Intr := Call
  Env := Env
  exec := exec
  intr t o c w := if o = .userCode ∧ callable t c then some (apiCall cfg c, w) else none
  env := env cfg

/-- Every thread runs client code. -/
def start : (system cfg).State where
  shared := World.init
  prog := fun _ => act .userCode

end Lcw.Lci
