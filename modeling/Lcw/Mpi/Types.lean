/- digest: Data of the MPI backend: requests, entries, devices, completion objects, locks, calls. -/

import Lcw.Mpi.Datatype

set_option autoImplicit false
set_option relaxedAutoImplicit false

namespace Lcw.Mpi

abbrev Rank := Nat

/-- A thread of one process of the job. -/
structure Tid where
  rank : Rank
  index : Nat
  deriving DecidableEq, Repr

/-- A `device_t`: the process that allocated it and its address there. -/
structure Dev where
  rank : Rank
  addr : Nat
  deriving DecidableEq, Repr

/-- A `comp_t` other than the null pointer. -/
abbrev Comp := Nat

/-- `op_t`. -/
inductive OpCode
  | send | recv | put | putSignal
  deriving DecidableEq, Repr

/-- Memory blocks: the user's own, a device's `put_rbuf`, and blocks from `m_allocator`. -/
inductive Buffer
  | user (n : Nat)
  | putRbuf (d : Dev)
  | heap (n : Nat)
  deriving DecidableEq, Repr

/-- `request_t`. -/
structure Request where
  op : OpCode
  device : Dev
  rank : Int
  tag : Int
  buffer : Buffer
  length : Int
  userContext : Nat
  deriving DecidableEq, Repr

/-- A `request_t*` from `new`. The program uses the address only; the initial value of the
object and the completion object its operation names are history. -/
structure RequestPtr where
  addr : Nat
  posted : Request
  completion : Option Comp
  deriving DecidableEq, Repr

/-- A communicator handle: the device it was made for and the context the ranks agree on. -/
structure Comm where
  device : Dev
  context : Nat
  deriving DecidableEq, Repr

/-- An `MPI_Request` other than `MPI_REQUEST_NULL`, with the communicator and the `request_t`
it was started for as history. -/
structure Handle where
  id : Nat
  comm : Comm
  request : RequestPtr
  deriving DecidableEq, Repr

/-- `entry_t`. -/
structure Entry where
  mpiReq : Option Handle
  device : Dev
  completion : Option Comp
  request : RequestPtr
  deriving DecidableEq, Repr

/-- A completion manager: one of the `g_comp_managers` of a process, or a device's own. -/
inductive Manager
  | shared (r : Rank) (i : Nat)
  | priv (d : Dev)
  deriving DecidableEq, Repr

def Manager.rank : Manager → Rank
  | .shared r _ => r
  | .priv d => d.rank

/-- `mpi::device_t`, except for the put slot, which other threads share. -/
structure Device where
  id : Nat
  enablePut : Bool
  comm : Comm
  maxTag2sided : Int
  putTag : Int
  putRbufSize : Nat
  manager : Manager
  deriving DecidableEq, Repr

/-- The spinlocks of a process. -/
inductive Lock
  | put (d : Dev)
  | manager (m : Manager)
  | stream (d : Dev)
  deriving DecidableEq, Repr

/-- A message on its way; the `request_t` it was sent for is history. -/
structure Message where
  src : Rank
  dst : Rank
  context : Nat
  tag : Int
  payload : List Byte
  request : RequestPtr
  deriving DecidableEq, Repr

/-- `MPI_Status`. The program can read the source, the tag and the number of bytes; a completed
send carries no message. -/
structure Status where
  source : Int
  tag : Int
  message : Option Message
  error : Bool
  deriving DecidableEq, Repr

def Status.bytes (st : Status) : Nat :=
  match st.message with
  | some m => m.payload.length
  | none => 0

/-- What `MPI_Test` reports. -/
inductive TestResult
  | notYet
  | done (st : Status)
  | failed
  deriving DecidableEq, Repr

inductive CompType
  | request | continue
  deriving DecidableEq, Repr

/-- Flags of `MPIX_Continue`. -/
structure ContFlags where
  immediate : Bool
  deferComplete : Bool
  deriving DecidableEq, Repr

/-- `config_t`, the size of the job, the constants of the MPI implementation, and which
completion objects are handlers. `nullHandle` says which calls MPI answers with a null request. -/
structure Config where
  nranks : Nat
  nthreads : Nat
  compType : CompType
  useStream : Bool
  useContReq : Bool
  contFlags : ContFlags
  pendingMsgMax : Int
  numCompManagers : Nat
  isHandler : Comp → Bool
  tagUB : Option Int
  anySource : Int
  undefined : Int
  nullHandle : Nat → Bool
  indeterminate : Status

/-- `config_t::default_max_put`. -/
def defaultMaxPut : Nat := 8192

/-- The reasons for which an assertion stops the process. -/
inductive Failure
  | typeTooLarge
  | mpiCallFailed (p : RequestPtr)
  | mpiTestFailed (h : Option Handle)
  | continuationFailed (p : RequestPtr)
  | outOfMemory (p : RequestPtr)
  | unexpectedOp (p : RequestPtr)
  | putNotEnabled (d : Dev)
  | nullCompletion (p : RequestPtr)
  deriving DecidableEq, Repr

/-- Performance counters the API layer and the backend bump. -/
inductive Counter
  | putStart | putEnd | putRetry | sendStart | sendEnd | sendRetry | recvStart | recvEnd
  | recvRetry | putSignal | compProduce | compConsume | compPoll | progress
  deriving DecidableEq, Repr

/-- The API calls of the client. -/
inductive Call
  | send (d : Dev) (rank tag : Int) (buf : Buffer) (length : Int) (comp : Option Comp) (ctx : Nat)
  | recv (d : Dev) (rank tag : Int) (buf : Buffer) (length : Int) (comp : Option Comp) (ctx : Nat)
  | put (d : Dev) (rank : Int) (buf : Buffer) (length : Int) (comp : Option Comp) (ctx : Nat)
  | doProgress (d : Dev)
  | pollCq (c : Comp)
  | barrier (d : Dev)
  | allocDevice (maxPutLength : Int) (putComp : Option Comp)
  | freeDevice (d : Dev)
  deriving DecidableEq, Repr

/-- The device a call names. -/
def Call.device? : Call → Option Dev
  | .send d .. | .recv d .. | .put d .. | .doProgress d | .barrier d | .freeDevice d => some d
  | .pollCq _ | .allocDevice .. => none

/-- The user buffer a call hands to the library. -/
def Call.buffer? : Call → Option Buffer
  | .send _ _ _ b .. | .recv _ _ _ b .. | .put _ _ b .. => some b
  | _ => none

/-- The number of an argument of type `int64_t` is in its range. -/
def Call.wellTyped : Call → Bool
  | .send _ rank tag _ len .. | .recv _ rank tag _ len .. =>
    int64 rank && int64 tag && int64 len
  | .put _ rank _ len .. => int64 rank && int64 len
  | .allocDevice n _ => int64 n
  | _ => true
where
  int64 (x : Int) : Bool := -2 ^ 63 ≤ x && x < 2 ^ 63

inductive CallResult
  | void
  | bool (b : Bool)
  | device (d : Dev)
  | polled (q : Option Request)
  deriving DecidableEq, Repr

end Lcw.Mpi
