/- digest: The functions of the MPI backend as programs over the atomic operations. -/

import Lcw.Interleave.Program
import Lcw.Mpi.World

set_option autoImplicit false
set_option relaxedAutoImplicit false

namespace Lcw.Mpi

open Interleave

abbrev Code := Prog Op Op.Ret

/-- Perform one atomic operation. -/
abbrev act (o : Op) : Code o.Ret := Prog.perform o

/-- An `if` without `else`. -/
def when (c : Bool) (p : Code Unit) : Code Unit := if c then p else pure ()

/-- `LCW_Assert`. -/
def lcwAssert (c : Bool) (why : Failure) : Code Unit :=
  if c then pure () else do
    let never ← act (.abort why)
    nomatch never

section Bigcount

/-- `type_contiguous`. -/
def typeContiguous (nbytes : Nat) : Code Datatype := do
  let c := nbytes / intMax
  let r := nbytes % intMax
  lcwAssert (c < intMax) .typeTooLarge
  lcwAssert (r < intMax) .typeTooLarge
  let chunks := Datatype.vector (toInt c) intMax intMax .byte
  let remainder := Datatype.contiguous (toInt r) .byte
  let remdisp := toAint (toSize (toAint c * intMax))
  return .struct₂ 1 0 chunks 1 remdisp remainder

/-- The count and datatype by which `isend` and `irecv` describe `size` bytes. -/
def describe (size : Nat) : Code (Int × Datatype) :=
  if size > intMax then do
    let datatype ← typeContiguous size
    return (1, datatype)
  else
    return (toInt size, .byte)

/-- `MPI_SAFECALL` around a call that starts a request. -/
def mpiSafecall (p : RequestPtr) : Option (Option Handle) → Code (Option Handle)
  | some h => return h
  | none => do
    lcwAssert false (.mpiCallFailed p)
    return none

/-- `mpi::isend`; `p` is the `request_t` the call is made for. -/
def isend (address : Buffer) (size : Nat) (rank tag : Int) (comm : Comm) (p : RequestPtr) :
    Code (Option Handle) := do
  let (length, datatype) ← describe size
  let answer ← act (.isend address length datatype rank tag comm p)
  mpiSafecall p answer

/-- `mpi::irecv`. -/
def irecv (address : Buffer) (size : Nat) (rank tag : Int) (comm : Comm) (p : RequestPtr) :
    Code (Option Handle) := do
  let (length, datatype) ← describe size
  let answer ← act (.irecv address length datatype rank tag comm p)
  mpiSafecall p answer

end Bigcount

variable (cfg : Config)

/-- `enter_stream_cs`. -/
def enterStreamCs (d : Dev) : Code Unit :=
  when cfg.useStream (act (.lock (.stream d)))

/-- `leave_stream_cs`. -/
def leaveStreamCs (d : Dev) : Code Unit :=
  when cfg.useStream (act (.unlock (.stream d)))

/-- `MPI_SAFECALL(MPI_Test(..))`: none while the request is incomplete. -/
def mpiTest (h : Option Handle) : Code (Option Status) := do
  match ← act (.test h) with
  | .notYet => return none
  | .done st => return some st
  | .failed => do
    lcwAssert false (.mpiTestFailed h)
    return none

/-- `MPI_Get_count` with `MPI_CHAR`. -/
def getCount (st : Status) : Int :=
  if st.bytes ≤ intMax then st.bytes else cfg.undefined

/-- The fields a completed receive takes from its status. -/
def received (q : Request) (st : Status) : Request :=
  { q with length := getCount cfg st, tag := st.tag, rank := st.source }

/-- `util::signal_comp`: a queue stores the request, a handler runs client code. -/
def utilSignalComp (completion : Option Comp) (request : Request) (origin : RequestPtr) :
    Code Unit :=
  match completion with
  | none => lcwAssert false (.nullCompletion origin)
  | some c => do
    act (.signal c request origin)
    when (cfg.isHandler c) (act .userCode)

/-- The `switch` of `signal_comp` on the operation. -/
def countCompletion (op : OpCode) (p : RequestPtr) : Code Unit :=
  match op with
  | .send => do
    when (cfg.pendingMsgMax > 0) (act (.fetchSubPending p))
    act (.pcounterAdd .sendEnd)
  | .recv => act (.pcounterAdd .recvEnd)
  | .put => do
    when (cfg.pendingMsgMax > 0) (act (.fetchSubPending p))
    act (.pcounterAdd .putEnd)
  | .putSignal => act (.pcounterAdd .putSignal)

/-- `signal_comp`. -/
def signalComp (entry : Entry) : Code Unit := do
  let request ← act (.readRequest entry.request)
  countCompletion cfg request.op entry.request
  act (.pcounterAdd .compProduce)
  utilSignalComp cfg entry.completion request entry.request
  act (.deleteRequest entry.request)

section ManagerReq

/-- `manager_req_t::add_entry`. -/
def managerReqAddEntry (m : Manager) (entry : Entry) : Code Unit := do
  act (.lock (.manager m))
  act (.pushBack m entry)
  act (.unlock (.manager m))

/-- The test of a popped entry: a null request counts as complete, with no status written. -/
def managerReqTest (entry : Entry) : Code (Option Status) :=
  match entry.mpiReq with
  | none => return some cfg.indeterminate
  | some h => do
    enterStreamCs cfg entry.device
    let succeed ← mpiTest (some h)
    leaveStreamCs cfg entry.device
    return succeed

/-- The tail of `manager_req_t::do_progress` for a completed entry. -/
def managerReqComplete (entry : Entry) (status : Status) : Code Unit := do
  let request ← act (.readRequest entry.request)
  lcwAssert (request.op != .putSignal) (.unexpectedOp entry.request)
  when (request.op = .recv) (act (.writeRequest entry.request (received cfg request status)))
  signalComp cfg entry

/-- `manager_req_t::do_progress`. -/
def managerReqDoProgress (m : Manager) : Code Bool := do
  if ← act (.entriesEmpty m) then return false
  if !(← act (.tryLock (.manager m))) then return false
  if ← act (.entriesEmpty m) then
    act (.unlock (.manager m))
    return false
  let entry ← act (.popFront m)
  match ← managerReqTest cfg entry with
  | none => do
    act (.pushBack m entry)
    act (.unlock (.manager m))
    return false
  | some status => do
    act (.unlock (.manager m))
    managerReqComplete cfg { entry with mpiReq := none } status
    return true

end ManagerReq

section ManagerCont

/-- `complete_cb`; `success` says that the status code is `MPI_SUCCESS`. -/
def completeCb (success : Bool) (entry : Entry) : Code Unit := do
  lcwAssert success (.continuationFailed entry.request)
  signalComp cfg entry
  act .endCallback

/-- `manager_cont_t::add_entry`. -/
def managerContAddEntry (m : Manager) (entry : Entry) : Code Unit := do
  enterStreamCs cfg entry.device
  act (.continue m entry cfg.contFlags)
  act (.continueReturn entry.mpiReq)
  leaveStreamCs cfg entry.device

/-- `manager_cont_t::do_progress`. -/
def managerContDoProgress (m : Manager) : Code Bool := do
  if !cfg.useContReq then return false
  if !(← act (.tryLock (.manager m))) then return false
  let succeed ← act (.testContReq m)
  when succeed (act (.startContReq m))
  act (.unlock (.manager m))
  return false

end ManagerCont

/-- `manager_base_t::add_entry`, dispatched on the manager's type. -/
def addEntry (m : Manager) (entry : Entry) : Code Unit :=
  match cfg.compType with
  | .request => managerReqAddEntry m entry
  | .continue => managerContAddEntry cfg m entry

/-- `manager_base_t::do_progress`. -/
def managerDoProgress (m : Manager) : Code Bool :=
  match cfg.compType with
  | .request => managerReqDoProgress cfg m
  | .continue => managerContDoProgress cfg m

/-- `post_put_recv`. -/
def postPutRecv (d : Dev) (completion : Option Comp) : Code Unit := do
  let device ← act (.readDevice d)
  let p ← act (.newRequest
    { op := .putSignal, device := d, rank := -1, tag := device.putTag, buffer := .putRbuf d,
      length := device.putRbufSize, userContext := 0 } completion)
  enterStreamCs cfg d
  let request ← act (.readRequest p)
  let h ← irecv request.buffer (toSize request.length) cfg.anySource (toInt request.tag)
    device.comm p
  leaveStreamCs cfg d
  act (.writeSlot d { mpiReq := h, device := d, completion, request := p })

/-- The put slot of `do_progress` after a successful test: copy the data out, repost. -/
def putSlotTake (d : Dev) (status : Status) : Code Entry := do
  let entry ← act (.readSlot d)
  let request ← act (.readRequest entry.request)
  let count := getCount cfg status
  lcwAssert (request.op == .putSignal) (.unexpectedOp entry.request)
  match ← act (.allocate (toSize count)) with
  | none => do
    lcwAssert false (.outOfMemory entry.request)
    return entry
  | some buffer => do
    act (.memcpy buffer request.buffer (toSize count))
    act (.writeRequest entry.request { received cfg request status with buffer })
    postPutRecv cfg request.device entry.completion
    return entry

/-- `MPI_Test` on the slot's request; a completed request becomes null in the slot. -/
def putSlotTest (d : Dev) : Code (Option Status) := do
  enterStreamCs cfg d
  let h ← act (.slotRequest d)
  let succeed ← mpiTest h
  when succeed.isSome (act (.clearSlot d))
  leaveStreamCs cfg d
  return succeed

/-- The part of `do_progress` that works on put; the result is `succeed`. -/
def putSlotProgress (d : Dev) (device : Device) : Code Bool := do
  if !device.enablePut then return false
  if (← act (.slotRequest d)).isNone then return false
  if !(← act (.tryLock (.put d))) then return false
  if (← act (.slotRequest d)).isNone then
    act (.unlock (.put d))
    return false
  match ← putSlotTest cfg d with
  | none => do
    act (.unlock (.put d))
    return false
  | some status => do
    let entry ← putSlotTake cfg d status
    act (.unlock (.put d))
    signalComp cfg entry
    return true

/-- `backend_mpi_t::do_progress`. -/
def doProgress (d : Dev) : Code Bool := do
  let device ← act (.readDevice d)
  let succeed ← putSlotProgress cfg d device
  let progressed ← managerDoProgress cfg device.manager
  return progressed || succeed

/-- The admission check of `send` and `put`. -/
def admitPost : Code Bool := do
  if cfg.pendingMsgMax ≤ 0 then return true
  let pending ← act .loadPending
  if pending > cfg.pendingMsgMax then return false
  act .fetchAddPending
  return true

/-- What `send`, `recv` and `put` have in common: allocate the request, start the communication
`call` under the stream lock, and hand the entry to the manager. -/
def postEntry (d : Dev) (device : Device) (request : Request) (completion : Option Comp)
    (call : Request → RequestPtr → Code (Option Handle)) : Code Bool := do
  let p ← act (.newRequest request completion)
  enterStreamCs cfg d
  let h ← call request p
  leaveStreamCs cfg d
  addEntry cfg device.manager { mpiReq := h, device := d, completion, request := p }
  return true

/-- `backend_mpi_t::send`. -/
def send (d : Dev) (rank tag : Int) (buf : Buffer) (length : Int) (completion : Option Comp)
    (userContext : Nat) : Code Bool := do
  if !(← admitPost cfg) then return false
  let device ← act (.readDevice d)
  postEntry cfg d device ⟨.send, d, rank, tag, buf, length, userContext⟩ completion fun q p =>
    isend q.buffer (toSize q.length) (toInt q.rank) (toInt q.tag) device.comm p

/-- `backend_mpi_t::recv`. -/
def recv (d : Dev) (rank tag : Int) (buf : Buffer) (length : Int) (completion : Option Comp)
    (userContext : Nat) : Code Bool := do
  let device ← act (.readDevice d)
  postEntry cfg d device ⟨.recv, d, rank, tag, buf, length, userContext⟩ completion fun q p =>
    irecv q.buffer (toSize q.length) (toInt q.rank) (toInt q.tag) device.comm p

/-- `backend_mpi_t::put`. -/
def put (d : Dev) (rank : Int) (buf : Buffer) (length : Int) (completion : Option Comp)
    (userContext : Nat) : Code Bool := do
  let device ← act (.readDevice d)
  lcwAssert device.enablePut (.putNotEnabled d)
  if !(← admitPost cfg) then return false
  postEntry cfg d device ⟨.put, d, rank, device.putTag, buf, length, userContext⟩ completion
    fun q p => isend q.buffer (toSize q.length) (toInt q.rank) (toInt q.tag) device.comm p

/-- `backend_mpi_t::barrier`. -/
def barrier (d : Dev) : Code Unit := do
  let device ← act (.readDevice d)
  act (.barrier device.comm)

/-- The manager `alloc_device` gives to the device with ordinal `id`. -/
def managerFor (d : Dev) (id : Nat) : Manager :=
  if cfg.numCompManagers ≠ 0 then .shared d.rank (id % cfg.numCompManagers) else .priv d

/-- The size `alloc_device` gives to `put_rbuf`. -/
def putRbufSize (maxPutLength : Int) : Nat :=
  if maxPutLength > 0 then maxPutLength.toNat else defaultMaxPut

/-- `backend_mpi_t::alloc_device`; `enable_put` is always set to true. -/
def allocDevice (maxPutLength : Int) (putComp : Option Comp) : Code Dev := do
  let d ← act .newDevice
  let id ← act .fetchAddNdevices
  let comm ← act (.commCreate d)
  let enablePut := true
  act (.initDevice d
    { id, enablePut, comm
      maxTag2sided := if enablePut then cfg.maxTag - 1 else cfg.maxTag
      putTag := if enablePut then cfg.maxTag else -1
      putRbufSize := if enablePut then putRbufSize maxPutLength else 0
      manager := managerFor cfg d id })
  when enablePut (postPutRecv cfg d putComp)
  return d

/-- `backend_mpi_t::free_device`. -/
def freeDevice (d : Dev) : Code Unit := do
  let device ← act (.readDevice d)
  when (device.id ≠ 0) (act (.commFree device.comm))
  act (.deleteDevice d)

/-- `backend_mpi_t::get_max_tag`. -/
def getMaxTag (d : Dev) : Code Int := do
  let device ← act (.readDevice d)
  return device.maxTag2sided

section Api

/-- `lcw::send`, `lcw::recv` and `lcw::put` count a started or a refused operation. -/
def counted (post : Code Bool) (start retry : Counter) : Code CallResult := do
  let ret ← post
  act (.pcounterAdd (if ret then start else retry))
  return .bool ret

/-- `lcw::do_progress`. -/
def apiDoProgress (d : Dev) : Code CallResult := do
  act (.pcounterAdd .progress)
  return .bool (← doProgress cfg d)

/-- `lcw::poll_cq` over `comp_cq_t::poll`. -/
def apiPollCq (c : Comp) : Code CallResult := do
  act (.pcounterAdd .compPoll)
  let request ← act (.cqPop c)
  when request.isSome (act (.pcounterAdd .compConsume))
  return .polled request

/-- The body of an API call. -/
def callBody : Call → Code CallResult
  | .send d rank tag buf length comp ctx =>
    counted (send cfg d rank tag buf length comp ctx) .sendStart .sendRetry
  | .recv d rank tag buf length comp ctx =>
    counted (recv cfg d rank tag buf length comp ctx) .recvStart .recvRetry
  | .put d rank buf length comp ctx =>
    counted (put cfg d rank buf length comp ctx) .putStart .putRetry
  | .doProgress d => apiDoProgress cfg d
  | .pollCq c => apiPollCq c
  | .barrier d => do
    barrier d
    return .void
  | .allocDevice n c => return .device (← allocDevice cfg n c)
  | .freeDevice d => do
    freeDevice d
    return .void

/-- An API call from its start to its return. -/
def apiCall (c : Call) : Code Unit := do
  let r ← callBody cfg c
  act (.endCall r)

end Api

end Lcw.Mpi
