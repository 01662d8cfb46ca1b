import Vccl.Batch
import Vccl.Collectives

/-!
# Communicators and the public data operations (`comm.h`, `collectives.cc`)

The public entry points check their arguments, resolve the reduction operation and hand the rest to
`enqueueOrRun` or `enqueueOrRunP2p` (`Group.lean`). `issue` is the first half of all of them: it
returns the code the entry point fails with, or the work it hands on, which carries every argument
by value. A closure is a `Job`; `Job.calls` is what it does when it runs.

Where the transport is concerned a communicator is an arbitrary sequence of results: `net i` is what
its `i`-th transport call returns. `runCalls` executes a job against it; `VCCLCHECK` stops at the
first call that fails, and `scratchAt` drops the result of its registration. The kernels of
`reduce.h` fail on an unknown datatype or operation only, which `checkArgs` and `resolveOp` exclude.

`Comm.log` (the transport calls made) and `Comm.ran` (the operations executed, with their results)
are histories that no operation reads. `noteError`'s copy of the last error text is left out.
-/

namespace Vccl

/-- `vcclResult_t`. -/
inductive Result where
  | success | unhandledError | systemError | internalError | invalidArgument | invalidUsage
  | remoteError
  deriving DecidableEq, Repr

/-- The codes on which `noteError` latches the communicator dead. -/
def Result.fatal : Result → Bool
  | .systemError | .remoteError | .internalError | .unhandledError => true
  | _ => false

theorem Result.fatal_ne_success {res : Result} (h : res.fatal) : res ≠ .success := by
  rintro rfl
  cases h

theorem bind_eq_ok {α β : Type} {x : Except Result α} {f : α → Except Result β} {b : β}
    (h : x >>= f = .ok b) : ∃ a, x = .ok a ∧ f a = .ok b := by
  cases x with
  | error e => cases h
  | ok a => exact ⟨a, rfl, h⟩

/-! ## Jobs -/

/-- The closures handed to `runOp`, with what they capture. -/
inductive Job where
  | allGather (sendbuff recvbuff : Ptr) (sendcount : Nat) (dt : DataType)
  | reduceScatter (sendbuff recvbuff : Ptr) (recvcount : Nat) (dt : DataType) (op : RedOp)
      (premul : Option Factor)
  | allReduce (sendbuff recvbuff : Ptr) (count : Nat) (dt : DataType) (op : RedOp)
      (premul : Option Factor)
  | reduce (sendbuff recvbuff : Ptr) (count : Nat) (dt : DataType) (op : RedOp)
      (premul : Option Factor) (root : Nat)
  | broadcast (sendbuff recvbuff : Ptr) (count : Nat) (dt : DataType) (root : Nat)
  | gather (sendbuff recvbuff : Ptr) (sendcount : Nat) (dt : DataType) (root : Nat)
  | scatter (sendbuff recvbuff : Ptr) (recvcount : Nat) (dt : DataType) (root : Nat)
  | allToAll (sendbuff recvbuff : Ptr) (count : Nat) (dt : DataType)
  | allToAllv (sendbuff : Ptr) (sc sd : List Nat) (recvbuff : Ptr) (rc rd : List Nat)
      (dt : DataType)
  deriving DecidableEq, Repr

/-- The calls of a closure on rank `r` of `n`; `gatherEnv` and `reduceEnv` are the environment of
`doAllGather` and `doAllReduce`. -/
def Job.calls (gatherEnv reduceEnv : AlgoEnv) (n r : Nat) : Job → List Call
  | .allGather s d count dt => doAllGather gatherEnv n r s d count dt
  | .reduceScatter s d count dt op premul => doReduceScatter n r s d count dt op premul
  | .allReduce s d count dt op premul => doAllReduce reduceEnv n r s d count dt op premul
  | .reduce s d count dt op premul root => doReduce n r s d count dt op premul root
  | .broadcast s d count dt root => doBroadcast n r s d count dt root
  | .gather s d count dt root => doGather n r s d count dt root
  | .scatter s d count dt root => doScatter n r s d count dt root
  | .allToAll s d count dt =>
    doAllToAllv n r s (fun _ => count) (fun i => i * count) d (fun _ => count)
      (fun i => i * count) dt
  | .allToAllv s sc sd d rc rd dt =>
    doAllToAllv n r s (fun i => sc.getD i 0) (fun i => sd.getD i 0) d (fun i => rc.getD i 0)
      (fun i => rd.getD i 0) dt

/-- What an entry point hands on: a closure, or a `P2pOp` descriptor. -/
inductive Work where
  | job (j : Job)
  | p2p (op : P2pOp)
  deriving DecidableEq, Repr

/-- `QueuedOp::isP2p`. -/
def Work.isP2p : Work → Bool
  | .job _ => false
  | .p2p _ => true

/-! ## The communicator -/

/-- `vcclComm::CustomOp`. -/
structure CustomOp where
  scalar : Factor
  active : Bool
  deriving DecidableEq, Repr

/-- A call on the transport. -/
inductive Touch where
  | call (c : Call)
  | batch (ops : List P2pOp)
  | single (op : P2pOp)
  deriving DecidableEq, Repr

/-- An execution: a closure, a batch, or an immediate `send` or `recv`. -/
inductive Exec where
  | job (j : Job)
  | batch (ops : List P2pOp)
  | single (op : P2pOp)
  deriving DecidableEq, Repr

/-- `vcclComm`, the fields the data operations read, with the histories of its executions and of
its transport calls. `vcclCommInitRank` refuses a rank that is not below `nranks`. -/
structure Comm where
  rank : Nat
  nranks : Nat
  member : rank < nranks
  customOps : List CustomOp
  asyncError : Result
  aborted : Bool
  ran : List (Exec × Result)
  log : List Touch
  deriving DecidableEq, Repr

/-- `comm->transport != nullptr`: `vcclCommInitRank` creates one for two ranks and more. -/
def Comm.hasTransport (c : Comm) : Bool := decide (c.nranks > 1)

/-- A communicator as `vcclCommInitRank` leaves it. -/
def Comm.init (rank nranks : Nat) (h : rank < nranks) : Comm :=
  ⟨rank, nranks, h, [], .success, false, [], []⟩

/-- `vcclComm::noteError`. -/
def Comm.noteError (c : Comm) (res : Result) : Comm :=
  if res = .success then c
  else
    let c := if c.asyncError = .success then { c with asyncError := res } else c
    if res.fatal then { c with aborted := true } else c

/-- `vcclComm::premulScalar`. -/
def Comm.premulScalar (c : Comm) (op : Int) : Option Factor :=
  if op < 5 then none
  else match c.customOps[(op - 5).toNat]? with
    | some o => if o.active then some o.scalar else none
    | none => none

/-- `vcclRedOpCreatePreMulSum`, from the slot search on: a freed slot is used again. Returns the
operation's code. -/
def Comm.createPreMulSum (c : Comm) (value : Factor) : Comm × Int :=
  match c.customOps.findIdx? fun o => !o.active with
  | some i => ({ c with customOps := c.customOps.set i ⟨value, true⟩ }, 5 + i)
  | none => ({ c with customOps := c.customOps ++ [⟨value, true⟩] }, 5 + c.customOps.length)

/-- `vcclRedOpDestroy`. -/
def Comm.redOpDestroy (c : Comm) (op : Int) : Result × Comm :=
  if op < 5 then (.invalidArgument, c)
  else match c.customOps[(op - 5).toNat]? with
    | some o =>
      if o.active then
        (.success, { c with customOps := c.customOps.set (op - 5).toNat { o with active := false } })
      else (.invalidArgument, c)
    | none => (.invalidArgument, c)

/-! ## The entry points, up to `enqueueOrRun` -/

/-- A public data operation as it is called: buffers may be null, a datatype may be a value
`vcclTypeSize` does not know (`none`), roots, peers and operations are integers, and the count
tables of `vcclAllToAllv` are pointers to arrays of the caller. -/
inductive DataOp where
  | allGather (sendbuff recvbuff : Option Ptr) (sendcount : Nat) (dt : Option DataType)
  | reduceScatter (sendbuff recvbuff : Option Ptr) (recvcount : Nat) (dt : Option DataType)
      (op : Int)
  | allReduce (sendbuff recvbuff : Option Ptr) (count : Nat) (dt : Option DataType) (op : Int)
  | reduce (sendbuff recvbuff : Option Ptr) (count : Nat) (dt : Option DataType) (op root : Int)
  | broadcast (sendbuff recvbuff : Option Ptr) (count : Nat) (dt : Option DataType) (root : Int)
  | bcast (buff : Option Ptr) (count : Nat) (dt : Option DataType) (root : Int)
  | gather (sendbuff recvbuff : Option Ptr) (sendcount : Nat) (dt : Option DataType) (root : Int)
  | scatter (sendbuff recvbuff : Option Ptr) (recvcount : Nat) (dt : Option DataType) (root : Int)
  | allToAll (sendbuff recvbuff : Option Ptr) (count : Nat) (dt : Option DataType)
  | allToAllv (sendbuff : Option Ptr) (sendcounts sdispls : Option Nat) (recvbuff : Option Ptr)
      (recvcounts rdispls : Option Nat) (dt : Option DataType)
  | send (sendbuff : Option Ptr) (count : Nat) (dt : Option DataType) (peer : Int)
  | recv (recvbuff : Option Ptr) (count : Nat) (dt : Option DataType) (peer : Int)
  deriving DecidableEq, Repr

/-- `VCCLCHECK`-style guard: fail with `res` when `bad` holds. -/
def failIf (bad : Prop) [Decidable bad] (res : Result) : Except Result Unit :=
  if bad then .error res else .ok ()

/-- `checkComm`, for a communicator that is not null. -/
def checkComm (c : Comm) : Except Result Unit := failIf (c.aborted = true) .invalidUsage

/-- A buffer that must not be null. -/
def nonNull (p : Option Ptr) : Except Result Ptr :=
  match p with
  | some p => .ok p
  | none => .error .invalidArgument

/-- A datatype `vcclTypeSize` knows. -/
def known (dt : Option DataType) : Except Result DataType :=
  match dt with
  | some dt => .ok dt
  | none => .error .invalidArgument

/-- `checkArgs`; returns what it found not null. -/
def checkArgs (c : Comm) (sendbuff recvbuff : Option Ptr) (dt : Option DataType) :
    Except Result (Ptr × Ptr × DataType) := do
  checkComm c
  let s ← nonNull sendbuff
  let d ← nonNull recvbuff
  let t ← known dt
  return (s, d, t)

/-- `vcclRedOp_t`, the built-in codes. -/
def RedOp.ofCode : Nat → RedOp
  | 0 => .sum
  | 1 => .prod
  | 2 => .max
  | 3 => .min
  | _ => .avg

/-- `resolveOp`: the operation the collective runs, and the scalar of a PreMulSum operation. -/
def resolveOp (c : Comm) (dt : DataType) (op : Int) : Except Result (RedOp × Option Factor) :=
  if op < 0 then .error .invalidArgument
  else if op ≥ 5 then
    match c.premulScalar op with
    | none => .error .invalidArgument
    | some scalar => if isFloatType dt then .ok (.sum, some scalar) else .error .invalidArgument
  else if op = 4 ∧ ¬ isFloatType dt then .error .invalidArgument
  else .ok (RedOp.ofCode op.toNat, none)

/-- The check of a root or a peer against the ranks of the communicator. -/
def rankArg (c : Comm) (root : Int) : Except Result Nat :=
  if root < 0 ∨ root ≥ c.nranks then .error .invalidArgument else .ok root.toNat

/-- A null buffer where the operation does not look at it. -/
def orNull (p : Option Ptr) : Ptr := p.getD ⟨.user 0, 0⟩

/-- The caller's array, copied for the ranks of the communicator. -/
def copyTable (arrays : Nat → Nat → Nat) (c : Comm) : Option Nat → Except Result (List Nat)
  | some a => .ok ((List.range c.nranks).map (arrays a))
  | none => .error .invalidArgument

/-- `vcclBroadcast`. -/
def issueBroadcast (c : Comm) (sendbuff recvbuff : Option Ptr) (count : Nat) (dt : Option DataType)
    (root : Int) : Except Result Work := do
  checkComm c
  let d ← nonNull recvbuff
  let t ← known dt
  let k ← rankArg c root
  failIf (c.rank = k ∧ sendbuff = none) .invalidArgument
  return .job (.broadcast (orNull sendbuff) d count t k)

/-- `vcclSend` and `vcclRecv`. -/
def issueP2p (c : Comm) (isSend : Bool) (buf : Option Ptr) (count : Nat) (dt : Option DataType)
    (peer : Int) : Except Result Work := do
  checkComm c
  let p ← nonNull buf
  let t ← known dt
  let k ← rankArg c peer
  failIf (k = c.rank) .invalidArgument
  return .p2p ⟨isSend, k, p, count * typeSize t⟩

/-- The entry points up to `runOp` or `enqueueOrRunP2p`; `arrays` are the caller's arrays. -/
def issue (arrays : Nat → Nat → Nat) (c : Comm) : DataOp → Except Result Work
  | .allGather sendbuff recvbuff sendcount dt => do
    let (s, d, t) ← checkArgs c sendbuff recvbuff dt
    return .job (.allGather s d sendcount t)
  | .reduceScatter sendbuff recvbuff recvcount dt op => do
    let (s, d, t) ← checkArgs c sendbuff recvbuff dt
    let (o, premul) ← resolveOp c t op
    return .job (.reduceScatter s d recvcount t o premul)
  | .allReduce sendbuff recvbuff count dt op => do
    let (s, d, t) ← checkArgs c sendbuff recvbuff dt
    let (o, premul) ← resolveOp c t op
    return .job (.allReduce s d count t o premul)
  | .reduce sendbuff recvbuff count dt op root => do
    checkComm c
    let s ← nonNull sendbuff
    let t ← known dt
    let k ← rankArg c root
    failIf (c.rank = k ∧ recvbuff = none) .invalidArgument
    let (o, premul) ← resolveOp c t op
    return .job (.reduce s (orNull recvbuff) count t o premul k)
  | .broadcast sendbuff recvbuff count dt root => issueBroadcast c sendbuff recvbuff count dt root
  | .bcast buff count dt root => issueBroadcast c buff buff count dt root
  | .gather sendbuff recvbuff sendcount dt root => do
    checkComm c
    let s ← nonNull sendbuff
    let t ← known dt
    let k ← rankArg c root
    failIf (c.rank = k ∧ recvbuff = none) .invalidArgument
    return .job (.gather s (orNull recvbuff) sendcount t k)
  | .scatter sendbuff recvbuff recvcount dt root => do
    checkComm c
    let d ← nonNull recvbuff
    let t ← known dt
    let k ← rankArg c root
    failIf (c.rank = k ∧ sendbuff = none) .invalidArgument
    return .job (.scatter (orNull sendbuff) d recvcount t k)
  | .allToAll sendbuff recvbuff count dt => do
    let (s, d, t) ← checkArgs c sendbuff recvbuff dt
    return .job (.allToAll s d count t)
  | .allToAllv sendbuff sendcounts sdispls recvbuff recvcounts rdispls dt => do
    let (s, d, t) ← checkArgs c sendbuff recvbuff dt
    let sc ← copyTable arrays c sendcounts
    let sd ← copyTable arrays c sdispls
    let rc ← copyTable arrays c recvcounts
    let rd ← copyTable arrays c rdispls
    return .job (.allToAllv s sc sd d rc rd t)
  | .send sendbuff count dt peer => issueP2p c true sendbuff count dt peer
  | .recv recvbuff count dt peer => issueP2p c false recvbuff count dt peer

/-- An aborted communicator takes no data operation. -/
theorem issue_aborted {arrays : Nat → Nat → Nat} {c : Comm} (h : c.aborted = true) (o : DataOp) :
    issue arrays c o = .error .invalidUsage := by
  have hc : checkComm c = .error .invalidUsage := by simp [checkComm, failIf, h]
  cases o <;> simp only [issue, issueBroadcast, issueP2p, checkArgs, hc] <;> rfl

/-! ## Executing a job -/

/-- The transport is called: a data transfer, a registration, or the registration of a scratch
buffer that grows. -/
def Call.touches : Call → Bool
  | .regAdd _ _ | .scratchAt _ | .postRecvs _ | .send _ _ _ | .recv _ _ _
  | .sendRecv _ _ _ _ _ _ => true
  | _ => false

/-- The result of the call is checked: `scratchAt` drops that of `regMr`. -/
def Call.checked : Call → Bool
  | .scratchAt _ => false
  | _ => true

/-- Run the calls of a job: the result, and the transport calls made so far. -/
def runCalls (net : Nat → Result) : List Call → List Touch → Result × List Touch
  | [], log => (.success, log)
  | c :: calls, log =>
    if c.touches then
      if c.checked ∧ net log.length ≠ .success then (net log.length, log ++ [.call c])
      else runCalls net calls (log ++ [.call c])
    else runCalls net calls log

/-- The calls of a job that reach the transport: none on a communicator of one rank. -/
def Comm.jobCalls (gatherEnv reduceEnv : AlgoEnv) (c : Comm) (j : Job) : List Call :=
  (j.calls gatherEnv reduceEnv c.nranks c.rank).filter fun x => !x.touches || c.hasTransport

/-- A history entry. -/
def Comm.record (c : Comm) (e : Exec) (res : Result) (log : List Touch) : Comm :=
  { c with ran := c.ran ++ [(e, res)], log := log }

/-- The closure of `runOp`: run the job, note its result. -/
def Comm.runJob (gatherEnv reduceEnv : AlgoEnv) (net : Nat → Result) (c : Comm) (j : Job) :
    Result × Comm :=
  let (res, log) := runCalls net (c.jobCalls gatherEnv reduceEnv j) c.log
  (res, (c.record (.job j) res log).noteError res)

/-- `transport->batch(run)`. -/
def Comm.batch (net : Nat → Result) (c : Comm) (run : List P2pOp) : Result × Comm :=
  let res := net c.log.length
  (res, c.record (.batch run) res (c.log ++ [.batch run]))

/-- `transport->send` or `transport->recv`, outside a group. -/
def Comm.single (net : Nat → Result) (c : Comm) (op : P2pOp) : Result × Comm :=
  let res := net c.log.length
  (res, c.record (.single op) res (c.log ++ [.single op]))

end Vccl
