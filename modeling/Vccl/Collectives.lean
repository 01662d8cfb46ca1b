import Vccl.Reduce

/-!
# The collectives (`collectives.cc`)

No collective branches on the data it moves, so what a rank does is a list of calls: to the
transport (`send`, `recv`, `sendRecv`, `postRecvs`), to the kernels of `reduce.h`, to `memcpy`, and
to the communicator's registration and scratch helpers. Each function of `collectives.cc` is the
list it issues, in order, when every call succeeds (`VCCLCHECK` stops at the first that fails).
Loops are ranges, and a loop that carries a value is a recursion.

`Call.instr` gives every call its meaning as an instruction of `Net.Process`. A transfer of zero
bytes moves no message: `send` and `recv` return at once, and `sendRecv` skips that half.

Byte counts are natural numbers: a buffer that fits in memory makes no product of the sources wrap.
-/

namespace Vccl

/-- `kPipeBytes`. -/
def kPipeBytes : Nat := 1 <<< 19

/-- `Transport::RecvReq`. -/
structure RecvReq where
  peer : Nat
  buf : Ptr
  bytes : Nat
  deriving DecidableEq, Repr

/-- A scale factor: a PreMulSum scalar, or `1.0 / n`. -/
inductive Coef where
  | scalar (k : Factor)
  | recip (n : Nat)
  deriving DecidableEq, Repr

/-- A call a collective makes. -/
inductive Call where
  | regAdd (buf : Ptr) (bytes : Nat)
  | scratchAt (bytes : Nat)
  | memcpy (dst src : Ptr) (bytes : Nat)
  | cpuReduce (dt : DataType) (op : RedOp) (dst src : Ptr) (count : Nat)
  | cpuScale (dt : DataType) (dst : Ptr) (count : Nat) (factor : Coef)
  | cpuScaleCopy (dt : DataType) (dst src : Ptr) (count : Nat) (factor : Coef)
  | cpuScaledAccumulate (dt : DataType) (dst src : Ptr) (count : Nat) (preScale : Coef)
  | postRecvs (reqs : List RecvReq)
  | send (peer : Nat) (buf : Ptr) (bytes : Nat)
  | recv (peer : Nat) (buf : Ptr) (bytes : Nat)
  | sendRecv (sendPeer : Nat) (sbuf : Ptr) (sbytes : Nat) (recvPeer : Nat) (rbuf : Ptr)
      (rbytes : Nat)
  deriving DecidableEq, Repr

/-- `comm->scratchAt(…)` returns the start of the scratch buffer. -/
def scratch : Ptr := ⟨.scratch, 0⟩

/-- `vcclComm::next`. -/
def next (n r : Nat) : Nat := (r + 1) % n

/-- `vcclComm::prev`. -/
def prev (n r : Nat) : Nat := (r + n - 1) % n

/-- `Chunk`. -/
structure Chunk where
  offset : Nat
  bytes : Nat
  deriving DecidableEq, Repr

/-- `makeChunks`: `n` contiguous chunks of `count` elements, ceil-sized. -/
def makeChunks (count n esize : Nat) (i : Nat) : Chunk :=
  let per := (count + n - 1) / n
  let start := min (per * i) count
  let stop := min (per * (i + 1)) count
  ⟨start * esize, (stop - start) * esize⟩

/-! ## Ring algorithms -/

/-- `ringReduceScatter`: step `s` sends chunk `r-s` and folds the incoming chunk `r-s-1` in. -/
def ringReduceScatter (n r : Nat) (data : Ptr) (chunks : Nat → Chunk) (dt : DataType) (op : RedOp) :
    List Call :=
  let maxChunk := (List.range n).foldl (fun b i => max b (chunks i).bytes) 0
  [Call.scratchAt maxChunk] ++
  (List.range (n - 1)).flatMap fun s =>
    let sc := chunks ((r + n - s) % n)
    let rc := chunks ((r + 2 * n - s - 1) % n)
    [Call.sendRecv (next n r) (data + sc.offset) sc.bytes (prev n r) scratch rc.bytes] ++
    if rc.bytes > 0 then
      [Call.cpuReduce dt op (data + rc.offset) scratch (rc.bytes / typeSize dt)]
    else []

/-- `ringAllGather`: rank `r` holds chunk `r + startShift` at entry. -/
def ringAllGather (n r : Nat) (data : Ptr) (chunks : Nat → Chunk) (startShift : Nat) : List Call :=
  [Call.postRecvs ((List.range (n - 1)).map fun s =>
    let rc := chunks ((r + startShift + 2 * n - s - 1) % n)
    RecvReq.mk (prev n r) (data + rc.offset) rc.bytes)] ++
  (List.range (n - 1)).flatMap fun s =>
    let sc := chunks ((r + startShift + 2 * n - s) % n)
    let rc := chunks ((r + startShift + 2 * n - s - 1) % n)
    [Call.sendRecv (next n r) (data + sc.offset) sc.bytes (prev n r) (data + rc.offset) rc.bytes]

/-! ## Logarithmic all-gather -/

/-- The iterations of `for (int m = mask; m < n; m <<= 1)`. -/
def doublings (n : Nat) : Nat → Nat → Nat
  | 0, _ => 0
  | fuel + 1, mask => if mask < n then doublings n fuel (mask <<< 1) + 1 else 0

/-- `int steps = 0; for (int m = 1; m < n; m <<= 1) steps++;` -/
def steps (n : Nat) : Nat := doublings n n 1

/-- `recursiveDoublingAllGather`: step `i` exchanges the block of `2^i` chunks this rank holds with
rank `r ^ 2^i`; `curr` has doubled `i` times. -/
def recursiveDoublingAllGather (n r : Nat) (data : Ptr) (chunkBytes : Nat) : List Call :=
  [Call.postRecvs ((List.range (steps n)).map fun i =>
    let dst := r ^^^ (1 <<< i)
    RecvReq.mk dst (data + ((dst >>> i) <<< i) * chunkBytes) (chunkBytes * 2 ^ i))] ++
  (List.range (steps n)).flatMap fun i =>
    let curr := chunkBytes * 2 ^ i
    let dst := r ^^^ (1 <<< i)
    [Call.sendRecv dst (data + ((r >>> i) <<< i) * chunkBytes) curr
      dst (data + ((dst >>> i) <<< i) * chunkBytes) curr]

/-- The loop variables of `bruckAllGather`, iteration by iteration: `pof2`, `curr` and `xfer`. -/
def bruckSteps (n chunkBytes : Nat) : Nat → Nat → Nat → List (Nat × Nat × Nat)
  | 0, _, _ => []
  | fuel + 1, pof2, curr =>
    if pof2 < n then
      let xfer := if pof2 ≤ n - pof2 then curr else (n - pof2) * chunkBytes
      (pof2, curr, xfer) :: bruckSteps n chunkBytes fuel (pof2 <<< 1) (curr + xfer)
    else []

/-- `bruckAllGather`: accumulates a rank-rotated prefix, then rotates it through scratch. -/
def bruckAllGather (n rank : Nat) (recv : Ptr) (chunkBytes : Nat) : List Call :=
  (if rank ≠ 0 then [Call.memcpy recv (recv + rank * chunkBytes) chunkBytes] else []) ++
  [Call.postRecvs ((bruckSteps n chunkBytes n 1 chunkBytes).map fun (pof2, pcurr, xfer) =>
    RecvReq.mk ((rank + pof2) % n) (recv + pcurr) xfer)] ++
  (bruckSteps n chunkBytes n 1 chunkBytes).flatMap (fun (pof2, curr, xfer) =>
    [Call.sendRecv ((rank + n - pof2) % n) recv xfer ((rank + pof2) % n) (recv + curr) xfer]) ++
  if rank ≠ 0 then
    [Call.scratchAt (n * chunkBytes)] ++
    ((List.range n).map fun i =>
      Call.memcpy (scratch + ((rank + i) % n) * chunkBytes) (recv + i * chunkBytes) chunkBytes) ++
    [Call.memcpy recv scratch (n * chunkBytes)]
  else []

/-! ## The algorithm choice -/

/-- `std::strtoull(s, nullptr, 10)`: blanks, a sign, digits; the value saturates, and a minus sign
negates modulo `2^64`. -/
def strtoull (s : String) : Nat :=
  let cs := s.toList.dropWhile fun c => c = ' ' ∨ ('\t' ≤ c ∧ c ≤ '\r')
  let negative := cs.head? = some '-'
  let cs := if cs.head? = some '-' ∨ cs.head? = some '+' then cs.tail else cs
  let v := (cs.takeWhile Char.isDigit).foldl (fun v c => 10 * v + (c.toNat - '0'.toNat)) 0
  if 2 ^ 64 ≤ v then 2 ^ 64 - 1 else if negative then (2 ^ 64 - v) % 2 ^ 64 else v

/-- The environment of one collective: `VCCL_…_ALGO` and `VCCL_…_RD_MAX`. -/
structure AlgoEnv where
  algo : Option String
  rdMax : Option String
  deriving DecidableEq, Repr

/-- `!forceRing && (forceRD || bytes <= rdMax)`, with the given default for `rdMax`. -/
def AlgoEnv.logPath (env : AlgoEnv) (defaultMax bytes : Nat) : Bool :=
  let forceRing := env.algo = some "ring"
  let forceRD := env.algo = some "recdouble"
  let rdMax := match env.rdMax with
    | some e => strtoull e
    | none => defaultMax
  ¬ forceRing ∧ (forceRD ∨ bytes ≤ rdMax)

/-- `n > 1 && (n & (n - 1)) == 0`. -/
def pow2 (n : Nat) : Bool := decide (n > 1 ∧ n &&& (n - 1) = 0)

/-- `doAllGather`. -/
def doAllGather (env : AlgoEnv) (n rank : Nat) (sendbuff recv : Ptr) (sendcount : Nat)
    (dt : DataType) : List Call :=
  let chunkBytes := sendcount * typeSize dt
  [Call.regAdd recv (n * chunkBytes)] ++
  (if sendbuff ≠ recv + rank * chunkBytes then
    [Call.memcpy (recv + rank * chunkBytes) sendbuff chunkBytes] else []) ++
  if n = 1 ∨ sendcount = 0 then []
  else if env.logPath 65536 chunkBytes then
    if pow2 n then recursiveDoublingAllGather n rank recv chunkBytes
    else bruckAllGather n rank recv chunkBytes
  else ringAllGather n rank recv (fun i => ⟨i * chunkBytes, chunkBytes⟩) 0

/-! ## Reduce-scatter -/

/-- `doReduceScatter`: the partial of a chunk travels around the ring; step `s` receives into
`bufA` or `bufB` in turn and sends what step `s - 1` accumulated. -/
def doReduceScatter (n r : Nat) (sendbuff recvbuff : Ptr) (recvcount : Nat) (dt : DataType)
    (op : RedOp) (premul : Option Factor) : List Call :=
  let chunkBytes := recvcount * typeSize dt
  [Call.regAdd sendbuff (n * chunkBytes)] ++
  if n = 1 ∨ recvcount = 0 then
    (if recvcount > 0 ∧ sendbuff ≠ recvbuff then [Call.memcpy recvbuff sendbuff chunkBytes] else []) ++
    match premul with
    | some k => [Call.cpuScale dt recvbuff recvcount (.scalar k)]
    | none => []
  else
    let recvPtr := fun s : Nat => if s % 2 = 0 then scratch else scratch + chunkBytes
    let first := sendbuff + ((r + n - 1) % n) * chunkBytes
    let scaled := scratch + 2 * chunkBytes
    let sendPtr := fun s : Nat =>
      if s = 0 then (if premul.isSome then scaled else first) else recvPtr (s - 1)
    [Call.scratchAt ((if premul.isSome then 3 else 2) * chunkBytes)] ++
    (match premul with
      | some k => [Call.cpuScaleCopy dt scaled first recvcount (.scalar k)]
      | none => []) ++
    ((List.range (n - 1)).flatMap fun s =>
      let local_ := sendbuff + ((r + 2 * n - s - 2) % n) * chunkBytes
      [Call.sendRecv (next n r) (sendPtr s) chunkBytes (prev n r) (recvPtr s) chunkBytes] ++
      if s = n - 2 then
        (match premul with
          | some k => [Call.cpuScaleCopy dt recvbuff local_ recvcount (.scalar k)]
          | none => if recvbuff ≠ local_ then [Call.memcpy recvbuff local_ chunkBytes] else []) ++
        [Call.cpuReduce dt op recvbuff (recvPtr s) recvcount]
      else
        match premul with
        | some k => [Call.cpuScaledAccumulate dt (recvPtr s) local_ recvcount (.scalar k)]
        | none => [Call.cpuReduce dt op (recvPtr s) local_ recvcount]) ++
    if op = .avg then [Call.cpuScale dt recvbuff recvcount (.recip n)] else []

/-! ## All-reduce -/

/-- `recursiveDoublingAllReduce`: step `i` exchanges the full accumulator with rank `r ^ 2^i`,
receiving into scratch region `i`. -/
def recursiveDoublingAllReduce (n r : Nat) (recv : Ptr) (count : Nat) (dt : DataType) (op : RedOp) :
    List Call :=
  let bytes := count * typeSize dt
  [Call.scratchAt (steps n * bytes),
   Call.postRecvs ((List.range (steps n)).map fun i => RecvReq.mk (r ^^^ (1 <<< i)) (scratch + i * bytes) bytes)] ++
  (List.range (steps n)).flatMap fun i =>
    let peer := r ^^^ (1 <<< i)
    let rgn := scratch + i * bytes
    [Call.sendRecv peer recv bytes peer rgn bytes, Call.cpuReduce dt op recv rgn count]

/-- `int p2 = 1; while (p2 * 2 <= n) p2 <<= 1;` -/
def largestPow2 (n : Nat) : Nat → Nat → Nat
  | 0, p2 => p2
  | fuel + 1, p2 => if p2 * 2 ≤ n then largestPow2 n fuel (p2 <<< 1) else p2

/-- `p2` of `pow2ElimAllReduce`. -/
def elimP2 (n : Nat) : Nat := largestPow2 n n 1

/-- `newRank`; `none` for an eliminated rank (`-1` in the source). -/
def newRank (extra r : Nat) : Option Nat :=
  if r < 2 * extra then (if r &&& 1 = 1 then none else some (r / 2)) else some (r - extra)

/-- The rank of an active new rank. -/
def oldRank (extra newPeer : Nat) : Nat := if newPeer < extra then newPeer * 2 else newPeer + extra

/-- `corePeers`: the partner and the scratch region of every core step of an active rank. -/
def corePeers (n extra : Nat) (bytes : Nat) : Option Nat → List (Nat × Ptr)
  | some newRank => (List.range (steps (elimP2 n))).map fun i =>
      (oldRank extra (newRank ^^^ (1 <<< i)), scratch + (1 + i) * bytes)
  | none => []

/-- `pow2ElimAllReduce`: odd ranks below `2 * extra` fold into their left neighbour, the remaining
`p2` ranks run recursive doubling, and the results go back. -/
def pow2ElimAllReduce (n r : Nat) (recv : Ptr) (count : Nat) (dt : DataType) (op : RedOp) :
    List Call :=
  let bytes := count * typeSize dt
  let extra := n - elimP2 n
  let inPre := r < 2 * extra
  let evenSurvivor := inPre ∧ r &&& 1 = 0
  let oddEliminated := inPre ∧ r &&& 1 = 1
  let peers := corePeers n extra bytes (newRank extra r)
  [Call.scratchAt ((1 + steps (elimP2 n)) * bytes),
   Call.postRecvs (
    (if evenSurvivor then [RecvReq.mk (r + 1) scratch bytes] else []) ++
    (if oddEliminated then [RecvReq.mk (r - 1) recv bytes] else []) ++
    peers.map fun cp => RecvReq.mk cp.1 cp.2 bytes)] ++
  (if evenSurvivor then [Call.recv (r + 1) scratch bytes, Call.cpuReduce dt op recv scratch count]
   else if oddEliminated then [Call.send (r - 1) recv bytes] else []) ++
  (peers.flatMap fun cp =>
    [Call.sendRecv cp.1 recv bytes cp.1 cp.2 bytes, Call.cpuReduce dt op recv cp.2 count]) ++
  if evenSurvivor then [Call.send (r + 1) recv bytes]
  else if oddEliminated then [Call.recv (r - 1) recv bytes] else []

/-- `doAllReduce`. -/
def doAllReduce (env : AlgoEnv) (n rank : Nat) (sendbuff recv : Ptr) (count : Nat) (dt : DataType)
    (op : RedOp) (premul : Option Factor) : List Call :=
  let esize := typeSize dt
  let bytes := count * esize
  [Call.regAdd recv bytes] ++
  (if sendbuff ≠ recv then [Call.memcpy recv sendbuff bytes] else []) ++
  (match premul with
    | some k => [Call.cpuScale dt recv count (.scalar k)]
    | none => []) ++
  if n = 1 ∨ count = 0 then []
  else if env.logPath 262144 bytes then
    (if pow2 n then recursiveDoublingAllReduce n rank recv count dt op
     else pow2ElimAllReduce n rank recv count dt op) ++
    if op = .avg then [Call.cpuScale dt recv count (.recip n)] else []
  else
    let chunks := makeChunks count n esize
    let mine := chunks ((rank + 1) % n)
    ringReduceScatter n rank recv chunks dt op ++
    (if op = .avg ∧ mine.bytes > 0 then
      [Call.cpuScale dt (recv + mine.offset) (mine.bytes / esize) (.recip n)] else []) ++
    ringAllGather n rank recv chunks 1

/-! ## Rooted collectives -/

/-- The iterations of `for (off = 0; off < bytes; off += kPipeBytes)`. -/
def pieces (bytes : Nat) : Nat := (bytes + kPipeBytes - 1) / kPipeBytes

/-- `doReduce`: the chain `root+1 → root+2 → … → root`, piece by piece. -/
def doReduce (n r : Nat) (send recv : Ptr) (count : Nat) (dt : DataType) (op : RedOp)
    (premul : Option Factor) (root : Nat) : List Call :=
  let esize := typeSize dt
  let bytes := count * esize
  if n = 1 then
    (if count > 0 ∧ send ≠ recv then [Call.memcpy recv send bytes] else []) ++
    match premul with
    | some k => [Call.cpuScale dt recv count (.scalar k)]
    | none => []
  else if count = 0 then []
  else
    let isRoot := r = root
    let isHead := r = (root + 1) % n
    [Call.scratchAt kPipeBytes] ++
    (if isHead ∧ premul.isNone then [Call.regAdd send bytes] else []) ++
    (List.range (pieces bytes)).flatMap fun j =>
      let off := j * kPipeBytes
      let piece := min kPipeBytes (bytes - off)
      let pieceCount := piece / esize
      if isHead then
        match premul with
        | some k => [Call.cpuScaleCopy dt scratch (send + off) pieceCount (.scalar k),
                     Call.send (next n r) scratch piece]
        | none => [Call.send (next n r) (send + off) piece]
      else if isRoot then
        [Call.recv (prev n r) scratch piece] ++
        (match premul with
          | some k => [Call.cpuScaleCopy dt (recv + off) (send + off) pieceCount (.scalar k)]
          | none => if recv + off ≠ send + off then [Call.memcpy (recv + off) (send + off) piece]
                    else []) ++
        [Call.cpuReduce dt op (recv + off) scratch pieceCount] ++
        if op = .avg then [Call.cpuScale dt (recv + off) pieceCount (.recip n)] else []
      else
        [Call.recv (prev n r) scratch piece] ++
        (match premul with
          | some k => [Call.cpuScaledAccumulate dt scratch (send + off) pieceCount (.scalar k)]
          | none => [Call.cpuReduce dt op scratch (send + off) pieceCount]) ++
        [Call.send (next n r) scratch piece]

/-- `doBroadcast`: the same chain from the root on. -/
def doBroadcast (n rank : Nat) (sendbuff recv : Ptr) (count : Nat) (dt : DataType) (root : Nat) :
    List Call :=
  let bytes := count * typeSize dt
  (if rank = root ∧ sendbuff ≠ recv then [Call.memcpy recv sendbuff bytes] else []) ++
  if n = 1 ∨ count = 0 then []
  else
    [Call.regAdd recv bytes] ++
    (List.range (pieces bytes)).flatMap fun j =>
      let off := j * kPipeBytes
      let piece := min kPipeBytes (bytes - off)
      if rank = root then [Call.send (next n rank) (recv + off) piece]
      else
        [Call.recv (prev n rank) (recv + off) piece] ++
        if next n rank = root then [] else [Call.send (next n rank) (recv + off) piece]

/-- `doGather`. -/
def doGather (n rank : Nat) (sendbuff recv : Ptr) (sendcount : Nat) (dt : DataType) (root : Nat) :
    List Call :=
  let chunkBytes := sendcount * typeSize dt
  if n = 1 ∨ sendcount = 0 then
    if sendcount > 0 ∧ sendbuff ≠ recv then [Call.memcpy recv sendbuff chunkBytes] else []
  else if rank ≠ root then [Call.regAdd sendbuff chunkBytes, Call.send root sendbuff chunkBytes]
  else
    [Call.regAdd recv (n * chunkBytes)] ++
    (if sendbuff ≠ recv + root * chunkBytes then
      [Call.memcpy (recv + root * chunkBytes) sendbuff chunkBytes] else []) ++
    (List.range' 1 (n - 1)).flatMap fun s =>
      let peer := (root + s) % n
      [Call.recv peer (recv + peer * chunkBytes) chunkBytes]

/-- `doScatter`. -/
def doScatter (n rank : Nat) (send recvbuff : Ptr) (recvcount : Nat) (dt : DataType) (root : Nat) :
    List Call :=
  let chunkBytes := recvcount * typeSize dt
  if n = 1 ∨ recvcount = 0 then
    if recvcount > 0 ∧ send ≠ recvbuff then [Call.memcpy recvbuff send chunkBytes] else []
  else if rank ≠ root then [Call.regAdd recvbuff chunkBytes, Call.recv root recvbuff chunkBytes]
  else
    [Call.regAdd send (n * chunkBytes)] ++
    (if recvbuff ≠ send + root * chunkBytes then
      [Call.memcpy recvbuff (send + root * chunkBytes) chunkBytes] else []) ++
    (List.range' 1 (n - 1)).flatMap fun s =>
      let peer := (root + s) % n
      [Call.send peer (send + peer * chunkBytes) chunkBytes]

/-- `doAllToAllv`: at step `s` a rank sends its block for `r + s` and receives the one from
`r - s`. Counts and displacements are in elements. -/
def doAllToAllv (n r : Nat) (send : Ptr) (sendcounts sdispls : Nat → Nat) (recv : Ptr)
    (recvcounts rdispls : Nat → Nat) (dt : DataType) : List Call :=
  let esize := typeSize dt
  let sendEnd := (List.range n).foldl (fun b p => max b ((sdispls p + sendcounts p) * esize)) 0
  let recvEnd := (List.range n).foldl (fun b p => max b ((rdispls p + recvcounts p) * esize)) 0
  [Call.regAdd send sendEnd, Call.regAdd recv recvEnd] ++
  (if sendcounts r > 0 ∧ recv + rdispls r * esize ≠ send + sdispls r * esize then
    [Call.memcpy (recv + rdispls r * esize) (send + sdispls r * esize) (sendcounts r * esize)]
   else []) ++
  (List.range' 1 (n - 1)).flatMap fun s =>
    let dst := (r + s) % n
    let source := (r + n - s) % n
    [Call.sendRecv dst (send + sdispls dst * esize) (sendcounts dst * esize)
      source (recv + rdispls source * esize) (recvcounts source * esize)]

/-! ## Calls as instructions -/

/-- The value of a scale factor. -/
def Coef.value (K : Kernels) : Coef → Factor
  | .scalar k => k
  | .recip n => K.recip n

/-- One half of a transfer; none when it moves no byte. -/
def half (peer : Nat) (buf : Ptr) (bytes : Nat) : Option (Nat × List Ptr) :=
  if bytes = 0 then none else some (peer, slice buf bytes)

/-- The receives of a `postRecvs` that move bytes. -/
def postSlices (reqs : List RecvReq) : List (Nat × List Ptr) :=
  reqs.filterMap fun q => half q.peer q.buf q.bytes

/-- `cpuReduce` on memory. -/
def cpuReduce (K : Kernels) (dt : DataType) (op : RedOp) (dst src : Ptr) (count : Nat) (m : Mem) :
    Mem :=
  putWords (typeSize dt) m dst count fun i =>
    K.reduce dt op (word (typeSize dt) m dst i) (word (typeSize dt) m src i)

/-- `cpuScale` on memory. -/
def cpuScale (K : Kernels) (dt : DataType) (dst : Ptr) (count : Nat) (c : Coef) (m : Mem) : Mem :=
  putWords (typeSize dt) m dst count fun i => K.scale dt (c.value K) (word (typeSize dt) m dst i)

/-- `cpuScaleCopy` on memory. -/
def cpuScaleCopy (K : Kernels) (dt : DataType) (dst src : Ptr) (count : Nat) (c : Coef) (m : Mem) :
    Mem :=
  putWords (typeSize dt) m dst count fun i => K.scaleCopy dt (c.value K) (word (typeSize dt) m src i)

/-- `cpuScaledAccumulate` on memory. -/
def cpuScaledAccumulate (K : Kernels) (dt : DataType) (dst src : Ptr) (count : Nat) (c : Coef)
    (m : Mem) : Mem :=
  putWords (typeSize dt) m dst count fun i =>
    K.scaledAccumulate dt (c.value K) (word (typeSize dt) m dst i) (word (typeSize dt) m src i)

/-- What a call does. -/
def Call.instr (K : Kernels) : Call → Net.Instr Nat Ptr UInt8
  | .regAdd _ _ => .cpu id
  | .scratchAt _ => .cpu id
  | .memcpy dst src bytes => .cpu fun m => Vccl.memcpy m dst src bytes
  | .cpuReduce dt op dst src count => .cpu (Vccl.cpuReduce K dt op dst src count)
  | .cpuScale dt dst count c => .cpu (Vccl.cpuScale K dt dst count c)
  | .cpuScaleCopy dt dst src count c => .cpu (Vccl.cpuScaleCopy K dt dst src count c)
  | .cpuScaledAccumulate dt dst src count c => .cpu (Vccl.cpuScaledAccumulate K dt dst src count c)
  | .postRecvs reqs => .post (postSlices reqs)
  | .send peer buf bytes => match half peer buf bytes with
    | some h => .xchg (some h) none
    | none => .cpu id
  | .recv peer buf bytes => match half peer buf bytes with
    | some h => .xchg none (some h)
    | none => .cpu id
  | .sendRecv sp sb sn rp rb rn => .xchg (half sp sb sn) (half rp rb rn)

/-- A rank's code. -/
def code (K : Kernels) (calls : List Call) : List (Net.Instr Nat Ptr UInt8) := calls.map (Call.instr K)

/-- The system of ranks `0, …, n-1` about to run `calls`, with memories `m`. -/
def system (K : Kernels) (n : Nat) (calls : Nat → List Call) (m : Nat → Mem) :
    Net.Cfg Nat Ptr UInt8 :=
  Net.start (fun r => if r < n then code K (calls r) else []) m

end Vccl
