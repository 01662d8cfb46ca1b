import Vccl.Ahead
import Vccl.Group
import Vccl.Net.Shared

/-!
# Groups of several communicators, run (`vcclGroupEnd`)

The outermost `vcclGroupEnd` of a process starts a thread for every communicator of its queue, in
order of first issue; the thread runs `runCommOps` on that communicator's part, and the call joins
the threads in the same order. With one communicator the caller runs the part itself, which is one
thread started and joined. Several processes do this at once (`Cluster`), their queues interleave the
communicators as they please, and several ranks of one communicator may live in one process
(`vcclCommInitAll`). `GStep` is one step of any of them: a thread starts, a thread makes a move, a
thread is joined. The threads of a process share its memory.

* `Cluster.Proper`: what the callers promise: the queues of a communicator agree, and no rank writes
  where another rank of the same process reads or writes.
* `confined_call`: a call sees the ranges it reads and changes the ranges it writes.
* `GInv`: every communicator has run as it does alone (`Net.Mirrored`).
* No reachable state is stuck, since every queue has its own thread (`gstuck`), and every step takes
  from `Cluster.measure`.
* `runCommOps_jobs`: on a transport that does not fail, `runCommOps` makes the calls of `Cluster.calls`.
-/

namespace Vccl

open Net (RMove)

/-! ## The memory of a process -/

/-- An address of a process: the user's objects, and the scratch buffer of a communicator. -/
inductive PAddr where
  | user (id off : Nat)
  | scratch (handle off : Nat)
  deriving DecidableEq, Repr

/-- The address of a rank's pointer, of the communicator with the given handle. -/
def Ptr.place (handle : Nat) (a : Ptr) : PAddr :=
  match a.obj with
  | .user id => .user id a.off
  | .scratch => .scratch handle a.off

/-- The pointer of an address. -/
def PAddr.back (handle : Nat) : PAddr → Option Ptr
  | .user id off => some ⟨.user id, off⟩
  | .scratch h off => if h = handle then some ⟨.scratch, off⟩ else none

theorem PAddr.back_iff (handle : Nat) (b : PAddr) (a : Ptr) :
    b.back handle = some a ↔ a.place handle = b := by
  obtain ⟨obj, off⟩ := a
  cases b with
  | user id o => cases obj <;> simp [PAddr.back, Ptr.place, eq_comm]
  | scratch h o =>
    cases obj with
    | user id => by_cases hh : h = handle <;> simp [PAddr.back, Ptr.place, hh]
    | scratch =>
      by_cases hh : h = handle
      · simp [PAddr.back, Ptr.place, hh, eq_comm]
      · simp [PAddr.back, Ptr.place, hh, Ne.symm hh]

/-! ## Processes and communicators -/

/-- The closure of a queued collective. -/
def Work.job? : Work → Option Job
  | .job j => some j
  | .p2p _ => none

/-- Processes in the outermost `vcclGroupEnd`. Rank `r` of communicator `κ` lives in process
`proc κ r`, which knows it by the pointer `handle κ r`. What is queued are collectives. -/
structure Cluster where
  comms : Finset Nat
  procs : Finset Nat
  size : Nat → Nat
  proc : Nat → Nat → Nat
  handle : Nat → Nat → Nat
  /-- The communicator and the rank behind a pointer of a process. -/
  member : Nat → Nat → Nat × Nat
  /-- `getenv` of a process, for `doAllGather` and for `doAllReduce`. -/
  gatherEnv : Nat → AlgoEnv
  reduceEnv : Nat → AlgoEnv
  /-- `t_groupOps`. -/
  queue : Nat → List QueuedOp
  member_handle : ∀ κ r, r < size κ → member (proc κ r) (handle κ r) = (κ, r)
  size_unknown : ∀ κ, κ ∉ comms → size κ = 0
  queue_idle : ∀ w, w ∉ procs → queue w = []
  queued : ∀ w, ∀ q ∈ queue w, (member w q.comm).2 < size (member w q.comm).1 ∧
    proc (member w q.comm).1 (member w q.comm).2 = w ∧
    handle (member w q.comm).1 (member w q.comm).2 = q.comm
  collective : ∀ w, ∀ q ∈ queue w, q.work.isP2p = false

namespace Cluster

variable (x : Cluster)

/-- `order`: the communicators of a process's queue. -/
def order (w : Nat) : List Nat := commOrder (x.queue w)

/-- What a rank's thread runs. -/
def jobs (κ r : Nat) : List Job :=
  (onComm (x.handle κ r) (x.queue (x.proc κ r))).filterMap Work.job?

def calls (κ r : Nat) : List Call :=
  (x.jobs κ r).flatMap
    (Job.calls (x.gatherEnv (x.proc κ r)) (x.reduceEnv (x.proc κ r)) (x.size κ) r)

def prog (K : Kernels) (κ r : Nat) : List (Net.Instr Nat Ptr UInt8) :=
  if r < x.size κ then code K (x.calls κ r) else []

/-- Ranks are at home in their process. -/
def homes : Net.Homes Nat Nat Nat Ptr PAddr where
  home := x.proc
  place κ r a := a.place (x.handle κ r)
  back κ r b := b.back (x.handle κ r)
  back_iff κ r b a := PAddr.back_iff (x.handle κ r) b a

end Cluster

/-! ## Steps -/

/-- The memories and threads, and how many threads each process has started and joined. -/
structure GState where
  shared : Net.Shared Nat Nat Nat Ptr PAddr UInt8
  spawned : Nat → Nat
  joined : Nat → Nat

/-- One step of the concurrent `vcclGroupEnd` calls. -/
inductive GStep (x : Cluster) (pre : Bool) (s : GState) : GState → Prop where
  /-- `threads.emplace_back(…)`. -/
  | spawn (w : Nat) (h : s.spawned w < (x.order w).length) :
      GStep x pre s { s with spawned := Function.update s.spawned w (s.spawned w + 1) }
  /-- A thread that has been started moves. -/
  | run (κ : Nat) (a : RMove Nat) {t : Net.Shared Nat Nat Nat Ptr PAddr UInt8}
      (hr : a.mover < x.size κ)
      (hs : (x.order (x.proc κ a.mover)).idxOf (x.handle κ a.mover) < s.spawned (x.proc κ a.mover))
      (ht : Net.smove x.homes pre κ a s.shared = some t) : GStep x pre s { s with shared := t }
  /-- `t.join()`, after all threads have been started. -/
  | join (w : Nat) {c : Nat} (h : s.spawned w = (x.order w).length)
      (hc : (x.order w)[s.joined w]? = some c)
      (hdone : (s.shared.crew (x.member w c).1).code (x.member w c).2 = []) :
      GStep x pre s { s with joined := Function.update s.joined w (s.joined w + 1) }

/-- The outermost `vcclGroupEnd` of every process begins. -/
def gstart (K : Kernels) (x : Cluster) (m : Nat → PAddr → UInt8) : GState :=
  ⟨Net.sstart (x.prog K) m, fun _ => 0, fun _ => 0⟩

/-! ## What the callers promise -/

namespace Cluster

variable (x : Cluster) (cs : Nat → List Collective)

/-- The documented outputs of a rank. -/
def outs (κ r : Nat) : List Range := (cs κ).flatMap fun c => c.outputs (x.size κ) r

/-- The documented buffers of a rank. -/
def ranges (κ r : Nat) : List Range :=
  (cs κ).flatMap fun c => c.inputs (x.size κ) r ++ c.outputs (x.size κ) r

/-- The queues agree with the sequence `cs κ` of collectives on every rank of communicator `κ`, each
collective is proper, and what a rank writes is apart from the buffers of the other ranks of its
process. -/
structure Proper : Prop where
  agree : ∀ κ r, r < x.size κ → List.Forall₂
    (fun c j => Job.calls (x.gatherEnv (x.proc κ r)) (x.reduceEnv (x.proc κ r)) (x.size κ) r j =
      Collective.calls (x.size κ) r c) (cs κ) (x.jobs κ r)
  root : ∀ κ, ∀ c ∈ cs κ, c.RootOk (x.size κ)
  user : ∀ κ, ∀ c ∈ cs κ, ∀ r, r < x.size κ → c.UserOnly (x.size κ) r
  place : ∀ κ, ∀ c ∈ cs κ, ∀ r, r < x.size κ → c.NotInPlace (x.size κ) r
  small : ∀ κ, ∀ c ∈ cs κ, ∀ r, r < x.size κ → c.Small (x.size κ) r
  separate : ∀ κ r κ' r', r < x.size κ → r' < x.size κ' → x.proc κ r = x.proc κ' r' →
    ¬ (κ = κ' ∧ r = r') → ∀ y ∈ x.outs cs κ r, ∀ z ∈ x.ranges cs κ' r', Apart y.1 y.2 z.1 z.2

/-- What a rank may write. -/
def Writes (κ r : Nat) (a : Ptr) : Prop := r < x.size κ ∧ Writable (x.outs cs κ r) a

/-- What a rank may look at: scratch and its buffers. -/
def Sees (κ r : Nat) (a : Ptr) : Prop :=
  r < x.size κ ∧ (a.obj = .scratch ∨ Touches (x.ranges cs κ r) a)

end Cluster

/-! ## What a thread runs -/

section Threads

variable {genv renv : AlgoEnv} {net : Nat → Result}

theorem runCalls_success (h : ∀ i, net i = .success) : ∀ (calls : List Call) (log : List Touch),
    runCalls net calls log = (.success, log ++ (calls.filter Call.touches).map .call)
  | [], log => by simp [runCalls]
  | c :: calls, log => by
    cases ht : c.touches with
    | true => simp [runCalls, ht, h, runCalls_success h calls]
    | false => simp [runCalls, ht, runCalls_success h calls]

/-- A closure on a transport that does not fail. -/
theorem runJob_success (h : ∀ i, net i = .success) (c : Comm) (j : Job) :
    c.runJob genv renv net j = (.success, { c with
      ran := c.ran ++ [(.job j, .success)]
      log := c.log ++ ((j.calls genv renv c.nranks c.rank).filter
        fun y => y.touches && c.hasTransport).map .call }) := by
  have hfilter : (c.jobCalls genv renv j).filter Call.touches =
      (j.calls genv renv c.nranks c.rank).filter fun y => y.touches && c.hasTransport := by
    rw [Comm.jobCalls, List.filter_filter]
    congr 1
    funext y
    cases y.touches <;> cases c.hasTransport <;> rfl
  simp [Comm.runJob, runCalls_success h, hfilter, Comm.record, Comm.noteError]

/-- **`runCommOps` on closures**: on a transport that does not fail it runs them all, in order, and
the transport sees their calls. -/
theorem runCommOps_jobs (h : ∀ i, net i = .success) : ∀ (jobs : List Job) (c : Comm),
    runCommOps genv renv net (jobs.map .job) c = (.success, { c with
      ran := c.ran ++ jobs.map fun j => (.job j, .success)
      log := c.log ++ ((jobs.flatMap (Job.calls genv renv c.nranks c.rank)).filter
        fun y => y.touches && c.hasTransport).map .call })
  | [], c => by simp [runCommOps, runLoop]
  | j :: jobs, c => by
    have ih := runCommOps_jobs h jobs (c.runJob genv renv net j).2
    have hloop : runCommOps genv renv net ((j :: jobs).map .job) c =
        runCommOps genv renv net (jobs.map .job) (c.runJob genv renv net j).2 := by
      have hres : (c.runJob genv renv net j).1 = .success := congrArg Prod.fst (runJob_success h c j)
      simp only [runCommOps, List.map_cons, List.length_cons, runLoop, hres]
      rfl
    rw [hloop, ih, runJob_success h c j]
    simp [Comm.hasTransport]

/-- The thread of a rank makes the calls of `Cluster.calls`. -/
theorem Cluster.thread_runs (x : Cluster) (h : ∀ i, net i = .success) {κ : Nat} {c : Comm}
    (hn : c.nranks = x.size κ) :
    runCommOps (x.gatherEnv (x.proc κ c.rank)) (x.reduceEnv (x.proc κ c.rank)) net
        (onComm (x.handle κ c.rank) (x.queue (x.proc κ c.rank))) c = (.success, { c with
      ran := c.ran ++ (x.jobs κ c.rank).map fun j => (.job j, .success)
      log := c.log ++ ((x.calls κ c.rank).filter
        fun y => y.touches && c.hasTransport).map .call }) := by
  have hjobs : onComm (x.handle κ c.rank) (x.queue (x.proc κ c.rank)) =
      (x.jobs κ c.rank).map .job := by
    unfold Cluster.jobs
    have hall : ∀ w ∈ onComm (x.handle κ c.rank) (x.queue (x.proc κ c.rank)), w.isP2p = false := by
      intro w hw
      obtain ⟨q, hq, rfl⟩ := List.mem_map.mp hw
      exact x.collective _ q (List.mem_filter.mp hq).1
    generalize onComm (x.handle κ c.rank) (x.queue (x.proc κ c.rank)) = l at hall
    induction l with
    | nil => rfl
    | cons w l ih =>
      have hw := hall w List.mem_cons_self
      cases w with
      | p2p op => cases hw
      | job j =>
        rw [List.filterMap_cons]
        simp only [Work.job?, List.map_cons]
        rw [← ih fun v hv => hall v (List.mem_cons_of_mem _ hv)]
  rw [hjobs, runCommOps_jobs h]
  unfold Cluster.calls
  rw [← hn]

end Threads

/-! ## Calls are confined -/

/-- A call sees what it reads and changes what it writes. -/
theorem confined_call (K : Kernels) {D W : Ptr → Prop} {c : Call}
    (hr : ∀ y ∈ c.reads, ∀ a, InRange y.1 y.2 a → D a)
    (hw : ∀ y ∈ c.writes, ∀ a, InRange y.1 y.2 a → W a) : (c.instr K).Confined D W := by
  -- the halves of a transfer are ranges
  have hhalf : ∀ {P : Ptr → Prop} {peer bytes : Nat} {buf : Ptr},
      (∀ a, InRange buf bytes a → P a) → ∀ q ∈ half peer buf bytes, ∀ a ∈ q.2, P a := by
    rintro P peer bytes buf hP ⟨q, s⟩ hq a ha
    obtain ⟨-, rfl⟩ := half_eq_some hq
    exact hP a (mem_slice.mp ha)
  cases hi : c.instr K with
  | cpu f =>
    obtain ⟨hframe, hagree⟩ := footprint_cpu K hi
    refine ⟨fun m a ha => hframe m a ?_, fun m m' hm a ha => ?_⟩
    · rintro ⟨y, hy, hin⟩
      exact ha (hw y hy a hin)
    · by_cases ht : Touches c.writes a
      · refine hagree m m' ?_ a ht
        rintro b ⟨y, hy, hin⟩
        exact hm b (hr y hy b hin)
      · rw [hframe m a ht, hframe m' a ht]
        exact hm a ha
  | post reqs => trivial
  | xchg out inn =>
    cases c with
    | send peer buf bytes =>
      simp only [Call.instr] at hi
      split at hi
      · rename_i q hq
        obtain ⟨rfl, rfl⟩ := Net.Instr.xchg.inj hi
        refine ⟨?_, fun q hq => absurd hq (Option.not_mem_none q)⟩
        rw [← hq]
        exact hhalf (hr (buf, bytes) List.mem_cons_self)
      · cases hi
    | recv peer buf bytes =>
      simp only [Call.instr] at hi
      split at hi
      · rename_i q hq
        obtain ⟨rfl, rfl⟩ := Net.Instr.xchg.inj hi
        refine ⟨fun q hq => absurd hq (Option.not_mem_none q), ?_⟩
        rw [← hq]
        exact hhalf (hw (buf, bytes) List.mem_cons_self)
      · cases hi
    | sendRecv sp sb sn rp rb rn =>
      obtain ⟨rfl, rfl⟩ := Net.Instr.xchg.inj hi
      exact ⟨hhalf (hr (sb, sn) List.mem_cons_self), hhalf (hw (rb, rn) List.mem_cons_self)⟩
    | _ => cases hi

section Runs

variable {K : Kernels} {x : Cluster} {cs : Nat → List Collective} {pre : Bool}
  {m : Nat → PAddr → UInt8}

/-- The threads of a communicator run the sequence of its collectives. -/
theorem Cluster.Proper.calls_eq (h : x.Proper cs) {κ r : Nat} (hr : r < x.size κ) :
    x.calls κ r = seqCalls (x.size κ) r (cs κ) := by
  have hall := h.agree κ r hr
  unfold Cluster.calls seqCalls
  generalize x.jobs κ r = l at hall ⊢
  generalize cs κ = l' at hall ⊢
  induction hall with
  | nil => rfl
  | cons hcj _ ih => rw [List.flatMap_cons, List.flatMap_cons, hcj, ih]

theorem Cluster.Proper.prog_eq (h : x.Proper cs) (κ : Nat) :
    x.prog K κ = seqProg K (x.size κ) (cs κ) := by
  funext r
  unfold Cluster.prog seqProg
  split
  · rename_i hr
    rw [h.calls_eq hr]
  · rfl

theorem confined_prog (h : x.Proper cs) (κ : Nat) :
    Net.Confined (x.Sees cs κ) (x.Writes cs κ) (x.prog K κ) := by
  intro r i hi
  unfold Cluster.prog at hi
  split at hi
  · rename_i hr
    rw [h.calls_eq hr] at hi
    obtain ⟨call, hcall, rfl⟩ := List.mem_map.mp hi
    obtain ⟨c, hc, hcall⟩ := List.mem_flatMap.mp hcall
    obtain ⟨size, hin⟩ := (inBounds_calls hr (h.root κ c hc) (h.small κ c hc r hr)).call call hcall
    refine confined_call K (fun y hy a ha => ⟨hr, ?_⟩) fun y hy a ha => ⟨hr, ?_⟩
    · rcases hin.reads y hy with ⟨z, hz, hyz⟩ | hyz
      · exact .inr ⟨z, List.mem_flatMap.mpr ⟨c, hc, hz⟩, hyz.inRange ha⟩
      · exact .inl (hyz.inRange ha).1
    · rcases hin.writes y hy with ⟨z, hz, hyz⟩ | hyz
      · exact .inr ⟨z, List.mem_flatMap.mpr ⟨c, hc, hz⟩, hyz.inRange ha⟩
      · exact .inl (hyz.inRange ha).1
  · exact absurd hi List.not_mem_nil

/-- No rank writes what another rank of its process sees. -/
theorem undisturbed (h : x.Proper cs) : x.homes.Undisturbed (x.Sees cs) (x.Writes cs) := by
  rintro κ r κ' r' hhome hne a a' ⟨hr, hw⟩ ⟨hr', hs⟩ hplace
  have hhome : x.proc κ r = x.proc κ' r' := hhome
  have hplace : a.place (x.handle κ r) = a'.place (x.handle κ' r') := hplace
  obtain ⟨obj, off⟩ := a
  obtain ⟨obj', off'⟩ := a'
  cases obj with
  | scratch =>
    cases obj' with
    | user id => exact absurd hplace (by simp [Ptr.place])
    | scratch =>
      obtain ⟨hh, -⟩ := PAddr.scratch.inj hplace
      have h1 := x.member_handle κ r hr
      rw [hhome, hh, x.member_handle κ' r' hr'] at h1
      obtain ⟨rfl, rfl⟩ := Prod.mk.inj h1
      exact hne ⟨rfl, rfl⟩
  | user id =>
    cases obj' with
    | scratch => exact absurd hplace (by simp [Ptr.place])
    | user id' =>
      obtain ⟨rfl, rfl⟩ := PAddr.user.inj hplace
      rcases hw with hw | ⟨y, hy, hya⟩
      · cases hw
      rcases hs with hs | ⟨z, hz, hza⟩
      · cases hs
      · exact (h.separate κ r κ' r' hr hr' hhome hne y hy z hz).not_mem (mem_slice.mpr hya)
          (mem_slice.mpr hza)

/-! ## The invariant -/

/-- The state `s` is one of a run from memory `m`. -/
structure GInv (K : Kernels) (x : Cluster) (cs : Nat → List Collective) (pre : Bool)
    (m : Nat → PAddr → UInt8) (s : GState) : Prop where
  mirrored : Net.Mirrored x.homes (x.Sees cs) (x.Writes cs) pre (x.prog K) m s.shared
  spawned : ∀ w, s.spawned w ≤ (x.order w).length
  joined : ∀ w, s.joined w ≤ (x.order w).length
  frame : ∀ w b, (∀ κ r a, x.proc κ r = w → x.Writes cs κ r a → a.place (x.handle κ r) ≠ b) →
    s.shared.mem w b = m w b

theorem ginv_start (h : x.Proper cs) : GInv K x cs pre m (gstart K x m) :=
  ⟨Net.mirrored_start fun κ => confined_prog h κ, fun _ => Nat.zero_le _, fun _ => Nat.zero_le _,
    fun _ _ _ => rfl⟩

theorem ginv_step (h : x.Proper cs) {s s' : GState} (hi : GInv K x cs pre m s)
    (hs : GStep x pre s s') : GInv K x cs pre m s' := by
  have hbound : ∀ {f : Nat → Nat} {w : Nat}, (∀ v, f v ≤ (x.order v).length) →
      f w < (x.order w).length → ∀ v, Function.update f w (f w + 1) v ≤ (x.order v).length := by
    intro f w hf hw v
    by_cases hv : v = w
    · subst hv
      rw [Function.update_self]
      exact hw
    · rw [Function.update_of_ne hv]
      exact hf v
  cases hs with
  | spawn w hlt => exact ⟨hi.mirrored, hbound hi.spawned hlt, hi.joined, hi.frame⟩
  | run κ a hr hstarted ht =>
    refine ⟨Net.mirrored_step (undisturbed h) hi.mirrored ht, hi.spawned, hi.joined, fun w b hb => ?_⟩
    exact (Net.smove_frame hi.mirrored ht hb).trans (hi.frame w b hb)
  | join w hall hc hdone =>
    obtain ⟨hlt, -⟩ := List.getElem?_eq_some_iff.mp hc
    exact ⟨hi.mirrored, hi.spawned, hbound hi.joined hlt, hi.frame⟩

theorem ginv_reach (h : x.Proper cs) {s : GState}
    (hs : Relation.ReflTransGen (GStep x pre) (gstart K x m) s) : GInv K x cs pre m s := by
  induction hs with
  | refl => exact ginv_start h
  | tail _ hstep ih => exact ginv_step h ih hstep

/-! ## Every run ends -/

/-- The steps that are left at most. -/
def Cluster.measure (x : Cluster) (s : GState) : Nat :=
  (∑ w ∈ x.procs, ((x.order w).length - s.spawned w + ((x.order w).length - s.joined w))) +
    ∑ κ ∈ x.comms, ∑ r ∈ Finset.range (x.size κ), (s.shared.crew κ).weight r

theorem order_idle {w : Nat} (hw : w ∉ x.procs) : x.order w = [] := by
  rw [Cluster.order, x.queue_idle w hw]
  rfl

theorem mem_procs {w i : Nat} (h : i < (x.order w).length) : w ∈ x.procs := by
  by_contra hw
  rw [order_idle hw] at h
  exact absurd h (Nat.not_lt_zero i)

/-- Counting a thread takes from the measure. -/
theorem threads_lt {f g f' g' : Nat → Nat} {w : Nat} (hw : w ∈ x.procs)
    (hlt : (x.order w).length - f' w + ((x.order w).length - g' w) <
      (x.order w).length - f w + ((x.order w).length - g w))
    (hf : ∀ v, v ≠ w → f' v = f v) (hg : ∀ v, v ≠ w → g' v = g v) :
    (∑ w ∈ x.procs, ((x.order w).length - f' w + ((x.order w).length - g' w))) <
      ∑ w ∈ x.procs, ((x.order w).length - f w + ((x.order w).length - g w)) := by
  refine Finset.sum_lt_sum (fun v _ => ?_) ⟨w, hw, hlt⟩
  by_cases hv : v = w
  · rw [hv]
    exact Nat.le_of_lt hlt
  · rw [hf v hv, hg v hv]

/-- **Every step takes from the measure.** -/
theorem measure_step {s s' : GState} (hs : GStep x pre s s') : x.measure s' < x.measure s := by
  unfold Cluster.measure
  cases hs with
  | spawn w hlt =>
    refine Nat.add_lt_add_right (threads_lt (mem_procs hlt) ?_
      (fun v hv => Function.update_of_ne hv ..) fun _ _ => rfl) _
    simp only [Function.update_self]
    omega
  | join w hall hc hdone =>
    obtain ⟨hlt, -⟩ := List.getElem?_eq_some_iff.mp hc
    refine Nat.add_lt_add_right (threads_lt (mem_procs hlt) ?_ (fun _ _ => rfl)
      fun v hv => Function.update_of_ne hv ..) _
    simp only [Function.update_self]
    omega
  | run κ a hr hstarted ht =>
    rename_i t
    obtain ⟨hlt, hother⟩ := Net.smove_weight ht
    have hκ : κ ∈ x.comms := by
      by_contra hκ
      rw [x.size_unknown κ hκ] at hr
      exact absurd hr (Nat.not_lt_zero _)
    have hle : ∀ κ' r, (t.crew κ').weight r ≤ (s.shared.crew κ').weight r := by
      intro κ' r
      by_cases he : κ' = κ ∧ r = a.mover
      · obtain ⟨rfl, rfl⟩ := he
        exact Nat.le_of_lt hlt
      · exact Nat.le_of_eq (hother κ' r he)
    have hrow : (∑ r ∈ Finset.range (x.size κ), (t.crew κ).weight r) <
        ∑ r ∈ Finset.range (x.size κ), (s.shared.crew κ).weight r :=
      Finset.sum_lt_sum (fun r _ => hle κ r) ⟨a.mover, Finset.mem_range.mpr hr, hlt⟩
    have hall : (∑ κ' ∈ x.comms, ∑ r ∈ Finset.range (x.size κ'), (t.crew κ').weight r) <
        ∑ κ' ∈ x.comms, ∑ r ∈ Finset.range (x.size κ'), (s.shared.crew κ').weight r :=
      Finset.sum_lt_sum (fun κ' _ => Finset.sum_le_sum fun r _ => hle κ' r) ⟨κ, hκ, hrow⟩
    exact Nat.add_lt_add_left hall _

theorem acc_gstep (s : GState) : Acc (fun y z => GStep x pre z y) s := by
  induction h : x.measure s using Nat.strong_induction_on generalizing s with
  | _ N ih =>
    refine ⟨_, fun s' hs => ih (x.measure s') ?_ s' rfl⟩
    rw [← h]
    exact measure_step hs

/-! ## No run gets stuck -/

/-- A rank with code left has a thread. -/
theorem handle_mem {κ r : Nat} (h : x.prog K κ r ≠ []) :
    r < x.size κ ∧ x.handle κ r ∈ x.order (x.proc κ r) := by
  have hr : r < x.size κ := by
    by_contra hr
    exact h (if_neg hr)
  refine ⟨hr, mem_commOrder.mpr ?_⟩
  by_contra hmem
  refine h ?_
  rw [Cluster.prog, if_pos hr, Cluster.calls, Cluster.jobs, onComm_eq_nil hmem]
  rfl

/-- A rank with nothing to do stays so. -/
theorem nil_of_reach {prog : Nat → List (Net.Instr Nat Ptr UInt8)} {m₀ : Nat → Mem} {r : Nat}
    {c : Net.Posted Nat Ptr UInt8} (h0 : prog r = [])
    (hc : Relation.ReflTransGen (Net.RStep pre) (Net.rstart prog m₀) c) : c.cfg.code r = [] := by
  induction hc with
  | refl => exact h0
  | tail _ hs ih =>
    obtain ⟨a, ha⟩ := hs
    exact Net.rmove_nil ha ih

/-- What one communicator needs to run by itself. -/
theorem alone_facts (h : x.Proper cs) (κ : Nat) (m₀ : Nat → Mem) :
    ∃ plan : Nat → List (Net.Entry Nat),
      (∀ p q, Net.inTimes p (plan q) = Net.outTimes q (plan p)) ∧ (∀ r, Net.Ordered (plan r)) ∧
      (∀ r, Net.wp (fun _ _ _ _ => True) r (x.prog K κ r) (plan r) (fun _ => True) (m₀ r)) ∧
      ∀ r, Net.Separated (x.prog K κ r) := by
  have hstage : Stageable (x.size κ) (fun _ _ => false) (cs κ) :=
    ⟨h.root κ, h.user κ, h.place κ, fun _ _ _ _ => rfl, fun _ _ _ _ _ => rfl⟩
  rw [h.prog_eq κ]
  by_cases hn : 0 < x.size κ
  · obtain ⟨plan, hmeet, hord, hwp, -⟩ := stageable_facts K hn hstage m₀
    exact ⟨plan, hmeet, hord, hwp, fun r => (careful_prog hstage r).separated⟩
  · have hnil : seqProg K (x.size κ) (cs κ) = fun _ => [] := funext fun r => if_neg (by omega)
    rw [hnil]
    exact ⟨fun _ => [], fun _ _ => rfl, fun _ => List.Pairwise.nil, fun _ => trivial,
      fun _ _ _ _ _ hm => absurd hm List.not_mem_nil⟩

/-- **No state is stuck.** Where no step is possible, all threads are finished and joined. -/
theorem gstuck (h : x.Proper cs) {s : GState} (hi : GInv K x cs pre m s)
    (hstop : ∀ s', ¬ GStep x pre s s') :
    (∀ κ r, (s.shared.crew κ).code r = []) ∧ ∀ w, s.joined w = (x.order w).length := by
  have hspawned : ∀ w, s.spawned w = (x.order w).length := by
    intro w
    by_contra hne
    exact hstop _ (.spawn w (Nat.lt_of_le_of_ne (hi.spawned w) hne))
  have hdone : ∀ κ r, (s.shared.crew κ).code r = [] := by
    intro κ r
    by_contra hr
    obtain ⟨c, hc, hmir⟩ := hi.mirrored κ
    have hcode : c.cfg.code = (s.shared.crew κ).code := congrArg Net.Crew.code hmir.crew
    obtain ⟨plan, hmeet, hord, hwp, -⟩ := alone_facts (K := K) h κ (x.homes.view m κ)
    obtain ⟨_, _, hready⟩ := Net.ready_reach (Net.ready_start hmeet hord hwp) hc
    obtain ⟨c', a, ha⟩ := Net.rendezvous_progress hready (hcode ▸ hr)
    obtain ⟨t, ht⟩ := hmir.lift ha
    -- the thread that can move has been started
    have hprog : x.prog K κ a.mover ≠ [] := fun h0 => Net.rmove_code ha (nil_of_reach h0 hc)
    obtain ⟨hlt, hmem⟩ := handle_mem hprog
    exact hstop _ (.run κ a hlt (by rw [hspawned]; exact List.idxOf_lt_length_of_mem hmem) ht)
  refine ⟨hdone, fun w => ?_⟩
  by_contra hne
  have hlt : s.joined w < (x.order w).length := Nat.lt_of_le_of_ne (hi.joined w) hne
  exact hstop _ (.join w (hspawned w) (List.getElem?_eq_getElem hlt) (hdone _ _))

/-! ## The group -/

/-- **The order of issue across communicators does not matter.** Under rendezvous, with or without
receives posted ahead, all `vcclGroupEnd` calls return, however their threads interleave. Every rank
then has in its buffers what it has when its communicator runs alone, and user memory that is no
rank's output is as it was. -/
theorem groupEnd_interleaves (K : Kernels) (x : Cluster) {cs : Nat → List Collective}
    (h : x.Proper cs) (pre : Bool) (m : Nat → PAddr → UInt8) :
    ∃ m' : Nat → Nat → Mem,
      (∀ κ, Net.Ends (Net.RStep pre) (Net.rstart (x.prog K κ) (x.homes.view m κ)) fun c =>
        (∀ r, c.cfg.code r = []) ∧ c.cfg.mem = m' κ) ∧
      Net.Ends (GStep x pre) (gstart K x m) fun s =>
        (∀ w, s.joined w = (x.order w).length) ∧
        (∀ κ r, r < x.size κ → ∀ y ∈ x.ranges cs κ r, ∀ a, InRange y.1 y.2 a →
          x.homes.view s.shared.mem κ r a = m' κ r a) ∧
        ∀ w id off, (∀ κ r, r < x.size κ → x.proc κ r = w → ∀ y ∈ x.outs cs κ r,
          ¬ InRange y.1 y.2 ⟨.user id, off⟩) →
          s.shared.mem w (.user id off) = m w (.user id off) := by
  have halone : ∀ κ, ∃ m' : Nat → Mem,
      Net.Ends (Net.RStep pre) (Net.rstart (x.prog K κ) (x.homes.view m κ)) fun c =>
        (∀ r, c.cfg.code r = []) ∧ c.cfg.mem = m' := by
    intro κ
    obtain ⟨plan, hmeet, hord, hwp, hsep⟩ := alone_facts (K := K) h κ (x.homes.view m κ)
    have hfin : ∀ r, r ∉ Finset.range (x.size κ) → x.prog K κ r = [] := fun r hr =>
      if_neg fun hlt => hr (Finset.mem_range.mpr hlt)
    exact Net.rendezvous_ends hfin hmeet hord hwp hsep
  choose m' hm' using halone
  refine ⟨m', hm', acc_gstep _, fun s hs hstop => ?_⟩
  have hi := ginv_reach (K := K) (m := m) h hs
  obtain ⟨hdone, hjoined⟩ := gstuck h hi hstop
  refine ⟨hjoined, fun κ r hr y hy a ha => ?_, fun w id off hout => hi.frame w _ ?_⟩
  · obtain ⟨c, hc, hmir⟩ := hi.mirrored κ
    have hcode : c.cfg.code = (s.shared.crew κ).code := congrArg Net.Crew.code hmir.crew
    have hend : ∀ c', ¬ Net.RStep pre c c' := by
      rintro c' ⟨b, hb⟩
      exact Net.rmove_code hb (by rw [hcode, hdone])
    rw [← ((hm' κ).2 c hc hend).2, hmir.mem r a ⟨hr, .inr ⟨y, hy, ha⟩⟩]
  · rintro κ r ⟨obj, o⟩ hw ⟨hr, hwr⟩ hplace
    cases obj with
    | scratch => exact absurd hplace (by simp [Ptr.place])
    | user id' =>
      obtain ⟨rfl, rfl⟩ := PAddr.user.inj hplace
      rcases hwr with hwr | ⟨y, hy, hya⟩
      · cases hwr
      · exact hout κ r hr hw y hy hya

/-- Two processes all-reduce on two communicators, which they issue in opposite orders. -/
def crossed : Cluster where
  comms := {0, 1}
  procs := {0, 1}
  size κ := if κ < 2 then 2 else 0
  proc _ r := r
  handle κ _ := κ
  member w h := (h, w)
  gatherEnv _ := ⟨none, none⟩
  reduceEnv _ := ⟨none, none⟩
  queue w := if w < 2 then [w, 1 - w].map fun c =>
    ⟨c, .job (.allReduce ⟨.user c, 0⟩ ⟨.user c, 0⟩ 3 .int32 .sum none)⟩ else []
  member_handle _ _ _ := rfl
  size_unknown κ hκ := by
    refine if_neg fun h2 => hκ ?_
    obtain rfl | rfl : κ = 0 ∨ κ = 1 := by omega
    · exact Finset.mem_insert_self 0 {1}
    · exact Finset.mem_insert_of_mem (Finset.mem_singleton_self 1)
  queue_idle w hw := by
    refine if_neg fun h2 => hw ?_
    obtain rfl | rfl : w = 0 ∨ w = 1 := by omega
    · exact Finset.mem_insert_self 0 {1}
    · exact Finset.mem_insert_of_mem (Finset.mem_singleton_self 1)
  queued w q hq := by
    by_cases h2 : w < 2
    · rw [if_pos h2] at hq
      obtain ⟨c, hc, rfl⟩ := List.mem_map.mp hq
      rcases List.mem_pair.mp hc with rfl | rfl
      · simp [h2]
      · simp only [if_pos (show 1 - w < 2 by omega)]
        exact ⟨h2, trivial, trivial⟩
    · rw [if_neg h2] at hq
      exact absurd hq List.not_mem_nil
  collective w q hq := by
    by_cases h2 : w < 2
    · rw [if_pos h2] at hq
      obtain ⟨c, -, rfl⟩ := List.mem_map.mp hq
      rfl
    · rw [if_neg h2] at hq
      exact absurd hq List.not_mem_nil

/-- The all-reduce of a communicator. -/
def crossedSeq (κ : Nat) : List Collective :=
  [.allReduce ⟨none, none⟩ (fun _ => ⟨.user κ, 0⟩) (fun _ => ⟨.user κ, 0⟩) 3 .int32 .sum fun _ => none]

theorem proper_crossed : crossed.Proper crossedSeq := by
  have hsize : ∀ {κ r : Nat}, r < crossed.size κ → κ < 2 ∧ r < 2 := by
    intro κ r hr
    simp only [crossed] at hr
    split at hr
    · exact ⟨‹_›, hr⟩
    · exact absurd hr (Nat.not_lt_zero r)
  refine ⟨fun κ r hr => ?_, fun κ c hc => ?_, fun κ c hc r _ y hy => ?_, fun κ c hc => ?_,
    fun κ c hc r hr => ?_, fun κ r κ' r' hr hr' hw hne y hy z hz => ?_⟩
  · obtain ⟨hκ, hr2⟩ := hsize hr
    obtain rfl | rfl : κ = 0 ∨ κ = 1 := by omega
    all_goals
      obtain rfl | rfl : r = 0 ∨ r = 1 := by omega
      · exact .cons rfl .nil
      · exact .cons rfl .nil
  · rw [List.mem_singleton.mp hc]
    trivial
  · rw [List.mem_singleton.mp hc] at hy
    rcases List.mem_pair.mp hy with rfl | rfl <;> simp
  · rw [List.mem_singleton.mp hc]
    exact fun _ _ => trivial
  · obtain ⟨hκ, -⟩ := hsize hr
    have hsmall : (2 + 2) * 3 * typeSize .int32 < 2 ^ 63 := by decide
    rw [List.mem_singleton.mp hc]
    obtain rfl | rfl : κ = 0 ∨ κ = 1 := by omega
    · exact hsmall
    · exact hsmall
  · simp only [Cluster.outs, Cluster.ranges, crossedSeq, List.flatMap_singleton, Collective.inputs,
      Collective.outputs, List.mem_append, List.mem_singleton, or_self] at hy hz
    subst hy hz
    refine apart_of_obj fun h => hne ⟨?_, hw⟩
    exact Obj.user.inj h

/-- Two processes that issue in opposite orders. -/
theorem groupEnd_interleaves_crossed : ∃ m' : Nat → Nat → Mem,
    (∀ κ, Net.Ends (Net.RStep true) (Net.rstart (crossed.prog (cpuKernels .idle) κ)
      (crossed.homes.view (fun _ _ => 1) κ)) fun c => (∀ r, c.cfg.code r = []) ∧ c.cfg.mem = m' κ) ∧
    Net.Ends (GStep crossed true) (gstart (cpuKernels .idle) crossed fun _ _ => 1) fun s =>
      (∀ w, s.joined w = (crossed.order w).length) ∧
      (∀ κ r, r < crossed.size κ → ∀ y ∈ crossed.ranges crossedSeq κ r, ∀ a, InRange y.1 y.2 a →
        crossed.homes.view s.shared.mem κ r a = m' κ r a) ∧
      ∀ w id off, (∀ κ r, r < crossed.size κ → crossed.proc κ r = w →
        ∀ y ∈ crossed.outs crossedSeq κ r, ¬ InRange y.1 y.2 ⟨.user id, off⟩) →
        s.shared.mem w (.user id off) = (fun _ _ => 1 : Nat → PAddr → UInt8) w (.user id off) :=
  groupEnd_interleaves (cpuKernels .idle) crossed proper_crossed true fun _ _ => 1

end Runs

end Vccl
