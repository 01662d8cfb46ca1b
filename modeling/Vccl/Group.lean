import Vccl.Comm
import Mathlib.Data.List.Basic

/-!
# Groups (`group.cc`)

`vcclGroupStart` and `vcclGroupEnd` nest. Inside a group the entry points queue their work; the
outermost end cuts the queue by communicator and runs each part, the parts of different
communicators on threads of their own. `Caller.step` is one call of the public interface by one
thread, and `Caller.after` a list of calls. Between its calls the thread may write to its own arrays (`setArray`)
and create and destroy PreMulSum operations, so that an argument can change between the call that
passes it and the end of the group.

The threads of different communicators share nothing: a part runs against its own communicator and
its own transport, so that the state afterwards is the same in every interleaving.

* `Runs us q`: the list `us` is `q` with every maximal run of consecutive point-to-point operations
  made one batch.
* `runCommOps_executes`: `runCommOps` executes a prefix of `Runs`, and all of it unless the last
  execution of the prefix failed.
* `Inside`: a list of calls that does not end the group it starts in.
-/

namespace Vccl

/-- `QueuedOp`. -/
structure QueuedOp where
  comm : Nat
  work : Work
  deriving DecidableEq, Repr

/-- What a thread sees: `t_groupDepth`, `t_groupOps`, the communicators, and its own arrays. -/
structure Caller where
  depth : Nat
  ops : List QueuedOp
  comm : Nat → Comm
  arrays : Nat → Nat → Nat

/-- A call of the public interface, or a write of the caller to one of its arrays. -/
inductive Api where
  | groupStart
  | groupEnd
  | op (c : Nat) (o : DataOp)
  | createPreMulSum (c : Nat) (value : Factor)
  | redOpDestroy (c : Nat) (op : Int)
  | setArray (a : Nat) (values : Nat → Nat)

def Caller.setComm (w : Caller) (c : Nat) (x : Comm) : Caller :=
  { w with comm := Function.update w.comm c x }

/-! ## Running the queue of one communicator -/

section Running

variable (genv renv : AlgoEnv) (net : Nat → Result)

/-- The outer loop of `runCommOps`: a maximal run of point-to-point operations is one batch, a
closure runs by itself, and the first failure ends the loop. -/
def runLoop : Nat → List Work → Comm → Result × Comm
  | 0, _, c => (.success, c)
  | _ + 1, [], c => (.success, c)
  | fuel + 1, .p2p op :: ops, c =>
    let run := (Work.p2p op :: ops).takeWhile Work.isP2p
    let rest := (Work.p2p op :: ops).dropWhile Work.isP2p
    if c.hasTransport then
      let (res, c') := c.batch net (run.filterMap fun | .p2p o => some o | .job _ => none)
      if res ≠ .success then (res, c'.noteError res) else runLoop fuel rest c'
    else (.invalidUsage, c)
  | fuel + 1, .job j :: ops, c =>
    let (res, c') := c.runJob genv renv net j
    if res ≠ .success then (res, c'.noteError res) else runLoop fuel ops c'

/-- `runCommOps`. -/
def runCommOps (ops : List Work) (c : Comm) : Result × Comm := runLoop genv renv net ops.length ops c

end Running

/-! ## The public interface -/

section Interface

variable (genv renv : AlgoEnv) (net : Nat → Nat → Result)

/-- `enqueueOrRun` and `enqueueOrRunP2p`, outside a group. -/
def runNow (net : Nat → Result) (c : Comm) : Work → Result × Comm
  | .job j => c.runJob genv renv net j
  | .p2p op => if c.hasTransport then c.single net op else (.invalidUsage, c)

/-- The communicators of a queue, in the order of their first operation. -/
def commOrder (ops : List QueuedOp) : List Nat :=
  ops.foldl (fun order op => if op.comm ∈ order then order else order ++ [op.comm]) []

/-- `byComm[c]`. -/
def onComm (c : Nat) (ops : List QueuedOp) : List Work :=
  (ops.filter fun op => op.comm = c).map QueuedOp.work

/-- The body of the outermost `vcclGroupEnd`, on the queue `ops`: the result, and the
communicators. -/
def flushGroup (ops : List QueuedOp) (comm : Nat → Comm) : Result × (Nat → Comm) :=
  let order := commOrder ops
  let run := fun c => runCommOps genv renv (net c) (onComm c ops) (comm c)
  let comm' := fun c => if c ∈ order then (run c).2 else comm c
  match order with
  | [] => (.success, comm)
  | [c] => ((run c).1, comm')
  | _ => (((order.map fun c => (run c).1).find? (· ≠ .success)).getD .success, comm')

/-- One call: its result and the world after it. -/
def Caller.step (w : Caller) : Api → Result × Caller
  | .groupStart => (.success, { w with depth := w.depth + 1 })
  | .groupEnd =>
    if w.depth = 0 then (.invalidUsage, w)
    else if w.depth - 1 > 0 then (.success, { w with depth := w.depth - 1 })
    else
      let (res, comm) := flushGroup genv renv net w.ops w.comm
      (res, { w with depth := 0, ops := [], comm := comm })
  | .op c o =>
    match issue w.arrays (w.comm c) o with
    | .error res => (res, w)
    | .ok work =>
      if w.depth = 0 then
        let (res, x) := runNow genv renv (net c) (w.comm c) work
        (res, w.setComm c x)
      else (.success, { w with ops := w.ops ++ [⟨c, work⟩] })
  | .createPreMulSum c value => (.success, w.setComm c ((w.comm c).createPreMulSum value).1)
  | .redOpDestroy c op =>
    let (res, x) := (w.comm c).redOpDestroy op
    (res, w.setComm c x)
  | .setArray a values => (.success, { w with arrays := Function.update w.arrays a values })

/-- The world after a list of calls. -/
def Caller.after (w : Caller) (calls : List Api) : Caller :=
  calls.foldl (fun w a => (w.step genv renv net a).2) w

/-- A thread at its start: no group, nothing queued. -/
def Caller.start (comm : Nat → Comm) (arrays : Nat → Nat → Nat) : Caller := ⟨0, [], comm, arrays⟩

/-- The calls from `w` on stay inside a group: none of them ends the outermost one. -/
def Inside : Caller → List Api → Prop
  | w, [] => 0 < w.depth
  | w, a :: calls => 0 < w.depth ∧ Inside (w.step genv renv net a).2 calls

/-- What a call queues in a group: its work, with the arguments as they are when it is issued. -/
def accepts (w : Caller) : Api → List QueuedOp
  | .op c o => match issue w.arrays (w.comm c) o with
    | .ok work => [⟨c, work⟩]
    | .error _ => []
  | _ => []

/-- The operations a list of calls has accepted, in issue order. -/
def accepted : Caller → List Api → List QueuedOp
  | _, [] => []
  | w, a :: calls => accepts w a ++ accepted (w.step genv renv net a).2 calls

end Interface

/-! ## The queue of one communicator -/

/-- The queued operations an execution stands for. -/
def Exec.works : Exec → List Work
  | .job j => [.job j]
  | .batch ops => ops.map .p2p
  | .single op => [.p2p op]

/-- Not followed by a batch, if it is one. -/
def Exec.Splits : Exec → Exec → Prop
  | .batch _, .batch _ => False
  | _, _ => True

/-- `us` is `q` with every maximal run of consecutive point-to-point operations made one batch. -/
structure Runs (us : List Exec) (q : List Work) : Prop where
  covers : us.flatMap Exec.works = q
  kinds : ∀ u ∈ us, (∃ j, u = .job j) ∨ ∃ op ops, u = .batch (op :: ops)
  maximal : us.IsChain Exec.Splits

/-- The executions of a queue. -/
def units : List Work → List Exec
  | [] => []
  | .job j :: q => .job j :: units q
  | .p2p op :: q => match units q with
    | .batch ops :: us => .batch (op :: ops) :: us
    | us => .batch [op] :: us

/-- The descriptors of a run of point-to-point operations. -/
def descriptors (run : List Work) : List P2pOp :=
  run.filterMap fun | .p2p o => some o | .job _ => none

theorem runs_units (q : List Work) : Runs (units q) q := by
  induction q with
  | nil => exact ⟨rfl, fun u hu => absurd hu List.not_mem_nil, .nil⟩
  | cons w q ih =>
    obtain ⟨hcov, hkinds, hmax⟩ := ih
    cases w with
    | job j =>
      refine ⟨by simp [units, Exec.works, hcov], ?_, ?_⟩
      · intro u hu
        rcases List.mem_cons.mp hu with rfl | hu
        · exact Or.inl ⟨j, rfl⟩
        · exact hkinds u hu
      · show (Exec.job j :: units q).IsChain Exec.Splits
        cases hus : units q with
        | nil => exact .singleton _
        | cons u us => exact .cons_cons trivial (hus ▸ hmax)
    | p2p op =>
      -- the new operation joins the first batch, or is one by itself before a closure
      cases hus : units q with
      | nil =>
        rw [hus] at hcov
        simp only [List.flatMap_nil] at hcov
        subst hcov
        refine ⟨by simp [units, Exec.works], ?_, by simp [units]⟩
        intro u hu
        simp only [units, List.mem_singleton] at hu
        exact Or.inr ⟨op, [], hu⟩
      | cons u us =>
        rw [hus] at hcov hkinds hmax
        rcases hkinds u List.mem_cons_self with ⟨j, rfl⟩ | ⟨o, ops, rfl⟩
        · refine ⟨by simpa [units, hus, Exec.works] using hcov, ?_, ?_⟩
          · intro u hu
            simp only [units, hus] at hu
            rcases List.mem_cons.mp hu with rfl | hu
            · exact Or.inr ⟨op, [], rfl⟩
            · exact hkinds u hu
          · simp only [units, hus]
            exact .cons_cons trivial hmax
        · refine ⟨by simpa [units, hus, Exec.works] using hcov, ?_, ?_⟩
          · intro u hu
            simp only [units, hus] at hu
            rcases List.mem_cons.mp hu with rfl | hu
            · exact Or.inr ⟨op, o :: ops, rfl⟩
            · exact hkinds u (List.mem_cons_of_mem _ hu)
          · simp only [units, hus]
            cases us with
            | nil => exact .singleton _
            | cons v us =>
              rw [List.isChain_cons_cons] at hmax ⊢
              refine ⟨?_, hmax.2⟩
              cases v <;> first | trivial | exact hmax.1

/-- A queue that starts with a point-to-point operation starts with the batch of its run. -/
theorem units_p2p (op : P2pOp) (q : List Work) :
    units (.p2p op :: q) =
      .batch (op :: descriptors (q.takeWhile Work.isP2p)) :: units (q.dropWhile Work.isP2p) := by
  induction q generalizing op with
  | nil => rfl
  | cons w q ih =>
    cases w with
    | job j => rfl
    | p2p o =>
      have h : units (.p2p op :: .p2p o :: q) = match units (.p2p o :: q) with
        | .batch ops :: us => .batch (op :: ops) :: us
        | us => .batch [op] :: us := rfl
      rw [h, ih o]
      rfl

/-- What running the queue `q` does to a communicator: it executes a prefix of the queue's
executions, all of them unless the last execution of the prefix fails. -/
def Executes (c : Comm) (q : List Work) (res : Result) (c' : Comm) : Prop :=
  ∃ done : List (Exec × Result), c'.ran = c.ran ++ done ∧ done.map Prod.fst <+: units q ∧
    ((res = .success ∧ done.map Prod.fst = units q ∧ ∀ e ∈ done, e.2 = .success) ∨
      (res ≠ .success ∧ ∃ init e, done = init ++ [(e, res)] ∧ ∀ x ∈ init, x.2 = .success))

theorem Executes.nil (c : Comm) : Executes c [] .success c :=
  ⟨[], by simp, List.nil_prefix, Or.inl ⟨rfl, rfl, by simp⟩⟩

/-- A queue whose first execution succeeds goes on with the rest. -/
theorem Executes.cons {c c' c'' : Comm} {q rest : List Work} {e : Exec} {res : Result}
    (hu : units q = e :: units rest) (hc : c'.ran = c.ran ++ [(e, .success)])
    (h : Executes c' rest res c'') : Executes c q res c'' := by
  obtain ⟨done, hran, hpre, hres⟩ := h
  refine ⟨(e, .success) :: done, by simp [hran, hc], ?_, ?_⟩
  · rw [hu, List.map_cons]
    exact List.cons_prefix_cons.mpr ⟨rfl, hpre⟩
  · rcases hres with ⟨h1, h2, h3⟩ | ⟨h1, init, x, rfl, h3⟩
    · refine Or.inl ⟨h1, by rw [hu, List.map_cons, h2], ?_⟩
      intro y hy
      rcases List.mem_cons.mp hy with rfl | hy
      · rfl
      · exact h3 y hy
    · refine Or.inr ⟨h1, (e, .success) :: init, x, rfl, ?_⟩
      intro y hy
      rcases List.mem_cons.mp hy with rfl | hy
      · rfl
      · exact h3 y hy

/-- A queue whose first execution fails ends with it. -/
theorem Executes.fail {c c' : Comm} {q : List Work} {us : List Exec} {e : Exec} {res : Result}
    (hu : units q = e :: us) (hne : res ≠ .success) (hc : c'.ran = c.ran ++ [(e, res)]) :
    Executes c q res c' := by
  refine ⟨[(e, res)], hc, ?_, Or.inr ⟨hne, [], e, rfl, by simp⟩⟩
  rw [hu]
  exact ⟨us, rfl⟩

@[simp] theorem Comm.noteError_ran (c : Comm) (res : Result) : (c.noteError res).ran = c.ran := by
  unfold Comm.noteError
  split
  · rfl
  · simp only
    split <;> split <;> rfl

@[simp] theorem Comm.noteError_log (c : Comm) (res : Result) : (c.noteError res).log = c.log := by
  unfold Comm.noteError
  split
  · rfl
  · simp only
    split <;> split <;> rfl

@[simp] theorem Comm.noteError_nranks (c : Comm) (res : Result) :
    (c.noteError res).nranks = c.nranks := by
  unfold Comm.noteError
  split
  · rfl
  · simp only
    split <;> split <;> rfl

section Running

variable {genv renv : AlgoEnv} {net : Nat → Result}

theorem Comm.runJob_ran (c : Comm) (j : Job) :
    (c.runJob genv renv net j).2.ran = c.ran ++ [(.job j, (c.runJob genv renv net j).1)] := by
  simp [Comm.runJob, Comm.record]

theorem Comm.runJob_nranks (c : Comm) (j : Job) :
    (c.runJob genv renv net j).2.nranks = c.nranks := by
  simp [Comm.runJob, Comm.record]

/-- Point-to-point operations are queued on communicators that have a transport. -/
def Carried (c : Comm) (q : List Work) : Prop := ∀ op, Work.p2p op ∈ q → c.hasTransport

theorem runLoop_executes (fuel : Nat) (q : List Work) (c : Comm) (hf : q.length ≤ fuel)
    (hq : Carried c q) :
    Executes c q (runLoop genv renv net fuel q c).1 (runLoop genv renv net fuel q c).2 := by
  induction fuel generalizing q c with
  | zero =>
    obtain rfl := List.length_eq_zero_iff.mp (Nat.le_zero.mp hf)
    exact .nil c
  | succ fuel ih =>
    cases q with
    | nil => exact .nil c
    | cons w q =>
      cases w with
      | job j =>
        have hran : (c.runJob genv renv net j).2.ran =
            c.ran ++ [(.job j, (c.runJob genv renv net j).1)] := c.runJob_ran j
        have hn : (c.runJob genv renv net j).2.nranks = c.nranks := c.runJob_nranks j
        by_cases hres : (c.runJob genv renv net j).1 = .success
        · have hloop : runLoop genv renv net (fuel + 1) (.job j :: q) c =
              runLoop genv renv net fuel q (c.runJob genv renv net j).2 := by
            simp [runLoop, hres]
          rw [hloop]
          refine .cons (e := .job j) rfl (by rw [hran, hres]) (ih q _ ?_ ?_)
          · simpa using hf
          · intro op hop
            have := hq op (List.mem_cons_of_mem _ hop)
            rwa [Comm.hasTransport, hn]
        · have hloop : runLoop genv renv net (fuel + 1) (.job j :: q) c =
              ((c.runJob genv renv net j).1,
                (c.runJob genv renv net j).2.noteError (c.runJob genv renv net j).1) := by
            simp [runLoop, hres]
          rw [hloop]
          exact .fail (e := .job j) rfl hres (by rw [Comm.noteError_ran, hran])
      | p2p op =>
        have ht : c.hasTransport = true := hq op List.mem_cons_self
        have hu := units_p2p op q
        have hloop : runLoop genv renv net (fuel + 1) (.p2p op :: q) c =
            if net c.log.length ≠ .success then
              (net c.log.length, (c.batch net (op :: descriptors (q.takeWhile Work.isP2p))).2.noteError
                (net c.log.length))
            else runLoop genv renv net fuel (q.dropWhile Work.isP2p)
              (c.batch net (op :: descriptors (q.takeWhile Work.isP2p))).2 := by
          simp only [runLoop, ht, if_true]
          rfl
        rw [hloop]
        by_cases hres : net c.log.length = .success
        · rw [if_neg (by simpa using hres)]
          refine .cons hu (by simp [Comm.batch, Comm.record, hres]) (ih _ _ ?_ ?_)
          · have := (List.dropWhile_suffix (l := q) Work.isP2p).length_le
            simp only [List.length_cons] at hf
            omega
          · intro o ho
            exact ht
        · rw [if_pos hres]
          exact .fail hu hres (by simp [Comm.batch, Comm.record])

/-- **`runCommOps` executes a prefix of its queue**, each execution once, in order. -/
theorem runCommOps_executes {q : List Work} {c : Comm} (hq : Carried c q) :
    Executes c q (runCommOps genv renv net q c).1 (runCommOps genv renv net q c).2 :=
  runLoop_executes _ _ _ (Nat.le_refl _) hq

end Running

/-! ## The queue of a group -/

/-- A point-to-point operation that is accepted has a peer, so the communicator a transport. -/
theorem issueP2p_carried {c : Comm} {isSend : Bool} {buf : Option Ptr} {count : Nat}
    {dt : Option DataType} {peer : Int} {work : Work}
    (h : issueP2p c isSend buf count dt peer = .ok work) : c.hasTransport := by
  unfold issueP2p at h
  obtain ⟨_, -, h⟩ := bind_eq_ok h
  obtain ⟨p, -, h⟩ := bind_eq_ok h
  obtain ⟨t, -, h⟩ := bind_eq_ok h
  obtain ⟨k, hk, h⟩ := bind_eq_ok h
  obtain ⟨_, hne, -⟩ := bind_eq_ok h
  have hlt : k < c.nranks := by
    unfold rankArg at hk
    split at hk
    · cases hk
    · cases hk
      omega
  have hne : k ≠ c.rank := by
    intro heq
    simp [failIf, heq] at hne
  have := c.member
  simp only [Comm.hasTransport, gt_iff_lt, decide_eq_true_eq]
  omega

theorem issue_p2p_carried {arrays : Nat → Nat → Nat} {c : Comm} {o : DataOp} {op : P2pOp}
    (h : issue arrays c o = .ok (.p2p op)) : c.hasTransport := by
  cases o with
  | send buf count dt peer => exact issueP2p_carried h
  | recv buf count dt peer => exact issueP2p_carried h
  | allGather s d count dt =>
    obtain ⟨_, -, h⟩ := bind_eq_ok h
    cases h
  | allToAll s d count dt =>
    obtain ⟨_, -, h⟩ := bind_eq_ok h
    cases h
  | reduceScatter s d count dt op =>
    obtain ⟨_, -, h⟩ := bind_eq_ok h
    obtain ⟨_, -, h⟩ := bind_eq_ok h
    cases h
  | allReduce s d count dt op =>
    obtain ⟨_, -, h⟩ := bind_eq_ok h
    obtain ⟨_, -, h⟩ := bind_eq_ok h
    cases h
  | reduce s d count dt op root =>
    obtain ⟨_, -, h⟩ := bind_eq_ok h
    obtain ⟨_, -, h⟩ := bind_eq_ok h
    obtain ⟨_, -, h⟩ := bind_eq_ok h
    obtain ⟨_, -, h⟩ := bind_eq_ok h
    obtain ⟨_, -, h⟩ := bind_eq_ok h
    obtain ⟨_, -, h⟩ := bind_eq_ok h
    cases h
  | broadcast s d count dt root | bcast b count dt root | gather s d count dt root
  | scatter s d count dt root =>
    obtain ⟨_, -, h⟩ := bind_eq_ok h
    obtain ⟨_, -, h⟩ := bind_eq_ok h
    obtain ⟨_, -, h⟩ := bind_eq_ok h
    obtain ⟨_, -, h⟩ := bind_eq_ok h
    obtain ⟨_, -, h⟩ := bind_eq_ok h
    cases h
  | allToAllv s sc sd d rc rd dt =>
    obtain ⟨_, -, h⟩ := bind_eq_ok h
    obtain ⟨_, -, h⟩ := bind_eq_ok h
    obtain ⟨_, -, h⟩ := bind_eq_ok h
    obtain ⟨_, -, h⟩ := bind_eq_ok h
    obtain ⟨_, -, h⟩ := bind_eq_ok h
    cases h

/-- Nothing has been executed on the communicator. -/
structure Idle (c c' : Comm) : Prop where
  ran : c'.ran = c.ran
  log : c'.log = c.log
  nranks : c'.nranks = c.nranks

theorem Idle.refl (c : Comm) : Idle c c := ⟨rfl, rfl, rfl⟩

theorem Idle.trans {a b c : Comm} (h : Idle a b) (k : Idle b c) : Idle a c :=
  ⟨k.ran.trans h.ran, k.log.trans h.log, k.nranks.trans h.nranks⟩

theorem idle_createPreMulSum (c : Comm) (value : Factor) : Idle c (c.createPreMulSum value).1 := by
  unfold Comm.createPreMulSum
  split <;> exact ⟨rfl, rfl, rfl⟩

theorem idle_redOpDestroy (c : Comm) (op : Int) : Idle c (c.redOpDestroy op).2 := by
  unfold Comm.redOpDestroy
  split
  · exact .refl c
  · split
    · split
      · exact ⟨rfl, rfl, rfl⟩
      · exact .refl c
    · exact .refl c

theorem idle_setComm {w : Caller} {c : Nat} {x : Comm} (h : Idle (w.comm c) x) (d : Nat) :
    Idle (w.comm d) ((w.setComm c x).comm d) := by
  by_cases hd : d = c
  · subst hd
    simpa [Caller.setComm] using h
  · simpa [Caller.setComm, hd] using Idle.refl (w.comm d)

/-- Every queued point-to-point operation is on a communicator with a transport. -/
def AllCarried (comm : Nat → Comm) (ops : List QueuedOp) : Prop :=
  ∀ q ∈ ops, ∀ op, q.work = .p2p op → (comm q.comm).hasTransport

theorem AllCarried.idle {comm comm' : Nat → Comm} {ops : List QueuedOp} (h : AllCarried comm ops)
    (hi : ∀ c, Idle (comm c) (comm' c)) : AllCarried comm' ops := by
  intro q hq op hop
  rw [Comm.hasTransport, (hi q.comm).nranks]
  exact h q hq op hop

theorem AllCarried.onComm {comm : Nat → Comm} {ops : List QueuedOp} (h : AllCarried comm ops)
    (c : Nat) : Carried (comm c) (onComm c ops) := by
  intro op hop
  obtain ⟨q, hq, hw⟩ := List.mem_map.mp hop
  obtain ⟨hmem, hc⟩ := List.mem_filter.mp hq
  have hc : q.comm = c := by simpa using hc
  rw [← hc]
  exact h q hmem op hw

theorem mem_commOrder {ops : List QueuedOp} {c : Nat} :
    c ∈ commOrder ops ↔ c ∈ ops.map QueuedOp.comm := by
  suffices h : ∀ acc : List Nat, c ∈ ops.foldl
      (fun order op => if op.comm ∈ order then order else order ++ [op.comm]) acc ↔
      c ∈ acc ∨ c ∈ ops.map QueuedOp.comm by
    simpa [commOrder] using h []
  induction ops with
  | nil => simp
  | cons q ops ih =>
    intro acc
    rw [List.foldl_cons, ih]
    by_cases hq : q.comm ∈ acc
    · rw [if_pos hq]
      constructor
      · rintro (h | h)
        · exact Or.inl h
        · exact Or.inr (List.mem_cons_of_mem _ h)
      · rintro (h | h)
        · exact Or.inl h
        · rcases List.mem_cons.mp h with rfl | h
          · exact Or.inl hq
          · exact Or.inr h
    · rw [if_neg hq]
      simp [or_assoc]

/-- The first communicator with a property is that of the first operation with it. -/
theorem find?_commOrder (ops : List QueuedOp) (p : Nat → Bool) :
    (commOrder ops).find? p = (ops.map QueuedOp.comm).find? p := by
  suffices h : ∀ acc : List Nat, (ops.foldl
      (fun order op => if op.comm ∈ order then order else order ++ [op.comm]) acc).find? p =
      (acc ++ ops.map QueuedOp.comm).find? p by
    simpa [commOrder] using h []
  induction ops with
  | nil => simp
  | cons q ops ih =>
    intro acc
    rw [List.foldl_cons, ih]
    by_cases hq : q.comm ∈ acc
    · -- a communicator seen before decides nothing
      rw [if_pos hq, List.find?_append, List.find?_append, List.map_cons, List.find?_cons]
      cases hp : p q.comm with
      | false => rfl
      | true =>
        have hsome : (acc.find? p).isSome := List.find?_isSome.mpr ⟨q.comm, hq, hp⟩
        obtain ⟨x, hx⟩ := Option.isSome_iff_exists.mp hsome
        rw [hx]
        rfl
    · rw [if_neg hq, List.append_assoc]
      rfl

section Interface

variable {genv renv : AlgoEnv} {net : Nat → Nat → Result}

theorem runCommOps_nil (c : Comm) (net : Nat → Result) :
    runCommOps genv renv net [] c = (.success, c) := rfl

theorem onComm_eq_nil {ops : List QueuedOp} {c : Nat} (h : c ∉ ops.map QueuedOp.comm) :
    onComm c ops = [] := by
  have : ops.filter (fun op => op.comm = c) = [] := by
    rw [List.filter_eq_nil_iff]
    intro q hq
    simp only [decide_eq_true_eq]
    exact fun hc => h (List.mem_map.mpr ⟨q, hq, hc⟩)
  rw [onComm, this]
  rfl

/-- Every communicator ends as its own part of the queue, run by itself, leaves it. -/
theorem flushGroup_comm (ops : List QueuedOp) (comm : Nat → Comm) (c : Nat) :
    (flushGroup genv renv net ops comm).2 c =
      (runCommOps genv renv (net c) (onComm c ops) (comm c)).2 := by
  have hall : (if c ∈ commOrder ops then
      (runCommOps genv renv (net c) (onComm c ops) (comm c)).2 else comm c) =
      (runCommOps genv renv (net c) (onComm c ops) (comm c)).2 := by
    by_cases hc : c ∈ commOrder ops
    · rw [if_pos hc]
    · rw [if_neg hc, onComm_eq_nil (fun h => hc (mem_commOrder.mpr h)), runCommOps_nil]
  unfold flushGroup
  cases horder : commOrder ops with
  | nil =>
    rw [horder, if_neg List.not_mem_nil] at hall
    exact hall
  | cons d ds =>
    rw [horder] at hall
    cases ds with
    | nil => exact hall
    | cons e es => exact hall

/-- The result is that of the first-issued communicator that failed. -/
theorem flushGroup_result (ops : List QueuedOp) (comm : Nat → Comm) :
    (flushGroup genv renv net ops comm).1 =
      ((ops.map fun q => (runCommOps genv renv (net q.comm) (onComm q.comm ops)
        (comm q.comm)).1).find? (· ≠ .success)).getD .success := by
  have hfind : ((ops.map fun q => (runCommOps genv renv (net q.comm) (onComm q.comm ops)
      (comm q.comm)).1).find? (· ≠ .success)) =
      (((commOrder ops).map fun c => (runCommOps genv renv (net c) (onComm c ops)
        (comm c)).1).find? (· ≠ .success)) := by
    have hmap : (ops.map fun q => (runCommOps genv renv (net q.comm) (onComm q.comm ops)
        (comm q.comm)).1) = (ops.map QueuedOp.comm).map fun c =>
          (runCommOps genv renv (net c) (onComm c ops) (comm c)).1 := by
      rw [List.map_map]
      rfl
    rw [hmap, List.find?_map (l := ops.map QueuedOp.comm), List.find?_map (l := commOrder ops),
      find?_commOrder]
  rw [hfind]
  unfold flushGroup
  cases horder : commOrder ops with
  | nil => rfl
  | cons d ds =>
    cases ds with
    | nil =>
      simp only [List.map_cons, List.map_nil, List.find?_cons, List.find?_nil]
      cases hres : (runCommOps genv renv (net d) (onComm d ops) (comm d)).1 <;> rfl
    | cons e es => rfl

/-- What a call inside a group does: it queues what it accepts, and executes nothing. -/
theorem step_inside {w : Caller} {a : Api} (h : 0 < w.depth)
    (h' : 0 < (w.step genv renv net a).2.depth) :
    (w.step genv renv net a).2.ops = w.ops ++ accepts w a ∧
      ∀ c, Idle (w.comm c) ((w.step genv renv net a).2.comm c) := by
  cases a with
  | groupStart => exact ⟨(List.append_nil _).symm, fun c => .refl _⟩
  | groupEnd =>
    simp only [Caller.step, if_neg (Nat.pos_iff_ne_zero.mp h)] at h' ⊢
    split at h'
    · rename_i hd
      rw [if_pos hd]
      exact ⟨(List.append_nil _).symm, fun c => .refl _⟩
    · exact absurd h' (Nat.lt_irrefl 0)
  | op c o =>
    simp only [Caller.step, accepts]
    cases hi : issue w.arrays (w.comm c) o with
    | error res => exact ⟨(List.append_nil _).symm, fun c => .refl _⟩
    | ok work =>
      simp only [if_neg (Nat.pos_iff_ne_zero.mp h)]
      exact ⟨trivial, fun c => .refl _⟩
  | createPreMulSum c value =>
    exact ⟨(List.append_nil _).symm, idle_setComm (idle_createPreMulSum _ _)⟩
  | redOpDestroy c op => exact ⟨(List.append_nil _).symm, idle_setComm (idle_redOpDestroy _ _)⟩
  | setArray a values => exact ⟨(List.append_nil _).symm, fun c => .refl _⟩

theorem Inside.pos {w : Caller} {calls : List Api} (h : Inside genv renv net w calls) :
    0 < w.depth := by
  cases calls with
  | nil => exact h
  | cons a calls => exact h.1

/-- A list of calls inside a group queues what it accepts, and executes nothing. -/
theorem after_inside {w : Caller} {calls : List Api} (h : Inside genv renv net w calls) :
    (w.after genv renv net calls).ops = w.ops ++ accepted genv renv net w calls ∧
      ∀ c, Idle (w.comm c) ((w.after genv renv net calls).comm c) := by
  induction calls generalizing w with
  | nil => exact ⟨(List.append_nil _).symm, fun c => .refl _⟩
  | cons a calls ih =>
    obtain ⟨hops, hidle⟩ := step_inside h.1 h.2.pos
    obtain ⟨ihops, ihidle⟩ := ih h.2
    refine ⟨?_, fun c => (hidle c).trans (ihidle c)⟩
    show ((w.step genv renv net a).2.after genv renv net calls).ops = _
    rw [ihops, hops, List.append_assoc]
    rfl

theorem Inside.take {w : Caller} {calls : List Api} (h : Inside genv renv net w calls) (k : Nat) :
    Inside genv renv net w (calls.take k) := by
  induction calls generalizing w k with
  | nil => simpa using h
  | cons a calls ih =>
    cases k with
    | zero => exact h.1
    | succ k => exact ⟨h.1, ih h.2 k⟩

theorem accepted_carried {w : Caller} {calls : List Api} (h : Inside genv renv net w calls) :
    AllCarried w.comm (accepted genv renv net w calls) := by
  induction calls generalizing w with
  | nil => exact fun q hq => absurd hq List.not_mem_nil
  | cons a calls ih =>
    obtain ⟨-, hidle⟩ := step_inside h.1 h.2.pos
    intro q hq op hop
    rcases List.mem_append.mp hq with hq | hq
    · cases a with
      | op c o =>
        simp only [accepts] at hq
        cases hi : issue w.arrays (w.comm c) o with
        | error res => simp [hi] at hq
        | ok work =>
          simp only [hi, List.mem_singleton] at hq
          subst hq
          simp only at hop
          subst hop
          exact issue_p2p_carried hi
      | _ => exact absurd hq List.not_mem_nil
    · have := ih h.2 q hq op hop
      rwa [Comm.hasTransport, (hidle q.comm).nranks] at this

end Interface

/-! ## Group semantics -/

/-- The state a thread is in after some calls from its start. -/
def Caller.Reached (genv renv : AlgoEnv) (net : Nat → Nat → Result) (w : Caller) : Prop :=
  ∃ comm arrays calls, w = (Caller.start comm arrays).after genv renv net calls

section Interface

variable {genv renv : AlgoEnv} {net : Nat → Nat → Result}

/-- Outside a group nothing is queued. -/
theorem step_unqueued {w : Caller} (h : w.depth = 0 → w.ops = []) (a : Api) :
    (w.step genv renv net a).2.depth = 0 → (w.step genv renv net a).2.ops = [] := by
  cases a with
  | groupStart => exact fun h => absurd h (Nat.succ_ne_zero _)
  | groupEnd =>
    simp only [Caller.step]
    split
    · exact h
    · split
      · exact fun h0 => absurd h0 (by simp only; omega)
      · exact fun _ => rfl
  | op c o =>
    simp only [Caller.step]
    split
    · exact h
    · split
      · exact h
      · rename_i hd
        exact fun h0 => absurd h0 hd
  | createPreMulSum c value => exact h
  | redOpDestroy c op => exact h
  | setArray a values => exact h

theorem Caller.Reached.unqueued {w : Caller} (h : w.Reached genv renv net) :
    w.depth = 0 → w.ops = [] := by
  obtain ⟨comm, arrays, calls, rfl⟩ := h
  suffices hs : ∀ (w : Caller), (w.depth = 0 → w.ops = []) →
      (w.after genv renv net calls).depth = 0 → (w.after genv renv net calls).ops = [] from
    hs _ fun _ => rfl
  induction calls with
  | nil => exact fun w h => h
  | cons a calls ih => exact fun w h => ih _ (step_unqueued h a)

end Interface

/-- What the outermost `vcclGroupEnd` does with the queue `q`: it was called in `w`, returned `res`
and left `w'`. -/
structure Flushes (genv renv : AlgoEnv) (net : Nat → Nat → Result) (w : Caller) (q : List QueuedOp)
    (res : Result) (w' : Caller) : Prop where
  /-- The executions are the operations of the communicator, runs of point-to-point operations made
  batches. -/
  runs : ∀ c, Runs (units (onComm c q)) (onComm c q)
  /-- A prefix of them is executed, all unless its last fails. -/
  executes : ∀ c, Executes (w.comm c) (onComm c q)
    (runCommOps genv renv (net c) (onComm c q) (w.comm c)).1 (w'.comm c)
  /-- A communicator ends as it would if the queue held its operations only. -/
  alone : ∀ c, w'.comm c = (runCommOps genv renv (net c) (onComm c q) (w.comm c)).2
  /-- The result is that of the communicator issued first among those that failed. -/
  result : res = ((q.map fun x => (runCommOps genv renv (net x.comm) (onComm x.comm q)
    (w.comm x.comm)).1).find? (· ≠ .success)).getD .success
  depth : w'.depth = 0
  empty : w'.ops = []

/-- **Group semantics.** From any state of a thread outside a group, whatever it calls after
`vcclGroupStart` without ending the group: nothing is executed, and the queue is what was accepted,
in issue order, with the arguments of the time of issue. The `vcclGroupEnd` that ends the group
executes that queue, communicator by communicator, and leaves no group and no queue. -/
theorem group_runs_queue (genv renv : AlgoEnv) (net : Nat → Nat → Result) (w : Caller)
    (hw : w.Reached genv renv net) (h0 : w.depth = 0) (body : List Api)
    (hin : Inside genv renv net (w.step genv renv net .groupStart).2 body) :
    (∀ k c, (((w.step genv renv net .groupStart).2.after genv renv net (body.take k)).comm c).ran =
        (w.comm c).ran ∧
      (((w.step genv renv net .groupStart).2.after genv renv net (body.take k)).comm c).log =
        (w.comm c).log) ∧
    (((w.step genv renv net .groupStart).2.after genv renv net body).depth = 1 →
      Flushes genv renv net ((w.step genv renv net .groupStart).2.after genv renv net body)
        (accepted genv renv net (w.step genv renv net .groupStart).2 body)
        (((w.step genv renv net .groupStart).2.after genv renv net body).step genv renv net
          .groupEnd).1
        (((w.step genv renv net .groupStart).2.after genv renv net body).step genv renv net
          .groupEnd).2) := by
  have hstart : (w.step genv renv net .groupStart).2.ops = [] := hw.unqueued h0
  have hcomm : (w.step genv renv net .groupStart).2.comm = w.comm := rfl
  refine ⟨fun k c => ?_, fun hd => ?_⟩
  · have hidle := (after_inside (hin.take k)).2 c
    rw [hcomm] at hidle
    exact ⟨hidle.ran, hidle.log⟩
  · have hcar := accepted_carried hin
    obtain ⟨hops, hidle⟩ := after_inside hin
    rw [hstart, List.nil_append] at hops
    generalize (w.step genv renv net .groupStart).2.after genv renv net body = w2 at *
    generalize accepted genv renv net (w.step genv renv net .groupStart).2 body = q at *
    have hcar2 : AllCarried w2.comm q := hcar.idle hidle
    have hend : w2.step genv renv net .groupEnd =
        ((flushGroup genv renv net q w2.comm).1,
          { w2 with depth := 0, ops := [], comm := (flushGroup genv renv net q w2.comm).2 }) := by
      simp [Caller.step, hd, hops]
    rw [hend]
    refine ⟨fun c => runs_units _, fun c => ?_, fun c => flushGroup_comm q w2.comm c,
      flushGroup_result q w2.comm, rfl, rfl⟩
    show Executes _ _ _ ((flushGroup genv renv net q w2.comm).2 c)
    rw [flushGroup_comm q w2.comm c]
    exact runCommOps_executes (hcar2.onComm c)

/-- A send and a receive with rank 1, in one group of rank 0. -/
def exchangePair : List Api :=
  [.op 0 (.send (some ⟨.user 0, 0⟩) 4 (some .float32) 1),
   .op 0 (.recv (some ⟨.user 1, 0⟩) 4 (some .float32) 1)]

/-- Rank 0 of a communicator of two ranks. -/
def pairCaller : Caller :=
  Caller.start (fun _ => Comm.init 0 2 (by decide)) fun _ _ => 0

theorem group_runs_queue_pair :
    Flushes ⟨none, none⟩ ⟨none, none⟩ (fun _ _ => .success)
      ((pairCaller.step ⟨none, none⟩ ⟨none, none⟩ (fun _ _ => .success) .groupStart).2.after
        ⟨none, none⟩ ⟨none, none⟩ (fun _ _ => .success) exchangePair)
      [⟨0, .p2p ⟨true, 1, ⟨.user 0, 0⟩, 16⟩⟩, ⟨0, .p2p ⟨false, 1, ⟨.user 1, 0⟩, 16⟩⟩]
      .success
      (((pairCaller.step ⟨none, none⟩ ⟨none, none⟩ (fun _ _ => .success) .groupStart).2.after
        ⟨none, none⟩ ⟨none, none⟩ (fun _ _ => .success) exchangePair).step
        ⟨none, none⟩ ⟨none, none⟩ (fun _ _ => .success) .groupEnd).2 :=
  (group_runs_queue ⟨none, none⟩ ⟨none, none⟩ (fun _ _ => .success) pairCaller ⟨_, _, [], rfl⟩ rfl
    exchangePair ⟨Nat.one_pos, Nat.one_pos, Nat.one_pos⟩).2 rfl

end Vccl
