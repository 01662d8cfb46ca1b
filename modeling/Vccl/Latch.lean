import Vccl.Group
import Vccl.Net.Stream

/-!
# Failures of the transport latch the communicator (`noteError`, `checkComm`)

`noteError` keeps the first error in `asyncError` and, on the codes a broken transport returns, sets
`aborted`, on which `checkComm` turns every later data operation away. The verbs transport relies on
it: what a failed operation leaves posted on a queue pair is never met again (`discardPending`).

Closures note their result themselves (`runOp`), and `runCommOps` notes that of a batch.
`enqueueOrRunP2p` returns the result of an immediate `send` or `recv` and notes nothing: after such
a failure the communicator takes operations as before.

Threads share the communicators and have each their own group (`Threads`). A run is any list of calls
by any threads.

* `Failed`: a transport call whose result the operation checks has returned a fatal code.
* `Latched`: if so, the communicator is aborted and shows an error.
* `Steady`: what every step keeps, that of an immediate `send` or `recv` included.
* `Unharmed`: the step is not an immediate `send` or `recv` whose transport call fails fatally.
-/

namespace Vccl

/-! ## Threads -/

/-- The threads of a process: each has its own group, the communicators are shared. -/
structure Threads where
  depth : Nat → Nat
  ops : Nat → List QueuedOp
  comm : Nat → Comm
  arrays : Nat → Nat → Nat

/-- What thread `t` sees. -/
def Threads.view (p : Threads) (t : Nat) : Caller := ⟨p.depth t, p.ops t, p.comm, p.arrays⟩

/-- The process after thread `t` has come to `w`. -/
def Threads.put (p : Threads) (t : Nat) (w : Caller) : Threads :=
  ⟨Function.update p.depth t w.depth, Function.update p.ops t w.ops, w.comm, w.arrays⟩

section Processes

variable (genv renv : AlgoEnv) (net : Nat → Nat → Result)

/-- A call by thread `t`. -/
def Threads.step (p : Threads) (t : Nat) (a : Api) : Result × Threads :=
  let (res, w) := (p.view t).step genv renv net a
  (res, p.put t w)

/-- The process after a list of calls. -/
def Threads.after (p : Threads) (calls : List (Nat × Api)) : Threads :=
  calls.foldl (fun p e => (p.step genv renv net e.1 e.2).2) p

/-- New communicators, no group. -/
def Threads.start (rank nranks : Nat → Nat) (h : ∀ c, rank c < nranks c) (arrays : Nat → Nat → Nat) :
    Threads :=
  ⟨fun _ => 0, fun _ => [], fun c => Comm.init (rank c) (nranks c) (h c), arrays⟩

/-- The call is no immediate `send` or `recv` whose transport call returns a fatal code. -/
def Unharmed (p : Threads) (t : Nat) : Api → Prop
  | .op c o => ∀ op, p.depth t = 0 → issue p.arrays (p.comm c) o = .ok (.p2p op) →
      (net c (p.comm c).log.length).fatal = false
  | _ => True

/-- Every call of the run is `Unharmed` where it is made. -/
def AllUnharmed : Threads → List (Nat × Api) → Prop
  | _, [] => True
  | p, e :: calls => Unharmed net p e.1 e.2 ∧ AllUnharmed (p.step genv renv net e.1 e.2).2 calls

end Processes

/-! ## What one communicator keeps -/

/-- The result of the transport call is checked. -/
def Touch.checked : Touch → Bool
  | .call c => c.checked
  | _ => true

/-- An operation has failed because a transport call returned a fatal code. -/
def Failed (net : Nat → Result) (c : Comm) : Prop :=
  ∃ i t, c.log[i]? = some t ∧ t.checked = true ∧ (net i).fatal = true

/-- A failure has aborted the communicator, which shows an error. -/
def Latched (net : Nat → Result) (c : Comm) : Prop :=
  Failed net c → c.aborted = true ∧ c.asyncError ≠ .success

/-- The communicator stays aborted, and keeps the first error it shows. -/
structure Steady (c c' : Comm) : Prop where
  aborted : c.aborted = true → c'.aborted = true
  error : c.asyncError ≠ .success → c'.asyncError = c.asyncError

theorem Steady.refl (c : Comm) : Steady c c := ⟨id, fun _ => rfl⟩

theorem Steady.trans {a b c : Comm} (h : Steady a b) (k : Steady b c) : Steady a c := by
  refine ⟨fun ha => k.aborted (h.aborted ha), fun ha => ?_⟩
  have hb := h.error ha
  rw [k.error (by rwa [hb]), hb]

theorem steady_noteError (c : Comm) (res : Result) : Steady c (c.noteError res) := by
  by_cases h0 : res = .success
  · rw [Comm.noteError, if_pos h0]
    exact .refl c
  · constructor
    · intro ha
      simp only [Comm.noteError, if_neg h0]
      split <;> split <;> first | rfl | exact ha
    · intro he
      simp only [Comm.noteError, if_neg h0, if_neg he]
      split <;> rfl

/-- A fatal code aborts the communicator and shows. -/
theorem noteError_fatal {res : Result} (c : Comm) (h : res.fatal = true) :
    (c.noteError res).aborted = true ∧ (c.noteError res).asyncError ≠ .success := by
  have h0 := Result.fatal_ne_success h
  simp only [Comm.noteError, if_neg h0, if_pos h]
  by_cases he : c.asyncError = .success
  · rw [if_pos he]
    exact ⟨trivial, h0⟩
  · rw [if_neg he]
    exact ⟨trivial, he⟩

/-- A failed transport call of the new history is one of the old, or has been noted. -/
theorem Latched.grow {net : Nat → Result} {c c' : Comm} (h : Latched net c) (hs : Steady c c')
    (hlog : ∀ i t, c'.log[i]? = some t → t.checked = true → (net i).fatal = true →
      c.log[i]? = some t ∨ (c'.aborted = true ∧ c'.asyncError ≠ .success)) : Latched net c' := by
  rintro ⟨i, t, hi, ht, hf⟩
  rcases hlog i t hi ht hf with hold | hnoted
  · obtain ⟨ha, he⟩ := h ⟨i, t, hold, ht, hf⟩
    exact ⟨hs.aborted ha, by rw [hs.error he]; exact he⟩
  · exact hnoted

/-- The result of a job is that of the first transport call that fails. -/
theorem runCalls_failed (net : Nat → Result) (calls : List Call) (log : List Touch) {i : Nat}
    {t : Touch} (hi : (runCalls net calls log).2[i]? = some t) (ht : t.checked = true)
    (hf : net i ≠ .success) : log[i]? = some t ∨ (runCalls net calls log).1 = net i := by
  induction calls generalizing log with
  | nil => exact Or.inl hi
  | cons c calls ih =>
    simp only [runCalls] at hi ⊢
    split at hi
    · rename_i htouch
      rw [if_pos htouch]
      split at hi
      · rename_i hstop
        rw [if_pos hstop]
        rcases Net.getElem?_snoc hi with h | ⟨rfl, -⟩
        · exact Or.inl h
        · exact Or.inr rfl
      · rename_i hgo
        rw [if_neg hgo]
        rcases ih _ hi with h | h
        · rcases Net.getElem?_snoc h with h | ⟨rfl, rfl⟩
          · exact Or.inl h
          · exact absurd ⟨ht, hf⟩ hgo
        · exact Or.inr h
    · rename_i htouch
      rw [if_neg htouch]
      exact ih _ hi

section Executions

variable {genv renv : AlgoEnv} {net : Nat → Result}

theorem steady_runJob (c : Comm) (j : Job) : Steady c (c.runJob genv renv net j).2 :=
  Steady.trans (b := c.record (.job j) (runCalls net (c.jobCalls genv renv j) c.log).1
    (runCalls net (c.jobCalls genv renv j) c.log).2) ⟨id, fun _ => rfl⟩ (steady_noteError _ _)

/-- A closure notes its own result. -/
theorem latched_runJob {c : Comm} (h : Latched net c) (j : Job) :
    Latched net (c.runJob genv renv net j).2 := by
  refine h.grow (steady_runJob c j) fun i t hi ht hf => ?_
  have hi : (runCalls net (c.jobCalls genv renv j) c.log).2[i]? = some t := by
    simpa [Comm.runJob, Comm.record] using hi
  rcases runCalls_failed net _ _ hi ht (Result.fatal_ne_success hf) with hold | hres
  · exact Or.inl hold
  · exact Or.inr (noteError_fatal _ (by rw [hres]; exact hf))

theorem steady_batch (c : Comm) (run : List P2pOp) : Steady c (c.batch net run).2 :=
  ⟨id, fun _ => rfl⟩

/-- `runCommOps` notes the result of a batch. -/
theorem latched_batch_noted {c : Comm} (h : Latched net c) (run : List P2pOp) :
    Latched net ((c.batch net run).2.noteError (c.batch net run).1) := by
  refine h.grow ((steady_batch c run).trans (steady_noteError _ _)) fun i t hi ht hf => ?_
  have hi : (c.log ++ [Touch.batch run])[i]? = some t := by
    simpa [Comm.batch, Comm.record] using hi
  rcases Net.getElem?_snoc hi with hold | ⟨rfl, -⟩
  · exact Or.inl hold
  · exact Or.inr (noteError_fatal _ hf)

theorem latched_batch_ok {c : Comm} (h : Latched net c) (run : List P2pOp)
    (hres : net c.log.length = .success) : Latched net (c.batch net run).2 := by
  have := latched_batch_noted h run
  rwa [show (c.batch net run).1 = .success from hres, Comm.noteError, if_pos rfl] at this

theorem steady_single (c : Comm) (op : P2pOp) : Steady c (c.single net op).2 := ⟨id, fun _ => rfl⟩

/-- An immediate `send` or `recv` notes nothing, and needs to note nothing if it does not fail. -/
theorem latched_single {c : Comm} (h : Latched net c) (op : P2pOp)
    (hres : (net c.log.length).fatal = false) : Latched net (c.single net op).2 := by
  refine h.grow (steady_single c op) fun i t hi ht hf => ?_
  have hi : (c.log ++ [Touch.single op])[i]? = some t := hi
  rcases Net.getElem?_snoc hi with hold | ⟨rfl, -⟩
  · exact Or.inl hold
  · rw [hres] at hf
    cases hf

theorem runLoop_steady (fuel : Nat) (q : List Work) (c : Comm) :
    Steady c (runLoop genv renv net fuel q c).2 := by
  induction fuel generalizing q c with
  | zero => exact .refl c
  | succ fuel ih =>
    match q with
    | [] => exact .refl c
    | .job j :: q =>
      simp only [runLoop]
      split
      · exact (steady_runJob c j).trans (steady_noteError _ _)
      · exact (steady_runJob c j).trans (ih q _)
    | .p2p op :: q =>
      simp only [runLoop]
      split
      · split
        · exact (steady_batch c _).trans (steady_noteError _ _)
        · exact (steady_batch c _).trans (ih _ _)
      · exact .refl c

theorem runLoop_latched (fuel : Nat) (q : List Work) {c : Comm} (h : Latched net c) :
    Latched net (runLoop genv renv net fuel q c).2 := by
  induction fuel generalizing q c with
  | zero => exact h
  | succ fuel ih =>
    match q with
    | [] => exact h
    | .job j :: q =>
      have hjob : Latched net (c.runJob genv renv net j).2 := latched_runJob h j
      simp only [runLoop]
      split
      · exact hjob.grow (steady_noteError _ _) fun i t hi _ _ => Or.inl (by simpa using hi)
      · exact ih q hjob
    | .p2p op :: q =>
      simp only [runLoop]
      split
      · split
        · exact latched_batch_noted h _
        · rename_i hres
          exact ih _ (latched_batch_ok h _ (by simpa [Comm.batch] using hres))
      · exact h

end Executions

/-! ## What a call keeps -/

section Calls

variable {genv renv : AlgoEnv} {net : Nat → Nat → Result}

theorem setComm_comm (w : Caller) (c : Nat) (x : Comm) (d : Nat) :
    (w.setComm c x).comm d = if d = c then x else w.comm d := by
  simp [Caller.setComm, Function.update_apply]

theorem steady_createPreMulSum (c : Comm) (value : Factor) :
    Steady c (c.createPreMulSum value).1 := by
  unfold Comm.createPreMulSum
  split <;> exact ⟨id, fun _ => rfl⟩

theorem steady_redOpDestroy (c : Comm) (op : Int) : Steady c (c.redOpDestroy op).2 := by
  unfold Comm.redOpDestroy
  split
  · exact .refl c
  · split
    · split
      · exact ⟨id, fun _ => rfl⟩
      · exact .refl c
    · exact .refl c

theorem Latched.idle {net : Nat → Result} {c c' : Comm} (h : Latched net c) (hi : Idle c c')
    (hs : Steady c c') : Latched net c' :=
  h.grow hs fun i t hi' _ _ => Or.inl (by rwa [hi.log] at hi')

theorem step_steady (w : Caller) (a : Api) (d : Nat) :
    Steady (w.comm d) ((w.step genv renv net a).2.comm d) := by
  cases a with
  | groupStart => exact .refl _
  | groupEnd =>
    simp only [Caller.step]
    split
    · exact .refl _
    · split
      · exact .refl _
      · show Steady _ ((flushGroup genv renv net w.ops w.comm).2 d)
        rw [flushGroup_comm]
        exact runLoop_steady _ _ _
  | op c o =>
    simp only [Caller.step]
    split
    · exact .refl _
    · split
      · rename_i work _ _
        simp only [setComm_comm]
        split
        · rename_i hd
          subst hd
          cases work with
          | job j => exact steady_runJob _ j
          | p2p op =>
            simp only [runNow]
            split
            · exact steady_single _ op
            · exact .refl _
        · exact .refl _
      · exact .refl _
  | createPreMulSum c value =>
    simp only [Caller.step, setComm_comm]
    split
    · rename_i hd
      subst hd
      exact steady_createPreMulSum _ value
    · exact .refl _
  | redOpDestroy c op =>
    simp only [Caller.step, setComm_comm]
    split
    · rename_i hd
      subst hd
      exact steady_redOpDestroy _ op
    · exact .refl _
  | setArray a values => exact .refl _

/-- Every call that is not a failing immediate `send` or `recv` keeps all communicators latched. -/
theorem step_latched {p : Threads} {t : Nat} {a : Api} (hu : Unharmed net p t a) (d : Nat)
    (h : Latched (net d) (p.comm d)) :
    Latched (net d) (((p.view t).step genv renv net a).2.comm d) := by
  cases a with
  | groupStart => exact h
  | groupEnd =>
    simp only [Caller.step]
    split
    · exact h
    · split
      · exact h
      · show Latched _ ((flushGroup genv renv net (p.ops t) p.comm).2 d)
        rw [flushGroup_comm]
        exact runLoop_latched _ _ h
  | op c o =>
    simp only [Caller.step]
    split
    · exact h
    · rename_i work hi
      split
      · rename_i hdepth
        simp only [setComm_comm]
        split
        · rename_i hd
          subst hd
          cases work with
          | job j => exact latched_runJob h j
          | p2p op =>
            simp only [runNow]
            split
            · exact latched_single h op (hu op hdepth hi)
            · exact h
        · exact h
      · exact h
  | createPreMulSum c value =>
    simp only [Caller.step, setComm_comm]
    split
    · rename_i hd
      subst hd
      exact h.idle (idle_createPreMulSum _ value) (steady_createPreMulSum _ value)
    · exact h
  | redOpDestroy c op =>
    simp only [Caller.step, setComm_comm]
    split
    · rename_i hd
      subst hd
      exact h.idle (idle_redOpDestroy _ op) (steady_redOpDestroy _ op)
    · exact h
  | setArray a values => exact h

/-! ## Runs -/

theorem Threads.after_append (p : Threads) (calls calls' : List (Nat × Api)) :
    p.after genv renv net (calls ++ calls') =
      (p.after genv renv net calls).after genv renv net calls' := List.foldl_append

theorem after_steady (p : Threads) (calls : List (Nat × Api)) (c : Nat) :
    Steady (p.comm c) ((p.after genv renv net calls).comm c) := by
  induction calls generalizing p with
  | nil => exact .refl _
  | cons e calls ih =>
    exact (step_steady (p.view e.1) e.2 c).trans (ih (p.step genv renv net e.1 e.2).2)

theorem after_latched {p : Threads} {calls : List (Nat × Api)}
    (hu : AllUnharmed genv renv net p calls) (c : Nat) (h : Latched (net c) (p.comm c)) :
    Latched (net c) ((p.after genv renv net calls).comm c) := by
  induction calls generalizing p with
  | nil => exact h
  | cons e calls ih => exact ih hu.2 (step_latched hu.1 c h)

/-- An operation on an aborted communicator is turned away, whoever issues it and wherever. -/
theorem step_op_aborted {p : Threads} {c : Nat} (h : (p.comm c).aborted = true) (t : Nat)
    (o : DataOp) : p.step genv renv net t (.op c o) = (.invalidUsage, p.put t (p.view t)) := by
  have hi : issue (p.view t).arrays ((p.view t).comm c) o = .error .invalidUsage :=
    issue_aborted h o
  simp only [Threads.step, Caller.step, hi]

/-- **A transport-fatal failure latches the communicator**, in every run without a failing immediate
`send` or `recv`: once a transport call has returned a fatal code, `asyncError` is an error and
stays what it is, and every data operation issued from then on returns `vcclInvalidUsage`, makes no
transport call and queues nothing. -/
theorem fatal_failure_latches (genv renv : AlgoEnv) (net : Nat → Nat → Result)
    (rank nranks : Nat → Nat) (hrank : ∀ c, rank c < nranks c) (arrays : Nat → Nat → Nat)
    (calls later : List (Nat × Api))
    (hu : AllUnharmed genv renv net (Threads.start rank nranks hrank arrays) calls) (c : Nat)
    (hf : Failed (net c)
      (((Threads.start rank nranks hrank arrays).after genv renv net calls).comm c)) :
    (((Threads.start rank nranks hrank arrays).after genv renv net calls).comm c).asyncError ≠
        .success ∧
    (((Threads.start rank nranks hrank arrays).after genv renv net (calls ++ later)).comm
        c).asyncError =
      (((Threads.start rank nranks hrank arrays).after genv renv net calls).comm c).asyncError ∧
    ∀ t o,
      (((Threads.start rank nranks hrank arrays).after genv renv net (calls ++ later)).step genv renv
        net t (.op c o)).1 = .invalidUsage ∧
      (((Threads.start rank nranks hrank arrays).after genv renv net (calls ++ later)).step genv renv
        net t (.op c o)).2.comm =
        ((Threads.start rank nranks hrank arrays).after genv renv net (calls ++ later)).comm ∧
      (((Threads.start rank nranks hrank arrays).after genv renv net (calls ++ later)).step genv renv
        net t (.op c o)).2.ops =
        ((Threads.start rank nranks hrank arrays).after genv renv net (calls ++ later)).ops := by
  have hstart : Latched (net c) ((Threads.start rank nranks hrank arrays).comm c) := by
    rintro ⟨i, t, hi, -⟩
    simp [Threads.start, Comm.init] at hi
  obtain ⟨habort, herr⟩ := after_latched hu c hstart hf
  have hsteady : Steady (((Threads.start rank nranks hrank arrays).after genv renv net calls).comm c)
      ((((Threads.start rank nranks hrank arrays).after genv renv net calls).after genv renv net
        later).comm c) := after_steady _ later c
  rw [Threads.after_append]
  refine ⟨herr, hsteady.error herr, fun t o => ?_⟩
  rw [step_op_aborted (hsteady.aborted habort)]
  exact ⟨rfl, rfl, Function.update_eq_self _ _⟩

end Calls

/-! ## Two ranks, a broken transport -/

/-- Rank 0 of a communicator of two ranks. -/
def pairThreads : Threads := Threads.start (fun _ => 0) (fun _ => 2) (fun _ => by decide) fun _ _ => 0

/-- A send of four floats to rank 1. -/
def sendFour : Api := .op 0 (.send (some ⟨.user 0, 0⟩) 4 (some .float32) 1)

theorem fatal_failure_latches_batch :
    ((pairThreads.after ⟨none, none⟩ ⟨none, none⟩ (fun _ _ => .systemError)
      ([(0, .groupStart), (0, sendFour), (0, .groupEnd)] ++ [])).step ⟨none, none⟩ ⟨none, none⟩
      (fun _ _ => .systemError) 1
      (.op 0 (.allReduce (some ⟨.user 0, 0⟩) (some ⟨.user 0, 0⟩) 4 (some .float32) 0))).1 =
      .invalidUsage :=
  ((fatal_failure_latches ⟨none, none⟩ ⟨none, none⟩ (fun _ _ => .systemError) (fun _ => 0)
    (fun _ => 2) (fun _ => by decide) (fun _ _ => 0)
    [(0, .groupStart), (0, sendFour), (0, .groupEnd)] []
    ⟨trivial, fun _ h => absurd h (by decide), trivial, trivial⟩ 0
    ⟨0, .batch [⟨true, 1, ⟨.user 0, 0⟩, 16⟩], rfl, rfl, rfl⟩).2.2 1 _).1

/-- **An immediate `send` that fails latches nothing**: its transport call has returned
`vcclSystemError`, the communicator shows no error, and the next `send` reaches the transport. -/
theorem immediate_send_unlatched :
    Failed (fun _ => .systemError) ((pairThreads.after ⟨none, none⟩ ⟨none, none⟩
      (fun _ _ => .systemError) [(0, sendFour)]).comm 0) ∧
    ((pairThreads.after ⟨none, none⟩ ⟨none, none⟩ (fun _ _ => .systemError)
      [(0, sendFour)]).comm 0).asyncError = .success ∧
    ((pairThreads.after ⟨none, none⟩ ⟨none, none⟩ (fun _ _ => .systemError)
      [(0, sendFour)]).step ⟨none, none⟩ ⟨none, none⟩ (fun _ _ => .systemError) 0 sendFour).1 =
      .systemError ∧
    (((pairThreads.after ⟨none, none⟩ ⟨none, none⟩ (fun _ _ => .systemError)
      [(0, sendFour)]).step ⟨none, none⟩ ⟨none, none⟩ (fun _ _ => .systemError) 0
      sendFour).2.comm 0).log.length = 2 :=
  ⟨⟨0, .single ⟨true, 1, ⟨.user 0, 0⟩, 16⟩, rfl, rfl, rfl⟩, rfl, rfl, rfl⟩

end Vccl
