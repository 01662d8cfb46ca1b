import Vccl.Group

/-!
# PreMulSum operations as a handle table (`vcclRedOpCreatePreMulSum`, `vcclRedOpDestroy`, `resolveOp`)

An operation's code is five more than its slot in `customOps`. A slot is freed by
`vcclRedOpDestroy` and taken again by a later creation, and a reduction that was issued in a group
runs after either.

`OpTable` is what the codes mean to a caller: the scalar of the latest successful creation that
returned a code, until a destruction of that code succeeds. It follows the calls and their replies
alone. `TableRun` is a history of calls with the table of every communicator and the reductions
accepted so far, each with what its code meant when it was issued. `customOps` is the table at every
moment (`Agrees.table`), and a reduction that is queued or was executed carries what its code meant
when it was issued (`Agrees.queued`, `Agrees.ran`).
-/

namespace Vccl

/-! ## The calls -/

/-- `vcclRedOpCreatePreMulSum`. `out` says whether `op` is a valid pointer, `scalar` is the value
behind the pointer of that name, and `residence` is 1 for `vcclScalarHostImmediate`. -/
def Comm.redOpCreatePreMulSum (c : Comm) (out : Bool) (scalar : Option Factor)
    (datatype : Option DataType) (residence : Int) : Result × Option Int × Comm :=
  match scalar with
  | none => (.invalidArgument, none, c)
  | some value =>
    if out = false ∨ residence ≠ 1 then (.invalidArgument, none, c)
    else match datatype with
      | none => (.invalidArgument, none, c)
      | some dt =>
        if isFloatType dt then
          (.success, some (c.createPreMulSum value).2, (c.createPreMulSum value).1)
        else (.invalidArgument, none, c)

/-- What a thread calls. -/
inductive TableCall where
  | create (c : Nat) (out : Bool) (scalar : Option Factor) (datatype : Option DataType)
      (residence : Int)
  | destroy (c : Nat) (op : Int)
  | op (c : Nat) (o : DataOp)
  | groupStart
  | groupEnd
  | setArray (a : Nat) (values : Nat → Nat)

section Calls

variable (genv renv : AlgoEnv) (net : Nat → Nat → Result)

/-- One call: its result, the code of a new operation, and the world after it. -/
def Caller.reply (w : Caller) : TableCall → Result × Option Int × Caller
  | .create c out scalar datatype residence =>
    let (res, id, x) := (w.comm c).redOpCreatePreMulSum out scalar datatype residence
    (res, id, w.setComm c x)
  | .destroy c op =>
    let (res, w') := w.step genv renv net (.redOpDestroy c op)
    (res, none, w')
  | .op c o =>
    let (res, w') := w.step genv renv net (.op c o)
    (res, none, w')
  | .groupStart => (.success, none, (w.step genv renv net .groupStart).2)
  | .groupEnd =>
    let (res, w') := w.step genv renv net .groupEnd
    (res, none, w')
  | .setArray a values => (.success, none, (w.step genv renv net (.setArray a values)).2)

end Calls

/-! ## The table -/

/-- What the codes of a communicator mean: the scalar of a live operation. -/
abbrev OpTable := Int → Option Factor

/-- The tables after a call, from its reply. -/
def tableAfter (table : Nat → OpTable) (res : Result) (id : Option Int) : TableCall → Nat → OpTable
  | .create c _ scalar _ _ =>
    match res, id with
    | .success, some id => Function.update table c (Function.update (table c) id scalar)
    | _, _ => table
  | .destroy c op =>
    match res with
    | .success => Function.update table c (Function.update (table c) op none)
    | _ => table
  | _ => table

/-- The code of a reduction. -/
def DataOp.redOp? : DataOp → Option Int
  | .reduceScatter _ _ _ _ op | .allReduce _ _ _ _ op | .reduce _ _ _ _ op _ => some op
  | _ => none

/-- The operation a reduction runs, and its scalar. -/
def Job.reduction : Job → Option (RedOp × Option Factor)
  | .reduceScatter _ _ _ _ op premul | .allReduce _ _ _ _ op premul | .reduce _ _ _ _ op premul _ =>
    some (op, premul)
  | _ => none

/-- A reduction that was accepted: its communicator, its code and what the code meant, and the
closure handed on. -/
structure Issued where
  comm : Nat
  op : Int
  held : Option Factor
  job : Job

/-- What a call adds to the accepted reductions. -/
def issuedBy (table : Nat → OpTable) (w : Caller) : TableCall → List Issued
  | .op c o =>
    match o.redOp?, issue w.arrays (w.comm c) o with
    | some op, .ok (.job j) => [⟨c, op, table c op, j⟩]
    | _, _ => []
  | _ => []

/-- What a code stands for: a built-in operation, or a sum of values scaled by `held`. -/
def meaning (op : Int) (held : Option Factor) : RedOp × Option Factor :=
  if op < 5 then (RedOp.ofCode op.toNat, none) else (.sum, held)

/-- A history of a thread on new communicators: the world, what the codes mean, and the reductions
accepted so far. -/
inductive TableRun (genv renv : AlgoEnv) (net : Nat → Nat → Result) :
    Caller → (Nat → OpTable) → List Issued → Prop
  | start (comm : Nat → Comm) (arrays : Nat → Nat → Nat)
      (hinit : ∀ c, ∃ rank nranks h, comm c = Comm.init rank nranks h) :
      TableRun genv renv net (Caller.start comm arrays) (fun _ _ => none) []
  | call {w : Caller} {table : Nat → OpTable} {log : List Issued} (a : TableCall)
      (h : TableRun genv renv net w table log) :
      TableRun genv renv net (w.reply genv renv net a).2.2
        (tableAfter table (w.reply genv renv net a).1 (w.reply genv renv net a).2.1 a)
        (log ++ issuedBy table w a)

/-! ## Slots -/

section Slots

variable {c : Comm}

/-- The slot that a creation takes is free, or the table grows by one. -/
theorem createPreMulSum_spec (c : Comm) (value : Factor) :
    5 ≤ (c.createPreMulSum value).2 ∧ c.premulScalar (c.createPreMulSum value).2 = none ∧
    ∀ k, (c.createPreMulSum value).1.premulScalar k =
      if k = (c.createPreMulSum value).2 then some value else c.premulScalar k := by
  unfold Comm.createPreMulSum
  cases hfind : c.customOps.findIdx? fun o => !o.active with
  | some i =>
    obtain ⟨hlt, hfree, -⟩ := List.findIdx?_eq_some_iff_getElem.mp hfind
    have hget := List.getElem?_eq_getElem hlt
    have hinactive : (c.customOps[i]).active = false := by simpa using hfree
    refine ⟨by simp, ?_, fun k => ?_⟩
    · unfold Comm.premulScalar
      rw [if_neg (by simp), show (5 + (i : Int) - 5).toNat = i by omega, hget]
      simp [hinactive]
    · unfold Comm.premulScalar
      by_cases hk5 : k < 5
      · rw [if_pos hk5, if_neg (by simp only; omega), if_pos hk5]
      rw [if_neg hk5, if_neg hk5]
      by_cases hk : k = 5 + (i : Int)
      · subst hk
        rw [if_pos rfl, show (5 + (i : Int) - 5).toNat = i by omega]
        simp [hlt]
      · have hne : (k - 5).toNat ≠ i := by omega
        rw [if_neg hk]
        simp only
        rw [List.getElem?_set_ne hne.symm]
  | none =>
    refine ⟨by simp, ?_, fun k => ?_⟩
    · unfold Comm.premulScalar
      rw [if_neg (by simp), show (5 + (c.customOps.length : Int) - 5).toNat = c.customOps.length by
        omega, List.getElem?_eq_none (Nat.le_refl _)]
    · unfold Comm.premulScalar
      by_cases hk5 : k < 5
      · rw [if_pos hk5, if_neg (by simp only; omega), if_pos hk5]
      rw [if_neg hk5, if_neg hk5]
      by_cases hk : k = 5 + (c.customOps.length : Int)
      · subst hk
        rw [if_pos rfl, show (5 + (c.customOps.length : Int) - 5).toNat = c.customOps.length by omega]
        simp
      · have hne : (k - 5).toNat ≠ c.customOps.length := by omega
        rw [if_neg hk]
        simp only
        rcases Nat.lt_or_ge (k - 5).toNat c.customOps.length with hlt | hge
        · rw [List.getElem?_append_left hlt]
        · rw [List.getElem?_eq_none hge, List.getElem?_eq_none]
          simp
          omega

/-- A destruction frees one slot, or fails and changes nothing. -/
theorem redOpDestroy_spec (c : Comm) (op : Int) :
    ((c.redOpDestroy op).1 = .success ∧ ∀ k, (c.redOpDestroy op).2.premulScalar k =
      if k = op then none else c.premulScalar k) ∨
    (c.redOpDestroy op = (.invalidArgument, c) ∧ c.premulScalar op = none) := by
  unfold Comm.redOpDestroy
  by_cases h5 : op < 5
  · rw [if_pos h5]
    refine .inr ⟨rfl, ?_⟩
    unfold Comm.premulScalar
    rw [if_pos h5]
  rw [if_neg h5]
  cases hget : c.customOps[(op - 5).toNat]? with
  | none =>
    refine .inr ⟨rfl, ?_⟩
    unfold Comm.premulScalar
    rw [if_neg h5, hget]
  | some o =>
    by_cases hact : o.active = true
    · simp only [hact, if_true]
      refine .inl ⟨trivial, fun k => ?_⟩
      obtain ⟨hlt, -⟩ := List.getElem?_eq_some_iff.mp hget
      unfold Comm.premulScalar
      by_cases hk : k = op
      · subst hk
        rw [if_neg h5, if_pos rfl]
        simp [hlt]
      · rw [if_neg hk]
        by_cases hk5 : k < 5
        · rw [if_pos hk5, if_pos hk5]
        · have hne : (op - 5).toNat ≠ (k - 5).toNat := by omega
          rw [if_neg hk5, if_neg hk5]
          simp only
          rw [List.getElem?_set_ne hne]
    · simp only [hact]
      refine .inr ⟨rfl, ?_⟩
      unfold Comm.premulScalar
      rw [if_neg h5, hget]
      simp [hact]

theorem premulScalar_builtin {k : Int} (h : k < 5) : c.premulScalar k = none := if_pos h

theorem premulScalar_congr {c c' : Comm} (h : c'.customOps = c.customOps) (k : Int) :
    c'.premulScalar k = c.premulScalar k := by
  unfold Comm.premulScalar
  rw [h]

end Slots

/-! ## Reductions when they are issued -/

section Issue

variable {arrays : Nat → Nat → Nat} {c : Comm} {o : DataOp} {op : Int} {dt : DataType}

/-- `resolveOp` reads the table. -/
theorem resolveOp_ok {p : RedOp × Option Factor} (h : resolveOp c dt op = .ok p) :
    p = meaning op (c.premulScalar op) ∧ (5 ≤ op → c.premulScalar op ≠ none) := by
  unfold resolveOp at h
  unfold meaning
  split at h
  · cases h
  split at h
  · rename_i h5
    rw [if_neg (by omega)]
    split at h
    · cases h
    · rename_i scalar hs
      split at h
      · rw [hs]
        exact ⟨(Except.ok.inj h).symm, fun _ => Option.some_ne_none scalar⟩
      · cases h
  · rename_i h5
    rw [if_pos (by omega)]
    split at h
    · cases h
    · exact ⟨(Except.ok.inj h).symm, fun h => absurd h h5⟩

/-- A code that is neither a built-in operation nor live. -/
theorem resolveOp_dead (h : op < 0 ∨ 5 ≤ op) (hdead : c.premulScalar op = none) :
    resolveOp c dt op = .error .invalidArgument := by
  unfold resolveOp
  by_cases h0 : op < 0
  · rw [if_pos h0]
  · rw [if_neg h0, if_pos (by omega), hdead]

/-- A live code, on a floating-point type. -/
theorem resolveOp_live {value : Factor} (h : c.premulScalar op = some value)
    (hdt : isFloatType dt = true) : resolveOp c dt op = .ok (.sum, some value) := by
  have h5 : ¬ op < 5 := fun hlt => by
    rw [premulScalar_builtin hlt] at h
    cases h
  unfold resolveOp
  rw [if_neg (by omega), if_pos (by omega), h]
  simp [hdt]

theorem issue_reduction {j : Job} (h : issue arrays c o = .ok (.job j)) :
    (∀ op, o.redOp? = some op → ∃ dt p, resolveOp c dt op = .ok p ∧ j.reduction = some p) ∧
    (o.redOp? = none → j.reduction = none) := by
  cases o with
  | send buf count dt peer =>
    obtain ⟨_, -, h⟩ := bind_eq_ok h
    obtain ⟨_, -, h⟩ := bind_eq_ok h
    obtain ⟨_, -, h⟩ := bind_eq_ok h
    obtain ⟨_, -, h⟩ := bind_eq_ok h
    obtain ⟨_, -, h⟩ := bind_eq_ok h
    cases h
  | recv buf count dt peer =>
    obtain ⟨_, -, h⟩ := bind_eq_ok h
    obtain ⟨_, -, h⟩ := bind_eq_ok h
    obtain ⟨_, -, h⟩ := bind_eq_ok h
    obtain ⟨_, -, h⟩ := bind_eq_ok h
    obtain ⟨_, -, h⟩ := bind_eq_ok h
    cases h
  | allGather s d count dt =>
    obtain ⟨_, -, h⟩ := bind_eq_ok h
    cases h
    exact ⟨fun op hop => absurd hop.symm (Option.some_ne_none op), fun _ => rfl⟩
  | allToAll s d count dt =>
    obtain ⟨_, -, h⟩ := bind_eq_ok h
    cases h
    exact ⟨fun op hop => absurd hop.symm (Option.some_ne_none op), fun _ => rfl⟩
  | reduceScatter s d count dt op =>
    obtain ⟨⟨s', d', t⟩, -, h⟩ := bind_eq_ok h
    obtain ⟨⟨o', premul⟩, hr, h⟩ := bind_eq_ok h
    cases h
    exact ⟨fun op' hop => ⟨t, _, Option.some.inj hop ▸ hr, rfl⟩, fun hn => by cases hn⟩
  | allReduce s d count dt op =>
    obtain ⟨⟨s', d', t⟩, -, h⟩ := bind_eq_ok h
    obtain ⟨⟨o', premul⟩, hr, h⟩ := bind_eq_ok h
    cases h
    exact ⟨fun op' hop => ⟨t, _, Option.some.inj hop ▸ hr, rfl⟩, fun hn => by cases hn⟩
  | reduce s d count dt op root =>
    obtain ⟨_, -, h⟩ := bind_eq_ok h
    obtain ⟨_, -, h⟩ := bind_eq_ok h
    obtain ⟨t, -, h⟩ := bind_eq_ok h
    obtain ⟨_, -, h⟩ := bind_eq_ok h
    obtain ⟨_, -, h⟩ := bind_eq_ok h
    obtain ⟨⟨o', premul⟩, hr, h⟩ := bind_eq_ok h
    cases h
    exact ⟨fun op' hop => ⟨t, _, Option.some.inj hop ▸ hr, rfl⟩, fun hn => by cases hn⟩
  | broadcast s d count dt root | bcast b count dt root | gather s d count dt root
  | scatter s d count dt root =>
    obtain ⟨_, -, h⟩ := bind_eq_ok h
    obtain ⟨_, -, h⟩ := bind_eq_ok h
    obtain ⟨_, -, h⟩ := bind_eq_ok h
    obtain ⟨_, -, h⟩ := bind_eq_ok h
    obtain ⟨_, -, h⟩ := bind_eq_ok h
    cases h
    exact ⟨fun op hop => absurd hop.symm (Option.some_ne_none op), fun _ => rfl⟩
  | allToAllv s sc sd d rc rd dt =>
    obtain ⟨_, -, h⟩ := bind_eq_ok h
    obtain ⟨_, -, h⟩ := bind_eq_ok h
    obtain ⟨_, -, h⟩ := bind_eq_ok h
    obtain ⟨_, -, h⟩ := bind_eq_ok h
    obtain ⟨_, -, h⟩ := bind_eq_ok h
    cases h
    exact ⟨fun op hop => absurd hop.symm (Option.some_ne_none op), fun _ => rfl⟩

/-- Past a first step that fails with one code, or not at all, a sequence fails with that code if the
rest does. -/
theorem bind_error {α β : Type} {x : Except Result α} {f : α → Except Result β} {e : Result}
    (hx : ∀ e', x = .error e' → e' = e) (hf : ∀ a, f a = .error e) : x >>= f = .error e := by
  cases x with
  | error e' => rw [hx e' rfl]; rfl
  | ok a => exact hf a

theorem nonNull_error {p : Option Ptr} {e : Result} (h : nonNull p = .error e) :
    e = .invalidArgument := by
  cases p with
  | none => exact (Except.error.inj h).symm
  | some p => cases h

theorem known_error {dt : Option DataType} {e : Result} (h : known dt = .error e) :
    e = .invalidArgument := by
  cases dt with
  | none => exact (Except.error.inj h).symm
  | some dt => cases h

theorem rankArg_error {root : Int} {e : Result} (h : rankArg c root = .error e) :
    e = .invalidArgument := by
  unfold rankArg at h
  split at h
  · exact (Except.error.inj h).symm
  · cases h

theorem failIf_error {bad : Prop} [Decidable bad] {res e : Result} (h : failIf bad res = .error e) :
    e = res := by
  unfold failIf at h
  split at h
  · exact (Except.error.inj h).symm
  · cases h

theorem checkArgs_error (halive : c.aborted = false) {s d : Option Ptr} {dt : Option DataType}
    {e : Result} (h : checkArgs c s d dt = .error e) : e = .invalidArgument := by
  unfold checkArgs checkComm failIf at h
  rw [halive, if_neg Bool.false_ne_true] at h
  cases s with
  | none => exact (Except.error.inj h).symm
  | some s =>
    cases d with
    | none => exact (Except.error.inj h).symm
    | some d =>
      cases dt with
      | none => exact (Except.error.inj h).symm
      | some dt => cases h

/-- **A dead code is refused** whatever the other arguments are. -/
theorem issue_dead (halive : c.aborted = false) (hop : o.redOp? = some op) (h : op < 0 ∨ 5 ≤ op)
    (hdead : c.premulScalar op = none) : issue arrays c o = .error .invalidArgument := by
  have hcheck : ∀ e, checkComm c = .error e → e = .invalidArgument := by
    intro e he
    unfold checkComm failIf at he
    rw [halive, if_neg Bool.false_ne_true] at he
    cases he
  cases o with
  | reduceScatter s d count dt op' =>
    obtain rfl := Option.some.inj hop
    refine bind_error (fun e he => checkArgs_error halive he) fun a => ?_
    obtain ⟨s', d', t⟩ := a
    show resolveOp c t op' >>= _ = _
    rw [resolveOp_dead h hdead]
    rfl
  | allReduce s d count dt op' =>
    obtain rfl := Option.some.inj hop
    refine bind_error (fun e he => checkArgs_error halive he) fun a => ?_
    obtain ⟨s', d', t⟩ := a
    show resolveOp c t op' >>= _ = _
    rw [resolveOp_dead h hdead]
    rfl
  | reduce s d count dt op' root =>
    obtain rfl := Option.some.inj hop
    refine bind_error hcheck fun _ => bind_error (fun e he => nonNull_error he) fun s' =>
      bind_error (fun e he => known_error he) fun t => bind_error (fun e he => rankArg_error he)
        fun k => bind_error (fun e he => failIf_error he) fun _ => ?_
    show resolveOp c t op' >>= _ = _
    rw [resolveOp_dead h hdead]
    rfl
  | _ => cases hop

end Issue

/-! ## Executions leave the table alone and run what was queued -/

section Executions

variable {genv renv : AlgoEnv} {net : Nat → Result}

@[simp] theorem Comm.noteError_customOps (c : Comm) (res : Result) :
    (c.noteError res).customOps = c.customOps := by
  unfold Comm.noteError
  split
  · rfl
  · simp only
    split <;> split <;> rfl

theorem Comm.runJob_customOps (c : Comm) (j : Job) :
    (c.runJob genv renv net j).2.customOps = c.customOps := by
  simp [Comm.runJob, Comm.record]

/-- What the loop of `runCommOps` may do to a communicator: the closures it runs are those of the
queue. -/
structure RunsFrom (q : List Work) (c c' : Comm) : Prop where
  table : c'.customOps = c.customOps
  ran : ∀ j res, (Exec.job j, res) ∈ c'.ran → (Exec.job j, res) ∈ c.ran ∨ Work.job j ∈ q

theorem RunsFrom.refl (q : List Work) (c : Comm) : RunsFrom q c c := ⟨rfl, fun _ _ h => .inl h⟩

theorem RunsFrom.trans {q q' : List Work} {a b c : Comm} (h : RunsFrom q a b) (k : RunsFrom q' b c)
    (hq : q' ⊆ q) : RunsFrom q a c :=
  ⟨k.table.trans h.table, fun j res hm => (k.ran j res hm).elim (h.ran j res) fun hj => .inr (hq hj)⟩

theorem RunsFrom.noteError {q : List Work} {c c' : Comm} (h : RunsFrom q c c') (res : Result) :
    RunsFrom q c (c'.noteError res) := by
  refine ⟨(c'.noteError_customOps res).trans h.table, fun j r hm => h.ran j r ?_⟩
  rwa [Comm.noteError_ran] at hm

theorem runsFrom_runJob {q : List Work} {j : Job} (hj : Work.job j ∈ q) (c : Comm) :
    RunsFrom q c (c.runJob genv renv net j).2 := by
  refine ⟨c.runJob_customOps j, fun j' res hm => ?_⟩
  rw [Comm.runJob_ran] at hm
  rcases List.mem_append.mp hm with hm | hm
  · exact .inl hm
  · obtain ⟨he, -⟩ := Prod.mk.inj (List.mem_singleton.mp hm)
    obtain rfl := Exec.job.inj he
    exact .inr hj

theorem runsFrom_batch (q : List Work) (c : Comm) (run : List P2pOp) :
    RunsFrom q c (c.batch net run).2 := by
  refine ⟨rfl, fun j res hm => .inl ?_⟩
  rcases List.mem_append.mp hm with hm | hm
  · exact hm
  · obtain ⟨he, -⟩ := Prod.mk.inj (List.mem_singleton.mp hm)
    cases he

theorem runsFrom_runLoop : ∀ (fuel : Nat) (q : List Work) (c : Comm),
    RunsFrom q c (runLoop genv renv net fuel q c).2
  | 0, q, c => .refl q c
  | _ + 1, [], c => .refl [] c
  | fuel + 1, .p2p op :: q, c => by
    simp only [runLoop]
    split
    · split
      · exact (runsFrom_batch _ _ _).noteError _
      · exact (runsFrom_batch _ _ _).trans (runsFrom_runLoop fuel _ _)
          (List.dropWhile_suffix _).subset
    · exact .refl _ c
  | fuel + 1, .job j :: q, c => by
    simp only [runLoop]
    split
    · exact (runsFrom_runJob List.mem_cons_self c).noteError _
    · exact (runsFrom_runJob List.mem_cons_self c).trans (runsFrom_runLoop fuel q _)
        (List.subset_cons_self _ _)

/-- Outside a group. -/
theorem runsFrom_runNow (c : Comm) (work : Work) :
    RunsFrom [work] c (runNow genv renv net c work).2 := by
  cases work with
  | job j => exact runsFrom_runJob (List.mem_singleton_self _) c
  | p2p op =>
    show RunsFrom _ c (if c.hasTransport then c.single net op else (.invalidUsage, c)).2
    split
    · refine ⟨rfl, fun j res hm => .inl ?_⟩
      rcases List.mem_append.mp hm with hm | hm
      · exact hm
      · obtain ⟨he, -⟩ := Prod.mk.inj (List.mem_singleton.mp hm)
        cases he
    · exact .refl _ c

end Executions

theorem mem_onComm {c : Nat} {ops : List QueuedOp} {work : Work} (h : work ∈ onComm c ops) :
    ∃ q ∈ ops, q.comm = c ∧ q.work = work := by
  obtain ⟨q, hq, rfl⟩ := List.mem_map.mp h
  obtain ⟨hq, hc⟩ := List.mem_filter.mp hq
  exact ⟨q, hq, of_decide_eq_true hc, rfl⟩

/-! ## The invariant -/

/-- The closure was handed on by an accepted reduction. -/
def FromLog (log : List Issued) (c : Nat) (j : Job) : Prop :=
  j.reduction ≠ none → ∃ i ∈ log, i.comm = c ∧ i.job = j

/-- The code's state and the table agree. -/
structure Agrees (w : Caller) (table : Nat → OpTable) (log : List Issued) : Prop where
  /-- `premulScalar` answers what the table says, for every code. -/
  table : ∀ c k, (w.comm c).premulScalar k = table c k
  /-- Every reduction accepted runs what its code meant then, and a code of a PreMulSum was live. -/
  issued : ∀ i ∈ log, i.job.reduction = some (meaning i.op i.held) ∧ (5 ≤ i.op → i.held ≠ none)
  queued : ∀ q ∈ w.ops, ∀ j, q.work = .job j → FromLog log q.comm j
  ran : ∀ c j res, (Exec.job j, res) ∈ (w.comm c).ran → FromLog log c j

section Agrees

variable {genv renv : AlgoEnv} {net : Nat → Nat → Result} {w : Caller} {table : Nat → OpTable}
  {log : List Issued}

theorem FromLog.mono {new : List Issued} {c : Nat} {j : Job} (h : FromLog log c j) :
    FromLog (log ++ new) c j := by
  intro hr
  obtain ⟨i, hi, hc⟩ := h hr
  exact ⟨i, List.mem_append_left _ hi, hc⟩

/-- A change of one communicator's table, and of nothing else. -/
theorem Agrees.setComm (h : Agrees w table log) {c : Nat} {x : Comm} {t : OpTable}
    (hran : x.ran = (w.comm c).ran) (ht : ∀ k, x.premulScalar k = t k) :
    Agrees (w.setComm c x) (Function.update table c t) log := by
  refine ⟨fun d k => ?_, h.issued, h.queued, fun d j res hm => h.ran d j res ?_⟩
  · by_cases hd : d = c
    · subst hd
      show (Function.update w.comm d x d).premulScalar k = Function.update table d t d k
      rw [Function.update_self, Function.update_self]
      exact ht k
    · show (Function.update w.comm c x d).premulScalar k = Function.update table c t d k
      rw [Function.update_of_ne hd, Function.update_of_ne hd]
      exact h.table d k
  · by_cases hd : d = c
    · subst hd
      have hm' : (Exec.job j, res) ∈ (Function.update w.comm d x d).ran := hm
      rwa [Function.update_self, hran] at hm'
    · have hm' : (Exec.job j, res) ∈ (Function.update w.comm c x d).ran := hm
      rwa [Function.update_of_ne hd] at hm'

theorem setComm_self (w : Caller) (c : Nat) : w.setComm c (w.comm c) = w := by
  unfold Caller.setComm
  rw [Function.update_eq_self]

/-- A creation either fails, and changes nothing, or is the search for a slot. -/
theorem redOpCreatePreMulSum_spec (c : Comm) (out : Bool) (scalar : Option Factor)
    (datatype : Option DataType) (residence : Int) :
    c.redOpCreatePreMulSum out scalar datatype residence = (.invalidArgument, none, c) ∨
    ∃ value, scalar = some value ∧ c.redOpCreatePreMulSum out scalar datatype residence =
      (.success, some (c.createPreMulSum value).2, (c.createPreMulSum value).1) := by
  unfold Comm.redOpCreatePreMulSum
  cases scalar with
  | none => exact .inl rfl
  | some value =>
    simp only
    split
    · exact .inl rfl
    cases datatype with
    | none => exact .inl rfl
    | some dt =>
      simp only
      split
      · exact .inr ⟨value, rfl, rfl⟩
      · exact .inl rfl

theorem Agrees.create (h : Agrees w table log) (c : Nat) (out : Bool) (scalar : Option Factor)
    (datatype : Option DataType) (residence : Int) :
    Agrees (w.reply genv renv net (.create c out scalar datatype residence)).2.2
      (tableAfter table (w.reply genv renv net (.create c out scalar datatype residence)).1
        (w.reply genv renv net (.create c out scalar datatype residence)).2.1
        (.create c out scalar datatype residence)) log := by
  simp only [Caller.reply]
  rcases redOpCreatePreMulSum_spec (w.comm c) out scalar datatype residence with
    heq | ⟨value, rfl, heq⟩
  · rw [heq]
    simp only [tableAfter]
    rw [setComm_self]
    exact h
  · rw [heq]
    obtain ⟨-, -, hspec⟩ := createPreMulSum_spec (w.comm c) value
    refine h.setComm (idle_createPreMulSum _ _).ran fun k => ?_
    rw [hspec k, h.table, Function.update_apply]

theorem Agrees.destroy (h : Agrees w table log) (c : Nat) (op : Int) :
    Agrees (w.reply genv renv net (.destroy c op)).2.2
      (tableAfter table (w.reply genv renv net (.destroy c op)).1
        (w.reply genv renv net (.destroy c op)).2.1 (.destroy c op)) log := by
  simp only [Caller.reply, Caller.step]
  rcases redOpDestroy_spec (w.comm c) op with ⟨hres, hspec⟩ | ⟨heq, -⟩
  · rw [hres]
    refine h.setComm (idle_redOpDestroy _ _).ran fun k => ?_
    rw [hspec k, h.table, Function.update_apply]
  · rw [heq]
    simp only [tableAfter]
    rw [setComm_self]
    exact h

/-- An accepted operation is logged if it is a reduction. -/
theorem fromLog_issue {c : Nat} {o : DataOp} {j : Job}
    (hissue : issue w.arrays (w.comm c) o = .ok (.job j)) :
    FromLog (log ++ issuedBy table w (.op c o)) c j := by
  intro hr
  obtain ⟨hsome, hnone⟩ := issue_reduction hissue
  cases hop : o.redOp? with
  | none => exact absurd (hnone hop) hr
  | some op =>
    refine ⟨⟨c, op, table c op, j⟩, List.mem_append_right _ ?_, rfl, rfl⟩
    simp only [issuedBy, hop, hissue]
    exact List.mem_singleton_self _

theorem Agrees.op (h : Agrees w table log) (c : Nat) (o : DataOp) :
    Agrees (w.reply genv renv net (.op c o)).2.2 table (log ++ issuedBy table w (.op c o)) := by
  have hissued : ∀ i ∈ log ++ issuedBy table w (.op c o),
      i.job.reduction = some (meaning i.op i.held) ∧ (5 ≤ i.op → i.held ≠ none) := by
    intro i hi
    rcases List.mem_append.mp hi with hi | hi
    · exact h.issued i hi
    simp only [issuedBy] at hi
    split at hi
    · rename_i op j hop hissue
      rw [List.mem_singleton.mp hi]
      obtain ⟨dt, p, hres, hred⟩ := (issue_reduction hissue).1 op hop
      obtain ⟨rfl, hlive⟩ := resolveOp_ok hres
      rw [h.table] at hred hlive
      exact ⟨hred, hlive⟩
    · exact absurd hi List.not_mem_nil
  simp only [Caller.reply, Caller.step]
  cases hissue : issue w.arrays (w.comm c) o with
  | error res =>
    exact ⟨h.table, hissued, fun q hq j hj => (h.queued q hq j hj).mono,
      fun d j res hm => (h.ran d j res hm).mono⟩
  | ok work =>
    simp only
    split
    · -- outside a group it runs at once
      have hrun := @runsFrom_runNow genv renv (net c) (w.comm c) work
      refine ⟨fun d k => ?_, hissued, fun q hq j hj => (h.queued q hq j hj).mono, fun d j res hm => ?_⟩
      · rw [← h.table]
        refine premulScalar_congr ?_ k
        show (Function.update w.comm c _ d).customOps = _
        by_cases hd : d = c
        · subst hd
          rw [Function.update_self]
          exact hrun.table
        · rw [Function.update_of_ne hd]
      · have hm' : (Exec.job j, res) ∈ (Function.update w.comm c
            (runNow genv renv (net c) (w.comm c) work).2 d).ran := hm
        by_cases hd : d = c
        · subst hd
          rw [Function.update_self] at hm'
          rcases hrun.ran j res hm' with hold | hnew
          · exact (h.ran d j res hold).mono
          · rw [← List.mem_singleton.mp hnew] at hissue
            exact fromLog_issue hissue
        · rw [Function.update_of_ne hd] at hm'
          exact (h.ran d j res hm').mono
    · -- in a group it is queued
      refine ⟨h.table, hissued, fun q hq j hj => ?_, fun d j res hm => (h.ran d j res hm).mono⟩
      rcases List.mem_append.mp hq with hq | hq
      · exact (h.queued q hq j hj).mono
      · obtain rfl := List.mem_singleton.mp hq
        obtain rfl : work = .job j := hj
        exact fromLog_issue hissue

theorem Agrees.groupEnd (h : Agrees w table log) :
    Agrees (w.reply genv renv net .groupEnd).2.2 table log := by
  simp only [Caller.reply, Caller.step]
  split
  · exact h
  split
  · exact ⟨h.table, h.issued, h.queued, h.ran⟩
  · have hrun : ∀ c, RunsFrom (onComm c w.ops) (w.comm c)
        ((flushGroup genv renv net w.ops w.comm).2 c) := by
      intro c
      rw [flushGroup_comm]
      exact runsFrom_runLoop _ _ _
    refine ⟨fun c k => ?_, h.issued, fun q hq => absurd hq List.not_mem_nil, fun c j res hm => ?_⟩
    · rw [← h.table]
      exact premulScalar_congr (hrun c).table k
    · rcases (hrun c).ran j res hm with hold | hnew
      · exact h.ran c j res hold
      · obtain ⟨q, hq, rfl, hwork⟩ := mem_onComm hnew
        exact h.queued q hq j hwork

/-- **Every call keeps the table.** -/
theorem TableRun.agrees (h : TableRun genv renv net w table log) : Agrees w table log := by
  induction h with
  | start comm arrays hinit =>
    refine ⟨fun c k => ?_, fun i hi => absurd hi List.not_mem_nil,
      fun q hq => absurd hq List.not_mem_nil, fun c j res hm => ?_⟩
    · obtain ⟨rank, nranks, hr, heq⟩ := hinit c
      show (comm c).premulScalar k = none
      rw [heq]
      unfold Comm.premulScalar
      split
      · rfl
      · rfl
    · obtain ⟨rank, nranks, hr, heq⟩ := hinit c
      have hm' : (Exec.job j, res) ∈ (comm c).ran := hm
      rw [heq] at hm'
      exact absurd hm' List.not_mem_nil
  | @call w table log a _ ih =>
    cases a with
    | create c out scalar datatype residence =>
      rw [show issuedBy table w (.create c out scalar datatype residence) = [] from rfl,
        List.append_nil]
      exact ih.create c out scalar datatype residence
    | destroy c op =>
      rw [show issuedBy table w (.destroy c op) = [] from rfl, List.append_nil]
      exact ih.destroy c op
    | op c o => exact ih.op c o
    | groupStart =>
      rw [show issuedBy table w .groupStart = [] from rfl, List.append_nil]
      exact ⟨ih.table, ih.issued, ih.queued, ih.ran⟩
    | groupEnd =>
      rw [show issuedBy table w .groupEnd = [] from rfl, List.append_nil]
      exact ih.groupEnd
    | setArray a values =>
      rw [show issuedBy table w (.setArray a values) = [] from rfl, List.append_nil]
      exact ⟨ih.table, ih.issued, ih.queued, ih.ran⟩

end Agrees

/-- **Custom reduction operations are a handle table**, after every history of creations,
destructions, groups and operations.

The code of a creation that succeeds is none of a live operation and none of a built-in one. A
reduction with a live code is accepted with that code's scalar on a floating-point type, and what is
queued or was executed ran with what its code meant when it was issued. A code that is neither live
nor built in is refused with `vcclInvalidArgument`, or with `vcclInvalidUsage` on an aborted
communicator, and nothing is queued or sent. A creation or destruction that fails changes nothing. -/
theorem red_ops_handle_table (genv renv : AlgoEnv) (net : Nat → Nat → Result) (w : Caller)
    (table : Nat → OpTable) (log : List Issued) (h : TableRun genv renv net w table log) :
    (∀ c out scalar datatype residence id,
      (w.reply genv renv net (.create c out scalar datatype residence)).2.1 = some id →
        5 ≤ id ∧ table c id = none) ∧
    (∀ c op dt value, table c op = some value → isFloatType dt = true →
      resolveOp (w.comm c) dt op = .ok (.sum, some value)) ∧
    (∀ i ∈ log, i.job.reduction = some (meaning i.op i.held) ∧ (5 ≤ i.op → i.held ≠ none)) ∧
    (∀ q ∈ w.ops, ∀ j, q.work = .job j → j.reduction ≠ none →
      ∃ i ∈ log, i.comm = q.comm ∧ i.job = j) ∧
    (∀ c j res, (Exec.job j, res) ∈ (w.comm c).ran → j.reduction ≠ none →
      ∃ i ∈ log, i.comm = c ∧ i.job = j) ∧
    (∀ c o op, o.redOp? = some op → op < 0 ∨ 5 ≤ op → table c op = none →
      w.reply genv renv net (.op c o) =
        (if (w.comm c).aborted then .invalidUsage else .invalidArgument, none, w)) ∧
    (∀ a, (∃ c out scalar datatype residence, a = .create c out scalar datatype residence) ∨
        (∃ c op, a = .destroy c op) →
      (w.reply genv renv net a).1 ≠ .success →
        (w.reply genv renv net a).2.2 = w ∧
          tableAfter table (w.reply genv renv net a).1 (w.reply genv renv net a).2.1 a = table) := by
  have ha := h.agrees
  refine ⟨fun c out scalar datatype residence id hid => ?_, fun c op dt value hv hdt => ?_, ha.issued,
    fun q hq j hj hr => ha.queued q hq j hj hr, fun c j res hm hr => ha.ran c j res hm hr,
    fun c o op hop hcode hdead => ?_, fun a hkind hfail => ?_⟩
  · simp only [Caller.reply] at hid
    rcases redOpCreatePreMulSum_spec (w.comm c) out scalar datatype residence with
      heq | ⟨value, rfl, heq⟩
    · rw [heq] at hid
      cases hid
    · rw [heq] at hid
      obtain rfl := Option.some.inj hid
      obtain ⟨h5, hfree, -⟩ := createPreMulSum_spec (w.comm c) value
      exact ⟨h5, by rw [← ha.table]; exact hfree⟩
  · exact resolveOp_live (by rw [ha.table]; exact hv) hdt
  · rw [← ha.table] at hdead
    simp only [Caller.reply, Caller.step]
    by_cases hab : (w.comm c).aborted = true
    · rw [issue_aborted hab, if_pos hab]
    · rw [issue_dead (Bool.eq_false_iff.mpr hab) hop hcode hdead, if_neg hab]
  · rcases hkind with ⟨c, out, scalar, datatype, residence, rfl⟩ | ⟨c, op, rfl⟩
    · simp only [Caller.reply] at hfail ⊢
      rcases redOpCreatePreMulSum_spec (w.comm c) out scalar datatype residence with
        heq | ⟨value, rfl, heq⟩
      · rw [heq, setComm_self]
        exact ⟨rfl, rfl⟩
      · rw [heq] at hfail
        exact absurd rfl hfail
    · simp only [Caller.reply, Caller.step] at hfail ⊢
      rcases redOpDestroy_spec (w.comm c) op with ⟨hres, -⟩ | ⟨heq, -⟩
      · exact absurd hres hfail
      · rw [heq, setComm_self]
        exact ⟨rfl, rfl⟩

/-- The world after some calls from the start of a thread on communicators of two ranks, of which this
one is rank 0; every transport call returns `answer`. -/
def tableWorld (answer : Result) (calls : List TableCall) : Caller :=
  calls.foldl (fun w a => (w.reply ⟨none, none⟩ ⟨none, none⟩ (fun _ _ => answer) a).2.2)
    (Caller.start (fun _ => Comm.init 0 2 Nat.two_pos) fun _ _ => 0)

/-- `vcclAllReduce` of one float with an operation. -/
def allReduceWith (op : Int) : TableCall :=
  .op 0 (.allReduce (some ⟨.user 0, 0⟩) (some ⟨.user 1, 0⟩) 1 (some .float32) op)

/-- Issued in a group with operation 5, of scalar 2; then 5 is destroyed and its slot taken by an
operation of scalar 3, before the group ends. -/
def reuseCalls : List TableCall :=
  [.create 0 true (some 2) (some .float32) 1, .groupStart, allReduceWith 5, .destroy 0 5,
    .create 0 true (some 3) (some .float32) 1, .groupEnd]

/-- The closure that was run has scalar 2; the code means 3 now. -/
theorem red_ops_handle_table_reuse :
    (Exec.job (.allReduce ⟨.user 0, 0⟩ ⟨.user 1, 0⟩ 1 .float32 .sum (some 2)), Result.success) ∈
      ((tableWorld .success reuseCalls).comm 0).ran ∧
    ∃ table log, TableRun ⟨none, none⟩ ⟨none, none⟩ (fun _ _ => .success)
      (tableWorld .success reuseCalls) table log ∧ table 0 5 = some 3 ∧
      ∃ i ∈ log, i.comm = 0 ∧
        i.job = .allReduce ⟨.user 0, 0⟩ ⟨.user 1, 0⟩ 1 .float32 .sum (some 2) := by
  have hran : (Exec.job (.allReduce ⟨.user 0, 0⟩ ⟨.user 1, 0⟩ 1 .float32 .sum (some 2)),
      Result.success) ∈ ((tableWorld .success reuseCalls).comm 0).ran := by decide
  have hrun := TableRun.call .groupEnd (.call (.create 0 true (some 3) (some .float32) 1)
    (.call (.destroy 0 5) (.call (allReduceWith 5) (.call .groupStart
      (.call (.create 0 true (some 2) (some .float32) 1)
        (@TableRun.start ⟨none, none⟩ ⟨none, none⟩ (fun _ _ => .success)
          (fun _ => Comm.init 0 2 (by decide)) (fun _ _ => 0) fun _ => ⟨0, 2, by decide, rfl⟩))))))
  have h := red_ops_handle_table _ _ _ _ _ _ hrun
  exact ⟨hran, _, _, hrun, by decide, h.2.2.2.2.1 0 _ _ hran (Option.some_ne_none _)⟩

/-- **On an aborted communicator** a dead code is refused with another result. -/
theorem dead_op_on_aborted :
    ∃ table log, TableRun ⟨none, none⟩ ⟨none, none⟩ (fun _ _ => .systemError)
      (tableWorld .systemError [allReduceWith 0]) table log ∧ table 0 99 = none ∧
      ((tableWorld .systemError [allReduceWith 0]).reply ⟨none, none⟩ ⟨none, none⟩
        (fun _ _ => .systemError) (allReduceWith 99)).1 = .invalidUsage :=
  ⟨_, _, TableRun.call (allReduceWith 0) (@TableRun.start ⟨none, none⟩ ⟨none, none⟩
    (fun _ _ => .systemError) (fun _ => Comm.init 0 2 (by decide)) (fun _ _ => 0)
    fun _ => ⟨0, 2, by decide, rfl⟩), rfl, by decide⟩

end Vccl
