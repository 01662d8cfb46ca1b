import Vccl.Index
import Vccl.VerbsRun

/-!
# How the collectives use pre-posted receives

`postRecvs` is called by five algorithms of `collectives.cc`: `ringAllGather`,
`recursiveDoublingAllGather`, `bruckAllGather`, `recursiveDoublingAllReduce` and `pow2ElimAllReduce`.
Each calls it once, before its steps, and its steps claim the receives in the order in which they
were posted (`Disciplined.after`). Four of them post at most one receive for every peer; the ring
posts all of its receives for the left neighbour (`Disciplined.spread`).

`Act` is what a rank does on a communicator between its creation and its end: executions and the
user's registrations. A run of acts follows the discipline (`disciplined_acts`).
-/

namespace Vccl

/-! ## Calls as tasks -/

/-- The calls of a job as tasks. -/
def callTasks (calls : List Call) : List Task := calls.map .call

theorem callTasks_append (a b : List Call) : callTasks (a ++ b) = callTasks a ++ callTasks b :=
  List.map_append

/-- The call is `postRecvs`. -/
def Call.isPost : Call → Bool
  | .postRecvs _ => true
  | _ => false

/-- No call pre-posts receives. -/
def Plain (calls : List Call) : Prop := ∀ c ∈ calls, c.isPost = false

section Plain

variable {a b : List Call}

theorem plain_nil : Plain [] := fun _ h => absurd h List.not_mem_nil

theorem plain_cons {c : Call} (hc : c.isPost = false) (h : Plain a) : Plain (c :: a) := by
  intro x hx
  rcases List.mem_cons.mp hx with rfl | hx
  · exact hc
  · exact h x hx

theorem Plain.append (ha : Plain a) (hb : Plain b) : Plain (a ++ b) :=
  fun c hc => (List.mem_append.mp hc).elim (ha c) (hb c)

theorem plain_flatMap {β : Type} {l : List β} {body : β → List Call} (h : ∀ x ∈ l, Plain (body x)) :
    Plain (l.flatMap body) := by
  intro c hc
  obtain ⟨x, hx, hc⟩ := List.mem_flatMap.mp hc
  exact h x hx c hc

theorem plain_ite {p : Prop} [Decidable p] (ha : Plain a) (hb : Plain b) :
    Plain (if p then a else b) := by
  split
  · exact ha
  · exact hb

/-- With nothing pre-posted a call that does not pre-post leaves nothing pre-posted. -/
theorem after_plain {c : Call} (h : c.isPost = false) : Task.after [] (.call c) = some [] := by
  cases c with
  | postRecvs reqs => cases h
  | recv peer buf bytes => exact claimed_nil peer bytes
  | sendRecv sp sb sn rp rb rn => exact claimed_nil rp rn
  | _ => rfl

theorem tasksAfter_plain : ∀ {calls : List Call}, Plain calls →
    tasksAfter [] (callTasks calls) = some []
  | [], _ => rfl
  | c :: calls, h => by
    show (Task.after [] (.call c)).bind _ = _
    rw [after_plain (h c List.mem_cons_self), Option.bind_some]
    exact tasksAfter_plain fun x hx => h x (List.mem_cons_of_mem c hx)

end Plain

/-! ## The discipline -/

/-- The discipline of a list of calls: receives are claimed in the order in which they were posted,
and a `postRecvs` posts one receive for each peer, or `load` work requests in all. -/
structure Disciplined (load : Nat) (calls : List Call) : Prop where
  after : tasksAfter [] (callTasks calls) = some []
  spread : ∀ reqs, Call.postRecvs reqs ∈ calls → (reqs.map RecvReq.peer).Nodup ∨
    (reqs.map fun q => segments q.bytes).sum ≤ load

section Disciplined

variable {load : Nat} {a b : List Call}

theorem Plain.disciplined (h : Plain a) : Disciplined load a :=
  ⟨tasksAfter_plain h, fun reqs hm => by cases h _ hm⟩

theorem Disciplined.append (ha : Disciplined load a) (hb : Disciplined load b) :
    Disciplined load (a ++ b) where
  after := by
    rw [callTasks_append, tasksAfter_append, ha.after, Option.bind_some]
    exact hb.after
  spread reqs hm := (List.mem_append.mp hm).elim (ha.spread reqs) (hb.spread reqs)

/-- A `postRecvs` and the steps that claim its receives. -/
theorem disciplined_post {reqs : List RecvReq} (hb : Plain b)
    (h : tasksAfter (nonEmpty reqs) (callTasks b) = some [])
    (hs : (reqs.map RecvReq.peer).Nodup ∨ (reqs.map fun q => segments q.bytes).sum ≤ load) :
    Disciplined load (Call.postRecvs reqs :: b) where
  after := h
  spread reqs' hm := by
    rcases List.mem_cons.mp hm with heq | hm
    · cases heq
      exact hs
    · cases hb _ hm

theorem nonEmpty_cons (q : RecvReq) (reqs : List RecvReq) :
    nonEmpty (q :: reqs) = nonEmpty [q] ++ nonEmpty reqs := by
  unfold nonEmpty
  rw [← List.filter_append]
  rfl

/-- The steps of a loop claim the receives posted for them, one each. -/
theorem tasksAfter_steps {β : Type} {req : β → RecvReq} {body : β → List Call} :
    ∀ {l : List β}, (∀ x ∈ l, ∀ qs, tasksAfter (nonEmpty [req x] ++ qs) (callTasks (body x)) = some qs) →
    tasksAfter (nonEmpty (l.map req)) (callTasks (l.flatMap body)) = some []
  | [], _ => rfl
  | x :: l, h => by
    rw [List.map_cons, nonEmpty_cons, List.flatMap_cons, callTasks_append, tasksAfter_append,
      h x List.mem_cons_self, Option.bind_some]
    exact tasksAfter_steps fun y hy => h y (List.mem_cons_of_mem x hy)

/-- A call claims the receive posted for it. -/
theorem claimed_head (q : RecvReq) (qs : List RecvReq) :
    claimed q.peer q.bytes (nonEmpty [q] ++ qs) = some qs := by
  by_cases hb : q.bytes = 0
  · simp [claimed, nonEmpty, hb]
  · simp [claimed, nonEmpty, hb]

theorem after_recv (q : RecvReq) (rb : Ptr) (qs : List RecvReq) (rest : List Call) :
    tasksAfter (nonEmpty [q] ++ qs) (callTasks (Call.recv q.peer rb q.bytes :: rest)) =
      tasksAfter qs (callTasks rest) := by
  show (claimed q.peer q.bytes _).bind _ = _
  rw [claimed_head, Option.bind_some]
  rfl

theorem after_sendRecv (q : RecvReq) (sp : Nat) (sb : Ptr) (sn : Nat) (rb : Ptr)
    (qs : List RecvReq) {rest : List Call} (h : tasksAfter qs (callTasks rest) = some qs) :
    tasksAfter (nonEmpty [q] ++ qs) (callTasks (Call.sendRecv sp sb sn q.peer rb q.bytes :: rest)) =
      some qs := by
  show (claimed q.peer q.bytes _).bind _ = _
  rw [claimed_head, Option.bind_some]
  exact h

end Disciplined

/-! ## The algorithms -/

section Algorithms

variable {load n r : Nat} {recv : Ptr}

/-- `ringAllGather` posts all of its receives for the left neighbour. -/
theorem disciplined_ringAllGather {chunks : Nat → Chunk} {shift : Nat}
    (hload : ((List.range (n - 1)).map fun s =>
      segments (chunks ((r + shift + 2 * n - s - 1) % n)).bytes).sum ≤ load) :
    Disciplined load (ringAllGather n r recv chunks shift) := by
  refine disciplined_post (plain_flatMap fun s _ => plain_cons rfl plain_nil) ?_ (.inr ?_)
  · refine tasksAfter_steps fun s _ qs => ?_
    exact after_sendRecv (RecvReq.mk (prev n r)
      (recv + (chunks ((r + shift + 2 * n - s - 1) % n)).offset)
      (chunks ((r + shift + 2 * n - s - 1) % n)).bytes) _ _ _ _ qs rfl
  · rw [List.map_map]
    exact hload

theorem xor_two_pow_inj {i j : Nat} (h : r ^^^ (1 <<< i) = r ^^^ (1 <<< j)) : i = j := by
  rw [Nat.xor_right_inj, Nat.one_shiftLeft, Nat.one_shiftLeft] at h
  exact Nat.pow_right_injective (Nat.le_refl 2) h

theorem disciplined_recursiveDoublingAllGather {chunkBytes : Nat} :
    Disciplined load (recursiveDoublingAllGather n r recv chunkBytes) := by
  refine disciplined_post (plain_flatMap fun i _ => plain_cons rfl plain_nil) ?_ (.inl ?_)
  · refine tasksAfter_steps fun i _ qs => ?_
    exact after_sendRecv (RecvReq.mk (r ^^^ (1 <<< i))
      (recv + (((r ^^^ (1 <<< i)) >>> i) <<< i) * chunkBytes) (chunkBytes * 2 ^ i)) _ _ _ _ qs rfl
  · rw [List.map_map]
    exact List.nodup_range.map fun i j h => xor_two_pow_inj h

theorem disciplined_bruckAllGather {chunkBytes : Nat} :
    Disciplined load (bruckAllGather n r recv chunkBytes) := by
  unfold bruckAllGather
  rw [bruckSteps_eq, List.flatMap_map, List.map_map, List.append_assoc, List.append_assoc]
  refine (plain_ite (plain_cons rfl plain_nil) plain_nil).disciplined.append ?_
  rw [← List.append_assoc]
  refine Disciplined.append (disciplined_post (plain_flatMap fun i _ => plain_cons rfl plain_nil) ?_
    (.inl ?_)) (plain_ite ?_ plain_nil).disciplined
  · refine tasksAfter_steps fun i _ qs => ?_
    exact after_sendRecv (RecvReq.mk ((r + 2 ^ i) % n) (recv + 2 ^ i * chunkBytes)
      (bruckWidth n i * chunkBytes)) _ _ _ _ qs rfl
  · rw [List.map_map]
    refine List.Nodup.map_on (fun i hi j hj h => ?_) List.nodup_range
    have hin := lt_steps_iff.mp (List.mem_range.mp hi)
    have hjn := lt_steps_iff.mp (List.mem_range.mp hj)
    have hmod : 2 ^ i % n = 2 ^ j % n := Nat.ModEq.add_left_cancel' r h
    rw [Nat.mod_eq_of_lt hin, Nat.mod_eq_of_lt hjn] at hmod
    exact Nat.pow_right_injective (Nat.le_refl 2) hmod
  · refine (plain_cons rfl plain_nil).append ((fun c hc => ?_) : Plain _) |>.append
      (plain_cons rfl plain_nil)
    obtain ⟨i, -, rfl⟩ := List.mem_map.mp hc
    rfl

theorem disciplined_recursiveDoublingAllReduce {count : Nat} {dt : DataType} {op : RedOp} :
    Disciplined load (recursiveDoublingAllReduce n r recv count dt op) := by
  refine (Plain.disciplined (plain_cons rfl plain_nil)).append (a := [Call.scratchAt _])
    (disciplined_post (plain_flatMap fun i _ => plain_cons rfl (plain_cons rfl plain_nil)) ?_ (.inl ?_))
  · refine tasksAfter_steps fun i _ qs => ?_
    exact after_sendRecv (RecvReq.mk (r ^^^ (1 <<< i)) (scratch + i * (count * typeSize dt))
      (count * typeSize dt)) _ _ _ _ qs rfl
  · rw [List.map_map]
    exact List.nodup_range.map fun i j h => xor_two_pow_inj h

/-- The receives of the core steps are from distinct survivors. -/
theorem corePeers_spread (extra bytes : Nat) (new : Option Nat) :
    ((corePeers n extra bytes new).map Prod.fst).Nodup ∧
      ∀ p ∈ (corePeers n extra bytes new).map Prod.fst, newRank extra p ≠ none := by
  cases new with
  | none => exact ⟨List.nodup_nil, fun p hp => absurd hp List.not_mem_nil⟩
  | some j =>
    unfold corePeers
    rw [List.map_map]
    refine ⟨List.nodup_range.map fun i k h => ?_, fun p hp => ?_⟩
    · have h' := congrArg (newRank extra) h
      simp only [Function.comp, newRank_oldRank, Option.some.injEq] at h'
      exact xor_two_pow_inj h'
    · obtain ⟨i, -, rfl⟩ := List.mem_map.mp hp
      simp only [Function.comp, newRank_oldRank]
      exact Option.some_ne_none _

theorem disciplined_pow2ElimAllReduce {count : Nat} {dt : DataType} {op : RedOp} :
    Disciplined load (pow2ElimAllReduce n r recv count dt op) := by
  unfold pow2ElimAllReduce
  generalize n - elimP2 n = extra
  generalize hbytes : count * typeSize dt = bytes
  -- the core steps, with whatever was posted for them
  have hcore : ∀ peers : List (Nat × Ptr),
      tasksAfter (nonEmpty (peers.map fun cp => RecvReq.mk cp.1 cp.2 bytes))
        (callTasks (peers.flatMap fun cp =>
          [Call.sendRecv cp.1 recv bytes cp.1 cp.2 bytes, Call.cpuReduce dt op recv cp.2 count])) =
        some [] := fun peers =>
    tasksAfter_steps fun cp _ qs => after_sendRecv (RecvReq.mk cp.1 cp.2 bytes) _ _ _ _ qs rfl
  have hplain : ∀ peers : List (Nat × Ptr), Plain (peers.flatMap fun cp =>
      [Call.sendRecv cp.1 recv bytes cp.1 cp.2 bytes, Call.cpuReduce dt op recv cp.2 count]) :=
    fun peers => plain_flatMap fun cp _ => plain_cons rfl (plain_cons rfl plain_nil)
  have hpeers : ∀ peers : List (Nat × Ptr), (peers.map fun cp => RecvReq.mk cp.1 cp.2 bytes).map
      RecvReq.peer = peers.map Prod.fst := fun peers => by
    rw [List.map_map]
    rfl
  obtain ⟨hnodup, hsurvive⟩ := corePeers_spread (n := n) extra bytes (newRank extra r)
  have hscratch : ∀ {b : List Call}, Disciplined load b →
      Disciplined load (Call.scratchAt ((1 + steps (elimP2 n)) * bytes) :: b) := fun hb =>
    (Plain.disciplined (plain_cons rfl plain_nil)).append (a := [Call.scratchAt _]) hb
  rw [Nat.and_one_is_mod]
  by_cases hpre : r < 2 * extra
  · rcases Nat.mod_two_eq_zero_or_one r with hpar | hpar
    · -- an even survivor
      simp only [hpre, hpar, and_self, if_true, Nat.zero_ne_one, and_false, if_false,
        List.append_nil, List.cons_append, List.nil_append]
      refine hscratch (disciplined_post ?_ ?_ (.inl ?_))
      · exact plain_cons rfl (plain_cons rfl ((hplain _).append (plain_cons rfl plain_nil)))
      · rw [nonEmpty_cons]
        refine (after_recv (RecvReq.mk (r + 1) scratch bytes) scratch _ _).trans ?_
        show tasksAfter _ (callTasks (_ ++ _)) = _
        rw [callTasks_append, tasksAfter_append, hcore]
        rfl
      · rw [List.map_cons, hpeers, List.nodup_cons]
        refine ⟨fun hm => hsurvive _ hm ?_, hnodup⟩
        show newRank extra (r + 1) = none
        unfold newRank
        rw [Nat.and_one_is_mod, if_pos (by omega), if_pos (by omega)]
    · -- an odd rank that folds into its left neighbour
      have hnone : newRank extra r = none := by
        unfold newRank
        rw [Nat.and_one_is_mod, if_pos hpre, if_pos hpar]
      simp only [hpre, hpar, hnone, corePeers, and_true, if_true, Nat.one_ne_zero, and_false,
        if_false, List.append_nil, List.cons_append, List.nil_append, List.map_nil,
        List.flatMap_nil]
      refine hscratch (disciplined_post ?_ ?_ (.inl (List.nodup_singleton _)))
      · exact plain_cons rfl (plain_cons rfl plain_nil)
      · have h := after_recv (RecvReq.mk (r - 1) recv bytes) recv [] []
        rw [List.append_nil] at h
        exact h
  · simp only [hpre, false_and, if_false, List.append_nil, List.cons_append, List.nil_append]
    refine hscratch (disciplined_post (hplain _) (hcore _) (.inl ?_))
    rw [hpeers]
    exact hnodup

end Algorithms

/-! ## The collectives -/

section Jobs

variable {n r : Nat}

/-- The work requests of `ringAllGather`, all for the left neighbour: none when `doAllGather` and
`doAllReduce` take another path. -/
def Job.ringLoad (gatherEnv reduceEnv : AlgoEnv) (n r : Nat) : Job → Nat
  | .allGather _ _ count dt =>
    if n = 1 ∨ count = 0 ∨ gatherEnv.logPath 65536 (count * typeSize dt) = true then 0
    else (n - 1) * segments (count * typeSize dt)
  | .allReduce _ _ count dt _ _ =>
    if n = 1 ∨ count = 0 ∨ reduceEnv.logPath 262144 (count * typeSize dt) = true then 0
    else ((List.range (n - 1)).map fun s =>
      segments (makeChunks count n (typeSize dt) ((r + 1 + 2 * n - s - 1) % n)).bytes).sum
  | _ => 0

theorem disciplined_doAllGather {env env' : AlgoEnv} {s d : Ptr} {count : Nat} {dt : DataType} :
    Disciplined (Job.ringLoad env env' n r (.allGather s d count dt))
      (doAllGather env n r s d count dt) := by
  unfold doAllGather
  rw [List.append_assoc]
  refine (Plain.disciplined (plain_cons rfl plain_nil)).append
    ((plain_ite (plain_cons rfl plain_nil) plain_nil).disciplined.append ?_)
  by_cases h0 : n = 1 ∨ count = 0
  · rw [if_pos h0]
    exact plain_nil.disciplined
  rw [if_neg h0]
  by_cases hlog : env.logPath 65536 (count * typeSize dt) = true
  · rw [if_pos hlog]
    split
    · exact disciplined_recursiveDoublingAllGather
    · exact disciplined_bruckAllGather
  · rw [if_neg hlog]
    refine disciplined_ringAllGather (Nat.le_of_eq ?_)
    have hring : ¬ (n = 1 ∨ count = 0 ∨ env.logPath 65536 (count * typeSize dt) = true) := by
      rw [← or_assoc]
      exact not_or.mpr ⟨h0, hlog⟩
    simp only [Job.ringLoad, if_neg hring, List.map_const', List.length_range]
    exact List.sum_replicate_nat

theorem plain_ringReduceScatter {data : Ptr} {chunks : Nat → Chunk} {dt : DataType} {op : RedOp} :
    Plain (ringReduceScatter n r data chunks dt op) :=
  (plain_cons rfl plain_nil).append (plain_flatMap fun _ _ =>
    (plain_cons rfl plain_nil).append (plain_ite (plain_cons rfl plain_nil) plain_nil))

theorem disciplined_doAllReduce {env env' : AlgoEnv} {s d : Ptr} {count : Nat} {dt : DataType}
    {op : RedOp} {premul : Option Factor} :
    Disciplined (Job.ringLoad env' env n r (.allReduce s d count dt op premul))
      (doAllReduce env n r s d count dt op premul) := by
  unfold doAllReduce
  rw [List.append_assoc, List.append_assoc]
  refine (Plain.disciplined (plain_cons rfl plain_nil)).append
    ((plain_ite (plain_cons rfl plain_nil) plain_nil).disciplined.append
      (Disciplined.append (Plain.disciplined ?_) ?_))
  · cases premul with
    | none => exact plain_nil
    | some k => exact plain_cons rfl plain_nil
  by_cases h0 : n = 1 ∨ count = 0
  · rw [if_pos h0]
    exact plain_nil.disciplined
  rw [if_neg h0]
  by_cases hlog : env.logPath 262144 (count * typeSize dt) = true
  · rw [if_pos hlog]
    refine Disciplined.append ?_ (plain_ite (plain_cons rfl plain_nil) plain_nil).disciplined
    split
    · exact disciplined_recursiveDoublingAllReduce
    · exact disciplined_pow2ElimAllReduce
  · rw [if_neg hlog]
    refine Disciplined.append (plain_ringReduceScatter.append
      (plain_ite (plain_cons rfl plain_nil) plain_nil)).disciplined
      (disciplined_ringAllGather (Nat.le_of_eq ?_))
    have hring : ¬ (n = 1 ∨ count = 0 ∨ env.logPath 262144 (count * typeSize dt) = true) := by
      rw [← or_assoc]
      exact not_or.mpr ⟨h0, hlog⟩
    simp only [Job.ringLoad, if_neg hring]

theorem plain_doReduceScatter {s d : Ptr} {count : Nat} {dt : DataType} {op : RedOp}
    {premul : Option Factor} : Plain (doReduceScatter n r s d count dt op premul) := by
  have hone : ∀ c : Call, c.isPost = false → Plain [c] := fun c hc => plain_cons hc plain_nil
  unfold doReduceScatter
  refine (hone _ rfl).append (plain_ite ?_ ?_)
  · refine (plain_ite (hone _ rfl) plain_nil).append ?_
    cases premul with
    | none => exact plain_nil
    | some k => exact hone _ rfl
  · refine (((hone _ rfl).append ?_).append
      (plain_flatMap fun i _ => (hone _ rfl).append (plain_ite (Plain.append ?_ (hone _ rfl)) ?_))).append
      (plain_ite (hone _ rfl) plain_nil)
    · cases premul with
      | none => exact plain_nil
      | some k => exact hone _ rfl
    · cases premul with
      | none => exact plain_ite (hone _ rfl) plain_nil
      | some k => exact hone _ rfl
    · cases premul with
      | none => exact hone _ rfl
      | some k => exact hone _ rfl

theorem plain_doReduce {s d : Ptr} {count : Nat} {dt : DataType} {op : RedOp}
    {premul : Option Factor} {root : Nat} : Plain (doReduce n r s d count dt op premul root) := by
  have hone : ∀ c : Call, c.isPost = false → Plain [c] := fun c hc => plain_cons hc plain_nil
  unfold doReduce
  refine plain_ite ((plain_ite (hone _ rfl) plain_nil).append ?_) (plain_ite plain_nil ?_)
  · cases premul with
    | none => exact plain_nil
    | some k => exact hone _ rfl
  · refine ((hone _ rfl).append (plain_ite (hone _ rfl) plain_nil)).append
      (plain_flatMap fun j _ => plain_ite ?_ (plain_ite ?_ ?_))
    · cases premul with
      | none => exact hone _ rfl
      | some k => exact plain_cons rfl (hone _ rfl)
    · refine (((hone _ rfl).append ?_).append (hone _ rfl)).append (plain_ite (hone _ rfl) plain_nil)
      cases premul with
      | none => exact plain_ite (hone _ rfl) plain_nil
      | some k => exact hone _ rfl
    · refine ((hone _ rfl).append ?_).append (hone _ rfl)
      cases premul with
      | none => exact hone _ rfl
      | some k => exact hone _ rfl

theorem plain_doBroadcast {s d : Ptr} {count : Nat} {dt : DataType} {root : Nat} :
    Plain (doBroadcast n r s d count dt root) := by
  unfold doBroadcast
  refine (plain_ite (plain_cons rfl plain_nil) plain_nil).append (plain_ite plain_nil ?_)
  refine (plain_cons rfl plain_nil).append (plain_flatMap fun j _ => plain_ite
    (plain_cons rfl plain_nil) ?_)
  exact (plain_cons rfl plain_nil).append (plain_ite plain_nil (plain_cons rfl plain_nil))

theorem plain_doGather {s d : Ptr} {count : Nat} {dt : DataType} {root : Nat} :
    Plain (doGather n r s d count dt root) := by
  unfold doGather
  refine plain_ite (plain_ite (plain_cons rfl plain_nil) plain_nil) (plain_ite
    (plain_cons rfl (plain_cons rfl plain_nil)) ?_)
  exact ((plain_cons rfl plain_nil).append (plain_ite (plain_cons rfl plain_nil) plain_nil)).append
    (plain_flatMap fun i _ => plain_cons rfl plain_nil)

theorem plain_doScatter {s d : Ptr} {count : Nat} {dt : DataType} {root : Nat} :
    Plain (doScatter n r s d count dt root) := by
  unfold doScatter
  refine plain_ite (plain_ite (plain_cons rfl plain_nil) plain_nil) (plain_ite
    (plain_cons rfl (plain_cons rfl plain_nil)) ?_)
  exact ((plain_cons rfl plain_nil).append (plain_ite (plain_cons rfl plain_nil) plain_nil)).append
    (plain_flatMap fun i _ => plain_cons rfl plain_nil)

theorem plain_doAllToAllv {s d : Ptr} {sc sd rc rd : Nat → Nat} {dt : DataType} :
    Plain (doAllToAllv n r s sc sd d rc rd dt) :=
  ((plain_cons rfl (plain_cons rfl plain_nil)).append
    (plain_ite (plain_cons rfl plain_nil) plain_nil)).append
    (plain_flatMap fun _ _ => plain_cons rfl plain_nil)

/-- **Every collective claims its receives in order, and only the ring posts several for one
peer.** -/
theorem disciplined_calls (gatherEnv reduceEnv : AlgoEnv) (j : Job) :
    Disciplined (j.ringLoad gatherEnv reduceEnv n r) (j.calls gatherEnv reduceEnv n r) := by
  cases j with
  | allGather => exact disciplined_doAllGather
  | reduceScatter => exact plain_doReduceScatter.disciplined
  | allReduce => exact disciplined_doAllReduce
  | reduce => exact plain_doReduce.disciplined
  | broadcast => exact plain_doBroadcast.disciplined
  | gather => exact plain_doGather.disciplined
  | scatter => exact plain_doScatter.disciplined
  | allToAll => exact plain_doAllToAllv.disciplined
  | allToAllv => exact plain_doAllToAllv.disciplined

end Jobs

/-! ## Acts -/

/-- What a rank does on a communicator: an execution, or an operation of the user on the
registrations. -/
inductive Act where
  | exec (e : Exec)
  | reg (op : RegOp)
  deriving DecidableEq, Repr

/-- The call of a point-to-point operation outside a group. -/
def P2pOp.call (op : P2pOp) : Call :=
  if op.isSend then .send op.peer op.buf op.bytes else .recv op.peer op.buf op.bytes

/-- The tasks of an act; a job has its `ScopedReg`. -/
def Act.tasks (gatherEnv reduceEnv : AlgoEnv) (n r : Nat) : Act → List Task
  | .exec (.job j) =>
    .reg .enter :: callTasks (j.calls gatherEnv reduceEnv n r) ++ [.reg (.leave 0)]
  | .exec (.batch ops) => [.batch ops]
  | .exec (.single op) => [.call op.call]
  | .reg op => [.reg op]

/-- The tasks of several acts. -/
def actTasks (gatherEnv reduceEnv : AlgoEnv) (n r : Nat) (acts : List Act) : List Task :=
  acts.flatMap (Act.tasks gatherEnv reduceEnv n r)

theorem tasksAfter_act (gatherEnv reduceEnv : AlgoEnv) (n r : Nat) (a : Act) :
    tasksAfter [] (a.tasks gatherEnv reduceEnv n r) = some [] := by
  cases a with
  | reg op => rfl
  | exec e =>
    cases e with
    | job j =>
      have hj := (disciplined_calls (n := n) (r := r) gatherEnv reduceEnv j).after
      show tasksAfter [] (callTasks (j.calls gatherEnv reduceEnv n r) ++ [.reg (.leave 0)]) = some []
      rw [tasksAfter_append, hj]
      rfl
    | batch ops => rfl
    | single op =>
      have hop : Plain [op.call] := by
        refine plain_cons ?_ plain_nil
        unfold P2pOp.call
        split <;> rfl
      exact tasksAfter_plain hop

/-- Acts follow the discipline. -/
theorem tasksAfter_acts (gatherEnv reduceEnv : AlgoEnv) (n r : Nat) : ∀ acts : List Act,
    tasksAfter [] (actTasks gatherEnv reduceEnv n r acts) = some []
  | [] => rfl
  | a :: acts => by
    rw [actTasks, List.flatMap_cons, tasksAfter_append, tasksAfter_act, Option.bind_some]
    exact tasksAfter_acts gatherEnv reduceEnv n r acts

end Vccl
