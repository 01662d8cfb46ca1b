import Vccl.Discipline

/-!
# The depth of a queue pair (`createQp`, `kQueueDepth`)

`createQp` asks for `kQueueDepth` work requests on either queue of a QP and for a completion queue
of twice as many entries. `batch` counts what it posts and cuts waves. The other calls do not count:
a message within `kQueueDepth * kMaxSegBytes` has at most `kQueueDepth` segments, and the algorithms
that pre-post receives post one for each peer, except `ringAllGather`, which posts the receives of
all its steps for the left neighbour.

`queue_pairs_hold` is the bound for every run in which the ring's receives are within it too.
-/

namespace Vccl

/-- The sizes of the messages of a call. -/
def Call.messages : Call → List Nat
  | .send _ _ bytes | .recv _ _ bytes => [bytes]
  | .sendRecv _ _ sbytes _ _ rbytes => [sbytes, rbytes]
  | .postRecvs reqs => reqs.map RecvReq.bytes
  | _ => []

/-- The sizes of the messages of an act. -/
def Act.messages (gatherEnv reduceEnv : AlgoEnv) (n r : Nat) : Act → List Nat
  | .exec (.job j) => (j.calls gatherEnv reduceEnv n r).flatMap Call.messages
  | .exec (.batch ops) => ops.map P2pOp.bytes
  | .exec (.single op) => [op.bytes]
  | .reg _ => []

/-- The work requests of a `ringAllGather` in an act. -/
def Act.ringLoad (gatherEnv reduceEnv : AlgoEnv) (n r : Nat) : Act → Nat
  | .exec (.job j) => j.ringLoad gatherEnv reduceEnv n r
  | _ => 0

theorem segments_le {bytes : Nat} (h : bytes ≤ kQueueDepth * kMaxSegBytes) :
    segments bytes ≤ kQueueDepth := by
  have h1 : kMaxSegBytes = 1073741824 := rfl
  have h2 : kQueueDepth = 128 := rfl
  rw [h1, h2] at h
  unfold segments
  rw [h1, h2]
  omega

section Load

variable {reqs : List RecvReq} {D : Nat}

theorem nonEmpty_sublist (reqs : List RecvReq) : (nonEmpty reqs).Sublist reqs := List.filter_sublist

theorem preLoad_absent {p : Nat} : ∀ {reqs : List RecvReq}, p ∉ reqs.map RecvReq.peer →
    preLoad reqs p = 0
  | [], _ => rfl
  | q :: reqs, h => by
    rw [List.map_cons, List.mem_cons, not_or] at h
    rw [preLoad_cons, preLoad_absent h.2, only, if_neg h.1]

/-- One receive for each peer. -/
theorem preLoad_nodup (p : Nat) : ∀ {reqs : List RecvReq}, (reqs.map RecvReq.peer).Nodup →
    (∀ q ∈ reqs, segments q.bytes ≤ D) → preLoad reqs p ≤ D
  | [], _, _ => Nat.zero_le D
  | q :: reqs, hnd, h => by
    rw [List.map_cons, List.nodup_cons] at hnd
    rw [preLoad_cons]
    by_cases hp : p = q.peer
    · rw [hp, preLoad_absent hnd.1]
      exact Nat.le_trans (only_le _ _ _) (h q List.mem_cons_self)
    · rw [only, if_neg hp, Nat.zero_add]
      exact preLoad_nodup p hnd.2 fun q' hq => h q' (List.mem_cons_of_mem q hq)

theorem preLoad_le_sum (p : Nat) : ∀ reqs : List RecvReq,
    preLoad reqs p ≤ (reqs.map fun q => segments q.bytes).sum
  | [] => Nat.le_refl 0
  | q :: reqs => by
    rw [preLoad_cons, List.map_cons, List.sum_cons]
    exact Nat.add_le_add (only_le _ _ _) (preLoad_le_sum p reqs)

theorem sum_nonEmpty_le : ∀ reqs : List RecvReq,
    ((nonEmpty reqs).map fun q => segments q.bytes).sum ≤ (reqs.map fun q => segments q.bytes).sum
  | [] => Nat.le_refl 0
  | q :: reqs => by
    have ih := sum_nonEmpty_le reqs
    unfold nonEmpty at ih ⊢
    rw [List.filter_cons]
    split
    · rw [List.map_cons, List.map_cons, List.sum_cons, List.sum_cons]
      omega
    · rw [List.map_cons, List.sum_cons]
      omega

end Load

/-- A call of a disciplined list fits when its messages and the ring do. -/
theorem Disciplined.fits {load : Nat} {calls : List Call} (h : Disciplined load calls)
    (hload : load ≤ kQueueDepth)
    (hmsg : ∀ b ∈ calls.flatMap Call.messages, b ≤ kQueueDepth * kMaxSegBytes) {c : Call}
    (hc : c ∈ calls) : Task.Fits (.call c) := by
  have hsize : ∀ b ∈ c.messages, segments b ≤ kQueueDepth := fun b hb =>
    segments_le (hmsg b (List.mem_flatMap.mpr ⟨c, hc, hb⟩))
  cases c with
  | send peer buf bytes => exact hsize bytes List.mem_cons_self
  | recv peer buf bytes => exact hsize bytes List.mem_cons_self
  | sendRecv sp sb sn rp rb rn =>
    exact ⟨hsize sn List.mem_cons_self, hsize rn (List.mem_cons_of_mem sn List.mem_cons_self)⟩
  | postRecvs reqs =>
    intro p
    rcases h.spread reqs hc with hnd | hsum
    · refine preLoad_nodup p (hnd.sublist ((nonEmpty_sublist reqs).map _)) fun q hq => ?_
      exact hsize q.bytes (List.mem_map_of_mem ((nonEmpty_sublist reqs).subset hq))
    · calc preLoad (nonEmpty reqs) p
          ≤ ((nonEmpty reqs).map fun q => segments q.bytes).sum := preLoad_le_sum p _
        _ ≤ (reqs.map fun q => segments q.bytes).sum := sum_nonEmpty_le reqs
        _ ≤ kQueueDepth := Nat.le_trans hsum hload
  | _ => trivial

/-- The tasks of an act fit when its messages and its ring do. -/
theorem fits_act {gatherEnv reduceEnv : AlgoEnv} {n r : Nat} {a : Act}
    (hmsg : ∀ b ∈ a.messages gatherEnv reduceEnv n r, b ≤ kQueueDepth * kMaxSegBytes)
    (hring : a.ringLoad gatherEnv reduceEnv n r ≤ kQueueDepth) {task : Task}
    (ht : task ∈ a.tasks gatherEnv reduceEnv n r) : task.Fits := by
  cases a with
  | reg op =>
    obtain rfl := List.mem_singleton.mp ht
    trivial
  | exec e =>
    cases e with
    | batch ops =>
      obtain rfl := List.mem_singleton.mp ht
      exact fun op hop => segments_le (hmsg op.bytes (List.mem_map_of_mem hop))
    | single op =>
      obtain rfl := List.mem_singleton.mp ht
      have hop := segments_le (hmsg op.bytes List.mem_cons_self)
      unfold P2pOp.call
      split
      · exact hop
      · exact hop
    | job j =>
      rcases List.mem_append.mp ht with ht | ht
      · rcases List.mem_cons.mp ht with rfl | ht
        · trivial
        · obtain ⟨c, hc, rfl⟩ := List.mem_map.mp ht
          exact (disciplined_calls gatherEnv reduceEnv j).fits hring hmsg hc
      · obtain rfl := List.mem_singleton.mp ht
        trivial

/-- What the count says about the queues. -/
theorem Counted.depth {t : Verbs} {w : Option Wait} {qs : List RecvReq} (h : Counted t w qs)
    (hr : Room qs w) (p : Nat) :
    (t.recvq p).length ≤ kQueueDepth ∧ (t.sendq p).length ≤ kQueueDepth ∧
      (t.cq p).length ≤ 2 * kQueueDepth := by
  have h1 := h.recv p
  have h2 := h.send p
  have h3 := hr.recv p
  have h4 := hr.send p
  have hsplit : (t.cq p).length = t.unreaped true p + t.unreaped false p := by
    unfold Verbs.unreaped
    rw [List.length_eq_countP_add_countP fun w => decide (w.isRecv = true)]
    congr 1
    exact List.countP_congr fun w _ => by simp
  exact ⟨by omega, by omega, by omega⟩

/-- **No queue pair is over-subscribed** in a run in which every message is within
`kQueueDepth * kMaxSegBytes` and the receives of a `ringAllGather` are within `kQueueDepth`
together. -/
theorem queue_pairs_hold (cap : Nat) (user : Nat → Nat) (gatherEnv reduceEnv : AlgoEnv) (n r : Nat)
    (reg : Registry) (maxInline : Nat → Nat) (acts : List Act)
    (hmsg : ∀ a ∈ acts, ∀ b ∈ a.messages gatherEnv reduceEnv n r, b ≤ kQueueDepth * kMaxSegBytes)
    (hring : ∀ a ∈ acts, a.ringLoad gatherEnv reduceEnv n r ≤ kQueueDepth) (s : VRank)
    (hrun : RReach cap user ⟨reg, .init maxInline, actTasks gatherEnv reduceEnv n r acts, none⟩ s)
    (p : Nat) :
    (s.tr.recvq p).length ≤ kQueueDepth ∧ (s.tr.sendq p).length ≤ kQueueDepth ∧
      (s.tr.cq p).length ≤ 2 * kQueueDepth := by
  have h₀ := orderly_init reg maxInline (tasksAfter_acts gatherEnv reduceEnv n r acts)
  obtain ⟨qs, h, -, hroom⟩ := h₀.run hrun
  refine h.counted.depth (hroom ⟨fun _ => Nat.zero_le _, fun _ => Nat.zero_le _,
    fun _ hw => nomatch hw⟩ fun task ht => ?_) p
  obtain ⟨a, ha, ht⟩ := List.mem_flatMap.mp ht
  exact fits_act (hmsg a ha) (hring a ha) ht

/-! ## A ring that is too long -/

/-- The receive queues after `postRecvs`. -/
theorem length_postRecvs (loc : Ptr → Nat) (regions : List Region) (p : Nat) :
    ∀ (reqs : List RecvReq) (t : Verbs),
    ((t.postRecvs loc regions reqs).recvq p).length = (t.recvq p).length + preLoad reqs p
  | [], t => rfl
  | q :: reqs, t => by
    show (((t.prePost loc regions q).postRecvs loc regions reqs).recvq p).length = _
    rw [length_postRecvs loc regions p reqs, preLoad_cons, ← Nat.add_assoc]
    congr 1
    unfold Verbs.prePost
    split
    · rename_i hb
      rw [hb, show segments 0 = 0 from rfl, only_zero, Nat.add_zero]
    · exact length_update_append t.recvq q.peer (segments q.bytes) _ List.length_replicate p

/-- All receives are for one peer. -/
theorem preLoad_same (p : Nat) : ∀ {reqs : List RecvReq}, (∀ q ∈ reqs, q.peer = p) →
    preLoad reqs p = (reqs.map fun q => segments q.bytes).sum
  | [], _ => rfl
  | q :: reqs, h => by
    rw [preLoad_cons, preLoad_same p fun q' hq => h q' (List.mem_cons_of_mem q hq), List.map_cons,
      List.sum_cons, only, if_pos (h q List.mem_cons_self).symm]

/-- An all-gather over the ring, its input in place, comes to the point where all of its receives
are posted for the left neighbour. -/
theorem reach_ring_posted (cap : Nat) (user : Nat → Nat) (gatherEnv reduceEnv : AlgoEnv)
    {n r count : Nat} {dt : DataType} (reg : Registry) (maxInline : Nat → Nat) (recv : Ptr)
    (hring : ¬ (n = 1 ∨ count = 0 ∨ gatherEnv.logPath 65536 (count * typeSize dt) = true)) :
    ∃ s, RReach cap user ⟨reg, .init maxInline, actTasks gatherEnv reduceEnv n r
        [.exec (.job (.allGather (recv + r * (count * typeSize dt)) recv count dt))], none⟩ s ∧
      (s.tr.recvq (prev n r)).length = (n - 1) * segments (count * typeSize dt) := by
  generalize hreqs : ((List.range (n - 1)).map fun s => RecvReq.mk (prev n r)
    (recv + ((r + 0 + 2 * n - s - 1) % n) * (count * typeSize dt)) (count * typeSize dt)) = reqs
  have hcalls : ∃ rest, doAllGather gatherEnv n r (recv + r * (count * typeSize dt)) recv count dt =
      Call.regAdd recv (n * (count * typeSize dt)) :: Call.postRecvs reqs :: rest := by
    have h1 : ¬ (n = 1 ∨ count = 0) := fun h => hring (by rw [← or_assoc]; exact .inl h)
    have h2 : ¬ gatherEnv.logPath 65536 (count * typeSize dt) = true :=
      fun h => hring (.inr (.inr h))
    simp only [doAllGather, if_neg h1, if_neg h2, ne_eq, not_true, if_false, ← hreqs]
    exact ⟨_, rfl⟩
  obtain ⟨rest, hcalls⟩ := hcalls
  have htasks : actTasks gatherEnv reduceEnv n r
      [.exec (.job (.allGather (recv + r * (count * typeSize dt)) recv count dt))] =
      .reg .enter :: .call (.regAdd recv (n * (count * typeSize dt))) :: .call (.postRecvs reqs) ::
        (callTasks rest ++ [.reg (.leave 0)]) := by
    show ((.reg .enter :: callTasks (doAllGather ..) ++ _) ++ [] : List Task) = _
    rw [hcalls, List.append_nil]
    rfl
  have hload : preLoad reqs (prev n r) = (n - 1) * segments (count * typeSize dt) := by
    rw [preLoad_same (prev n r) fun q hq => ?_, ← hreqs, List.map_map]
    · simp only [Function.comp_def, List.map_const', List.length_range]
      exact List.sum_replicate_nat
    · rw [← hreqs] at hq
      obtain ⟨s, -, rfl⟩ := List.mem_map.mp hq
      rfl
  rw [htasks]
  refine ⟨_, ((RReach.refl.step (.book _ rfl rfl (.reg _))).step (.book _ rfl rfl (.add _ _))).step
    (.post _ rfl rfl rfl), ?_⟩
  refine (length_postRecvs _ _ _ reqs _).trans ?_
  rw [hload]
  exact Nat.zero_add _

/-- Its messages are all of one size. -/
theorem messages_ring {gatherEnv reduceEnv : AlgoEnv} {n r count : Nat} {dt : DataType} {s d : Ptr}
    (hring : ¬ (n = 1 ∨ count = 0 ∨ gatherEnv.logPath 65536 (count * typeSize dt) = true)) {b : Nat}
    (hb : b ∈ Act.messages gatherEnv reduceEnv n r (.exec (.job (.allGather s d count dt)))) :
    b = count * typeSize dt := by
  obtain ⟨c, hc, hb⟩ := List.mem_flatMap.mp hb
  have h1 : ¬ (n = 1 ∨ count = 0) := fun h => hring (by rw [← or_assoc]; exact .inl h)
  have h2 : ¬ gatherEnv.logPath 65536 (count * typeSize dt) = true :=
    fun h => hring (.inr (.inr h))
  simp only [Job.calls, doAllGather, if_neg h1, if_neg h2, ringAllGather, List.mem_append,
    List.mem_singleton, List.mem_flatMap] at hc
  rcases hc with (rfl | hc) | rfl | ⟨s, -, rfl⟩
  · cases hb
  · split at hc
    · obtain rfl := List.mem_singleton.mp hc
      cases hb
    · cases hc
  · obtain ⟨q, hq, rfl⟩ := List.mem_map.mp hb
    obtain ⟨s, -, rfl⟩ := List.mem_map.mp hq
    rfl
  · rcases List.mem_cons.mp hb with rfl | hb
    · rfl
    · exact List.mem_singleton.mp hb

/-- Three ranks gather 4 GiB each over the ring: two receives of four segments. -/
theorem queue_pairs_hold_three : ∃ s, RReach 0 (fun _ => 4096) ⟨.init true, .init fun _ => 220,
      actTasks ⟨none, none⟩ ⟨none, none⟩ 3 0
        [.exec (.job (.allGather ⟨.user 0, 0⟩ ⟨.user 0, 0⟩ (1 <<< 32) .int8))], none⟩ s ∧
    (s.tr.recvq 2).length = 8 ∧ (s.tr.recvq 2).length ≤ kQueueDepth ∧
      (s.tr.sendq 2).length ≤ kQueueDepth ∧ (s.tr.cq 2).length ≤ 2 * kQueueDepth := by
  have hring : ¬ (3 = 1 ∨ 1 <<< 32 = 0 ∨
      (AlgoEnv.mk none none).logPath 65536 (1 <<< 32 * typeSize .int8) = true) := by decide
  obtain ⟨s, hs, hlen⟩ := reach_ring_posted (r := 0) 0 (fun _ => 4096) ⟨none, none⟩
    ⟨none, none⟩ (.init true) (fun _ => 220) (Ptr.mk (.user 0) 0) hring
  refine ⟨s, hs, hlen, queue_pairs_hold 0 (fun _ => 4096) ⟨none, none⟩ ⟨none, none⟩ 3 0 (.init true)
    (fun _ => 220) _ (fun a ha b hb => ?_) (fun a ha => ?_) s hs 2⟩
  · obtain rfl := List.mem_singleton.mp ha
    rw [messages_ring hring hb]
    decide
  · obtain rfl := List.mem_singleton.mp ha
    decide

/-- **A ring of 130 ranks is too long**: with a block of 65537 bytes for each, the first rank has
129 receives posted on the QP of its left neighbour. -/
theorem ring_of_130_over_subscribes : ∃ (acts : List Act) (s : VRank),
    (∀ a ∈ acts, ∀ b ∈ a.messages ⟨none, none⟩ ⟨none, none⟩ 130 0,
      b ≤ kQueueDepth * kMaxSegBytes) ∧
    RReach 0 (fun _ => 4096) ⟨.init true, .init fun _ => 220,
      actTasks ⟨none, none⟩ ⟨none, none⟩ 130 0 acts, none⟩ s ∧
    (s.tr.recvq 129).length = 129 ∧ ¬ (s.tr.recvq 129).length ≤ kQueueDepth := by
  have hring : ¬ (130 = 1 ∨ 65537 = 0 ∨
      (AlgoEnv.mk none none).logPath 65536 (65537 * typeSize .int8) = true) := by decide
  obtain ⟨s, hs, hlen⟩ := reach_ring_posted (r := 0) 0 (fun _ => 4096) ⟨none, none⟩
    ⟨none, none⟩ (.init true) (fun _ => 220) (Ptr.mk (.user 0) 0) hring
  refine ⟨_, s, fun a ha b hb => ?_, hs, hlen, ?_⟩
  · obtain rfl := List.mem_singleton.mp ha
    rw [messages_ring hring hb]
    decide
  · have hlen' : (s.tr.recvq 129).length = 129 := hlen
    rw [hlen']
    decide

end Vccl
