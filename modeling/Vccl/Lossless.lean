import Vccl.Finish

/-!
# Which collectives drop a receive completion

A `sendRecv` with two peers is lossy when a receive is pre-posted for the peer it sends to. The ring
pre-posts all of its receives for the left neighbour and sends to the right one; recursive doubling
and the elimination algorithm send to the peer they receive from. Bruck's algorithm pre-posts one
receive for every step: step `i` sends to rank `r - 2^i`, and the receive of step `j` is from rank
`r + 2^j`. On `n = 2^i + 2^j` ranks these are one rank, which may be in its step `j` while this one
still waits in step `i`: it needs nothing of this rank but the message of step `i`.

So a rank loses no completion, and can always finish, unless it runs an all-gather by Bruck's
algorithm on a number of ranks that is the sum of two different powers of two: 3, 5, 6, 9, 10, 12
(`acts_lossless_iff`).
-/

namespace Vccl

/-! ## Lossless calls -/

/-- With receives pre-posted only for peers in `P`, the call is not lossy; and it pre-posts none but
for these. -/
def Call.Safe (P : Nat → Prop) : Call → Prop
  | .sendRecv sendPeer _ _ recvPeer _ _ => sendPeer = recvPeer ∨ ¬ P sendPeer
  | .postRecvs reqs => ∀ q ∈ reqs, P q.peer
  | _ => True

section Lossless

variable {n r : Nat} {qs qs' : List RecvReq}

theorem lossless_append {a b : List Task} : ∀ {qs qs' : List RecvReq},
    tasksAfter qs a = some qs' → (Lossless qs (a ++ b) ↔ Lossless qs a ∧ Lossless qs' b) := by
  induction a with
  | nil =>
    intro qs qs' h
    obtain rfl := Option.some.inj h
    exact ⟨fun hb => ⟨trivial, hb⟩, fun hab => hab.2⟩
  | cons task a ih =>
    intro qs qs' h
    obtain ⟨qs₁, ha, hrest⟩ := Option.bind_eq_some_iff.mp h
    constructor
    · rintro ⟨hn, hl⟩
      obtain ⟨h1, h2⟩ := (ih hrest).mp (hl qs₁ ha)
      refine ⟨⟨hn, fun qs₂ h₂ => ?_⟩, h2⟩
      obtain rfl := Option.some.inj (ha.symm.trans h₂)
      exact h1
    · rintro ⟨⟨hn, hl⟩, hb⟩
      refine ⟨hn, fun qs₂ h₂ => ?_⟩
      obtain rfl := Option.some.inj (ha.symm.trans h₂)
      exact (ih hrest).mpr ⟨hl _ ha, hb⟩

/-- A call leaves receives pre-posted only for the peers in `P`. -/
theorem safe_after {P : Nat → Prop} {c : Call} (hq : ∀ q ∈ qs, P q.peer) (hc : c.Safe P)
    (ha : Task.after qs (.call c) = some qs') : ∀ q ∈ qs', P q.peer := by
  have hnil : ∀ q ∈ ([] : List RecvReq), P q.peer := fun q hq => absurd hq List.not_mem_nil
  cases c with
  | regAdd | scratchAt =>
    obtain ⟨-, rfl⟩ := quiet_after ha
    exact hnil
  | postRecvs reqs =>
    obtain ⟨-, rfl⟩ := quiet_after ha
    exact fun q hm => hc q (List.mem_filter.mp hm).1
  | recv | sendRecv => exact fun q hm => hq q (claimed_subset ha q hm)
  | send | memcpy | cpuReduce | cpuScale | cpuScaleCopy | cpuScaledAccumulate =>
    obtain rfl := Option.some.inj ha
    exact hq

theorem lossless_of_safe {P : Nat → Prop} : ∀ {calls : List Call} {qs : List RecvReq},
    (∀ q ∈ qs, P q.peer) → (∀ c ∈ calls, c.Safe P) → Lossless qs (callTasks calls)
  | [], _, _, _ => trivial
  | c :: calls, qs, hq, hs => by
    have hc := hs c List.mem_cons_self
    refine ⟨fun hlossy => ?_, fun qs' ha => ?_⟩
    · cases c with
      | sendRecv sp sb sn rp rb rn =>
        obtain ⟨hne, -, q, hm, rfl⟩ := hlossy
        exact hc.elim hne fun hn => hn (hq q hm)
      | _ => exact hlossy.elim
    · exact lossless_of_safe (safe_after hq hc ha) fun x hx => hs x (List.mem_cons_of_mem c hx)

/-- Calls that pre-post nothing. -/
theorem lossless_plain {calls : List Call} (h : Plain calls) : Lossless [] (callTasks calls) := by
  refine lossless_of_safe (P := fun _ => False) (fun _ hq => absurd hq List.not_mem_nil) fun c hc => ?_
  cases c with
  | postRecvs reqs => exact absurd (h _ hc) (fun h => by cases h)
  | sendRecv => exact .inr id
  | _ => trivial

theorem safe_flatMap {β : Type} {P : Nat → Prop} {l : List β} {body : β → List Call}
    (h : ∀ x ∈ l, ∀ c ∈ body x, c.Safe P) : ∀ c ∈ l.flatMap body, c.Safe P := by
  intro c hc
  obtain ⟨x, hx, hc⟩ := List.mem_flatMap.mp hc
  exact h x hx c hc

theorem safe_append {P : Nat → Prop} {a b : List Call} (ha : ∀ c ∈ a, c.Safe P)
    (hb : ∀ c ∈ b, c.Safe P) : ∀ c ∈ a ++ b, c.Safe P :=
  fun c hc => (List.mem_append.mp hc).elim (ha c) (hb c)

theorem safe_cons {P : Nat → Prop} {c : Call} {a : List Call} (hc : c.Safe P)
    (ha : ∀ c ∈ a, c.Safe P) : ∀ c' ∈ c :: a, c'.Safe P := by
  intro c' hm
  rcases List.mem_cons.mp hm with rfl | hm
  · exact hc
  · exact ha c' hm

theorem safe_nil {P : Nat → Prop} : ∀ c ∈ ([] : List Call), c.Safe P :=
  fun _ hc => absurd hc List.not_mem_nil

theorem safe_ite {P : Nat → Prop} {p : Prop} [Decidable p] {a b : List Call}
    (ha : ∀ c ∈ a, c.Safe P) (hb : ∀ c ∈ b, c.Safe P) : ∀ c ∈ if p then a else b, c.Safe P := by
  split
  · exact ha
  · exact hb

/-- Calls that leave nothing pre-posted and drop nothing, from nothing pre-posted. -/
structure Clean (calls : List Call) : Prop where
  after : tasksAfter [] (callTasks calls) = some []
  lossless : Lossless [] (callTasks calls)

theorem Plain.clean {a : List Call} (h : Plain a) : Clean a := ⟨tasksAfter_plain h, lossless_plain h⟩

theorem Clean.append {a b : List Call} (ha : Clean a) (hb : Clean b) : Clean (a ++ b) where
  after := by
    rw [callTasks_append, tasksAfter_append, ha.after, Option.bind_some]
    exact hb.after
  lossless := by
    rw [callTasks_append]
    exact (lossless_append ha.after).mpr ⟨ha.lossless, hb.lossless⟩

theorem clean_ite {p : Prop} [Decidable p] {a b : List Call} (ha : Clean a) (hb : Clean b) :
    Clean (if p then a else b) := by
  split
  · exact ha
  · exact hb

/-- Disciplined calls with every pre-posted receive from a peer in `P` and no `sendRecv` to one,
but for those with one peer. -/
theorem Disciplined.clean {load : Nat} {calls : List Call} (h : Disciplined load calls)
    (P : Nat → Prop) (hs : ∀ c ∈ calls, c.Safe P) : Clean calls :=
  ⟨h.after, lossless_of_safe (fun _ hq => absurd hq List.not_mem_nil) hs⟩

end Lossless

/-! ## The algorithms -/

section Algorithms

variable {n r : Nat} {recv : Ptr}

/-- `ringAllGather` pre-posts for the left neighbour and sends to the right one; on two ranks these
are one peer, and the loop is that for one peer. -/
theorem clean_ringAllGather {chunks : Nat → Chunk} {shift : Nat} :
    Clean (ringAllGather n r recv chunks shift) := by
  refine (disciplined_ringAllGather (Nat.le_refl _)).clean (fun p => p = prev n r) ?_
  refine safe_append (safe_cons (fun q hq => ?_) safe_nil)
    (safe_flatMap fun s _ => safe_cons ?_ safe_nil)
  · obtain ⟨s, -, rfl⟩ := List.mem_map.mp hq
    rfl
  · exact Decidable.em (next n r = prev n r)

theorem clean_recursiveDoublingAllGather {chunkBytes : Nat} :
    Clean (recursiveDoublingAllGather n r recv chunkBytes) := by
  have h : Disciplined 0 (recursiveDoublingAllGather n r recv chunkBytes) :=
    disciplined_recursiveDoublingAllGather
  refine h.clean (fun _ => True) ?_
  exact safe_append (safe_cons (fun q _ => trivial) safe_nil)
    (safe_flatMap fun i _ => safe_cons (.inl rfl) safe_nil)

theorem clean_recursiveDoublingAllReduce {count : Nat} {dt : DataType} {op : RedOp} :
    Clean (recursiveDoublingAllReduce n r recv count dt op) := by
  have h : Disciplined 0 (recursiveDoublingAllReduce n r recv count dt op) :=
    disciplined_recursiveDoublingAllReduce
  refine h.clean (fun _ => True) ?_
  exact safe_append (safe_cons trivial (safe_cons (fun q _ => trivial) safe_nil))
    (safe_flatMap fun i _ => safe_cons (.inl rfl) (safe_cons trivial safe_nil))

theorem clean_pow2ElimAllReduce {count : Nat} {dt : DataType} {op : RedOp} :
    Clean (pow2ElimAllReduce n r recv count dt op) := by
  have h : Disciplined 0 (pow2ElimAllReduce n r recv count dt op) := disciplined_pow2ElimAllReduce
  refine h.clean (fun _ => True) ?_
  refine safe_append (safe_append (safe_append (safe_cons trivial (safe_cons (fun q _ => trivial)
    safe_nil)) ?_) (safe_flatMap fun cp _ => safe_cons (.inl rfl) (safe_cons trivial safe_nil))) ?_
  · exact safe_ite (safe_cons trivial (safe_cons trivial safe_nil))
      (safe_ite (safe_cons trivial safe_nil) safe_nil)
  · exact safe_ite (safe_cons trivial safe_nil) (safe_ite (safe_cons trivial safe_nil) safe_nil)

/-- Steps that each claim the receive posted for them: lossy is one that sends to the peer of a
later one. -/
theorem lossless_steps {β : Type} (req : β → RecvReq) (sp sn : β → Nat) (sb rb : β → Ptr) :
    ∀ l : List β, Lossless (nonEmpty (l.map req)) (callTasks (l.flatMap fun x =>
      [Call.sendRecv (sp x) (sb x) (sn x) (req x).peer (rb x) (req x).bytes])) ↔
      l.Pairwise fun x y => ¬ (sp x ≠ (req x).peer ∧ sn x ≠ 0 ∧ (req y).bytes ≠ 0 ∧
        (req y).peer = sp x)
  | [] => ⟨fun _ => List.Pairwise.nil, fun _ => trivial⟩
  | x :: l => by
    have ih := lossless_steps req sp sn sb rb l
    rw [List.map_cons, nonEmpty_cons, List.flatMap_cons, callTasks_append, List.pairwise_cons]
    have hafter : Task.after (nonEmpty [req x] ++ nonEmpty (l.map req))
        (.call (.sendRecv (sp x) (sb x) (sn x) (req x).peer (rb x) (req x).bytes)) =
        some (nonEmpty (l.map req)) := claimed_head (req x) _
    constructor
    · rintro ⟨hn, hl⟩
      refine ⟨fun y hy hlossy => hn ?_, ih.mp (hl _ hafter)⟩
      obtain ⟨hne, hsn, hb, hp⟩ := hlossy
      refine ⟨hne, hsn, req y, List.mem_append_right _ ?_, hp⟩
      exact List.mem_filter.mpr ⟨List.mem_map_of_mem hy, decide_eq_true hb⟩
    · rintro ⟨hn, hl⟩
      refine ⟨?_, fun qs' h' => ?_⟩
      · rintro ⟨hne, hsn, q, hq, hp⟩
        rcases List.mem_append.mp hq with hq | hq
        · -- the receive of the step itself is from another peer
          obtain rfl := List.mem_singleton.mp (List.mem_filter.mp hq).1
          exact hne hp.symm
        · obtain ⟨hm, hb⟩ := List.mem_filter.mp hq
          obtain ⟨y, hy, rfl⟩ := List.mem_map.mp hm
          exact hn y hy ⟨hne, hsn, of_decide_eq_true hb, hp⟩
      · obtain rfl := Option.some.inj (hafter.symm.trans h')
        exact ih.mpr hl

/-- Before and after the steps there is nothing to drop. -/
theorem lossless_posting {first body last : List Call} {reqs : List RecvReq} (hf : Plain first)
    (hl : Plain last) (hb : tasksAfter (nonEmpty reqs) (callTasks body) = some []) :
    Lossless [] (callTasks (first ++ [Call.postRecvs reqs] ++ body ++ last)) ↔
      Lossless (nonEmpty reqs) (callTasks body) := by
  have hpost : tasksAfter [] (callTasks (first ++ [Call.postRecvs reqs])) =
      some (nonEmpty reqs) := by
    rw [callTasks_append, tasksAfter_append, tasksAfter_plain hf]
    rfl
  have hsteps : tasksAfter [] (callTasks (first ++ [Call.postRecvs reqs] ++ body)) = some [] := by
    rw [callTasks_append, tasksAfter_append, hpost]
    exact hb
  have hfirst : Lossless [] (callTasks (first ++ [Call.postRecvs reqs])) := by
    rw [callTasks_append]
    exact (lossless_append (tasksAfter_plain hf)).mpr
      ⟨lossless_plain hf, id, fun _ _ => trivial⟩
  rw [callTasks_append, lossless_append hsteps, callTasks_append, lossless_append hpost]
  exact ⟨fun h => h.1.2, fun h => ⟨⟨hfirst, h⟩, lossless_plain hl⟩⟩

/-- The rank `2^i` before another is the one `2^j` after it only where these make up the ring. -/
theorem back_eq_ahead {a b : Nat} (ha : 0 < a) (han : a < n) (hbn : b < n) :
    (r + b) % n = (r + n - a) % n ↔ n = a + b := by
  constructor
  · intro h
    have hmod : r + b ≡ r + n - a [MOD n] := h
    have hsum : r + (a + b) ≡ r + 0 [MOD n] := by
      have h' := hmod.add_right a
      rw [show r + n - a + a = r + 0 + n by omega, show r + b + a = r + (a + b) by omega] at h'
      exact h'.trans (Nat.add_modEq_right)
    have hdvd : n ∣ a + b := (Nat.modEq_zero_iff_dvd).mp (Nat.ModEq.add_left_cancel' r hsum)
    obtain ⟨k, hk⟩ := hdvd
    have hk1 : k = 1 := by
      have h0 : k ≠ 0 := by
        rintro rfl
        omega
      have h2 : k < 2 := by
        by_contra hge
        have : n * 2 ≤ n * k := Nat.mul_le_mul_left n (Nat.le_of_not_lt hge)
        omega
      omega
    rw [hk1, Nat.mul_one] at hk
    exact hk.symm
  · rintro h
    rw [show r + n - a = r + b by omega]

/-- **Bruck's algorithm** is lossless unless the number of ranks is the sum of two different powers of
two. -/
theorem lossless_bruckAllGather {chunkBytes : Nat} (hc : chunkBytes ≠ 0) :
    Lossless [] (callTasks (bruckAllGather n r recv chunkBytes)) ↔
      ∀ i j, i < j → n ≠ 2 ^ i + 2 ^ j := by
  let req := fun i : Nat =>
    RecvReq.mk ((r + 2 ^ i) % n) (recv + 2 ^ i * chunkBytes) (bruckWidth n i * chunkBytes)
  have hbytes : ∀ i, 2 ^ i < n → bruckWidth n i * chunkBytes ≠ 0 := fun i hi =>
    Nat.mul_ne_zero (by have := Nat.two_pow_pos i; unfold bruckWidth; omega) hc
  unfold bruckAllGather
  rw [bruckSteps_eq, List.flatMap_map, List.map_map]
  refine (lossless_posting (plain_ite (plain_cons rfl plain_nil) plain_nil) (plain_ite
    (((plain_cons rfl plain_nil).append ?_).append (plain_cons rfl plain_nil)) plain_nil) ?_).trans
    ((lossless_steps req _ _ _ _ (List.range (steps n))).trans ?_)
  · intro c hm
    obtain ⟨i, -, rfl⟩ := List.mem_map.mp hm
    rfl
  · exact tasksAfter_steps fun i _ qs => after_sendRecv (req i) _ _ _ _ qs rfl
  rw [List.pairwise_iff_getElem]
  constructor
  · rintro h i j hij rfl
    -- step i sends to the rank that step j receives from
    have hpow : 2 * 2 ^ i ≤ 2 ^ j := by
      rw [Nat.mul_comm, ← Nat.pow_succ]
      exact Nat.pow_le_pow_right Nat.two_pos hij
    have hi := Nat.two_pow_pos i
    have hj : 2 ^ j < 2 ^ i + 2 ^ j := Nat.lt_add_of_pos_left hi
    have hin : 2 ^ i < 2 ^ i + 2 ^ j := by omega
    have hjs : j < steps (2 ^ i + 2 ^ j) := lt_steps_iff.mpr hj
    refine h i j (by rw [List.length_range]; omega) (by rw [List.length_range]; exact hjs) hij ?_
    simp only [List.getElem_range]
    refine ⟨fun hne => ?_, hbytes i hin, hbytes j hj, (back_eq_ahead hi hin hj).mpr rfl⟩
    have := (back_eq_ahead hi hin hin).mp hne.symm
    omega
  · intro h i j hi hj hij
    simp only [List.length_range] at hi hj
    simp only [List.getElem_range]
    rintro ⟨-, -, -, hp⟩
    exact h i j hij ((back_eq_ahead (Nat.two_pow_pos i) (lt_steps_iff.mp hi)
      (lt_steps_iff.mp hj)).mp hp)

end Algorithms

/-! ## The collectives -/

section Jobs

variable {n r : Nat}

/-- An all-gather of something by Bruck's algorithm on `2^i + 2^j` ranks. -/
def Job.Drops (gatherEnv : AlgoEnv) (n : Nat) : Job → Prop
  | .allGather _ _ count dt => count ≠ 0 ∧ gatherEnv.logPath 65536 (count * typeSize dt) = true ∧
      ∃ i j, i < j ∧ n = 2 ^ i + 2 ^ j
  | _ => False

/-- The sum of two different powers of two is not one. -/
theorem not_pow2 {i j : Nat} (hij : i < j) : pow2 (2 ^ i + 2 ^ j) = false := by
  rw [Bool.eq_false_iff]
  intro h
  obtain ⟨k, -, hk⟩ := pow2_iff.mp h
  have hi := Nat.two_pow_pos i
  have hlt : 2 ^ i < 2 ^ j := Nat.pow_lt_pow_right (Nat.lt_succ_self 1) hij
  have hjk : 2 ^ j < 2 ^ k := by omega
  have hkj : 2 ^ k < 2 ^ (j + 1) := by
    rw [Nat.pow_succ]
    omega
  have h1 := (Nat.pow_lt_pow_iff_right (Nat.lt_succ_self 1)).mp hjk
  have h2 := (Nat.pow_lt_pow_iff_right (Nat.lt_succ_self 1)).mp hkj
  omega

theorem lossless_doAllGather {env : AlgoEnv} {s d : Ptr} {count : Nat} {dt : DataType} :
    Lossless [] (callTasks (doAllGather env n r s d count dt)) ↔
      ¬ Job.Drops env n (.allGather s d count dt) := by
  unfold doAllGather
  have hfirst : Plain ([Call.regAdd d (n * (count * typeSize dt))] ++
      if s ≠ d + r * (count * typeSize dt) then
        [Call.memcpy (d + r * (count * typeSize dt)) s (count * typeSize dt)] else []) :=
    (plain_cons rfl plain_nil).append (plain_ite (plain_cons rfl plain_nil) plain_nil)
  rw [callTasks_append, lossless_append (tasksAfter_plain hfirst)]
  refine (and_iff_right (lossless_plain hfirst)).trans ?_
  by_cases h0 : n = 1 ∨ count = 0
  · rw [if_pos h0]
    refine iff_of_true (lossless_plain plain_nil) ?_
    rintro ⟨hcount, -, i, j, hij, rfl⟩
    have := Nat.two_pow_pos i
    have := Nat.two_pow_pos j
    omega
  rw [if_neg h0]
  obtain ⟨-, hcount⟩ := not_or.mp h0
  by_cases hlog : env.logPath 65536 (count * typeSize dt) = true
  · rw [if_pos hlog]
    by_cases hpow : pow2 n = true
    · rw [if_pos hpow]
      refine iff_of_true clean_recursiveDoublingAllGather.lossless ?_
      rintro ⟨-, -, i, j, hij, rfl⟩
      rw [not_pow2 hij] at hpow
      exact Bool.false_ne_true hpow
    · rw [if_neg hpow, lossless_bruckAllGather
        (Nat.mul_ne_zero hcount (by cases dt <;> exact Nat.succ_ne_zero _))]
      constructor
      · rintro h ⟨-, -, i, j, hij, hn⟩
        exact h i j hij hn
      · intro h i j hij hn
        exact h ⟨hcount, hlog, i, j, hij, hn⟩
  · rw [if_neg hlog]
    refine iff_of_true clean_ringAllGather.lossless ?_
    rintro ⟨-, hlog', -⟩
    exact hlog hlog'

theorem clean_doAllReduce {env : AlgoEnv} {s d : Ptr} {count : Nat} {dt : DataType} {op : RedOp}
    {premul : Option Factor} : Clean (doAllReduce env n r s d count dt op premul) := by
  unfold doAllReduce
  refine Clean.append (Plain.clean (Plain.append ((plain_cons rfl plain_nil).append
    (plain_ite (plain_cons rfl plain_nil) plain_nil)) ?_)) ?_
  · cases premul with
    | none => exact plain_nil
    | some k => exact plain_cons rfl plain_nil
  refine clean_ite plain_nil.clean (clean_ite ?_ ?_)
  · refine (clean_ite clean_recursiveDoublingAllReduce clean_pow2ElimAllReduce).append ?_
    exact (plain_ite (plain_cons rfl plain_nil) plain_nil).clean
  · exact ((plain_ringReduceScatter.append
      (plain_ite (plain_cons rfl plain_nil) plain_nil)).clean).append clean_ringAllGather

/-- **Only the all-gather drops completions.** -/
theorem lossless_job (gatherEnv reduceEnv : AlgoEnv) (j : Job) :
    Lossless [] (callTasks (j.calls gatherEnv reduceEnv n r)) ↔ ¬ j.Drops gatherEnv n := by
  cases j with
  | allGather => exact lossless_doAllGather
  | reduceScatter => exact iff_of_true (lossless_plain plain_doReduceScatter) id
  | allReduce => exact iff_of_true clean_doAllReduce.lossless id
  | reduce => exact iff_of_true (lossless_plain plain_doReduce) id
  | broadcast => exact iff_of_true (lossless_plain plain_doBroadcast) id
  | gather => exact iff_of_true (lossless_plain plain_doGather) id
  | scatter => exact iff_of_true (lossless_plain plain_doScatter) id
  | allToAll => exact iff_of_true (lossless_plain plain_doAllToAllv) id
  | allToAllv => exact iff_of_true (lossless_plain plain_doAllToAllv) id

end Jobs

/-! ## Acts -/

/-- The act is a job that can drop a completion. -/
def Act.Drops (gatherEnv : AlgoEnv) (n : Nat) : Act → Prop
  | .exec (.job j) => j.Drops gatherEnv n
  | _ => False

theorem lossless_act (gatherEnv reduceEnv : AlgoEnv) (n r : Nat) (a : Act) :
    Lossless [] (a.tasks gatherEnv reduceEnv n r) ↔ ¬ a.Drops gatherEnv n := by
  cases a with
  | reg op => exact iff_of_true ⟨id, fun _ _ => trivial⟩ id
  | exec e =>
    cases e with
    | batch ops => exact iff_of_true ⟨id, fun _ _ => trivial⟩ id
    | single op =>
      have hop : Plain [op.call] := by
        refine plain_cons ?_ plain_nil
        unfold P2pOp.call
        split <;> rfl
      exact iff_of_true (lossless_plain hop) id
    | job j =>
      refine Iff.trans ?_ (lossless_job (r := r) gatherEnv reduceEnv j)
      have hj := (disciplined_calls (n := n) (r := r) gatherEnv reduceEnv j).after
      have hbooks : tasksAfter [] [Task.reg .enter] = some [] := rfl
      show Lossless [] ([Task.reg .enter] ++ (callTasks (j.calls gatherEnv reduceEnv n r) ++
        [Task.reg (.leave 0)])) ↔ _
      rw [lossless_append hbooks, lossless_append hj]
      exact ⟨fun h => h.2.1, fun h => ⟨⟨id, fun _ _ => trivial⟩, h, id, fun _ _ => trivial⟩⟩

theorem acts_lossless_iff (gatherEnv reduceEnv : AlgoEnv) (n r : Nat) : ∀ acts : List Act,
    Lossless [] (actTasks gatherEnv reduceEnv n r acts) ↔ ∀ a ∈ acts, ¬ a.Drops gatherEnv n
  | [] => iff_of_true trivial fun a ha => absurd ha List.not_mem_nil
  | a :: acts => by
    rw [actTasks, List.flatMap_cons, lossless_append (tasksAfter_act gatherEnv reduceEnv n r a),
      List.forall_mem_cons, lossless_act]
    exact and_congr_right fun _ => acts_lossless_iff gatherEnv reduceEnv n r acts

/-- **A rank can always finish if and only if no all-gather of it takes Bruck's algorithm on
`2^i + 2^j` ranks.** In every run of its collectives, batches and registrations, whenever completions
come in, every state reached leads on to the end; with such an all-gather some run drops the
completion of a later step, and its rank polls for it for ever. -/
theorem collectives_finish_iff (cap : Nat) (user : Nat → Nat) (reg : Registry)
    (maxInline : Nat → Nat) (gatherEnv reduceEnv : AlgoEnv) (n r : Nat) (acts : List Act) :
    (∀ s, RReach cap user ⟨reg, .init maxInline, actTasks gatherEnv reduceEnv n r acts, none⟩ s →
      ∃ s', RReach cap user s s' ∧ s'.Finished) ↔ ∀ a ∈ acts, ¬ a.Drops gatherEnv n :=
  (finishes_iff cap user reg maxInline (tasksAfter_acts gatherEnv reduceEnv n r acts)).trans
    (acts_lossless_iff gatherEnv reduceEnv n r acts)

/-- **No completion is lost** otherwise: at every moment of every run and for every peer, the receives
posted, reaped and credited, with those the loop at work has counted, are the ones pre-posted and not
claimed and those the loop needs; and likewise the sends. -/
theorem completions_conserved (cap : Nat) (user : Nat → Nat) (reg : Registry)
    (maxInline : Nat → Nat) (gatherEnv reduceEnv : AlgoEnv) (n r : Nat) (acts : List Act)
    (h : ∀ a ∈ acts, ¬ a.Drops gatherEnv n) (s : VRank)
    (hrun : RReach cap user
      ⟨reg, .init maxInline, actTasks gatherEnv reduceEnv n r acts, none⟩ s) (p : Nat) :
    (s.tr.recvq p).length + s.tr.unreaped true p + s.tr.recvSurplus p +
        ofWait Wait.recvDone s.wait p =
      (s.tr.prePostedRecv p).sum + ofWait Wait.recvNeed s.wait p ∧
    (s.tr.sendq p).length + s.tr.unreaped false p + ofWait Wait.sendDone s.wait p =
      ofWait Wait.sendNeed s.wait p :=
  ((acts_lossless_iff gatherEnv reduceEnv n r acts).mpr h).counts cap user reg maxInline
    (tasksAfter_acts gatherEnv reduceEnv n r acts) hrun p

/-- Four ranks gather eight bytes each by recursive doubling: the receive of the second step is
pre-posted. -/
theorem completions_conserved_four : ∃ s, RReach 0 (fun _ => 4096) ⟨.init true, .init fun _ => 220,
      actTasks ⟨none, none⟩ ⟨none, none⟩ 4 0
        [.exec (.job (.allGather ⟨.user 0, 0⟩ ⟨.user 0, 0⟩ 8 .int8))], none⟩ s ∧
    (s.tr.recvq 2).length = 1 ∧
    ((s.tr.recvq 2).length + s.tr.unreaped true 2 + s.tr.recvSurplus 2 +
        ofWait Wait.recvDone s.wait 2 =
      (s.tr.prePostedRecv 2).sum + ofWait Wait.recvNeed s.wait 2 ∧
    (s.tr.sendq 2).length + s.tr.unreaped false 2 + ofWait Wait.sendDone s.wait 2 =
      ofWait Wait.sendNeed s.wait 2) := by
  have hstart : RReach 0 (fun _ => 4096) ⟨.init true, .init fun _ => 220,
      actTasks ⟨none, none⟩ ⟨none, none⟩ 4 0
        [.exec (.job (.allGather ⟨.user 0, 0⟩ ⟨.user 0, 0⟩ 8 .int8))], none⟩ _ := .refl
  have hrun := ((hstart.step (.book _ rfl rfl (.reg _))).step (.book _ rfl rfl (.add _ _))).step
    (.post _ rfl rfl rfl)
  refine ⟨_, hrun, rfl, completions_conserved 0 (fun _ => 4096) (.init true) (fun _ => 220) ⟨none, none⟩
    ⟨none, none⟩ 4 0 _ (fun a ha => ?_) _ hrun 2⟩
  obtain rfl := List.mem_singleton.mp ha
  rintro ⟨-, -, i, j, hij, hn⟩
  have hpow := not_pow2 hij
  rw [← hn] at hpow
  cases hpow

end Vccl
