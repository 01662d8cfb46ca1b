import Vccl.AllReduce

/-!
# All-reduce, under the laws of the element operation

`allReduced` is a fixed combination of the inputs (`Vccl.AllReduce`). Two laws of the operation
turn it into what a user expects:

* commutativity alone makes all ranks agree bit for bit (`allReduced_agree`), since partners of
  recursive doubling combine the same two values in opposite orders, and the ring computes each
  element once;
* with associativity the value is the fold over the ranks, each rank entering once: over an aligned
  group, over the pairs and singles of the elimination, around the ring (`allReduced_combines`).
-/

namespace Vccl

open Net (Combines Lawful butterfly ringFold foldRange)

/-! ## Each rank enters once -/

section Generic

variable {α β : Type} {n : Nat}

/-- The pairs and singles of the elimination, for any binary operation: `folded` is this at
`cpuReduce`. -/
def paired (f : α → α → α) (y : Nat → α) (extra j : Nat) : α :=
  if j < extra then f (y (2 * j)) (y (2 * j + 1)) else y (j + extra)

/-- The bracketing of `doAllReduce` for any binary operation. -/
def combined (f : α → α → α) (log : Bool) (n count : Nat) (y : Nat → α) (r k : Nat) : α :=
  if n = 1 then y r
  else if log then
    if pow2 n then butterfly f y (steps n) r
    else butterfly f (paired f y (n - elimP2 n)) (steps (elimP2 n)) (survivor (n - elimP2 n) r)
  else ringFold f y n (k / chunkLen count n) (n - 1)

variable {f : α → α → α} {y : Nat → α}

theorem butterfly_combines_range {p r i : Nat} (hr : r < 2 ^ i) (hp : p = 2 ^ i) :
    ∃ l, l.Perm (List.range p) ∧ Combines f y l (butterfly f y i r) := by
  obtain ⟨l, hl, hc⟩ := Net.butterfly_combines f y i r
  refine ⟨l, ?_, hc⟩
  rwa [Nat.shiftRight_eq_div_pow, Nat.div_eq_of_lt hr, Nat.zero_shiftLeft, ← hp,
    ← List.range_eq_range'] at hl

/-- The ranks a survivor stands for. -/
def standsFor (extra j : Nat) : List Nat :=
  if j < extra then [2 * j, 2 * j + 1] else [j + extra]

theorem paired_combines (extra j : Nat) :
    Combines f y (standsFor extra j) (paired f y extra j) := by
  unfold standsFor paired
  split
  · exact .node (.leaf (2 * j)) (.leaf (2 * j + 1))
  · exact .leaf (j + extra)

/-- The survivors stand for all ranks, in order. -/
theorem standsFor_range {extra p2 : Nat} (h : extra ≤ p2) :
    (List.range p2).flatMap (standsFor extra) = List.range (p2 + extra) := by
  have hpairs : ∀ e, e ≤ extra → (List.range e).flatMap (standsFor extra) = List.range (2 * e) := by
    intro e
    induction e with
    | zero => intro _; rfl
    | succ e ih =>
      intro he
      rw [List.range_succ, List.flatMap_append, ih (by omega), Nat.mul_succ, List.range_succ,
        List.range_succ]
      simp [standsFor, show e < extra by omega]
  have hall : ∀ d, (List.range (extra + d)).flatMap (standsFor extra) =
      List.range (extra + d + extra) := by
    intro d
    induction d with
    | zero =>
      rw [Nat.add_zero, hpairs extra (Nat.le_refl extra), Nat.two_mul]
    | succ d ih =>
      rw [← Nat.add_assoc, List.range_succ, List.flatMap_append, ih,
        show extra + d + 1 + extra = extra + d + extra + 1 by omega, List.range_succ]
      simp [standsFor]
  have := hall (p2 - extra)
  rwa [Nat.add_sub_cancel' h] at this

theorem survivor_lt {r : Nat} (hn : 0 < n) (hr : r < n) : survivor (n - elimP2 n) r < elimP2 n := by
  have := two_extra_le hn
  unfold survivor
  split <;> omega

/-- **Each rank enters once**, whatever the path. -/
theorem combined_combines (log : Bool) {count r k : Nat} (hr : r < n) (hk : k < count) :
    ∃ l, l.Perm (List.range n) ∧ Combines f y l (combined f log n count y r k) := by
  have hn : 0 < n := by omega
  unfold combined
  by_cases h1 : n = 1
  · subst h1
    obtain rfl : r = 0 := by omega
    exact ⟨[0], List.Perm.refl _, .leaf 0⟩
  rw [if_neg h1]
  cases log with
  | false =>
    have hc := Net.ringFold_combines f y (chunk_lt hn hk) (n - 1)
    rw [show n - 1 + 1 = n by omega] at hc
    exact ⟨_, Net.ring_perm (chunk_lt hn hk), hc⟩
  | true =>
    simp only [if_true]
    cases hp : pow2 n with
    | true =>
      obtain ⟨j, -, rfl⟩ := pow2_iff.mp hp
      rw [steps_two_pow]
      exact butterfly_combines_range hr rfl
    | false =>
      obtain ⟨j, hj, h2, h3⟩ := elimP2_spec hn
      have hs := survivor_lt hn hr
      have hle : n - elimP2 n ≤ elimP2 n := by rw [hj, Nat.pow_succ] at *; omega
      rw [hj, steps_two_pow, ← hj]
      obtain ⟨l, hl, hc⟩ : ∃ l, l.Perm (List.range (elimP2 n)) ∧
          Combines f (paired f y (n - elimP2 n)) l
            (butterfly f (paired f y (n - elimP2 n)) j (survivor (n - elimP2 n) r)) :=
        butterfly_combines_range (by rwa [← hj]) hj
      refine ⟨l.flatMap (standsFor (n - elimP2 n)), ?_, hc.bind fun j _ => paired_combines _ j⟩
      have hflat := hl.flatMap_right (standsFor (n - elimP2 n))
      rwa [standsFor_range hle, show elimP2 n + (n - elimP2 n) = n by omega] at hflat

end Generic

section Once

variable {K : Kernels} {dt : DataType} {op : RedOp} {n count : Nat}
  {x : Nat → Nat → Word (typeSize dt)}

/-- `allReduced` is the bracketing at `cpuReduce`, then the `vcclAvg` factor. -/
theorem allReduced_eq (log : Bool) (r k : Nat) :
    allReduced K dt op log n count x r k =
      if n = 1 then x r k
      else averaged K op n (combined (K.reduce dt op) log n count (fun p => x p k) r k) := by
  unfold allReduced combined
  by_cases h1 : n = 1
  · rw [if_pos h1, if_pos h1]
  · rw [if_neg h1, if_neg h1, if_neg h1]
    rfl

theorem allReduced_combines (log : Bool) {r k : Nat} (hop : op ≠ .avg) (hr : r < n)
    (hk : k < count) :
    ∃ l, l.Perm (List.range n) ∧
      Combines (K.reduce dt op) (fun p => x p k) l (allReduced K dt op log n count x r k) := by
  have hval : allReduced K dt op log n count x r k =
      combined (K.reduce dt op) log n count (fun p => x p k) r k := by
    rw [allReduced_eq]
    by_cases h1 : n = 1
    · rw [if_pos h1, combined, if_pos h1]
    · rw [if_neg h1, averaged, if_neg hop]
  rw [hval]
  exact combined_combines log hr hk

/-- **Commutativity alone makes the ranks agree.** -/
theorem allReduced_agree {log : Bool} {r r' k : Nat}
    (hcomm : ∀ a b, K.reduce dt op a b = K.reduce dt op b a) (hr : r < n) (hr' : r' < n) :
    allReduced K dt op log n count x r k = allReduced K dt op log n count x r' k := by
  have hn : 0 < n := by omega
  have hzero : ∀ {i a b : Nat}, a < 2 ^ i → b < 2 ^ i → a >>> i = b >>> i := by
    intro i a b ha hb
    rw [Nat.shiftRight_eq_div_pow, Nat.shiftRight_eq_div_pow, Nat.div_eq_of_lt ha,
      Nat.div_eq_of_lt hb]
  unfold allReduced
  by_cases h1 : n = 1
  · obtain rfl : r = r' := by omega
    rfl
  rw [if_neg h1, if_neg h1]
  cases log with
  | false => rfl
  | true =>
    simp only [if_true]
    cases hp : pow2 n with
    | true =>
      obtain ⟨j, -, rfl⟩ := pow2_iff.mp hp
      simp only [if_true, steps_two_pow, doubled]
      rw [Net.butterfly_agree hcomm _ (hzero hr hr')]
    | false =>
      obtain ⟨j, hj, -, -⟩ := elimP2_spec hn
      have hs := survivor_lt hn hr
      have hs' := survivor_lt hn hr'
      simp only [Bool.false_eq_true, if_false, doubled]
      have hsame : survivor (n - elimP2 n) r >>> steps (elimP2 n) =
          survivor (n - elimP2 n) r' >>> steps (elimP2 n) := by
        rw [hj, steps_two_pow]
        exact hzero (by rwa [← hj]) (by rwa [← hj])
      rw [Net.butterfly_agree hcomm _ hsame]

end Once

/-! ## The collective -/

/-- The integer reductions of `reduce.cc` are associative and commutative: sums and products wrap,
maxima and minima compare as the type does. -/
theorem int_lawful (F : FloatArith) {dt : DataType} (h : isFloatType dt = false) (op : RedOp) :
    Lawful ((cpuKernels F).reduce dt op) :=
  ⟨int_comm F h op, int_assoc F h op⟩

/-- **All-reduce folds the inputs.** For an associative and commutative operation, integer
reductions among them, every run ends and every rank has the fold of all ranks' elements. -/
theorem allReduce_folds :
    (∀ (F : FloatArith) (dt : DataType) (op : RedOp), isFloatType dt = false →
      Lawful ((cpuKernels F).reduce dt op)) ∧
    ∀ (K : Kernels) (n : Nat) (env : Nat → AlgoEnv) (log : Bool) (sendbuff recvbuff : Nat → Ptr)
      (count : Nat) (dt : DataType) (op : RedOp) (m : Nat → Mem),
      1 ≤ n → Lawful (K.reduce dt op) → op ≠ .avg →
      (∀ r, r < n → (env r).logPath 262144 (count * typeSize dt) = log) →
      (∀ r, r < n → (recvbuff r).obj ≠ .scratch) →
      Net.Ends Net.Step
        (system K n (fun r =>
          doAllReduce (env r) n r (sendbuff r) (recvbuff r) count dt op none) m)
        fun c => (∀ r, c.code r = []) ∧ ∀ r, r < n → ∀ k, k < count →
          word (typeSize dt) (c.mem r) (recvbuff r) k =
            foldRange (K.reduce dt op) (fun p => word (typeSize dt) (m p) (sendbuff p) k) n := by
  refine ⟨fun F dt op h => int_lawful F h op, ?_⟩
  intro K n env log sendbuff recvbuff count dt op m hn hlaw hop henv hobj
  obtain ⟨hacc, hend⟩ := ends_doAllReduce K hn sendbuff op (fun _ => none) m henv hobj
  refine ⟨hacc, fun c hc hstop => ?_⟩
  obtain ⟨hdone, hval⟩ := hend c hc hstop
  refine ⟨hdone, fun r hr k hk => ?_⟩
  rw [hval r hr k hk]
  obtain ⟨l, hl, hcomb⟩ := allReduced_combines log (K := K) (x := fun p k =>
    preScaled K none (word (typeSize dt) (m p) (sendbuff p) k)) hop hr hk
  exact hcomb.perm_unique hlaw (Net.foldRange_combines _ _ hn) hl

/-- Three ranks sum two bytes each by power-of-two elimination. -/
theorem allReduce_folds_three :
    Net.Ends Net.Step
      (system (cpuKernels .idle) 3 (fun r => doAllReduce ⟨none, none⟩ 3 r (Ptr.mk (.user 0) 0)
        (Ptr.mk (.user 1) 0) 2 .uint8 .sum none) fun r _ => UInt8.ofNat (100 * r))
      fun c => (∀ r, c.code r = []) ∧ ∀ r, r < 3 → ∀ k, k < 2 →
        word 1 (c.mem r) (Ptr.mk (.user 1) 0) k =
          foldRange ((cpuKernels .idle).reduce .uint8 .sum)
            (fun p => word 1 (fun _ => UInt8.ofNat (100 * p)) (Ptr.mk (.user 0) 0) k) 3 :=
  allReduce_folds.2 (cpuKernels .idle) 3 (fun _ => ⟨none, none⟩) true (fun _ => Ptr.mk (.user 0) 0)
    (fun _ => Ptr.mk (.user 1) 0) 2 .uint8 .sum (fun r _ => UInt8.ofNat (100 * r)) (by decide)
    (allReduce_folds.1 .idle .uint8 .sum rfl) (by decide) (by decide) (by decide)

/-- **All ranks end with the same bits**, for a commutative operation that need not be
associative, on every path and also after the `vcclAvg` scaling. -/
theorem allReduce_ranks_agree (K : Kernels) (n : Nat) (hn : 1 ≤ n) (env : Nat → AlgoEnv)
    (log : Bool) (sendbuff recvbuff : Nat → Ptr) (count : Nat) (dt : DataType) (op : RedOp)
    (premul : Nat → Option Factor) (m : Nat → Mem)
    (hcomm : ∀ a b, K.reduce dt op a b = K.reduce dt op b a)
    (henv : ∀ r, r < n → (env r).logPath 262144 (count * typeSize dt) = log)
    (hobj : ∀ r, r < n → (recvbuff r).obj ≠ .scratch) :
    Net.Ends Net.Step
      (system K n (fun r =>
        doAllReduce (env r) n r (sendbuff r) (recvbuff r) count dt op (premul r)) m)
      fun c => (∀ r, c.code r = []) ∧ ∀ r, r < n → ∀ r', r' < n → ∀ k, k < count →
        word (typeSize dt) (c.mem r) (recvbuff r) k =
          word (typeSize dt) (c.mem r') (recvbuff r') k := by
  obtain ⟨hacc, hend⟩ := ends_doAllReduce K hn sendbuff op premul m henv hobj
  refine ⟨hacc, fun c hc hstop => ?_⟩
  obtain ⟨hdone, hval⟩ := hend c hc hstop
  refine ⟨hdone, fun r hr r' hr' k hk => ?_⟩
  rw [hval r hr k hk, hval r' hr' k hk]
  exact allReduced_agree hcomm hr hr'

/-- Three ranks, two elements, around the ring. -/
theorem allReduce_ranks_agree_three :
    Net.Ends Net.Step
      (system (cpuKernels .idle) 3 (fun r => doAllReduce ⟨some "ring", none⟩ 3 r
        (Ptr.mk (.user 0) 0) (Ptr.mk (.user 0) 0) 2 .int32 .prod none) fun r _ => UInt8.ofNat r)
      fun c => (∀ r, c.code r = []) ∧ ∀ r, r < 3 → ∀ r', r' < 3 → ∀ k, k < 2 →
        word 4 (c.mem r) (Ptr.mk (.user 0) 0) k = word 4 (c.mem r') (Ptr.mk (.user 0) 0) k :=
  allReduce_ranks_agree (cpuKernels .idle) 3 (by decide) (fun _ => ⟨some "ring", none⟩) false
    (fun _ => Ptr.mk (.user 0) 0) (fun _ => Ptr.mk (.user 0) 0) 2 .int32 .prod (fun _ => none)
    (fun r _ => UInt8.ofNat r) (int_comm .idle rfl .prod) (by decide) (by decide)

end Vccl
