import Vccl.Matching
import Vccl.Net.Frame

/-!
# Collectives stay inside their buffers

What a call of `collectives.cc` reads and writes is a list of byte ranges (`Call.reads`,
`Call.writes`), and the header documents the ranges of every collective (`Collective.inputs`,
`Collective.outputs`). `InBounds` goes through the calls of a rank with the size last requested from
`scratchAt`: every range read lies in a documented range or in the scratch requested, every range
written in a documented output or in scratch, receives posted ahead included.

* the index formulas of the algorithms, one by one (`Tame`: a list of calls within bounds that
  requests no scratch);
* every collective is within bounds (`inBounds_calls`), and so no run of all ranks together ever
  changes a user byte outside the outputs;
* a rank other than the root makes the same calls whatever the pointer that is significant at the
  root only (`unread_calls`).
-/

namespace Vccl

/-! ## Ranges -/

/-- A byte range: its first address and its length. -/
abbrev Range := Ptr × Nat

/-- `x` lies in `y`. -/
def Contained (x y : Range) : Prop :=
  x.1.obj = y.1.obj ∧ y.1.off ≤ x.1.off ∧ x.1.off + x.2 ≤ y.1.off + y.2

theorem contained_add {p : Ptr} {j b c : Nat} (h : j + b ≤ c) : Contained (p + j, b) (p, c) :=
  ⟨rfl, Nat.le_add_right _ _, by simp only [Ptr.add_off]; omega⟩

theorem contained_base {p : Ptr} {b c : Nat} (h : b ≤ c) : Contained (p, b) (p, c) :=
  ⟨rfl, Nat.le_refl _, Nat.add_le_add_left h _⟩

theorem Contained.inRange {x y : Range} (h : Contained x y) {a : Ptr} (ha : InRange x.1 x.2 a) :
    InRange y.1 y.2 a := by
  obtain ⟨h1, h2, h3⟩ := h
  obtain ⟨g1, g2, g3⟩ := ha
  exact ⟨g1.trans h1, by omega, by omega⟩

/-- The ranges a call reads. -/
def Call.reads : Call → List Range
  | .memcpy _ src bytes => [(src, bytes)]
  | .cpuReduce dt _ dst src count | .cpuScaledAccumulate dt dst src count _ =>
    [(dst, count * typeSize dt), (src, count * typeSize dt)]
  | .cpuScale dt dst count _ => [(dst, count * typeSize dt)]
  | .cpuScaleCopy dt _ src count _ => [(src, count * typeSize dt)]
  | .send _ buf bytes => [(buf, bytes)]
  | .sendRecv _ sbuf sbytes _ _ _ => [(sbuf, sbytes)]
  | _ => []

/-- The ranges a call writes, or posts a receive for. -/
def Call.writes : Call → List Range
  | .memcpy dst _ bytes => [(dst, bytes)]
  | .cpuReduce dt _ dst _ count | .cpuScaledAccumulate dt dst _ count _
  | .cpuScale dt dst count _ | .cpuScaleCopy dt dst _ count _ => [(dst, count * typeSize dt)]
  | .postRecvs reqs => reqs.map fun q => (q.buf, q.bytes)
  | .recv _ buf bytes => [(buf, bytes)]
  | .sendRecv _ _ _ _ rbuf rbytes => [(rbuf, rbytes)]
  | _ => []

/-- The size of scratch after a call. -/
def Call.scratchSize (size : Nat) : Call → Nat
  | .scratchAt bytes => bytes
  | _ => size

/-- `x` lies in one of the ranges, or in the scratch requested. -/
def Covered (L : List Range) (size : Nat) (x : Range) : Prop :=
  (∃ y ∈ L, Contained x y) ∨ Contained x (scratch, size)

/-- A call within bounds: inputs `I`, outputs `O`, scratch of `size` bytes. -/
structure Call.InBounds (I O : List Range) (size : Nat) (c : Call) : Prop where
  reads : ∀ x ∈ c.reads, Covered (I ++ O) size x
  writes : ∀ x ∈ c.writes, Covered O size x

/-- The calls are within bounds, one after the other, and request at most `lim` bytes of scratch. -/
def InBounds (lim : Nat) (I O : List Range) : Nat → List Call → Prop
  | _, [] => True
  | size, c :: calls => c.InBounds I O size ∧ c.scratchSize size ≤ max size lim ∧
      InBounds lim I O (c.scratchSize size) calls

/-- Calls within bounds that request no scratch. -/
def Tame (I O : List Range) (size : Nat) (calls : List Call) : Prop :=
  ∀ c ∈ calls, c.InBounds I O size ∧ c.scratchSize size = size

section Rules

variable {lim size : Nat} {I O : List Range}

theorem Tame.inBounds_append {calls rest : List Call} (h : Tame I O size calls)
    (hrest : InBounds lim I O size rest) : InBounds lim I O size (calls ++ rest) := by
  induction calls with
  | nil => exact hrest
  | cons c calls ih =>
    obtain ⟨hc, hs⟩ := h c List.mem_cons_self
    refine ⟨hc, ?_⟩
    rw [hs]
    refine ⟨Nat.le_max_left _ _, ?_⟩
    exact ih fun c' hc' => h c' (List.mem_cons_of_mem c hc')

theorem Tame.inBounds {calls : List Call} (h : Tame I O size calls) : InBounds lim I O size calls := by
  have hall : InBounds lim I O size (calls ++ []) := h.inBounds_append trivial
  rwa [List.append_nil] at hall

/-- What does not depend on scratch may follow anything. -/
theorem InBounds.append {rest : List Call} (hrest : ∀ size, InBounds lim I O size rest) :
    ∀ {calls : List Call} {size : Nat}, InBounds lim I O size calls → InBounds lim I O size (calls ++ rest)
  | [], size, _ => hrest size
  | _ :: _, _, h => ⟨h.1, h.2.1, InBounds.append hrest h.2.2⟩

theorem inBounds_scratchAt {bytes : Nat} {calls : List Call} (hlim : bytes ≤ lim)
    (h : InBounds lim I O bytes calls) :
    InBounds lim I O size (Call.scratchAt bytes :: calls) :=
  ⟨⟨fun _ hx => absurd hx List.not_mem_nil, fun _ hx => absurd hx List.not_mem_nil⟩,
    Nat.le_trans hlim (Nat.le_max_right _ _), h⟩

theorem tame_nil : Tame I O size [] := fun _ h => absurd h List.not_mem_nil

theorem Tame.append {a b : List Call} (ha : Tame I O size a) (hb : Tame I O size b) :
    Tame I O size (a ++ b) := List.forall_mem_append.mpr ⟨ha, hb⟩

theorem tame_flatMap {β : Type} {l : List β} {body : β → List Call}
    (h : ∀ s ∈ l, Tame I O size (body s)) : Tame I O size (l.flatMap body) := fun c hc => by
  obtain ⟨s, hs, hc⟩ := List.mem_flatMap.mp hc
  exact h s hs c hc

theorem tame_loop {N : Nat} {body : Nat → List Call} (h : ∀ s, s < N → Tame I O size (body s)) :
    Tame I O size ((List.range N).flatMap body) :=
  tame_flatMap fun s hs => h s (List.mem_range.mp hs)

theorem tame_ite {p : Prop} [Decidable p] {a b : List Call} (ha : p → Tame I O size a)
    (hb : ¬ p → Tame I O size b) : Tame I O size (if p then a else b) := by
  split
  · exact ha ‹_›
  · exact hb ‹_›

theorem Covered.left {x : Range} (h : Covered I size x) : Covered (I ++ O) size x :=
  h.imp_left fun ⟨y, hy, hi⟩ => ⟨y, List.mem_append_left O hy, hi⟩

theorem Covered.right {x : Range} (h : Covered O size x) : Covered (I ++ O) size x :=
  h.imp_left fun ⟨y, hy, hi⟩ => ⟨y, List.mem_append_right I hy, hi⟩

/-! A rule for every call. -/

section Calls

variable {k : List Call} {dst src : Ptr} {bytes count : Nat} {dt : DataType}

theorem tame_call {c : Call} (hs : c.scratchSize size = size)
    (hr : ∀ x ∈ c.reads, Covered (I ++ O) size x) (hw : ∀ x ∈ c.writes, Covered O size x)
    (hk : Tame I O size k) : Tame I O size (c :: k) :=
  List.forall_mem_cons.mpr ⟨⟨⟨hr, hw⟩, hs⟩, hk⟩

theorem tame_regAdd (hk : Tame I O size k) : Tame I O size (Call.regAdd dst bytes :: k) :=
  tame_call rfl (List.forall_mem_nil _) (List.forall_mem_nil _) hk

theorem tame_memcpy (hs : Covered (I ++ O) size (src, bytes)) (hd : Covered O size (dst, bytes))
    (hk : Tame I O size k) : Tame I O size (Call.memcpy dst src bytes :: k) :=
  tame_call rfl (List.forall_mem_singleton.mpr hs) (List.forall_mem_singleton.mpr hd) hk

theorem tame_cpuReduce {op : RedOp} (hs : Covered (I ++ O) size (src, count * typeSize dt))
    (hd : Covered O size (dst, count * typeSize dt)) (hk : Tame I O size k) :
    Tame I O size (Call.cpuReduce dt op dst src count :: k) :=
  tame_call rfl (List.forall_mem_cons.mpr ⟨hd.right, List.forall_mem_singleton.mpr hs⟩)
    (List.forall_mem_singleton.mpr hd) hk

theorem tame_cpuScale {c : Coef} (hd : Covered O size (dst, count * typeSize dt))
    (hk : Tame I O size k) : Tame I O size (Call.cpuScale dt dst count c :: k) :=
  tame_call rfl (List.forall_mem_singleton.mpr hd.right) (List.forall_mem_singleton.mpr hd) hk

theorem tame_cpuScaleCopy {c : Coef} (hs : Covered (I ++ O) size (src, count * typeSize dt))
    (hd : Covered O size (dst, count * typeSize dt)) (hk : Tame I O size k) :
    Tame I O size (Call.cpuScaleCopy dt dst src count c :: k) :=
  tame_call rfl (List.forall_mem_singleton.mpr hs) (List.forall_mem_singleton.mpr hd) hk

theorem tame_cpuScaledAccumulate {c : Coef}
    (hs : Covered (I ++ O) size (src, count * typeSize dt))
    (hd : Covered O size (dst, count * typeSize dt)) (hk : Tame I O size k) :
    Tame I O size (Call.cpuScaledAccumulate dt dst src count c :: k) :=
  tame_call rfl (List.forall_mem_cons.mpr ⟨hd.right, List.forall_mem_singleton.mpr hs⟩)
    (List.forall_mem_singleton.mpr hd) hk

theorem tame_postRecvs {reqs : List RecvReq} (hd : ∀ q ∈ reqs, Covered O size (q.buf, q.bytes))
    (hk : Tame I O size k) : Tame I O size (Call.postRecvs reqs :: k) :=
  tame_call rfl (List.forall_mem_nil _) (List.forall_mem_map.mpr hd) hk

theorem tame_send {peer : Nat} (hs : Covered (I ++ O) size (src, bytes)) (hk : Tame I O size k) :
    Tame I O size (Call.send peer src bytes :: k) :=
  tame_call rfl (List.forall_mem_singleton.mpr hs) (List.forall_mem_nil _) hk

theorem tame_recv {peer : Nat} (hd : Covered O size (dst, bytes)) (hk : Tame I O size k) :
    Tame I O size (Call.recv peer dst bytes :: k) :=
  tame_call rfl (List.forall_mem_nil _) (List.forall_mem_singleton.mpr hd) hk

theorem tame_sendRecv {sp sn rp rn : Nat} (hs : Covered (I ++ O) size (src, sn))
    (hd : Covered O size (dst, rn)) (hk : Tame I O size k) :
    Tame I O size (Call.sendRecv sp src sn rp dst rn :: k) :=
  tame_call rfl (List.forall_mem_singleton.mpr hs) (List.forall_mem_singleton.mpr hd) hk

end Calls

theorem covered_scratch {L : List Range} {j b : Nat} (h : j + b ≤ size) :
    Covered L size (scratch + j, b) := Or.inr (contained_add h)

theorem covered_add {L : List Range} {p : Ptr} {j b total : Nat} (hp : (p, total) ∈ L)
    (h : j + b ≤ total) : Covered L size (p + j, b) := Or.inl ⟨_, hp, contained_add h⟩

end Rules

/-! ## The algorithms -/

section Algorithms

variable {lim size n r : Nat} {I O : List Range} {recv : Ptr} {dt : DataType} {op : RedOp}

theorem le_foldl_max (f : Nat → Nat) {N i : Nat} (hi : i < N) :
    f i ≤ (List.range N).foldl (fun b i => max b (f i)) 0 := by
  induction N with
  | zero => exact absurd hi (Nat.not_lt_zero i)
  | succ N ih =>
    rw [List.range_succ, List.foldl_append]
    simp only [List.foldl_cons, List.foldl_nil]
    rcases Nat.lt_or_eq_of_le (Nat.le_of_lt_succ hi) with h | rfl
    · exact Nat.le_trans (ih h) (Nat.le_max_left _ _)
    · exact Nat.le_max_right _ _

/-- The loop of `ringReduceScatter`, on a chunk table inside `[recv, recv + total)`. -/
theorem tame_ringReduceScatter {chunks : Nat → Chunk} {total : Nat} (hn : 0 < n)
    (hO : (recv, total) ∈ O) (hc : ∀ i, i < n → (chunks i).offset + (chunks i).bytes ≤ total)
    (hs : ∀ i, i < n → (chunks i).bytes ≤ size) :
    Tame I O size ((List.range (n - 1)).flatMap fun s =>
      [Call.sendRecv (next n r) (recv + (chunks ((r + n - s) % n)).offset)
          (chunks ((r + n - s) % n)).bytes (prev n r) scratch
          (chunks ((r + 2 * n - s - 1) % n)).bytes] ++
        if (chunks ((r + 2 * n - s - 1) % n)).bytes > 0 then
          [Call.cpuReduce dt op (recv + (chunks ((r + 2 * n - s - 1) % n)).offset) scratch
            ((chunks ((r + 2 * n - s - 1) % n)).bytes / typeSize dt)]
        else []) := by
  refine tame_loop fun s _ => ?_
  have h1 := hc ((r + n - s) % n) (Nat.mod_lt _ hn)
  have h2 := hc ((r + 2 * n - s - 1) % n) (Nat.mod_lt _ hn)
  have h3 := hs ((r + 2 * n - s - 1) % n) (Nat.mod_lt _ hn)
  have hdiv := Nat.div_mul_le_self (chunks ((r + 2 * n - s - 1) % n)).bytes (typeSize dt)
  exact tame_sendRecv (covered_add hO h1).right (covered_scratch (j := 0) (by omega))
    (tame_ite (fun _ => tame_cpuReduce (covered_scratch (j := 0) (by omega))
      (covered_add hO (by omega)) tame_nil) fun _ => tame_nil)

theorem tame_ringAllGather {chunks : Nat → Chunk} {total shift : Nat} (hn : 0 < n)
    (hO : (recv, total) ∈ O) (hc : ∀ i, i < n → (chunks i).offset + (chunks i).bytes ≤ total) :
    Tame I O size (ringAllGather n r recv chunks shift) := by
  have h : ∀ a, Covered O size (recv + (chunks (a % n)).offset, (chunks (a % n)).bytes) :=
    fun a => covered_add hO (hc _ (Nat.mod_lt _ hn))
  refine tame_postRecvs (fun q hq => ?_) (tame_loop fun s _ => tame_sendRecv (h _).right (h _) tame_nil)
  obtain ⟨s, -, rfl⟩ := List.mem_map.mp hq
  exact h _

/-- An aligned group of `2^i` blocks. -/
theorem group_le {k i x : Nat} (hx : x < 2 ^ k) (hi : i < k) : (x >>> i) <<< i + 2 ^ i ≤ 2 ^ k := by
  rw [Nat.shiftRight_eq_div_pow, Nat.shiftLeft_eq, ← Nat.succ_mul]
  have hlt : x / 2 ^ i < 2 ^ (k - i) := by
    rw [Nat.div_lt_iff_lt_mul (Nat.two_pow_pos i), ← Nat.pow_add]
    rwa [show k - i + i = k by omega]
  calc (x / 2 ^ i + 1) * 2 ^ i ≤ 2 ^ (k - i) * 2 ^ i := Nat.mul_le_mul_right _ hlt
    _ = 2 ^ k := by rw [← Nat.pow_add, show k - i + i = k by omega]

theorem tame_recursiveDoublingAllGather {k cb : Nat} (hk : n = 2 ^ k) (hr : r < n)
    (hO : (recv, n * cb) ∈ O) : Tame I O size (recursiveDoublingAllGather n r recv cb) := by
  have h : ∀ x i, x < n → i < steps n →
      Covered O size (recv + (x >>> i) <<< i * cb, cb * 2 ^ i) := by
    intro x i hx hi
    refine covered_add hO ?_
    rw [hk] at hx hi ⊢
    rw [steps_two_pow] at hi
    have hle := Nat.mul_le_mul_right cb (group_le hx hi)
    rw [Nat.add_mul, Nat.mul_comm (2 ^ i)] at hle
    exact hle
  have hx : ∀ i, i < steps n → r ^^^ (1 <<< i) < n := by
    intro i hi
    rw [hk] at hr hi ⊢
    rw [steps_two_pow] at hi
    exact Net.xor_lt_two_pow hr hi
  refine tame_postRecvs (fun q hq => ?_) (tame_loop fun i hi =>
    tame_sendRecv (h r i hr hi).right (h _ i (hx i hi) hi) tame_nil)
  obtain ⟨i, hi, rfl⟩ := List.mem_map.mp hq
  have hi := List.mem_range.mp hi
  exact h _ i (hx i hi) hi

theorem inBounds_bruckAllGather {cb : Nat} (hlim : n * cb ≤ lim) (hr : r < n) (hO : (recv, n * cb) ∈ O) :
    InBounds lim I O size (bruckAllGather n r recv cb) := by
  have hn : 0 < n := by omega
  unfold bruckAllGather
  rw [bruckSteps_eq, List.flatMap_map, List.map_map, List.append_assoc, List.append_assoc]
  have hmul : ∀ {a b : Nat}, a + b ≤ n → a * cb + b * cb ≤ n * cb := fun h => by
    rw [← Nat.add_mul]
    exact Nat.mul_le_mul_right cb h
  have hone : ∀ i, i < n → i * cb + cb ≤ n * cb := fun i hi => by
    have := hmul (show i + 1 ≤ n by omega)
    rwa [Nat.one_mul] at this
  have hstep : ∀ i, i < steps n → 2 ^ i * cb + bruckWidth n i * cb ≤ n * cb := fun i hi => by
    refine hmul ?_
    have := lt_steps_iff.mp hi
    unfold bruckWidth
    omega
  refine Tame.inBounds_append (tame_ite (fun _ => tame_memcpy (covered_add hO (hone r hr)).right
    (covered_add (j := 0) hO ?_) tame_nil) fun _ => tame_nil) ?_
  · have := hone 0 hn
    omega
  refine Tame.inBounds_append (tame_postRecvs (fun q hq => ?_) tame_nil)
    (Tame.inBounds_append (tame_loop fun i hi => tame_sendRecv (covered_add (j := 0) hO ?_).right
      (covered_add hO (hstep i hi)) tame_nil) ?_)
  · obtain ⟨i, hi, rfl⟩ := List.mem_map.mp hq
    exact covered_add hO (hstep i (List.mem_range.mp hi))
  · have := hstep i hi
    omega
  · split
    · -- the rotation through scratch
      refine inBounds_scratchAt hlim (Tame.inBounds_append ?_ (Tame.inBounds (tame_memcpy
        (covered_scratch (j := 0) (by omega)) (covered_add (j := 0) hO (by omega)) tame_nil)))
      rw [List.map_eq_flatMap]
      exact tame_loop fun i hi => tame_memcpy (covered_add hO (hone i hi)).right
        (covered_scratch (hone _ (Nat.mod_lt _ hn))) tame_nil
    · trivial

/-- Region `i` of `N` in scratch. -/
theorem covered_region {L : List Range} {i N bytes : Nat} (hi : i < N) :
    Covered L (N * bytes) (scratch + i * bytes, bytes) := by
  refine covered_scratch ?_
  have := Nat.mul_le_mul_right bytes (show i + 1 ≤ N from hi)
  rwa [Nat.succ_mul] at this

theorem inBounds_recursiveDoublingAllReduce {count : Nat}
    (hlim : steps n * (count * typeSize dt) ≤ lim) (hO : (recv, count * typeSize dt) ∈ O) :
    InBounds lim I O size (recursiveDoublingAllReduce n r recv count dt op) := by
  have hrecv : ∀ sz, Covered O sz (recv, count * typeSize dt) := fun sz =>
    covered_add (j := 0) hO (by omega)
  refine inBounds_scratchAt hlim (Tame.inBounds (tame_postRecvs (fun q hq => ?_)
    (tame_loop fun i hi => tame_sendRecv (hrecv _).right (covered_region hi)
      (tame_cpuReduce (covered_region hi) (hrecv _) tame_nil))))
  obtain ⟨i, hi, rfl⟩ := List.mem_map.mp hq
  exact covered_region (List.mem_range.mp hi)

theorem inBounds_pow2ElimAllReduce {count : Nat}
    (hlim : (1 + steps (elimP2 n)) * (count * typeSize dt) ≤ lim) (hO : (recv, count * typeSize dt) ∈ O) :
    InBounds lim I O size (pow2ElimAllReduce n r recv count dt op) := by
  have hrecv : ∀ sz, Covered O sz (recv, count * typeSize dt) := fun sz =>
    covered_add (j := 0) hO (by omega)
  have hfold : ∀ {L : List Range}, Covered L ((1 + steps (elimP2 n)) * (count * typeSize dt))
      (scratch, count * typeSize dt) := by
    intro L
    have h : Covered L ((1 + steps (elimP2 n)) * (count * typeSize dt))
        (scratch + 0 * (count * typeSize dt), count * typeSize dt) := covered_region (by omega)
    rwa [Nat.zero_mul] at h
  -- the regions of the core steps come after the one of the fold
  have hcore : ∀ {L : List Range}, ∀ cp ∈ corePeers n (n - elimP2 n) (count * typeSize dt)
      (newRank (n - elimP2 n) r), Covered L ((1 + steps (elimP2 n)) * (count * typeSize dt))
        (cp.2, count * typeSize dt) := by
    intro L cp hcp
    cases hnew : newRank (n - elimP2 n) r with
    | none =>
      rw [hnew] at hcp
      exact absurd hcp List.not_mem_nil
    | some j =>
      rw [hnew] at hcp
      obtain ⟨i, hi, rfl⟩ := List.mem_map.mp hcp
      have := List.mem_range.mp hi
      exact covered_region (by omega)
  refine inBounds_scratchAt hlim (Tame.inBounds (tame_postRecvs (fun q hq => ?_) (Tame.append
    (Tame.append (tame_ite (fun _ => ?_) fun _ => tame_ite (fun _ => ?_) fun _ => tame_nil)
      (tame_flatMap fun cp hcp => ?_)) (tame_ite (fun _ => ?_) fun _ => tame_ite (fun _ => ?_)
        fun _ => tame_nil))))
  · rcases List.mem_append.mp hq with hq | hq
    · rcases List.mem_append.mp hq with hq | hq
      · split at hq
        · rw [List.mem_singleton.mp hq]
          exact hfold
        · exact absurd hq List.not_mem_nil
      · split at hq
        · rw [List.mem_singleton.mp hq]
          exact hrecv _
        · exact absurd hq List.not_mem_nil
    · obtain ⟨cp, hcp, rfl⟩ := List.mem_map.mp hq
      exact hcore cp hcp
  · exact tame_recv hfold (tame_cpuReduce hfold (hrecv _) tame_nil)
  · exact tame_send (hrecv _).right tame_nil
  · exact tame_sendRecv (hrecv _).right (hcore cp hcp)
      (tame_cpuReduce (hcore cp hcp) (hrecv _) tame_nil)
  · exact tame_send (hrecv _).right tame_nil
  · exact tame_recv (hrecv _) tame_nil

theorem makeChunks_le (n count e i : Nat) :
    (makeChunks count n e i).offset + (makeChunks count n e i).bytes ≤ count * e := by
  simp only [makeChunks]
  rw [← Nat.add_mul]
  refine Nat.mul_le_mul_right e ?_
  have : (count + n - 1) / n * i ≤ (count + n - 1) / n * (i + 1) :=
    Nat.mul_le_mul_left _ (Nat.le_succ i)
  omega

theorem steps_le (n : Nat) : steps n ≤ n := by
  by_contra h
  have h1 := lt_steps_iff.mp (Nat.lt_of_not_le h)
  have h2 : n < 2 ^ n := Nat.lt_two_pow_self
  omega

theorem elimP2_le (hn : 0 < n) : elimP2 n ≤ n := by
  obtain ⟨k, hk, h1, -⟩ := elimP2_spec hn
  rw [hk]
  exact h1

theorem foldl_max_le {f : Nat → Nat} {b : Nat} (h : ∀ i, f i ≤ b) :
    ∀ l : List Nat, l.foldl (fun b i => max b (f i)) 0 ≤ b := by
  have key : ∀ (l : List Nat) (a : Nat), a ≤ b → l.foldl (fun b i => max b (f i)) a ≤ b := by
    intro l
    induction l with
    | nil => exact fun _ ha => ha
    | cons i l ih => exact fun a ha => ih _ (Nat.max_le.mpr ⟨ha, h i⟩)
  exact fun l => key l 0 (Nat.zero_le b)

theorem inBounds_doAllReduce {env : AlgoEnv} {sendbuff : Ptr} {count : Nat}
    {premul : Option Factor} (hlim : (n + 2) * (count * typeSize dt) ≤ lim) (hn : 0 < n) (hI : (sendbuff, count * typeSize dt) ∈ I)
    (hO : (recv, count * typeSize dt) ∈ O) :
    InBounds lim I O size (doAllReduce env n r sendbuff recv count dt op premul) := by
  have hrecv : ∀ sz, Covered O sz (recv, count * typeSize dt) := fun sz =>
    covered_add (j := 0) hO (by omega)
  have hscale : ∀ sz c, Tame I O sz [Call.cpuScale dt recv count c] := fun sz c =>
    tame_cpuScale (hrecv sz) tame_nil
  unfold doAllReduce
  simp only [List.append_assoc]
  refine Tame.inBounds_append (tame_regAdd tame_nil) (Tame.inBounds_append (tame_ite (fun _ =>
    tame_memcpy (covered_add (j := 0) hI (by omega)).left (hrecv _) tame_nil) fun _ => tame_nil)
    (Tame.inBounds_append ?_ ?_))
  · cases premul with
    | none => exact tame_nil
    | some k => exact hscale _ _
  split
  · trivial
  split
  · refine InBounds.append (fun sz => (tame_ite (fun _ => hscale sz _) fun _ => tame_nil).inBounds) ?_
    have hsteps := steps_le n
    have hcore := steps_le (elimP2 n)
    have hp2 := elimP2_le hn
    split
    · exact inBounds_recursiveDoublingAllReduce
        (Nat.le_trans (Nat.mul_le_mul_right _ (by omega)) hlim) hO
    · exact inBounds_pow2ElimAllReduce
        (Nat.le_trans (Nat.mul_le_mul_right _ (by omega)) hlim) hO
  · refine InBounds.append (fun sz => ?_) (inBounds_scratchAt ?_ (Tame.inBounds
      (tame_ringReduceScatter hn hO (fun i _ => makeChunks_le n count _ i) fun i hi =>
        le_foldl_max (fun i => (makeChunks count n (typeSize dt) i).bytes) hi)))
    rotate_left
    · refine Nat.le_trans (foldl_max_le (b := count * typeSize dt) (fun i => ?_) _) ?_
      · have := makeChunks_le n count (typeSize dt) i
        omega
      · have := Nat.mul_le_mul_right (count * typeSize dt) (show 1 ≤ n + 2 by omega)
        omega
    refine Tame.inBounds_append (tame_ite (fun _ => ?_) fun _ => tame_nil)
      (tame_ringAllGather hn hO fun i _ => makeChunks_le n count _ i).inBounds
    refine tame_cpuScale (covered_add hO ?_) tame_nil
    have h1 := makeChunks_le n count (typeSize dt) ((r + 1) % n)
    have h2 := Nat.div_mul_le_self (makeChunks count n (typeSize dt) ((r + 1) % n)).bytes (typeSize dt)
    omega

theorem inBounds_doAllGather {env : AlgoEnv} {sendbuff : Ptr} {count : Nat}
    (hlim : (n + 2) * (count * typeSize dt) ≤ lim) (hr : r < n)
    (hI : (sendbuff, count * typeSize dt) ∈ I) (hO : (recv, n * (count * typeSize dt)) ∈ O) :
    InBounds lim I O size (doAllGather env n r sendbuff recv count dt) := by
  have hone : ∀ i, i < n → i * (count * typeSize dt) + count * typeSize dt ≤
      n * (count * typeSize dt) := fun i hi => by
    have := Nat.mul_le_mul_right (count * typeSize dt) (show i + 1 ≤ n by omega)
    rwa [Nat.succ_mul] at this
  unfold doAllGather
  rw [List.append_assoc]
  refine Tame.inBounds_append (tame_regAdd tame_nil) (Tame.inBounds_append (tame_ite (fun _ =>
    tame_memcpy (covered_add (j := 0) hI (by omega)).left (covered_add hO (hone r hr)) tame_nil)
    fun _ => tame_nil) ?_)
  split
  · trivial
  split
  · cases hp : pow2 n with
    | true =>
      obtain ⟨k, -, hk⟩ := pow2_iff.mp hp
      exact (tame_recursiveDoublingAllGather hk hr hO).inBounds
    | false =>
      exact inBounds_bruckAllGather (Nat.le_trans (Nat.mul_le_mul_right _ (by omega)) hlim) hr hO
  · exact (tame_ringAllGather (by omega) hO hone).inBounds

theorem inBounds_doReduceScatter {sendbuff : Ptr} {count : Nat} {premul : Option Factor}
    (hlim : (n + 2) * (count * typeSize dt) ≤ lim) (hn : 0 < n) (hI : (sendbuff, n * (count * typeSize dt)) ∈ I)
    (hO : (recv, count * typeSize dt) ∈ O) :
    InBounds lim I O size (doReduceScatter n r sendbuff recv count dt op premul) := by
  have hrecv : ∀ sz, Covered O sz (recv, count * typeSize dt) := fun sz =>
    covered_add (j := 0) hO (by omega)
  have hblock : ∀ sz a, Covered (I ++ O) sz
      (sendbuff + a % n * (count * typeSize dt), count * typeSize dt) := fun sz a => by
    refine (covered_add hI ?_).left
    have := Nat.mul_le_mul_right (count * typeSize dt) (show a % n + 1 ≤ n from Nat.mod_lt _ hn)
    rwa [Nat.succ_mul] at this
  unfold doReduceScatter
  refine Tame.inBounds_append (tame_regAdd tame_nil) ?_
  split
  · -- one rank, or nothing to do
    refine Tame.inBounds (Tame.append (tame_ite (fun _ => tame_memcpy
      (covered_add (j := 0) hI ?_).left (hrecv _) tame_nil) fun _ => tame_nil) ?_)
    · have := Nat.mul_le_mul_right (count * typeSize dt) (show 1 ≤ n from hn)
      omega
    · cases premul with
      | none => exact tame_nil
      | some k => exact tame_cpuScale (hrecv _) tame_nil
  · have hthree : premul.isSome →
        3 * (count * typeSize dt) ≤ (if premul.isSome then 3 else 2) * (count * typeSize dt) :=
      fun h => by rw [if_pos h]
    have htwo : 2 * (count * typeSize dt) ≤
        (if premul.isSome then 3 else 2) * (count * typeSize dt) :=
      Nat.mul_le_mul_right _ (by split <;> omega)
    refine inBounds_scratchAt (Nat.le_trans (Nat.mul_le_mul_right _ ?_) hlim) ?_
    · split <;> omega
    generalize (if premul.isSome then 3 else 2) * (count * typeSize dt) = sz at hthree htwo ⊢
    have hbuf : ∀ {L : List Range} (s : Nat), Covered L sz
        (if s % 2 = 0 then scratch else scratch + count * typeSize dt, count * typeSize dt) := by
      intro L s
      by_cases h : s % 2 = 0
      · rw [if_pos h]
        exact covered_scratch (j := 0) (by omega)
      · rw [if_neg h]
        exact covered_scratch (by omega)
    have hscaled : ∀ {L : List Range}, premul.isSome →
        Covered L sz (scratch + 2 * (count * typeSize dt), count * typeSize dt) := fun h =>
      covered_scratch (by have := hthree h; omega)
    refine Tame.inBounds (Tame.append (Tame.append ?_ (tame_loop fun s _ =>
      tame_sendRecv ?_ (hbuf s) (tame_ite (fun _ => Tame.append ?_ (tame_cpuReduce (hbuf s)
        (hrecv _) tame_nil)) fun _ => ?_))) (tame_ite (fun _ => tame_cpuScale (hrecv _) tame_nil)
          fun _ => tame_nil))
    · cases premul with
      | none => exact tame_nil
      | some k => exact tame_cpuScaleCopy (hblock _ _) (hscaled rfl) tame_nil
    · by_cases h0 : s = 0
      · simp only [if_pos h0]
        cases premul with
        | none => exact hblock _ _
        | some k => exact hscaled rfl
      · simp only [if_neg h0]
        exact hbuf (s - 1)
    · cases premul with
      | none =>
        exact tame_ite (fun _ => tame_memcpy (hblock _ _) (hrecv _) tame_nil) fun _ => tame_nil
      | some k => exact tame_cpuScaleCopy (hblock _ _) (hrecv _) tame_nil
    · cases premul with
      | none => exact tame_cpuReduce (hblock _ _) (hbuf s) tame_nil
      | some k => exact tame_cpuScaledAccumulate (hblock _ _) (hbuf s) tame_nil

/-- Piece `j` of the pipeline. -/
theorem piece_le {pipe bytes j : Nat} (hk : 0 < pipe) (hj : j < (bytes + pipe - 1) / pipe) :
    j * pipe + min pipe (bytes - j * pipe) ≤ bytes := by
  have h := piece_ne_zero hk hj
  omega

theorem inBounds_doReduce {send : Ptr} {count root : Nat} {premul : Option Factor}
    (hlim : kPipeBytes ≤ lim) (hI : (send, count * typeSize dt) ∈ I)
    (hO : r = root ∨ n = 1 → (recv, count * typeSize dt) ∈ O) :
    InBounds lim I O size (doReduce n r send recv count dt op premul root) := by
  have hpipe : 0 < kPipeBytes := by decide
  unfold doReduce pieces
  generalize kPipeBytes = pipe at hpipe hlim ⊢
  split
  · rename_i hn
    have hrecv : Covered O size (recv, count * typeSize dt) :=
      covered_add (j := 0) (hO (Or.inr hn)) (by omega)
    refine Tame.inBounds (Tame.append (tame_ite (fun _ => tame_memcpy
      (covered_add (j := 0) hI (by omega)).left hrecv tame_nil) fun _ => tame_nil) ?_)
    cases premul with
    | none => exact tame_nil
    | some k => exact tame_cpuScale hrecv tame_nil
  split
  · trivial
  refine inBounds_scratchAt hlim (Tame.inBounds (Tame.append (tame_ite (fun _ => tame_regAdd tame_nil)
    fun _ => tame_nil) (tame_loop fun j hj => ?_)))
  have hle := piece_le hpipe hj
  have hdiv := Nat.div_mul_le_self (min pipe (count * typeSize dt - j * pipe)) (typeSize dt)
  -- a piece of a buffer, by its bytes or by its elements
  have hpart : ∀ {L : List Range} {p : Ptr} {b : Nat}, (p, count * typeSize dt) ∈ L →
      b ≤ min pipe (count * typeSize dt - j * pipe) → Covered L pipe (p + j * pipe, b) :=
    fun hp hb => covered_add hp (by omega)
  have hscr : ∀ {L : List Range} {b : Nat}, b ≤ min pipe (count * typeSize dt - j * pipe) →
      Covered L pipe (scratch, b) := fun hb => covered_scratch (j := 0) (by omega)
  refine tame_ite (fun _ => ?_) fun _ => tame_ite (fun hroot => ?_) fun _ => ?_
  · cases premul with
    | none => exact tame_send (hpart hI (Nat.le_refl _)).left tame_nil
    | some k =>
      exact tame_cpuScaleCopy (hpart hI hdiv).left (hscr hdiv)
        (tame_send (hscr (Nat.le_refl _)) tame_nil)
  · have hO := hO (Or.inl hroot)
    refine tame_recv (hscr (Nat.le_refl _)) (Tame.append (Tame.append ?_ (tame_cpuReduce
      (hscr hdiv) (hpart hO hdiv) tame_nil)) (tame_ite (fun _ => tame_cpuScale (hpart hO hdiv)
        tame_nil) fun _ => tame_nil))
    cases premul with
    | none =>
      exact tame_ite (fun _ => tame_memcpy (hpart hI (Nat.le_refl _)).left
        (hpart hO (Nat.le_refl _)) tame_nil) fun _ => tame_nil
    | some k => exact tame_cpuScaleCopy (hpart hI hdiv).left (hpart hO hdiv) tame_nil
  · refine tame_recv (hscr (Nat.le_refl _)) (Tame.append ?_ (tame_send (hscr (Nat.le_refl _))
      tame_nil))
    cases premul with
    | none => exact tame_cpuReduce (hpart hI hdiv).left (hscr hdiv) tame_nil
    | some k => exact tame_cpuScaledAccumulate (hpart hI hdiv).left (hscr hdiv) tame_nil

theorem inBounds_doBroadcast {sendbuff : Ptr} {count root : Nat}
    (hI : r = root → (sendbuff, count * typeSize dt) ∈ I) (hO : (recv, count * typeSize dt) ∈ O) :
    InBounds lim I O size (doBroadcast n r sendbuff recv count dt root) := by
  have hpipe : 0 < kPipeBytes := by decide
  unfold doBroadcast pieces
  generalize kPipeBytes = pipe at hpipe ⊢
  refine Tame.inBounds_append (tame_ite (fun h => tame_memcpy
    (covered_add (j := 0) (hI h.1) (by omega)).left (covered_add (j := 0) hO (by omega)) tame_nil)
    fun _ => tame_nil) ?_
  split
  · trivial
  refine Tame.inBounds_append (tame_regAdd tame_nil) (Tame.inBounds (tame_loop fun j hj => ?_))
  have hpart : Covered O size (recv + j * pipe, min pipe (count * typeSize dt - j * pipe)) :=
    covered_add hO (piece_le hpipe hj)
  exact tame_ite (fun _ => tame_send hpart.right tame_nil) fun _ => tame_recv hpart
    (tame_ite (fun _ => tame_nil) fun _ => tame_send hpart.right tame_nil)

/-- Block `a mod n` of an array of `n`. -/
theorem covered_block {L : List Range} {p : Ptr} {a b : Nat} (hn : 0 < n) (hp : (p, n * b) ∈ L) :
    Covered L size (p + a % n * b, b) := by
  refine covered_add hp ?_
  have := Nat.mul_le_mul_right b (show a % n + 1 ≤ n from Nat.mod_lt _ hn)
  rwa [Nat.succ_mul] at this

theorem inBounds_doGather {sendbuff : Ptr} {count root : Nat} (hroot : root < n)
    (hI : (sendbuff, count * typeSize dt) ∈ I)
    (hO : r = root ∨ n = 1 → (recv, n * (count * typeSize dt)) ∈ O) :
    InBounds lim I O size (doGather n r sendbuff recv count dt root) := by
  have hsend : Covered (I ++ O) size (sendbuff, count * typeSize dt) :=
    (covered_add (j := 0) hI (by omega)).left
  unfold doGather
  refine Tame.inBounds (tame_ite (fun h0 => tame_ite (fun h1 => ?_) fun _ => tame_nil) fun _ =>
    tame_ite (fun _ => tame_regAdd (tame_send hsend tame_nil)) fun hrr => ?_)
  · have hn : n = 1 := h0.resolve_right (by omega)
    have hO := hO (Or.inr hn)
    rw [hn, Nat.one_mul] at hO
    exact tame_memcpy hsend (covered_add (j := 0) hO (by omega)) tame_nil
  · have hO := hO (Or.inl (Classical.not_not.mp hrr))
    have hown : Covered O size (recv + root * (count * typeSize dt), count * typeSize dt) := by
      have h : Covered O size (recv + root % n * (count * typeSize dt), count * typeSize dt) :=
        covered_block (by omega) hO
      rwa [Nat.mod_eq_of_lt hroot] at h
    exact tame_regAdd (Tame.append (tame_ite (fun _ => tame_memcpy hsend hown tame_nil) fun _ =>
      tame_nil) (tame_flatMap fun s _ => tame_recv (covered_block (by omega) hO) tame_nil))

theorem inBounds_doScatter {send : Ptr} {count root : Nat} (hroot : root < n)
    (hI : r = root ∨ n = 1 → (send, n * (count * typeSize dt)) ∈ I)
    (hO : (recv, count * typeSize dt) ∈ O) :
    InBounds lim I O size (doScatter n r send recv count dt root) := by
  have hrecv : Covered O size (recv, count * typeSize dt) := covered_add (j := 0) hO (by omega)
  unfold doScatter
  refine Tame.inBounds (tame_ite (fun h0 => tame_ite (fun h1 => ?_) fun _ => tame_nil) fun _ =>
    tame_ite (fun _ => tame_regAdd (tame_recv hrecv tame_nil)) fun hrr => ?_)
  · have hn : n = 1 := h0.resolve_right (by omega)
    have hI := hI (Or.inr hn)
    rw [hn, Nat.one_mul] at hI
    exact tame_memcpy (covered_add (j := 0) hI (by omega)).left hrecv tame_nil
  · have hI := hI (Or.inl (Classical.not_not.mp hrr))
    have hblock : ∀ a, Covered (I ++ O) size
        (send + a % n * (count * typeSize dt), count * typeSize dt) := fun a =>
      (covered_block (by omega) hI).left
    have hown := hblock root
    rw [Nat.mod_eq_of_lt hroot] at hown
    exact tame_regAdd (Tame.append (tame_ite (fun _ => tame_memcpy hown hrecv tame_nil) fun _ =>
      tame_nil) (tame_flatMap fun s _ => tame_send (hblock _) tame_nil))

theorem inBounds_doAllToAllv {send : Ptr} {sc sd rc rd : Nat → Nat} (hr : r < n)
    (hself : sc r = rc r) (hI : ∀ p, p < n → (send + sd p * typeSize dt, sc p * typeSize dt) ∈ I)
    (hO : ∀ p, p < n → (recv + rd p * typeSize dt, rc p * typeSize dt) ∈ O) :
    InBounds lim I O size (doAllToAllv n r send sc sd recv rc rd dt) := by
  have hin : ∀ p, p < n → Covered (I ++ O) size (send + sd p * typeSize dt, sc p * typeSize dt) :=
    fun p hp => (covered_add (j := 0) (hI p hp) (by omega)).left
  have hout : ∀ p, p < n → Covered O size (recv + rd p * typeSize dt, rc p * typeSize dt) :=
    fun p hp => covered_add (j := 0) (hO p hp) (by omega)
  have hown := hout r hr
  rw [← hself] at hown
  refine Tame.inBounds (tame_regAdd (tame_regAdd (Tame.append (tame_ite (fun _ =>
    tame_memcpy (hin r hr) hown tame_nil) fun _ => tame_nil) (tame_flatMap fun s _ =>
      tame_sendRecv (hin _ (Nat.mod_lt _ ?_)) (hout _ (Nat.mod_lt _ ?_)) tame_nil))))
  · omega
  · omega

end Algorithms

/-! ## The collectives -/

/-- The documented input of rank `r`; `sendbuff` of a broadcast or a scatter counts at the root
only. -/
def Collective.inputs (n r : Nat) : Collective → List Range
  | .allGather _ s _ count dt | .allReduce _ s _ count dt _ _ | .reduce s _ count dt _ _ _
  | .gather s _ count dt _ => [(s r, count * typeSize dt)]
  | .reduceScatter s _ count dt _ _ => [(s r, n * (count * typeSize dt))]
  | .broadcast s _ count dt root => if r = root then [(s r, count * typeSize dt)] else []
  | .scatter s _ count dt root => if r = root then [(s r, n * (count * typeSize dt))] else []
  | .allToAllv s _ cnt sdispls _ dt =>
    (List.range n).map fun p => (s r + sdispls r p * typeSize dt, cnt r p * typeSize dt)

/-- The documented output of rank `r`; `recvbuff` of a reduce or a gather counts at the root
only. -/
def Collective.outputs (n r : Nat) : Collective → List Range
  | .reduceScatter _ d count dt _ _ | .allReduce _ _ d count dt _ _ | .broadcast _ d count dt _
  | .scatter _ d count dt _ => [(d r, count * typeSize dt)]
  | .allGather _ _ d count dt => [(d r, n * (count * typeSize dt))]
  | .reduce _ d count dt _ _ root => if r = root then [(d r, count * typeSize dt)] else []
  | .gather _ d count dt root => if r = root then [(d r, n * (count * typeSize dt))] else []
  | .allToAllv _ d cnt _ rdispls dt =>
    (List.range n).map fun p => (d r + rdispls r p * typeSize dt, cnt p r * typeSize dt)

/-- `(n + 2) * count * esize < 2^63`; for all-to-all-v every displacement plus count. -/
def Collective.Small (n r : Nat) : Collective → Prop
  | .allGather _ _ _ count dt | .allReduce _ _ _ count dt _ _ | .reduce _ _ count dt _ _ _
  | .gather _ _ count dt _ | .reduceScatter _ _ count dt _ _ | .broadcast _ _ count dt _
  | .scatter _ _ count dt _ => (n + 2) * count * typeSize dt < 2 ^ 63
  | .allToAllv _ _ cnt sdispls rdispls dt => ∀ p, p < n →
    (sdispls r p + cnt r p) * typeSize dt < 2 ^ 63 ∧ (rdispls r p + cnt p r) * typeSize dt < 2 ^ 63

section Collectives

variable {n r : Nat}

/-- **Every collective is within bounds**, on every rank. -/
theorem inBounds_calls {c : Collective} (hr : r < n) (hroot : c.RootOk n) (hsmall : c.Small n r) :
    InBounds (2 ^ 63 - 1) (c.inputs n r) (c.outputs n r) 0 (c.calls n r) := by
  have hn : 0 < n := by omega
  have hpipe : kPipeBytes ≤ 2 ^ 63 - 1 := by decide
  have hlim : ∀ {count : Nat} {dt : DataType}, (n + 2) * count * typeSize dt < 2 ^ 63 →
      (n + 2) * (count * typeSize dt) ≤ 2 ^ 63 - 1 := fun h => by
    rw [← Nat.mul_assoc]
    exact Nat.le_sub_one_of_lt h
  have hone : ∀ root, root < n → r = root ∨ n = 1 → r = root := by omega
  cases c with
  | allGather env s d count dt =>
    exact inBounds_doAllGather (hlim hsmall) hr List.mem_cons_self List.mem_cons_self
  | reduceScatter s d count dt op premul =>
    exact inBounds_doReduceScatter (hlim hsmall) hn List.mem_cons_self List.mem_cons_self
  | allReduce env s d count dt op premul =>
    exact inBounds_doAllReduce (hlim hsmall) hn List.mem_cons_self List.mem_cons_self
  | reduce s d count dt op premul root =>
    refine inBounds_doReduce hpipe List.mem_cons_self fun h => ?_
    simp only [Collective.outputs, if_pos (hone root hroot h)]
    exact List.mem_cons_self
  | broadcast s d count dt root =>
    refine inBounds_doBroadcast (fun h => ?_) List.mem_cons_self
    simp only [Collective.inputs, if_pos h]
    exact List.mem_cons_self
  | gather s d count dt root =>
    refine inBounds_doGather hroot List.mem_cons_self fun h => ?_
    simp only [Collective.outputs, if_pos (hone root hroot h)]
    exact List.mem_cons_self
  | scatter s d count dt root =>
    refine inBounds_doScatter hroot (fun h => ?_) List.mem_cons_self
    simp only [Collective.inputs, if_pos (hone root hroot h)]
    exact List.mem_cons_self
  | allToAllv s d cnt sdispls rdispls dt =>
    exact inBounds_doAllToAllv hr rfl
      (fun p hp => List.mem_map.mpr ⟨p, List.mem_range.mpr hp, rfl⟩)
      fun p hp => List.mem_map.mpr ⟨p, List.mem_range.mpr hp, rfl⟩

/-- No documented range reaches `2^63` bytes. -/
theorem ranges_small {c : Collective} (hsmall : c.Small n r) :
    ∀ y ∈ c.inputs n r ++ c.outputs n r, y.2 < 2 ^ 63 := by
  have hcount : ∀ {count : Nat} {dt : DataType}, (n + 2) * count * typeSize dt < 2 ^ 63 →
      count * typeSize dt < 2 ^ 63 ∧ n * (count * typeSize dt) < 2 ^ 63 := by
    intro count dt h
    rw [Nat.mul_assoc, Nat.add_mul] at h
    omega
  cases c with
  | allToAllv s d cnt sdispls rdispls dt =>
    intro y hy
    rcases List.mem_append.mp hy with hy | hy
    · obtain ⟨p, hp, rfl⟩ := List.mem_map.mp hy
      have := (hsmall p (List.mem_range.mp hp)).1
      rw [Nat.add_mul] at this
      exact Nat.lt_of_le_of_lt (Nat.le_add_left _ _) this
    · obtain ⟨p, hp, rfl⟩ := List.mem_map.mp hy
      have := (hsmall p (List.mem_range.mp hp)).2
      rw [Nat.add_mul] at this
      exact Nat.lt_of_le_of_lt (Nat.le_add_left _ _) this
  | _ =>
    obtain ⟨h1, h2⟩ := hcount hsmall
    intro y hy
    simp only [Collective.inputs, Collective.outputs, List.mem_append, List.mem_ite_nil_right,
      List.mem_singleton] at hy
    rcases hy with hy | hy <;> first
      | (obtain rfl := hy; assumption)
      | (obtain ⟨-, rfl⟩ := hy; assumption)

/-- What a rank may write: scratch and its output. -/
def Writable (O : List Range) (a : Ptr) : Prop := a.obj = .scratch ∨ ∃ y ∈ O, InRange y.1 y.2 a

theorem Covered.writable {O : List Range} {size : Nat} {x : Range} (h : Covered O size x) {a : Ptr}
    (ha : InRange x.1 x.2 a) : Writable O a := by
  rcases h with ⟨y, hy, hin⟩ | hin
  · exact Or.inr ⟨y, hy, hin.inRange ha⟩
  · exact Or.inl (hin.inRange ha).1

/-- A call writes its ranges only. -/
theorem within_instr (K : Kernels) {I O : List Range} {size : Nat} {c : Call}
    (h : c.InBounds I O size) : (c.instr K).Within (Writable O) := by
  have hmiss : ∀ x ∈ c.writes, ∀ a, ¬ Writable O a → ¬ InRange x.1 x.2 a := fun x hx a ha hin =>
    ha ((h.writes x hx).writable hin)
  -- the slice of a receive is its range
  have hslice : ∀ (peer : Nat) (buf : Ptr) (bytes : Nat), Covered O size (buf, bytes) →
      ∀ q ∈ half peer buf bytes, ∀ a ∈ q.2, Writable O a := by
    intro peer buf bytes hcov q hq a ha
    unfold half at hq
    split at hq
    · exact absurd hq (by simp)
    · obtain rfl := Option.some.inj hq
      exact hcov.writable (mem_slice.mp ha)
  cases c with
  | regAdd b n => exact fun _ _ _ => rfl
  | scratchAt n => exact fun _ _ _ => rfl
  | memcpy d s n => exact fun m a ha => memcpy_miss (hmiss (d, n) (by simp [Call.writes]) a ha)
  | cpuReduce dt op d s n =>
    exact fun m a ha => putWords_miss (hmiss (d, n * typeSize dt) (by simp [Call.writes]) a ha)
  | cpuScale dt d n k =>
    exact fun m a ha => putWords_miss (hmiss (d, n * typeSize dt) (by simp [Call.writes]) a ha)
  | cpuScaleCopy dt d s n k =>
    exact fun m a ha => putWords_miss (hmiss (d, n * typeSize dt) (by simp [Call.writes]) a ha)
  | cpuScaledAccumulate dt d s n k =>
    exact fun m a ha => putWords_miss (hmiss (d, n * typeSize dt) (by simp [Call.writes]) a ha)
  | postRecvs reqs =>
    intro q hq a ha
    obtain ⟨req, hreq, hhalf⟩ := List.mem_filterMap.mp hq
    have hcov := h.writes (req.buf, req.bytes) (List.mem_map.mpr ⟨req, hreq, rfl⟩)
    exact hslice req.peer req.buf req.bytes hcov q hhalf a ha
  | send peer buf bytes =>
    simp only [Call.instr]
    split
    · exact fun q hq => absurd hq (by simp)
    · exact fun _ _ _ => rfl
  | recv peer buf bytes =>
    have hcov := hslice peer buf bytes (h.writes (buf, bytes) (by simp [Call.writes]))
    simp only [Call.instr]
    split
    · rename_i x hx
      intro q hq
      exact hcov q (hx.trans hq)
    · exact fun _ _ _ => rfl
  | sendRecv sp sb sn rp rb rn =>
    exact hslice rp rb rn (h.writes (rb, rn) (by simp [Call.writes]))

theorem InBounds.call {lim : Nat} {I O : List Range} : ∀ {calls : List Call} {size : Nat},
    InBounds lim I O size calls → ∀ c ∈ calls, ∃ size, c.InBounds I O size
  | _ :: _, size, h, c, hc => by
    rcases List.mem_cons.mp hc with rfl | hc
    · exact ⟨size, h.1⟩
    · exact h.2.2.call c hc

/-- Ranks within bounds never write a byte outside scratch and their outputs. -/
theorem frame_calls {lim n : Nat} {I O : Nat → List Range} {calls : Nat → List Call} (K : Kernels)
    {m : Nat → Mem} {c : Net.Cfg Nat Ptr UInt8}
    (h : ∀ r, r < n → InBounds lim (I r) (O r) 0 (calls r))
    (hc : Relation.ReflTransGen Net.Step (system K n calls m) c) {r : Nat} (hr : r < n) {a : Ptr}
    (ha : ¬ Writable (O r) a) : c.mem r a = m r a := by
  refine Net.frame_reach (W := fun r a => r < n → Writable (O r) a) (fun r i hi => ?_) hc r a
    fun h => ha (h hr)
  by_cases hr : r < n
  · rw [if_pos hr] at hi
    obtain ⟨call, hcall, rfl⟩ := List.mem_map.mp hi
    obtain ⟨size, hin⟩ := (h r hr).call call hcall
    have hw := within_instr K hin
    simp only [hr, true_implies]
    exact hw
  · rw [if_neg hr] at hi
    exact absurd hi List.not_mem_nil

/-- The root, of a rooted collective. -/
def Collective.root? : Collective → Option Nat
  | .reduce _ _ _ _ _ _ root | .broadcast _ _ _ _ root | .gather _ _ _ _ root
  | .scatter _ _ _ _ root => some root
  | _ => none

/-- The call with other pointers where they count at the root only. -/
def Collective.withIdle (q : Nat → Ptr) : Collective → Collective
  | .reduce s _ count dt op premul root => .reduce s q count dt op premul root
  | .gather s _ count dt root => .gather s q count dt root
  | .broadcast _ d count dt root => .broadcast q d count dt root
  | .scatter _ d count dt root => .scatter q d count dt root
  | c => c

/-- A rank other than the root never looks at those pointers. -/
theorem unread_calls {c : Collective} (hr : r < n) (hroot : c.RootOk n) (q : Nat → Ptr)
    (hne : ∀ root ∈ c.root?, r ≠ root) : (c.withIdle q).calls n r = c.calls n r := by
  cases c with
  | allGather _ _ _ _ _ => rfl
  | reduceScatter _ _ _ _ _ _ => rfl
  | allReduce _ _ _ _ _ _ _ => rfl
  | allToAllv _ _ _ _ _ _ => rfl
  | reduce s d count dt op premul root =>
    have hne := hne root rfl
    have hroot : root < n := hroot
    have hn : n ≠ 1 := by omega
    simp only [Collective.withIdle, Collective.calls, doReduce, if_neg hn, if_neg hne]
  | broadcast s d count dt root =>
    have hne := hne root rfl
    simp only [Collective.withIdle, Collective.calls, doBroadcast, hne, false_and, if_false]
  | gather s d count dt root =>
    have hne := hne root rfl
    have hroot : root < n := hroot
    have hn : n ≠ 1 := by omega
    simp only [Collective.withIdle, Collective.calls, doGather, hn, false_or, if_pos hne]
    split
    · rename_i hc
      rw [if_neg (by omega), if_neg (by omega)]
    · rfl
  | scatter s d count dt root =>
    have hne := hne root rfl
    have hroot : root < n := hroot
    have hn : n ≠ 1 := by omega
    simp only [Collective.withIdle, Collective.calls, doScatter, hn, false_or, if_pos hne]
    split
    · rename_i hc
      rw [if_neg (by omega), if_neg (by omega)]
    · rfl

/-- **Collectives stay inside their buffers and touch only their outputs.** On every rank all
ranges lie in the documented ones or in the scratch requested, none of which reaches `2^63` bytes,
and pointers that count at the root only are not looked at elsewhere. At no moment of a run has a
user byte outside the outputs changed, and with it no byte of an input apart from the outputs. -/
theorem collectives_stay_inside {n : Nat} (c : Collective) (hroot : c.RootOk n)
    (hsmall : ∀ r, r < n → c.Small n r) :
    (∀ r, r < n →
      InBounds (2 ^ 63 - 1) (c.inputs n r) (c.outputs n r) 0 (c.calls n r) ∧
      (∀ y ∈ c.inputs n r ++ c.outputs n r, y.2 < 2 ^ 63) ∧
      ∀ q : Nat → Ptr, (∀ root ∈ c.root?, r ≠ root) → (c.withIdle q).calls n r = c.calls n r) ∧
    ∀ (K : Kernels) (m : Nat → Mem) (cfg : Net.Cfg Nat Ptr UInt8),
      Relation.ReflTransGen Net.Step (system K n (fun r => c.calls n r) m) cfg →
      ∀ r, r < n →
        (∀ a : Ptr, a.obj ≠ .scratch → (∀ y ∈ c.outputs n r, ¬ InRange y.1 y.2 a) →
          cfg.mem r a = m r a) ∧
        ∀ x ∈ c.inputs n r, x.1.obj ≠ .scratch →
          (∀ y ∈ c.outputs n r, Apart x.1 x.2 y.1 y.2) →
          ∀ a : Ptr, InRange x.1 x.2 a → cfg.mem r a = m r a := by
  have hin : ∀ r, r < n → InBounds (2 ^ 63 - 1) (c.inputs n r) (c.outputs n r) 0 (c.calls n r) :=
    fun r hr => inBounds_calls hr hroot (hsmall r hr)
  refine ⟨fun r hr => ⟨hin r hr, ranges_small (hsmall r hr), fun q => unread_calls hr hroot q⟩,
    fun K m cfg hcfg r hr => ?_⟩
  have hframe : ∀ a : Ptr, a.obj ≠ .scratch → (∀ y ∈ c.outputs n r, ¬ InRange y.1 y.2 a) →
      cfg.mem r a = m r a := fun a ha hout =>
    frame_calls K hin hcfg hr fun hw => hw.elim ha fun ⟨y, hy, hr⟩ => hout y hy hr
  refine ⟨hframe, fun x hx hobj hap a ha => ?_⟩
  refine hframe a (fun h => hobj (ha.1.symm.trans h)) fun y hy hr => ?_
  exact (hap y hy).not_mem (mem_slice.mpr ha) (mem_slice.mpr hr)

/-- A reduce of five elements to rank 2 of three, a PreMulSum. -/
def threeReduce : Collective :=
  .reduce (fun _ => Ptr.mk (.user 0) 0) (fun _ => Ptr.mk (.user 1) 16) 5 .float32 .sum
    (fun _ => some 0x3fe0000000000000#64) 2

/-- Its rank 1 makes the same calls whatever its receive pointer. -/
theorem collectives_stay_inside_three :
    InBounds (2 ^ 63 - 1) (threeReduce.inputs 3 1) (threeReduce.outputs 3 1) 0
      (threeReduce.calls 3 1) ∧
    (threeReduce.withIdle fun _ => scratch).calls 3 1 = threeReduce.calls 3 1 := by
  have h := (collectives_stay_inside (n := 3) threeReduce (by decide : 2 < 3)
    fun r _ => (by decide : (3 + 2) * 5 * typeSize .float32 < 2 ^ 63)).1 1 (by decide)
  exact ⟨h.1, h.2.2 _ fun root hroot => by
    obtain rfl := Option.some.inj hroot
    decide⟩

end Collectives

end Vccl
