import Vccl.Bounds
import Vccl.Rooted

/-!
# In-place and out-of-place runs

Seven collectives have an in-place form, in which the input of a rank is a part of its output
(all-gather, gather) or the output a part of the input (reduce-scatter, scatter) or both are the same
range. The rules for the calls (`Vccl.Run`) never assume the two apart, so what a collective leaves
is the same function of the input bytes in both forms:

* `bytesAt`: the bytes of a range; `inputWord`: an element of a rank's input.
* `Leaves`: every run ends with given bytes in the documented output of every rank. One lemma for
  each collective writes these bytes down in terms of the inputs.
* The in-place run and the out-of-place run of one call leave the same bytes.
-/

namespace Vccl

open Net (load)

/-! ## Bytes and elements -/

/-- The bytes of a range. -/
def bytesAt (m : Mem) (x : Range) : List UInt8 := load m (slice x.1 x.2)

section Bytes

variable {m m' : Mem} {p p' : Ptr} {e c n : Nat}

theorem bytesAt_length (m : Mem) (x : Range) : (bytesAt m x).length = x.2 := load_slice_length m x.1 x.2

theorem bytesAt_congr {b : Nat} (h : ∀ j, j < b → m (p + j) = m' (p' + j)) :
    bytesAt m (p, b) = bytesAt m' (p', b) := by
  unfold bytesAt load slice
  rw [List.map_map, List.map_map]
  exact List.map_congr_left fun j hj => h j (List.mem_range.mp hj)

theorem Elems.bytes {dt : DataType} {count : Nat} {v : Nat → Word (typeSize dt)}
    (h : Elems dt count p v m) : bytesAt m (p, count * typeSize dt) = pack (typeSize dt) count v := by
  unfold bytesAt
  rw [load_slice_eq_pack]
  exact pack_congr h

/-- Equal bytes are equal elements. -/
theorem word_of_bytesAt (h : bytesAt m (p, c * e) = bytesAt m' (p', c * e)) {k : Nat} (hk : k < c) :
    word e m p k = word e m' p' k := by
  funext j
  have hj : k * e + j.val < c * e := index_lt hk j.isLt
  have hl : (bytesAt m (p, c * e)).getD (k * e + j.val) 0 =
      (bytesAt m' (p', c * e)).getD (k * e + j.val) 0 := by rw [h]
  rwa [bytesAt, bytesAt, getD_load_slice hj, getD_load_slice hj] at hl

/-- A range of `n` blocks. -/
theorem bytesAt_blocks (m : Mem) (p : Ptr) (b : Nat) : ∀ n,
    bytesAt m (p, n * b) = (List.range n).flatMap fun i => bytesAt m (p + i * b, b)
  | 0 => by rw [Nat.zero_mul]; rfl
  | n + 1 => by
    rw [List.range_succ, List.flatMap_append, ← bytesAt_blocks m p b n, List.flatMap_singleton,
      Nat.succ_mul]
    exact load_slice_append m p (n * b) b

theorem bytesAt_block {b i : Nat} (hi : i < n) :
    bytesAt m (p + i * b, b) = ((bytesAt m (p, n * b)).drop (i * b)).take b := by
  have hn : n * b = i * b + (b + (n - i - 1) * b) := by
    rw [show n = i + (1 + (n - i - 1)) by omega, Nat.add_mul, Nat.add_mul, Nat.one_mul]
    congr 3
    omega
  have hsplit : bytesAt m (p, n * b) = bytesAt m (p, i * b) ++ (bytesAt m (p + i * b, b) ++
      bytesAt m (p + i * b + b, (n - i - 1) * b)) := by
    unfold bytesAt
    rw [hn, load_slice_append, load_slice_append]
  rw [hsplit, List.drop_left' (bytesAt_length m (p, i * b)),
    List.take_left' (bytesAt_length m (p + i * b, b))]

end Bytes

/-- Element `k` of the input of rank `p`, for the ranks there are. -/
def inputWord (n e : Nat) (m : Nat → Mem) (s : Nat → Ptr) (p k : Nat) : Word e :=
  if p < n then word e (m p) (s p) k else fun _ => 0

theorem inputWord_eq {n e : Nat} {m : Nat → Mem} {s : Nat → Ptr} {p : Nat} (hp : p < n) (k : Nat) :
    inputWord n e m s p k = word e (m p) (s p) k := if_pos hp

/-- Only the input bytes count. -/
theorem inputWord_congr {n e c : Nat} {m m' : Nat → Mem} {s s' : Nat → Ptr}
    (h : ∀ p, p < n → bytesAt (m p) (s p, c * e) = bytesAt (m' p) (s' p, c * e)) {k : Nat}
    (hk : k < c) : (fun p => inputWord n e m s p k) = fun p => inputWord n e m' s' p k := by
  funext p
  unfold inputWord
  split
  · rename_i hp
    exact word_of_bytesAt (h p hp) hk
  · rfl

/-! ## What a call leaves -/

/-- Every run of the call ends with the bytes `B r` in the documented output of rank `r`. -/
def Leaves (K : Kernels) (n : Nat) (c : Collective) (m : Nat → Mem) (B : Nat → List (List UInt8)) :
    Prop :=
  Net.Ends Net.Step (system K n (fun r => c.calls n r) m) fun cfg =>
    (∀ r, cfg.code r = []) ∧ ∀ r, r < n → (c.outputs n r).map (bytesAt (cfg.mem r)) = B r

theorem Leaves.congr {K : Kernels} {n : Nat} {c : Collective} {m : Nat → Mem}
    {B B' : Nat → List (List UInt8)} (h : Leaves K n c m B) (hB : ∀ r, r < n → B r = B' r) :
    Leaves K n c m B' :=
  h.mono fun _ hc => ⟨hc.1, fun r hr => (hc.2 r hr).trans (hB r hr)⟩

section Leaves

variable {K : Kernels} {n : Nat} {s d : Nat → Ptr} {count : Nat} {dt : DataType} {op : RedOp}
  {premul : Nat → Option Factor} {root : Nat}

theorem leaves_allGather {env : AlgoEnv} (m : Nat → Mem) (hn : 0 < n)
    (hd : ∀ r, r < n → (d r).obj ≠ .scratch) :
    Leaves K n (.allGather env s d count dt) m fun _ =>
      [(List.range n).flatMap fun b => bytesAt (m b) (s b, count * typeSize dt)] := by
  unfold Leaves Collective.calls
  simp only [doAllGather_eq]
  refine (ends_allGatherBy K hn (gatherChoice_fits _ n) s d count dt m hd).mono fun cfg h =>
    ⟨h.1, fun r hr => ?_⟩
  rw [Collective.outputs, List.map_singleton, bytesAt_blocks]
  congr 1
  refine List.flatMap_congr fun b hb => bytesAt_congr fun j hj => ?_
  rw [Ptr.add_add]
  exact h.2 r hr b (List.mem_range.mp hb) j hj

theorem leaves_reduceScatter (m : Nat → Mem) (hs : ∀ r, r < n → (s r).obj ≠ .scratch)
    (hd : ∀ r, r < n → (d r).obj ≠ .scratch) :
    Leaves K n (.reduceScatter s d count dt op premul) m fun r =>
      [pack (typeSize dt) count fun k => arrived K op premul n
        (fun p => inputWord n (typeSize dt) m s p (r * count + k)) r] := by
  have hplan : Schedule n 0 (0 + (n - 1)) fun r =>
      if n = 1 ∨ count = 0 then [] else
        ringPlan 0 n r (fun _ => count * typeSize dt) fun _ => count * typeSize dt :=
    (schedule_ring fun _ _ _ _ => rfl).unless
  refine (ends_of_schedule hplan fun r hr =>
    wp_doReduceScatter (x := inputWord n (typeSize dt) m s) hr (hs r hr) (hd r hr)
      (inputWord_eq hr) fun _ h _ => h).mono fun cfg h => ⟨h.1, fun r hr => ?_⟩
  rw [Collective.outputs, List.map_singleton, (h.2 r hr).bytes]

theorem leaves_allReduce {env : AlgoEnv} (m : Nat → Mem) (hn : 0 < n)
    (hd : ∀ r, r < n → (d r).obj ≠ .scratch) :
    Leaves K n (.allReduce env s d count dt op premul) m fun r =>
      [pack (typeSize dt) count (allReduced K dt op (env.logPath 262144 (count * typeSize dt)) n count
        (fun p k => preScaled K (premul p) (inputWord n (typeSize dt) m s p k)) r)] := by
  refine (ends_of_schedule (schedule_reduce _ hn) fun r hr =>
    wp_doAllReduce (x := fun p k => preScaled K (premul p) (inputWord n (typeSize dt) m s p k)) rfl hr
      (hd r hr) (fun k => congrArg _ (inputWord_eq hr k)) fun _ h => h).mono
    fun cfg h => ⟨h.1, fun r hr => ?_⟩
  rw [Collective.outputs, List.map_singleton, (h.2 r hr).bytes]

theorem leaves_reduce (m : Nat → Mem) (hroot : root < n)
    (hs : ∀ r, r < n → (s r).obj ≠ .scratch) (hd : (d root).obj ≠ .scratch)
    (hplace : d root = s root ∨
      Apart (d root) (count * typeSize dt) (s root) (count * typeSize dt)) :
    Leaves K n (.reduce s d count dt op premul root) m fun r =>
      if r = root then [pack (typeSize dt) count fun k => arrived K op premul n
        (fun p => inputWord n (typeSize dt) m s p k) root] else [] := by
  have hplan : Schedule n 0 (0 + (2 * pieces (count * typeSize dt) + n)) fun r =>
      if n = 1 ∨ count = 0 then [] else
        chain 0 n ((root + 1) % n) r (pieces (count * typeSize dt)) fun j =>
          min kPipeBytes (count * typeSize dt - j * kPipeBytes) :=
    (schedule_chain (Nat.mod_lt _ (by omega))).unless
  refine (ends_of_schedule hplan fun r hr =>
    wp_doReduce (x := inputWord n (typeSize dt) m s) hroot hr (hs r hr)
      (fun e => by rw [e]; exact hd) (fun e => by rw [e]; exact hplace) (inputWord_eq hr)
      fun _ h => h).mono fun cfg h => ⟨h.1, fun r hr => ?_⟩
  simp only [Collective.outputs]
  by_cases hr' : r = root
  · rw [if_pos hr', if_pos hr', List.map_singleton, (h.2 r hr hr').bytes]
  · rw [if_neg hr', if_neg hr', List.map_nil]

theorem leaves_broadcast (m : Nat → Mem) (hroot : root < n) :
    Leaves K n (.broadcast s d count dt root) m fun _ =>
      [bytesAt (m root) (s root, count * typeSize dt)] := by
  refine (ends_doBroadcast K hroot s d count dt m).mono fun cfg h => ⟨h.1, fun r hr => ?_⟩
  rw [Collective.outputs, List.map_singleton, (h.2 r hr).bytes, bytesAt, load_slice_eq_pack]

theorem leaves_gather (m : Nat → Mem) (hroot : root < n) :
    Leaves K n (.gather s d count dt root) m fun r =>
      if r = root then
        [(List.range n).flatMap fun b => bytesAt (m b) (s b, count * typeSize dt)] else [] := by
  refine (ends_doGather K hroot s d count dt m).mono fun cfg h => ⟨h.1, fun r hr => ?_⟩
  simp only [Collective.outputs]
  by_cases hr' : r = root
  · subst hr'
    rw [if_pos rfl, if_pos rfl, List.map_singleton, bytesAt_blocks]
    congr 1
    refine List.flatMap_congr fun b hb => ?_
    rw [(h.2 b (List.mem_range.mp hb)).bytes, bytesAt, load_slice_eq_pack]
  · rw [if_neg hr', if_neg hr', List.map_nil]

theorem leaves_scatter (m : Nat → Mem) (hroot : root < n)
    (hplace : d root = s root + root * (count * typeSize dt) ∨
      Apart (d root) (count * typeSize dt) (s root) (n * (count * typeSize dt))) :
    Leaves K n (.scatter s d count dt root) m fun r =>
      [((bytesAt (m root) (s root, n * (count * typeSize dt))).drop
        (r * (count * typeSize dt))).take (count * typeSize dt)] := by
  refine (ends_doScatter K hroot s d count dt m hplace).mono fun cfg h => ⟨h.1, fun r hr => ?_⟩
  simp only [Collective.outputs, List.map_singleton]
  rw [← bytesAt_block hr, (h.2 r hr).bytes, bytesAt, load_slice_eq_pack]
  congr 2
  funext k
  rw [← Nat.mul_assoc, word_add]

end Leaves

/-! ## The two forms of a call -/

/-- The same call with other buffers; all-to-all-v has no in-place form. -/
inductive Rebuffered : Collective → Collective → Prop where
  | allGather (env : AlgoEnv) (s d s' d' : Nat → Ptr) (count : Nat) (dt : DataType) :
      Rebuffered (.allGather env s d count dt) (.allGather env s' d' count dt)
  | reduceScatter (s d s' d' : Nat → Ptr) (count : Nat) (dt : DataType) (op : RedOp)
      (premul : Nat → Option Factor) :
      Rebuffered (.reduceScatter s d count dt op premul) (.reduceScatter s' d' count dt op premul)
  | allReduce (env : AlgoEnv) (s d s' d' : Nat → Ptr) (count : Nat) (dt : DataType) (op : RedOp)
      (premul : Nat → Option Factor) :
      Rebuffered (.allReduce env s d count dt op premul) (.allReduce env s' d' count dt op premul)
  | reduce (s d s' d' : Nat → Ptr) (count : Nat) (dt : DataType) (op : RedOp)
      (premul : Nat → Option Factor) (root : Nat) :
      Rebuffered (.reduce s d count dt op premul root) (.reduce s' d' count dt op premul root)
  | broadcast (s d s' d' : Nat → Ptr) (count : Nat) (dt : DataType) (root : Nat) :
      Rebuffered (.broadcast s d count dt root) (.broadcast s' d' count dt root)
  | gather (s d s' d' : Nat → Ptr) (count : Nat) (dt : DataType) (root : Nat) :
      Rebuffered (.gather s d count dt root) (.gather s' d' count dt root)
  | scatter (s d s' d' : Nat → Ptr) (count : Nat) (dt : DataType) (root : Nat) :
      Rebuffered (.scatter s d count dt root) (.scatter s' d' count dt root)

/-- The documented in-place form, as far as it concerns rank `r`: of the rooted collectives only
the root has one. -/
def Collective.InPlace (r : Nat) : Collective → Prop
  | .allGather _ s d count dt => s r = d r + r * (count * typeSize dt)
  | .reduceScatter s d count dt _ _ => d r = s r + r * (count * typeSize dt)
  | .allReduce _ s d _ _ _ _ => s r = d r
  | .reduce s d _ _ _ _ root | .broadcast s d _ _ root => r = root → s r = d r
  | .gather s d count dt root => r = root → s r = d r + root * (count * typeSize dt)
  | .scatter s d count dt root => r = root → d r = s r + root * (count * typeSize dt)
  | .allToAllv .. => False

/-- The inputs of rank `r` are apart from its outputs. -/
def Collective.OutOfPlace (n r : Nat) (c : Collective) : Prop :=
  ∀ x ∈ c.inputs n r, ∀ y ∈ c.outputs n r, Apart y.1 y.2 x.1 x.2

/-- Inputs and outputs are the user's memory. -/
def Collective.UserOnly (n r : Nat) (c : Collective) : Prop :=
  ∀ x ∈ c.inputs n r ++ c.outputs n r, x.1.obj ≠ .scratch

section Forms

variable {n r : Nat} {c : Collective}

theorem Collective.UserOnly.input (h : c.UserOnly n r) {x : Range} (hx : x ∈ c.inputs n r) :
    x.1.obj ≠ .scratch := h x (List.mem_append_left _ hx)

theorem Collective.UserOnly.output (h : c.UserOnly n r) {x : Range} (hx : x ∈ c.outputs n r) :
    x.1.obj ≠ .scratch := h x (List.mem_append_right _ hx)

end Forms

/-- **In place or not, the same bytes.** Whatever the element operation: the out-of-place run and the
in-place run of one call on the same inputs end with the same bytes in every rank's documented
output. -/
theorem inPlace_same_bytes (K : Kernels) {n : Nat} (hn : 1 ≤ n) {c c' : Collective}
    (hsame : Rebuffered c c') (hroot : c.RootOk n) (huser : ∀ r, r < n → c.UserOnly n r)
    (huser' : ∀ r, r < n → c'.UserOnly n r) (hout : ∀ r, r < n → c.OutOfPlace n r)
    (hin : ∀ r, r < n → c'.InPlace r) (m m' : Nat → Mem)
    (hbytes : ∀ r, r < n →
      (c.inputs n r).map (bytesAt (m r)) = (c'.inputs n r).map (bytesAt (m' r))) :
    ∃ B : Nat → List (List UInt8), Leaves K n c m B ∧ Leaves K n c' m' B := by
  cases hsame with
  | allGather env s d s' d' count dt =>
    have hb : ∀ b, b < n → bytesAt (m b) (s b, count * typeSize dt) =
        bytesAt (m' b) (s' b, count * typeSize dt) := fun b hb => List.singleton_inj.mp (hbytes b hb)
    refine ⟨_, leaves_allGather m hn fun r hr => (huser r hr).output List.mem_cons_self,
      (leaves_allGather m' hn fun r hr => (huser' r hr).output List.mem_cons_self).congr
        fun r hr => ?_⟩
    rw [List.flatMap_congr fun b h => hb b (List.mem_range.mp h)]
  | reduceScatter s d s' d' count dt op premul =>
    have hb : ∀ b, b < n → bytesAt (m b) (s b, n * count * typeSize dt) =
        bytesAt (m' b) (s' b, n * count * typeSize dt) := fun b hb => by
      rw [Nat.mul_assoc]
      exact List.singleton_inj.mp (hbytes b hb)
    refine ⟨_, leaves_reduceScatter (s := s) m
      (fun r hr => (huser r hr).input List.mem_cons_self)
      fun r hr => (huser r hr).output List.mem_cons_self, (leaves_reduceScatter (s := s') m'
        (fun r hr => (huser' r hr).input List.mem_cons_self)
        fun r hr => (huser' r hr).output List.mem_cons_self).congr fun r hr => ?_⟩
    refine congrArg (fun B => [B]) (pack_congr fun k hk => ?_)
    rw [inputWord_congr hb (index_lt hr hk)]
  | allReduce env s d s' d' count dt op premul =>
    have hb : ∀ b, b < n → bytesAt (m b) (s b, count * typeSize dt) =
        bytesAt (m' b) (s' b, count * typeSize dt) := fun b hb => List.singleton_inj.mp (hbytes b hb)
    refine ⟨_, leaves_allReduce m hn fun r hr => (huser r hr).output List.mem_cons_self,
      (leaves_allReduce m' hn fun r hr => (huser' r hr).output List.mem_cons_self).congr
        fun r hr => ?_⟩
    refine congrArg (fun B => [B]) (pack_congr fun k hk => ?_)
    have hx := congrFun (inputWord_congr hb hk)
    simp only [allReduced_eq, hx]
  | reduce s d s' d' count dt op premul root =>
    have hb : ∀ b, b < n → bytesAt (m b) (s b, count * typeSize dt) =
        bytesAt (m' b) (s' b, count * typeSize dt) := fun b hb => List.singleton_inj.mp (hbytes b hb)
    have hmem : ∀ d : Nat → Ptr, (d root, count * typeSize dt) ∈
        (Collective.reduce s d count dt op premul root).outputs n root := fun d => by
      rw [Collective.outputs, if_pos rfl]
      exact List.mem_cons_self
    refine ⟨_, leaves_reduce (s := s) m hroot (fun r hr => (huser r hr).input List.mem_cons_self)
      ((huser root hroot).output (hmem d))
      (Or.inr (hout root hroot _ List.mem_cons_self _ (hmem d))),
      (leaves_reduce (s := s') m' hroot (fun r hr => (huser' r hr).input List.mem_cons_self)
        ((huser' root hroot).output (hmem d')) (Or.inl (hin root hroot rfl).symm)).congr
        fun r hr => ?_⟩
    refine if_congr Iff.rfl (congrArg (fun B => [B]) (pack_congr fun k hk => ?_)) rfl
    rw [inputWord_congr hb hk]
  | broadcast s d s' d' count dt root =>
    have hb := hbytes root hroot
    simp only [Collective.inputs, if_true, List.map_singleton] at hb
    refine ⟨_, leaves_broadcast m hroot, (leaves_broadcast m' hroot).congr fun r hr => hb.symm⟩
  | gather s d s' d' count dt root =>
    have hb : ∀ b, b < n → bytesAt (m b) (s b, count * typeSize dt) =
        bytesAt (m' b) (s' b, count * typeSize dt) := fun b hb => List.singleton_inj.mp (hbytes b hb)
    refine ⟨_, leaves_gather m hroot, (leaves_gather m' hroot).congr fun r hr => ?_⟩
    rw [List.flatMap_congr fun b h => hb b (List.mem_range.mp h)]
  | scatter s d s' d' count dt root =>
    have hb := hbytes root hroot
    simp only [Collective.inputs, if_true, List.map_singleton, List.singleton_inj] at hb
    have hmem : (s root, n * (count * typeSize dt)) ∈
        (Collective.scatter s d count dt root).inputs n root := by
      rw [Collective.inputs, if_pos rfl]
      exact List.mem_cons_self
    refine ⟨_, leaves_scatter m hroot (Or.inr (hout root hroot _ hmem _ List.mem_cons_self)),
      (leaves_scatter m' hroot (Or.inl (hin root hroot rfl))).congr fun r hr => ?_⟩
    rw [hb]

/-- A reduce-scatter of two floats a rank, in one buffer or in two. -/
theorem inPlace_same_bytes_three : ∃ B : Nat → List (List UInt8),
    Leaves (cpuKernels .idle) 3 (.reduceScatter (fun _ => Ptr.mk (.user 0) 0)
      (fun _ => Ptr.mk (.user 1) 0) 2 .float32 .sum fun _ => some 0x3fe0000000000000#64)
      (fun r _ => UInt8.ofNat r) B ∧
    Leaves (cpuKernels .idle) 3 (.reduceScatter (fun _ => Ptr.mk (.user 0) 0)
      (fun r => Ptr.mk (.user 0) 0 + r * 8) 2 .float32 .sum fun _ => some 0x3fe0000000000000#64)
      (fun r _ => UInt8.ofNat r) B := by
  refine inPlace_same_bytes (cpuKernels .idle) (by decide) (.reduceScatter _ _ _ _ _ _ _ _) trivial
    (fun r _ x hx => ?_) (fun r _ x hx => ?_) (fun r _ x hx y hy => ?_) (fun r _ => rfl) _ _
    fun _ _ => rfl
  · rcases List.mem_cons.mp hx with rfl | hx
    · exact Obj.noConfusion
    · rw [List.mem_singleton.mp hx]
      exact Obj.noConfusion
  · rcases List.mem_cons.mp hx with rfl | hx
    · exact Obj.noConfusion
    · rw [List.mem_singleton.mp hx]
      exact Obj.noConfusion
  · rw [List.mem_singleton.mp hx, List.mem_singleton.mp hy]
    exact apart_of_obj (p := Ptr.mk (.user 1) 0) (q := Ptr.mk (.user 0) 0) (by decide)

end Vccl
