import Vccl.Run

/-!
# All-gather (`ringAllGather`, `recursiveDoublingAllGather`, `bruckAllGather`, `doAllGather`)

The receive buffer is an array of blocks, one per rank; block `b` has to become what rank `b`
sends, `G b`. Each algorithm has an invariant for the blocks a rank holds before step `s`:

* ring: the blocks `r + shift, r + shift - 1, …, r + shift - s` modulo `n`;
* recursive doubling: the aligned group of `2^s` blocks around block `r`;
* Bruck: a rotated prefix, block `r + b` modulo `n` at place `b < 2^s`, undone at the end through
  scratch.

`wp_ringAllGather` is stated for any table of chunks, since the ring all-reduce ends with it.
-/

namespace Vccl

open Net (wp xor_xor_self xor_eq_comm xor_lt_two_pow shiftRight_eq_iff group_succ)

/-- The elements `[lo, lo + len)` of the array are those of `G`. -/
def Holds (e : Nat) (m : Mem) (p : Ptr) (G : Nat → Word e) (lo len : Nat) : Prop :=
  ∀ k, lo ≤ k → k < lo + len → word e m p k = G k

theorem Holds.pack_eq {e lo len : Nat} {m : Mem} {p : Ptr} {G : Nat → Word e}
    (h : Holds e m p G lo len) : pack e len (word e m (p + lo * e)) = pack e len fun i => G (lo + i) :=
  pack_congr fun i hi => by rw [word_add]; exact h (lo + i) (by omega) (by omega)

/-- Writing elements of `G` keeps what is held. -/
theorem Holds.putWords {e lo len b c : Nat} {m : Mem} {p : Ptr} {G : Nat → Word e}
    (h : Holds e m p G lo len) :
    Holds e (putWords e m (p + b * e) c fun i => G (b + i)) p G lo len := by
  intro k h1 h2
  rw [word_putWords]
  split
  · rw [show b + (k - b) = k by omega]
  · exact h k h1 h2

theorem holds_putWords {e b c : Nat} {m : Mem} {p : Ptr} {G : Nat → Word e} :
    Holds e (putWords e m (p + b * e) c fun i => G (b + i)) p G b c := by
  intro k h1 h2
  rw [word_putWords, if_pos ⟨h1, h2⟩, show b + (k - b) = k by omega]

/-! ## Ring -/

/-- The slots of a ring loop: `sz s` bytes to the successor, `rz s` from the predecessor. -/
def ringPlan (t n r : Nat) (sz rz : Nat → Nat) : List Slot :=
  rounds t (n - 1) fun s => some (part (next n r) (sz s), part (prev n r) (rz s))

theorem schedule_ring {t n : Nat} {sz rz : Nat → Nat → Nat}
    (hsize : ∀ q s, q < n → s < n - 1 → rz q s = sz (prev n q) s) :
    Schedule n t (t + (n - 1)) fun r => ringPlan t n r (sz r) (rz r) :=
  schedule_exchange (fun r _ => next n r) (fun r _ => prev n r)
    (fun _ _ _ hp hq _ => next_eq_iff hp hq) hsize (fun r _ hr _ => next_lt r (by omega))
    (fun r _ hr _ => prev_lt r (by omega))

section Ring

variable {K : Kernels} {M : Nat → Nat → Nat → List UInt8} {Q : Mem → Prop} {m : Mem}
  {t n r e shift : Nat} {data : Ptr} {G : Nat → Word e}

/-- `ringAllGather` on chunks of `e`-byte elements: chunk `i` is `[lo i, lo i + len i)`. -/
theorem wp_ringAllGather (lo len : Nat → Nat) (hr : r < n)
    (hM : ∀ p s, p < n → s < n - 1 → M p (next n p) (t + s) =
      pack e (len ((p + shift + 2 * n - s) % n)) fun i => G (lo ((p + shift + 2 * n - s) % n) + i))
    (h0 : Holds e m data G (lo ((r + shift) % n)) (len ((r + shift) % n)))
    (hQ : ∀ m, (∀ c, c < n → Holds e m data G (lo c) (len c)) → Q m) :
    wp (Carries M) r (code K (ringAllGather n r data (fun i => ⟨lo i * e, len i * e⟩) shift))
      ((ringPlan t n r (fun s => len ((r + shift + 2 * n - s) % n) * e)
        fun s => len ((r + shift + 2 * n - s - 1) % n) * e).map Slot.entry) Q m := by
  -- before step `s` the rank holds the chunks its steps up to `s` send
  let J : Nat → Mem → Prop := fun s m => ∀ i, i ≤ s →
    Holds e m data G (lo ((r + shift + 2 * n - i) % n)) (len ((r + shift + 2 * n - i) % n))
  refine wp_postRecvs (wp_rounds J (fun s hs m hm => ?_) (fun m hm => hQ m fun c hc => ?_) ?_)
  · have hin : M (prev n r) r (t + s) =
        pack e (len ((r + shift + 2 * n - s - 1) % n))
          fun i => G (lo ((r + shift + 2 * n - s - 1) % n) + i) := by
      have h := hM (prev n r) s (prev_lt r (by omega)) hs
      rw [next_prev hr] at h
      have hidx := prev_sub_mod (n := n) (r := r) (a := shift + 2 * n) (s := s) (by omega) (by omega)
      rw [← Nat.add_assoc, ← Nat.add_assoc] at hidx
      rw [h, hidx]
    have hout := hM r s hr hs
    refine wp_sendRecv (l := []) ?_ hin ?_ ?_
    · rw [hout, (hm s (Nat.le_refl s)).pack_eq]
    · rw [hout, ((hm s (Nat.le_refl s)).putWords).pack_eq]
    · intro i hi
      rcases Nat.lt_or_eq_of_le hi with h | rfl
      · exact (hm i (by omega)).putWords
      · exact holds_putWords
  · obtain ⟨i, hi, rfl⟩ := exists_sub_mod (A := r + shift + 2 * n) hc (by omega)
    exact hm i (by omega)
  · intro i hi
    obtain rfl : i = 0 := by omega
    rwa [show r + shift + 2 * n - 0 = r + shift + n + n by omega, Nat.add_mod_right,
      Nat.add_mod_right]

end Ring

/-! ## Recursive doubling -/

/-- The slots of recursive doubling: `sz i` bytes each way in step `i`. -/
def doublingPlan (t n r : Nat) (sz : Nat → Nat) : List Slot :=
  rounds t (steps n) fun i => some (part (r ^^^ (1 <<< i)) (sz i), part (r ^^^ (1 <<< i)) (sz i))

theorem schedule_doubling {t n k : Nat} {sz : Nat → Nat} (hn : n = 2 ^ k) :
    Schedule n t (t + steps n) fun r => doublingPlan t n r sz := by
  have hlt : ∀ r s, r < n → s < steps n → r ^^^ (1 <<< s) < n := by
    intro r s hr hs
    rw [hn] at hr hs ⊢
    rw [steps_two_pow] at hs
    exact xor_lt_two_pow hr hs
  have hsize : ∀ q s, q < n → s < steps n → sz s = sz s := fun _ _ _ _ => rfl
  exact schedule_exchange (fun r s => r ^^^ (1 <<< s)) (fun r s => r ^^^ (1 <<< s))
    (fun _ _ _ _ _ _ => xor_eq_comm) hsize hlt hlt

section Doubling

variable {K : Kernels} {M : Nat → Nat → Nat → List UInt8} {Q : Mem → Prop} {m : Mem}
  {t n r e : Nat} {data : Ptr} {G : Nat → Word e}

theorem wp_recursiveDoublingAllGather {k : Nat} (hn : n = 2 ^ k) (hr : r < n)
    (hM : ∀ p i, i < steps n → M p (p ^^^ (1 <<< i)) (t + i) =
      pack e (2 ^ i) fun j => G ((p >>> i) <<< i + j))
    (h0 : word e m data r = G r)
    (hQ : ∀ m, (∀ b, b < n → word e m data b = G b) → Q m) :
    wp (Carries M) r (code K (recursiveDoublingAllGather n r data e))
      ((doublingPlan t n r fun i => e * 2 ^ i).map Slot.entry) Q m := by
  -- before step `i` the rank holds its aligned group of `2^i` blocks
  let J : Nat → Mem → Prop := fun i m => Holds e m data G ((r >>> i) <<< i) (2 ^ i)
  refine wp_postRecvs (wp_rounds J (fun i hi m hm => ?_) (fun m hm => hQ m fun b hb => ?_) ?_)
  · have hout := hM r i hi
    have hin := hM (r ^^^ (1 <<< i)) i hi
    rw [xor_xor_self] at hin
    simp only [Nat.mul_comm e (2 ^ i)]
    refine wp_sendRecv (l := []) ?_ hin ?_ ?_
    · rw [hout, hm.pack_eq]
    · rw [hout, hm.putWords.pack_eq]
    · intro b h1 h2
      rcases group_succ (shiftRight_eq_iff.mpr ⟨h1, h2⟩) with h | h
      · obtain ⟨g1, g2⟩ := shiftRight_eq_iff.mp h
        exact hm.putWords b g1 g2
      · obtain ⟨g1, g2⟩ := shiftRight_eq_iff.mp h
        exact holds_putWords b g1 g2
  · rw [hn, steps_two_pow] at hm
    have hzero : ∀ x, x < n → x >>> k = 0 := fun x hx => by
      rw [Nat.shiftRight_eq_div_pow, Nat.div_eq_of_lt (by rw [← hn]; exact hx)]
    obtain ⟨g1, g2⟩ := shiftRight_eq_iff.mp ((hzero b hb).trans (hzero r hr).symm)
    exact hm b g1 g2
  · intro b h1 h2
    simp only [Nat.shiftRight_zero, Nat.shiftLeft_zero, Nat.pow_zero] at h1 h2
    obtain rfl : b = r := by omega
    exact h0

end Doubling

/-! ## Bruck -/

/-- The slots of Bruck's loop, on blocks of `e` bytes. -/
def bruckPlan (t n r e : Nat) : List Slot :=
  rounds t (steps n) fun i =>
    some (part ((r + n - 2 ^ i) % n) (bruckWidth n i * e), part ((r + 2 ^ i) % n) (bruckWidth n i * e))

theorem add_sub_mod_iff {n p q d : Nat} (hp : p < n) (hq : q < n) (hd : d ≤ n) :
    (p + n - d) % n = q ↔ (q + d) % n = p := by
  constructor
  · rintro rfl
    rw [Nat.mod_add_mod, show p + n - d + d = p + n by omega, Nat.add_mod_right,
      Nat.mod_eq_of_lt hp]
  · rintro rfl
    rw [show (q + d) % n + n - d = (q + d) % n + (n - d) by omega, Nat.mod_add_mod,
      show q + d + (n - d) = q + n by omega, Nat.add_mod_right, Nat.mod_eq_of_lt hq]

theorem schedule_bruck {t n e : Nat} (hn : 0 < n) :
    Schedule n t (t + steps n) fun r => bruckPlan t n r e :=
  schedule_exchange (fun r i => (r + n - 2 ^ i) % n) (fun r i => (r + 2 ^ i) % n)
    (fun _ _ _ hp hq hi => add_sub_mod_iff hp hq (Nat.le_of_lt (lt_steps_iff.mp hi)))
    (fun _ _ _ _ => rfl) (fun _ _ _ _ => Nat.mod_lt _ hn) (fun _ _ _ _ => Nat.mod_lt _ hn)

section Bruck

variable {K : Kernels} {M : Nat → Nat → Nat → List UInt8} {Q : Mem → Prop} {m : Mem}
  {t n r e : Nat} {recv : Ptr} {G : Nat → Word e}

/-- The exchange loop of `bruckAllGather`: block `r + b` arrives at place `b`. -/
theorem wp_bruckLoop (hr : r < n)
    (hM : ∀ p i, p < n → i < steps n → M p ((p + n - 2 ^ i) % n) (t + i) =
      pack e (bruckWidth n i) fun j => G ((p + j) % n))
    (h0 : word e m recv 0 = G r)
    (hQ : ∀ m, (∀ b, b < n → word e m recv b = G ((r + b) % n)) → Q m) :
    wp (Carries M) r (code K ((bruckSteps n e n 1 e).flatMap fun (pof2, curr, xfer) =>
        [Call.sendRecv ((r + n - pof2) % n) recv xfer ((r + pof2) % n) (recv + curr) xfer]))
      ((bruckPlan t n r e).map Slot.entry) Q m := by
  -- before step `i` the first `min (2^i) n` places hold the rotated prefix
  let J : Nat → Mem → Prop := fun i m => Holds e m recv (fun b => G ((r + b) % n)) 0 (min (2 ^ i) n)
  rw [bruckSteps_eq, List.flatMap_map]
  refine wp_rounds J (fun i hi m hm => ?_) (fun m hm => hQ m fun b hb => ?_) ?_
  · have hlt := lt_steps_iff.mp hi
    have hw : bruckWidth n i ≤ min (2 ^ i) n := by unfold bruckWidth; omega
    have hout := hM r i hr hi
    have hin : M ((r + 2 ^ i) % n) r (t + i) =
        pack e (bruckWidth n i) fun j => G ((r + (2 ^ i + j)) % n) := by
      have hq : (r + 2 ^ i) % n < n := Nat.mod_lt _ (by omega)
      have h := hM _ i hq hi
      rw [(add_sub_mod_iff hq hr (Nat.le_of_lt hlt)).mpr rfl] at h
      rw [h]
      exact pack_congr fun j _ => by rw [Nat.mod_add_mod, Nat.add_assoc]
    have hsub : ∀ m', Holds e m' recv (fun b => G ((r + b) % n)) 0 (min (2 ^ i) n) →
        M r ((r + n - 2 ^ i) % n) (t + i) = pack e (bruckWidth n i) (word e m' recv) :=
      fun m' h => by rw [hout]; exact pack_congr fun j hj => (h j (by omega) (by omega)).symm
    refine wp_sendRecv (l := []) (hsub m hm) hin (hsub _ hm.putWords) ?_
    intro b h1 h2
    have hpre := bruck_prefix hlt
    by_cases hb : b < 2 ^ i
    · exact hm.putWords b h1 (by omega)
    · exact holds_putWords (G := fun b => G ((r + b) % n)) b (by omega) (by omega)
  · have hle : n ≤ 2 ^ steps n := by
      by_contra h
      exact Nat.lt_irrefl _ (lt_steps_iff.mpr (Nat.lt_of_not_le h))
    exact hm b (Nat.zero_le b) (by omega)
  · intro b h1 h2
    simp only [Nat.pow_zero] at h2
    obtain rfl : b = 0 := by omega
    simpa [Nat.mod_eq_of_lt hr] using h0

/-- The rotation of `bruckAllGather`, through scratch. -/
theorem wp_bruckRotate (hr : r < n) (hobj : recv.obj ≠ .scratch)
    (h0 : ∀ b, b < n → word e m recv b = G ((r + b) % n))
    (hQ : ∀ m, (∀ b, b < n → word e m recv b = G b) → Q m) :
    wp (Carries M) r (code K ([Call.scratchAt (n * e)] ++
      ((List.range n).map fun i =>
        Call.memcpy (scratch + ((r + i) % n) * e) (recv + i * e) e) ++
      [Call.memcpy recv scratch (n * e)])) [] Q m := by
  have hn : 0 < n := by omega
  simp only [List.nil_append, List.cons_append]
  -- the array in scratch after `i` copies; the receive buffer stays as it is
  let J : Nat → Mem → Prop := fun i m => (∀ b, b < n → word e m recv b = G ((r + b) % n)) ∧
    ∀ j, j < i → word e m scratch ((r + j) % n) = G ((r + j) % n)
  refine wp_local (l := []) rfl (wp_calls_append (l := []) (w := []) ?_)
  refine wp_locals (c := fun i => Call.memcpy (scratch + ((r + i) % n) * e) (recv + i * e) e) J
    (fun i => rfl) (fun i hi m hm => ?_) ⟨h0, fun j hj => absurd hj (Nat.not_lt_zero j)⟩
    (fun m hm => ?_)
  · have hcp := memcpy_eq_putWords e m (scratch + ((r + i) % n) * e) (recv + i * e) 1
    rw [Nat.one_mul] at hcp
    simp only [hcp]
    refine ⟨fun b hb => ?_, fun j hj => ?_⟩
    · rw [word_putWords_other (apart_of_obj fun h => hobj h.symm) hb]
      exact hm.1 b hb
    · rw [word_putWords]
      split
      · rename_i h
        have hji : (r + j) % n = (r + i) % n := by omega
        rw [hji, Nat.sub_self, word_add, Nat.add_zero]
        exact hm.1 i hi
      · rename_i h
        refine hm.2 j (Nat.lt_of_le_of_ne (Nat.le_of_lt_succ hj) fun hji => h ?_)
        subst hji
        omega
  · refine wp_local (l := []) rfl (hQ _ fun b hb => ?_)
    have hb' : (r + (b + n - r) % n) % n = b := by
      rw [Nat.add_mod_mod, show r + (b + n - r) = b + n by omega, Nat.add_mod_right,
        Nat.mod_eq_of_lt hb]
    have := hm.2 ((b + n - r) % n) (Nat.mod_lt _ hn)
    rw [hb'] at this
    rw [memcpy_eq_putWords, putWords_hit hb, this]

/-- `bruckAllGather`, the rank's own block in place. -/
theorem wp_bruckAllGather (hr : r < n) (hobj : recv.obj ≠ .scratch)
    (hM : ∀ p i, p < n → i < steps n → M p ((p + n - 2 ^ i) % n) (t + i) =
      pack e (bruckWidth n i) fun j => G ((p + j) % n))
    (h0 : word e m recv r = G r)
    (hQ : ∀ m, (∀ b, b < n → word e m recv b = G b) → Q m) :
    wp (Carries M) r (code K (bruckAllGather n r recv e)) ((bruckPlan t n r e).map Slot.entry) Q m := by
  unfold bruckAllGather
  by_cases h : r = 0
  · subst h
    rw [if_neg (by simp), if_neg (by simp), List.append_nil]
    simp only [List.nil_append, List.cons_append]
    refine wp_postRecvs (wp_bruckLoop hr hM h0 fun m hm => hQ m fun b hb => ?_)
    rw [hm b hb, Nat.zero_add, Nat.mod_eq_of_lt hb]
  · rw [if_pos h, if_pos h]
    simp only [List.nil_append, List.cons_append]
    refine wp_local rfl (wp_postRecvs ?_)
    rw [← List.append_nil (bruckPlan t n r e)]
    refine wp_calls_append (wp_bruckLoop hr hM ?_ fun m hm => ?_)
    rotate_left
    · simpa only [List.append_assoc, List.nil_append, List.cons_append, List.map_nil] using
        wp_bruckRotate (K := K) (M := M) hr hobj hm hQ
    have hcp := memcpy_eq_putWords e m recv (recv + r * e) 1
    rw [Nat.one_mul] at hcp
    rw [hcp, putWords_hit Nat.one_pos, word_add, Nat.add_zero]
    exact h0

end Bruck

/-! ## The collective -/

/-- The three algorithms. -/
inductive GatherAlgo where
  | ring
  | recdouble
  | bruck
  deriving DecidableEq, Repr

/-- The algorithm's calls. -/
def GatherAlgo.calls : GatherAlgo → Nat → Nat → Ptr → Nat → List Call
  | .ring, n, r, recv, chunkBytes => ringAllGather n r recv (fun i => ⟨i * chunkBytes, chunkBytes⟩) 0
  | .recdouble, n, r, recv, chunkBytes => recursiveDoublingAllGather n r recv chunkBytes
  | .bruck, n, r, recv, chunkBytes => bruckAllGather n r recv chunkBytes

/-- Recursive doubling needs a power of two; the others run for any number of ranks. -/
def GatherAlgo.Fits (n : Nat) : GatherAlgo → Prop
  | .recdouble => ∃ k, n = 2 ^ k
  | _ => True

/-- `doAllGather` with the algorithm given. -/
def allGatherBy (algo : GatherAlgo) (n rank : Nat) (sendbuff recv : Ptr) (sendcount : Nat)
    (dt : DataType) : List Call :=
  let chunkBytes := sendcount * typeSize dt
  [Call.regAdd recv (n * chunkBytes)] ++
  (if sendbuff ≠ recv + rank * chunkBytes then
    [Call.memcpy (recv + rank * chunkBytes) sendbuff chunkBytes] else []) ++
  if n = 1 ∨ sendcount = 0 then [] else algo.calls n rank recv chunkBytes

/-- The algorithm `doAllGather` takes. -/
def gatherChoice (log : Bool) (n : Nat) : GatherAlgo :=
  if log then (if pow2 n then .recdouble else .bruck) else .ring

theorem doAllGather_eq (env : AlgoEnv) (n rank : Nat) (sendbuff recv : Ptr) (sendcount : Nat)
    (dt : DataType) : doAllGather env n rank sendbuff recv sendcount dt =
      allGatherBy (gatherChoice (env.logPath 65536 (sendcount * typeSize dt)) n) n rank sendbuff recv
        sendcount dt := by
  simp only [doAllGather, allGatherBy, gatherChoice]
  cases env.logPath 65536 (sendcount * typeSize dt) <;> cases pow2 n <;> rfl

theorem gatherChoice_fits (log : Bool) (n : Nat) : (gatherChoice log n).Fits n := by
  unfold gatherChoice
  cases log with
  | false => trivial
  | true =>
    cases hp : pow2 n with
    | false => trivial
    | true =>
      obtain ⟨k, -, hk⟩ := pow2_iff.mp hp
      exact ⟨k, hk⟩

/-- The slots of an algorithm. -/
def GatherAlgo.plan : GatherAlgo → Nat → Nat → Nat → Nat → List Slot
  | .ring, t, n, r, e => ringPlan t n r (fun _ => e) fun _ => e
  | .recdouble, t, n, r, e => doublingPlan t n r fun i => e * 2 ^ i
  | .bruck, t, n, r, e => bruckPlan t n r e

/-- Its number of rounds. -/
def GatherAlgo.span : GatherAlgo → Nat → Nat
  | .ring, n => n - 1
  | _, n => steps n

theorem schedule_gather {algo : GatherAlgo} {t n e : Nat} (hn : 0 < n) (hf : algo.Fits n) :
    Schedule n t (t + algo.span n) fun r => algo.plan t n r e := by
  cases algo with
  | ring => exact schedule_ring fun _ _ _ _ => rfl
  | recdouble => obtain ⟨k, hk⟩ := hf; exact schedule_doubling hk
  | bruck => exact schedule_bruck hn

/-- The messages of an algorithm. -/
def GatherAlgo.msgs (n e : Nat) (G : Nat → Word e) : GatherAlgo → Nat → Nat → Nat → List UInt8
  | .ring, p, _, s => pack e 1 fun i => G ((p + 0 + 2 * n - s) % n + i)
  | .recdouble, p, _, i => pack e (2 ^ i) fun j => G ((p >>> i) <<< i + j)
  | .bruck, p, _, i => pack e (bruckWidth n i) fun j => G ((p + j) % n)

/-- Each algorithm gathers, once the rank's own block is in place. -/
theorem wp_gather {K : Kernels} {Q : Mem → Prop} {m : Mem} {algo : GatherAlgo} {n r e : Nat}
    {recv : Ptr} {G : Nat → Word e} (hf : algo.Fits n) (hr : r < n) (hobj : recv.obj ≠ .scratch)
    (h0 : word e m recv r = G r) (hQ : ∀ m, (∀ b, b < n → word e m recv b = G b) → Q m) :
    wp (Carries (algo.msgs n e G)) r (code K (algo.calls n r recv e))
      ((algo.plan 0 n r e).map Slot.entry) Q m := by
  cases algo with
  | ring =>
    have hc : (fun i => Chunk.mk (i * e) e) = fun i => ⟨i * e, 1 * e⟩ := by simp
    have hp : ringPlan 0 n r (fun _ => e) (fun _ => e) =
        ringPlan 0 n r (fun _ => 1 * e) fun _ => 1 * e := by simp
    simp only [GatherAlgo.calls, GatherAlgo.plan]
    rw [hc, hp]
    refine wp_ringAllGather id (fun _ => 1) (G := G) hr
      (fun p s _ _ => by rw [Nat.zero_add]; rfl) (fun k h1 h2 => ?_)
      (fun m hm => hQ m fun b hb => hm b hb b (Nat.le_refl b) (Nat.lt_succ_self b))
    simp only [Nat.add_zero, Nat.mod_eq_of_lt hr, id] at h1 h2
    obtain rfl : k = r := by omega
    exact h0
  | recdouble =>
    obtain ⟨k, hk⟩ := hf
    exact wp_recursiveDoublingAllGather hk hr (fun p i _ => by rw [Nat.zero_add]; rfl) h0 hQ
  | bruck =>
    exact wp_bruckAllGather hr hobj (fun p i _ _ => by rw [Nat.zero_add]; rfl) h0 hQ

/-- The own block placed, each algorithm leaves the concatenation. -/
theorem wp_allGatherBy {K : Kernels} {Q : Mem → Prop} {m : Mem} {algo : GatherAlgo} {n r e : Nat}
    {sendbuff recv : Ptr} {sendcount : Nat} {dt : DataType} {G : Nat → Word e}
    (he : e = sendcount * typeSize dt) (hf : algo.Fits n) (hr : r < n)
    (hobj : recv.obj ≠ .scratch) (h0 : word e m sendbuff 0 = G r)
    (hQ : ∀ m, (∀ b, b < n → word e m recv b = G b) → Q m) :
    wp (Carries (algo.msgs n e G)) r (code K (allGatherBy algo n r sendbuff recv sendcount dt))
      ((if n = 1 ∨ sendcount = 0 then [] else algo.plan 0 n r e).map Slot.entry) Q m := by
  unfold allGatherBy
  simp only [← he, List.cons_append, List.nil_append]
  refine wp_local rfl ?_
  rw [← List.nil_append (if n = 1 ∨ sendcount = 0 then [] else algo.plan 0 n r e)]
  refine wp_calls_append ?_
  -- whether copied or already there, the own block is in place
  suffices h : ∀ m, word e m recv r = G r → wp (Carries (algo.msgs n e G)) r
      (code K (if n = 1 ∨ sendcount = 0 then [] else algo.calls n r recv e))
      ((if n = 1 ∨ sendcount = 0 then [] else algo.plan 0 n r e).map Slot.entry) Q m by
    split
    · refine wp_local (l := []) rfl (h _ ?_)
      have hcp := memcpy_eq_putWords e m (recv + r * e) sendbuff 1
      rw [Nat.one_mul] at hcp
      simp only [id, hcp]
      rw [word_putWords, if_pos ⟨Nat.le_refl r, Nat.lt_succ_self r⟩, Nat.sub_self]
      exact h0
    · rename_i hin
      have hin : sendbuff = recv + r * e := Classical.not_not.mp hin
      refine h _ ?_
      rw [hin, word_add, Nat.add_zero] at h0
      exact h0
  intro m hm
  split
  · rename_i hz
    refine hQ m fun b hb => ?_
    rcases hz with rfl | rfl
    · obtain rfl : b = r := by omega
      exact hm
    · have he0 : e = 0 := by rw [he, Nat.zero_mul]
      subst he0
      funext j
      exact j.elim0
  · exact wp_gather hf hr hobj hm hQ

/-- Block `b` of the array at `recv` is what rank `b` had at `sendbuff b` before the call. -/
def Gathered (n e : Nat) (m0 : Nat → Mem) (sendbuff : Nat → Ptr) (recv : Ptr) (m : Mem) : Prop :=
  ∀ b, b < n → ∀ j, j < e → m (recv + (b * e + j)) = m0 b (sendbuff b + j)

theorem ends_allGatherBy (K : Kernels) {algo : GatherAlgo} {n : Nat} (hn : 0 < n)
    (hf : algo.Fits n) (sendbuff recvbuff : Nat → Ptr) (sendcount : Nat) (dt : DataType)
    (m : Nat → Mem) (hobj : ∀ r, r < n → (recvbuff r).obj ≠ .scratch) :
    Net.Ends Net.Step
      (system K n (fun r => allGatherBy algo n r (sendbuff r) (recvbuff r) sendcount dt) m)
      fun c => (∀ r, c.code r = []) ∧
        ∀ r, r < n → Gathered n (sendcount * typeSize dt) m sendbuff (recvbuff r) (c.mem r) := by
  have hplan : Schedule n 0 (0 + algo.span n) fun r =>
      if n = 1 ∨ sendcount = 0 then [] else algo.plan 0 n r (sendcount * typeSize dt) := by
    by_cases h : n = 1 ∨ sendcount = 0
    · simp only [if_pos h]; exact Schedule.nil
    · simp only [if_neg h]; exact schedule_gather hn hf
  refine ends_of_schedule hplan fun r hr =>
    wp_allGatherBy (G := fun b => word _ (m b) (sendbuff b) 0) rfl hf hr (hobj r hr) rfl
      fun m' hm' b hb j hj => ?_
  have := congrFun (hm' b hb) ⟨j, hj⟩
  simpa [word] using this

/-- **All-gather leaves the concatenation of the send blocks**, in rank order, on every rank: by
each of the three algorithms, and by `doAllGather` whichever it takes. The send buffer may be
anywhere, also at the rank's own block. -/
theorem allGather_concatenates (K : Kernels) {n : Nat} (hn : 1 ≤ n) (sendbuff recvbuff : Nat → Ptr)
    (sendcount : Nat) (dt : DataType) (m : Nat → Mem)
    (hobj : ∀ r, r < n → (recvbuff r).obj ≠ .scratch) :
    (∀ algo : GatherAlgo, algo.Fits n →
      Net.Ends Net.Step
        (system K n (fun r => allGatherBy algo n r (sendbuff r) (recvbuff r) sendcount dt) m)
        fun c => (∀ r, c.code r = []) ∧
          ∀ r, r < n → Gathered n (sendcount * typeSize dt) m sendbuff (recvbuff r) (c.mem r)) ∧
    ∀ (env : Nat → AlgoEnv) (log : Bool),
      (∀ r, r < n → (env r).logPath 65536 (sendcount * typeSize dt) = log) →
      Net.Ends Net.Step
        (system K n (fun r => doAllGather (env r) n r (sendbuff r) (recvbuff r) sendcount dt) m)
        fun c => (∀ r, c.code r = []) ∧
          ∀ r, r < n → Gathered n (sendcount * typeSize dt) m sendbuff (recvbuff r) (c.mem r) := by
  refine ⟨fun algo hf => ends_allGatherBy K hn hf sendbuff recvbuff sendcount dt m hobj,
    fun env log henv => ?_⟩
  have h := ends_allGatherBy K hn (gatherChoice_fits log n) sendbuff recvbuff sendcount dt m hobj
  rwa [system_congr fun r hr => (by rw [doAllGather_eq, henv r hr] :
    doAllGather (env r) n r (sendbuff r) (recvbuff r) sendcount dt = _)]

/-- Bruck's algorithm on three ranks, in place, two bytes each. -/
theorem allGather_concatenates_three :
    Net.Ends Net.Step
      (system (cpuKernels .idle) 3
        (fun r => allGatherBy .bruck 3 r (Ptr.mk (.user 0) 0 + r * 2) (Ptr.mk (.user 0) 0) 2 .int8)
        fun r _ => UInt8.ofNat r)
      fun c => (∀ r, c.code r = []) ∧
        ∀ r, r < 3 → Gathered 3 2 (fun r _ => UInt8.ofNat r) (fun r => Ptr.mk (.user 0) 0 + r * 2)
          (Ptr.mk (.user 0) 0) (c.mem r) :=
  (allGather_concatenates (cpuKernels .idle) (by decide) (fun r => Ptr.mk (.user 0) 0 + r * 2)
    (fun _ => Ptr.mk (.user 0) 0) 2 .int8 (fun r _ => UInt8.ofNat r) (by decide)).1 .bruck trivial

end Vccl
