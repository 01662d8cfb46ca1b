import Vccl.AllGather

/-!
# All-reduce, what it computes (`recursiveDoublingAllReduce`, `pow2ElimAllReduce`, the ring, `doAllReduce`)

No law of the element operation is used here. Every run of `doAllReduce` ends, and element `k` of
the receive buffer of rank `r` is a fixed combination of the ranks' elements `k` (`allReduced`):

* recursive doubling: `Net.butterfly` over the ranks;
* power-of-two elimination: `Net.butterfly` over the `p2` survivors, whose values are those of
  their pairs (`folded`); an eliminated rank gets its left neighbour's value;
* ring: `Net.ringFold` from the rank the element's chunk starts at.

For `vcclAvg` the combination is scaled at the end, and with a PreMulSum scalar the inputs are
scaled first.
-/

namespace Vccl

open Net (wp butterfly ringFold xor_xor_self xor_eq_comm xor_lt_two_pow)

/-! ## The doubling core -/

section Core

variable {K : Kernels} {M : Nat → Nat → Nat → List UInt8} {Q : Mem → Prop} {m : Mem}
  {t n r : Nat} {recv : Ptr} {count : Nat} {dt : DataType} {op : RedOp}

/-- The elements of the receive buffer. -/
def Elems (dt : DataType) (count : Nat) (recv : Ptr) (v : Nat → Word (typeSize dt)) (m : Mem) :
    Prop :=
  ∀ k, k < count → word (typeSize dt) m recv k = v k

/-- A message into scratch leaves the receive buffer alone. -/
theorem Elems.scratch {v g : Nat → Word (typeSize dt)} {p : Ptr} {c : Nat}
    (h : Elems dt count recv v m) (hobj : recv.obj ≠ .scratch) (hp : p.obj = .scratch) :
    Elems dt count recv v (putWords (typeSize dt) m p c g) := fun k hk => by
  rw [word_putWords_other (apart_of_obj fun h => hobj (h.symm.trans hp)) hk]
  exact h k hk

/-- `cpuReduce` of the receive buffer with what arrived in scratch. -/
theorem Elems.cpuReduce (K : Kernels) (op : RedOp) {v u : Nat → Word (typeSize dt)} {p : Ptr}
    (h : Elems dt count recv v m) (hu : Elems dt count p u m) :
    Elems dt count recv (fun k => K.reduce dt op (v k) (u k)) (cpuReduce K dt op recv p count m) :=
  fun k hk => by
  unfold Vccl.cpuReduce
  rw [putWords_hit hk, h k hk, hu k hk]

/-- The exchange loop of the logarithmic paths: step `i` swaps the accumulator with `peer i`
through region `rgn i` of scratch. -/
theorem wp_core (peer : Nat → Nat) {N : Nat} {rgn : Nat → Ptr} {v u : Nat → Nat → Word (typeSize dt)}
    (hobj : recv.obj ≠ .scratch) (hrgn : ∀ i, (rgn i).obj = .scratch)
    (hout : ∀ i, i < N → M r (peer i) (t + i) = pack (typeSize dt) count (v i))
    (hin : ∀ i, i < N → M (peer i) r (t + i) = pack (typeSize dt) count (u i))
    (hv : ∀ i k, v (i + 1) k = K.reduce dt op (v i k) (u i k))
    (h0 : Elems dt count recv (v 0) m) (hQ : ∀ m, Elems dt count recv (v N) m → Q m) :
    wp (Carries M) r (code K ((List.range N).flatMap fun i =>
        [Call.sendRecv (peer i) recv (count * typeSize dt) (peer i) (rgn i) (count * typeSize dt),
         Call.cpuReduce dt op recv (rgn i) count]))
      ((rounds t N fun i => some (part (peer i) (count * typeSize dt),
        part (peer i) (count * typeSize dt))).map Slot.entry) Q m := by
  refine wp_rounds (fun i => Elems dt count recv (v i)) (fun i hi m hm => ?_) hQ h0
  have hm' := hm.scratch (g := u i) (c := count) hobj (hrgn i)
  refine wp_sendRecv (l := []) ?_ (hin i hi) ?_ (wp_local (l := []) rfl ?_)
  · rw [hout i hi]; exact pack_congr fun k hk => (hm k hk).symm
  · rw [hout i hi]; exact pack_congr fun k hk => (hm' k hk).symm
  · have hu : Elems dt count (rgn i) (u i) (putWords (typeSize dt) m (rgn i) count (u i)) :=
      fun k hk => putWords_hit hk
    exact fun k hk => by rw [hv]; exact hm'.cpuReduce K op hu k hk

end Core

/-! ## Recursive doubling -/

section Values

variable (K : Kernels) (dt : DataType) (op : RedOp) (x : Nat → Nat → Word (typeSize dt))

/-- Element `k` of rank `r` after `i` steps of recursive doubling. -/
def doubled (i r k : Nat) : Word (typeSize dt) := butterfly (K.reduce dt op) (fun p => x p k) i r

/-- Element `k` of survivor `j` of the power-of-two elimination. -/
def folded (extra j k : Nat) : Word (typeSize dt) :=
  if j < extra then K.reduce dt op (x (2 * j) k) (x (2 * j + 1) k) else x (j + extra) k

/-- The survivor that has a rank's result. -/
def survivor (extra r : Nat) : Nat := if r < 2 * extra then r / 2 else r - extra

/-- Element `k` of the chunk's partial after `d` hops around the ring. -/
def ringPartial (n count d k : Nat) : Word (typeSize dt) :=
  ringFold (K.reduce dt op) (fun p => x p k) n (k / chunkLen count n) d

end Values

section Algorithms

variable {K : Kernels} {M : Nat → Nat → Nat → List UInt8} {Q : Mem → Prop} {m : Mem}
  {t n r : Nat} {recv : Ptr} {count : Nat} {dt : DataType} {op : RedOp}
  {x : Nat → Nat → Word (typeSize dt)}

theorem wp_recursiveDoublingAllReduce (hobj : recv.obj ≠ .scratch)
    (hM : ∀ p i, i < steps n → M p (p ^^^ (1 <<< i)) (t + i) =
      pack (typeSize dt) count (doubled K dt op x i p))
    (h0 : Elems dt count recv (x r) m)
    (hQ : ∀ m, Elems dt count recv (doubled K dt op x (steps n) r) m → Q m) :
    wp (Carries M) r (code K (recursiveDoublingAllReduce n r recv count dt op))
      ((doublingPlan t n r fun _ => count * typeSize dt).map Slot.entry) Q m := by
  refine wp_skip rfl (wp_postRecvs ?_)
  refine wp_core (fun i => r ^^^ (1 <<< i)) (v := fun i => doubled K dt op x i r)
    (u := fun i => doubled K dt op x i (r ^^^ (1 <<< i))) hobj (fun i => rfl) (hM r) (fun i hi => ?_)
    (fun i k => rfl) h0 hQ
  have h := hM (r ^^^ (1 <<< i)) i hi
  rwa [xor_xor_self] at h

/-! ## Power-of-two elimination -/

/-- The other rank of a pair. -/
def pairOf (r : Nat) : Nat := if r % 2 = 0 then r + 1 else r - 1

/-- The slots of the pairs below `2 * extra`: before the core the odd rank sends, after it
(`back`) the even one does. -/
def pairPlan (back : Bool) (t extra r bytes : Nat) : List Slot :=
  rounds t 1 fun _ =>
    if r < 2 * extra then
      (if decide (r % 2 = 0) = back then some (part (pairOf r) bytes, none)
       else some (none, part (pairOf r) bytes))
    else none

/-- The slots of the core; an eliminated rank has none. -/
def corePlan (t n extra r bytes : Nat) : List Slot :=
  rounds t (steps (elimP2 n)) fun i =>
    (newRank extra r).map fun j =>
      (part (oldRank extra (j ^^^ (1 <<< i))) bytes, part (oldRank extra (j ^^^ (1 <<< i))) bytes)

/-- The slots of `pow2ElimAllReduce`. -/
def elimPlan (t n r bytes : Nat) : List Slot :=
  pairPlan false t (n - elimP2 n) r bytes ++ corePlan (t + 1) n (n - elimP2 n) r bytes ++
    pairPlan true (t + 1 + steps (elimP2 n)) (n - elimP2 n) r bytes

theorem schedule_pair {back : Bool} {extra bytes : Nat} (he : 2 * extra ≤ n) :
    Schedule n t (t + 1) fun r => pairPlan back t extra r bytes := by
  have hpair : ∀ r, r < 2 * extra → pairOf r < 2 * extra := fun r hr => by
    unfold pairOf; split <;> omega
  have hswap : ∀ p q, pairOf p = q → pairOf q = p ∧ decide (q % 2 = 0) = !decide (p % 2 = 0) := by
    rintro p q rfl
    unfold pairOf
    rcases Nat.mod_two_eq_zero_or_one p with h | h
    · simp only [if_pos h]
      rw [if_neg (by omega)]
      exact ⟨by omega, by simp [h]; omega⟩
    · simp only [if_neg (show ¬ p % 2 = 0 by omega)]
      rw [if_pos (by omega)]
      exact ⟨by omega, by simp [h]; omega⟩
  have hsnd : ∀ p q s b, Sends (fun r _ => if r < 2 * extra then
        (if decide (r % 2 = 0) = back then some (part (pairOf r) bytes, none)
         else some (none, part (pairOf r) bytes)) else none) p q s b ↔
      p < 2 * extra ∧ decide (p % 2 = 0) = back ∧ bytes ≠ 0 ∧ q = pairOf p ∧ b = bytes := by
    intro p q s b
    simp only [Sends]
    split_ifs <;> simp_all [part_eq_some]
  have hrcv : ∀ p q s b, Receives (fun r _ => if r < 2 * extra then
        (if decide (r % 2 = 0) = back then some (part (pairOf r) bytes, none)
         else some (none, part (pairOf r) bytes)) else none) p q s b ↔
      p < 2 * extra ∧ decide (p % 2 = 0) = !back ∧ bytes ≠ 0 ∧ q = pairOf p ∧ b = bytes := by
    intro p q s b
    simp only [Receives]
    split_ifs <;> cases back <;> simp_all [part_eq_some]
  refine schedule_rounds (fun p q s b hp hq _ => ?_) (fun r s q b hr _ h => ?_)
    (fun r s p b hr _ h => ?_)
  · rw [hsnd, hrcv]
    constructor
    · rintro ⟨h1, h2, h3, rfl, h5⟩
      obtain ⟨g1, g2⟩ := hswap q _ rfl
      exact ⟨hpair q h1, by rw [g2, h2, Bool.not_not], h3, g1.symm, h5⟩
    · rintro ⟨h1, h2, h3, rfl, h5⟩
      obtain ⟨g1, g2⟩ := hswap p _ rfl
      exact ⟨hpair p h1, by rw [g2, h2], h3, g1.symm, h5⟩
  · obtain ⟨h1, -, -, rfl, -⟩ := (hsnd r q s b).mp h
    have := hpair r h1
    omega
  · obtain ⟨h1, -, -, rfl, -⟩ := (hrcv r p s b).mp h
    have := hpair r h1
    omega

theorem schedule_core {bytes : Nat} (hn : 0 < n) :
    Schedule n t (t + steps (elimP2 n)) fun r => corePlan t n (n - elimP2 n) r bytes := by
  obtain ⟨k, hk, h1, h2⟩ := elimP2_spec hn
  have hp2 : elimP2 n + (n - elimP2 n) = n := by omega
  have hle : n - elimP2 n ≤ elimP2 n := by rw [hk, Nat.pow_succ] at *; omega
  -- the partner of an active rank is active, and a rank is its partner's partner
  have hpeer : ∀ r i j, r < n → i < steps (elimP2 n) → newRank (n - elimP2 n) r = some j →
      oldRank (n - elimP2 n) (j ^^^ (1 <<< i)) < n := by
    intro r i j hr hi hj
    have hj2 : j < elimP2 n := newRank_lt (by rwa [hp2]) hle hj
    rw [hk, steps_two_pow] at hi
    have : j ^^^ (1 <<< i) < elimP2 n := by rw [hk] at hj2 ⊢; exact xor_lt_two_pow hj2 hi
    have := oldRank_lt this hle
    omega
  have hback : ∀ r i j q, newRank (n - elimP2 n) r = some j →
      oldRank (n - elimP2 n) (j ^^^ (1 <<< i)) = q →
      newRank (n - elimP2 n) q = some (j ^^^ (1 <<< i)) ∧
        oldRank (n - elimP2 n) (j ^^^ (1 <<< i) ^^^ (1 <<< i)) = r := by
    rintro r i j q hj rfl
    exact ⟨newRank_oldRank, by rw [xor_xor_self]; exact oldRank_newRank hj⟩
  refine schedule_rounds (fun p q s b hp hq hs => ?_) (fun r s q b hr hs h => ?_)
    (fun r s p b hr hs h => ?_)
  · simp only [Receives, Sends, Option.map_eq_some_iff, Prod.mk.injEq, part_eq_some]
    constructor
    · rintro ⟨out, j, hj, -, h0, hpj, rfl⟩
      obtain ⟨h3, h4⟩ := hback q s j p hj hpj.symm
      exact ⟨_, _, h3, ⟨h0, h4.symm, rfl⟩, rfl⟩
    · rintro ⟨inn, j, hj, ⟨h0, hqj, rfl⟩, -⟩
      obtain ⟨h3, h4⟩ := hback p s j q hj hqj.symm
      exact ⟨_, _, h3, rfl, h0, h4.symm, rfl⟩
  · obtain ⟨inn, h⟩ := h
    simp only [Option.map_eq_some_iff, Prod.mk.injEq, part_eq_some] at h
    obtain ⟨j, hj, ⟨-, rfl, -⟩, -⟩ := h
    exact hpeer r s j hr hs hj
  · obtain ⟨out, h⟩ := h
    simp only [Option.map_eq_some_iff, Prod.mk.injEq, part_eq_some] at h
    obtain ⟨j, hj, -, -, rfl, -⟩ := h
    exact hpeer r s j hr hs hj

theorem schedule_elim (bytes : Nat) (hn : 0 < n) :
    Schedule n t (t + 1 + steps (elimP2 n) + 1) fun r => elimPlan t n r bytes :=
  ((schedule_pair (two_extra_le hn)).append (schedule_core hn) (by omega) (by omega)).append
    (schedule_pair (two_extra_le hn)) (by omega) (by omega)

/-- `pow2ElimAllReduce`. The message tables of the three phases are those of the survivors. -/
theorem wp_pow2ElimAllReduce (hn : 0 < n) (hc : 0 < count) (hobj : recv.obj ≠ .scratch)
    (hMf : ∀ p q, M p q t = pack (typeSize dt) count (x p))
    (hMc : ∀ p q i j, i < steps (elimP2 n) → newRank (n - elimP2 n) p = some j →
      M p q (t + 1 + i) = pack (typeSize dt) count
        (doubled K dt op (folded K dt op x (n - elimP2 n)) i j))
    (hMb : ∀ p q j, newRank (n - elimP2 n) p = some j →
      M p q (t + 1 + steps (elimP2 n)) = pack (typeSize dt) count
        (doubled K dt op (folded K dt op x (n - elimP2 n)) (steps (elimP2 n)) j))
    (h0 : Elems dt count recv (x r) m)
    (hQ : ∀ m, Elems dt count recv (doubled K dt op (folded K dt op x (n - elimP2 n))
      (steps (elimP2 n)) (survivor (n - elimP2 n) r)) m → Q m) :
    wp (Carries M) r (code K (pow2ElimAllReduce n r recv count dt op))
      ((elimPlan t n r (count * typeSize dt)).map Slot.entry) Q m := by
  have hb : count * typeSize dt ≠ 0 := Nat.pos_iff_ne_zero.mp (Nat.mul_pos hc (typeSize_pos dt))
  obtain ⟨k, hk, h1, h2⟩ := elimP2_spec hn
  have hp2 : elimP2 n + (n - elimP2 n) = n := by omega
  have hle : n - elimP2 n ≤ elimP2 n := by rw [hk, Nat.pow_succ] at *; omega
  -- the core of an active rank, from its folded value to the result
  have hcore : ∀ {Q : Mem → Prop} {m : Mem} (j : Nat), newRank (n - elimP2 n) r = some j →
      Elems dt count recv (folded K dt op x (n - elimP2 n) j) m →
      (∀ m, Elems dt count recv (doubled K dt op (folded K dt op x (n - elimP2 n))
        (steps (elimP2 n)) j) m → Q m) →
      wp (Carries M) r (code K ((corePeers n (n - elimP2 n) (count * typeSize dt)
          (newRank (n - elimP2 n) r)).flatMap fun cp =>
          [Call.sendRecv cp.1 recv (count * typeSize dt) cp.1 cp.2 (count * typeSize dt),
           Call.cpuReduce dt op recv cp.2 count]))
        ((corePlan (t + 1) n (n - elimP2 n) r (count * typeSize dt)).map Slot.entry) Q m := by
    intro Q m j hj hm hQ
    unfold corePlan
    simp only [corePeers, hj, List.flatMap_map, Option.map_some]
    refine wp_core (fun i => oldRank (n - elimP2 n) (j ^^^ (1 <<< i)))
      (v := fun i => doubled K dt op (folded K dt op x (n - elimP2 n)) i j)
      (u := fun i => doubled K dt op (folded K dt op x (n - elimP2 n)) i (j ^^^ (1 <<< i)))
      hobj (fun i => rfl)
      (fun i hi => hMc r _ i j hi hj) (fun i hi => hMc _ _ i _ hi newRank_oldRank)
      (fun i k => rfl) hm hQ
  unfold pow2ElimAllReduce elimPlan
  simp only [List.cons_append, List.nil_append]
  refine wp_skip rfl (wp_postRecvs (wp_calls_append (wp_calls_append ?_)))
  simp only [Nat.and_one_is_mod]
  by_cases hpre : r < 2 * (n - elimP2 n)
  · have hsur : survivor (n - elimP2 n) r = r / 2 := if_pos hpre
    rw [hsur] at hQ
    rcases Nat.mod_two_eq_zero_or_one r with h2 | h2
    · -- an even survivor takes its pair's value in, runs the core and sends the result back
      have hnew : newRank (n - elimP2 n) r = some (r / 2) := by
        rw [newRank, if_pos hpre, Nat.and_one_is_mod, if_neg (by omega)]
      have hpair : pairOf r = r + 1 := if_pos h2
      have hfold : pairPlan false t (n - elimP2 n) r (count * typeSize dt) =
          [⟨t, none, part (r + 1) (count * typeSize dt)⟩] := by
        simp [pairPlan, rounds, hpre, h2, hpair]
      have hback : ∀ t', pairPlan true t' (n - elimP2 n) r (count * typeSize dt) =
          [⟨t', part (r + 1) (count * typeSize dt), none⟩] := fun t' => by
        simp [pairPlan, rounds, hpre, h2, hpair]
      rw [hfold, hback, if_pos ⟨hpre, h2⟩, if_pos ⟨hpre, h2⟩]
      refine wp_recv (g := x (r + 1)) hb (hMf _ _) (wp_local (l := []) rfl ?_)
      refine hcore (r / 2) hnew ?_ fun m hm => ?_
      · have hx := (h0.scratch (g := x (r + 1)) (c := count) (p := scratch) hobj rfl).cpuReduce
          K op (fun k hk => putWords_hit hk)
        intro k hk
        rw [hx k hk, folded, if_pos (by omega)]
        have hd : 2 * (r / 2) = r := by omega
        rw [hd]
      · refine wp_send (l := []) hb ?_ (hQ m hm)
        rw [hMb r _ _ hnew]
        exact pack_congr fun k hk => (hm k hk).symm
    · -- an eliminated rank sends its value and waits for the result
      have hnew : newRank (n - elimP2 n) r = none := by
        rw [newRank, if_pos hpre, Nat.and_one_is_mod, if_pos h2]
      have hpair : pairOf r = r - 1 := if_neg (by omega)
      have hfold : pairPlan false t (n - elimP2 n) r (count * typeSize dt) =
          [⟨t, part (r - 1) (count * typeSize dt), none⟩] := by
        simp [pairPlan, rounds, hpre, h2, hpair]
      have hback : ∀ t', pairPlan true t' (n - elimP2 n) r (count * typeSize dt) =
          [⟨t', none, part (r - 1) (count * typeSize dt)⟩] := fun t' => by
        simp [pairPlan, rounds, hpre, h2, hpair]
      have hcp : corePlan (t + 1) n (n - elimP2 n) r (count * typeSize dt) = [] := by
        simp [corePlan, rounds, hnew]
      have hleft : newRank (n - elimP2 n) (r - 1) = some (r / 2) := by
        rw [newRank, if_pos (by omega), Nat.and_one_is_mod, if_neg (by omega)]
        congr 1
        omega
      have hodd : ¬ (r < 2 * (n - elimP2 n) ∧ r % 2 = 0) := by omega
      rw [hfold, hback, hcp, hnew, if_neg hodd, if_neg hodd, if_pos ⟨hpre, h2⟩,
        if_pos ⟨hpre, h2⟩]
      refine wp_send (l := []) hb ?_ (wp_recv (l := []) hb (hMb _ _ _ hleft) (hQ _ ?_))
      · rw [hMf]
        exact pack_congr fun k hk => (h0 k hk).symm
      · exact fun k hk => putWords_hit hk
  · -- a rank past the pairs only runs the core
    have hsur : survivor (n - elimP2 n) r = r - (n - elimP2 n) := if_neg hpre
    have hnew : newRank (n - elimP2 n) r = some (r - (n - elimP2 n)) := if_neg hpre
    have hplan : ∀ back t', pairPlan back t' (n - elimP2 n) r (count * typeSize dt) = [] :=
      fun back t' => by simp [pairPlan, rounds, hpre]
    rw [hplan, hplan, if_neg (fun h => hpre h.1), if_neg (fun h => hpre h.1),
      if_neg (fun h => hpre h.1), if_neg (fun h => hpre h.1)]
    rw [hsur] at hQ
    refine hcore _ hnew (fun k hk => ?_) hQ
    rw [h0 k hk, folded, if_neg (by omega)]
    congr 1
    omega

/-! ## The ring -/

/-- First element and length of chunk `c`. -/
def chunkLo (count n c : Nat) : Nat := min (chunkLen count n * c) count

def chunkSize (count n c : Nat) : Nat :=
  min (chunkLen count n * (c + 1)) count - min (chunkLen count n * c) count

theorem makeChunks_eq (count n e : Nat) :
    makeChunks count n e = fun c => ⟨chunkLo count n c * e, chunkSize count n c * e⟩ := rfl

theorem chunk_mem {c k : Nat} (hn : 0 < n) (hk : k < count) :
    (chunkLo count n c ≤ k ∧ k < chunkLo count n c + chunkSize count n c) ↔
      k / chunkLen count n = c := by
  rw [← mem_chunk_iff hn hk]
  unfold chunkLo chunkSize
  omega

theorem chunk_le {c k : Nat} (h : k < chunkLo count n c + chunkSize count n c) : k < count := by
  unfold chunkLo chunkSize at h
  omega

/-- The chunk sent at step `s` has come `s` places; the one received then comes one more. -/
theorem dist_sent {s : Nat} (_ : r < n) (hs : s < n) : dist n ((r + n - s) % n) r = s := by
  unfold dist
  have hlt : (r + n - s) % n < n := Nat.mod_lt _ (by omega)
  have h1 : (r + n - (r + n - s) % n) + (r + n - s) % n ≡ s + (r + n - s) % n [MOD n] := by
    have h2 : s + (r + n - s) % n ≡ s + (r + n - s) [MOD n] :=
      Nat.ModEq.add_left _ (Nat.mod_modEq _ _)
    rw [show s + (r + n - s) = r + n by omega] at h2
    rw [show r + n - (r + n - s) % n + (r + n - s) % n = r + n by omega]
    exact h2.symm
  have h3 := Nat.ModEq.add_right_cancel' _ h1
  rwa [Nat.ModEq, Nat.mod_eq_of_lt hs] at h3

theorem dist_eq_iff {c d : Nat} (hr : r < n) (hc : c < n) (hd : d < n) :
    dist n c r = d ↔ c = (r + n - d) % n := by
  constructor
  · rintro rfl
    unfold dist
    have h : (c + (r + n - c) % n) % n = r := by
      rw [Nat.add_mod_mod, show c + (r + n - c) = r + n by omega, Nat.add_mod_right,
        Nat.mod_eq_of_lt hr]
    exact ((add_sub_mod_iff hr hc (Nat.le_of_lt (Nat.mod_lt _ (by omega)))).mpr h).symm
  · rintro rfl
    exact dist_sent hr hd

/-- The elements of rank `r` before step `s` of the reduce-scatter: those whose chunk has come by
are partials, the others still its input. -/
def scattered (K : Kernels) (dt : DataType) (op : RedOp) (x : Nat → Nat → Word (typeSize dt))
    (n count r s k : Nat) : Word (typeSize dt) :=
  if dist n (k / chunkLen count n) r ≤ s then
    ringPartial K dt op x n count (dist n (k / chunkLen count n) r) k
  else x r k

theorem wp_ringReduceScatter (hr : r < n) (hobj : recv.obj ≠ .scratch)
    (hM : ∀ p s, p < n → s < n - 1 → M p (next n p) (t + s) =
      pack (typeSize dt) (chunkSize count n ((p + n - s) % n)) fun i =>
        ringPartial K dt op x n count s (chunkLo count n ((p + n - s) % n) + i))
    (h0 : Elems dt count recv (x r) m)
    (hQ : ∀ m, Elems dt count recv (fun k =>
      ringPartial K dt op x n count (dist n (k / chunkLen count n) r) k) m → Q m) :
    wp (Carries M) r (code K (ringReduceScatter n r recv (makeChunks count n (typeSize dt)) dt op))
      ((ringPlan t n r (fun s => chunkSize count n ((r + n - s) % n) * typeSize dt)
        fun s => chunkSize count n ((r + 2 * n - s - 1) % n) * typeSize dt).map Slot.entry) Q m := by
  have hn : 0 < n := by omega
  have he := typeSize_pos dt
  rw [makeChunks_eq]
  refine wp_skip rfl (wp_rounds
    (fun s => Elems dt count recv (scattered K dt op x n count r s)) (fun s hs m hm => ?_)
    (fun m hm => hQ m fun k hk => ?_) fun k hk => ?_)
  · have hidx : (r + 2 * n - s - 1) % n = (r + n - (s + 1)) % n := by
      rw [show r + 2 * n - s - 1 = r + n - (s + 1) + n by omega, Nat.add_mod_right]
    have hin : M (prev n r) r (t + s) =
        pack (typeSize dt) (chunkSize count n ((r + n - (s + 1)) % n)) fun i =>
          ringPartial K dt op x n count s (chunkLo count n ((r + n - (s + 1)) % n) + i) := by
      have h := hM (prev n r) s (prev_lt r hn) hs
      rw [next_prev hr, prev_sub_mod (a := n) hn (by omega)] at h
      rw [h, show r + n - s - 1 = r + n - (s + 1) by omega]
    -- the chunk sent has come `s` places
    have hsend : ∀ m', Elems dt count recv (scattered K dt op x n count r s) m' →
        M r (next n r) (t + s) = pack (typeSize dt) (chunkSize count n ((r + n - s) % n))
          (word (typeSize dt) m' (recv + chunkLo count n ((r + n - s) % n) * typeSize dt)) := by
      intro m' hm'
      rw [hM r s hr hs]
      refine pack_congr fun i hi => ?_
      have hk : chunkLo count n ((r + n - s) % n) + i < count :=
        chunk_le (n := n) (c := (r + n - s) % n) (by omega)
      have hc := (chunk_mem (c := (r + n - s) % n) hn hk).mp (by omega)
      rw [word_add, hm' _ hk, scattered, hc, dist_sent hr (by omega), if_pos (Nat.le_refl s)]
    simp only [hidx]
    refine wp_sendRecv (l := []) (hsend m hm) hin
      (hsend _ (hm.scratch hobj rfl)) ?_
    have hm' := hm.scratch (p := scratch) (c := chunkSize count n ((r + n - (s + 1)) % n))
      (g := fun i => ringPartial K dt op x n count s (chunkLo count n ((r + n - (s + 1)) % n) + i))
      hobj rfl
    -- an element outside the chunk that came keeps its value
    have hkeep : ∀ k, k < count → k / chunkLen count n ≠ (r + n - (s + 1)) % n →
        scattered K dt op x n count r s k = scattered K dt op x n count r (s + 1) k := by
      intro k hk hne
      have hcl := chunk_lt hn hk
      have hd : dist n (k / chunkLen count n) r ≠ s + 1 := fun h =>
        hne ((dist_eq_iff hr hcl (by omega)).mp h)
      unfold scattered
      by_cases hle : dist n (k / chunkLen count n) r ≤ s
      · rw [if_pos hle, if_pos (by omega)]
      · rw [if_neg hle, if_neg (by omega)]
    by_cases h0c : chunkSize count n ((r + n - (s + 1)) % n) * typeSize dt > 0
    · rw [if_pos h0c]
      refine wp_local (l := []) rfl fun k hk => ?_
      unfold cpuReduce
      rw [Nat.mul_div_cancel _ he, word_putWords]
      split
      · rename_i hin'
        have hc := (chunk_mem (c := (r + n - (s + 1)) % n) hn hk).mp hin'
        have hd := (dist_eq_iff hr (chunk_lt hn hk) (by omega)).mpr hc
        rw [word_add, show chunkLo count n ((r + n - (s + 1)) % n) +
            (k - chunkLo count n ((r + n - (s + 1)) % n)) = k by omega, hm' k hk,
          putWords_hit (by omega), show chunkLo count n ((r + n - (s + 1)) % n) +
            (k - chunkLo count n ((r + n - (s + 1)) % n)) = k by omega]
        simp only [scattered, hd]
        rw [if_neg (by omega), if_pos (Nat.le_refl _), ringPartial, ringPartial, ringFold]
        have hrr : (k / chunkLen count n + (s + 1)) % n = r := by
          rw [hc]
          exact (add_sub_mod_iff hr (Nat.mod_lt _ hn) (by omega)).mp rfl
        rw [hrr]
      · rename_i hout
        rw [hm' k hk]
        exact hkeep k hk fun hc => hout ((chunk_mem hn hk).mpr hc)
    · rw [if_neg h0c]
      intro k hk
      rw [hm' k hk]
      refine hkeep k hk fun hc => h0c (Nat.mul_pos ?_ he)
      have := (chunk_mem hn hk).mpr hc
      omega
  · rw [hm k hk, scattered, if_pos]
    have : dist n (k / chunkLen count n) r < n := dist_lt hn
    omega
  · rw [h0 k hk, scattered]
    split
    · rename_i hd
      have hc := (dist_eq_iff hr (chunk_lt hn hk) hn).mp (Nat.le_zero.mp hd)
      rw [Nat.le_zero.mp hd, ringPartial, ringFold, hc, Nat.sub_zero, Nat.add_mod_right,
        Nat.mod_eq_of_lt hr]
    · rfl

end Algorithms

/-! ## The collective -/

/-- A PreMulSum input. -/
def preScaled (K : Kernels) {dt : DataType} (premul : Option Factor) (x : Word (typeSize dt)) :
    Word (typeSize dt) :=
  match premul with
  | some k => K.scale dt k x
  | none => x

/-- The `vcclAvg` scaling. -/
def averaged (K : Kernels) (op : RedOp) (n : Nat) {dt : DataType} (v : Word (typeSize dt)) :
    Word (typeSize dt) :=
  if op = .avg then K.scale dt (K.recip n) v else v

/-- Element `k` of rank `r` after `doAllReduce` of the inputs `x`, on the logarithmic path or not. -/
def allReduced (K : Kernels) (dt : DataType) (op : RedOp) (log : Bool) (n count : Nat)
    (x : Nat → Nat → Word (typeSize dt)) (r k : Nat) : Word (typeSize dt) :=
  if n = 1 then x r k
  else averaged K op n (
    if log then
      if pow2 n then doubled K dt op x (steps n) r k
      else doubled K dt op (folded K dt op x (n - elimP2 n)) (steps (elimP2 n))
        (survivor (n - elimP2 n) r) k
    else ringPartial K dt op x n count (n - 1) k)

/-- The messages of `doAllReduce`. -/
def reduceMsgs (K : Kernels) (dt : DataType) (op : RedOp) (log : Bool) (n count : Nat)
    (x : Nat → Nat → Word (typeSize dt)) (p _q t : Nat) : List UInt8 :=
  if log then
    if pow2 n then pack (typeSize dt) count (doubled K dt op x t p)
    else if t = 0 then pack (typeSize dt) count (x p)
    else match newRank (n - elimP2 n) p with
      | some j => pack (typeSize dt) count
          (doubled K dt op (folded K dt op x (n - elimP2 n)) (t - 1) j)
      | none => []
  else if t < n - 1 then
    pack (typeSize dt) (chunkSize count n ((p + n - t) % n)) fun i =>
      ringPartial K dt op x n count t (chunkLo count n ((p + n - t) % n) + i)
  else
    pack (typeSize dt) (chunkSize count n ((p + 1 + 2 * n - (t - (n - 1))) % n)) fun i =>
      averaged K op n (ringPartial K dt op x n count (n - 1)
        (chunkLo count n ((p + 1 + 2 * n - (t - (n - 1))) % n) + i))

/-- The slots of the ring all-reduce: reduce-scatter, then all-gather. -/
def ringReducePlan (t n r count e : Nat) : List Slot :=
  ringPlan t n r (fun s => chunkSize count n ((r + n - s) % n) * e)
    (fun s => chunkSize count n ((r + 2 * n - s - 1) % n) * e) ++
  ringPlan (t + (n - 1)) n r (fun s => chunkSize count n ((r + 1 + 2 * n - s) % n) * e)
    (fun s => chunkSize count n ((r + 1 + 2 * n - s - 1) % n) * e)

/-- The slots of `doAllReduce`. -/
def reducePlan (log : Bool) (t n r count e : Nat) : List Slot :=
  if n = 1 ∨ count = 0 then []
  else if log then
    if pow2 n then doublingPlan t n r fun _ => count * e else elimPlan t n r (count * e)
  else ringReducePlan t n r count e

/-- The number of its rounds. -/
def reduceSpan (log : Bool) (n : Nat) : Nat :=
  if log then (if pow2 n then steps n else 1 + steps (elimP2 n) + 1) else (n - 1) + (n - 1)

theorem schedule_ringReduce {t n count e : Nat} :
    Schedule n t (t + ((n - 1) + (n - 1))) fun r => ringReducePlan t n r count e := by
  have h1 : Schedule n t (t + (n - 1)) fun r =>
      ringPlan t n r (fun s => chunkSize count n ((r + n - s) % n) * e)
        fun s => chunkSize count n ((r + 2 * n - s - 1) % n) * e := by
    refine schedule_ring fun q s hq hs => ?_
    rw [prev_sub_mod (a := n) (by omega) (by omega),
      show q + 2 * n - s - 1 = q + n - s - 1 + n by omega, Nat.add_mod_right]
  have h2 : Schedule n (t + (n - 1)) (t + (n - 1) + (n - 1)) fun r =>
      ringPlan (t + (n - 1)) n r (fun s => chunkSize count n ((r + 1 + 2 * n - s) % n) * e)
        fun s => chunkSize count n ((r + 1 + 2 * n - s - 1) % n) * e := by
    refine schedule_ring fun q s hq hs => ?_
    rw [Nat.add_assoc, Nat.add_assoc, prev_sub_mod (a := 1 + 2 * n) (by omega) (by omega)]
  rw [← Nat.add_assoc]
  exact h1.append h2 (by omega) (by omega)

theorem schedule_reduce (log : Bool) {t n count e : Nat} (hn : 0 < n) :
    Schedule n t (t + reduceSpan log n) fun r => reducePlan log t n r count e := by
  unfold reducePlan reduceSpan
  by_cases h0 : n = 1 ∨ count = 0
  · simp only [if_pos h0]
    exact Schedule.nil
  · simp only [if_neg h0]
    cases log with
    | false => exact schedule_ringReduce
    | true =>
      cases hp : pow2 n with
      | true =>
        obtain ⟨k, -, hk⟩ := pow2_iff.mp hp
        exact schedule_doubling hk
      | false =>
        have h := schedule_elim (t := t) (count * e) hn
        rw [show t + 1 + steps (elimP2 n) + 1 = t + (1 + steps (elimP2 n) + 1) by omega] at h
        exact h

section Collective

variable {K : Kernels} {Q : Mem → Prop} {m : Mem} {n r : Nat} {recv : Ptr} {count : Nat}
  {dt : DataType} {op : RedOp} {x : Nat → Nat → Word (typeSize dt)}

theorem Elems.cpuScale {v : Nat → Word (typeSize dt)} {c : Coef} (h : Elems dt count recv v m) :
    Elems dt count recv (fun k => K.scale dt (c.value K) (v k)) (cpuScale K dt recv count c m) :=
  fun k hk => by
  unfold Vccl.cpuScale
  rw [putWords_hit hk, h k hk]

/-- The final scaling of the logarithmic paths. -/
theorem wp_average {M : Nat → Nat → Nat → List UInt8} {v : Nat → Word (typeSize dt)}
    (h : Elems dt count recv v m)
    (hQ : ∀ m, Elems dt count recv (fun k => averaged K op n (v k)) m → Q m) :
    wp (Carries M) r (code K (if op = .avg then [Call.cpuScale dt recv count (.recip n)] else []))
      (([] : List Slot).map Slot.entry) Q m := by
  by_cases ho : op = .avg
  · rw [if_pos ho]
    refine wp_local (l := []) rfl (hQ _ fun k hk => ?_)
    simp only [averaged, if_pos ho]
    exact h.cpuScale (c := .recip n) k hk
  · rw [if_neg ho]
    refine hQ m fun k hk => ?_
    simp only [averaged, if_neg ho]
    exact h k hk

/-- The ring path of `doAllReduce`. -/
theorem wp_ringAllReduce (hn : n ≠ 1) (hr : r < n) (hobj : recv.obj ≠ .scratch)
    (h0 : Elems dt count recv (x r) m)
    (hQ : ∀ m, Elems dt count recv
      (fun k => averaged K op n (ringPartial K dt op x n count (n - 1) k)) m → Q m) :
    wp (Carries (reduceMsgs K dt op false n count x)) r
      (code K (ringReduceScatter n r recv (makeChunks count n (typeSize dt)) dt op ++
        (if op = .avg ∧ (makeChunks count n (typeSize dt) ((r + 1) % n)).bytes > 0 then
          [Call.cpuScale dt (recv + (makeChunks count n (typeSize dt) ((r + 1) % n)).offset)
            ((makeChunks count n (typeSize dt) ((r + 1) % n)).bytes / typeSize dt) (.recip n)]
         else []) ++
        ringAllGather n r recv (makeChunks count n (typeSize dt)) 1))
      ((ringReducePlan 0 n r count (typeSize dt)).map Slot.entry) Q m := by
  have hn0 : 0 < n := by omega
  have hsteps : 0 < n - 1 := by omega
  let G : Nat → Word (typeSize dt) := fun k =>
    averaged K op n (ringPartial K dt op x n count (n - 1) k)
  rw [List.append_assoc]
  refine wp_calls_append (wp_ringReduceScatter (x := x) hr hobj (fun p s _ hs => ?_) h0
    fun m hm => ?_)
  · rw [Nat.zero_add]
    exact if_pos hs
  rw [← List.nil_append (ringPlan (0 + (n - 1)) n r _ _)]
  refine wp_calls_append ?_
  -- the rank's finished chunk, scaled or not, is what the all-gather starts from
  have hmine : ∀ k, chunkLo count n ((r + 1) % n) ≤ k →
      k < chunkLo count n ((r + 1) % n) + chunkSize count n ((r + 1) % n) →
      k < count ∧ word (typeSize dt) m recv k = ringPartial K dt op x n count (n - 1) k := by
    intro k h1 h2
    have hk : k < count := chunk_le h2
    have hc := (chunk_mem hn0 hk).mp ⟨h1, h2⟩
    have hd : dist n (k / chunkLen count n) r = n - 1 := by
      rw [dist_eq_iff hr (chunk_lt hn0 hk) (by omega), hc]
      congr 1
      omega
    exact ⟨hk, by rw [hm k hk]; simp only [hd]⟩
  have hgather : ∀ m, Holds (typeSize dt) m recv G (chunkLo count n ((r + 1) % n))
      (chunkSize count n ((r + 1) % n)) →
      wp (Carries (reduceMsgs K dt op false n count x)) r
        (code K (ringAllGather n r recv (makeChunks count n (typeSize dt)) 1))
        ((ringPlan (0 + (n - 1)) n r
          (fun s => chunkSize count n ((r + 1 + 2 * n - s) % n) * typeSize dt)
          fun s => chunkSize count n ((r + 1 + 2 * n - s - 1) % n) * typeSize dt).map Slot.entry)
        Q m := by
    intro m hm
    refine wp_ringAllGather _ _ (G := G) hr (fun p s hp hs => ?_) hm fun m hm => hQ m fun k hk => ?_
    · have ht : ¬ 0 + (n - 1) + s < n - 1 := by omega
      have hs' : 0 + (n - 1) + s - (n - 1) = s := by omega
      simp only [reduceMsgs, Bool.false_eq_true, if_false, if_neg ht, hs']
      rfl
    · obtain ⟨h1, h2⟩ := (chunk_mem (c := k / chunkLen count n) hn0 hk).mpr rfl
      exact hm _ (chunk_lt hn0 hk) k h1 h2
  rw [makeChunks_eq]
  by_cases ho : op = .avg ∧ chunkSize count n ((r + 1) % n) * typeSize dt > 0
  · rw [if_pos ho]
    refine wp_local (l := []) rfl (hgather _ fun k h1 h2 => ?_)
    obtain ⟨hk, hv⟩ := hmine k h1 h2
    unfold cpuScale
    rw [Nat.mul_div_cancel _ (typeSize_pos dt), word_putWords, if_pos ⟨h1, h2⟩, word_add,
      show chunkLo count n ((r + 1) % n) + (k - chunkLo count n ((r + 1) % n)) = k by omega, hv]
    simp only [G, averaged, if_pos ho.1]
    rfl
  · rw [if_neg ho]
    refine hgather m fun k h1 h2 => ?_
    obtain ⟨hk, hv⟩ := hmine k h1 h2
    have ho' : op ≠ .avg := fun h => ho ⟨h, Nat.mul_pos (by omega) (typeSize_pos dt)⟩
    rw [hv]
    exact (if_neg ho').symm

/-- The algorithms of `doAllReduce`, on the inputs in place. -/
theorem wp_reduceAlgo {log : Bool} (hn : 0 < n) (hr : r < n) (hobj : recv.obj ≠ .scratch)
    (h0 : Elems dt count recv (x r) m)
    (hQ : ∀ m, Elems dt count recv (allReduced K dt op log n count x r) m → Q m) :
    wp (Carries (reduceMsgs K dt op log n count x)) r
      (code K (if n = 1 ∨ count = 0 then []
        else if log then
          (if pow2 n then recursiveDoublingAllReduce n r recv count dt op
           else pow2ElimAllReduce n r recv count dt op) ++
          if op = .avg then [Call.cpuScale dt recv count (.recip n)] else []
        else
          ringReduceScatter n r recv (makeChunks count n (typeSize dt)) dt op ++
          (if op = .avg ∧ (makeChunks count n (typeSize dt) ((r + 1) % n)).bytes > 0 then
            [Call.cpuScale dt (recv + (makeChunks count n (typeSize dt) ((r + 1) % n)).offset)
              ((makeChunks count n (typeSize dt) ((r + 1) % n)).bytes / typeSize dt) (.recip n)]
           else []) ++
          ringAllGather n r recv (makeChunks count n (typeSize dt)) 1))
      ((reducePlan log 0 n r count (typeSize dt)).map Slot.entry) Q m := by
  unfold reducePlan
  by_cases hz : n = 1 ∨ count = 0
  · rw [if_pos hz, if_pos hz]
    refine hQ m fun k hk => ?_
    rcases hz with rfl | rfl
    · rw [allReduced, if_pos rfl]; exact h0 k hk
    · omega
  · rw [if_neg hz, if_neg hz]
    have hn1 : n ≠ 1 := fun h => hz (Or.inl h)
    have hc : 0 < count := Nat.pos_of_ne_zero fun h => hz (Or.inr h)
    have hval : ∀ k, allReduced K dt op log n count x r k = averaged K op n (
        if log then
          if pow2 n then doubled K dt op x (steps n) r k
          else doubled K dt op (folded K dt op x (n - elimP2 n)) (steps (elimP2 n))
            (survivor (n - elimP2 n) r) k
        else ringPartial K dt op x n count (n - 1) k) := fun k => if_neg hn1
    cases log with
    | false =>
      refine wp_ringAllReduce hn1 hr hobj h0 fun m hm => hQ m fun k hk => ?_
      rw [hval]
      exact hm k hk
    | true =>
      simp only [if_true] at hval ⊢
      rw [← List.append_nil (if pow2 n = true then _ else _ : List Slot)]
      refine wp_calls_append ?_
      cases hp : pow2 n with
      | true =>
        simp only [hp, if_true] at hval ⊢
        refine wp_recursiveDoublingAllReduce (x := x) hobj (fun p i hi => ?_) h0 fun m hm =>
          wp_average hm fun m hm => hQ m fun k hk => by rw [hval]; exact hm k hk
        simp [reduceMsgs, hp]
      | false =>
        simp only [hp, Bool.false_eq_true, if_false] at hval ⊢
        refine wp_pow2ElimAllReduce (x := x) hn hc hobj (fun p q => ?_) (fun p q i j hi hj => ?_)
          (fun p q j hj => ?_) h0 fun m hm =>
          wp_average hm fun m hm => hQ m fun k hk => by rw [hval]; exact hm k hk
        · simp [reduceMsgs, hp]
        · have ht : ¬ 0 + 1 + i = 0 := by omega
          have ht' : 0 + 1 + i - 1 = i := by omega
          simp only [reduceMsgs, hp, if_true, Bool.false_eq_true, if_false, if_neg ht, hj, ht']
        · have ht : ¬ 0 + 1 + steps (elimP2 n) = 0 := by omega
          have ht' : 0 + 1 + steps (elimP2 n) - 1 = steps (elimP2 n) := by omega
          simp only [reduceMsgs, hp, if_true, Bool.false_eq_true, if_false, if_neg ht, hj, ht']

/-- `doAllReduce`. -/
theorem wp_doAllReduce {env : AlgoEnv} {log : Bool} {sendbuff : Ptr} {premul : Option Factor}
    (henv : env.logPath 262144 (count * typeSize dt) = log) (hr : r < n)
    (hobj : recv.obj ≠ .scratch)
    (hx : ∀ k, x r k = preScaled K premul (word (typeSize dt) m sendbuff k))
    (hQ : ∀ m, Elems dt count recv (allReduced K dt op log n count x r) m → Q m) :
    wp (Carries (reduceMsgs K dt op log n count x)) r
      (code K (doAllReduce env n r sendbuff recv count dt op premul))
      ((reducePlan log 0 n r count (typeSize dt)).map Slot.entry) Q m := by
  unfold doAllReduce
  simp only [henv, List.append_assoc, List.cons_append, List.nil_append]
  refine wp_skip rfl ?_
  rw [← List.nil_append (reducePlan log 0 n r count (typeSize dt))]
  refine wp_calls_append ?_
  -- the inputs are in the receive buffer
  suffices h : ∀ m', Elems dt count recv (fun k => word (typeSize dt) m sendbuff k) m' →
      wp (Carries (reduceMsgs K dt op log n count x)) r _
        ((reducePlan log 0 n r count (typeSize dt)).map Slot.entry) Q m' by
    split
    · refine wp_local (l := []) rfl (h _ fun k hk => ?_)
      rw [memcpy_eq_putWords, putWords_hit hk]
    · rename_i hin
      have hin : sendbuff = recv := Classical.not_not.mp hin
      exact h m fun k hk => by rw [hin]
  intro m' hm'
  rw [← List.nil_append (reducePlan log 0 n r count (typeSize dt))]
  refine wp_calls_append ?_
  have halgo := fun m h0 => wp_reduceAlgo (K := K) (m := m) (by omega) hr hobj h0 hQ
  simp only [List.append_assoc] at halgo
  cases premul with
  | some k =>
    refine wp_local (l := []) rfl (halgo _ fun i hi => ?_)
    rw [hx]
    exact hm'.cpuScale (c := .scalar k) i hi
  | none =>
    refine halgo _ fun i hi => ?_
    rw [hx]
    exact hm' i hi

end Collective

/-- **What all-reduce computes.** When all ranks take the same path, every run ends, and the
receive buffers hold `allReduced` of the (scaled) inputs. -/
theorem ends_doAllReduce (K : Kernels) {n : Nat} (hn : 0 < n) {env : Nat → AlgoEnv} {log : Bool}
    (sendbuff : Nat → Ptr) {recvbuff : Nat → Ptr} {count : Nat} {dt : DataType} (op : RedOp)
    (premul : Nat → Option Factor) (m : Nat → Mem)
    (henv : ∀ r, r < n → (env r).logPath 262144 (count * typeSize dt) = log)
    (hobj : ∀ r, r < n → (recvbuff r).obj ≠ .scratch) :
    Net.Ends Net.Step
      (system K n (fun r =>
        doAllReduce (env r) n r (sendbuff r) (recvbuff r) count dt op (premul r)) m)
      fun c => (∀ r, c.code r = []) ∧ ∀ r, r < n →
        Elems dt count (recvbuff r) (allReduced K dt op log n count
          (fun p k => preScaled K (premul p) (word (typeSize dt) (m p) (sendbuff p) k)) r)
          (c.mem r) :=
  ends_of_schedule (schedule_reduce log hn) fun r hr =>
    wp_doAllReduce (henv r hr) hr (hobj r hr) (fun _ => rfl) fun _ h => h

end Vccl
