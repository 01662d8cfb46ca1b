import Vccl.Collectives
import Vccl.Net.Combine
import Mathlib.Data.Nat.ModEq

/-!
# Index arithmetic of the collectives

* The ring: chunk indices `(A - s) % n`, `next` and `prev`.
* The doubling loops: `i < steps n ↔ 2^i < n`.
* `bruckSteps` in closed form.
* `makeChunks`: element `k` lies in chunk `k / per`.
-/

namespace Vccl

open Net

/-! ## The ring -/

theorem add_mod_ne {x d n : Nat} (h0 : 0 < d) (hd : d < n) : (x + d) % n ≠ x % n := by
  intro h
  have h1 : x + d ≡ x + 0 [MOD n] := by simpa [Nat.ModEq] using h
  have h2 : d % n = 0 % n := Nat.ModEq.add_left_cancel' x h1
  rw [Nat.mod_eq_of_lt hd, Nat.zero_mod] at h2
  omega

/-- Chunk indices of different steps differ. -/
theorem sub_mod_ne {A i j n : Nat} (hij : i < j) (hA : j ≤ A) (hn : j - i < n) :
    (A - i) % n ≠ (A - j) % n := by
  have := add_mod_ne (x := A - j) (d := j - i) (n := n) (by omega) hn
  rwa [show A - j + (j - i) = A - i by omega] at this

/-- Every index is the chunk index of some step. -/
theorem exists_sub_mod {A c n : Nat} (hc : c < n) (hA : n ≤ A) : ∃ i, i < n ∧ (A - i) % n = c := by
  have hn : 0 < n := by omega
  refine ⟨(A + n - c) % n, Nat.mod_lt _ hn, ?_⟩
  have hi : (A + n - c) % n ≤ A := (Nat.le_of_lt (Nat.mod_lt _ hn)).trans hA
  have h1 : (A - (A + n - c) % n) + (A + n - c) ≡ c + (A + n - c) [MOD n] := by
    have h2 : (A - (A + n - c) % n) + (A + n - c) ≡ (A - (A + n - c) % n) + (A + n - c) % n [MOD n] :=
      Nat.ModEq.add_left _ (Nat.mod_modEq _ _).symm
    rw [show (A - (A + n - c) % n) + (A + n - c) % n = A by omega] at h2
    rw [show c + (A + n - c) = A + n by omega]
    exact h2.trans (by simp [Nat.ModEq])
  have h3 := Nat.ModEq.add_right_cancel' _ h1
  rwa [Nat.ModEq, Nat.mod_eq_of_lt hc] at h3

theorem next_lt {n : Nat} (r : Nat) (hn : 0 < n) : next n r < n := Nat.mod_lt _ hn

theorem prev_lt {n : Nat} (r : Nat) (hn : 0 < n) : prev n r < n := Nat.mod_lt _ hn

theorem next_prev {n r : Nat} (hr : r < n) : next n (prev n r) = r := by
  unfold next prev
  rw [Nat.mod_add_mod, show r + n - 1 + 1 = r + n by omega, Nat.add_mod_right, Nat.mod_eq_of_lt hr]

theorem prev_next {n r : Nat} (hr : r < n) : prev n (next n r) = r := by
  have hn : 0 < n := by omega
  unfold next prev
  rw [show (r + 1) % n + n - 1 = (r + 1) % n + (n - 1) by omega, Nat.mod_add_mod,
    show r + 1 + (n - 1) = r + n by omega, Nat.add_mod_right, Nat.mod_eq_of_lt hr]

theorem next_eq_iff {n p q : Nat} (hp : p < n) (hq : q < n) : next n p = q ↔ prev n q = p :=
  ⟨fun h => by rw [← h, prev_next hp], fun h => by rw [← h, next_prev hq]⟩

/-- The predecessor's chunk index at a step is this rank's at the next. -/
theorem prev_sub_mod {n r a s : Nat} (hn : 0 < n) (hs : s < a) :
    (prev n r + a - s) % n = (r + a - s - 1) % n := by
  unfold prev
  rw [show (r + n - 1) % n + a - s = (r + n - 1) % n + (a - s) by omega, Nat.mod_add_mod,
    show r + n - 1 + (a - s) = r + a - s - 1 + n by omega, Nat.add_mod_right]

/-! ## Doubling loops -/

theorem lt_doublings_iff {n : Nat} : ∀ (fuel mask i : Nat),
    i < doublings n fuel mask ↔ i < fuel ∧ mask * 2 ^ i < n ∧ ∀ j < i, mask * 2 ^ j < n
  | 0, mask, i => by simp [doublings]
  | fuel + 1, mask, 0 => by
    simp only [doublings]
    split <;> simp_all
  | fuel + 1, mask, i + 1 => by
    have e : ∀ j, (mask <<< 1) * 2 ^ j = mask * 2 ^ (j + 1) := fun j => by
      rw [Nat.shiftLeft_eq, Nat.pow_succ 2 j, Nat.pow_one, Nat.mul_assoc, Nat.mul_comm 2]
    simp only [doublings]
    by_cases hm : mask < n
    · rw [if_pos hm, Nat.add_lt_add_iff_right, lt_doublings_iff fuel (mask <<< 1) i]
      simp only [e, Nat.add_lt_add_iff_right]
      refine and_congr_right fun _ => and_congr_right fun _ => ⟨fun h j hj => ?_, fun h j hj => ?_⟩
      · cases j with
        | zero => simpa using hm
        | succ j => exact h j (by omega)
      · exact h (j + 1) (by omega)
    · rw [if_neg hm]
      refine ⟨fun h => absurd h (Nat.not_lt_zero _), fun h => ?_⟩
      have := h.2.2 0 (Nat.succ_pos i)
      simp only [Nat.pow_zero, Nat.mul_one] at this
      exact absurd this hm

/-- The doubling loops run step `i` exactly when `2^i < n`. -/
theorem lt_steps_iff {n i : Nat} : i < steps n ↔ 2 ^ i < n := by
  unfold steps
  rw [lt_doublings_iff]
  simp only [Nat.one_mul]
  constructor
  · exact fun h => h.2.1
  · intro h
    exact ⟨Nat.lt_two_pow_self.trans h, h, fun j hj =>
      (Nat.pow_lt_pow_right (by omega) hj).trans h⟩

/-- On a power of two the loop counts its exponent. -/
theorem steps_two_pow (k : Nat) : steps (2 ^ k) = k := by
  apply Nat.le_antisymm
  · by_contra h
    have := lt_steps_iff.mp (Nat.lt_of_not_le h)
    omega
  · by_contra h
    have : ¬ steps (2 ^ k) < steps (2 ^ k) := Nat.lt_irrefl _
    exact this (lt_steps_iff.mpr (Nat.pow_lt_pow_right (by omega) (by omega)))

/-- The test `n > 1 && (n & (n-1)) == 0` holds of the powers of two above one only. -/
theorem pow2_iff {n : Nat} : pow2 n = true ↔ ∃ k, 0 < k ∧ n = 2 ^ k := by
  unfold pow2
  rw [decide_eq_true_iff]
  constructor
  · rintro ⟨h1, h2⟩
    obtain ⟨k, rfl⟩ := (Nat.and_sub_one_eq_zero_iff_isPowerOfTwo (by omega)).mp h2
    refine ⟨k, ?_, rfl⟩
    rcases Nat.eq_zero_or_pos k with rfl | h
    · simp at h1
    · exact h
  · rintro ⟨k, hk, rfl⟩
    refine ⟨Nat.one_lt_two_pow (by omega), ?_⟩
    exact (Nat.and_sub_one_eq_zero_iff_isPowerOfTwo (Nat.pos_iff_ne_zero.mp (Nat.two_pow_pos k))).mpr ⟨k, rfl⟩

/-! ## Bruck's loop -/

/-- Chunks moved by step `i` of Bruck's loop: a full doubling, or what is missing to `n`. -/
def bruckWidth (n i : Nat) : Nat := min (2 ^ i) (n - 2 ^ i)

theorem bruckSteps_from (n cb : Nat) : ∀ fuel i curr, (2 ^ i < n → curr = 2 ^ i * cb) →
    bruckSteps n cb fuel (2 ^ i) curr =
      (List.range' i (doublings n fuel (2 ^ i))).map fun j =>
        (2 ^ j, 2 ^ j * cb, bruckWidth n j * cb)
  | 0, _, _, _ => rfl
  | fuel + 1, i, curr, hc => by
    simp only [bruckSteps, doublings]
    by_cases hi : 2 ^ i < n
    · rw [if_pos hi, if_pos hi, List.range'_succ, List.map_cons]
      have hsh : (2 ^ i) <<< 1 = 2 ^ (i + 1) := by rw [Nat.shiftLeft_eq, Nat.pow_one, Nat.pow_succ]
      have hx : (if 2 ^ i ≤ n - 2 ^ i then curr else (n - 2 ^ i) * cb) = bruckWidth n i * cb := by
        unfold bruckWidth
        split
        · rename_i h; rw [hc hi, Nat.min_eq_left h]
        · rename_i h; rw [Nat.min_eq_right (by omega)]
      rw [hx, hc hi, hsh, bruckSteps_from n cb fuel (i + 1)]
      intro h
      have hw : bruckWidth n i = 2 ^ i := by
        unfold bruckWidth
        rw [Nat.pow_succ] at h
        omega
      rw [hw, ← Nat.add_mul, Nat.pow_succ, Nat.mul_two]
    · rw [if_neg hi, if_neg hi]
      rfl

/-- **Bruck's loop in closed form.** -/
theorem bruckSteps_eq (n cb : Nat) :
    bruckSteps n cb n 1 cb =
      (List.range (steps n)).map fun i => (2 ^ i, 2 ^ i * cb, bruckWidth n i * cb) := by
  have := bruckSteps_from n cb n 0 cb (fun _ => by simp)
  rw [Nat.pow_zero] at this
  rw [this, List.range_eq_range', steps]

/-- After step `i` the prefix has `min (2^(i+1)) n` chunks. -/
theorem bruck_prefix {n i : Nat} (hi : 2 ^ i < n) : 2 ^ i + bruckWidth n i = min (2 ^ (i + 1)) n := by
  unfold bruckWidth
  rw [Nat.pow_succ]
  omega

/-! ## The chunk table -/

/-- Elements per chunk. -/
def chunkLen (count n : Nat) : Nat := (count + n - 1) / n

theorem chunkLen_pos {count n : Nat} (hn : 0 < n) (hc : 0 < count) : 0 < chunkLen count n :=
  Nat.div_pos (by omega) hn

theorem count_le_chunkLen_mul {count n : Nat} (hn : 0 < n) : count ≤ chunkLen count n * n := by
  unfold chunkLen
  have := Nat.div_add_mod (count + n - 1) n
  have hm := Nat.mod_lt (count + n - 1) hn
  rw [Nat.mul_comm]
  omega

/-- Element `i` lies in chunk `i / per`, and in no other. -/
theorem mem_chunk_iff {count n c i : Nat} (hn : 0 < n) (hi : i < count) :
    (min (chunkLen count n * c) count ≤ i ∧ i < min (chunkLen count n * (c + 1)) count) ↔
      i / chunkLen count n = c := by
  have hp := chunkLen_pos hn (show 0 < count by omega)
  rw [Nat.div_eq_iff hp, Nat.mul_comm c, Nat.mul_succ]
  omega

theorem chunk_lt {count n i : Nat} (hn : 0 < n) (hi : i < count) : i / chunkLen count n < n := by
  rw [Nat.div_lt_iff_lt_mul (chunkLen_pos hn (show 0 < count by omega)), Nat.mul_comm]
  exact Nat.lt_of_lt_of_le hi (count_le_chunkLen_mul hn)

/-! ## Power-of-two elimination -/

theorem largestPow2_spec {n : Nat} : ∀ fuel i, 2 ^ i ≤ n → n < 2 ^ (i + 1 + fuel) →
    ∃ k, largestPow2 n fuel (2 ^ i) = 2 ^ k ∧ 2 ^ k ≤ n ∧ n < 2 ^ (k + 1)
  | 0, i, h1, h2 => ⟨i, rfl, h1, h2⟩
  | fuel + 1, i, h1, h2 => by
    simp only [largestPow2]
    have hsh : (2 ^ i) <<< 1 = 2 ^ (i + 1) := by rw [Nat.shiftLeft_eq, Nat.pow_one, Nat.pow_succ]
    split
    · rename_i h
      rw [hsh]
      exact largestPow2_spec fuel (i + 1) (by rwa [Nat.pow_succ]) (by
        rwa [show i + 1 + 1 + fuel = i + 1 + (fuel + 1) by omega])
    · rename_i h
      exact ⟨i, rfl, h1, by rw [Nat.pow_succ]; omega⟩

/-- `p2` is the largest power of two up to `n`. -/
theorem elimP2_spec {n : Nat} (hn : 0 < n) :
    ∃ k, elimP2 n = 2 ^ k ∧ 2 ^ k ≤ n ∧ n < 2 ^ (k + 1) := by
  have h : n < 2 ^ (0 + 1 + n) := by
    have : n < 2 ^ n := Nat.lt_two_pow_self
    rw [Nat.pow_add]
    omega
  exact largestPow2_spec n 0 hn h

/-- At most half of the ranks are eliminated. -/
theorem two_extra_le {n : Nat} (hn : 0 < n) : 2 * (n - elimP2 n) ≤ n := by
  obtain ⟨k, hk, h1, h2⟩ := elimP2_spec hn
  rw [hk]
  rw [Nat.pow_succ] at h2
  omega

theorem newRank_oldRank {extra j : Nat} : newRank extra (oldRank extra j) = some j := by
  unfold newRank oldRank
  rw [Nat.and_one_is_mod]
  by_cases h : j < extra
  · rw [if_pos h, if_pos (by omega), if_neg (by omega), Nat.mul_div_cancel j (by omega)]
  · rw [if_neg h, if_neg (by omega), Nat.add_sub_cancel]

theorem oldRank_newRank {extra r j : Nat} (h : newRank extra r = some j) : oldRank extra j = r := by
  unfold newRank at h
  unfold oldRank
  rw [Nat.and_one_is_mod] at h
  split at h
  · rename_i hr
    split at h
    · exact absurd h (by simp)
    · obtain rfl := Option.some.inj h
      rw [if_pos (by omega)]
      omega
  · obtain rfl := Option.some.inj h
    rw [if_neg (by omega)]
    omega

theorem oldRank_lt {extra p2 j : Nat} (hj : j < p2) (_ : extra ≤ p2) :
    oldRank extra j < p2 + extra := by
  unfold oldRank
  split <;> omega

theorem newRank_lt {extra p2 r j : Nat} (hr : r < p2 + extra) (_ : extra ≤ p2)
    (h : newRank extra r = some j) : j < p2 := by
  have := oldRank_newRank h
  unfold oldRank at this
  split at this <;> omega

end Vccl
