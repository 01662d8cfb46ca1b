import Mathlib.Logic.Function.Basic
import Vccl.Reduce
import Vccl.Simd

/-!
# The vectorised bfloat16 sum (`bf16Sum` and `reduce16` of `reduce.cc`)

`bf16Sum` takes eight elements at a time: it widens them, adds, and rounds every 32-bit lane by
adding `0x7fff` and the last bit kept, before the high halves are packed. A tail of less than eight
elements goes through the scalar codec. `bf16Sum_apply` says what a whole call does to each element,
`reduce16_apply` the same of the scalar loop; they differ in `roundLane` against `floatToBf16`, which
agree off NaNs (`floatToBf16_eq`).

An array is a function of the index. Binary32 addition is `add32` of a `FloatArith`, whichever it is.
-/

namespace Vccl

open Simd

/-! ## The scalar loop -/

/-- `for (; i < n; i++) d[i] = f(d[i], s[i])`. -/
def scalarFrom (f : BitVec 16 → BitVec 16 → BitVec 16) (s : Nat → BitVec 16) (n i : Nat)
    (d : Nat → BitVec 16) : Nat → BitVec 16 :=
  if i < n then scalarFrom f s n (i + 1) (Function.update d i (f (d i) (s i))) else d
termination_by n - i

/-- `reduce16`. -/
def reduce16 (F : FloatArith) (toFloat : BitVec 16 → BitVec 32) (fromFloat : BitVec 32 → BitVec 16)
    (op : RedOp) (d s : Nat → BitVec 16) (count : Nat) : Nat → BitVec 16 :=
  scalarFrom (apply16 F toFloat fromFloat op) s count 0 d

/-- Each element is taken once; below `i` and from `n` on nothing changes. -/
theorem scalarFrom_apply (f : BitVec 16 → BitVec 16 → BitVec 16) (s : Nat → BitVec 16) (n i : Nat)
    (d : Nat → BitVec 16) (k : Nat) :
    scalarFrom f s n i d k = if i ≤ k ∧ k < n then f (d k) (s k) else d k := by
  fun_induction scalarFrom f s n i d with
  | case1 i d hi ih =>
    rw [ih]
    by_cases hk : k = i
    · subst hk
      rw [if_neg (by omega), Function.update_self, if_pos ⟨Nat.le_refl k, hi⟩]
    · rw [Function.update_of_ne hk]
      by_cases hin : i ≤ k ∧ k < n
      · rw [if_pos hin, if_pos (by omega)]
      · rw [if_neg hin, if_neg (by omega)]
  | case2 i d hi => rw [if_neg (by omega)]

theorem reduce16_apply {F : FloatArith} {toFloat : BitVec 16 → BitVec 32}
    {fromFloat : BitVec 32 → BitVec 16} {op : RedOp} {d s : Nat → BitVec 16} {count k : Nat} :
    reduce16 F toFloat fromFloat op d s count k =
      if k < count then apply16 F toFloat fromFloat op (d k) (s k) else d k := by
  rw [reduce16, scalarFrom_apply]
  simp only [Nat.zero_le, true_and]

/-! ## The vector loop -/

/-- `_mm_loadu_si128`. -/
def loadu (a : Nat → BitVec 16) (i : Nat) : M128 := ofLanes 16 8 fun j => a (i + j)

/-- `_mm_storeu_si128`. -/
def storeu (a : Nat → BitVec 16) (i : Nat) (x : M128) : Nat → BitVec 16 :=
  fun k => if i ≤ k ∧ k < i + 8 then lane 16 x (k - i) else a k

/-- The body of the vector loop: the eight elements from `i` on, added and rounded. -/
def bf16Block (F : FloatArith) (d s : Nat → BitVec 16) (i : Nat) : M128 :=
  let one := set1_epi32 1#32
  let bias := set1_epi32 0x7fff#32
  let db := slli_epi32 (cvtepu16_epi32 (loadu d i)) 16
  let sb := slli_epi32 (cvtepu16_epi32 (loadu s i)) 16
  let bits := add_ps F.add32 db sb
  let lsb := and_si256 (srli_epi32 bits 16) one
  let rounded := add_epi32 bits (add_epi32 bias lsb)
  let hi := srli_epi32 rounded 16
  let packed := packus_epi32 hi hi
  castsi256_si128 (permute4x64_epi64 packed (shuffle 3 1 2 0))

/-- `for (; i + 8 <= n; i += 8)`: the array, and where the loop leaves `i`. -/
def bf16Blocks (F : FloatArith) (s : Nat → BitVec 16) (n i : Nat) (d : Nat → BitVec 16) :
    (Nat → BitVec 16) × Nat :=
  if i + 8 ≤ n then bf16Blocks F s n (i + 8) (storeu d i (bf16Block F d s i)) else (d, i)
termination_by n - i

/-- `bf16Sum`. -/
def bf16Sum (F : FloatArith) (d s : Nat → BitVec 16) (n : Nat) : Nat → BitVec 16 :=
  let (d, i) := bf16Blocks F s n 0 d
  scalarFrom (fun a b => floatToBf16 (F.add32 (bf16ToFloat a) (bf16ToFloat b))) s n i d

/-- What a lane of the vector loop does to a sum. -/
def roundLane (x : BitVec 32) : BitVec 16 :=
  ((x + (0x7fff#32 + ((x >>> 16) &&& 1))) >>> 16).setWidth 16

/-- Without the test for a NaN the scalar rounding is that of a lane. -/
theorem floatToBf16_eq {x : BitVec 32} (hx : isNaN x = false) : floatToBf16 x = roundLane x := by
  have htest : ¬ (x &&& 0x7fffffff#32 > 0x7f800000#32) := by
    have hle : ¬ infMag 32 < mag x := of_decide_eq_false hx
    rw [gt_iff_lt, BitVec.lt_def, BitVec.toNat_and, BitVec.toNat_ofNat, BitVec.toNat_ofNat,
      show 0x7fffffff % 2 ^ 32 = 2 ^ 31 - 1 from rfl, Nat.and_two_pow_sub_one_eq_mod]
    exact hle
  simp only [floatToBf16]
  rw [if_neg htest, roundLane]

section Block

variable {F : FloatArith} {d s : Nat → BitVec 16} {i : Nat}

theorem lane_widen {a : Nat → BitVec 16} {j : Nat} (hj : j < 8) :
    lane 32 (slli_epi32 (cvtepu16_epi32 (loadu a i)) 16) j = bf16ToFloat (a (i + j)) := by
  rw [lane_slli_epi32 hj, lane_cvtepu16_epi32 hj, loadu, lane_ofLanes _ hj, bf16ToFloat]

/-- The high half of a lane fits 16 bits, so that `packus` saturates nothing. -/
theorem satU16_high (x : BitVec 32) : satU16 (x >>> 16) = (x >>> 16).setWidth 16 := by
  have := x.isLt
  apply satU16_of_le
  rw [BitVec.toNat_ushiftRight, Nat.shiftRight_eq_div_pow]
  omega

/-- **A block keeps the elements in order** and rounds each sum. -/
theorem lane_bf16Block {j : Nat} (hj : j < 8) :
    lane 16 (bf16Block F d s i) j =
      roundLane (F.add32 (bf16ToFloat (d (i + j))) (bf16ToFloat (s (i + j)))) := by
  simp only [bf16Block]
  rw [lane_packed hj, lane_srli_epi32 hj, satU16_high, lane_add_epi32 hj, lane_add_epi32 hj,
    lane_and_si256, lane_srli_epi32 hj, lane_set1_epi32 hj, lane_set1_epi32 hj, lane_add_ps hj,
    lane_widen hj, lane_widen hj, roundLane]
  rfl

theorem storeu_bf16Block {k : Nat} :
    storeu d i (bf16Block F d s i) k =
      if i ≤ k ∧ k < i + 8 then roundLane (F.add32 (bf16ToFloat (d k)) (bf16ToFloat (s k)))
      else d k := by
  unfold storeu
  split
  · rw [lane_bf16Block (by omega), Nat.add_sub_cancel' (by omega)]
  · rfl

end Block

/-- The vector loop stops less than eight elements before the end, and has taken every element before
that once. -/
theorem bf16Blocks_spec (F : FloatArith) (s : Nat → BitVec 16) (n i : Nat) (d : Nat → BitVec 16)
    (hi : i ≤ n) :
    (bf16Blocks F s n i d).2 ≤ n ∧ i ≤ (bf16Blocks F s n i d).2 ∧
    ∀ k, (bf16Blocks F s n i d).1 k =
      if i ≤ k ∧ k < (bf16Blocks F s n i d).2 then
        roundLane (F.add32 (bf16ToFloat (d k)) (bf16ToFloat (s k)))
      else d k := by
  fun_induction bf16Blocks F s n i d with
  | case1 i d hblock ih =>
    obtain ⟨hend, hstart, hval⟩ := ih hblock
    refine ⟨hend, by omega, fun k => ?_⟩
    rw [hval, storeu_bf16Block]
    generalize (bf16Blocks F s n (i + 8) (storeu d i (bf16Block F d s i))).2 = e at hstart ⊢
    by_cases hk : i ≤ k ∧ k < i + 8
    · rw [if_neg (by omega), if_pos hk, if_pos (by omega)]
    · rw [if_neg hk]
      by_cases hin : i ≤ k ∧ k < e
      · rw [if_pos hin, if_pos (by omega)]
      · rw [if_neg hin, if_neg (by omega)]
  | case2 i d hblock =>
    exact ⟨hi, Nat.le_refl i, fun k => by rw [if_neg (by omega)]⟩

/-- **A whole call.** From some multiple of eight on the scalar rounding is used, before it that of a
lane. -/
theorem bf16Sum_apply (F : FloatArith) (d s : Nat → BitVec 16) (n : Nat) :
    ∃ e ≤ n, ∀ k, bf16Sum F d s n k =
      if k < e then roundLane (F.add32 (bf16ToFloat (d k)) (bf16ToFloat (s k)))
      else if k < n then floatToBf16 (F.add32 (bf16ToFloat (d k)) (bf16ToFloat (s k)))
      else d k := by
  obtain ⟨hend, -, hval⟩ := bf16Blocks_spec F s n 0 d (Nat.zero_le n)
  refine ⟨_, hend, fun k => ?_⟩
  simp only [bf16Sum]
  rw [scalarFrom_apply, hval]
  generalize (bf16Blocks F s n 0 d).2 = e at hend ⊢
  by_cases hk : k < e
  · rw [if_neg (by omega), if_pos (by omega), if_pos hk]
  · rw [if_neg (by omega : ¬ (0 ≤ k ∧ k < e)), if_neg hk]
    by_cases hn : k < n
    · rw [if_pos (by omega), if_pos hn]
    · rw [if_neg (by omega), if_neg hn]

/-- **The vectorised sum is the scalar one** wherever the sum is a number, and leaves what lies beyond
the arrays alone. -/
theorem bf16Sum_eq_reduce16 (F : FloatArith) (d s : Nat → BitVec 16) (n k : Nat)
    (hk : k < n → isNaN (F.add32 (bf16ToFloat (d k)) (bf16ToFloat (s k))) = false) :
    bf16Sum F d s n k = reduce16 F bf16ToFloat floatToBf16 .sum d s n k := by
  obtain ⟨e, he, hval⟩ := bf16Sum_apply F d s n
  rw [hval, reduce16_apply]
  have hscalar : apply16 F bf16ToFloat floatToBf16 .sum (d k) (s k) =
      floatToBf16 (F.add32 (bf16ToFloat (d k)) (bf16ToFloat (s k))) := rfl
  rw [hscalar]
  by_cases hlane : k < e
  · rw [if_pos hlane, if_pos (by omega), floatToBf16_eq (hk (by omega))]
  · rw [if_neg hlane]

/-- Nine ones plus zero: a block, and a tail of one element. -/
theorem bf16Sum_eq_reduce16_ones :
    isNaN (bf16ToFloat 0x3f80#16) = false ∧ ∀ k, k < 9 →
      bf16Sum FloatArith.idle (fun _ => 0x3f80#16) (fun _ => 0#16) 9 k =
        reduce16 FloatArith.idle bf16ToFloat floatToBf16 .sum (fun _ => 0x3f80#16) (fun _ => 0#16) 9
          k := by
  have hnum : isNaN (bf16ToFloat 0x3f80#16) = false := by decide
  exact ⟨hnum, fun k _ => bf16Sum_eq_reduce16 _ _ _ 9 k fun _ => hnum⟩

end Vccl
