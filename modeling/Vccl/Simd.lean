/-!
# Vector registers as bit vectors with lanes

A library; it names no program. A register is one bit vector. `lane w x i` is its `i`-th lane of
width `w` from the low end, `ofLanes w k f` the register of the `k` lanes `f 0`, …, `f (k - 1)`. The
same register can be read at several widths (`lane_lane`).

The AVX2 operations below are defined on lanes, as their manual has them: those on 32-bit lanes act
on each lane by itself, `packus_epi32` saturates signed 32-bit lanes to unsigned 16-bit ones within
each half of the register, `permute4x64_epi64` moves whole 64-bit lanes.
-/

namespace Vccl.Simd

/-! ## Lanes -/

/-- The `i`-th lane of width `w`. -/
def lane (w : Nat) {n : Nat} (x : BitVec n) (i : Nat) : BitVec w := x.extractLsb' (w * i) w

/-- The register with these lanes. -/
def ofLanes (w : Nat) : (k : Nat) → (Nat → BitVec w) → BitVec (w * k)
  | 0, _ => 0
  | k + 1, f => (f k ++ ofLanes w k f).cast (by rw [Nat.mul_succ, Nat.add_comm])

section Lanes

variable {w n k i : Nat}

theorem getLsbD_lane (x : BitVec n) (i : Nat) {b : Nat} (hb : b < w) :
    (lane w x i).getLsbD b = x.getLsbD (w * i + b) := by
  rw [lane, BitVec.getLsbD_extractLsb', decide_eq_true hb, Bool.true_and]

/-- By induction on the number of lanes; the last one is the high part. -/
theorem lane_ofLanes (f : Nat → BitVec w) : ∀ {k i : Nat}, i < k → lane w (ofLanes w k f) i = f i
  | k + 1, i, hi => by
    apply BitVec.eq_of_getLsbD_eq
    intro b hb
    rw [getLsbD_lane _ _ hb, ofLanes, BitVec.getLsbD_cast, BitVec.getLsbD_append]
    by_cases hk : i = k
    · subst hk
      rw [if_neg (by omega), Nat.add_sub_cancel_left]
    · have hlt : w * i + b < w * k :=
        calc w * i + b < w * i + w := Nat.add_lt_add_left hb _
          _ = w * (i + 1) := (Nat.mul_succ w i).symm
          _ ≤ w * k := Nat.mul_le_mul_left w (by omega)
      rw [if_pos hlt, ← getLsbD_lane _ _ hb, lane_ofLanes f (by omega)]

/-- A narrow lane lies within a wide one. -/
theorem lane_lane (x : BitVec n) {r : Nat} (hr : r < k) (i : Nat) :
    lane w (lane (w * k) x i) r = lane w x (k * i + r) := by
  apply BitVec.eq_of_getLsbD_eq
  intro b hb
  have hlt : w * r + b < w * k :=
    calc w * r + b < w * r + w := Nat.add_lt_add_left hb _
      _ = w * (r + 1) := (Nat.mul_succ w r).symm
      _ ≤ w * k := Nat.mul_le_mul_left w hr
  rw [getLsbD_lane _ _ hb, getLsbD_lane _ _ hlt, getLsbD_lane _ _ hb, Nat.mul_add, Nat.mul_assoc,
    Nat.add_assoc]

/-- The low part of a register has its low lanes. -/
theorem lane_setWidth (x : BitVec n) {m : Nat} (h : w * (i + 1) ≤ m) :
    lane w (x.setWidth m) i = lane w x i := by
  apply BitVec.eq_of_getLsbD_eq
  intro b hb
  have hlt : w * i + b < m :=
    calc w * i + b < w * i + w := Nat.add_lt_add_left hb _
      _ = w * (i + 1) := (Nat.mul_succ w i).symm
      _ ≤ m := h
  rw [getLsbD_lane _ _ hb, getLsbD_lane _ _ hb, BitVec.getLsbD_setWidth, decide_eq_true hlt,
    Bool.true_and]

theorem lane_and (x y : BitVec n) (i : Nat) : lane w (x &&& y) i = lane w x i &&& lane w y i := by
  apply BitVec.eq_of_getLsbD_eq
  intro b hb
  rw [BitVec.getLsbD_and, getLsbD_lane _ _ hb, getLsbD_lane _ _ hb, getLsbD_lane _ _ hb,
    BitVec.getLsbD_and]

end Lanes

/-! ## AVX2 -/

abbrev M128 := BitVec (16 * 8)
abbrev M256 := BitVec (32 * 8)

def set1_epi32 (a : BitVec 32) : M256 := ofLanes 32 8 fun _ => a

def cvtepu16_epi32 (x : M128) : M256 := ofLanes 32 8 fun i => (lane 16 x i).setWidth 32

def slli_epi32 (x : M256) (c : Nat) : M256 := ofLanes 32 8 fun i => lane 32 x i <<< c

def srli_epi32 (x : M256) (c : Nat) : M256 := ofLanes 32 8 fun i => lane 32 x i >>> c

def add_epi32 (x y : M256) : M256 := ofLanes 32 8 fun i => lane 32 x i + lane 32 y i

def and_si256 (x y : M256) : M256 := x &&& y

/-- Addition of floats, `add` on each lane. -/
def add_ps (add : BitVec 32 → BitVec 32 → BitVec 32) (x y : M256) : M256 :=
  ofLanes 32 8 fun i => add (lane 32 x i) (lane 32 y i)

/-- A signed 32-bit integer saturated to an unsigned one of 16 bits. -/
def satU16 (v : BitVec 32) : BitVec 16 :=
  if v.toInt < 0 then 0 else if 0xffff < v.toInt then 0xffff else v.setWidth 16

/-- In each half of the result, the four lanes of that half of `x` and then those of `y`. -/
def packus_epi32 (x y : M256) : M256 :=
  ofLanes 16 16 fun i =>
    if i % 8 < 4 then satU16 (lane 32 x (4 * (i / 8) + i % 8))
    else satU16 (lane 32 y (4 * (i / 8) + (i % 8 - 4)))

/-- `_MM_SHUFFLE`. -/
def shuffle (z y x w : Nat) : Nat := z <<< 6 ||| y <<< 4 ||| x <<< 2 ||| w

/-- Each 64-bit lane of the result is the one that two bits of `c` select. -/
def permute4x64_epi64 (x : M256) (c : Nat) : M256 :=
  ofLanes 64 4 fun i => lane 64 x (c >>> (2 * i) % 4)

def castsi256_si128 (x : M256) : M128 := x.setWidth 128

section Lemmas

variable {x y : M256} {i : Nat}

theorem lane_set1_epi32 {a : BitVec 32} (hi : i < 8) : lane 32 (set1_epi32 a) i = a :=
  lane_ofLanes _ hi

theorem lane_cvtepu16_epi32 {v : M128} (hi : i < 8) :
    lane 32 (cvtepu16_epi32 v) i = (lane 16 v i).setWidth 32 :=
  lane_ofLanes _ hi

theorem lane_slli_epi32 {c : Nat} (hi : i < 8) :
    lane 32 (slli_epi32 x c) i = lane 32 x i <<< c :=
  lane_ofLanes _ hi

theorem lane_srli_epi32 {c : Nat} (hi : i < 8) :
    lane 32 (srli_epi32 x c) i = lane 32 x i >>> c :=
  lane_ofLanes _ hi

theorem lane_add_epi32 (hi : i < 8) :
    lane 32 (add_epi32 x y) i = lane 32 x i + lane 32 y i :=
  lane_ofLanes _ hi

theorem lane_and_si256 : lane 32 (and_si256 x y) i = lane 32 x i &&& lane 32 y i :=
  lane_and x y i

theorem lane_add_ps {add : BitVec 32 → BitVec 32 → BitVec 32} (hi : i < 8) :
    lane 32 (add_ps add x y) i = add (lane 32 x i) (lane 32 y i) :=
  lane_ofLanes _ hi

/-- What fits is not saturated. -/
theorem satU16_of_le {v : BitVec 32} (hv : v.toNat ≤ 0xffff) : satU16 v = v.setWidth 16 := by
  have hint : v.toInt = v.toNat := BitVec.toInt_eq_toNat_of_lt (by omega)
  rw [satU16, hint, if_neg (by omega), if_neg (by omega)]

theorem lane_packus_epi32 (hi : i < 16) :
    lane 16 (packus_epi32 x y) i =
      if i % 8 < 4 then satU16 (lane 32 x (4 * (i / 8) + i % 8))
      else satU16 (lane 32 y (4 * (i / 8) + (i % 8 - 4))) :=
  lane_ofLanes _ hi

theorem lane_permute4x64_epi64 {c : Nat} (hi : i < 4) :
    lane 64 (permute4x64_epi64 x c) i = lane 64 x (c >>> (2 * i) % 4) :=
  lane_ofLanes _ hi

/-- The permutation at 16 bits: four lanes at a time. -/
theorem lane16_permute4x64_epi64 {c : Nat} (hi : i < 16) :
    lane 16 (permute4x64_epi64 x c) i = lane 16 x (4 * (c >>> (2 * (i / 4)) % 4) + i % 4) := by
  have hmod : i % 4 < 4 := Nat.mod_lt _ (by omega)
  have hsplit : lane 16 (permute4x64_epi64 x c) i =
      lane 16 (lane (16 * 4) (permute4x64_epi64 x c) (i / 4)) (i % 4) := by
    rw [lane_lane _ hmod, Nat.div_add_mod]
  rw [hsplit, lane_permute4x64_epi64 (by omega)]
  exact lane_lane x hmod _

/-- **`packus` of a register with itself and the shuffle (3, 1, 2, 0) narrow in order**: the low
half holds the eight lanes, saturated, one after the other. -/
theorem lane_packed (hi : i < 8) :
    lane 16 (castsi256_si128 (permute4x64_epi64 (packus_epi32 x x) (shuffle 3 1 2 0))) i =
      satU16 (lane 32 x i) := by
  have hsource : ∀ j < 8, shuffle 3 1 2 0 >>> (2 * (j / 4)) % 4 = 2 * (j / 4) := by decide
  rw [castsi256_si128, lane_setWidth _ (by omega), lane16_permute4x64_epi64 (by omega), hsource i hi,
    lane_packus_epi32 (by omega), if_pos (by omega)]
  congr 2
  omega

end Lemmas

end Vccl.Simd
