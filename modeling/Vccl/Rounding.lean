import Vccl.Codec16
import Vccl.Ieee

/-!
# Narrowing to 16 bits is correctly rounded (`floatToHalf`, `floatToBf16`)

Numbers are exact: binary32 is the format with 23 bits of significand and 8 of exponent of
`Vccl.Ieee`, binary16 that with 10 and 5, bfloat16 that with 7 and 8. In units of the smallest
subnormal of binary32 those of the other two are `2 ^ 125` and `2 ^ 16`.

`floatToHalf` has four seams. Below exponent 102 everything rounds to zero. From 102 to 112 the
significand with its leading bit is shifted by `126 - e` places into a subnormal; from 113 to 142
its last 13 bits go, and the carry of the increment may run through the exponent into infinity; from
143 on the result is infinity. `floatToBf16` drops 16 bits of the whole pattern with one addition.
In all of them a right shift rounds to nearest even (`Ieee.nearest_of_shift`).

As a correct rounding is unique, hardware that rounds correctly agrees with the scalar codecs on
everything that is not a NaN.
-/

namespace Vccl

open Ieee (scaled ulp Nearest shiftRound Rounded value unit infinity)

/-! ## Bit operations on small patterns -/

section Bits

theorem one_shiftLeft (s : Nat) : 1#32 <<< s = BitVec.ofNat 32 (2 ^ s) := by
  apply BitVec.eq_of_toNat_eq
  rw [BitVec.toNat_shiftLeft, BitVec.toNat_ofNat, BitVec.toNat_ofNat, Nat.shiftLeft_eq]
  omega

theorem ofNat_ushiftRight {M : Nat} (hM : M < 2 ^ 32) (s : Nat) :
    BitVec.ofNat 32 M >>> s = BitVec.ofNat 32 (M / 2 ^ s) := by
  have hle : M / 2 ^ s ≤ M := Nat.div_le_self _ _
  apply BitVec.eq_of_toNat_eq
  rw [BitVec.toNat_ushiftRight, BitVec.toNat_ofNat, BitVec.toNat_ofNat, Nat.shiftRight_eq_div_pow,
    Nat.mod_eq_of_lt hM, Nat.mod_eq_of_lt (by omega)]

theorem ofNat_and_low {M s : Nat} (hM : M < 2 ^ 32) (hs : s < 32) :
    BitVec.ofNat 32 M &&& BitVec.ofNat 32 (2 ^ s - 1) = BitVec.ofNat 32 (M % 2 ^ s) := by
  have hpow : 2 ^ s < 2 ^ 32 := Nat.pow_lt_pow_right (by omega) hs
  have hle : M % 2 ^ s ≤ M := Nat.mod_le _ _
  apply BitVec.eq_of_toNat_eq
  rw [BitVec.toNat_and, BitVec.toNat_ofNat, BitVec.toNat_ofNat, BitVec.toNat_ofNat,
    Nat.mod_eq_of_lt hM, Nat.mod_eq_of_lt (by omega), Nat.mod_eq_of_lt (by omega),
    Nat.and_two_pow_sub_one_eq_mod]

theorem ofNat_gt {a b : Nat} (ha : a < 2 ^ 32) (hb : b < 2 ^ 32) :
    BitVec.ofNat 32 a > BitVec.ofNat 32 b ↔ b < a := by
  rw [gt_iff_lt, BitVec.lt_def, BitVec.toNat_ofNat, BitVec.toNat_ofNat, Nat.mod_eq_of_lt ha,
    Nat.mod_eq_of_lt hb]

theorem ofNat_eq_iff {a b : Nat} (ha : a < 2 ^ 32) (hb : b < 2 ^ 32) :
    BitVec.ofNat 32 a = BitVec.ofNat 32 b ↔ a = b :=
  ⟨fun h => Classical.byContradiction fun hne => ofNat_ne ha hb hne h, fun h => by rw [h]⟩

theorem and_one_ne_zero {w : Nat} (hw : 0 < w) (x : BitVec w) : x &&& 1 ≠ 0 ↔ x.toNat % 2 = 1 := by
  have hone : (1 : BitVec w).toNat = 1 := by
    rw [BitVec.ofNat_eq_ofNat, BitVec.toNat_ofNat]
    exact Nat.mod_eq_of_lt (Nat.one_lt_two_pow (by omega))
  have hand : (x &&& 1).toNat = x.toNat % 2 := by
    rw [BitVec.toNat_and, hone, Nat.and_one_is_mod]
  constructor
  · intro h
    refine Classical.byContradiction fun hne => h (BitVec.eq_of_toNat_eq ?_)
    rw [hand]
    have : x.toNat % 2 = 0 := by omega
    rw [this]
    rfl
  · intro h heq
    rw [heq] at hand
    have hz : (0 : BitVec w).toNat = 0 := rfl
    omega

/-- A sign above a magnitude. -/
theorem binary16_sign_or {s r : Nat} (hs : s < 2) (hr : r < 2 ^ 15) :
    binary16 s 0 0 ||| BitVec.ofNat 16 r = binary16 s 0 r := by
  apply BitVec.eq_of_toNat_eq
  rw [BitVec.toNat_or, toNat_binary16 hs (by omega) (by omega), BitVec.toNat_ofNat, binary16,
    BitVec.toNat_ofNat, Nat.mul_zero, Nat.zero_add, Nat.zero_add, Nat.add_zero,
    Nat.mod_eq_of_lt (by omega : r < 2 ^ 16), Nat.mod_eq_of_lt (by omega : 2 ^ 15 * s + r < 2 ^ 16),
    ← Nat.two_pow_add_eq_or_of_lt hr]

end Bits

/-! ## `floatToHalf`, case by case -/

section Narrow

variable {s e m : Nat} (hs : s < 2) (hm : m < 2 ^ 23)
include hs hm

theorem floatToHalf_over (h143 : 143 ≤ e) (he : e < 255) :
    floatToHalf (binary32 s e m) = binary16 s 31 0 := by
  simp only [floatToHalf, binary32_sign hs (by omega : e < 256) hm,
    binary32_exp hs (by omega : e < 256) hm]
  rw [if_neg (by omega), if_pos (by omega), show (0x7c00#16) = binary16 0 31 0 from rfl,
    ← binary16_or hs (by omega : 31 < 32) (by omega : 0 < 1024),
    show binary16 0 0 0 = 0#16 from rfl, BitVec.or_zero]

theorem floatToHalf_under (he : e < 102) : floatToHalf (binary32 s e m) = binary16 s 0 0 := by
  simp only [floatToHalf, binary32_sign hs (by omega : e < 256) hm,
    binary32_exp hs (by omega : e < 256) hm]
  rw [if_neg (by omega), if_neg (by omega), if_pos (by omega), if_pos (by omega)]

/-- A subnormal: the leading bit is put back and shifted down. -/
theorem floatToHalf_small (h102 : 102 ≤ e) (he : e < 113) :
    floatToHalf (binary32 s e m) =
      binary16 s 0 (shiftRound (2 ^ 23 + m) (126 - e) ((2 ^ 23 + m) / 2 ^ (126 - e))) := by
  have hM : 2 ^ 23 + m < 2 ^ 32 := by omega
  have hmant : BitVec.ofNat 32 m ||| 0x800000#32 = BitVec.ofNat 32 (2 ^ 23 + m) := by
    apply BitVec.eq_of_toNat_eq
    rw [BitVec.toNat_or, BitVec.toNat_ofNat, BitVec.toNat_ofNat, BitVec.toNat_ofNat, Nat.or_comm,
      show 0x800000 % 2 ^ 32 = 2 ^ 23 * 1 from rfl, Nat.mod_eq_of_lt (by omega : m < 2 ^ 32),
      ← Nat.two_pow_add_eq_or_of_lt hm]
    omega
  have hexp : (14 - ((e : Int) - 127 + 15)).toNat = 126 - e := by omega
  have hmask : 1#32 <<< (126 - e) - 1 = BitVec.ofNat 32 (2 ^ (126 - e) - 1) := by
    have hpow : 2 ^ (126 - e) < 2 ^ 32 := Nat.pow_lt_pow_right (by omega) (by omega)
    have hpos := Nat.two_pow_pos (126 - e)
    rw [one_shiftLeft]
    apply BitVec.eq_of_toNat_eq
    rw [BitVec.toNat_sub, show (1 : BitVec 32).toNat = 1 from rfl, BitVec.toNat_ofNat,
      BitVec.toNat_ofNat]
    omega
  have hquot : (2 ^ 23 + m) / 2 ^ (126 - e) < 2 ^ 10 := by
    rw [Nat.div_lt_iff_lt_mul (Nat.two_pow_pos _)]
    have : 2 ^ 14 ≤ 2 ^ (126 - e) := Nat.pow_le_pow_right (by omega) (by omega)
    omega
  have hrem : (2 ^ 23 + m) % 2 ^ (126 - e) < 2 ^ 32 :=
    Nat.lt_of_le_of_lt (Nat.mod_le _ _) hM
  have hhalf : 2 ^ (126 - e - 1) < 2 ^ 32 := Nat.pow_lt_pow_right (by omega) (by omega)
  simp only [floatToHalf, binary32_sign hs (by omega : e < 256) hm,
    binary32_exp hs (by omega : e < 256) hm, binary32_mant hs (by omega : e < 256) hm, hexp, hmant,
    hmask, ofNat_ushiftRight hM, ofNat_and_low hM (by omega : 126 - e < 32),
    one_shiftLeft (126 - e - 1), ofNat_gt hrem hhalf, ofNat_eq_iff hrem hhalf,
    and_one_ne_zero (by omega : 0 < 32)]
  rw [if_neg (by omega), if_neg (by omega), if_pos (by omega), if_neg (by omega)]
  have hodd : (BitVec.ofNat 32 ((2 ^ 23 + m) / 2 ^ (126 - e))).toNat % 2 =
      (2 ^ 23 + m) / 2 ^ (126 - e) % 2 := by
    rw [BitVec.toNat_ofNat, Nat.mod_eq_of_lt (by omega : _ < 2 ^ 32)]
  have hround : shiftRound (2 ^ 23 + m) (126 - e) ((2 ^ 23 + m) / 2 ^ (126 - e)) ≤ 2 ^ 10 :=
    Nat.le_trans (Ieee.shiftRound_le _ _ _) hquot
  rw [hodd]
  have hset : (if 2 ^ (126 - e - 1) < (2 ^ 23 + m) % 2 ^ (126 - e) ∨
        (2 ^ 23 + m) % 2 ^ (126 - e) = 2 ^ (126 - e - 1) ∧ (2 ^ 23 + m) / 2 ^ (126 - e) % 2 = 1
      then BitVec.ofNat 32 ((2 ^ 23 + m) / 2 ^ (126 - e)) + 1
      else BitVec.ofNat 32 ((2 ^ 23 + m) / 2 ^ (126 - e))) =
      BitVec.ofNat 32 (shiftRound (2 ^ 23 + m) (126 - e) ((2 ^ 23 + m) / 2 ^ (126 - e))) := by
    unfold shiftRound
    split
    · exact (BitVec.ofNat_add _ _).symm
    · rfl
  rw [hset]
  generalize shiftRound (2 ^ 23 + m) (126 - e) ((2 ^ 23 + m) / 2 ^ (126 - e)) = r at hround ⊢
  rw [show (BitVec.ofNat 32 r).setWidth 16 = BitVec.ofNat 16 r from by
    apply BitVec.eq_of_toNat_eq
    rw [BitVec.toNat_setWidth, BitVec.toNat_ofNat, BitVec.toNat_ofNat]
    omega]
  exact binary16_sign_or hs (by omega)

/-- A normal number: the carry of the increment runs into the exponent, and into infinity. -/
theorem floatToHalf_mid (h113 : 113 ≤ e) (he : e < 143) :
    floatToHalf (binary32 s e m) =
      binary16 s 0 (shiftRound (2 ^ 23 + m) 13 (2 ^ 10 * (e - 112) + m / 2 ^ 13)) := by
  have hq : m / 2 ^ 13 < 1024 := by omega
  have hshift : (BitVec.ofNat 32 m >>> 13).setWidth 16 = binary16 0 0 (m / 2 ^ 13) := by
    rw [ofNat_ushiftRight (by omega)]
    apply BitVec.eq_of_toNat_eq
    rw [BitVec.toNat_setWidth, BitVec.toNat_ofNat, toNat_binary16 (by omega) (by omega) hq]
    omega
  have hrem : BitVec.ofNat 32 m &&& 0x1fff#32 = BitVec.ofNat 32 (m % 2 ^ 13) :=
    ofNat_and_low (by omega) (by omega : 13 < 32)
  have hexp : BitVec.ofNat 16 (e - 112) <<< 10 = binary16 0 (e - 112) 0 := by
    apply BitVec.eq_of_toNat_eq
    rw [BitVec.toNat_shiftLeft, BitVec.toNat_ofNat, toNat_binary16 (by omega) (by omega) (by omega),
      Nat.shiftLeft_eq]
    omega
  have hint : ((e : Int) - 127 + 15).toNat = e - 112 := by omega
  have hpat : binary16 s (e - 112) (m / 2 ^ 13) = binary16 s 0 (2 ^ 10 * (e - 112) + m / 2 ^ 13) := by
    unfold binary16
    rw [Nat.mul_zero, Nat.zero_add]
  have hodd : (binary16 s (e - 112) (m / 2 ^ 13)).toNat % 2 =
      (2 ^ 10 * (e - 112) + m / 2 ^ 13) % 2 := by
    rw [toNat_binary16 hs (by omega) hq]
    omega
  simp only [floatToHalf, binary32_sign hs (by omega : e < 256) hm,
    binary32_exp hs (by omega : e < 256) hm, binary32_mant hs (by omega : e < 256) hm, hint, hshift,
    hrem, hexp, binary16_or hs (by omega : e - 112 < 32) hq,
    ofNat_gt (by omega : m % 2 ^ 13 < 2 ^ 32) (by omega : 0x1000 < 2 ^ 32),
    ofNat_eq_iff (by omega : m % 2 ^ 13 < 2 ^ 32) (by omega : 0x1000 < 2 ^ 32),
    and_one_ne_zero (by omega : 0 < 16), hodd]
  rw [if_neg (by omega), if_neg (by omega), if_neg (by omega), hpat]
  have hmod : (2 ^ 23 + m) % 2 ^ 13 = m % 2 ^ 13 := by omega
  have hhalf : 2 ^ (13 - 1) = 0x1000 := rfl
  unfold shiftRound
  rw [hmod, hhalf]
  by_cases hup : 0x1000 < m % 2 ^ 13 ∨
      m % 2 ^ 13 = 0x1000 ∧ (2 ^ 10 * (e - 112) + m / 2 ^ 13) % 2 = 1
  · rw [if_pos hup, if_pos hup]
    exact (BitVec.ofNat_add _ _).symm
  · rw [if_neg hup, if_neg hup]

end Narrow

/-! ## `floatToBf16` on a finite number -/

/-- Half of the last place less one, and one more when the last bit is set, carries just when the
bits below round up. -/
theorem add_half {a c : Nat} (hc : c = a / 2 ^ 16 % 2) :
    (a + (0x7fff + c)) / 2 ^ 16 = shiftRound a 16 (a / 2 ^ 16) := by
  have hhalf : 2 ^ (16 - 1) = 0x8000 := rfl
  unfold shiftRound
  rw [hhalf]
  split <;> omega

theorem floatToBf16_finite {s e m : Nat} (hs : s < 2) (he : e < 255) (hm : m < 2 ^ 23) :
    floatToBf16 (binary32 s e m) =
      binary16 s 0 (shiftRound (2 ^ 23 * e + m) 16 ((2 ^ 23 * e + m) / 2 ^ 16)) := by
  have hx := toNat_binary32 hs (by omega : e < 256) hm
  generalize ha : 2 ^ 23 * e + m = a at hx ⊢
  have htest : ¬ (binary32 s e m &&& 0x7fffffff#32 > 0x7f800000#32) := by
    rw [gt_iff_lt, BitVec.lt_def, BitVec.toNat_and, hx, BitVec.toNat_ofNat, BitVec.toNat_ofNat,
      show 0x7fffffff % 2 ^ 32 = 2 ^ 31 - 1 from rfl, Nat.and_two_pow_sub_one_eq_mod]
    omega
  have hlast : (binary32 s e m >>> 16 &&& 1).toNat = a / 2 ^ 16 % 2 := by
    rw [BitVec.toNat_and, BitVec.toNat_ushiftRight, hx, show (1 : BitVec 32).toNat = 1 from rfl,
      Nat.and_one_is_mod, Nat.shiftRight_eq_div_pow]
    omega
  have hcarry := add_half hlast
  have hround : shiftRound a 16 (a / 2 ^ 16) ≤ a / 2 ^ 16 + 1 := Ieee.shiftRound_le _ _ _
  simp only [floatToBf16]
  rw [if_neg htest]
  apply BitVec.eq_of_toNat_eq
  rw [BitVec.toNat_setWidth, BitVec.toNat_ushiftRight, BitVec.toNat_add, BitVec.toNat_add, hx,
    Nat.shiftRight_eq_div_pow, binary16, BitVec.toNat_ofNat, BitVec.toNat_ofNat]
  omega

/-! ## Patterns and their values -/

theorem exists_binary32 (x : BitVec 32) :
    ∃ s e m, s < 2 ∧ e < 256 ∧ m < 2 ^ 23 ∧ x = binary32 s e m := by
  have := x.isLt
  refine ⟨x.toNat / 2 ^ 31, x.toNat / 2 ^ 23 % 256, x.toNat % 2 ^ 23, by omega, by omega, by omega,
    ?_⟩
  apply BitVec.eq_of_toNat_eq
  rw [toNat_binary32 (by omega) (by omega) (by omega)]
  omega

theorem mag_binary32 {s e m : Nat} (hs : s < 2) (he : e < 256) (hm : m < 2 ^ 23) :
    mag (binary32 s e m) = 2 ^ 23 * e + m := by
  rw [mag, toNat_binary32 hs he hm]
  omega

theorem neg_binary32 {s e m : Nat} (hs : s < 2) (he : e < 256) (hm : m < 2 ^ 23) :
    neg (binary32 s e m) = decide (s = 1) := by
  rw [neg, toNat_binary32 hs he hm]
  exact decide_eq_decide.mpr (by omega)

/-- The magnitude and the sign of a result whose fields may have carried into each other. -/
theorem mag_binary16 {s r : Nat} (hr : r < 2 ^ 15) : mag (binary16 s 0 r) = r := by
  rw [mag, binary16, BitVec.toNat_ofNat]
  omega

theorem neg_binary16 {s r : Nat} (hs : s < 2) (hr : r < 2 ^ 15) :
    neg (binary16 s 0 r) = decide (s = 1) := by
  rw [neg, binary16, BitVec.toNat_ofNat]
  exact decide_eq_decide.mpr (by omega)

theorem eq_of_neg_mag {w : Nat} {x y : BitVec w} (hn : neg x = neg y) (hm : mag x = mag y) :
    x = y := by
  have hx := x.isLt
  have hy := y.isLt
  unfold neg at hn
  unfold mag at hm
  apply BitVec.eq_of_toNat_eq
  rcases w with - | w
  · omega
  · rw [Nat.add_sub_cancel] at hn hm
    rw [Nat.pow_succ] at hx hy
    have hiff := decide_eq_decide.mp hn
    have hmod : ∀ z, z < 2 ^ w * 2 → z % 2 ^ w = if 2 ^ w ≤ z then z - 2 ^ w else z := by
      intro z hz
      split
      · rw [Nat.mod_eq_sub_mod (by assumption), Nat.mod_eq_of_lt (by omega)]
      · exact Nat.mod_eq_of_lt (by omega)
    rw [hmod _ hx, hmod _ hy] at hm
    split at hm <;> split at hm <;> omega

/-! ## Correct rounding of the whole format -/

/-- `f` rounds binary32 to the format of `p` and `e` correctly, numbers from `limit` on to infinity;
infinities keep their sign, and a NaN stays one. -/
structure CorrectlyRounding (p e : Nat) (limit : ℚ) (f : BitVec 32 → BitVec 16) : Prop where
  number : ∀ x, mag x < infinity 23 8 →
    Rounded p e limit (value 23 8 (neg x) (mag x)) (neg x) (neg (f x)) (mag (f x))
  infinite : ∀ x, mag x = infinity 23 8 → neg (f x) = neg x ∧ mag (f x) = infinity p e
  nan : ∀ x, infinity 23 8 < mag x → infinity p e < mag (f x)

/-- `g` widens the format of `p` and `e` to binary32 without a change of value or sign. -/
structure Exact (p e : Nat) (g : BitVec 16 → BitVec 32) : Prop where
  number : ∀ h, mag h < infinity p e → mag (g h) < infinity 23 8 ∧ neg (g h) = neg h ∧
    value 23 8 (neg (g h)) (mag (g h)) = value p e (neg h) (mag h)
  infinite : ∀ h, mag h = infinity p e → neg (g h) = neg h ∧ mag (g h) = infinity 23 8
  nan : ∀ h, infinity p e < mag h → infinity 23 8 < mag (g h)

/-- Two correct roundings differ on NaNs at most. -/
theorem CorrectlyRounding.agree {p e : Nat} {limit : ℚ} {f f' : BitVec 32 → BitVec 16}
    (hf : CorrectlyRounding p e limit f) (hf' : CorrectlyRounding p e limit f') {x : BitVec 32}
    (hx : isNaN x = false) : f' x = f x := by
  have hle : mag x ≤ infinity 23 8 := Nat.le_of_not_lt (of_decide_eq_false hx)
  rcases Nat.lt_or_eq_of_le hle with hlt | heq
  · obtain ⟨hn, hm⟩ := (hf'.number x hlt).unique (hf.number x hlt)
    exact eq_of_neg_mag hn hm
  · obtain ⟨hn, hm⟩ := hf.infinite x heq
    obtain ⟨hn', hm'⟩ := hf'.infinite x heq
    exact eq_of_neg_mag (hn'.trans hn.symm) (hm'.trans hm.symm)

theorem value_inj {p e : Nat} {s : Bool} {u v : Nat} (h : value p e s u = value p e s v) :
    u = v := by
  have hlt := fun {a b : Nat} (hab : a < b) => Ieee.value_sign_lt (p := p) (e := e) (s := s) hab
  rcases Nat.lt_trichotomy u v with huv | huv | huv
  · have := hlt huv
    cases s <;> simp [h] at this
  · exact huv
  · have := hlt huv
    cases s <;> simp [h] at this

/-- Two exact widenings differ on NaNs at most. -/
theorem Exact.agree {p e : Nat} {g g' : BitVec 16 → BitVec 32} (hg : Exact p e g)
    (hg' : Exact p e g') {h : BitVec 16} (hh : mag h ≤ infinity p e) : g' h = g h := by
  rcases Nat.lt_or_eq_of_le hh with hlt | heq
  · obtain ⟨-, hn, hv⟩ := hg.number h hlt
    obtain ⟨-, hn', hv'⟩ := hg'.number h hlt
    refine eq_of_neg_mag (hn'.trans hn.symm) ?_
    rw [hn] at hv
    rw [hn'] at hv'
    exact value_inj (hv'.trans hv.symm)
  · obtain ⟨hn, hm⟩ := hg.infinite h heq
    obtain ⟨hn', hm'⟩ := hg'.infinite h heq
    exact eq_of_neg_mag (hn'.trans hn.symm) (hm'.trans hm.symm)

/-! ## Every case rounds to nearest even -/

/-- The value of a pattern with its leading bit put back. -/
theorem scaled_single {e m : Nat} (he : 0 < e) (hm : m < 2 ^ 23) :
    scaled 23 (2 ^ 23 * e + m) = (2 ^ 23 + m) * 2 ^ (e - 1) :=
  Ieee.scaled_fields he hm

section Cases

variable {s e m : Nat} (hm : m < 2 ^ 23)
include hm

theorem nearest_under (he : e < 102) : Nearest 10 125 (scaled 23 (2 ^ 23 * e + m)) 0 := by
  apply Ieee.nearest_zero
  rcases Nat.eq_zero_or_pos e with rfl | hpos
  · rw [Nat.mul_zero, Nat.zero_add, Ieee.scaled_small hm]
    omega
  · rw [scaled_single hpos hm]
    have hpow : 2 ^ (e - 1) ≤ 2 ^ 100 := Nat.pow_le_pow_right (by omega) (by omega)
    calc 2 * ((2 ^ 23 + m) * 2 ^ (e - 1))
        ≤ 2 * ((2 ^ 23 + m) * 2 ^ 100) := Nat.mul_le_mul_left _ (Nat.mul_le_mul_left _ hpow)
      _ < 2 ^ 125 := by omega

theorem nearest_small (h102 : 102 ≤ e) (he : e < 113) :
    Nearest 10 125 (scaled 23 (2 ^ 23 * e + m))
      (shiftRound (2 ^ 23 + m) (126 - e) ((2 ^ 23 + m) / 2 ^ (126 - e))) := by
  have hquot : (2 ^ 23 + m) / 2 ^ (126 - e) < 2 ^ 10 := by
    rw [Nat.div_lt_iff_lt_mul (Nat.two_pow_pos _)]
    have : 2 ^ 14 ≤ 2 ^ (126 - e) := Nat.pow_le_pow_right (by omega) (by omega)
    omega
  have hunit : 2 ^ (126 - e) * 2 ^ (e - 1) = 2 ^ 125 := by
    rw [← Nat.pow_add]
    congr 1
    omega
  refine Ieee.nearest_of_shift (by omega) (Nat.two_pow_pos (e - 1)) (scaled_single (by omega) hm)
    ?_ ?_
  · rw [Ieee.scaled_small hquot, hunit]
  · rw [ulp, Nat.div_eq_of_lt hquot, hunit, Nat.zero_sub, Nat.pow_zero, Nat.one_mul]

theorem nearest_mid (h113 : 113 ≤ e) :
    Nearest 10 125 (scaled 23 (2 ^ 23 * e + m))
      (shiftRound (2 ^ 23 + m) 13 (2 ^ 10 * (e - 112) + m / 2 ^ 13)) := by
  have hq : m / 2 ^ 13 < 2 ^ 10 := by omega
  have hunit : 2 ^ (e - 112 - 1) * 2 ^ 125 = 2 ^ 13 * 2 ^ (e - 1) := by
    rw [← Nat.pow_add, ← Nat.pow_add]
    congr 1
    omega
  have hsplit : (2 ^ 23 + m) / 2 ^ 13 = 2 ^ 10 + m / 2 ^ 13 := by omega
  refine Ieee.nearest_of_shift (by omega) (Nat.two_pow_pos (e - 1)) (scaled_single (by omega) hm)
    ?_ ?_
  · rw [Ieee.scaled_fields (by omega) hq, Nat.mul_assoc, hunit, hsplit]
  · rw [Ieee.ulp_fields hq, hunit]

theorem nearest_bf16 :
    Nearest 7 16 (scaled 23 (2 ^ 23 * e + m))
      (shiftRound (2 ^ 23 * e + m) 16 ((2 ^ 23 * e + m) / 2 ^ 16)) := by
  rcases Nat.eq_zero_or_pos e with rfl | hpos
  · rw [Nat.mul_zero, Nat.zero_add]
    have hq : m / 2 ^ 16 < 2 ^ 7 := by omega
    refine Ieee.nearest_of_shift (by omega) (Nat.one_pos) ?_ ?_ ?_
    · rw [Ieee.scaled_small hm, Nat.mul_one]
    · rw [Ieee.scaled_small hq, Nat.mul_one]
    · rw [ulp, Nat.div_eq_of_lt hq, Nat.zero_sub, Nat.pow_zero, Nat.one_mul, Nat.mul_one]
  · have hq : m / 2 ^ 16 < 2 ^ 7 := by omega
    have hfields : (2 ^ 23 * e + m) / 2 ^ 16 = 2 ^ 7 * e + m / 2 ^ 16 := by omega
    have hbits : (2 ^ 23 * e + m) % 2 ^ 16 = (2 ^ 23 + m) % 2 ^ 16 := by omega
    have hsplit : (2 ^ 23 + m) / 2 ^ 16 = 2 ^ 7 + m / 2 ^ 16 := by omega
    -- the bits shifted out are those of the significand
    have hsame : shiftRound (2 ^ 23 * e + m) 16 ((2 ^ 23 * e + m) / 2 ^ 16) =
        shiftRound (2 ^ 23 + m) 16 (2 ^ 7 * e + m / 2 ^ 16) := by
      rw [hfields]
      unfold shiftRound
      rw [hbits]
    rw [hsame]
    refine Ieee.nearest_of_shift (by omega) (Nat.two_pow_pos (e - 1)) (scaled_single hpos hm) ?_ ?_
    · rw [Ieee.scaled_fields hpos hq, hsplit, Nat.mul_assoc, Nat.mul_comm (2 ^ (e - 1))]
    · rw [Ieee.ulp_fields hq, Nat.mul_comm]

end Cases

/-! ## The codecs -/

theorem half_limit : (65520 : ℚ) = ((65520 * 2 ^ 149 : Nat) : ℚ) * 2 ^ unit 23 8 := by
  norm_num [unit]

theorem bf16_limit : (511 * 2 ^ 119 : ℚ) = ((511 * 2 ^ 119 * 2 ^ 149 : Nat) : ℚ) * 2 ^ unit 23 8 := by
  have hunit : unit 23 8 = -149 := rfl
  rw [hunit, Nat.cast_mul, Nat.cast_mul, Nat.cast_pow, Nat.cast_pow, mul_assoc, zpow_neg]
  norm_num

/-- `floatToHalf` on a finite number whose magnitude comes out as `u`. -/
theorem half_rounded {s e m u : Nat} (hs : s < 2) (he : e < 256) (hm : m < 2 ^ 23)
    (hn : Nearest 10 125 (scaled 23 (2 ^ 23 * e + m)) u) (hu : u ≤ infinity 10 5)
    (hf : floatToHalf (binary32 s e m) = binary16 s 0 u) :
    Rounded 10 5 65520 (value 23 8 (neg (binary32 s e m)) (mag (binary32 s e m)))
      (neg (binary32 s e m)) (neg (floatToHalf (binary32 s e m)))
      (mag (floatToHalf (binary32 s e m))) := by
  have hsmall : u < 2 ^ 15 := Nat.lt_of_le_of_lt hu (by decide)
  rw [hf, neg_binary16 hs hsmall, mag_binary16 hsmall, neg_binary32 hs he hm, mag_binary32 hs he hm,
    half_limit]
  exact Ieee.rounded_of_nearest (k := 125) (by decide) (by omega) (by omega) (by decide) hn hu

theorem correctlyRounding_half : CorrectlyRounding 10 5 65520 floatToHalf where
  number x hx := by
    obtain ⟨s, e, m, hs, he, hm, rfl⟩ := exists_binary32 x
    have hfin : e < 255 := by
      rw [mag_binary32 hs he hm] at hx
      have : infinity 23 8 = 2 ^ 23 * 255 := rfl
      omega
    by_cases h102 : e < 102
    · exact half_rounded hs he hm (nearest_under hm h102) (Nat.zero_le _)
        (floatToHalf_under hs hm h102)
    by_cases h113 : e < 113
    · refine half_rounded hs he hm (nearest_small hm (by omega) h113)
        (Nat.le_trans (Ieee.shiftRound_le _ _ _) ?_) (floatToHalf_small hs hm (by omega) h113)
      have := Nat.div_le_self (2 ^ 23 + m) (2 ^ (126 - e))
      have hquot : (2 ^ 23 + m) / 2 ^ (126 - e) < 2 ^ 10 := by
        rw [Nat.div_lt_iff_lt_mul (Nat.two_pow_pos _)]
        have : 2 ^ 14 ≤ 2 ^ (126 - e) := Nat.pow_le_pow_right (by omega) (by omega)
        omega
      have hinf : infinity 10 5 = 31744 := rfl
      omega
    by_cases h143 : e < 143
    · refine half_rounded hs he hm (nearest_mid hm (by omega))
        (Nat.le_trans (Ieee.shiftRound_le _ _ _) ?_) (floatToHalf_mid hs hm (by omega) h143)
      have hinf : infinity 10 5 = 31744 := rfl
      omega
    · -- from exponent 143 on
      rw [floatToHalf_over hs hm (by omega) hfin, neg_binary32 hs he hm, mag_binary32 hs he hm,
        half_limit]
      have hpat : binary16 s 31 0 = binary16 s 0 (infinity 10 5) := rfl
      rw [hpat, neg_binary16 hs (by decide), mag_binary16 (by decide)]
      refine Ieee.rounded_of_overflow ?_
      rw [scaled_single (by omega) hm]
      have hpow : 2 ^ 142 ≤ 2 ^ (e - 1) := Nat.pow_le_pow_right (by omega) (by omega)
      calc 65520 * 2 ^ 149 ≤ 2 ^ 23 * 2 ^ 142 := by decide
        _ ≤ (2 ^ 23 + m) * 2 ^ (e - 1) := Nat.mul_le_mul (Nat.le_add_right _ _) hpow
  infinite x hx := by
    obtain ⟨s, e, m, hs, he, hm, rfl⟩ := exists_binary32 x
    rw [mag_binary32 hs he hm] at hx
    have hinf : infinity 23 8 = 2 ^ 23 * 255 := rfl
    obtain rfl : e = 255 := by omega
    obtain rfl : m = 0 := by omega
    rw [floatToHalf_special hs hm, if_pos rfl, neg_binary32 hs he hm]
    have hpat : binary16 s 31 0 = binary16 s 0 (infinity 10 5) := rfl
    rw [hpat]
    exact ⟨neg_binary16 hs (by decide), mag_binary16 (by decide)⟩
  nan x hx := by
    obtain ⟨s, e, m, hs, he, hm, rfl⟩ := exists_binary32 x
    rw [mag_binary32 hs he hm] at hx
    have hinf : infinity 23 8 = 2 ^ 23 * 255 := rfl
    obtain rfl : e = 255 := by omega
    rw [floatToHalf_special hs hm, if_neg (by omega)]
    have hpat : binary16 s 31 512 = binary16 s 0 (2 ^ 10 * 31 + 512) := rfl
    rw [hpat, mag_binary16 (by decide)]
    decide

theorem correctlyRounding_bf16 : CorrectlyRounding 7 8 (511 * 2 ^ 119) floatToBf16 where
  number x hx := by
    obtain ⟨s, e, m, hs, he, hm, rfl⟩ := exists_binary32 x
    have hinf : infinity 23 8 = 2 ^ 23 * 255 := rfl
    have hout : infinity 7 8 = 32640 := rfl
    rw [mag_binary32 hs he hm] at hx
    have hround := Ieee.shiftRound_le (2 ^ 23 * e + m) 16 ((2 ^ 23 * e + m) / 2 ^ 16)
    have hu : shiftRound (2 ^ 23 * e + m) 16 ((2 ^ 23 * e + m) / 2 ^ 16) ≤ infinity 7 8 := by
      omega
    have hsmall := Nat.lt_of_le_of_lt hu (show infinity 7 8 < 2 ^ 15 by decide)
    rw [floatToBf16_finite hs (by omega) hm, neg_binary16 hs hsmall, mag_binary16 hsmall,
      neg_binary32 hs he hm, mag_binary32 hs he hm, bf16_limit]
    exact Ieee.rounded_of_nearest (k := 16) (by decide) (by omega) (by omega) (by decide)
      (nearest_bf16 hm) hu
  infinite x hx := by
    obtain ⟨s, e, m, hs, he, hm, rfl⟩ := exists_binary32 x
    rw [mag_binary32 hs he hm] at hx
    have hinf : infinity 23 8 = 2 ^ 23 * 255 := rfl
    obtain rfl : e = 255 := by omega
    obtain rfl : m = 0 := by omega
    rcases (show s = 0 ∨ s = 1 by omega) with rfl | rfl
    · decide
    · decide
  nan x hx := by
    obtain ⟨s, e, m, hs, he, hm, rfl⟩ := exists_binary32 x
    rw [mag_binary32 hs he hm] at hx
    have hinf : infinity 23 8 = 2 ^ 23 * 255 := rfl
    have hval := toNat_binary32 hs he hm
    have htest : binary32 s e m &&& 0x7fffffff#32 > 0x7f800000#32 := by
      rw [gt_iff_lt, BitVec.lt_def, BitVec.toNat_and, hval, BitVec.toNat_ofNat, BitVec.toNat_ofNat,
        show 0x7fffffff % 2 ^ 32 = 2 ^ 31 - 1 from rfl, Nat.and_two_pow_sub_one_eq_mod]
      omega
    have hhigh : (binary32 s e m >>> 16).toNat % 2 ^ 15 = 32640 + m / 2 ^ 16 := by
      rw [BitVec.toNat_ushiftRight, hval, Nat.shiftRight_eq_div_pow]
      omega
    -- the quiet bit keeps the payload from becoming zero
    have hquiet : ∀ r < 128, 32640 < (32640 + r) ||| 64 := by decide
    rw [floatToBf16, if_pos htest, mag, BitVec.toNat_setWidth,
      Nat.mod_mod_of_dvd _ (Nat.pow_dvd_pow 2 (by omega)), BitVec.toNat_or, Nat.or_mod_two_pow,
      hhigh]
    exact hquiet (m / 2 ^ 16) (by omega)

/-- A number of binary32 that has the value of a finite number of the other format. -/
theorem exact_number {p e k u z : Nat} (hw : unit p e = unit 23 8 + k)
    (hv : scaled 23 z = scaled p u * 2 ^ k) (t : Bool) : value 23 8 t z = value p e t u := by
  rw [Ieee.value_eq hw, value, hv]

/-- The widened pattern, from its fields. -/
theorem half_exact {s e m u : Nat} (hs : s < 2) (he : e < 255) (hm : m < 2 ^ 23) (hu : u < 2 ^ 15)
    (hv : scaled 23 (2 ^ 23 * e + m) = scaled 10 u * 2 ^ 125)
    (hg : halfToFloat (binary16 s 0 u) = binary32 s e m) :
    mag (halfToFloat (binary16 s 0 u)) < infinity 23 8 ∧
      neg (halfToFloat (binary16 s 0 u)) = neg (binary16 s 0 u) ∧
      value 23 8 (neg (halfToFloat (binary16 s 0 u))) (mag (halfToFloat (binary16 s 0 u))) =
        value 10 5 (neg (binary16 s 0 u)) (mag (binary16 s 0 u)) := by
  have hinf : infinity 23 8 = 2 ^ 23 * 255 := rfl
  rw [hg, neg_binary16 hs hu, mag_binary16 hu, neg_binary32 hs (by omega) hm,
    mag_binary32 hs (by omega) hm]
  exact ⟨by omega, rfl, exact_number (k := 125) (by decide) hv _⟩

theorem exact_half : Exact 10 5 halfToFloat where
  number h hh := by
    obtain ⟨s, e, m, hs, he, hm, rfl⟩ := exists_binary16 h
    have hinf : infinity 10 5 = 31744 := rfl
    have hpat : binary16 s e m = binary16 s 0 (2 ^ 10 * e + m) := by
      unfold binary16
      rw [Nat.mul_zero, Nat.zero_add]
    have hfin : e < 31 := by
      rw [hpat, mag_binary16 (by omega)] at hh
      omega
    rw [hpat]
    by_cases h0 : e = 0
    · subst h0
      by_cases hm0 : m = 0
      · subst hm0
        exact half_exact hs (by omega) (by omega) (by omega) (by decide) (halfToFloat_zero hs)
      · obtain ⟨d, hd, hd10, h1, h2⟩ := exists_shift hm0 hm
        rw [Nat.mul_zero, Nat.zero_add]
        refine half_exact hs (by omega) (by omega) (by omega) ?_
          (halfToFloat_subnormal hs hd hd10 h1 h2 hm)
        have hlead : 2 ^ 23 + 2 ^ 13 * (2 ^ d * m - 2 ^ 10) = m * 2 ^ (13 + d) := by
          rw [Nat.pow_add, ← Nat.mul_assoc, Nat.mul_comm m, Nat.mul_assoc, Nat.mul_comm m]
          omega
        rw [scaled_single (by omega) (by omega), hlead, Ieee.scaled_small hm, Nat.mul_assoc,
          ← Nat.pow_add, show 13 + d + (113 - d - 1) = 125 by omega]
    · refine half_exact hs (by omega) (by omega) (by omega) ?_
        (hpat ▸ halfToFloat_normal hs (by omega) hfin hm)
      have hexp : 2 ^ (e + 112 - 1) = 2 ^ (e - 1) * 2 ^ 112 := by
        rw [← Nat.pow_add]
        congr 1
        omega
      have hlead : 2 ^ 23 + 2 ^ 13 * m = (2 ^ 10 + m) * 2 ^ 13 := by omega
      rw [scaled_single (by omega) (by omega), Ieee.scaled_fields (by omega) hm, hexp, hlead,
        show (2 : Nat) ^ 125 = 2 ^ 13 * 2 ^ 112 from rfl]
      ac_rfl
  infinite h hh := by
    obtain ⟨s, e, m, hs, he, hm, rfl⟩ := exists_binary16 h
    have hinf : infinity 10 5 = 31744 := rfl
    rw [mag, toNat_binary16 hs he hm] at hh
    obtain rfl : e = 31 := by omega
    obtain rfl : m = 0 := by omega
    rcases (show s = 0 ∨ s = 1 by omega) with rfl | rfl
    · decide
    · decide
  nan h hh := by
    obtain ⟨s, e, m, hs, he, hm, rfl⟩ := exists_binary16 h
    have hinf : infinity 10 5 = 31744 := rfl
    have hout : infinity 23 8 = 2 ^ 23 * 255 := rfl
    rw [mag, toNat_binary16 hs he hm] at hh
    obtain rfl : e = 31 := by omega
    rw [halfToFloat_special hs hm, mag_binary32 hs (by omega) (by omega)]
    omega

theorem mag_bf16ToFloat (b : BitVec 16) : mag (bf16ToFloat b) = 2 ^ 16 * mag b := by
  rw [mag, toNat_bf16ToFloat, mag]
  omega

theorem neg_bf16ToFloat (b : BitVec 16) : neg (bf16ToFloat b) = neg b := by
  rw [neg, toNat_bf16ToFloat, neg]
  exact decide_eq_decide.mpr (by omega)

/-- Sixteen zeros below the significand change the unit, not the value. -/
theorem scaled_bf16 (u : Nat) : scaled 23 (2 ^ 16 * u) = scaled 7 u * 2 ^ 16 := by
  obtain ⟨e, m, hm, rfl⟩ := Ieee.exists_fields 7 u
  have hfields : 2 ^ 16 * (2 ^ 7 * e + m) = 2 ^ 23 * e + 2 ^ 16 * m := by omega
  rw [hfields]
  rcases Nat.eq_zero_or_pos e with rfl | hpos
  · rw [Nat.mul_zero, Nat.zero_add, Nat.mul_zero, Nat.zero_add, Ieee.scaled_small (by omega),
      Ieee.scaled_small hm, Nat.mul_comm]
  · have hlead : 2 ^ 23 + 2 ^ 16 * m = (2 ^ 7 + m) * 2 ^ 16 := by omega
    rw [scaled_single hpos (by omega), Ieee.scaled_fields hpos hm, hlead]
    ac_rfl

theorem exact_bf16 : Exact 7 8 bf16ToFloat where
  number b hb := by
    have hinf : infinity 23 8 = 2 ^ 16 * infinity 7 8 := rfl
    rw [mag_bf16ToFloat, neg_bf16ToFloat]
    exact ⟨by omega, rfl, exact_number (k := 16) (by decide) (scaled_bf16 _) _⟩
  infinite b hb := by
    rw [mag_bf16ToFloat, neg_bf16ToFloat, hb]
    exact ⟨rfl, rfl⟩
  nan b hb := by
    have hinf : infinity 23 8 = 2 ^ 16 * infinity 7 8 := rfl
    rw [mag_bf16ToFloat]
    omega

/-- **Narrowing rounds to nearest even and widening is exact.** Numbers from 65520 on, the midpoint
of the largest finite binary16 and the next power of two, become infinity, and those from
`511 * 2 ^ 119` on in bfloat16. So every conversion that is correct in this sense agrees with the
scalar codecs on whatever is not a NaN. -/
theorem codecs_correctly_rounded :
    (CorrectlyRounding 10 5 65520 floatToHalf ∧
      ∀ f, CorrectlyRounding 10 5 65520 f → ∀ x, isNaN x = false → f x = floatToHalf x) ∧
    (CorrectlyRounding 7 8 (511 * 2 ^ 119) floatToBf16 ∧
      ∀ f, CorrectlyRounding 7 8 (511 * 2 ^ 119) f → ∀ x, isNaN x = false → f x = floatToBf16 x) ∧
    (Exact 10 5 halfToFloat ∧
      ∀ g, Exact 10 5 g → ∀ h, mag h ≤ infinity 10 5 → g h = halfToFloat h) ∧
    Exact 7 8 bf16ToFloat ∧
      ∀ g, Exact 7 8 g → ∀ b, mag b ≤ infinity 7 8 → g b = bf16ToFloat b :=
  ⟨⟨correctlyRounding_half, fun _ hf _ hx => correctlyRounding_half.agree hf hx⟩,
    ⟨correctlyRounding_bf16, fun _ hf _ hx => correctlyRounding_bf16.agree hf hx⟩,
    ⟨exact_half, fun _ hg _ hh => exact_half.agree hg hh⟩,
    exact_bf16, fun _ hg _ hb => exact_bf16.agree hg hb⟩

/-- The last number below the limit and the limit; half of the smallest subnormal, a tie, and the
next number. -/
example : floatToHalf 0x477fefff#32 = 0x7bff#16 ∧ floatToHalf 0x477ff000#32 = 0x7c00#16 ∧
    floatToHalf 0x33000000#32 = 0#16 ∧ floatToHalf 0x33000001#32 = 1#16 := by decide

end Vccl
