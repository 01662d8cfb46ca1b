import Vccl.Reduce
import Mathlib.Data.Nat.Bitwise

/-!
# The 16-bit codecs lose nothing (`halfToFloat`, `floatToHalf`, `bf16ToFloat`, `floatToBf16`)

`reduce16` widens, operates and narrows. `RoundTrip` is what the operations that only choose one of
their operands need of a codec: narrowing a widened number gives it back, zeros, subnormals and
infinities included, and a NaN stays a NaN that a second round trip leaves alone. `roundTrip_half`
and `roundTrip_bf16` prove it.

A pattern is taken apart into sign, exponent and mantissa (`binary16`, `binary32`). The codec of
binary16 has four cases: zero, subnormal, normal, and infinity or NaN. A subnormal mantissa that has
to be shifted up by `d` places becomes a normal number of exponent `113 - d`.
-/

namespace Vccl

/-- Widening and narrowing back is the identity but on NaNs, and settles a NaN in one go. -/
structure RoundTrip (toFloat : BitVec 16 → BitVec 32) (fromFloat : BitVec 32 → BitVec 16) :
    Prop where
  number : ∀ b, isNaN (toFloat b) = false → fromFloat (toFloat b) = b
  nan : ∀ b, isNaN (toFloat b) = true → isNaN (toFloat (fromFloat (toFloat b))) = true
  settled : ∀ b, isNaN (toFloat b) = true →
    fromFloat (toFloat (fromFloat (toFloat b))) = fromFloat (toFloat b)

/-! ## Fields -/

/-- A binary16 pattern by its fields. -/
def binary16 (s e m : Nat) : BitVec 16 := BitVec.ofNat 16 (2 ^ 15 * s + (2 ^ 10 * e + m))

/-- A binary32 pattern by its fields. -/
def binary32 (s e m : Nat) : BitVec 32 := BitVec.ofNat 32 (2 ^ 31 * s + (2 ^ 23 * e + m))

theorem toNat_binary16 {s e m : Nat} (hs : s < 2) (he : e < 32) (hm : m < 1024) :
    (binary16 s e m).toNat = 2 ^ 15 * s + (2 ^ 10 * e + m) := by
  rw [binary16, BitVec.toNat_ofNat]
  omega

theorem toNat_binary32 {s e m : Nat} (hs : s < 2) (he : e < 256) (hm : m < 2 ^ 23) :
    (binary32 s e m).toNat = 2 ^ 31 * s + (2 ^ 23 * e + m) := by
  rw [binary32, BitVec.toNat_ofNat]
  omega

theorem exists_binary16 (h : BitVec 16) :
    ∃ s e m, s < 2 ∧ e < 32 ∧ m < 1024 ∧ h = binary16 s e m := by
  have := h.isLt
  refine ⟨h.toNat / 2 ^ 15, h.toNat / 2 ^ 10 % 32, h.toNat % 1024, by omega, by omega, by omega, ?_⟩
  apply BitVec.eq_of_toNat_eq
  rw [toNat_binary16 (by omega) (by omega) (by omega)]
  omega

/-- Fields that do not overlap are put together by `|||`. -/
theorem binary32_or {s e m : Nat} (hs : s < 2) (he : e < 256) (hm : m < 2 ^ 23) :
    binary32 s 0 0 ||| binary32 0 e 0 ||| binary32 0 0 m = binary32 s e m := by
  apply BitVec.eq_of_toNat_eq
  rw [BitVec.toNat_or, BitVec.toNat_or, toNat_binary32 hs (by omega) (by omega),
    toNat_binary32 (by omega) he (by omega), toNat_binary32 (by omega) (by omega) hm,
    toNat_binary32 hs he hm]
  conv_rhs => rw [Nat.two_pow_add_eq_or_of_lt (i := 31) (by omega),
    Nat.two_pow_add_eq_or_of_lt (i := 23) hm]
  simp [Nat.or_assoc]

theorem binary16_or {s e m : Nat} (hs : s < 2) (he : e < 32) (hm : m < 1024) :
    binary16 s 0 0 ||| binary16 0 e 0 ||| binary16 0 0 m = binary16 s e m := by
  apply BitVec.eq_of_toNat_eq
  rw [BitVec.toNat_or, BitVec.toNat_or, toNat_binary16 hs (by omega) (by omega),
    toNat_binary16 (by omega) he (by omega), toNat_binary16 (by omega) (by omega) hm,
    toNat_binary16 hs he hm]
  conv_rhs => rw [Nat.two_pow_add_eq_or_of_lt (i := 15) (by omega),
    Nat.two_pow_add_eq_or_of_lt (i := 10) hm]
  simp [Nat.or_assoc]

theorem and_bit (x i : Nat) : x &&& 2 ^ i = 2 ^ i * (x / 2 ^ i % 2) := by
  rw [Nat.and_two_pow, Nat.testBit_eq_decide_div_mod_eq, Nat.mul_comm]
  rcases Nat.mod_two_eq_zero_or_one (x / 2 ^ i) with h | h <;> simp [h]

theorem ofNat_ne {a b : Nat} (ha : a < 2 ^ 32) (hb : b < 2 ^ 32) (h : a ≠ b) :
    ¬ BitVec.ofNat 32 a = BitVec.ofNat 32 b := by
  intro e
  have := congrArg BitVec.toNat e
  rw [BitVec.toNat_ofNat, BitVec.toNat_ofNat, Nat.mod_eq_of_lt ha, Nat.mod_eq_of_lt hb] at this
  exact h this

section HalfFields

variable {s e m : Nat} (hs : s < 2) (he : e < 32) (hm : m < 1024)
include hs he hm

theorem binary16_sign : (binary16 s e m &&& 0x8000#16).setWidth 32 <<< 16 = binary32 s 0 0 := by
  apply BitVec.eq_of_toNat_eq
  rw [BitVec.toNat_shiftLeft, BitVec.toNat_setWidth, BitVec.toNat_and, toNat_binary16 hs he hm,
    toNat_binary32 hs (by omega) (by omega), BitVec.toNat_ofNat,
    show 0x8000 % 2 ^ 16 = 2 ^ 15 from rfl, and_bit, Nat.shiftLeft_eq]
  omega

theorem binary16_exp : ((binary16 s e m >>> 10) &&& 0x1f#16).setWidth 32 = BitVec.ofNat 32 e := by
  apply BitVec.eq_of_toNat_eq
  rw [BitVec.toNat_setWidth, BitVec.toNat_and, BitVec.toNat_ushiftRight, toNat_binary16 hs he hm,
    BitVec.toNat_ofNat, BitVec.toNat_ofNat, show 0x1f % 2 ^ 16 = 2 ^ 5 - 1 from rfl,
    Nat.and_two_pow_sub_one_eq_mod, Nat.shiftRight_eq_div_pow]
  omega

theorem binary16_mant : (binary16 s e m &&& 0x3ff#16).setWidth 32 = BitVec.ofNat 32 m := by
  apply BitVec.eq_of_toNat_eq
  rw [BitVec.toNat_setWidth, BitVec.toNat_and, toNat_binary16 hs he hm, BitVec.toNat_ofNat,
    BitVec.toNat_ofNat, show 0x3ff % 2 ^ 16 = 2 ^ 10 - 1 from rfl, Nat.and_two_pow_sub_one_eq_mod]
  omega

end HalfFields

section SingleFields

variable {s e m : Nat} (hs : s < 2) (he : e < 256) (hm : m < 2 ^ 23)
include hs he hm

theorem binary32_sign : ((binary32 s e m >>> 16) &&& 0x8000#32).setWidth 16 = binary16 s 0 0 := by
  apply BitVec.eq_of_toNat_eq
  rw [BitVec.toNat_setWidth, BitVec.toNat_and, BitVec.toNat_ushiftRight, toNat_binary32 hs he hm,
    toNat_binary16 hs (by omega) (by omega), BitVec.toNat_ofNat,
    show 0x8000 % 2 ^ 32 = 2 ^ 15 from rfl, and_bit, Nat.shiftRight_eq_div_pow]
  omega

theorem binary32_exp : ((binary32 s e m >>> 23) &&& 0xff#32).toNat = e := by
  rw [BitVec.toNat_and, BitVec.toNat_ushiftRight, toNat_binary32 hs he hm, BitVec.toNat_ofNat,
    show 0xff % 2 ^ 32 = 2 ^ 8 - 1 from rfl, Nat.and_two_pow_sub_one_eq_mod,
    Nat.shiftRight_eq_div_pow]
  omega

theorem binary32_mant : binary32 s e m &&& 0x7fffff#32 = BitVec.ofNat 32 m := by
  apply BitVec.eq_of_toNat_eq
  rw [BitVec.toNat_and, toNat_binary32 hs he hm, BitVec.toNat_ofNat, BitVec.toNat_ofNat,
    show 0x7fffff % 2 ^ 32 = 2 ^ 23 - 1 from rfl, Nat.and_two_pow_sub_one_eq_mod]
  omega

theorem isNaN_binary32 : isNaN (binary32 s e m) = true ↔ e = 255 ∧ m ≠ 0 := by
  simp only [isNaN, mag, infMag, decide_eq_true_eq, toNat_binary32 hs he hm]
  omega

end SingleFields

theorem ofNat_shiftLeft_exp {e : Nat} (he : e < 256) :
    BitVec.ofNat 32 e <<< 23 = binary32 0 e 0 := by
  apply BitVec.eq_of_toNat_eq
  rw [BitVec.toNat_shiftLeft, toNat_binary32 (by omega) he (by omega), BitVec.toNat_ofNat,
    Nat.shiftLeft_eq]
  omega

theorem ofNat_shiftLeft_mant {m : Nat} (hm : m < 1024) :
    BitVec.ofNat 32 m <<< 13 = binary32 0 0 (2 ^ 13 * m) := by
  apply BitVec.eq_of_toNat_eq
  rw [BitVec.toNat_shiftLeft, toNat_binary32 (by omega) (by omega) (by omega), BitVec.toNat_ofNat,
    Nat.shiftLeft_eq]
  omega

/-! ## Widening binary16 -/

theorem halfToFloat_zero {s : Nat} (hs : s < 2) :
    halfToFloat (binary16 s 0 0) = binary32 s 0 0 := by
  simp only [halfToFloat, binary16_sign hs (by omega : 0 < 32) (by omega : 0 < 1024),
    binary16_exp hs (by omega : 0 < 32) (by omega : 0 < 1024),
    binary16_mant hs (by omega : 0 < 32) (by omega : 0 < 1024)]
  rfl

theorem halfToFloat_special {s m : Nat} (hs : s < 2) (hm : m < 1024) :
    halfToFloat (binary16 s 31 m) = binary32 s 255 (2 ^ 13 * m) := by
  simp only [halfToFloat, binary16_sign hs (by omega : 31 < 32) hm,
    binary16_exp hs (by omega : 31 < 32) hm,
    binary16_mant hs (by omega : 31 < 32) hm]
  rw [if_neg (by decide), if_pos (by decide), ofNat_shiftLeft_mant hm,
    show (0x7f800000#32) = binary32 0 255 0 from by decide, binary32_or hs (by omega) (by omega)]

theorem halfToFloat_normal {s e m : Nat} (hs : s < 2) (h0 : 0 < e) (he : e < 31) (hm : m < 1024) :
    halfToFloat (binary16 s e m) = binary32 s (e + 112) (2 ^ 13 * m) := by
  have hexp : BitVec.ofNat 32 e - 15 + 127 = BitVec.ofNat 32 (e + 112) := by
    apply BitVec.eq_of_toNat_eq
    have h15 : (15 : BitVec 32).toNat = 15 := rfl
    have h127 : (127 : BitVec 32).toNat = 127 := rfl
    simp only [BitVec.toNat_add, BitVec.toNat_sub, BitVec.toNat_ofNat, h15, h127]
    omega
  have hne0 : ¬ BitVec.ofNat 32 e = 0 := ofNat_ne (b := 0) (by omega) (by omega) (by omega)
  have hne31 : ¬ BitVec.ofNat 32 e = 0x1f#32 := ofNat_ne (by omega) (by omega) (by omega)
  simp only [halfToFloat, binary16_sign hs (by omega : e < 32) hm,
    binary16_exp hs (by omega : e < 32) hm,
    binary16_mant hs (by omega : e < 32) hm]
  rw [if_neg hne0, if_neg hne31, hexp, ofNat_shiftLeft_mant hm, ofNat_shiftLeft_exp (by omega),
    binary32_or hs (by omega) (by omega)]

/-- The loop shifts by the `d` places that bring the leading bit to position 10. -/
theorem normHalf_eq : ∀ {d fuel m sh : Nat}, d ≤ fuel → 2 ^ 10 ≤ 2 ^ d * m → 2 ^ d * m < 2 ^ 11 →
    normHalf fuel (BitVec.ofNat 32 m) sh = (BitVec.ofNat 32 (2 ^ d * m), sh + d)
  | 0, 0, m, sh, _, h1, h2 => by simp [normHalf]
  | 0, fuel + 1, m, sh, _, h1, h2 => by
    rw [normHalf, if_neg]
    · simp
    · intro e
      have := congrArg BitVec.toNat e
      rw [BitVec.toNat_and, BitVec.toNat_ofNat, BitVec.toNat_ofNat,
        show 0x400 % 2 ^ 32 = 2 ^ 10 from rfl, and_bit] at this
      simp only [Nat.pow_zero, Nat.one_mul] at h1 h2
      have hm : m % 2 ^ 32 = m := Nat.mod_eq_of_lt (by omega)
      have hz : (0 : BitVec 32).toNat = 0 := rfl
      rw [hm] at this
      omega
  | d + 1, fuel + 1, m, sh, hd, h1, h2 => by
    have hm : m < 2 ^ 10 := by
      rw [Nat.pow_succ, Nat.mul_assoc] at h2
      have : 2 * m ≤ 2 ^ d * (2 * m) := Nat.le_mul_of_pos_left _ (Nat.two_pow_pos d)
      omega
    have hdbl : BitVec.ofNat 32 m <<< 1 = BitVec.ofNat 32 (2 * m) := by
      apply BitVec.eq_of_toNat_eq
      rw [BitVec.toNat_shiftLeft, BitVec.toNat_ofNat, BitVec.toNat_ofNat, Nat.shiftLeft_eq]
      omega
    rw [normHalf, if_pos, hdbl, normHalf_eq (d := d) (by omega)]
    · rw [Nat.pow_succ, Nat.mul_assoc]
      congr 1
      omega
    · rwa [← Nat.mul_assoc, ← Nat.pow_succ]
    · rwa [← Nat.mul_assoc, ← Nat.pow_succ]
    · apply BitVec.eq_of_toNat_eq
      have hz : (0 : BitVec 32).toNat = 0 := rfl
      rw [BitVec.toNat_and, BitVec.toNat_ofNat, BitVec.toNat_ofNat,
        show 0x400 % 2 ^ 32 = 2 ^ 10 from rfl, and_bit,
        show m % 2 ^ 32 = m from Nat.mod_eq_of_lt (by omega)]
      omega

/-- A non-zero mantissa has such a `d`. -/
theorem exists_shift {m : Nat} (h0 : m ≠ 0) (hm : m < 1024) :
    ∃ d, 0 < d ∧ d ≤ 10 ∧ 2 ^ 10 ≤ 2 ^ d * m ∧ 2 ^ d * m < 2 ^ 11 := by
  have hlo := Nat.pow_log_le_self 2 h0
  have hhi := Nat.lt_pow_succ_log_self (b := 2) (by omega) m
  have hlog : Nat.log 2 m < 10 := Nat.log_lt_of_lt_pow h0 hm
  have hsplit : ∀ k, 2 ^ (10 - Nat.log 2 m) * 2 ^ (Nat.log 2 m + k) = 2 ^ (10 + k) := fun k => by
    rw [← Nat.pow_add]
    congr 1
    omega
  refine ⟨10 - Nat.log 2 m, by omega, by omega, ?_, ?_⟩
  · rw [← hsplit 0]
    exact Nat.mul_le_mul_left _ hlo
  · rw [← hsplit 1]
    exact Nat.mul_lt_mul_of_pos_left hhi (Nat.two_pow_pos _)

section Subnormal

variable {s d m : Nat} (hs : s < 2) (hd : 0 < d) (hd10 : d ≤ 10) (h1 : 2 ^ 10 ≤ 2 ^ d * m)
  (h2 : 2 ^ d * m < 2 ^ 11) (hm : m < 1024)
include hs hd hd10 h1 h2 hm

theorem halfToFloat_subnormal :
    halfToFloat (binary16 s 0 m) = binary32 s (113 - d) (2 ^ 13 * (2 ^ d * m - 2 ^ 10)) := by
  have hm0 : m ≠ 0 := by
    rintro rfl
    simp at h1
  have hne0 : ¬ BitVec.ofNat 32 m = 0 := ofNat_ne (b := 0) (by omega) (by omega) hm0
  have hmask : BitVec.ofNat 32 (2 ^ d * m) &&& 0x3ff#32 = BitVec.ofNat 32 (2 ^ d * m - 2 ^ 10) := by
    apply BitVec.eq_of_toNat_eq
    rw [BitVec.toNat_and, BitVec.toNat_ofNat, BitVec.toNat_ofNat, BitVec.toNat_ofNat,
      show 0x3ff % 2 ^ 32 = 2 ^ 10 - 1 from rfl, Nat.and_two_pow_sub_one_eq_mod]
    omega
  simp only [halfToFloat, binary16_sign hs (by omega : 0 < 32) hm,
    binary16_exp hs (by omega : 0 < 32) hm,
    binary16_mant hs (by omega : 0 < 32) hm, normHalf_eq hd10 h1 h2]
  rw [if_pos (by rfl), if_neg hne0, hmask, ofNat_shiftLeft_mant (by omega),
    ofNat_shiftLeft_exp (by omega), show 127 - 15 - (0 + d) + 1 = 113 - d by omega,
    binary32_or hs (by omega) (by omega)]

/-- Narrowing puts the leading bit back and shifts it down again; nothing is rounded off. -/
theorem floatToHalf_subnormal :
    floatToHalf (binary32 s (113 - d) (2 ^ 13 * (2 ^ d * m - 2 ^ 10))) = binary16 s 0 m := by
  have hM : 2 ^ 13 * (2 ^ d * m - 2 ^ 10) < 2 ^ 23 := by omega
  have hbig : 2 ^ (13 + d) * m % 2 ^ 32 = 2 ^ (13 + d) * m := by
    refine Nat.mod_eq_of_lt ?_
    rw [Nat.pow_add, Nat.mul_assoc]
    omega
  have hmant : BitVec.ofNat 32 (2 ^ 13 * (2 ^ d * m - 2 ^ 10)) ||| 0x800000#32 =
      BitVec.ofNat 32 (2 ^ (13 + d) * m) := by
    apply BitVec.eq_of_toNat_eq
    rw [BitVec.toNat_or, BitVec.toNat_ofNat, BitVec.toNat_ofNat, BitVec.toNat_ofNat, Nat.or_comm,
      show 0x800000 % 2 ^ 32 = 2 ^ 23 * 1 from rfl,
      Nat.mod_eq_of_lt (by omega : 2 ^ 13 * (2 ^ d * m - 2 ^ 10) < 2 ^ 32),
      ← Nat.two_pow_add_eq_or_of_lt hM, Nat.pow_add, Nat.mul_assoc]
    omega
  have hshift : BitVec.ofNat 32 (2 ^ (13 + d) * m) >>> (13 + d) = BitVec.ofNat 32 m := by
    apply BitVec.eq_of_toNat_eq
    rw [BitVec.toNat_ushiftRight, BitVec.toNat_ofNat, BitVec.toNat_ofNat, Nat.shiftRight_eq_div_pow,
      hbig, Nat.mul_div_cancel_left _ (Nat.two_pow_pos _), Nat.mod_eq_of_lt (by omega)]
  have hone : ∀ k, k < 32 → (1#32 <<< k).toNat = 2 ^ k := by
    intro k hk
    rw [BitVec.toNat_shiftLeft, BitVec.toNat_ofNat, Nat.shiftLeft_eq,
      show 1 % 2 ^ 32 * 2 ^ k = 2 ^ k by omega, Nat.mod_eq_of_lt]
    exact Nat.pow_lt_pow_right (by omega) hk
  have hrem : BitVec.ofNat 32 (2 ^ (13 + d) * m) &&& ((1#32 <<< (13 + d)) - 1) = 0 := by
    have hpos := Nat.two_pow_pos (13 + d)
    have hlt : 2 ^ (13 + d) < 2 ^ 32 := Nat.pow_lt_pow_right (by omega) (by omega)
    have hmask : ((1#32 <<< (13 + d)) - 1).toNat = 2 ^ (13 + d) - 1 := by
      rw [BitVec.toNat_sub, hone _ (by omega), show (1 : BitVec 32).toNat = 1 from rfl]
      omega
    apply BitVec.eq_of_toNat_eq
    rw [BitVec.toNat_and, hmask, Nat.and_two_pow_sub_one_eq_mod, BitVec.toNat_ofNat, hbig,
      Nat.mul_mod_right]
    rfl
  have hset : (BitVec.ofNat 32 m).setWidth 16 = binary16 0 0 m := by
    apply BitVec.eq_of_toNat_eq
    rw [BitVec.toNat_setWidth, BitVec.toNat_ofNat, toNat_binary16 (by omega) (by omega) hm]
    omega
  have hexp : ((113 - d : Nat) : Int) - 127 + 15 = 1 - d := by omega
  have hsh : (14 - (1 - (d : Int))).toNat = 13 + d := by omega
  simp only [floatToHalf, binary32_sign hs (by omega : 113 - d < 256) hM,
    binary32_exp hs (by omega : 113 - d < 256) hM, binary32_mant hs (by omega : 113 - d < 256) hM,
    hexp, hsh, hmant, hshift, hrem]
  rw [if_neg (by omega), if_neg (by omega), if_pos (by omega), if_neg (by omega), if_neg, hset,
    ← binary16_or hs (by omega : 0 < 32) hm]
  · rw [show binary16 0 0 0 = 0#16 from rfl, BitVec.or_zero]
  · rintro (h | ⟨h, -⟩)
    · exact absurd h (by simp)
    · have := hone (13 + d - 1) (by omega)
      rw [← h, show (0 : BitVec 32).toNat = 0 from rfl] at this
      have := Nat.two_pow_pos (13 + d - 1)
      omega

end Subnormal

/-! ## Narrowing to binary16 -/

theorem floatToHalf_zero {s : Nat} (hs : s < 2) :
    floatToHalf (binary32 s 0 0) = binary16 s 0 0 := by
  simp only [floatToHalf, binary32_sign hs (by omega : 0 < 256) (by omega : 0 < 2 ^ 23),
    binary32_exp hs (by omega : 0 < 256) (by omega : 0 < 2 ^ 23)]
  rfl

theorem floatToHalf_special {s m : Nat} (hs : s < 2) (hm : m < 2 ^ 23) :
    floatToHalf (binary32 s 255 m) = binary16 s 31 (if m = 0 then 0 else 512) := by
  simp only [floatToHalf, binary32_sign hs (by omega : 255 < 256) hm,
    binary32_exp hs (by omega : 255 < 256) hm, binary32_mant hs (by omega : 255 < 256) hm, if_true]
  rw [show (0x7c00#16) = binary16 0 31 0 from rfl]
  by_cases h0 : m = 0
  · subst h0
    rw [if_neg (by simp), if_pos rfl, ← binary16_or hs (by omega : 31 < 32) (by omega : 0 < 1024)]
    rfl
  · have hne0 : BitVec.ofNat 32 m ≠ 0 := ofNat_ne (b := 0) (by omega) (by omega) h0
    rw [if_pos hne0, if_neg h0, ← binary16_or hs (by omega : 31 < 32) (by omega : 512 < 1024)]
    rfl

theorem floatToHalf_normal {s e m : Nat} (hs : s < 2) (h0 : 0 < e) (he : e < 31) (hm : m < 1024) :
    floatToHalf (binary32 s (e + 112) (2 ^ 13 * m)) = binary16 s e m := by
  have hE : e + 112 < 256 := by omega
  have hM : 2 ^ 13 * m < 2 ^ 23 := by omega
  have hshift : (BitVec.ofNat 32 (2 ^ 13 * m) >>> 13).setWidth 16 = binary16 0 0 m := by
    apply BitVec.eq_of_toNat_eq
    rw [BitVec.toNat_setWidth, BitVec.toNat_ushiftRight, BitVec.toNat_ofNat,
      toNat_binary16 (by omega) (by omega) hm, Nat.shiftRight_eq_div_pow]
    omega
  have hrem : BitVec.ofNat 32 (2 ^ 13 * m) &&& 0x1fff#32 = 0 := by
    apply BitVec.eq_of_toNat_eq
    rw [BitVec.toNat_and, BitVec.toNat_ofNat, BitVec.toNat_ofNat,
      show 0x1fff % 2 ^ 32 = 2 ^ 13 - 1 from rfl, Nat.and_two_pow_sub_one_eq_mod,
      show (0 : BitVec 32).toNat = 0 from rfl]
    omega
  have hexp : BitVec.ofNat 16 e <<< 10 = binary16 0 e 0 := by
    apply BitVec.eq_of_toNat_eq
    rw [BitVec.toNat_shiftLeft, BitVec.toNat_ofNat, toNat_binary16 (by omega) (by omega) (by omega),
      Nat.shiftLeft_eq]
    omega
  have he' : ((e + 112 : Nat) : Int) - 127 + 15 = e := by omega
  simp only [floatToHalf, binary32_sign hs hE hM, binary32_exp hs hE hM, binary32_mant hs hE hM,
    he', hshift, hrem, hexp, Int.toNat_natCast, binary16_or hs (by omega : e < 32) hm]
  rw [if_neg (by omega), if_neg (by omega), if_neg (by omega), if_neg]
  rintro (h | h)
  · exact absurd h (by decide)
  · exact absurd h.1 (by decide)

/-! ## Round trips -/

/-- Only the sign of a binary16 NaN survives, and a number survives whole. -/
theorem half_roundTrip {s e m : Nat} (hs : s < 2) (he : e < 32) (hm : m < 1024) :
    (isNaN (halfToFloat (binary16 s e m)) = true ↔ e = 31 ∧ m ≠ 0) ∧
    floatToHalf (halfToFloat (binary16 s e m)) =
      if e = 31 ∧ m ≠ 0 then binary16 s 31 512 else binary16 s e m := by
  by_cases h31 : e = 31
  · subst h31
    rw [halfToFloat_special hs hm, isNaN_binary32 hs (by omega) (by omega),
      floatToHalf_special hs (by omega)]
    refine ⟨by omega, ?_⟩
    by_cases h0 : m = 0
    · subst h0; rfl
    · rw [if_neg (by omega), if_pos ⟨rfl, h0⟩]
  rw [if_neg fun h => h31 h.1]
  by_cases h0 : e = 0
  · subst h0
    by_cases hm0 : m = 0
    · subst hm0
      rw [halfToFloat_zero hs, isNaN_binary32 hs (by omega) (by omega), floatToHalf_zero hs]
      exact ⟨by omega, rfl⟩
    · obtain ⟨d, hd, hd10, h1, h2⟩ := exists_shift hm0 hm
      rw [halfToFloat_subnormal hs hd hd10 h1 h2 hm, isNaN_binary32 hs (by omega) (by omega),
        floatToHalf_subnormal hs hd hd10 h1 h2 hm]
      exact ⟨by omega, rfl⟩
  · rw [halfToFloat_normal hs (by omega) (by omega) hm, isNaN_binary32 hs (by omega) (by omega),
      floatToHalf_normal hs (by omega) (by omega) hm]
    exact ⟨by omega, rfl⟩

theorem roundTrip_half : RoundTrip halfToFloat floatToHalf where
  number b hb := by
    obtain ⟨s, e, m, hs, he, hm, rfl⟩ := exists_binary16 b
    obtain ⟨hnan, htrip⟩ := half_roundTrip hs he hm
    rw [htrip, if_neg fun h => by simp [hnan.mpr h] at hb]
  nan b hb := by
    obtain ⟨s, e, m, hs, he, hm, rfl⟩ := exists_binary16 b
    obtain ⟨hnan, htrip⟩ := half_roundTrip hs he hm
    rw [htrip, if_pos (hnan.mp hb)]
    exact (half_roundTrip hs (by omega) (by omega)).1.mpr ⟨rfl, by omega⟩
  settled b hb := by
    obtain ⟨s, e, m, hs, he, hm, rfl⟩ := exists_binary16 b
    obtain ⟨hnan, htrip⟩ := half_roundTrip hs he hm
    rw [htrip, if_pos (hnan.mp hb), (half_roundTrip hs (by omega) (by omega)).2,
      if_pos ⟨rfl, by omega⟩]

theorem toNat_bf16ToFloat (b : BitVec 16) : (bf16ToFloat b).toNat = 2 ^ 16 * b.toNat := by
  have := b.isLt
  rw [bf16ToFloat, BitVec.toNat_shiftLeft, BitVec.toNat_setWidth, Nat.shiftLeft_eq]
  omega

theorem isNaN_bf16 (b : BitVec 16) : isNaN (bf16ToFloat b) = true ↔ 0x7f80 < b.toNat % 2 ^ 15 := by
  simp only [isNaN, mag, infMag, decide_eq_true_eq, toNat_bf16ToFloat]
  omega

theorem floatToBf16_bf16ToFloat (b : BitVec 16) :
    floatToBf16 (bf16ToFloat b) = if 0x7f80 < b.toNat % 2 ^ 15 then b ||| 0x40#16 else b := by
  have hb := b.isLt
  have hhi : bf16ToFloat b >>> 16 = b.setWidth 32 := by
    apply BitVec.eq_of_toNat_eq
    rw [BitVec.toNat_ushiftRight, toNat_bf16ToFloat, BitVec.toNat_setWidth,
      Nat.shiftRight_eq_div_pow]
    omega
  have htest : bf16ToFloat b &&& 0x7fffffff#32 > 0x7f800000#32 ↔ 0x7f80 < b.toNat % 2 ^ 15 := by
    rw [gt_iff_lt, BitVec.lt_def, BitVec.toNat_and, toNat_bf16ToFloat, BitVec.toNat_ofNat,
      BitVec.toNat_ofNat, show 0x7fffffff % 2 ^ 32 = 2 ^ 31 - 1 from rfl,
      Nat.and_two_pow_sub_one_eq_mod]
    omega
  simp only [floatToBf16, htest, hhi]
  split
  · apply BitVec.eq_of_toNat_eq
    have hlt : b.toNat ||| 64 < 2 ^ 16 := Nat.or_lt_two_pow hb (by omega)
    rw [BitVec.toNat_setWidth, BitVec.toNat_or, BitVec.toNat_or, BitVec.toNat_setWidth,
      Nat.mod_eq_of_lt (by omega : b.toNat < 2 ^ 32), BitVec.toNat_ofNat, BitVec.toNat_ofNat]
    exact Nat.mod_eq_of_lt hlt
  · apply BitVec.eq_of_toNat_eq
    rw [BitVec.toNat_setWidth, BitVec.toNat_ushiftRight, BitVec.toNat_add, toNat_bf16ToFloat,
      BitVec.toNat_add, BitVec.toNat_and, BitVec.toNat_setWidth, BitVec.toNat_ofNat,
      show (1 : BitVec 32).toNat = 2 ^ 1 - 1 from rfl, Nat.and_two_pow_sub_one_eq_mod,
      Nat.shiftRight_eq_div_pow, Nat.mod_eq_of_lt (by omega : b.toNat < 2 ^ 32)]
    have hbit : b.toNat % 2 ^ 1 < 2 := Nat.mod_lt _ (by omega)
    generalize b.toNat % 2 ^ 1 = c at hbit
    -- less than half of the last place is added, and nothing overflows
    have hround : (0x7fff % 2 ^ 32 + c) % 2 ^ 32 = 0x7fff + c := by omega
    rw [hround, Nat.mod_eq_of_lt (by omega : 2 ^ 16 * b.toNat + (0x7fff + c) < 2 ^ 32)]
    omega

theorem roundTrip_bf16 : RoundTrip bf16ToFloat floatToBf16 where
  number b hb := by
    rw [floatToBf16_bf16ToFloat, if_neg fun h => by simp [(isNaN_bf16 b).mpr h] at hb]
  nan b hb := by
    have h := (isNaN_bf16 b).mp hb
    rw [floatToBf16_bf16ToFloat, if_pos h, isNaN_bf16, BitVec.toNat_or, Nat.or_mod_two_pow]
    exact Nat.lt_of_lt_of_le h Nat.left_le_or
  settled b hb := by
    have h := (isNaN_bf16 b).mp hb
    rw [floatToBf16_bf16ToFloat b, if_pos h, floatToBf16_bf16ToFloat, BitVec.or_assoc,
      BitVec.or_self, ite_self]

end Vccl
