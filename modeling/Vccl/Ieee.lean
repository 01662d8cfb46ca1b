import Mathlib.Algebra.Order.Field.Power
import Mathlib.Algebra.Order.Field.Rat
import Mathlib.Algebra.Order.Group.Abs
import Mathlib.Algebra.Order.Ring.Abs
import Mathlib.Data.Nat.Dist
import Mathlib.Tactic.Linarith
import Mathlib.Tactic.Positivity
import Mathlib.Tactic.Ring

/-!
# Binary floating-point formats and correct rounding

A library; it names no program. A format has `p` bits of significand and `e` bits of exponent; a
number is a sign and a magnitude pattern `u`, exponent above significand. In units of the smallest
subnormal a magnitude is a natural number, `scaled p u`: the significand as it stands for exponent
zero, and with its leading bit, shifted by the exponent less one, otherwise. So the patterns are in
the order of their values, and the next value is `ulp p u` further (`scaled_succ`).

* `Nearest p k X u`: of all patterns, those above infinity included, `u` comes nearest to `X`, which
  is in units `2^k` times finer, and its last bit is zero when it shares this with another.
  `nearest_of_shift` is how it is found: shift the significand right and look at the bits shifted
  out.
* `Rounded p e limit v s s' u`: `u` with sign `s'` is the value `v` of sign `s` correctly rounded,
  in exact arithmetic: from `limit` on infinity, below it the nearest finite number, to the even one
  of two. There is only one (`Rounded.unique`). `rounded_of_nearest` leads from patterns to values.
-/

namespace Vccl.Ieee

/-! ## The values of a format -/

/-- The magnitude `u` in units of the smallest subnormal. -/
def scaled (p u : Nat) : Nat :=
  if u / 2 ^ p = 0 then u else (2 ^ p + u % 2 ^ p) * 2 ^ (u / 2 ^ p - 1)

/-- The distance from `u` to the next magnitude. -/
def ulp (p u : Nat) : Nat := 2 ^ (u / 2 ^ p - 1)

theorem ulp_pos (p u : Nat) : 0 < ulp p u := Nat.two_pow_pos _

theorem scaled_small {p u : Nat} (h : u < 2 ^ p) : scaled p u = u := if_pos (Nat.div_eq_of_lt h)

theorem scaled_fields {p e m : Nat} (he : 0 < e) (hm : m < 2 ^ p) :
    scaled p (2 ^ p * e + m) = (2 ^ p + m) * 2 ^ (e - 1) := by
  have hdiv : (2 ^ p * e + m) / 2 ^ p = e := by
    rw [Nat.mul_add_div (Nat.two_pow_pos p), Nat.div_eq_of_lt hm, Nat.add_zero]
  have hmod : (2 ^ p * e + m) % 2 ^ p = m := by rw [Nat.mul_add_mod, Nat.mod_eq_of_lt hm]
  rw [scaled, hdiv, hmod, if_neg (by omega)]

theorem ulp_fields {p e m : Nat} (hm : m < 2 ^ p) : ulp p (2 ^ p * e + m) = 2 ^ (e - 1) := by
  rw [ulp, Nat.mul_add_div (Nat.two_pow_pos p), Nat.div_eq_of_lt hm, Nat.add_zero]

theorem exists_fields (p u : Nat) : ∃ e m, m < 2 ^ p ∧ u = 2 ^ p * e + m :=
  ⟨u / 2 ^ p, u % 2 ^ p, Nat.mod_lt _ (Nat.two_pow_pos p), (Nat.div_add_mod u (2 ^ p)).symm⟩

/-- **The patterns are in the order of their values**, `ulp` apart. -/
theorem scaled_succ (p u : Nat) : scaled p (u + 1) = scaled p u + ulp p u := by
  obtain ⟨e, m, hm, rfl⟩ := exists_fields p u
  rw [ulp_fields hm]
  by_cases h : m + 1 < 2 ^ p
  · rw [Nat.add_assoc]
    rcases Nat.eq_zero_or_pos e with rfl | he
    · rw [Nat.mul_zero, Nat.zero_add, Nat.zero_add, scaled_small h, scaled_small hm]
      rfl
    · rw [scaled_fields he h, scaled_fields he hm, ← Nat.add_assoc, Nat.add_mul _ 1, Nat.one_mul]
  · -- the significand overflows into the exponent
    have hfull : m + 1 = 2 ^ p := by omega
    have hnext : 2 ^ p * e + m + 1 = 2 ^ p * (e + 1) + 0 := by rw [Nat.mul_succ]; omega
    rw [hnext, scaled_fields (Nat.succ_pos e) (Nat.two_pow_pos p), Nat.add_zero, Nat.succ_sub_one]
    rcases Nat.eq_zero_or_pos e with rfl | he
    · rw [Nat.mul_zero, Nat.zero_add, scaled_small hm, ← hfull]
      simp
    · rw [scaled_fields he hm]
      obtain ⟨d, rfl⟩ : ∃ d, e = d + 1 := ⟨e - 1, by omega⟩
      rw [Nat.add_sub_cancel, Nat.pow_succ, ← Nat.succ_mul]
      have hsum : (2 ^ p + m).succ = 2 ^ p * 2 := by omega
      rw [hsum, Nat.mul_assoc, Nat.mul_comm 2]

theorem scaled_strictMono (p : Nat) : StrictMono (scaled p) :=
  strictMono_nat_of_lt_succ fun u => by
    rw [scaled_succ]
    exact Nat.lt_add_of_pos_right (ulp_pos p u)

theorem scaled_inj {p u v : Nat} (h : scaled p u = scaled p v) : u = v :=
  (scaled_strictMono p).injective h

/-! ## The nearest pattern -/

/-- `u` comes nearest to `X`, in units `2 ^ k` times finer than the format's, ties to even. -/
structure Nearest (p k X u : Nat) : Prop where
  near : ∀ v, Nat.dist (scaled p u * 2 ^ k) X ≤ Nat.dist (scaled p v * 2 ^ k) X
  even : ∀ v, v ≠ u → Nat.dist (scaled p v * 2 ^ k) X = Nat.dist (scaled p u * 2 ^ k) X → u % 2 = 0

section Nearest

variable {p k X u : Nat}

theorem scaled_mul_lt {u v : Nat} (h : u < v) : scaled p u * 2 ^ k < scaled p v * 2 ^ k :=
  Nat.mul_lt_mul_of_pos_right (scaled_strictMono p h) (Nat.two_pow_pos k)

theorem scaled_mul_le {u v : Nat} (h : u ≤ v) : scaled p u * 2 ^ k ≤ scaled p v * 2 ^ k :=
  Nat.mul_le_mul_right _ ((scaled_strictMono p).monotone h)

/-- Between `u` and the next pattern, the remainder decides. -/
theorem nearest_of_remainder {a g : Nat} (hX : X = scaled p u * 2 ^ k + a)
    (hg : ulp p u * 2 ^ k = g) (ha : a < g) :
    Nearest p k X (if g < 2 * a ∨ (2 * a = g ∧ u % 2 = 1) then u + 1 else u) := by
  have hnext : scaled p (u + 1) * 2 ^ k = scaled p u * 2 ^ k + g := by
    rw [scaled_succ, Nat.add_mul, hg]
  have hbelow : ∀ v, v < u → scaled p v * 2 ^ k < scaled p u * 2 ^ k := fun v => scaled_mul_lt
  have habove : ∀ v, u + 1 < v → scaled p (u + 1) * 2 ^ k < scaled p v * 2 ^ k :=
    fun v => scaled_mul_lt
  -- where another pattern lies
  have hplace : ∀ v, v = u ∨ v = u + 1 ∨ v < u ∨ u + 1 < v := fun v => by omega
  constructor
  · intro v
    unfold Nat.dist
    rcases hplace v with rfl | rfl | hv | hv
    · split <;> omega
    · split <;> omega
    · have := hbelow v hv
      split <;> omega
    · have := habove v hv
      split <;> omega
  · intro v hne
    unfold Nat.dist
    rcases hplace v with rfl | rfl | hv | hv
    · split at hne <;> [skip; exact absurd rfl hne]
      rename_i hup
      rw [if_pos hup]
      omega
    · split at hne <;> [exact absurd rfl hne; skip]
      rename_i hup
      rw [if_neg hup]
      omega
    · have := hbelow v hv
      split <;> omega
    · have := habove v hv
      split <;> omega

/-- `u` or the next pattern, as the `s` bits of `M` that are shifted out decide. -/
def shiftRound (M s u : Nat) : Nat :=
  if 2 ^ (s - 1) < M % 2 ^ s ∨ (M % 2 ^ s = 2 ^ (s - 1) ∧ u % 2 = 1) then u + 1 else u

theorem shiftRound_le (M s u : Nat) : shiftRound M s u ≤ u + 1 := by
  unfold shiftRound
  split <;> omega

/-- **Rounding by a right shift.** `M` shifted by `s` places is `u`, and what is shifted out decides
between `u` and the next pattern. -/
theorem nearest_of_shift {M s c : Nat} (hs : 0 < s) (hc : 0 < c) (hX : X = M * c)
    (hu : scaled p u * 2 ^ k = M / 2 ^ s * (2 ^ s * c)) (hg : ulp p u * 2 ^ k = 2 ^ s * c) :
    Nearest p k X (shiftRound M s u) := by
  have hsplit : X = scaled p u * 2 ^ k + M % 2 ^ s * c := by
    rw [hX, hu, ← Nat.mul_assoc, ← Nat.add_mul, Nat.div_add_mod']
  have hrem : M % 2 ^ s * c < 2 ^ s * c :=
    Nat.mul_lt_mul_of_pos_right (Nat.mod_lt _ (Nat.two_pow_pos s)) hc
  have hhalf : 2 ^ s * c = 2 * (2 ^ (s - 1) * c) := by
    rw [← Nat.mul_assoc, ← Nat.pow_succ', Nat.succ_eq_add_one, Nat.sub_add_cancel hs]
  have h := nearest_of_remainder hsplit hg hrem
  have hlt : 2 ^ s * c < 2 * (M % 2 ^ s * c) ↔ 2 ^ (s - 1) < M % 2 ^ s := by
    rw [hhalf, Nat.mul_lt_mul_left (by omega), Nat.mul_lt_mul_right hc]
  have heq : 2 * (M % 2 ^ s * c) = 2 ^ s * c ↔ M % 2 ^ s = 2 ^ (s - 1) := by
    rw [hhalf, Nat.mul_right_inj (by omega), Nat.mul_left_inj (by omega)]
  simp only [hlt, heq] at h
  exact h

/-- Below half of the smallest subnormal. -/
theorem nearest_zero (h : 2 * X < 2 ^ k) : Nearest p k X 0 := by
  have h0 : scaled p 0 = 0 := scaled_small (Nat.two_pow_pos p)
  have hu : ulp p 0 * 2 ^ k = 2 ^ k := by rw [ulp, Nat.zero_div, Nat.pow_zero, Nat.one_mul]
  have hn := nearest_of_remainder (p := p) (k := k) (X := X) (u := 0) (a := X) (by rw [h0]; omega) hu
    (by omega)
  rwa [if_neg (by omega)] at hn

/-- Below the midpoint of `t - 1` and `t`, the nearest pattern is not `t`. -/
theorem Nearest.lt_of_lt {t : Nat} (h : Nearest p k X u) (ht : 0 < t)
    (hX : 2 * X < scaled p (t - 1) * 2 ^ k + scaled p t * 2 ^ k) : u < t := by
  refine Classical.byContradiction fun hge => ?_
  have hnear := h.near (t - 1)
  have hle : scaled p t * 2 ^ k ≤ scaled p u * 2 ^ k := scaled_mul_le (by omega)
  have hlt : scaled p (t - 1) * 2 ^ k < scaled p t * 2 ^ k := scaled_mul_lt (by omega)
  unfold Nat.dist at hnear
  omega

/-- From the midpoint on, an even `t` is preferred to what lies below. -/
theorem Nearest.le_of_le {t : Nat} (h : Nearest p k X u) (ht : 0 < t) (heven : t % 2 = 0)
    (hX : scaled p (t - 1) * 2 ^ k + scaled p t * 2 ^ k ≤ 2 * X) : t ≤ u := by
  refine Classical.byContradiction fun hlt => ?_
  have hnear := h.near t
  have hle : scaled p u * 2 ^ k ≤ scaled p (t - 1) * 2 ^ k := scaled_mul_le (by omega)
  have htt : scaled p (t - 1) * 2 ^ k < scaled p t * 2 ^ k := scaled_mul_lt (by omega)
  by_cases hu : u = t - 1
  · have heq : Nat.dist (scaled p t * 2 ^ k) X = Nat.dist (scaled p u * 2 ^ k) X := by
      subst hu
      unfold Nat.dist at hnear ⊢
      omega
    have := h.even t (by omega) heq
    omega
  · have hlt' : scaled p u * 2 ^ k < scaled p (t - 1) * 2 ^ k := scaled_mul_lt (by omega)
    unfold Nat.dist at hnear
    omega

end Nearest

/-! ## Correct rounding -/

/-- The exponent of the smallest subnormal. -/
def unit (p e : Nat) : ℤ := 2 - 2 ^ (e - 1) - p

/-- The value of sign `s` and magnitude `u`. -/
def value (p e : Nat) (s : Bool) (u : Nat) : ℚ :=
  (if s then -1 else 1) * (scaled p u * 2 ^ unit p e)

/-- The magnitude of infinity; the magnitudes below are finite. -/
def infinity (p e : Nat) : Nat := 2 ^ p * (2 ^ e - 1)

/-- Sign `s'` and magnitude `u` are `v`, of sign `s`, rounded to the nearest number of the format,
ties to even, and to infinity from `limit` on. -/
structure Rounded (p e : Nat) (limit v : ℚ) (s s' : Bool) (u : Nat) : Prop where
  sign : s' = s
  infinite : limit ≤ |v| → u = infinity p e
  finite : |v| < limit → u < infinity p e
  near : |v| < limit → ∀ t z, z < infinity p e → |value p e s' u - v| ≤ |value p e t z - v|
  even : |v| < limit → ∀ t z, z < infinity p e → |value p e t z - v| = |value p e s' u - v| →
    value p e t z ≠ value p e s' u → u % 2 = 0

section Rounded

variable {p e : Nat}

theorem cast_dist (a b : Nat) : (Nat.dist a b : ℚ) = |(a : ℚ) - b| := by
  unfold Nat.dist
  rcases Nat.le_total a b with h | h
  · have hq : (a : ℚ) ≤ b := Nat.cast_le.mpr h
    rw [Nat.sub_eq_zero_of_le h, Nat.zero_add, Nat.cast_sub h, abs_of_nonpos (by linarith)]
    ring
  · have hq : (b : ℚ) ≤ a := Nat.cast_le.mpr h
    rw [Nat.sub_eq_zero_of_le h, Nat.add_zero, Nat.cast_sub h, abs_of_nonneg (by linarith)]

/-- A value in units that are `2 ^ k` times finer. -/
theorem value_eq {w : ℤ} {k : Nat} (hw : unit p e = w + k) (s : Bool) (u : Nat) :
    value p e s u = (if s then -1 else 1) * (((scaled p u * 2 ^ k : Nat) : ℚ) * 2 ^ w) := by
  rw [value, hw, zpow_add₀ (by norm_num), zpow_natCast]
  push_cast
  ring

theorem abs_value {x : ℚ} (hx : 0 ≤ x) (s : Bool) : |(if s then -1 else 1) * x| = x := by
  cases s
  · rw [if_neg (by decide), one_mul, abs_of_nonneg hx]
  · rw [if_pos rfl, neg_one_mul, abs_neg, abs_of_nonneg hx]

/-- The distance of a value from a number, in finer units. -/
theorem abs_value_sub {w : ℤ} {k : Nat} (hw : unit p e = w + k) (s t : Bool) (z X : Nat) :
    |value p e t z - (if s then -1 else 1) * ((X : ℚ) * 2 ^ w)| =
      ((if t = s then Nat.dist (scaled p z * 2 ^ k) X else scaled p z * 2 ^ k + X : Nat) : ℚ) *
        2 ^ w := by
  rw [value_eq hw]
  generalize scaled p z * 2 ^ k = V
  have hpos : (0 : ℚ) ≤ 2 ^ w := by positivity
  have hsame : |(V : ℚ) * 2 ^ w - X * 2 ^ w| = (Nat.dist V X : ℚ) * 2 ^ w := by
    rw [cast_dist, ← sub_mul, abs_mul, abs_of_nonneg hpos]
  have hother : |(V : ℚ) * 2 ^ w + X * 2 ^ w| = ((V + X : Nat) : ℚ) * 2 ^ w := by
    rw [← add_mul, abs_of_nonneg (by positivity), Nat.cast_add]
  cases s <;> cases t <;>
    simp only [Bool.false_eq_true, Bool.true_eq_false, if_false, if_true, one_mul, neg_one_mul]
  · exact hsame
  · rw [← hother, ← abs_neg]
    congr 1
    ring
  · rw [← hother, sub_neg_eq_add]
  · rw [← hsame, ← abs_neg]
    congr 1
    ring

section FromNearest

variable {k X L u : Nat} {w : ℤ} {s : Bool} (hw : unit p e = w + k)

theorem limit_le_iff : (L : ℚ) * 2 ^ w ≤ |(if s then -1 else 1) * ((X : ℚ) * 2 ^ w)| ↔ L ≤ X := by
  rw [abs_value (by positivity), mul_le_mul_iff_left₀ (by positivity), Nat.cast_le]

/-- What lies at the limit or above becomes infinity. -/
theorem rounded_of_overflow (h : L ≤ X) :
    Rounded p e (L * 2 ^ w) ((if s then -1 else 1) * ((X : ℚ) * 2 ^ w)) s s (infinity p e) := by
  have hno : ¬ |(if s then -1 else 1) * ((X : ℚ) * 2 ^ w)| < L * 2 ^ w :=
    not_lt.mpr (limit_le_iff.mpr h)
  exact ⟨rfl, fun _ => rfl, fun hlt => absurd hlt hno, fun hlt => absurd hlt hno,
    fun hlt => absurd hlt hno⟩

include hw

/-- **The nearest pattern is the correctly rounded value.** `L` is the midpoint of the largest finite
magnitude and the next. -/
theorem rounded_of_nearest (hp : 0 < p) (he : 0 < e)
    (hL : 2 * L = scaled p (infinity p e - 1) * 2 ^ k + scaled p (infinity p e) * 2 ^ k)
    (hn : Nearest p k X u) (hu : u ≤ infinity p e) :
    Rounded p e (L * 2 ^ w) ((if s then -1 else 1) * ((X : ℚ) * 2 ^ w)) s s u := by
  have hinf : 0 < infinity p e := by
    have : 2 ^ 1 ≤ 2 ^ e := Nat.pow_le_pow_right (by omega) he
    exact Nat.mul_pos (Nat.two_pow_pos p) (by omega)
  have heven : infinity p e % 2 = 0 := by
    obtain ⟨q, rfl⟩ : ∃ q, p = q + 1 := ⟨p - 1, by omega⟩
    rw [infinity, Nat.pow_succ, Nat.mul_comm _ 2, Nat.mul_assoc, Nat.mul_mod_right]
  have hpos : (0 : ℚ) < 2 ^ w := by positivity
  have h0 : scaled p 0 * 2 ^ k = 0 := by rw [scaled_small (Nat.two_pow_pos p), Nat.zero_mul]
  have hzero : Nat.dist (scaled p 0 * 2 ^ k) X = X := by
    rw [h0]
    unfold Nat.dist
    omega
  refine ⟨rfl, fun h => ?_, fun h => ?_, fun _ t z _ => ?_, fun _ t z _ heq hne => ?_⟩
  · have := hn.le_of_le hinf heven (by have := limit_le_iff.mp h; omega)
    omega
  · have hlt : X < L := by
      refine Classical.byContradiction fun hge => absurd h (not_lt.mpr (limit_le_iff.mpr ?_))
      omega
    exact hn.lt_of_lt hinf (by omega)
  · rw [abs_value_sub hw, abs_value_sub hw, mul_le_mul_iff_left₀ hpos, Nat.cast_le, if_pos rfl]
    split
    · exact hn.near z
    · have := hn.near 0
      omega
  · rw [abs_value_sub hw, abs_value_sub hw, mul_left_inj' hpos.ne', Nat.cast_inj, if_pos rfl] at heq
    split at heq
    · rename_i hts
      subst hts
      exact hn.even z (fun hz => hne (by rw [hz])) heq
    · -- the other sign: only zero is as near
      by_cases hu0 : u = 0
      · rw [hu0]
      · have := hn.near 0
        exact hn.even 0 (fun h => hu0 h.symm) (by omega)

end FromNearest

theorem value_sign_lt {s : Bool} {u v : Nat} (h : u < v) :
    if s then value p e s v < value p e s u else value p e s u < value p e s v := by
  have hlt : (scaled p u : ℚ) < scaled p v := Nat.cast_lt.mpr (scaled_strictMono p h)
  have hmul : (scaled p u : ℚ) * 2 ^ unit p e < scaled p v * 2 ^ unit p e :=
    mul_lt_mul_of_pos_right hlt (by positivity)
  cases s
  · simpa [value] using hmul
  · simpa [value] using hmul

/-- Two finite magnitudes that both round `v` are not in order. -/
theorem Rounded.not_before {limit v : ℚ} {s : Bool} {u₁ u₂ : Nat} (h₁ : Rounded p e limit v s s u₁)
    (h₂ : Rounded p e limit v s s u₂) (hv : |v| < limit) : ¬ u₁ < u₂ := by
  intro hlt
  have hf₁ := h₁.finite hv
  have hf₂ := h₂.finite hv
  have heq : |value p e s u₁ - v| = |value p e s u₂ - v| :=
    le_antisymm (h₁.near hv s u₂ hf₂) (h₂.near hv s u₁ hf₁)
  have hord := value_sign_lt (p := p) (e := e) (s := s) hlt
  have hne : value p e s u₁ ≠ value p e s u₂ := by
    cases s
    · exact ne_of_lt (by simpa using hord)
    · exact ne_of_gt (by simpa using hord)
  have he₁ := h₁.even hv s u₂ hf₂ heq.symm hne.symm
  have he₂ := h₂.even hv s u₁ hf₁ heq hne
  -- both are even, so that a pattern lies between them, and it is nearer
  have hnear := h₁.near hv s (u₁ + 1) (by omega)
  have hbelow := value_sign_lt (p := p) (e := e) (s := s) (Nat.lt_succ_self u₁)
  have habove := value_sign_lt (p := p) (e := e) (s := s) (show u₁ + 1 < u₂ by omega)
  cases s
  · simp only [Bool.false_eq_true, if_false] at hord hbelow habove
    rcases abs_cases (value p e false u₁ - v) with ⟨h, _⟩ | ⟨h, _⟩ <;>
      rcases abs_cases (value p e false u₂ - v) with ⟨h', _⟩ | ⟨h', _⟩ <;>
      rcases abs_cases (value p e false (u₁ + 1) - v) with ⟨h'', _⟩ | ⟨h'', _⟩ <;> linarith
  · simp only [if_true] at hord hbelow habove
    rcases abs_cases (value p e true u₁ - v) with ⟨h, _⟩ | ⟨h, _⟩ <;>
      rcases abs_cases (value p e true u₂ - v) with ⟨h', _⟩ | ⟨h', _⟩ <;>
      rcases abs_cases (value p e true (u₁ + 1) - v) with ⟨h'', _⟩ | ⟨h'', _⟩ <;> linarith

/-- **A number has one correct rounding.** -/
theorem Rounded.unique {limit v : ℚ} {s s₁ s₂ : Bool} {u₁ u₂ : Nat}
    (h₁ : Rounded p e limit v s s₁ u₁) (h₂ : Rounded p e limit v s s₂ u₂) :
    s₁ = s₂ ∧ u₁ = u₂ := by
  obtain rfl := h₁.sign
  obtain rfl := h₂.sign
  refine ⟨rfl, ?_⟩
  by_cases hv : |v| < limit
  · have hlt := h₁.not_before h₂ hv
    have hgt := h₂.not_before h₁ hv
    omega
  · have hle := not_lt.mp hv
    rw [h₁.infinite hle, h₂.infinite hle]

end Rounded

end Vccl.Ieee
