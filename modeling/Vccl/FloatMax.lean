import Vccl.AllReduceLaws
import Vccl.Codec16
import Vccl.Net.Pick

/-!
# Floating-point maxima and minima (`applyOp`, `reduce16`, `doAllReduce`)

`a > b ? a : b` takes `b` when an operand is a NaN and when the operands are `+0` and `-0`, so it
depends on the order of its operands there. As an operation on elements it is `Net.pick`: the key of
an element is its number, a NaN has none, and what is taken passes through the codec of a 16-bit
type (`quiet`), which only changes NaNs. `a < b ? a : b` is the same with the order turned around.

Partners of the doubling core evaluate the pair in opposite orders. So all ranks return the same
bits when the ring is taken, and on the logarithmic paths exactly when the elements that enter the
core are decided (`Net.Decided`): all of them NaNs that narrow to one, or none a NaN and the largest
bit-identical.
-/

namespace Vccl

open Net (butterfly pick Settles Decided)

/-! ## Elements as bytes and as bits -/

theorem natWord_wordNat : ∀ {e : Nat} (x : Word e), natWord e (wordNat x) = x
  | 0, x => funext fun j => j.elim0
  | e + 1, x => by
    have h0 := (x 0).toNat_lt
    funext j
    refine Fin.cases ?_ (fun j => ?_) j
    · simp only [natWord, wordNat, Fin.val_zero, Nat.pow_zero, Nat.div_one]
      rw [Nat.add_mul_mod_self_left, Nat.mod_eq_of_lt h0, UInt8.ofNat_toNat]
    · have ih := congrFun (natWord_wordNat fun j => x (Fin.succ j)) j
      simp only [natWord, wordNat, Fin.val_succ] at ih ⊢
      rw [Nat.pow_succ, Nat.mul_comm (256 ^ _), ← Nat.div_div_eq_div_mul,
        Nat.add_mul_div_left _ _ (by decide : 0 < 256), Nat.div_eq_of_lt h0, Nat.zero_add]
      exact ih

theorem wordNat_lt : ∀ {e : Nat} (x : Word e), wordNat x < 256 ^ e
  | 0, _ => by simp [wordNat]
  | e + 1, x => by
    have h0 := (x 0).toNat_lt
    have ih := wordNat_lt fun j => x (Fin.succ j)
    simp only [wordNat, Nat.pow_succ]
    omega

theorem ofBits_bits {e : Nat} (x : Word e) : ofBits (bits x) = x := by
  have hp : 256 ^ e = 2 ^ (8 * e) := by rw [Nat.pow_mul]
  rw [ofBits, bits, BitVec.toNat_ofNat, ← hp, Nat.mod_eq_of_lt (wordNat_lt x), natWord_wordNat]

/-! ## The order of the elements -/

/-- The number a pattern stands for, by its place in the order; a NaN is none. -/
def patKey {w : Nat} (x : BitVec w) : Option Int := if isNaN x then none else some (key x)

/-- The number of an element of a floating-point type. -/
def numKey : (dt : DataType) → Word (typeSize dt) → Option Int
  | .float32 => fun x => patKey (bits (e := 4) x)
  | .float64 => fun x => patKey (bits (e := 8) x)
  | .float16 => fun x => patKey (halfToFloat (bits (e := 2) x))
  | .bfloat16 => fun x => patKey (bf16ToFloat (bits (e := 2) x))
  | _ => fun _ => none

/-- What is left of an element that was widened and narrowed. -/
def quiet : (dt : DataType) → Word (typeSize dt) → Word (typeSize dt)
  | .float16 => fun x => ofBits (e := 2) (floatToHalf (halfToFloat (bits x)))
  | .bfloat16 => fun x => ofBits (e := 2) (floatToBf16 (bf16ToFloat (bits x)))
  | _ => fun x => x

/-- The key an operation prefers large: the number for `vcclMax`, its negative for `vcclMin`. -/
def orderKey (op : RedOp) (dt : DataType) (x : Word (typeSize dt)) : Option Int :=
  if op = .min then (numKey dt x).map fun i => -i else numKey dt x

theorem patKey_eq_none {w : Nat} {x : BitVec w} : patKey x = none ↔ isNaN x = true := by
  unfold patKey
  split <;> simp_all

section View

variable {α : Type} {w : Nat} (view : α → BitVec w) {a b : α}

/-- `a > b` compares the numbers. -/
theorem beats_iff_fgt :
    Net.Beats (fun x => patKey (view x)) a b ↔ fgt (view a) (view b) = true := by
  unfold fgt Net.Beats patKey
  cases ha : isNaN (view a) <;> cases hb : isNaN (view b) <;> simp [ha, hb]

/-- `a < b` compares them the other way round. -/
theorem beats_neg_iff_fgt : Net.Beats (fun x => (patKey (view x)).map fun i => -i) a b ↔
    fgt (view b) (view a) = true := by
  unfold fgt Net.Beats patKey
  cases ha : isNaN (view a) <;> cases hb : isNaN (view b) <;> simp [ha, hb]

/-- The maximum and minimum of the viewed patterns pick an operand. -/
theorem applyFloat_view {add mul : BitVec w → BitVec w → BitVec w} {op : RedOp}
    (hop : op = .max ∨ op = .min) :
    applyFloat add mul op (view a) (view b) =
      view (if Net.Beats (fun x => if op = .min then (patKey (view x)).map fun i => -i
        else patKey (view x)) a b then a else b) := by
  rcases hop with rfl | rfl
  · simp only [applyFloat, reduceCtorEq, if_false, beats_iff_fgt, apply_ite view]
  · simp only [applyFloat, if_true, beats_neg_iff_fgt, apply_ite view]

end View

/-- **Maximum and minimum pick one of their operands**, and treat the two differently. -/
theorem applyOp_pick (F : FloatArith) {dt : DataType} (hdt : isFloatType dt = true) {op : RedOp}
    (hop : op = .max ∨ op = .min) : applyOp F op dt = pick (quiet dt) (orderKey op dt) := by
  funext a b
  cases dt with
  | int8 | uint8 | int32 | uint32 | int64 | uint64 => exact absurd hdt (by decide)
  | float32 =>
    exact (congrArg (ofBits (e := 4)) (applyFloat_view (bits (e := 4)) hop)).trans (ofBits_bits _)
  | float64 =>
    exact (congrArg (ofBits (e := 8)) (applyFloat_view (bits (e := 8)) hop)).trans (ofBits_bits _)
  | float16 =>
    exact congrArg (fun x => ofBits (e := 2) (floatToHalf x))
      (applyFloat_view (fun x => halfToFloat (bits (e := 2) x)) hop)
  | bfloat16 =>
    exact congrArg (fun x => ofBits (e := 2) (floatToBf16 x))
      (applyFloat_view (fun x => bf16ToFloat (bits (e := 2) x)) hop)

theorem settles_codec {toFloat : BitVec 16 → BitVec 32} {fromFloat : BitVec 32 → BitVec 16}
    (h : RoundTrip toFloat fromFloat) :
    Settles (fun x : Word 2 => ofBits (e := 2) (fromFloat (toFloat (bits x))))
      fun x => patKey (toFloat (bits x)) where
  keyed x hx := by
    rw [Ne, patKey_eq_none, Bool.not_eq_true] at hx
    rw [h.number _ hx, ofBits_bits]
  keyless x hx := by
    rw [patKey_eq_none] at hx ⊢
    rw [bits_ofBits]
    exact h.nan _ hx
  idem x := by
    rw [bits_ofBits]
    cases hx : isNaN (toFloat (bits x)) with
    | true => rw [h.settled _ hx]
    | false => rw [h.number _ hx, h.number _ hx]

/-- The codecs change NaNs only, and only once. -/
theorem settles_quiet {dt : DataType} (hdt : isFloatType dt = true) (op : RedOp) :
    Settles (quiet dt) (orderKey op dt) := by
  have hnum : Settles (quiet dt) (numKey dt) := by
    cases dt with
    | int8 | uint8 | int32 | uint32 | int64 | uint64 => exact absurd hdt (by decide)
    | float32 | float64 => exact ⟨fun _ _ => rfl, fun _ h => h, fun _ => rfl⟩
    | float16 => exact settles_codec roundTrip_half
    | bfloat16 => exact settles_codec roundTrip_bf16
  have hnone : ∀ x, orderKey op dt x = none ↔ numKey dt x = none := by
    intro x
    unfold orderKey
    split
    · exact Option.map_eq_none_iff
    · exact Iff.rfl
  exact ⟨fun x hx => hnum.keyed x fun h => hx ((hnone x).mpr h),
    fun x hx => (hnone _).mpr (hnum.keyless x ((hnone x).mp hx)), hnum.idem⟩

/-! ## Agreement of the ranks -/

/-- How many values enter the doubling core. -/
def coreSize (n : Nat) : Nat := if pow2 n then n else elimP2 n

/-- Element `k` of the `j`-th of them: an input, or what a pair of ranks was folded into. -/
def coreInput (K : Kernels) (dt : DataType) (op : RedOp) (n : Nat)
    (x : Nat → Nat → Word (typeSize dt)) (k j : Nat) : Word (typeSize dt) :=
  if pow2 n then x j k else folded K dt op x (n - elimP2 n) j k

theorem coreSize_eq {n : Nat} (hn : 2 ≤ n) : ∃ i, 0 < i ∧ coreSize n = 2 ^ i := by
  unfold coreSize
  cases hp : pow2 n with
  | true => exact pow2_iff.mp hp
  | false =>
    obtain ⟨i, hi, h1, h2⟩ := elimP2_spec (by omega : 0 < n)
    refine ⟨i, ?_, hi⟩
    rcases Nat.eq_zero_or_pos i with rfl | h
    · simp at h2; omega
    · exact h

/-- On a logarithmic path the ranks hold the values of the core, and each value is some rank's. -/
theorem agree_core_iff {K : Kernels} {dt : DataType} {op : RedOp} {n count k : Nat}
    {x : Nat → Nat → Word (typeSize dt)} (hop : op ≠ .avg) (hn : 2 ≤ n) {i : Nat}
    (hi : coreSize n = 2 ^ i) :
    (∀ r, r < n → ∀ r', r' < n → allReduced K dt op true n count x r k =
      allReduced K dt op true n count x r' k) ↔
    ∀ j, j < 2 ^ i → ∀ j', j' < 2 ^ i →
      butterfly (K.reduce dt op) (coreInput K dt op n x k) i j =
        butterfly (K.reduce dt op) (coreInput K dt op n x k) i j' := by
  unfold coreSize at hi
  cases hp : pow2 n with
  | true =>
    rw [hp, if_pos rfl] at hi
    subst hi
    have hin : coreInput K dt op (2 ^ i) x k = fun j => x j k := by
      funext j
      rw [coreInput, hp, if_pos rfl]
    simp only [allReduced, averaged, if_neg hop, if_neg (by omega : ¬ 2 ^ i = 1), hp, if_true,
      doubled, steps_two_pow, hin]
  | false =>
    rw [hp, if_neg (by decide)] at hi
    have hval : ∀ r, allReduced K dt op true n count x r k = butterfly (K.reduce dt op)
        (coreInput K dt op n x k) i (survivor (n - elimP2 n) r) := by
      intro r
      simp only [allReduced, averaged, if_neg hop, if_neg (by omega : ¬ n = 1), hp, if_true,
        Bool.false_eq_true, if_false, doubled]
      rw [show steps (elimP2 n) = i by rw [hi, steps_two_pow]]
      unfold coreInput
      rw [hp]
      rfl
    have honto : ∀ j, j < 2 ^ i → ∃ r, r < n ∧ survivor (n - elimP2 n) r = j := by
      intro j hj
      obtain ⟨l, hl, h1, h2⟩ := elimP2_spec (by omega : 0 < n)
      refine ⟨if j < n - elimP2 n then 2 * j else j + (n - elimP2 n), ?_, ?_⟩
      · split <;> omega
      · unfold survivor
        split <;> split <;> omega
    constructor
    · intro h j hj j' hj'
      obtain ⟨r, hr, rfl⟩ := honto j hj
      obtain ⟨r', hr', rfl⟩ := honto j' hj'
      rw [← hval, ← hval, h r hr r' hr']
    · intro h r hr r' hr'
      rw [hval, hval]
      exact h _ (by rw [← hi]; exact survivor_lt (by omega) hr) _
        (by rw [← hi]; exact survivor_lt (by omega) hr')

/-- The inputs on which the ranks agree: any on the ring, decided ones on the logarithmic paths. -/
def Agreeable (F : FloatArith) (dt : DataType) (op : RedOp) (log : Bool) (n count : Nat)
    (x : Nat → Nat → Word (typeSize dt)) : Prop :=
  log = false ∨ ∀ k, k < count →
    Decided (quiet dt) (orderKey op dt) (coreInput (cpuKernels F) dt op n x k) (coreSize n)

theorem allReduced_agree_iff (F : FloatArith) {dt : DataType} {op : RedOp} {log : Bool}
    {n count : Nat} {x : Nat → Nat → Word (typeSize dt)} (hdt : isFloatType dt = true)
    (hop : op = .max ∨ op = .min) (hn : 2 ≤ n) :
    (∀ r, r < n → ∀ r', r' < n → ∀ k, k < count →
      allReduced (cpuKernels F) dt op log n count x r k =
        allReduced (cpuKernels F) dt op log n count x r' k) ↔
    Agreeable F dt op log n count x := by
  have havg : op ≠ .avg := by rcases hop with rfl | rfl <;> decide
  unfold Agreeable
  cases log with
  | false =>
    -- around the ring every element is computed once
    refine iff_of_true (fun r _ r' _ k _ => ?_) (.inl rfl)
    simp only [allReduced, Bool.false_eq_true, if_false, if_neg (by omega : ¬ n = 1)]
  | true =>
    obtain ⟨i, hi0, hi⟩ := coreSize_eq hn
    have hpick : (cpuKernels F).reduce dt op = pick (quiet dt) (orderKey op dt) :=
      applyOp_pick F hdt hop
    have hone : ∀ k, (∀ r, r < n → ∀ r', r' < n →
        allReduced (cpuKernels F) dt op true n count x r k =
          allReduced (cpuKernels F) dt op true n count x r' k) ↔
        Decided (quiet dt) (orderKey op dt) (coreInput (cpuKernels F) dt op n x k)
          (coreSize n) := by
      intro k
      rw [agree_core_iff havg hn hi, hpick, hi]
      exact Net.butterfly_pick_agree_iff (settles_quiet hdt op) hi0
    constructor
    · exact fun h => .inr fun k hk => (hone k).mp fun r hr r' hr' => h r hr r' hr' k hk
    · rintro (h | h) r hr r' hr' k hk
      · cases h
      · exact (hone k).mpr (h k hk) r hr r' hr'

/-- Every run ends, and all ranks then have the same bits. -/
def FloatAgree (F : FloatArith) (n : Nat) (env : Nat → AlgoEnv) (sendbuff recvbuff : Nat → Ptr)
    (count : Nat) (dt : DataType) (op : RedOp) (m : Nat → Mem) : Prop :=
  Net.Ends Net.Step
    (system (cpuKernels F) n
      (fun r => doAllReduce (env r) n r (sendbuff r) (recvbuff r) count dt op none) m)
    fun c => (∀ r, c.code r = []) ∧ ∀ r, r < n → ∀ r', r' < n → ∀ k, k < count →
      word (typeSize dt) (c.mem r) (recvbuff r) k = word (typeSize dt) (c.mem r') (recvbuff r') k

/-- The collective agrees when its values do. -/
theorem floatAgree_iff (F : FloatArith) (log : Bool) {n : Nat} (hn : 2 ≤ n) {env : Nat → AlgoEnv}
    {sendbuff recvbuff : Nat → Ptr} {count : Nat} {dt : DataType} {op : RedOp} {m : Nat → Mem}
    (henv : ∀ r, r < n → (env r).logPath 262144 (count * typeSize dt) = log)
    (hobj : ∀ r, r < n → (recvbuff r).obj ≠ .scratch) :
    FloatAgree F n env sendbuff recvbuff count dt op m ↔
      ∀ r, r < n → ∀ r', r' < n → ∀ k, k < count →
        allReduced (cpuKernels F) dt op log n count
            (fun p k => word (typeSize dt) (m p) (sendbuff p) k) r k =
          allReduced (cpuKernels F) dt op log n count
            (fun p k => word (typeSize dt) (m p) (sendbuff p) k) r' k := by
  refine (ends_doAllReduce (cpuKernels F) (by omega) sendbuff op (fun _ => none) m henv hobj).ends_iff fun c hc => ?_
  obtain ⟨hdone, hval⟩ := hc
  rw [and_iff_right hdone]
  refine forall₅_congr fun r hr r' hr' k => forall_congr' fun hk => ?_
  rw [hval r hr k hk, hval r' hr' k hk]
  rfl

/-- **When floating-point maxima and minima agree.** On the ring all ranks return the same bits; on
the logarithmic paths they do exactly when, at every index, the values that enter the doubling core
are decided. -/
theorem floatMax_agree_iff (F : FloatArith) (n : Nat) (hn : 2 ≤ n) (env : Nat → AlgoEnv)
    (log : Bool) (sendbuff recvbuff : Nat → Ptr) (count : Nat) (dt : DataType) (op : RedOp)
    (m : Nat → Mem) (hdt : isFloatType dt = true) (hop : op = .max ∨ op = .min)
    (henv : ∀ r, r < n → (env r).logPath 262144 (count * typeSize dt) = log)
    (hobj : ∀ r, r < n → (recvbuff r).obj ≠ .scratch) :
    FloatAgree F n env sendbuff recvbuff count dt op m ↔
      Agreeable F dt op log n count fun p k => word (typeSize dt) (m p) (sendbuff p) k := by
  rw [floatAgree_iff F log hn henv hobj]
  exact allReduced_agree_iff F hdt hop hn

/-- One binary32 element per rank: a NaN on rank 0, one on the others. -/
def nanAndOnes (r : Nat) : Mem := fun a =>
  if a.off = 3 then (if r = 0 then 0x7f else 0x3f)
  else if a.off = 2 then (if r = 0 then 0xc0 else 0x80) else 0

/-- Two ranks, one of them with a NaN, by recursive doubling. -/
theorem floatMax_agree_iff_two :
    FloatAgree .idle 2 (fun _ => ⟨none, none⟩) (fun _ => Ptr.mk (.user 0) 0)
      (fun _ => Ptr.mk (.user 1) 0) 1 .float32 .max nanAndOnes ↔
    Agreeable .idle .float32 .max true 2 1 fun p k =>
      word 4 (nanAndOnes p) (Ptr.mk (.user 0) 0) k :=
  floatMax_agree_iff .idle 2 (by decide) (fun _ => ⟨none, none⟩) true (fun _ => Ptr.mk (.user 0) 0)
    (fun _ => Ptr.mk (.user 1) 0) 1 .float32 .max nanAndOnes (by decide) (.inl rfl) (by decide)
    (by decide)

/-- **`max(NaN, 1)` on rank 0 and `max(1, NaN)` on rank 1**: rank 0 returns one, rank 1 the NaN. -/
theorem floatMax_nan_disagrees :
    ¬ FloatAgree .idle 2 (fun _ => ⟨none, none⟩) (fun _ => Ptr.mk (.user 0) 0)
      (fun _ => Ptr.mk (.user 1) 0) 1 .float32 .max nanAndOnes := by
  rw [floatAgree_iff .idle true (by decide) (by decide) (by decide),
    allReduced_agree_iff .idle (by decide) (.inl rfl) (by decide)]
  rintro (h | h)
  · cases h
  · rcases (h 0 (by decide)).pure with hnan | hnum
    · exact absurd (hnan 1 (by decide)) (by decide)
    · exact absurd (hnum 0 (by decide)) (by decide)

end Vccl
