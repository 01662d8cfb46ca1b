import Vccl.Memory
import Mathlib.Data.Nat.Log

/-!
# Datatypes, reduction operations and the reduction kernels (`reduce.cc`, `types.cc`)

An element is the `vcclTypeSize` bytes it occupies, least significant first. `applyOp` is the
element operation of `reduceNative` and `reduce16`:

* integers are bit vectors: sum and product wrap modulo `2^w`, and maximum and minimum compare
  signed or unsigned as the C type does;
* floating-point elements are bit patterns. Addition and multiplication are parameters
  (`FloatArith`); a comparison is defined on the patterns: it is false when an operand is a NaN,
  and `+0` and `-0` compare equal. So `a > b ? a : b` is exact. The 16-bit types widen to binary32,
  operate there and narrow back with the codecs of `reduce.cc`.

The SIMD kernels compute the same element function: `_mm256_max_ps(a, b)` is `a > b ? a : b`,
lane by lane, and the fused sums of the 16-bit types differ from the scalar codecs in NaN payloads
only.

`Kernels` is what a collective needs of `reduce.h`; `cpuKernels` is the instance above.
`int_assoc` and `int_comm`: on the integer datatypes every operation is associative and
commutative.
-/

namespace Vccl

/-- `vcclDataType_t`. -/
inductive DataType where
  | int8 | uint8 | int32 | uint32 | int64 | uint64 | float16 | float32 | float64 | bfloat16
  deriving DecidableEq, Repr

/-- `vcclRedOp_t`, the built-in operations. -/
inductive RedOp where
  | sum | prod | max | min | avg
  deriving DecidableEq, Repr

/-- `vcclTypeSize`. -/
def typeSize : DataType → Nat
  | .int8 | .uint8 => 1
  | .float16 | .bfloat16 => 2
  | .int32 | .uint32 | .float32 => 4
  | .int64 | .uint64 | .float64 => 8

theorem typeSize_pos (dt : DataType) : 0 < typeSize dt := by cases dt <;> decide

/-- `isFloatType`. -/
def isFloatType : DataType → Bool
  | .float16 | .bfloat16 | .float32 | .float64 => true
  | _ => false

/-- A `double` scale factor, as its bit pattern. -/
abbrev Factor := BitVec 64

/-! ## Elements as bit patterns -/

/-- The value of an element's bytes, least significant first. -/
def wordNat : {e : Nat} → Word e → Nat
  | 0, _ => 0
  | _ + 1, x => (x 0).toNat + 256 * wordNat fun j => x j.succ

/-- The bytes of a value. -/
def natWord (e n : Nat) : Word e := fun j => UInt8.ofNat (n / 256 ^ j.val % 256)

theorem wordNat_natWord : ∀ e n : Nat, wordNat (natWord e n) = n % 256 ^ e
  | 0, n => by simp [wordNat, Nat.mod_one]
  | e + 1, n => by
    have ih := wordNat_natWord e (n / 256)
    have htail : (fun j : Fin e => natWord (e + 1) n j.succ) = natWord e (n / 256) := by
      funext j
      simp only [natWord, Fin.val_succ]
      rw [Nat.pow_succ, Nat.mul_comm, Nat.div_div_eq_div_mul]
    have h0 : (natWord (e + 1) n 0).toNat = n % 256 := by
      simp only [natWord, Fin.val_zero, Nat.pow_zero, Nat.div_one]
      rw [UInt8.toNat_ofNat_of_lt' (Nat.mod_lt _ (by decide))]
    show (natWord (e + 1) n 0).toNat + 256 * wordNat (fun j => natWord (e + 1) n j.succ) = _
    rw [htail, ih, h0, Nat.pow_succ, Nat.mul_comm (256 ^ e), Nat.mod_mul]

/-- An element as a bit vector. -/
def bits {e : Nat} (x : Word e) : BitVec (8 * e) := BitVec.ofNat _ (wordNat x)

/-- A bit vector as an element. -/
def ofBits {e : Nat} (x : BitVec (8 * e)) : Word e := natWord e x.toNat

theorem bits_ofBits {e : Nat} (x : BitVec (8 * e)) : bits (ofBits x) = x := by
  apply BitVec.eq_of_toNat_eq
  have hp : 256 ^ e = 2 ^ (8 * e) := by rw [Nat.pow_mul]
  simp only [bits, ofBits, wordNat_natWord, BitVec.toNat_ofNat, hp, Nat.mod_mod]
  exact Nat.mod_eq_of_lt x.isLt

/-- An operation on bit patterns, as one on elements. -/
def onBits {e : Nat} (f : BitVec (8 * e) → BitVec (8 * e) → BitVec (8 * e)) (a b : Word e) : Word e :=
  ofBits (f (bits a) (bits b))

/-! ## Integers -/

/-- `a > b` as the C type compares. -/
def intGt (signed : Bool) {w : Nat} (a b : BitVec w) : Bool := if signed then b.slt a else b.ult a

/-- `applyOp` on an integer type. -/
def applyInt (signed : Bool) {w : Nat} (op : RedOp) (a b : BitVec w) : BitVec w :=
  match op with
  | .prod => a * b
  | .max => if intGt signed a b then a else b
  | .min => if intGt signed b a then a else b
  | .sum | .avg => a + b

/-- The order an integer type compares by, as an integer value of the pattern. -/
def intKey (signed : Bool) {w : Nat} (a : BitVec w) : Int := if signed then a.toInt else a.toNat

theorem intGt_iff (signed : Bool) {w : Nat} (a b : BitVec w) :
    intGt signed a b = true ↔ intKey signed b < intKey signed a := by
  cases signed
  · simp only [intGt, intKey, BitVec.ult, Bool.false_eq_true, if_false, decide_eq_true_eq]
    omega
  · simp [intGt, intKey, BitVec.slt]

theorem intKey_inj (signed : Bool) {w : Nat} {a b : BitVec w}
    (h : intKey signed a = intKey signed b) : a = b := by
  cases signed
  · simp only [intKey, Bool.false_eq_true, if_false] at h
    exact BitVec.eq_of_toNat_eq (by omega)
  · simp only [intKey, if_true] at h
    exact BitVec.eq_of_toInt_eq h

theorem applyInt_comm (signed : Bool) {w : Nat} (op : RedOp) (a b : BitVec w) :
    applyInt signed op a b = applyInt signed op b a := by
  have key : ∀ x y : BitVec w, ¬ intGt signed x y = true → ¬ intGt signed y x = true → x = y := by
    intro x y h1 h2
    rw [intGt_iff] at h1 h2
    exact intKey_inj signed (by omega)
  have excl : ∀ x y : BitVec w, intGt signed x y = true → ¬ intGt signed y x = true := by
    intro x y h1
    rw [intGt_iff] at h1 ⊢
    omega
  cases op with
  | prod => exact BitVec.mul_comm a b
  | sum => exact BitVec.add_comm a b
  | avg => exact BitVec.add_comm a b
  | max =>
    simp only [applyInt]
    split
    · rename_i h; rw [if_neg (excl _ _ h)]
    · rename_i h
      split
      · rfl
      · rename_i h'; exact (key _ _ h h').symm
  | min =>
    simp only [applyInt]
    split
    · rename_i h; rw [if_neg (excl _ _ h)]
    · rename_i h
      split
      · rfl
      · rename_i h'; exact key _ _ h h'

theorem applyInt_assoc (signed : Bool) {w : Nat} (op : RedOp) (a b c : BitVec w) :
    applyInt signed op (applyInt signed op a b) c = applyInt signed op a (applyInt signed op b c) := by
  cases op with
  | prod => exact BitVec.mul_assoc a b c
  | sum => exact BitVec.add_assoc a b c
  | avg => exact BitVec.add_assoc a b c
  | max =>
    simp only [applyInt, intGt_iff]
    split_ifs <;> first | rfl | (exfalso; omega)
  | min =>
    simp only [applyInt, intGt_iff]
    split_ifs <;> first | rfl | (exfalso; omega)

/-! ## Floating point -/

/-- The magnitude bits of a pattern: all but the sign. -/
def mag {w : Nat} (x : BitVec w) : Nat := x.toNat % 2 ^ (w - 1)

/-- The sign bit. -/
def neg {w : Nat} (x : BitVec w) : Bool := decide (2 ^ (w - 1) ≤ x.toNat)

/-- The magnitude of infinity in each format; a pattern is a NaN when its magnitude is larger. -/
def infMag : Nat → Nat
  | 64 => 0x7ff0000000000000
  | _ => 0x7f800000

def isNaN {w : Nat} (x : BitVec w) : Bool := decide (infMag w < mag x)

/-- A number's place in the order of its format: `+0` and `-0` share one. -/
def key {w : Nat} (x : BitVec w) : Int := if neg x then -(mag x : Int) else mag x

/-- `a > b`: false when either is a NaN. -/
def fgt {w : Nat} (a b : BitVec w) : Bool :=
  !isNaN a && !isNaN b && decide (key b < key a)

/-- Hardware arithmetic on bit patterns: `float` and `double` sum and product, the conversion
`static_cast<float>(double)` and the quotient `1.0 / n`. -/
structure FloatArith where
  add32 : BitVec 32 → BitVec 32 → BitVec 32
  mul32 : BitVec 32 → BitVec 32 → BitVec 32
  add64 : BitVec 64 → BitVec 64 → BitVec 64
  mul64 : BitVec 64 → BitVec 64 → BitVec 64
  narrow : BitVec 64 → BitVec 32
  recip : Nat → BitVec 64

/-- A stand-in for runs that do no floating-point arithmetic. -/
def FloatArith.idle : FloatArith where
  add32 a _ := a
  mul32 a _ := a
  add64 a _ := a
  mul64 a _ := a
  narrow a := a.setWidth 32
  recip _ := 0

/-- `applyOp` on a floating-point type with the given sum and product. -/
def applyFloat {w : Nat} (add mul : BitVec w → BitVec w → BitVec w) (op : RedOp) (a b : BitVec w) :
    BitVec w :=
  match op with
  | .prod => mul a b
  | .max => if fgt a b then a else b
  | .min => if fgt b a then a else b
  | .sum | .avg => add a b

/-- The normalisation loop of `halfToFloat`: shift a subnormal mantissa up to its leading bit. -/
def normHalf : Nat → BitVec 32 → Nat → BitVec 32 × Nat
  | 0, mant, shift => (mant, shift)
  | fuel + 1, mant, shift =>
    if mant &&& 0x400#32 = 0 then normHalf fuel (mant <<< 1) (shift + 1) else (mant, shift)

/-- `halfToFloat`. -/
def halfToFloat (h : BitVec 16) : BitVec 32 :=
  let sign := (h &&& 0x8000#16).setWidth 32 <<< 16
  let exp := ((h >>> 10) &&& 0x1f#16).setWidth 32
  let mant := (h &&& 0x3ff#16).setWidth 32
  if exp = 0 then
    if mant = 0 then sign
    else
      let (mant, shift) := normHalf 10 mant 0
      sign ||| (BitVec.ofNat 32 (127 - 15 - shift + 1) <<< 23) ||| ((mant &&& 0x3ff#32) <<< 13)
  else if exp = 0x1f#32 then sign ||| 0x7f800000#32 ||| (mant <<< 13)
  else sign ||| ((exp - 15 + 127) <<< 23) ||| (mant <<< 13)

/-- `floatToHalf`. -/
def floatToHalf (f : BitVec 32) : BitVec 16 :=
  let sign := ((f >>> 16) &&& 0x8000#32).setWidth 16
  let rawExp := ((f >>> 23) &&& 0xff#32).toNat
  let exp : Int := (rawExp : Int) - 127 + 15
  let mant := f &&& 0x7fffff#32
  if rawExp = 0xff then sign ||| 0x7c00#16 ||| (if mant ≠ 0 then 0x200#16 else 0)
  else if exp ≥ 0x1f then sign ||| 0x7c00#16
  else if exp ≤ 0 then
    if exp < -10 then sign
    else
      let mant := mant ||| 0x800000#32
      let shift := (14 - exp).toNat
      let half := mant >>> shift
      let rem := mant &&& ((1#32 <<< shift) - 1)
      let halfway := 1#32 <<< (shift - 1)
      let half := if rem > halfway ∨ (rem = halfway ∧ half &&& 1 ≠ 0) then half + 1 else half
      sign ||| half.setWidth 16
  else
    let half := sign ||| (BitVec.ofNat 16 exp.toNat <<< 10) ||| (mant >>> 13).setWidth 16
    let rem := mant &&& 0x1fff#32
    if rem > 0x1000#32 ∨ (rem = 0x1000#32 ∧ half &&& 1 ≠ 0) then half + 1 else half

/-- `bf16ToFloat`. -/
def bf16ToFloat (b : BitVec 16) : BitVec 32 := b.setWidth 32 <<< 16

/-- `floatToBf16`. -/
def floatToBf16 (f : BitVec 32) : BitVec 16 :=
  if f &&& 0x7fffffff#32 > 0x7f800000#32 then ((f >>> 16) ||| 0x40#32).setWidth 16
  else
    let rounding := 0x7fff#32 + ((f >>> 16) &&& 1)
    ((f + rounding) >>> 16).setWidth 16

/-- `reduce16`: widen, operate in binary32, narrow. -/
def apply16 (F : FloatArith) (toFloat : BitVec 16 → BitVec 32) (fromFloat : BitVec 32 → BitVec 16)
    (op : RedOp) (a b : BitVec 16) : BitVec 16 :=
  fromFloat (applyFloat F.add32 F.mul32 op (toFloat a) (toFloat b))

/-! ## The kernels -/

/-- What a collective uses of `reduce.h`, element by element: `cpuReduce`, `cpuScale`,
`cpuScaleCopy`, `cpuScaledAccumulate`, and the factor `1.0 / n`. -/
structure Kernels where
  reduce : (dt : DataType) → RedOp → Word (typeSize dt) → Word (typeSize dt) → Word (typeSize dt)
  scale : (dt : DataType) → Factor → Word (typeSize dt) → Word (typeSize dt)
  scaleCopy : (dt : DataType) → Factor → Word (typeSize dt) → Word (typeSize dt)
  scaledAccumulate :
    (dt : DataType) → Factor → Word (typeSize dt) → Word (typeSize dt) → Word (typeSize dt)
  recip : Nat → Factor

/-- The element operation `cpuReduce` dispatches to. -/
def applyOp (F : FloatArith) (op : RedOp) :
    (dt : DataType) → Word (typeSize dt) → Word (typeSize dt) → Word (typeSize dt)
  | .int8 => onBits (e := 1) (applyInt true op)
  | .uint8 => onBits (e := 1) (applyInt false op)
  | .int32 => onBits (e := 4) (applyInt true op)
  | .uint32 => onBits (e := 4) (applyInt false op)
  | .int64 => onBits (e := 8) (applyInt true op)
  | .uint64 => onBits (e := 8) (applyInt false op)
  | .float32 => onBits (e := 4) (applyFloat F.add32 F.mul32 op)
  | .float64 => onBits (e := 8) (applyFloat F.add64 F.mul64 op)
  | .float16 => onBits (e := 2) (apply16 F halfToFloat floatToHalf op)
  | .bfloat16 => onBits (e := 2) (apply16 F bf16ToFloat floatToBf16 op)

/-- An element of a floating-point type times the factor, the product taken by `mul32` or `mul64`
with the element first; the integer types are rejected before a kernel runs. -/
def timesOp (F : FloatArith) (mul32 : BitVec 32 → BitVec 32 → BitVec 32)
    (mul64 : BitVec 64 → BitVec 64 → BitVec 64) (k : Factor) :
    (dt : DataType) → Word (typeSize dt) → Word (typeSize dt)
  | .float32 => fun x => ofBits (e := 4) (mul32 (bits x) (F.narrow k))
  | .float64 => fun x => ofBits (e := 8) (mul64 (bits x) k)
  | .float16 => fun x => ofBits (e := 2) (floatToHalf (mul32 (halfToFloat (bits x)) (F.narrow k)))
  | .bfloat16 => fun x => ofBits (e := 2) (floatToBf16 (mul32 (bf16ToFloat (bits x)) (F.narrow k)))
  | _ => fun x => x

/-- `cpuScale`: `p[i] * factor`. -/
def scaleOp (F : FloatArith) (k : Factor) (dt : DataType) : Word (typeSize dt) → Word (typeSize dt) :=
  timesOp F F.mul32 F.mul64 k dt

/-- `cpuScaleCopy`: `factor * s[i]`. -/
def scaleCopyOp (F : FloatArith) (k : Factor) (dt : DataType) :
    Word (typeSize dt) → Word (typeSize dt) :=
  timesOp F (fun x k => F.mul32 k x) (fun x k => F.mul64 k x) k dt

/-- `d + k * s`, as `cpuScaledAccumulate` computes it. -/
def scaledAccumulateOp (F : FloatArith) (k : Factor) :
    (dt : DataType) → Word (typeSize dt) → Word (typeSize dt) → Word (typeSize dt)
  | .float32 => onBits (e := 4) fun d s => F.add32 d (F.mul32 (F.narrow k) s)
  | .float64 => onBits (e := 8) fun d s => F.add64 d (F.mul64 k s)
  | .float16 => onBits (e := 2) fun d s =>
      floatToHalf (F.add32 (halfToFloat d) (F.mul32 (F.narrow k) (halfToFloat s)))
  | .bfloat16 => onBits (e := 2) fun d s =>
      floatToBf16 (F.add32 (bf16ToFloat d) (F.mul32 (F.narrow k) (bf16ToFloat s)))
  | _ => fun d _ => d

/-- The kernels of `reduce.cc`. -/
def cpuKernels (F : FloatArith) : Kernels where
  reduce dt op := applyOp F op dt
  scale dt k := scaleOp F k dt
  scaleCopy dt k := scaleCopyOp F k dt
  scaledAccumulate dt k := scaledAccumulateOp F k dt
  recip := F.recip

theorem onBits_comm {e : Nat} {f : BitVec (8 * e) → BitVec (8 * e) → BitVec (8 * e)}
    (h : ∀ a b, f a b = f b a) (a b : Word e) : onBits f a b = onBits f b a := by
  unfold onBits
  rw [h]

theorem onBits_assoc {e : Nat} {f : BitVec (8 * e) → BitVec (8 * e) → BitVec (8 * e)}
    (h : ∀ a b c, f (f a b) c = f a (f b c)) (a b c : Word e) :
    onBits f (onBits f a b) c = onBits f a (onBits f b c) := by
  unfold onBits
  rw [bits_ofBits, bits_ofBits, h]

/-- **Integer reductions commute.** -/
theorem int_comm (F : FloatArith) {dt : DataType} (h : isFloatType dt = false) (op : RedOp)
    (a b : Word (typeSize dt)) : applyOp F op dt a b = applyOp F op dt b a := by
  cases dt with
  | float16 | float32 | float64 | bfloat16 => exact absurd h (by decide)
  | int8 | int32 | int64 => exact onBits_comm (applyInt_comm true op) a b
  | uint8 | uint32 | uint64 => exact onBits_comm (applyInt_comm false op) a b

/-- **Integer reductions associate.** -/
theorem int_assoc (F : FloatArith) {dt : DataType} (h : isFloatType dt = false) (op : RedOp)
    (a b c : Word (typeSize dt)) :
    applyOp F op dt (applyOp F op dt a b) c = applyOp F op dt a (applyOp F op dt b c) := by
  cases dt with
  | float16 | float32 | float64 | bfloat16 => exact absurd h (by decide)
  | int8 | int32 | int64 => exact onBits_assoc (applyInt_assoc true op) a b c
  | uint8 | uint32 | uint64 => exact onBits_assoc (applyInt_assoc false op) a b c

end Vccl
