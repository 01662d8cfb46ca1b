import Mathlib.Algebra.BigOperators.Group.List.Basic
import Mathlib.Algebra.Group.WithOne.Defs
import Mathlib.Algebra.Order.Group.Nat
import Mathlib.Data.Nat.Bitwise
import Mathlib.Data.List.Nodup
import Mathlib.Data.Nat.ModEq

/-!
# Combining values in some order and bracketing

A library about reductions; it names no program. `Combines f x l a` says that `a` arises from the
values `x i`, `i` running through the list `l` in order, by some bracketing with `f`.

* `Combines.perm_unique`: when `f` is associative and commutative, only the multiset of the
  indices matters.
* `butterfly f x i r` is the value of place `r` after `i` rounds in which partners `r` and
  `r ^ 2^j` exchange and combine. `butterfly_combines`: after `k` rounds every place below `2^k`
  has combined `0, …, 2^k - 1`. `butterfly_agree`: when `f` commutes, and with no other law, all
  places of an aligned group have the same value.
* `ringFold f x n c d` is the value that left place `c` and passed `d` places of a ring of `n`.
-/

namespace Vccl.Net

/-! ## Partners and aligned groups -/

/-- The partner of step `i` sits in the sibling block: its block number differs in the last bit. -/
theorem xor_shiftRight (r i : Nat) : (r ^^^ (1 <<< i)) >>> i = (r >>> i) ^^^ 1 := by
  rw [Nat.shiftRight_xor_distrib, Nat.shiftLeft_shiftRight]

theorem xor_one_of_even {x : Nat} (h : x % 2 = 0) : x ^^^ 1 = x + 1 := by
  rw [Nat.xor_one_of_even (Nat.even_iff.mpr h)]

theorem xor_one_of_odd {x : Nat} (h : x % 2 = 1) : x ^^^ 1 = x - 1 := by
  rw [Nat.xor_one_of_odd (Nat.odd_iff.mpr h)]

theorem xor_one_div_two (x : Nat) : (x ^^^ 1) / 2 = x / 2 := by
  rcases Nat.mod_two_eq_zero_or_one x with h | h
  · rw [xor_one_of_even h]; omega
  · rw [xor_one_of_odd h]; omega

theorem shiftRight_succ (r i : Nat) : r >>> (i + 1) = (r >>> i) / 2 := by
  rw [Nat.shiftRight_succ]

/-- Partners share their block at the next level. -/
theorem xor_shiftRight_succ (r i : Nat) : (r ^^^ (1 <<< i)) >>> (i + 1) = r >>> (i + 1) := by
  rw [shiftRight_succ, xor_shiftRight, xor_one_div_two, shiftRight_succ]

theorem xor_lt_two_pow {k r i : Nat} (hr : r < 2 ^ k) (hi : i < k) : r ^^^ (1 <<< i) < 2 ^ k := by
  refine Nat.xor_lt_two_pow hr ?_
  rw [Nat.shiftLeft_eq, Nat.one_mul]
  exact Nat.pow_lt_pow_right (by omega) hi

theorem xor_xor_self (r x : Nat) : r ^^^ x ^^^ x = r := by
  rw [Nat.xor_assoc, Nat.xor_self, Nat.xor_zero]

theorem xor_ne_self (r i : Nat) : r ^^^ (1 <<< i) ≠ r := by
  intro h
  have h1 : r ^^^ (r ^^^ (1 <<< i)) = r ^^^ r := by rw [h]
  rw [← Nat.xor_assoc, Nat.xor_self, Nat.zero_xor] at h1
  have : 0 < 1 <<< i := by rw [Nat.shiftLeft_eq, Nat.one_mul]; exact Nat.two_pow_pos i
  omega

/-- `r ^ 2^i = q ↔ q ^ 2^i = r`. -/
theorem xor_eq_comm {p q x : Nat} : p ^^^ x = q ↔ q ^^^ x = p :=
  ⟨fun h => by rw [← h, xor_xor_self], fun h => by rw [← h, xor_xor_self]⟩

/-- The blocks with block number `x >>> i` are the `2^i` from its first on. -/
theorem shiftRight_eq_iff {b x i : Nat} :
    b >>> i = x >>> i ↔ (x >>> i) <<< i ≤ b ∧ b < (x >>> i) <<< i + 2 ^ i := by
  rw [Nat.shiftRight_eq_div_pow b, Nat.shiftLeft_eq, Nat.div_eq_iff (Nat.two_pow_pos i)]
  have := Nat.two_pow_pos i
  omega

/-- The group of step `i + 1` is that of step `i` and its partner's. -/
theorem group_succ {b r i : Nat} (h : b >>> (i + 1) = r >>> (i + 1)) :
    b >>> i = r >>> i ∨ b >>> i = (r ^^^ (1 <<< i)) >>> i := by
  rw [shiftRight_succ, shiftRight_succ] at h
  rw [xor_shiftRight]
  generalize b >>> i = x at *
  generalize r >>> i = y at *
  rcases Nat.mod_two_eq_zero_or_one y with h2 | h2
  · rw [xor_one_of_even h2]; omega
  · rw [xor_one_of_odd h2]; omega

/-! ## Combinations -/

section Combine

variable {α : Type}

/-- `a` is a bracketing by `f` of the values at the indices `l`. -/
inductive Combines (f : α → α → α) (x : Nat → α) : List Nat → α → Prop where
  | leaf (r : Nat) : Combines f x [r] (x r)
  | node {l l' : List Nat} {a b : α} : Combines f x l a → Combines f x l' b →
      Combines f x (l ++ l') (f a b)

/-- Associative and commutative. -/
structure Lawful (f : α → α → α) : Prop where
  comm : ∀ a b, f a b = f b a
  assoc : ∀ a b c, f (f a b) c = f a (f b c)

/-- The values as a commutative semigroup. -/
abbrev Lawful.semigroup {f : α → α → α} (hf : Lawful f) : CommSemigroup α where
  mul := f
  mul_assoc := hf.assoc
  mul_comm := hf.comm

/-- **Only the indices count**: two combinations of the same indices, in whatever order and
bracketing, are equal. -/
theorem Combines.perm_unique {f : α → α → α} {x : Nat → α} (hf : Lawful f) {l l' : List Nat}
    {a b : α} (ha : Combines f x l a) (hb : Combines f x l' b) (hl : l.Perm l') : a = b := by
  let := hf.semigroup
  -- with a unit adjoined, a combination is the product of its list
  have key : ∀ {l : List Nat} {a : α}, Combines f x l a →
      (a : WithOne α) = (l.map fun r => (x r : WithOne α)).prod := by
    intro l a h
    induction h with
    | leaf r => simp
    | node _ _ ih ih' =>
      rw [List.map_append, List.prod_append, ← ih, ← ih', ← WithOne.coe_mul]
      rfl
  have hprod := (hl.map fun r => (x r : WithOne α)).prod_eq
  rw [← key ha, ← key hb] at hprod
  exact WithOne.coe_inj.mp hprod

/-- Combinations of combinations. -/
theorem Combines.bind {f : α → α → α} {x y : Nat → α} {L : Nat → List Nat} {l : List Nat} {a : α}
    (h : Combines f y l a) (hL : ∀ j ∈ l, Combines f x (L j) (y j)) :
    Combines f x (l.flatMap L) a := by
  induction h with
  | leaf r => simpa using hL r (List.mem_singleton_self r)
  | node _ _ ih ih' =>
    rw [List.flatMap_append]
    exact .node (ih fun j hj => hL j (List.mem_append_left _ hj))
      (ih' fun j hj => hL j (List.mem_append_right _ hj))

/-- The left fold of `x 0, x 1, …, x (n - 1)`. -/
def foldRange (f : α → α → α) (x : Nat → α) (n : Nat) : α :=
  (List.range' 1 (n - 1)).foldl (fun a r => f a (x r)) (x 0)

theorem foldRange_combines (f : α → α → α) (x : Nat → α) {n : Nat} (hn : 0 < n) :
    Combines f x (List.range n) (foldRange f x n) := by
  have key : ∀ (l : List Nat) (l0 : List Nat) (a : α), Combines f x l0 a →
      Combines f x (l0 ++ l) (l.foldl (fun a r => f a (x r)) a) := by
    intro l
    induction l with
    | nil => intro l0 a h; simpa using h
    | cons r l ih =>
      intro l0 a h
      rw [List.append_cons, List.foldl_cons]
      exact ih _ _ (.node h (.leaf r))
  have h := key (List.range' 1 (n - 1)) [0] (x 0) (.leaf 0)
  have hl : [0] ++ List.range' 1 (n - 1) = List.range n := by
    rw [List.range_eq_range', show n = (n - 1) + 1 by omega, List.range'_succ]
    rfl
  rwa [hl] at h

/-! ## Recursive doubling -/

/-- The value of place `r` after `i` rounds of exchanging with `r ^ 2^j`. -/
def butterfly (f : α → α → α) (x : Nat → α) : Nat → Nat → α
  | 0, r => x r
  | i + 1, r => f (butterfly f x i r) (butterfly f x i (r ^^^ (1 <<< i)))

theorem shiftLeft_group (r i : Nat) (h : (r >>> i) % 2 = 0) :
    (r >>> (i + 1)) <<< (i + 1) = (r >>> i) <<< i := by
  rw [shiftRight_succ, Nat.shiftLeft_eq, Nat.shiftLeft_eq, Nat.pow_succ]
  generalize r >>> i = y at *
  rw [Nat.mul_comm (2 ^ i) 2, ← Nat.mul_assoc, show y / 2 * 2 = y by omega]

/-- **After `i` rounds a place has combined its aligned group**, each index once. -/
theorem butterfly_combines (f : α → α → α) (x : Nat → α) : ∀ i r,
    ∃ l, l.Perm (List.range' ((r >>> i) <<< i) (2 ^ i)) ∧ Combines f x l (butterfly f x i r)
  | 0, r => ⟨[r], by simp, .leaf r⟩
  | i + 1, r => by
    obtain ⟨l, hl, hc⟩ := butterfly_combines f x i r
    obtain ⟨l', hl', hc'⟩ := butterfly_combines f x i (r ^^^ (1 <<< i))
    refine ⟨l ++ l', (hl.append hl').trans ?_, .node hc hc'⟩
    rw [xor_shiftRight]
    have hsplit : List.range' ((r >>> (i + 1)) <<< (i + 1)) (2 ^ (i + 1)) =
        List.range' ((r >>> (i + 1)) <<< (i + 1)) (2 ^ i) ++
          List.range' ((r >>> (i + 1)) <<< (i + 1) + 2 ^ i) (2 ^ i) := by
      rw [List.range'_append_1, Nat.pow_succ, Nat.mul_two]
    rw [hsplit]
    rcases Nat.mod_two_eq_zero_or_one (r >>> i) with h | h
    · -- the lower half is this place's group
      rw [shiftLeft_group r i h, xor_one_of_even h, Nat.shiftLeft_eq (r >>> i + 1), Nat.add_mul,
        Nat.one_mul, ← Nat.shiftLeft_eq]
    · have h' : (r ^^^ (1 <<< i)) >>> i % 2 = 0 := by
        rw [xor_shiftRight, xor_one_of_odd h]
        generalize r >>> i = y at *
        omega
      have hb := shiftLeft_group _ i h'
      rw [xor_shiftRight_succ, xor_shiftRight, xor_one_of_odd h] at hb
      have hr : (r >>> i) <<< i = (r >>> i - 1) <<< i + 2 ^ i := by
        rw [Nat.shiftLeft_eq, Nat.shiftLeft_eq]
        generalize r >>> i = y at *
        obtain ⟨z, rfl⟩ : ∃ z, y = z + 1 := ⟨y - 1, by omega⟩
        rw [Nat.add_sub_cancel, Nat.add_mul, Nat.one_mul]
      rw [hb, xor_one_of_odd h, hr]
      exact List.perm_append_comm

/-- **Commutativity alone makes a group agree.** -/
theorem butterfly_agree {f : α → α → α} (hcomm : ∀ a b, f a b = f b a) (x : Nat → α) :
    ∀ {i r r' : Nat}, r >>> i = r' >>> i → butterfly f x i r = butterfly f x i r'
  | 0, r, r', h => by
    simp only [Nat.shiftRight_zero] at h
    rw [h]
  | i + 1, r, r', h => by
    have hp : ∀ a b : Nat, a >>> i = b >>> i → (a ^^^ (1 <<< i)) >>> i = (b ^^^ (1 <<< i)) >>> i :=
      fun a b hab => by rw [xor_shiftRight, xor_shiftRight, hab]
    simp only [butterfly]
    rcases group_succ h with h | h
    · rw [butterfly_agree hcomm x h, butterfly_agree hcomm x (hp _ _ h)]
    · -- the two places are in sibling groups: the operands come in the other order
      have h2 := hp _ _ h
      rw [xor_xor_self] at h2
      rw [butterfly_agree hcomm x h, butterfly_agree hcomm x h2, hcomm]

/-! ## The ring -/

/-- The value that left place `c` and took in the next `d` places. -/
def ringFold (f : α → α → α) (x : Nat → α) (n c : Nat) : Nat → α
  | 0 => x c
  | d + 1 => f (x ((c + (d + 1)) % n)) (ringFold f x n c d)

theorem ringFold_combines (f : α → α → α) (x : Nat → α) {n c : Nat} (hc : c < n) : ∀ d,
    Combines f x ((List.range (d + 1)).map fun j => (c + j) % n).reverse (ringFold f x n c d)
  | 0 => by simpa [Nat.mod_eq_of_lt hc, ringFold] using Combines.leaf (f := f) (x := x) c
  | d + 1 => by
    rw [List.range_succ, List.map_append, List.reverse_append]
    exact .node (.leaf _) (ringFold_combines f x hc d)

/-- All places of the ring, each once. -/
theorem ring_perm {n c : Nat} (hc : c < n) :
    ((List.range n).map fun j => (c + j) % n).reverse.Perm (List.range n) := by
  have hn : 0 < n := by omega
  refine (List.reverse_perm _).trans ((List.perm_ext_iff_of_nodup ?_ List.nodup_range).mpr ?_)
  · refine List.Nodup.map_on (fun i hi j hj hij => ?_) List.nodup_range
    have hi := List.mem_range.mp hi
    have hj := List.mem_range.mp hj
    have h : i ≡ j [MOD n] := Nat.ModEq.add_left_cancel' c hij
    rwa [Nat.ModEq, Nat.mod_eq_of_lt hi, Nat.mod_eq_of_lt hj] at h
  · intro a
    simp only [List.mem_map, List.mem_range]
    constructor
    · rintro ⟨j, -, rfl⟩
      exact Nat.mod_lt _ hn
    · intro ha
      refine ⟨(a + n - c) % n, Nat.mod_lt _ hn, ?_⟩
      rw [Nat.add_mod_mod, show c + (a + n - c) = a + n by omega, Nat.add_mod_right,
        Nat.mod_eq_of_lt ha]

end Combine

end Vccl.Net
