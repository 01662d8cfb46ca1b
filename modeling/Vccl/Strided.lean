import Mathlib.Algebra.BigOperators.Group.List.Basic
import Mathlib.Algebra.BigOperators.Ring.List
import Mathlib.Data.List.Forall2
import Mathlib.Tactic.Ring

/-!
# Strided tensors

A library; it names no program. A tensor's layout (`View`) is a storage, an offset, a shape and
strides; what it holds is in a heap of storages. `ravel` and `unravel` number the indices of a shape
in row-major order.

Moving an axis gives a view. `reshape` gives a view whenever strides for the new shape exist
(`viewAs_isSome_iff`) and a row-major copy otherwise, and `contiguous` copies unless the strides
are row-major, apart from axes of size one. Either way the elements are those of the original
(`get_reshape`, `get_contiguous`). When a reshape merges two neighbouring axes is
`viewAs_merge_iff`; when a tensor stays contiguous under a move of its first axis is
`isContiguous_movedim0_iff`.
-/

namespace Vccl.Strided

/-! ## Row-major numbers -/

/-- The indices of a shape. -/
def InShape (shape idx : List Nat) : Prop := List.Forall₂ (fun n i => i < n) shape idx

/-- The row-major number of an index. -/
def ravel : List Nat → List Nat → Nat
  | _ :: shape, i :: idx => i * shape.prod + ravel shape idx
  | _, _ => 0

/-- The index with a row-major number. -/
def unravel : List Nat → Nat → List Nat
  | [], _ => []
  | _ :: shape, k => k / shape.prod :: unravel shape (k % shape.prod)

section Numbers

variable {shape idx p q as bs : List Nat} {n i k : Nat}

theorem InShape.length_eq (h : InShape shape idx) : shape.length = idx.length :=
  List.Forall₂.length_eq h

theorem InShape.append (h₁ : InShape p as) (h₂ : InShape q bs) : InShape (p ++ q) (as ++ bs) :=
  List.rel_append h₁ h₂

theorem InShape.cons (hi : i < n) (h : InShape q bs) : InShape (n :: q) (i :: bs) :=
  List.Forall₂.cons hi h

/-- An index of a shape splits where the shape does. -/
theorem InShape.split (h : InShape (p ++ q) idx) :
    ∃ as bs, idx = as ++ bs ∧ InShape p as ∧ InShape q bs := by
  have ht := List.forall₂_take p.length h
  have hd := List.forall₂_drop p.length h
  rw [List.take_left] at ht
  rw [List.drop_left] at hd
  exact ⟨_, _, (List.take_append_drop p.length idx).symm, ht, hd⟩

/-- The same around one axis. -/
theorem InShape.split_axis (h : InShape (p ++ n :: q) idx) :
    ∃ as i bs, idx = as ++ i :: bs ∧ InShape p as ∧ i < n ∧ InShape q bs := by
  obtain ⟨as, bs, rfl, hp, hq⟩ := h.split
  cases hq with
  | cons hi hq => exact ⟨as, _, _, rfl, hp, hi, hq⟩

theorem InShape.axis (hp : InShape p as) (hi : i < n) (hq : InShape q bs) :
    InShape (p ++ n :: q) (as ++ i :: bs) := hp.append (.cons hi hq)

theorem ravel_lt (h : InShape shape idx) : ravel shape idx < shape.prod := by
  induction h with
  | nil => exact Nat.one_pos
  | @cons n i shape idx hi _ ih =>
    rw [ravel, List.prod_cons]
    calc i * shape.prod + ravel shape idx < i * shape.prod + shape.prod := by omega
      _ = (i + 1) * shape.prod := by ring
      _ ≤ n * shape.prod := Nat.mul_le_mul_right _ hi

theorem prod_pos (h : InShape shape idx) : 0 < shape.prod := Nat.zero_lt_of_lt (ravel_lt h)

theorem inShape_unravel (h : k < shape.prod) : InShape shape (unravel shape k) := by
  induction shape generalizing k with
  | nil => exact .nil
  | cons n shape ih =>
    rw [List.prod_cons] at h
    have hpos : 0 < shape.prod := Nat.pos_of_mul_pos_left (Nat.zero_lt_of_lt h)
    exact .cons (Nat.div_lt_of_lt_mul (by rwa [Nat.mul_comm])) (ih (Nat.mod_lt k hpos))

theorem ravel_unravel (h : k < shape.prod) : ravel shape (unravel shape k) = k := by
  induction shape generalizing k with
  | nil =>
    rw [List.prod_nil] at h
    exact (Nat.lt_one_iff.mp h).symm
  | cons n shape ih =>
    rw [List.prod_cons] at h
    have hpos : 0 < shape.prod := Nat.pos_of_mul_pos_left (Nat.zero_lt_of_lt h)
    rw [unravel, ravel, ih (Nat.mod_lt k hpos), Nat.div_add_mod']

theorem unravel_ravel (h : InShape shape idx) : unravel shape (ravel shape idx) = idx := by
  induction h with
  | nil => rfl
  | @cons n i shape idx _ h ih =>
    have hlt := ravel_lt h
    rw [ravel, unravel, Nat.mul_comm, Nat.mul_add_div (Nat.zero_lt_of_lt hlt),
      Nat.div_eq_of_lt hlt, Nat.add_zero, Nat.mul_add_mod, Nat.mod_eq_of_lt hlt, ih]

theorem ravel_append (h : p.length = as.length) :
    ravel (p ++ q) (as ++ bs) = ravel p as * q.prod + ravel q bs := by
  induction p generalizing as with
  | nil =>
    rw [List.length_eq_zero_iff.mp h.symm]
    simp only [List.nil_append, ravel, Nat.zero_mul, Nat.zero_add]
  | cons n p ih =>
    cases as with
    | nil => cases h
    | cons i as =>
      rw [List.cons_append, List.cons_append, ravel, ravel, ih (Nat.succ.inj h), List.prod_append]
      ring

/-- Merging two axes does not change an element's number. -/
theorem ravel_merge {a b : Nat} (h : p.length = as.length) (i j : Nat) :
    ravel (p ++ (a * b) :: q) (as ++ (i * b + j) :: bs) =
      ravel (p ++ a :: b :: q) (as ++ i :: j :: bs) := by
  rw [ravel_append h, ravel_append h]
  simp only [ravel, List.prod_cons]
  ring

/-- The indices of a shape that has elements include the zero index, whose number is zero. -/
theorem inShape_zero (h : 0 < shape.prod) : InShape shape (shape.map fun _ => 0) := by
  induction shape with
  | nil => exact .nil
  | cons n shape ih =>
    rw [List.prod_cons] at h
    exact .cons (Nat.pos_of_mul_pos_right h) (ih (Nat.pos_of_mul_pos_left h))

theorem unravel_zero (shape : List Nat) : unravel shape 0 = shape.map fun _ => 0 := by
  induction shape with
  | nil => rfl
  | cons n shape ih => rw [unravel, Nat.zero_div, Nat.zero_mod, ih, List.map_cons]

theorem ravel_zero (shape : List Nat) : ravel shape (shape.map fun _ => 0) = 0 := by
  induction shape with
  | nil => rfl
  | cons n shape ih => rw [List.map_cons, ravel, ih, Nat.zero_mul]

theorem prod_pos_iff {shape : List Nat} : 0 < shape.prod ↔ 0 ∉ shape := by
  rw [Nat.pos_iff_ne_zero, Ne, List.prod_eq_zero_iff]

end Numbers

/-! ## Strides -/

/-- How far an index lies from the first element. -/
def address (strides idx : List Nat) : Nat := (List.zipWith (· * ·) idx strides).sum

/-- The strides of row-major order. -/
def rowStrides : List Nat → List Nat
  | [] => []
  | _ :: shape => shape.prod :: rowStrides shape

/-- Some axis with several elements has stride zero, so that they share a place. -/
def expanded (shape strides : List Nat) : Bool :=
  (List.zipWith (fun n s => decide (1 < n ∧ s = 0)) shape strides).any id

/-- The strides are row-major, apart from axes of size one. -/
def dense : List Nat → List Nat → Bool
  | n :: shape, s :: strides => (n = 1 || s = shape.prod) && dense shape strides
  | _, _ => true

/-- Moves the first entry to place `k`. -/
def moveFirst {β : Type} (k : Nat) : List β → List β
  | [] => []
  | x :: xs => xs.take k ++ x :: xs.drop k

section Strides

variable {shape idx st st' as bs p q : List Nat} {i s : Nat}

theorem address_cons : address (s :: st) (i :: idx) = i * s + address st idx := by
  rw [address, List.zipWith_cons_cons, List.sum_cons, address]

theorem address_append (h : st.length = as.length) :
    address (st ++ st') (as ++ bs) = address st as + address st' bs := by
  rw [address, List.zipWith_append h.symm, List.sum_append, address, address]

theorem address_zero (st shape : List Nat) : address st (shape.map fun _ => 0) = 0 := by
  induction shape generalizing st with
  | nil => rfl
  | cons n shape ih =>
    cases st with
    | nil => rfl
    | cons s st => rw [List.map_cons, address_cons, ih, Nat.zero_mul]

theorem length_rowStrides (shape : List Nat) : (rowStrides shape).length = shape.length := by
  induction shape with
  | nil => rfl
  | cons n shape ih => rw [rowStrides, List.length_cons, List.length_cons, ih]

theorem dense_rowStrides (shape : List Nat) : dense shape (rowStrides shape) = true := by
  induction shape with
  | nil => rfl
  | cons n shape ih => simp only [rowStrides, dense, ih, decide_true, Bool.or_true, Bool.and_true]

/-- **Dense strides lead to the row-major number.** -/
theorem address_of_dense (hd : dense shape st = true) (hl : st.length = shape.length)
    (h : InShape shape idx) : address st idx = ravel shape idx := by
  induction h generalizing st with
  | nil => rfl
  | @cons n i shape idx hi _ ih =>
    cases st with
    | nil => cases hl
    | cons s st =>
      rw [dense, Bool.and_eq_true, Bool.or_eq_true, decide_eq_true_eq, decide_eq_true_eq] at hd
      rw [address_cons, ravel, ih hd.2 (Nat.succ.inj hl)]
      rcases hd.1 with rfl | rfl
      · rw [Nat.lt_one_iff.mp hi, Nat.zero_mul, Nat.zero_mul]
      · rfl

theorem moveFirst_append {β : Type} (x : β) (xs ys : List β) :
    moveFirst xs.length (x :: (xs ++ ys)) = xs ++ x :: ys := by
  rw [moveFirst, List.take_left, List.drop_left]

theorem length_moveFirst {β : Type} (k : Nat) (xs : List β) :
    (moveFirst k xs).length = xs.length := by
  cases xs with
  | nil => rfl
  | cons x xs =>
    rw [moveFirst, List.length_append, List.length_cons, List.length_cons, ← Nat.add_assoc,
      ← List.length_append, List.take_append_drop]

theorem prod_moveFirst (k : Nat) (shape : List Nat) : (moveFirst k shape).prod = shape.prod := by
  cases shape with
  | nil => rfl
  | cons n shape =>
    rw [moveFirst, List.prod_append, List.prod_cons, List.prod_cons, Nat.mul_left_comm,
      ← List.prod_append, List.take_append_drop]

end Strides

/-! ## Views and the heap -/

/-- A tensor's layout. -/
structure View where
  storage : Nat
  offset : Nat
  shape : List Nat
  strides : List Nat
  aligned : strides.length = shape.length
  deriving DecidableEq, Repr

/-- The storages of a process; those from `next` on are not allocated. -/
structure Heap (α : Type) where
  next : Nat
  cells : Nat → Nat → α

namespace View

/-- The row-major view of a storage. -/
def whole (storage : Nat) (shape : List Nat) : View :=
  ⟨storage, 0, shape, rowStrides shape, length_rowStrides shape⟩

/-- The number of elements. -/
def numel (v : View) : Nat := v.shape.prod

/-- Where in its storage an element lies. -/
def place (v : View) (idx : List Nat) : Nat := v.offset + address v.strides idx

/-- The row-major strides, apart from axes of size one; or there is no element. -/
def isContiguous (v : View) : Bool := v.numel = 0 || dense v.shape v.strides

/-- `movedim(0, k)`. -/
def movedim0 (v : View) (k : Nat) : View where
  storage := v.storage
  offset := v.offset
  shape := moveFirst k v.shape
  strides := moveFirst k v.strides
  aligned := by rw [length_moveFirst, length_moveFirst, v.aligned]

/-- The strides that a view of another shape has if there is one: on each axis, from the element
number zero to the first that is one further on the axis alone. -/
def stridesAs (v : View) (shape : List Nat) : List Nat :=
  List.zipWith (fun n s => if n ≤ 1 then 0 else v.place (unravel v.shape s) - v.place (unravel v.shape 0))
    shape (rowStrides shape)

/-- The same elements in row-major order under another shape, if the strides allow it. -/
def viewAs (v : View) (shape : List Nat) : Option View :=
  if ∀ k < shape.prod, v.place (unravel v.shape k) =
      v.place (unravel v.shape 0) + address (v.stridesAs shape) (unravel shape k) then
    some { storage := v.storage, offset := v.place (unravel v.shape 0), shape := shape,
           strides := v.stridesAs shape,
           aligned := by
            rw [stridesAs, List.length_zipWith, length_rowStrides, Nat.min_self] }
  else none

end View

namespace Heap

variable {α : Type} (h : Heap α)

/-- `torch.empty`: a new row-major tensor, with whatever its storage holds. -/
def empty (shape : List Nat) : View × Heap α :=
  (.whole h.next shape, { h with next := h.next + 1 })

/-- The element at an index. -/
def get (v : View) (idx : List Nat) : α := h.cells v.storage (v.place idx)

/-- The elements by row-major number. -/
def flat (v : View) (k : Nat) : α := h.get v (unravel v.shape k)

/-- Writes the elements in row-major order. -/
def fill (v : View) (f : Nat → α) : Heap α :=
  { h with
    cells := Function.update h.cells v.storage ((List.range v.numel).foldl
      (fun c k => Function.update c (v.place (unravel v.shape k)) (f k)) (h.cells v.storage)) }

/-- A new row-major tensor with these elements. -/
def create (shape : List Nat) (f : Nat → α) : View × Heap α :=
  ((h.empty shape).1, (h.empty shape).2.fill (h.empty shape).1 f)

/-- `contiguous()`. -/
def contiguous (v : View) : View × Heap α :=
  if v.isContiguous then (v, h) else h.create v.shape (h.flat v)

/-- `reshape`, for a shape with as many elements. -/
def reshape (v : View) (shape : List Nat) : View × Heap α :=
  match v.viewAs shape with
  | some u => (u, h)
  | none => h.create shape (h.flat v)

end Heap

/-! ## What the heap holds -/

section Cells

variable {α : Type} {h : Heap α} {v : View} {shape idx : List Nat}

/-- The elements of a view lie at places of their own. -/
def View.Separate (v : View) : Prop :=
  ∀ i < v.numel, ∀ j < v.numel,
    v.place (unravel v.shape i) = v.place (unravel v.shape j) → i = j

theorem foldl_update_of_inj {g : Nat → Nat} {f : Nat → α} (c : Nat → α) {n k : Nat}
    (hg : ∀ i < n, ∀ j < n, g i = g j → i = j) (hk : k < n) :
    (List.range n).foldl (fun c i => Function.update c (g i) (f i)) c (g k) = f k := by
  induction n with
  | zero => omega
  | succ n ih =>
    rw [List.range_succ, List.foldl_append, List.foldl_cons, List.foldl_nil]
    by_cases hkn : k = n
    · rw [hkn, Function.update_self]
    · have hne : g k ≠ g n := fun heq => hkn (hg k (by omega) n (by omega) heq)
      rw [Function.update_of_ne hne]
      exact ih (fun i hi j hj => hg i (by omega) j (by omega)) (by omega)

/-- **A filled view holds what it was filled with.** -/
theorem flat_fill (hv : v.Separate) (f : Nat → α) {k : Nat} (hk : k < v.numel) :
    (h.fill v f).flat v k = f k := by
  simp only [Heap.flat, Heap.get, Heap.fill, Function.update_self]
  exact foldl_update_of_inj _ hv hk

theorem cells_fill (v : View) (f : Nat → α) {s : Nat} (hs : s ≠ v.storage) :
    (h.fill v f).cells s = h.cells s := Function.update_of_ne hs _ _

/-- Another storage is unchanged, so are the views of it. -/
theorem get_fill (v : View) (f : Nat → α) {u : View} (hu : u.storage ≠ v.storage) (idx : List Nat) :
    (h.fill v f).get u idx = h.get u idx := by
  rw [Heap.get, cells_fill v f hu, Heap.get]

theorem get_eq_flat (h : Heap α) (hi : InShape v.shape idx) :
    h.get v idx = h.flat v (ravel v.shape idx) := by
  rw [Heap.flat, unravel_ravel hi]

theorem place_of_dense (hd : dense v.shape v.strides = true) (hi : InShape v.shape idx) :
    v.place idx = v.offset + ravel v.shape idx := by
  rw [View.place, address_of_dense hd v.aligned hi]

theorem separate_of_dense (hd : dense v.shape v.strides = true) : v.Separate := by
  intro i hi j hj heq
  rw [place_of_dense hd (inShape_unravel hi), place_of_dense hd (inShape_unravel hj),
    ravel_unravel hi, ravel_unravel hj] at heq
  exact Nat.add_left_cancel heq

theorem separate_empty (h : Heap α) (shape : List Nat) : (h.empty shape).1.Separate :=
  separate_of_dense (dense_rowStrides shape)

theorem flat_create (h : Heap α) (shape : List Nat) (f : Nat → α) {k : Nat}
    (hk : k < shape.prod) : (h.create shape f).2.flat (h.create shape f).1 k = f k :=
  flat_fill (separate_empty h shape) f hk

theorem cells_create (h : Heap α) (shape : List Nat) (f : Nat → α) {s : Nat} (hs : s < h.next) :
    (h.create shape f).2.cells s = h.cells s := cells_fill _ _ (Nat.ne_of_lt hs)

end Cells

/-! ## Reshaping -/

section Reshape

variable {α : Type} (h : Heap α) {v u : View} {shape idx : List Nat}

/-- The strides of `stridesAs` are those of any view there is. -/
theorem address_probed {A : Nat → Nat} {st : List Nat} (hl : st.length = shape.length)
    (hA : ∀ k < shape.prod, A k = address st (unravel shape k)) {k : Nat} (hk : k < shape.prod) :
    address (List.zipWith (fun n s => if n ≤ 1 then 0 else A s) shape (rowStrides shape))
      (unravel shape k) = address st (unravel shape k) := by
  induction shape generalizing st k with
  | nil =>
    rw [List.length_eq_zero_iff.mp hl]
    rfl
  | cons n shape ih =>
    cases st with
    | nil => cases hl
    | cons s st =>
      rw [List.prod_cons] at hA hk
      have hpos : 0 < shape.prod := Nat.pos_of_mul_pos_left (Nat.zero_lt_of_lt hk)
      have hn : 0 < n := Nat.pos_of_mul_pos_right (Nat.zero_lt_of_lt hk)
      -- on the inner axes alone the first index is zero
      have htail : ∀ k < shape.prod, A k = address st (unravel shape k) := by
        intro k hk
        have hin := hA k (Nat.lt_of_lt_of_le hk (Nat.le_mul_of_pos_left _ hn))
        rwa [unravel, address_cons, Nat.div_eq_of_lt hk, Nat.mod_eq_of_lt hk, Nat.zero_mul,
          Nat.zero_add] at hin
      rw [rowStrides, List.zipWith_cons_cons, unravel, address_cons, address_cons,
        ih (Nat.succ.inj hl) htail (Nat.mod_lt k hpos)]
      congr 1
      by_cases h1 : n ≤ 1
      · have hz : k / shape.prod = 0 :=
          Nat.div_eq_of_lt (Nat.lt_of_lt_of_le hk (by
            calc n * shape.prod ≤ 1 * shape.prod := Nat.mul_le_mul_right _ h1
              _ = shape.prod := Nat.one_mul _))
        rw [hz, Nat.zero_mul, Nat.zero_mul]
      · have hin := hA shape.prod (by
          calc shape.prod = 1 * shape.prod := (Nat.one_mul _).symm
            _ < n * shape.prod := Nat.mul_lt_mul_of_pos_right (by omega) hpos)
        rw [unravel, address_cons, Nat.div_self hpos, Nat.mod_self, Nat.one_mul, unravel_zero,
          address_zero, Nat.add_zero] at hin
        rw [if_neg h1, hin]

/-- **A view of another shape is found whenever there is one.** -/
theorem viewAs_isSome_iff : (v.viewAs shape).isSome ↔
    ∃ st, st.length = shape.length ∧ ∀ k < shape.prod,
      v.place (unravel v.shape k) =
        v.place (unravel v.shape 0) + address st (unravel shape k) := by
  rw [View.viewAs]
  constructor
  · intro hs
    split at hs
    · next hfit =>
      exact ⟨_, by rw [View.stridesAs, List.length_zipWith, length_rowStrides, Nat.min_self], hfit⟩
    · cases hs
  · rintro ⟨st, hl, hst⟩
    have hprobe : ∀ k < shape.prod,
        address (v.stridesAs shape) (unravel shape k) = address st (unravel shape k) :=
      fun _ => address_probed hl fun k hk => by rw [hst k hk, Nat.add_sub_cancel_left]
    rw [if_pos fun k hk => by rw [hst k hk, hprobe k hk], Option.isSome_some]

theorem viewAs_spec (hu : v.viewAs shape = some u) :
    u.storage = v.storage ∧ u.shape = shape ∧
    ∀ k < shape.prod, h.flat u k = h.flat v k := by
  rw [View.viewAs] at hu
  split at hu
  · next hfit =>
    cases hu
    refine ⟨rfl, rfl, fun k hk => ?_⟩
    rw [Heap.flat, Heap.flat, Heap.get, Heap.get, hfit k hk]
    rfl
  · cases hu

theorem shape_reshape (v : View) (shape : List Nat) : (h.reshape v shape).1.shape = shape := by
  rw [Heap.reshape]
  split
  · next u hu => exact (viewAs_spec h hu).2.1
  · rfl

/-- **`reshape` keeps the elements in row-major order.** -/
theorem flat_reshape (v : View) {k : Nat} (hk : k < shape.prod) :
    (h.reshape v shape).2.flat (h.reshape v shape).1 k = h.flat v k := by
  rw [Heap.reshape]
  split
  · next u hu => exact (viewAs_spec h hu).2.2 k hk
  · exact flat_create h shape _ hk

theorem get_reshape (v : View) (hi : InShape shape idx) :
    (h.reshape v shape).2.get (h.reshape v shape).1 idx = h.flat v (ravel shape idx) := by
  rw [get_eq_flat _ (by rwa [shape_reshape]), shape_reshape, flat_reshape h v (ravel_lt hi)]

theorem shape_contiguous (v : View) : (h.contiguous v).1.shape = v.shape := by
  rw [Heap.contiguous]
  split <;> rfl

/-- **`contiguous` keeps the elements.** -/
theorem get_contiguous (v : View) (hi : InShape v.shape idx) :
    (h.contiguous v).2.get (h.contiguous v).1 idx = h.get v idx := by
  rw [Heap.contiguous]
  split
  · rfl
  · rw [get_eq_flat h hi, get_eq_flat _ (show InShape (h.create v.shape (h.flat v)).1.shape idx from hi)]
    exact flat_create h v.shape _ (ravel_lt hi)

end Reshape

/-! ## Moving the first axis, and merging two axes -/

section Axes

variable {α : Type} {v : View} {p q as bs : List Nat} {a b c i s₁ s₂ : Nat} {sp sq : List Nat}

/-- An element keeps its place when the axis moves. -/
theorem place_movedim0 (hl : as.length < v.shape.length) :
    (v.movedim0 as.length).place (as ++ i :: bs) = v.place (i :: (as ++ bs)) := by
  have ha := v.aligned
  rw [View.place, View.place]
  simp only [View.movedim0]
  cases hst : v.strides with
  | nil => rw [hst, List.length_nil] at ha; omega
  | cons s st =>
    rw [hst, List.length_cons] at ha
    have htake : (st.take as.length).length = as.length := by rw [List.length_take]; omega
    rw [moveFirst, address_append htake, address_cons, address_cons]
    conv_rhs => rw [← List.take_append_drop as.length st, address_append htake]
    ring

theorem get_movedim0 (h : Heap α) (hl : as.length < v.shape.length) :
    h.get (v.movedim0 as.length) (as ++ i :: bs) = h.get v (i :: (as ++ bs)) := by
  rw [Heap.get, Heap.get, place_movedim0 hl]
  rfl

/-- The place of the element whose number under the merged shape is that of `i * b + j`. -/
theorem place_merge {j : Nat} (hshape : v.shape = p ++ a :: b :: q)
    (hst : v.strides = sp ++ s₁ :: s₂ :: sq) (hsp : sp.length = p.length)
    (has : InShape p as) (hi : i < a) (hj : j < b) (hbs : InShape q bs) :
    v.place (unravel v.shape (ravel (p ++ (a * b) :: q) (as ++ (i * b + j) :: bs))) =
      v.offset + (address sp as + (i * s₁ + j * s₂ + address sq bs)) := by
  rw [ravel_merge has.length_eq, hshape, unravel_ravel (has.append (.cons hi (.cons hj hbs))),
    View.place, hst, address_append (hsp.trans has.length_eq), address_cons, address_cons]
  ring

/-- **Two neighbouring axes merge in a view** if one has size one, or the first steps over exactly
the whole second. -/
theorem viewAs_merge_iff (hshape : v.shape = p ++ a :: b :: q)
    (hst : v.strides = sp ++ s₁ :: s₂ :: sq) (hsp : sp.length = p.length) (hpos : 0 < v.numel) :
    (v.viewAs (p ++ (a * b) :: q)).isSome ↔ a = 1 ∨ b = 1 ∨ s₁ = b * s₂ := by
  have hsq : sq.length = q.length := by
    have ha := v.aligned
    rw [hst, hshape] at ha
    simp only [List.length_append, List.length_cons] at ha
    omega
  have hprod : v.numel = (p ++ (a * b) :: q).prod := by
    rw [View.numel, hshape]
    simp only [List.prod_append, List.prod_cons, Nat.mul_assoc]
  have hpos' : 0 < p.prod ∧ 0 < a ∧ 0 < b ∧ 0 < q.prod := by
    rw [hprod, List.prod_append, List.prod_cons] at hpos
    exact ⟨Nat.pos_of_mul_pos_right hpos,
      Nat.pos_of_mul_pos_right (Nat.pos_of_mul_pos_right (Nat.pos_of_mul_pos_left hpos)),
      Nat.pos_of_mul_pos_left (Nat.pos_of_mul_pos_right (Nat.pos_of_mul_pos_left hpos)),
      Nat.pos_of_mul_pos_left (Nat.pos_of_mul_pos_left hpos)⟩
  obtain ⟨hp, ha, hb, hq⟩ := hpos'
  have hzero : v.place (unravel v.shape 0) = v.offset := by
    rw [View.place, unravel_zero, address_zero, Nat.add_zero]
  have hlt : ∀ {i j : Nat}, i < a → j < b → i * b + j < a * b := by
    intro i j hi hj
    calc i * b + j < i * b + b := by omega
      _ = (i + 1) * b := by ring
      _ ≤ a * b := Nat.mul_le_mul_right _ hi
  rw [viewAs_isSome_iff]
  constructor
  · rintro ⟨st, hl, hfit⟩
    by_contra hno
    simp only [not_or] at hno
    obtain ⟨ha1, hb1, hne⟩ := hno
    -- on the merged axis alone, `i * b + j` has to lie at `(i * b + j) * t`
    obtain ⟨tp, t, tq, rfl, htp⟩ : ∃ tp t tq, st = tp ++ t :: tq ∧ tp.length = p.length := by
      rw [List.length_append, List.length_cons] at hl
      have hlt : p.length < st.length := by omega
      refine ⟨st.take p.length, st[p.length], st.drop (p.length + 1), ?_, ?_⟩
      · rw [← List.drop_eq_getElem_cons, List.take_append_drop]
      · rw [List.length_take]; omega
    have haxis : ∀ i j : Nat, i < a → j < b → i * s₁ + j * s₂ = (i * b + j) * t := by
      intro i j hi hj
      have hin := (inShape_zero hp).axis (hlt hi hj) (inShape_zero hq)
      have hf := hfit _ (ravel_lt hin)
      rw [place_merge hshape hst hsp (inShape_zero hp) hi hj (inShape_zero hq), unravel_ravel hin,
        hzero, address_append (by rw [htp, List.length_map]), address_cons, address_zero,
        address_zero, address_zero, address_zero] at hf
      omega
    have h01 := haxis 0 1 ha (by omega)
    have h10 := haxis 1 0 (by omega) hb
    simp only [Nat.zero_mul, Nat.one_mul, Nat.zero_add, Nat.add_zero] at h01 h10
    exact hne (by rw [h10, h01])
  · intro hcase
    refine ⟨sp ++ (if a = 1 then s₂ else if b = 1 then s₁ else s₂) :: sq, ?_, ?_⟩
    · rw [List.length_append, List.length_append, List.length_cons, List.length_cons, hsp, hsq]
    · intro k hk
      obtain ⟨as, c, bs, hidx, has, hc, hbs⟩ := (inShape_unravel hk).split_axis
      have hdm : c / b * b + c % b = c := Nat.div_add_mod' c b
      have hplace := place_merge hshape hst hsp has
        (Nat.div_lt_of_lt_mul (by rwa [Nat.mul_comm])) (Nat.mod_lt c hb) hbs
      rw [hdm, ← hidx, ravel_unravel hk] at hplace
      rw [hplace, hzero, hidx, address_append (hsp.trans has.length_eq), address_cons]
      congr 3
      by_cases ha1 : a = 1
      · rw [ha1, Nat.one_mul] at hc
        rw [if_pos ha1, Nat.div_eq_of_lt hc, Nat.mod_eq_of_lt hc, Nat.zero_mul, Nat.zero_add]
      · rw [if_neg ha1]
        by_cases hb1 : b = 1
        · rw [if_pos hb1, hb1, Nat.div_one, Nat.mod_one, Nat.zero_mul, Nat.add_zero]
        · rw [if_neg hb1, (hcase.resolve_left ha1).resolve_left hb1, ← Nat.mul_assoc,
            ← Nat.add_mul, hdm]

theorem rowStrides_append (p q : List Nat) :
    rowStrides (p ++ q) = (rowStrides p).map (· * q.prod) ++ rowStrides q := by
  induction p with
  | nil => rfl
  | cons n p ih => rw [List.cons_append, rowStrides, rowStrides, List.map_cons, List.cons_append,
      ih, List.prod_append]

/-- The axes before the inserted one step too little for it, unless its size is one or theirs. -/
theorem dense_insert (hp : 0 < p.prod) (hq : 0 < q.prod) (P : Nat) :
    dense (p ++ c :: q) ((rowStrides p).map (· * q.prod) ++ P :: rowStrides q) = true ↔
      (∀ n ∈ p, n = 1 ∨ c = 1) ∧ (c = 1 ∨ P = q.prod) := by
  induction p with
  | nil =>
    simp only [List.nil_append, rowStrides, List.map_nil, dense, dense_rowStrides, Bool.and_true,
      Bool.or_eq_true, decide_eq_true_eq, List.not_mem_nil, false_implies, implies_true, true_and]
  | cons n p ih =>
    rw [List.prod_cons] at hp
    have hp' : 0 < p.prod := Nat.pos_of_mul_pos_left hp
    have hstep : p.prod * q.prod = (p ++ c :: q).prod ↔ c = 1 := by
      rw [List.prod_append, List.prod_cons, Nat.mul_right_inj (Nat.pos_iff_ne_zero.mp hp'),
        eq_comm, Nat.mul_eq_right (Nat.pos_iff_ne_zero.mp hq)]
    rw [List.cons_append, rowStrides, List.map_cons, List.cons_append, dense, Bool.and_eq_true,
      Bool.or_eq_true, decide_eq_true_eq, decide_eq_true_eq, hstep, ih hp', List.forall_mem_cons,
      and_assoc]

/-- **A row-major tensor stays contiguous when its first axis moves** if that axis has size one, or
all axes it passes have. -/
theorem isContiguous_movedim0_iff (hshape : v.shape = c :: (p ++ q))
    (hst : v.strides = rowStrides v.shape) (hpos : 0 < v.numel) :
    (v.movedim0 p.length).isContiguous = true ↔ c = 1 ∨ ∀ n ∈ p, n = 1 := by
  have hpos' := hpos
  rw [View.numel, hshape, List.prod_cons, List.prod_append] at hpos'
  have hpq := Nat.pos_of_mul_pos_left hpos'
  have hlen : ((rowStrides p).map (· * q.prod)).length = p.length := by
    rw [List.length_map, length_rowStrides]
  have hmove : moveFirst p.length (rowStrides (c :: (p ++ q))) =
      (rowStrides p).map (· * q.prod) ++ (p ++ q).prod :: rowStrides q := by
    rw [rowStrides, rowStrides_append, ← hlen, moveFirst_append]
  have hn0 : (v.movedim0 p.length).numel ≠ 0 := by
    rw [View.numel, View.movedim0, prod_moveFirst]
    exact Nat.pos_iff_ne_zero.mp hpos
  rw [View.isContiguous, Bool.or_eq_true, decide_eq_true_eq, or_iff_right hn0]
  simp only [View.movedim0]
  rw [hst, hshape, hmove, moveFirst_append, dense_insert (Nat.pos_of_mul_pos_right hpq)
    (Nat.pos_of_mul_pos_left hpq)]
  constructor
  · rintro ⟨hall, -⟩
    by_cases hc : c = 1
    · exact .inl hc
    · exact .inr fun n hn => (hall n hn).resolve_right hc
  · rintro (hc | hall)
    · exact ⟨fun n _ => .inr hc, .inl hc⟩
    · refine ⟨fun n hn => .inl (hall n hn), .inr ?_⟩
      rw [List.prod_append, List.prod_eq_one hall, Nat.one_mul]

end Axes

end Vccl.Strided
