import Vccl.Net.Process

/-!
# The memory of a rank

A rank's memory is byte addressed. A pointer is an object and a byte offset into it; the objects
are the user's allocations and the communicator's scratch buffer (`comm.h`, `scratch`), which
never overlaps them. Pointers into one object may alias, so the in-place forms of the collectives
are ordinary arguments.

* `slice p b` is the byte range `[p, p + b)` a transport call or `memcpy` gets.
* `word e m p i` is element `i` of the array of `e`-byte elements at `p`, as its bytes.
* `putWords` is the effect of an elementwise kernel: it replaces the elements of an array.

A message of elements is `pack`ed; storing one, `memcpy` and the kernels are all `putWords`
(`store_pack`, `memcpy_eq_putWords`), so `word_putWords` (a write at an element boundary of the
array) and `word_putWords_other` (a write elsewhere) are all a proof needs about memory.
-/

namespace Vccl

open Net (load store)

/-- A memory object of a rank. -/
inductive Obj where
  | scratch
  | user (id : Nat)
  deriving DecidableEq, Repr

/-- A pointer: an object and a byte offset. -/
structure Ptr where
  obj : Obj
  off : Nat
  deriving DecidableEq, Repr

/-- `p + bytes`. -/
instance : HAdd Ptr Nat Ptr := ⟨fun p k => ⟨p.obj, p.off + k⟩⟩

theorem Ptr.add_obj (p : Ptr) (k : Nat) : (p + k).obj = p.obj := rfl

theorem Ptr.add_off (p : Ptr) (k : Nat) : (p + k).off = p.off + k := rfl

theorem Ptr.add_add (p : Ptr) (j k : Nat) : p + j + k = p + (j + k) := by
  cases p; exact congrArg _ (Nat.add_assoc _ _ _)

theorem Ptr.add_zero (p : Ptr) : p + 0 = p := rfl

abbrev Mem := Ptr → UInt8

/-- The addresses `[p, p + bytes)`. -/
def slice (p : Ptr) (bytes : Nat) : List Ptr := (List.range bytes).map (p + ·)

/-- `a` lies in `[p, p + bytes)`. -/
def InRange (p : Ptr) (bytes : Nat) (a : Ptr) : Prop :=
  a.obj = p.obj ∧ p.off ≤ a.off ∧ a.off < p.off + bytes

instance (p : Ptr) (bytes : Nat) (a : Ptr) : Decidable (InRange p bytes a) :=
  inferInstanceAs (Decidable (_ ∧ _ ∧ _))

/-- The ranges `[p, p + b)` and `[q, q + c)` do not meet. -/
def Apart (p : Ptr) (b : Nat) (q : Ptr) (c : Nat) : Prop :=
  p.obj ≠ q.obj ∨ p.off + b ≤ q.off ∨ q.off + c ≤ p.off

theorem InRange.exists_add {p a : Ptr} {b : Nat} (h : InRange p b a) : ∃ j, j < b ∧ a = p + j := by
  obtain ⟨ho, h1, h2⟩ := h
  refine ⟨a.off - p.off, by omega, ?_⟩
  cases a
  cases p
  simp only at ho h1 h2 ⊢
  subst ho
  exact congrArg _ (by simp only; omega)

theorem inRange_add {p : Ptr} {b j : Nat} : InRange p b (p + j) ↔ j < b := by
  simp [InRange, Ptr.add_obj, Ptr.add_off]

theorem mem_slice {p a : Ptr} {b : Nat} : a ∈ slice p b ↔ InRange p b a := by
  constructor
  · intro h
    obtain ⟨j, hj, rfl⟩ := List.mem_map.mp h
    exact inRange_add.mpr (List.mem_range.mp hj)
  · intro h
    obtain ⟨j, hj, rfl⟩ := h.exists_add
    exact List.mem_map.mpr ⟨j, List.mem_range.mpr hj, rfl⟩

theorem slice_length (p : Ptr) (b : Nat) : (slice p b).length = b := by simp [slice]

theorem Apart.not_mem {p q a : Ptr} {b c : Nat} (h : Apart p b q c) (ha : a ∈ slice p b) :
    a ∉ slice q c := by
  rw [mem_slice] at ha ⊢
  rintro ⟨h1, h2, h3⟩
  obtain ⟨g1, g2, g3⟩ := ha
  rcases h with h | h | h
  · exact h (g1.symm.trans h1)
  · omega
  · omega

theorem Apart.symm {p q : Ptr} {b c : Nat} (h : Apart p b q c) : Apart q c p b := by
  rcases h with h | h | h
  · exact Or.inl (Ne.symm h)
  · exact Or.inr (Or.inr h)
  · exact Or.inr (Or.inl h)

theorem Apart.mono {p q : Ptr} {b c j k b' c' : Nat} (h : Apart p b q c) (hb : j + b' ≤ b)
    (hc : k + c' ≤ c) : Apart (p + j) b' (q + k) c' := by
  rcases h with h | h | h
  · exact Or.inl h
  · exact Or.inr (Or.inl (by simp only [Ptr.add_off]; omega))
  · exact Or.inr (Or.inr (by simp only [Ptr.add_off]; omega))

theorem apart_of_obj {p q : Ptr} {b c : Nat} (h : p.obj ≠ q.obj) : Apart p b q c := Or.inl h

/-- Two ranges of one array are apart when their offsets say so. -/
theorem apart_add {p : Ptr} {j b k c : Nat} (h : j + b ≤ k ∨ k + c ≤ j) :
    Apart (p + j) b (p + k) c := by
  rcases h with h | h
  · exact Or.inr (Or.inl (by simp only [Ptr.add_off]; omega))
  · exact Or.inr (Or.inr (by simp only [Ptr.add_off]; omega))

theorem getElem_slice {p : Ptr} {b j : Nat} (h : j < (slice p b).length) :
    (slice p b)[j] = p + j := by
  simp [slice]

theorem nodup_slice (p : Ptr) (b : Nat) : (slice p b).Nodup := by
  refine List.Nodup.map (fun i j hij => ?_) List.nodup_range
  have : (p + i).off = (p + j).off := congrArg Ptr.off hij
  simp only [Ptr.add_off] at this
  omega

theorem idxOf_slice {p : Ptr} {b j : Nat} (h : j < b) : (slice p b).idxOf (p + j) = j := by
  have hl : j < (slice p b).length := by rw [slice_length]; exact h
  rw [← getElem_slice hl]
  exact (nodup_slice p b).idxOf_getElem j hl

/-- A stored range reads back the data. -/
theorem store_slice_hit {m : Mem} {p : Ptr} {b j : Nat} {d : List UInt8} (h : j < b) :
    store m (slice p b) d (p + j) = d.getD j (m (p + j)) := by
  rw [Net.store_of_mem (mem_slice.mpr (inRange_add.mpr h)), idxOf_slice h]

theorem store_slice_miss {m : Mem} {p a : Ptr} {b : Nat} {d : List UInt8} (h : ¬ InRange p b a) :
    store m (slice p b) d a = m a :=
  Net.store_of_not_mem fun ha => h (mem_slice.mp ha)

theorem getD_load_slice {m : Mem} {p : Ptr} {b j : Nat} (h : j < b) (x : UInt8) :
    (load m (slice p b)).getD j x = m (p + j) := by
  have hl : j < (load m (slice p b)).length := by rw [Net.load_length, slice_length]; exact h
  rw [List.getD_eq_getElem?_getD, List.getElem?_eq_getElem hl]
  simp [load, slice]

theorem load_slice_length (m : Mem) (p : Ptr) (b : Nat) : (load m (slice p b)).length = b := by
  rw [Net.load_length, slice_length]

theorem load_slice_append (m : Mem) (p : Ptr) (j k : Nat) :
    load m (slice p (j + k)) = load m (slice p j) ++ load m (slice (p + j) k) := by
  unfold load slice
  rw [List.range_add, List.map_append, List.map_append, List.map_map, List.map_map, List.map_map,
    List.map_map]
  congr 1
  apply List.map_congr_left
  intro i _
  simp only [Function.comp_apply, Ptr.add_add]

theorem load_store_slice (m : Mem) (p : Ptr) (bs : List UInt8) :
    load (store m (slice p bs.length) bs) (slice p bs.length) = bs := by
  apply List.ext_getElem?
  intro i
  rcases Nat.lt_or_ge i bs.length with hi | hi
  · have hl : i < (load (store m (slice p bs.length) bs) (slice p bs.length)).length := by
      rw [load_slice_length]
      exact hi
    have hget := getD_load_slice (m := store m (slice p bs.length) bs) (p := p) hi 0
    rw [List.getD_eq_getElem?_getD, List.getElem?_eq_getElem hl, Option.getD_some] at hget
    rw [List.getElem?_eq_getElem hl, hget, store_slice_hit hi, List.getD_eq_getElem?_getD,
      List.getElem?_eq_getElem hi]
    rfl
  · rw [List.getElem?_eq_none hi, List.getElem?_eq_none (by rw [load_slice_length]; exact hi)]

theorem load_store_apart {m : Mem} {p q : Ptr} {b c : Nat} {d : List UInt8} (h : Apart p b q c) :
    load (store m (slice q c) d) (slice p b) = load m (slice p b) :=
  Net.load_store_disjoint fun _ ha => h.not_mem ha

/-- `memcpy(dst, src, bytes)` (the ranges do not overlap in the sources). -/
def memcpy (m : Mem) (dst src : Ptr) (bytes : Nat) : Mem :=
  store m (slice dst bytes) (load m (slice src bytes))

theorem memcpy_hit {m : Mem} {dst src : Ptr} {b j : Nat} (h : j < b) :
    memcpy m dst src b (dst + j) = m (src + j) := by
  rw [memcpy, store_slice_hit h, getD_load_slice h]

theorem memcpy_miss {m : Mem} {dst src a : Ptr} {b : Nat} (h : ¬ InRange dst b a) :
    memcpy m dst src b a = m a :=
  store_slice_miss h

/-! ## Elements -/

/-- An element of `e` bytes. -/
abbrev Word (e : Nat) := Fin e → UInt8

/-- Element `i` of the array at `p`. -/
def word (e : Nat) (m : Mem) (p : Ptr) (i : Nat) : Word e := fun j => m (p + (i * e + j.val))

/-- Replace the first `count` elements at `p` by `g 0, g 1, …`. -/
def putWords (e : Nat) (m : Mem) (p : Ptr) (count : Nat) (g : Nat → Word e) : Mem := fun a =>
  if h : InRange p (count * e) a then
    g ((a.off - p.off) / e) ⟨(a.off - p.off) % e, Nat.mod_lt _ (by
      obtain ⟨-, h1, h2⟩ := h
      rcases Nat.eq_zero_or_pos e with rfl | he
      · omega
      · exact he)⟩
  else m a

theorem index_lt {i c e j : Nat} (hi : i < c) (hj : j < e) : i * e + j < c * e := by
  have : (i + 1) * e ≤ c * e := Nat.mul_le_mul_right e hi
  rw [Nat.succ_mul] at this
  omega

theorem word_add (e : Nat) (m : Mem) (p : Ptr) (b i : Nat) :
    word e m (p + b * e) i = word e m p (b + i) := by
  funext j
  simp only [word, Ptr.add_add]
  congr 2
  rw [Nat.add_mul, Nat.add_assoc]

theorem putWords_hit {e c i : Nat} {m : Mem} {p : Ptr} {g : Nat → Word e} (h : i < c) :
    word e (putWords e m p c g) p i = g i := by
  funext j
  have hr : InRange p (c * e) (p + (i * e + j.val)) := inRange_add.mpr (index_lt h j.isLt)
  simp only [word, putWords, dif_pos hr, Ptr.add_off]
  have h1 : (p.off + (i * e + j.val) - p.off) = i * e + j.val := by omega
  have h2 : (i * e + j.val) / e = i := by
    rw [Nat.mul_comm, Nat.mul_add_div (Nat.lt_of_le_of_lt (Nat.zero_le _) j.isLt),
      Nat.div_eq_of_lt j.isLt, Nat.add_zero]
  have h3 : (i * e + j.val) % e = j.val := by
    rw [Nat.mul_comm, Nat.mul_add_mod, Nat.mod_eq_of_lt j.isLt]
  simp only [h1, h2, h3]

theorem putWords_miss {e c : Nat} {m : Mem} {p a : Ptr} {g : Nat → Word e}
    (h : ¬ InRange p (c * e) a) : putWords e m p c g a = m a := dif_neg h

/-- Where element `i` of the array at `p` lies against the elements `[b, b + c)`. -/
theorem not_inRange_of_index {e b c i : Nat} {p : Ptr} (h : i < b ∨ b + c ≤ i) (j : Fin e) :
    ¬ InRange (p + b * e) (c * e) (p + (i * e + j.val)) := by
  rintro ⟨-, h1, h2⟩
  simp only [Ptr.add_off] at h1 h2
  have hj := j.isLt
  rcases h with h | h
  · have := index_lt h hj
    omega
  · have : (b + c) * e ≤ i * e := Nat.mul_le_mul_right e h
    rw [Nat.add_mul] at this
    omega

/-- Elements after a kernel ran on the elements `[b, b + c)` of the array. -/
theorem word_putWords (e : Nat) (m : Mem) (p : Ptr) (b c i : Nat) (g : Nat → Word e) :
    word e (putWords e m (p + b * e) c g) p i =
      if b ≤ i ∧ i < b + c then g (i - b) else word e m p i := by
  split
  · rename_i h
    have := putWords_hit (e := e) (m := m) (p := p + b * e) (g := g) (show i - b < c by omega)
    rw [word_add, show b + (i - b) = i by omega] at this
    exact this
  · rename_i h
    funext j
    exact putWords_miss (not_inRange_of_index (b := b) (c := c) (i := i) (by omega) j)

/-- A range apart from the array at `p` contains none of its elements. -/
theorem Apart.not_inRange_word {e c i b : Nat} {p q : Ptr} (h : Apart q b p (c * e)) (hi : i < c)
    (j : Fin e) : ¬ InRange q b (p + (i * e + j.val)) := fun hr =>
  h.not_mem (mem_slice.mpr hr) (mem_slice.mpr (inRange_add.mpr (index_lt hi j.isLt)))

theorem word_putWords_other {e e' c c' i : Nat} {m : Mem} {p q : Ptr} {g : Nat → Word e'}
    (h : Apart q (c' * e') p (c * e)) (hi : i < c) :
    word e (putWords e' m q c' g) p i = word e m p i := by
  funext j
  exact putWords_miss (h.not_inRange_word hi j)

/-! ## Messages of elements -/

/-- The bytes of the elements `g 0, …, g (c - 1)`. -/
def pack (e c : Nat) (g : Nat → Word e) : List UInt8 :=
  (List.range (c * e)).map fun x =>
    if h : 0 < e then g (x / e) ⟨x % e, Nat.mod_lt x h⟩ else 0

theorem pack_length (e c : Nat) (g : Nat → Word e) : (pack e c g).length = c * e := by
  simp [pack]

theorem pack_congr {e c : Nat} {g g' : Nat → Word e} (h : ∀ i < c, g i = g' i) :
    pack e c g = pack e c g' := by
  refine List.map_congr_left fun x hx => ?_
  have hx : x < c * e := List.mem_range.mp hx
  split
  · rename_i he
    rw [h (x / e) ((Nat.div_lt_iff_lt_mul he).mpr hx)]
  · rfl

/-- Loading elements packs them. -/
theorem load_slice_eq_pack (e : Nat) (m : Mem) (p : Ptr) (c : Nat) :
    load m (slice p (c * e)) = pack e c (word e m p) := by
  unfold load slice pack
  rw [List.map_map]
  refine List.map_congr_left fun x hx => ?_
  have hx : x < c * e := List.mem_range.mp hx
  have he : 0 < e := Nat.pos_of_ne_zero fun h => by subst h; omega
  rw [dif_pos he]
  show m (p + x) = m (p + (x / e * e + x % e))
  rw [Nat.div_add_mod']

/-- Storing packed elements replaces them. -/
theorem store_pack (e : Nat) (m : Mem) (p : Ptr) (c : Nat) (g : Nat → Word e) :
    store m (slice p (c * e)) (pack e c g) = putWords e m p c g := by
  funext a
  by_cases h : InRange p (c * e) a
  · obtain ⟨x, hx, rfl⟩ := h.exists_add
    have he : 0 < e := Nat.pos_of_ne_zero fun h => by subst h; omega
    have hl : x < (pack e c g).length := by rw [pack_length]; exact hx
    rw [store_slice_hit hx, List.getD_eq_getElem?_getD, List.getElem?_eq_getElem hl]
    simp only [pack, List.getElem_map, List.getElem_range, Option.getD_some, putWords, dif_pos h,
      dif_pos he, Ptr.add_off, Nat.add_sub_cancel_left]
  · rw [store_slice_miss h, putWords_miss h]

/-- `memcpy` of elements. -/
theorem memcpy_eq_putWords (e : Nat) (m : Mem) (dst src : Ptr) (c : Nat) :
    memcpy m dst src (c * e) = putWords e m dst c (word e m src) := by
  rw [memcpy, load_slice_eq_pack, store_pack]

end Vccl
