import Vccl.Net.Process
import Mathlib.Data.Fintype.Pigeonhole
import Mathlib.Data.Fintype.Prod
import Mathlib.Data.Set.Finite.Basic
import Mathlib.Logic.Function.Iterate

/-!
# Processes that post work in waves

A library; it names no program. Every process has a list of waves, each a list of work requests: a
send to, or a receive from, a peer. It posts the requests of a wave in order, then waits until all
of them have completed, then goes on to the next wave. The `k`-th send of `p` to `q` and the `k`-th
receive of `q` from `p` belong together, and either completes only when the other is posted.

* `Needs W (p, i) (q, j)`: wave `i` of `p` has a request whose counterpart comes after wave `j` of
  `q`, so that it cannot complete before wave `j` of `q` has.
* `waves_progress`: without a cycle of needs, no reachable state is stuck. In a stuck state the
  current waves of the unfinished processes need each other around a cycle.
* `waves_stuck`: with a cycle, some run gets stuck: no wave of the cycle is ever completed, and
  every run is finite.
-/

namespace Vccl.Net

/-! ## Cycles -/

section General

variable {α : Type} {R : α → α → Prop}

/-- In a finite set where every element has a successor there is a cycle. -/
theorem exists_cycle {S : Set α} (hfin : S.Finite) {a : α} (ha : a ∈ S)
    (hnext : ∀ x ∈ S, ∃ y ∈ S, R x y) : ∃ x, Relation.TransGen R x x := by
  have : Finite S := hfin
  choose f hf using fun x : S => hnext x x.2
  let g : S → S := fun x => ⟨f x, (hf x).1⟩
  have hg : ∀ x : S, R x (g x) := fun x => (hf x).2
  have hiter : ∀ (m k : Nat) (x : S),
      Relation.TransGen (fun a b : S => R a b) (g^[m] x) (g^[m + (k + 1)] x) := by
    intro m k x
    induction k with
    | zero => rw [Function.iterate_succ_apply']; exact .single (hg _)
    | succ k ih => rw [← Nat.add_assoc, Function.iterate_succ_apply']; exact .tail ih (hg _)
  obtain ⟨i, j, hij, heq⟩ := Finite.exists_ne_map_eq_of_infinite fun k : Nat => g^[k] ⟨a, ha⟩
  have hlift : ∀ {x y : S}, Relation.TransGen (fun a b : S => R a b) x y →
      Relation.TransGen R x.1 y.1 := fun h => h.lift (p := R) Subtype.val fun _ _ h => h
  rcases Nat.lt_or_gt_of_ne hij with h | h
  · have hc := hiter i (j - i - 1) ⟨a, ha⟩
    rw [show i + (j - i - 1 + 1) = j by omega, ← heq] at hc
    exact ⟨_, hlift hc⟩
  · have hc := hiter j (i - j - 1) ⟨a, ha⟩
    rw [show j + (i - j - 1 + 1) = i by omega, heq] at hc
    exact ⟨_, hlift hc⟩

end General

/-! ## The machine -/

/-- A work request. -/
structure Wr (ι : Type) where
  isSend : Bool
  peer : ι
  deriving DecidableEq

/-- The state of all processes: `posted d p q` counts the sends (`d`) of `p` to `q`, or its
receives from `q`, posted so far, and `done d p q` those whose completion `p` has seen. -/
structure WState (ι : Type) where
  later : ι → List (List (Wr ι))
  todo : ι → List (Wr ι)
  posted : Bool → ι → ι → Nat
  done : Bool → ι → ι → Nat

variable {ι : Type} [DecidableEq ι]

/-- Count one more. -/
def bump (f : Bool → ι → ι → Nat) (d : Bool) (p q : ι) : Bool → ι → ι → Nat :=
  fun d' p' q' => if d' = d ∧ p' = p ∧ q' = q then f d p q + 1 else f d' p' q'

theorem bump_same (f : Bool → ι → ι → Nat) (d : Bool) (p q : ι) : bump f d p q d p q = f d p q + 1 :=
  if_pos ⟨rfl, rfl, rfl⟩

theorem bump_other {f : Bool → ι → ι → Nat} {d d' : Bool} {p p' q q' : ι}
    (h : ¬ (d' = d ∧ p' = p ∧ q' = q)) : bump f d p q d' p' q' = f d' p' q' := if_neg h

theorem le_bump (f : Bool → ι → ι → Nat) (d : Bool) (p q : ι) (d' : Bool) (p' q' : ι) :
    f d' p' q' ≤ bump f d p q d' p' q' := by
  by_cases h : d' = d ∧ p' = p ∧ q' = q
  · obtain ⟨rfl, rfl, rfl⟩ := h
    rw [bump_same]
    omega
  · rw [bump_other h]

/-- All requests posted so far have completed. -/
def WState.settled (s : WState ι) (r : ι) : Prop := ∀ d x, s.done d r x = s.posted d r x

/-- Nothing is left to do. -/
def WState.finished (s : WState ι) (r : ι) : Prop := s.later r = [] ∧ s.todo r = [] ∧ s.settled r

/-- A request is posted, a completion is seen, or the next wave begins. -/
inductive WStep : WState ι → WState ι → Prop where
  | post {s : WState ι} {r : ι} {w : Wr ι} {t : List (Wr ι)} : s.todo r = w :: t →
      WStep s { s with
        todo := Function.update s.todo r t
        posted := bump s.posted w.isSend r w.peer }
  | reap {s : WState ι} {r x : ι} {d : Bool} : s.todo r = [] → s.done d r x < s.posted d r x →
      s.done d r x < s.posted (!d) x r → WStep s { s with done := bump s.done d r x }
  | wave {s : WState ι} {r : ι} {w : List (Wr ι)} {l : List (List (Wr ι))} : s.todo r = [] →
      s.settled r → s.later r = w :: l →
      WStep s { s with later := Function.update s.later r l, todo := Function.update s.todo r w }

/-- Nothing posted. -/
def wstart (W : ι → List (List (Wr ι))) : WState ι := ⟨W, fun _ => [], fun _ _ _ => 0, fun _ _ _ => 0⟩

/-! ## Counting requests -/

/-- The requests of one direction with one peer. -/
def cnt (d : Bool) (x : ι) (w : List (Wr ι)) : Nat := w.countP fun r => r.isSend = d ∧ r.peer = x

/-- Those of the first `i` waves. -/
def upTo (W : List (List (Wr ι))) (d : Bool) (x : ι) (i : Nat) : Nat := cnt d x (W.take i).flatten

theorem cnt_append (d : Bool) (x : ι) (a b : List (Wr ι)) : cnt d x (a ++ b) = cnt d x a + cnt d x b :=
  List.countP_append

theorem cnt_cons (d : Bool) (x : ι) (w : Wr ι) (t : List (Wr ι)) :
    cnt d x (w :: t) = cnt d x t + if w.isSend = d ∧ w.peer = x then 1 else 0 := by
  unfold cnt
  rw [List.countP_cons]
  simp

theorem upTo_mono (W : List (List (Wr ι))) (d : Bool) (x : ι) {i j : Nat} (h : i ≤ j) :
    upTo W d x i ≤ upTo W d x j := by
  obtain ⟨k, rfl⟩ := Nat.exists_eq_add_of_le h
  unfold upTo
  rw [List.take_add, List.flatten_append, cnt_append]
  omega

theorem upTo_all (W : List (List (Wr ι))) (d : Bool) (x : ι) {i : Nat} (h : W.length ≤ i) :
    upTo W d x i = cnt d x W.flatten := by
  unfold upTo
  rw [List.take_of_length_le h]

theorem upTo_zero (W : List (List (Wr ι))) (d : Bool) (x : ι) : upTo W d x 0 = 0 := rfl

/-- Beginning a wave. -/
theorem upTo_succ {W : List (List (Wr ι))} {w : List (Wr ι)} {l : List (List (Wr ι))} {i : Nat}
    (h : W.drop i = w :: l) (d : Bool) (x : ι) : upTo W d x (i + 1) = upTo W d x i + cnt d x w := by
  have hw : W[i]? = some w := by
    have := congrArg List.head? h
    rwa [List.head?_drop] at this
  unfold upTo
  rw [List.take_add_one, hw, List.flatten_append, cnt_append]
  simp

/-- Wave `i` of `p` cannot complete before wave `j` of `q`: up to it, `p` has posted more requests
towards `q` than `q` has posted counterparts up to wave `j`. -/
def Needs (W : ι → List (List (Wr ι))) (a b : ι × Nat) : Prop :=
  ∃ d, upTo (W b.1) (!d) a.1 (b.2 + 1) < upTo (W a.1) d b.1 (a.2 + 1)

/-! ## The invariant -/

variable {W : ι → List (List (Wr ι))}

/-- The invariant of all runs, with the number `a r` of waves begun: what is posted is what the
begun waves have, less what is still to post; completions lag behind both sides; and all waves but
the last begun are complete. -/
structure Waved (W : ι → List (List (Wr ι))) (s : WState ι) (a : ι → Nat) : Prop where
  later : ∀ r, s.later r = (W r).drop (a r)
  posted : ∀ d r x, s.posted d r x + cnt d x (s.todo r) = upTo (W r) d x (a r)
  done_le : ∀ d r x, s.done d r x ≤ s.posted d r x
  done_le_peer : ∀ d r x, s.done d r x ≤ s.posted (!d) x r

theorem waved_start : Waved W (wstart W) fun _ => 0 where
  later _ := rfl
  posted _ _ _ := rfl
  done_le _ _ _ := Nat.le_refl 0
  done_le_peer _ _ _ := Nat.le_refl 0

theorem waved_step {s s' : WState ι} {a : ι → Nat} (h : Waved W s a) (hs : WStep s s') :
    ∃ a', Waved W s' a' ∧
      (a' = a ∨ ∃ r, s.todo r = [] ∧ s.settled r ∧ a' = Function.update a r (a r + 1)) := by
  cases hs with
  | @post r w t hr =>
    refine ⟨a, ⟨h.later, fun d x y => ?_, fun d x y => ?_, fun d x y => ?_⟩, Or.inl rfl⟩
    · have hold := h.posted d x y
      by_cases hx : x = r
      · subst hx
        rw [hr, cnt_cons] at hold
        simp only [Function.update_self]
        by_cases hw : d = w.isSend ∧ x = x ∧ y = w.peer
        · obtain ⟨rfl, -, rfl⟩ := hw
          rw [bump_same]
          simp only [and_self, if_true] at hold
          omega
        · rw [bump_other hw]
          rw [if_neg fun e => hw ⟨e.1.symm, rfl, e.2.symm⟩] at hold
          exact hold
      · simp only [Function.update_of_ne hx, bump_other fun e : d = w.isSend ∧ x = r ∧ y = w.peer => hx e.2.1]
        exact hold
    · exact (h.done_le d x y).trans (le_bump ..)
    · exact (h.done_le_peer d x y).trans (le_bump ..)
  | @reap r x d hr h1 h2 =>
    refine ⟨a, ⟨h.later, h.posted, fun d' p q => ?_, fun d' p q => ?_⟩, Or.inl rfl⟩
    · by_cases he : d' = d ∧ p = r ∧ q = x
      · obtain ⟨rfl, rfl, rfl⟩ := he
        simp only [bump_same]
        exact h1
      · simp only [bump_other he]
        exact h.done_le d' p q
    · by_cases he : d' = d ∧ p = r ∧ q = x
      · obtain ⟨rfl, rfl, rfl⟩ := he
        simp only [bump_same]
        exact h2
      · simp only [bump_other he]
        exact h.done_le_peer d' p q
  | @wave r w l hr hset hl =>
    refine ⟨Function.update a r (a r + 1), ⟨fun x => ?_, fun d x y => ?_, h.done_le,
      h.done_le_peer⟩, Or.inr ⟨r, hr, hset, rfl⟩⟩
    · by_cases hx : x = r
      · subst hx
        have := h.later x
        rw [hl] at this
        simp only [Function.update_self]
        rw [← List.tail_drop, ← this]
        rfl
      · simp only [Function.update_of_ne hx]
        exact h.later x
    · have hold := h.posted d x y
      by_cases hx : x = r
      · subst hx
        have hd := h.later x
        rw [hl] at hd
        rw [hr] at hold
        simp only [Function.update_self]
        rw [upTo_succ hd.symm, ← hold]
        rfl
      · simp only [Function.update_of_ne hx]
        exact hold

/-- Every reachable state keeps the invariant. -/
theorem waved_reach {s : WState ι} (hs : Relation.ReflTransGen WStep (wstart W) s) :
    ∃ a, Waved W s a := by
  induction hs with
  | refl => exact ⟨_, waved_start⟩
  | tail _ hstep ih =>
    obtain ⟨a, ih⟩ := ih
    obtain ⟨a', h, -⟩ := waved_step ih hstep
    exact ⟨a', h⟩

/-- A settled process has posted and completed all of the waves it has begun. -/
theorem Waved.settled_eq {s : WState ι} {a : ι → Nat} (h : Waved W s a) {r : ι}
    (ht : s.todo r = []) (hset : s.settled r) (d : Bool) (x : ι) :
    s.done d r x = upTo (W r) d x (a r) := by
  have := h.posted d r x
  rw [ht] at this
  rw [hset d x, ← this]
  rfl

/-! ## Without a cycle -/

/-- Requests and counterparts are equal in number. -/
def Balanced (W : ι → List (List (Wr ι))) : Prop :=
  ∀ d p q, cnt d q (W p).flatten = cnt (!d) p (W q).flatten

/-- In a stuck state the wave of an unfinished process needs that of another one. -/
theorem stuck_needs (hbal : Balanced W) {s : WState ι} {a : ι → Nat} (h : Waved W s a)
    (hn : ∀ s', ¬ WStep s s') {r : ι} (hr : ¬ s.finished r) :
    ∃ x, ¬ s.finished x ∧ Needs W (r, a r - 1) (x, a x - 1) := by
  have htodo : ∀ y, s.todo y = [] := fun y => by
    cases hy : s.todo y with
    | nil => rfl
    | cons w t => exact absurd (.post hy) (hn _)
  -- some request of `r` has not completed, so its counterpart is not posted
  have hopen : ∀ y, ¬ s.finished y → ∃ d x, s.done d y x < s.posted d y x := by
    intro y hy
    by_contra hall
    have hset : s.settled y := fun d x => by
      by_contra hne
      exact hall ⟨d, x, Nat.lt_of_le_of_ne (h.done_le d y x) hne⟩
    cases hl : s.later y with
    | nil => exact hy ⟨hl, htodo y, hset⟩
    | cons w l => exact absurd (.wave (htodo y) hset hl) (hn _)
  have hposted : ∀ d y x, s.posted d y x = upTo (W y) d x (a y) := fun d y x => by
    have := h.posted d y x
    rw [htodo y] at this
    exact this
  have hbegun : ∀ y, ¬ s.finished y → 0 < a y := fun y hy => by
    obtain ⟨d, x, hlt⟩ := hopen y hy
    rw [hposted] at hlt
    by_contra h0
    rw [show a y = 0 by omega, upTo_zero] at hlt
    exact absurd hlt (Nat.not_lt_zero _)
  obtain ⟨d, x, hlt⟩ := hopen r hr
  have hpeer : s.posted (!d) x r ≤ s.done d r x := by
    by_contra hcon
    exact absurd (.reap (htodo r) hlt (Nat.lt_of_not_le hcon)) (hn _)
  have hneed : upTo (W x) (!d) r (a x) < upTo (W r) d x (a r) := by
    rw [← hposted, ← hposted]
    omega
  have hx : ¬ s.finished x := by
    rintro ⟨hl, -, -⟩
    rw [h.later x, List.drop_eq_nil_iff] at hl
    rw [upTo_all _ _ _ hl, ← hbal] at hneed
    have := upTo_mono (W r) d x (Nat.le_max_left (a r) (W r).length)
    rw [upTo_all _ _ _ (Nat.le_max_right (a r) (W r).length)] at this
    omega
  refine ⟨x, hx, d, ?_⟩
  have h1 := hbegun r hr
  have h2 := hbegun x hx
  simpa [Nat.sub_add_cancel h1, Nat.sub_add_cancel h2] using hneed

/-- **Without a cycle of needs no reachable state is stuck.** -/
theorem waves_progress (ranks : Finset ι) (hfin : ∀ r, r ∉ ranks → W r = []) (hbal : Balanced W)
    (hacyc : ∀ x, ¬ Relation.TransGen (Needs W) x x) {s : WState ι}
    (hs : Relation.ReflTransGen WStep (wstart W) s) {r : ι} (hr : ¬ s.finished r) :
    ∃ s', WStep s s' := by
  by_contra hcon
  have hn : ∀ s', ¬ WStep s s' := fun s' h => hcon ⟨s', h⟩
  obtain ⟨a, h⟩ := waved_reach hs
  have hin : {y | ¬ s.finished y} ⊆ ranks := by
    intro y hy
    by_contra hy'
    -- a process without waves has nothing to do
    have hW : W y = [] := hfin y (by simpa using hy')
    have h0 : ∀ d x, upTo (W y) d x (a y) = 0 := fun d x => by rw [hW]; simp [upTo, cnt]
    refine hy ⟨by rw [h.later, hW, List.drop_nil], ?_, fun d x => ?_⟩
    · cases ht : s.todo y with
      | nil => rfl
      | cons w t => exact absurd (.post ht) (hn _)
    · have h1 := h.posted d y x
      have h2 := h.done_le d y x
      rw [h0] at h1
      omega
  have hsub : {y | ¬ s.finished y}.Finite := ranks.finite_toSet.subset hin
  obtain ⟨y, hy⟩ := exists_cycle (R := fun y x => Needs W (y, a y - 1) (x, a x - 1)) hsub
    (a := r) hr fun y hy => stuck_needs hbal h hn hy
  exact hacyc _ (hy.lift (p := Needs W) (fun y => (y, a y - 1)) fun _ _ h => h)

/-! ## With a cycle -/

/-- A process whose begun waves are complete has what its last begun wave needs. -/
theorem Waved.not_needs {s : WState ι} {a : ι → Nat} (h : Waved W s a) {p q : ι} {i j : Nat}
    (ht : s.todo p = []) (hset : s.settled p)
    (hi : ∀ d x, upTo (W p) d x (i + 1) = upTo (W p) d x (a p)) (hj : a q ≤ j + 1) :
    ¬ Needs W (p, i) (q, j) := by
  rintro ⟨d, hd⟩
  have h1 := h.settled_eq ht hset d q
  have h2 := h.done_le_peer d p q
  have h3 := h.posted (!d) q p
  have h4 := upTo_mono (W q) (!d) p hj
  rw [hi, ← h1] at hd
  simp only at hd
  omega

/-- No wave of a cycle is ever left behind. -/
theorem cycle_bound {C : Set (ι × Nat)} (hC : ∀ x ∈ C, ∃ y ∈ C, Needs W x y) {s : WState ι}
    (hs : Relation.ReflTransGen WStep (wstart W) s) :
    ∃ a, Waved W s a ∧ ∀ x ∈ C, a x.1 ≤ x.2 + 1 := by
  induction hs with
  | refl => exact ⟨_, waved_start, fun _ _ => Nat.zero_le _⟩
  | tail _ hstep ih =>
    obtain ⟨a, h, hb⟩ := ih
    obtain ⟨a', h', rfl | ⟨r, ht, hset, rfl⟩⟩ := waved_step h hstep
    · exact ⟨a', h', hb⟩
    · refine ⟨_, h', fun x hx => ?_⟩
      by_cases hxr : x.1 = r
      · subst hxr
        rw [Function.update_self]
        rcases Nat.lt_or_eq_of_le (hb x hx) with hlt | heq
        · omega
        · -- the wave would be complete although it needs one that is not
          obtain ⟨y, hy, hneed⟩ := hC x hx
          exact absurd hneed (h.not_needs ht hset (fun d q => by rw [heq]) (hb y hy))
      · rw [Function.update_of_ne hxr]
        exact hb x hx

theorem cycle_unfinished {C : Set (ι × Nat)} (hC : ∀ x ∈ C, ∃ y ∈ C, Needs W x y) {s : WState ι}
    (hs : Relation.ReflTransGen WStep (wstart W) s) {x : ι × Nat} (hx : x ∈ C) :
    ¬ s.finished x.1 := by
  rintro ⟨hl, ht, hset⟩
  obtain ⟨a, h, hb⟩ := cycle_bound hC hs
  rw [h.later, List.drop_eq_nil_iff] at hl
  obtain ⟨y, hy, hneed⟩ := hC x hx
  have := hb x hx
  refine absurd hneed (h.not_needs ht hset (fun d q => ?_) (hb y hy))
  rw [upTo_all _ _ _ hl, upTo_all _ _ _ (by omega)]

/-! ## Every run is finite -/

/-- What is still to be posted and to be seen of the requests of one kind. -/
def remaining (W : ι → List (List (Wr ι))) (s : WState ι) (k : Bool × ι × ι) : Nat :=
  (cnt k.1 k.2.2 (W k.2.1).flatten - s.posted k.1 k.2.1 k.2.2) +
    (cnt k.1 k.2.2 (W k.2.1).flatten - s.done k.1 k.2.1 k.2.2)

/-- The steps still to come. -/
def stepsLeft (W : ι → List (List (Wr ι))) (ranks : Finset ι) (s : WState ι) : Nat :=
  (∑ k ∈ Finset.univ ×ˢ ranks ×ˢ ranks, remaining W s k) + ∑ r ∈ ranks, (s.later r).length

theorem Waved.posted_le {s : WState ι} {a : ι → Nat} (h : Waved W s a) (d : Bool) (r x : ι) :
    s.posted d r x + cnt d x (s.todo r) ≤ cnt d x (W r).flatten := by
  rw [h.posted]
  have := upTo_mono (W r) d x (Nat.le_max_left (a r) (W r).length)
  rwa [upTo_all _ _ _ (Nat.le_max_right (a r) (W r).length)] at this

/-- The sum drops when one of its terms does and no other changes. -/
theorem sum_remaining_lt {ranks : Finset ι} {s s' : WState ι} {d : Bool} {r x : ι}
    (hr : r ∈ ranks) (hx : x ∈ ranks) (hlt : remaining W s' (d, r, x) < remaining W s (d, r, x))
    (hother : ∀ k, k ≠ (d, r, x) → remaining W s' k = remaining W s k) :
    ∑ k ∈ Finset.univ ×ˢ ranks ×ˢ ranks, remaining W s' k <
      ∑ k ∈ Finset.univ ×ˢ ranks ×ˢ ranks, remaining W s k := by
  refine Finset.sum_lt_sum (fun k _ => ?_) ⟨(d, r, x), ?_, hlt⟩
  · by_cases hk : k = (d, r, x)
    · subst hk; exact Nat.le_of_lt hlt
    · exact Nat.le_of_eq (hother k hk)
  · simp [hr, hx]

/-- A kind of request that exists is between processes at work. -/
theorem peers_mem {ranks : Finset ι} (hfin : ∀ r, r ∉ ranks → W r = [])
    (hpeer : ∀ r, ∀ w ∈ (W r).flatten, w.peer ∈ ranks) {d : Bool} {r x : ι}
    (h : 0 < cnt d x (W r).flatten) : r ∈ ranks ∧ x ∈ ranks := by
  obtain ⟨w, hw, hwx⟩ := List.countP_pos_iff.mp h
  simp only [decide_eq_true_eq] at hwx
  refine ⟨?_, hwx.2 ▸ hpeer r w hw⟩
  by_contra hr
  rw [hfin r hr] at hw
  exact absurd hw (by simp)

theorem stepsLeft_lt {ranks : Finset ι} (hfin : ∀ r, r ∉ ranks → W r = [])
    (hpeer : ∀ r, ∀ w ∈ (W r).flatten, w.peer ∈ ranks) {s s' : WState ι} {a : ι → Nat}
    (h : Waved W s a) (hs : WStep s s') : stepsLeft W ranks s' < stepsLeft W ranks s := by
  unfold stepsLeft
  cases hs with
  | @post r w t hr =>
    have hle := h.posted_le w.isSend r w.peer
    rw [hr, cnt_cons, if_pos ⟨rfl, rfl⟩] at hle
    obtain ⟨h1, h2⟩ := peers_mem hfin hpeer (show 0 < cnt w.isSend w.peer (W r).flatten by omega)
    refine Nat.add_lt_add_right (sum_remaining_lt (d := w.isSend) h1 h2 ?_ fun k hk => ?_) _
    · simp only [remaining, bump_same]
      omega
    · have hk' : ¬ (k.1 = w.isSend ∧ k.2.1 = r ∧ k.2.2 = w.peer) := fun e =>
        hk (Prod.ext e.1 (Prod.ext e.2.1 e.2.2))
      simp only [remaining, bump_other hk']
  | @reap r x d hr hlt hlt' =>
    have hle := h.posted_le d r x
    obtain ⟨h1, h2⟩ := peers_mem hfin hpeer (show 0 < cnt d x (W r).flatten by omega)
    refine Nat.add_lt_add_right (sum_remaining_lt (d := d) h1 h2 ?_ fun k hk => ?_) _
    · simp only [remaining, bump_same]
      omega
    · have hk' : ¬ (k.1 = d ∧ k.2.1 = r ∧ k.2.2 = x) := fun e =>
        hk (Prod.ext e.1 (Prod.ext e.2.1 e.2.2))
      simp only [remaining, bump_other hk']
  | @wave r w l hr hset hl =>
    have hmem : r ∈ ranks := by
      by_contra hr'
      have := h.later r
      rw [hfin r hr', hl, List.drop_nil] at this
      exact absurd this (by simp)
    refine Nat.add_lt_add_left (Finset.sum_lt_sum (fun x _ => ?_) ⟨r, hmem, ?_⟩) _
    · by_cases hx : x = r
      · subst hx; simp [hl]
      · simp [hx]
    · simp [hl]

theorem acc_wstep {ranks : Finset ι} (hfin : ∀ r, r ∉ ranks → W r = [])
    (hpeer : ∀ r, ∀ w ∈ (W r).flatten, w.peer ∈ ranks) :
    Acc (fun x y => WStep y x) (wstart W) := by
  suffices h : ∀ N (s : WState ι) a, Waved W s a → stepsLeft W ranks s = N →
      Acc (fun x y => WStep y x) s from h _ _ _ waved_start rfl
  intro N
  induction N using Nat.strong_induction_on with
  | _ N ih =>
    rintro s a h rfl
    refine ⟨_, fun s' hs => ?_⟩
    obtain ⟨a', h', -⟩ := waved_step h hs
    exact ih _ (stepsLeft_lt hfin hpeer h hs) s' a' h' rfl

/-- **With a cycle of needs, some run gets stuck** with a process unfinished. -/
theorem waves_stuck (ranks : Finset ι) (hfin : ∀ r, r ∉ ranks → W r = [])
    (hpeer : ∀ r, ∀ w ∈ (W r).flatten, w.peer ∈ ranks) {x : ι × Nat}
    (hx : Relation.TransGen (Needs W) x x) :
    ∃ s, Relation.ReflTransGen WStep (wstart W) s ∧ (∃ r ∈ ranks, ¬ s.finished r) ∧
      ∀ s', ¬ WStep s s' := by
  obtain ⟨s, hs, hn⟩ := exists_terminal (acc_wstep hfin hpeer)
  have hmem : x.1 ∈ ranks := by
    obtain ⟨z, ⟨d, hd⟩, -⟩ := Relation.TransGen.head'_iff.mp hx
    by_contra hr
    rw [hfin x.1 hr] at hd
    simp [upTo, cnt] at hd
  refine ⟨s, hs, ⟨x.1, hmem, ?_⟩, hn⟩
  -- the waves that lie on a cycle through `x`
  refine cycle_unfinished (C := {y | Relation.TransGen (Needs W) y x}) (fun y hy => ?_) hs hx
  rcases Relation.TransGen.head'_iff.mp hy with ⟨z, hyz, hzx⟩
  rcases Relation.reflTransGen_iff_eq_or_transGen.mp hzx with rfl | h
  · exact ⟨x, hx, hyz⟩
  · exact ⟨z, h, hyz⟩

end Vccl.Net
