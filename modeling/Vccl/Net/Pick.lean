import Vccl.Net.Combine

/-!
# Picking the larger of two values by a partial key

A library about one kind of reduction; it names no program. A value either has a key in a linear
order or none. `pick g key a b` takes `a` when both have keys and that of `a` is the larger, and
otherwise `b`; the value taken is passed through `g`, which changes only values without a key.

So `pick` is not commutative: on equal keys, and when a key is missing, it takes its second
operand. `butterfly_pick_agree_iff` says when partners that pick from each other over `i` rounds
nevertheless agree: when no value has a key and `g` maps all to one value, or when all have keys and
those with the largest key are one value.

Two facts carry the proof. The value of a place is always one of its group's inputs, and an input
that no other of the group beats is never lost: its place's partner takes it over
(`butterfly_origin`, `butterfly_onto`).
-/

namespace Vccl.Net

section Pick

variable {α β : Type} [LinearOrder β]

/-- Both have keys, and that of `a` is the larger. -/
def Beats (key : α → Option β) (a b : α) : Prop := ∃ i j, key a = some i ∧ key b = some j ∧ j < i

instance (key : α → Option β) (a b : α) : Decidable (Beats key a b) :=
  match ha : key a, hb : key b with
  | some i, some j =>
    decidable_of_iff (j < i) ⟨fun h => ⟨i, j, ha, hb, h⟩, fun ⟨i', j', hi, hj, h⟩ => by
      rw [ha] at hi; rw [hb] at hj; cases hi; cases hj; exact h⟩
  | none, _ => isFalse fun ⟨_, _, hi, _, _⟩ => by rw [ha] at hi; cases hi
  | some _, none => isFalse fun ⟨_, _, _, hj, _⟩ => by rw [hb] at hj; cases hj

/-- The first if it beats the second, else the second. -/
def pick (g : α → α) (key : α → Option β) (a b : α) : α := g (if Beats key a b then a else b)

/-- `g` changes no value that has a key, and settles the others in one go. -/
structure Settles (g : α → α) (key : α → Option β) : Prop where
  keyed : ∀ a, key a ≠ none → g a = a
  keyless : ∀ a, key a = none → key (g a) = none
  idem : ∀ a, g (g a) = g a

variable {g : α → α} {key : α → Option β} {x : Nat → α}

omit [LinearOrder β] in
theorem Settles.key_eq (hg : Settles g key) (a : α) : key (g a) = key a := by
  by_cases h : key a = none
  · rw [hg.keyless a h, h]
  · rw [hg.keyed a h]

theorem pick_of_not_beats {a b : α} (h : ¬ Beats key a b) : pick g key a b = g b := by
  rw [pick, if_neg h]

theorem not_beats_of_none {a b : α} (h : key a = none ∨ key b = none) : ¬ Beats key a b := by
  rintro ⟨i, j, hi, hj, -⟩
  rcases h with h | h
  · rw [h] at hi; cases hi
  · rw [h] at hj; cases hj

theorem key_pick (hg : Settles g key) (a b : α) :
    key (pick g key a b) = if Beats key a b then key a else key b := by
  rw [pick, hg.key_eq]
  split <;> rfl

theorem butterfly_settled (hg : Settles g key) {i : Nat} (hi : 0 < i) (r : Nat) :
    g (butterfly (pick g key) x i r) = butterfly (pick g key) x i r := by
  obtain ⟨j, rfl⟩ : ∃ j, i = j + 1 := ⟨i - 1, by omega⟩
  exact hg.idem _

/-! ### Where values come from and which of them stay -/

/-- Every value is, up to `g`, one of its group's. -/
theorem butterfly_origin (hg : Settles g key) : ∀ i r : Nat,
    ∃ r', r' >>> i = r >>> i ∧ g (butterfly (pick g key) x i r) = g (x r')
  | 0, r => ⟨r, rfl, rfl⟩
  | i + 1, r => by
    rw [butterfly, pick, hg.idem]
    split
    · obtain ⟨r', hr', h⟩ := butterfly_origin hg i r
      exact ⟨r', by rw [shiftRight_succ, shiftRight_succ, hr'], h⟩
    · obtain ⟨r', hr', h⟩ := butterfly_origin hg i (r ^^^ (1 <<< i))
      exact ⟨r', by rw [← xor_shiftRight_succ r, shiftRight_succ, shiftRight_succ, hr'], h⟩

omit [LinearOrder β] in
theorem key_origin (hg : Settles g key) {a b : α} (h : g a = g b) : key a = key b := by
  rw [← hg.key_eq a, h, hg.key_eq]

/-- A value that no other of the group beats is never lost. -/
theorem butterfly_onto (hg : Settles g key) : ∀ {i r : Nat},
    (∀ r', r' >>> i = r >>> i → ¬ Beats key (x r') (x r)) →
    ∃ r', r' >>> i = r >>> i ∧ g (butterfly (pick g key) x i r') = g (x r)
  | 0, r, _ => ⟨r, rfl, rfl⟩
  | i + 1, r, h => by
    obtain ⟨r', hr', he⟩ := butterfly_onto hg (i := i) (r := r) fun s hs =>
      h s (by rw [shiftRight_succ, shiftRight_succ, hs])
    have hgrp : (r' ^^^ (1 <<< i)) >>> (i + 1) = r >>> (i + 1) := by
      rw [xor_shiftRight_succ, shiftRight_succ, shiftRight_succ, hr']
    -- the partner takes it over, since it has nothing to beat it with
    refine ⟨r' ^^^ (1 <<< i), hgrp, ?_⟩
    rw [butterfly, xor_xor_self, pick, hg.idem, if_neg, he]
    rintro ⟨a, b, ha, hb, hlt⟩
    obtain ⟨s, hs, hse⟩ := butterfly_origin hg (x := x) i (r' ^^^ (1 <<< i))
    refine h s ?_ ⟨a, b, ?_, ?_, hlt⟩
    · rw [shiftRight_succ, hs, ← shiftRight_succ, hgrp]
    · rw [← key_origin hg hse, ha]
    · rw [← key_origin hg he, hb]

/-- A group that starts with a value that has a key has one after every round. -/
theorem exists_keyed (hg : Settles g key) : ∀ {i r : Nat}, key (x r) ≠ none →
    ∃ r', r' >>> i = r >>> i ∧ key (butterfly (pick g key) x i r') ≠ none
  | 0, r, h => ⟨r, rfl, h⟩
  | i + 1, r, h => by
    obtain ⟨r', hr', hk⟩ := exists_keyed hg (i := i) h
    refine ⟨r' ^^^ (1 <<< i), ?_, ?_⟩
    · rw [xor_shiftRight_succ, shiftRight_succ, shiftRight_succ, hr']
    · rw [butterfly, xor_xor_self, key_pick hg]
      split
      · rename_i hb
        obtain ⟨a, b, ha, -, -⟩ := hb
        rw [ha]
        exact Option.some_ne_none a
      · exact hk

/-- When all values have keys, no value of the group beats the one a place has. -/
theorem butterfly_largest (hg : Settles g key) : ∀ {i r : Nat},
    (∀ r', r' >>> i = r >>> i → key (x r') ≠ none) →
    ∀ r', r' >>> i = r >>> i → ¬ Beats key (x r') (butterfly (pick g key) x i r)
  | 0, r, _, r', h => by
    simp only [Nat.shiftRight_zero] at h
    subst h
    rintro ⟨a, b, ha, hb, hlt⟩
    rw [butterfly, ha] at hb
    cases hb
    exact lt_irrefl _ hlt
  | i + 1, r, hx, r', h => by
    have hsub : ∀ s t, s >>> i = t >>> i → s >>> (i + 1) = t >>> (i + 1) := fun s t hst => by
      rw [shiftRight_succ, shiftRight_succ, hst]
    have hown := butterfly_largest hg (i := i) (r := r) fun s hs => hx s (hsub s r hs)
    have hpar := butterfly_largest hg (i := i) (r := r ^^^ (1 <<< i)) fun s hs =>
      hx s (by rw [hsub s _ hs, xor_shiftRight_succ])
    obtain ⟨s, hs, hse⟩ := butterfly_origin hg (x := x) i r
    obtain ⟨t, ht, hte⟩ := butterfly_origin hg (x := x) i (r ^^^ (1 <<< i))
    obtain ⟨u, hu⟩ := Option.ne_none_iff_exists'.mp (hx s (hsub s r hs))
    obtain ⟨v, hv⟩ := Option.ne_none_iff_exists'.mp
      (hx t (by rw [hsub t _ ht, xor_shiftRight_succ]))
    rw [← key_origin hg hse] at hu
    rw [← key_origin hg hte] at hv
    rintro ⟨a, b, ha, hb, hlt⟩
    rw [butterfly, key_pick hg] at hb
    rcases group_succ h with h | h
    · refine hown r' h ⟨a, u, ha, hu, ?_⟩
      split at hb
      · rw [hu] at hb; cases hb; exact hlt
      · rename_i hnb
        rw [hv] at hb; cases hb
        exact lt_of_le_of_lt (not_lt.mp fun e => hnb ⟨u, _, hu, hv, e⟩) hlt
    · refine hpar r' h ⟨a, v, ha, hv, ?_⟩
      split at hb
      · rename_i hbt
        obtain ⟨u', v', hu', hv', hlt'⟩ := hbt
        rw [hu] at hb hu'; rw [hv] at hv'
        cases hb; cases hu'; cases hv'
        exact lt_trans hlt' hlt
      · rw [hv] at hb; cases hb; exact hlt

/-! ### Agreement -/

/-- No value below `N` beats value `r`. -/
def Unbeaten (key : α → Option β) (x : Nat → α) (N r : Nat) : Prop :=
  ∀ r', r' < N → ¬ Beats key (x r') (x r)

/-- All of the first `N` values have keys or none has, and those that none beats are one value, up
to `g`. -/
structure Decided (g : α → α) (key : α → Option β) (x : Nat → α) (N : Nat) : Prop where
  pure : (∀ r, r < N → key (x r) = none) ∨ ∀ r, r < N → key (x r) ≠ none
  top : ∀ r, r < N → ∀ r', r' < N → Unbeaten key x N r → Unbeaten key x N r' → g (x r) = g (x r')

/-- **Partners that pick from each other agree exactly on decided inputs.** -/
theorem butterfly_pick_agree_iff (hg : Settles g key) {i : Nat} (hi : 0 < i) :
    (∀ r, r < 2 ^ i → ∀ r', r' < 2 ^ i →
      butterfly (pick g key) x i r = butterfly (pick g key) x i r') ↔ Decided g key x (2 ^ i) := by
  have hgrp : ∀ {r r' : Nat}, r < 2 ^ i → (r' >>> i = r >>> i ↔ r' < 2 ^ i) := by
    intro r r' hr
    rw [Nat.shiftRight_eq_div_pow, Nat.shiftRight_eq_div_pow, Nat.div_eq_of_lt hr,
      Nat.div_eq_zero_iff_lt (Nat.two_pow_pos i)]
  constructor
  · intro hagree
    have hstay : ∀ {r}, r < 2 ^ i → Unbeaten key x (2 ^ i) r → ∀ s, s < 2 ^ i →
        g (butterfly (pick g key) x i s) = g (x r) := by
      intro r hr hun s hs
      obtain ⟨r', hr', he⟩ := butterfly_onto hg (x := x) (i := i) (r := r) fun r' h =>
        hun r' ((hgrp hr).mp h)
      rw [hagree s hs r' ((hgrp hr).mp hr'), he]
    refine ⟨?_, fun r hr r' hr' hu hu' => (hstay hr hu r hr).symm.trans (hstay hr' hu' r hr)⟩
    by_contra hmix
    simp only [not_or, not_forall] at hmix
    obtain ⟨⟨p, hp, hkp⟩, q, hq, hkq⟩ := hmix
    -- the value without a key and one with a key both stay
    obtain ⟨p', hp', hkp'⟩ := exists_keyed hg (i := i) hkp
    have hq' := hstay hq (fun r' _ => not_beats_of_none (.inr (not_not.mp hkq))) p'
      ((hgrp hp).mp hp')
    exact hkp' (by rw [key_origin hg hq']; exact not_not.mp hkq)
  · intro hdec r hr r' hr'
    have htop : ∀ s, s < 2 ^ i → ∃ t, t < 2 ^ i ∧ Unbeaten key x (2 ^ i) t ∧
        butterfly (pick g key) x i s = g (x t) := by
      intro s hs
      obtain ⟨t, ht, he⟩ := butterfly_origin hg (x := x) i s
      rw [butterfly_settled hg hi] at he
      refine ⟨t, (hgrp hs).mp ht, fun u hu => ?_, he⟩
      rcases hdec.pure with hn | hk
      · exact not_beats_of_none (.inl (hn u hu))
      · have hl := butterfly_largest hg (x := x) (i := i) (r := s)
          (fun u h => hk u ((hgrp hs).mp h)) u ((hgrp hs).mpr hu)
        rintro ⟨a, b, ha, hb, hlt⟩
        exact hl ⟨a, b, ha, by rw [he, hg.key_eq, hb], hlt⟩
    obtain ⟨t, ht, hut, he⟩ := htop r hr
    obtain ⟨t', ht', hut', he'⟩ := htop r' hr'
    rw [he, he', hdec.top t ht t' ht' hut hut']

end Pick

end Vccl.Net
