import Vccl.Bounds
import Vccl.Net.Turns

/-!
# What a local call depends on

`Call.reads` and `Call.writes` (`Vccl.Bounds`) are the ranges a call of `collectives.cc` looks at and
changes. For the calls that involve no other rank they are a footprint in the strict sense
(`footprint_cpu`): nothing else changes, and what is written is a function of what is read. So such
a call does not notice what the network card does to a slice apart from its ranges
(`ignores_call`), nor what other code does to the rest of the memory.
-/

namespace Vccl

/-- The address lies in one of the ranges. -/
def Touches (L : List Range) (a : Ptr) : Prop := ∃ x ∈ L, InRange x.1 x.2 a

theorem touches_cons {x : Range} {L : List Range} {a : Ptr} :
    Touches (x :: L) a ↔ InRange x.1 x.2 a ∨ Touches L a := List.exists_mem_cons_iff ..

theorem not_touches_nil (a : Ptr) : ¬ Touches [] a := fun ⟨_, hx, _⟩ => absurd hx List.not_mem_nil

theorem touches_single {x : Range} {a : Ptr} : Touches [x] a ↔ InRange x.1 x.2 a := by
  rw [touches_cons]
  exact or_iff_left (not_touches_nil a)

/-- Written elements depend on the values put there only. -/
theorem putWords_agree {e c : Nat} {m m' : Mem} {p a : Ptr} {g g' : Nat → Word e}
    (h : ∀ i, i < c → g i = g' i) (ha : InRange p (c * e) a) :
    putWords e m p c g a = putWords e m' p c g' a := by
  unfold putWords
  rw [dif_pos ha, dif_pos ha]
  obtain ⟨-, h1, h2⟩ := ha
  have hi : (a.off - p.off) / e < c := Nat.div_lt_of_lt_mul (by rw [Nat.mul_comm]; omega)
  rw [h _ hi]

/-- Elements over memories that agree on their range. -/
theorem word_agree {e c i : Nat} {m m' : Mem} {p : Ptr}
    (h : ∀ a, InRange p (c * e) a → m a = m' a) (hi : i < c) : word e m p i = word e m' p i := by
  funext j
  exact h _ (inRange_add.mpr (index_lt hi j.isLt))

/-- A local step writes addresses of `L'` only, and what it writes depends on `L`. -/
structure Footprint (L L' : List Range) (f : Mem → Mem) : Prop where
  frame : ∀ m a, ¬ Touches L' a → f m a = m a
  agree : ∀ m m', (∀ a, Touches L a → m a = m' a) → ∀ a, Touches L' a → f m a = f m' a

theorem footprint_id : Footprint [] [] id :=
  ⟨fun _ _ _ => rfl, fun _ _ _ a h => absurd h (not_touches_nil a)⟩

/-- A kernel that puts elements computed from memory. -/
theorem footprint_putWords {e c : Nat} {L : List Range} {p : Ptr} {g : Mem → Nat → Word e}
    (h : ∀ m m', (∀ a, Touches L a → m a = m' a) → ∀ i, i < c → g m i = g m' i) :
    Footprint L [(p, c * e)] fun m => putWords e m p c (g m) where
  frame _ _ ha := putWords_miss fun hr => ha (touches_single.mpr hr)
  agree m m' hm _ ha := putWords_agree (h m m' hm) (touches_single.mp ha)

theorem footprint_memcpy (dst src : Ptr) (bytes : Nat) :
    Footprint [(src, bytes)] [(dst, bytes)] fun m => memcpy m dst src bytes where
  frame _ _ ha := memcpy_miss fun hr => ha (touches_single.mpr hr)
  agree m m' hm a ha := by
    obtain ⟨j, hj, rfl⟩ := (touches_single.mp ha).exists_add
    rw [memcpy_hit hj, memcpy_hit hj]
    exact hm _ (touches_single.mpr (inRange_add.mpr hj))

theorem half_eq_none {peer bytes : Nat} {buf : Ptr} (h : half peer buf bytes = none) : bytes = 0 := by
  by_contra h0
  rw [half, if_neg h0] at h
  cases h

theorem half_eq_some {peer bytes q : Nat} {buf : Ptr} {s : List Ptr}
    (h : half peer buf bytes = some (q, s)) : q = peer ∧ s = slice buf bytes := by
  unfold half at h
  split at h
  · cases h
  · obtain ⟨rfl, rfl⟩ := Prod.mk.inj (Option.some.inj h)
    exact ⟨rfl, rfl⟩

/-- **A local call has the footprint of its ranges.** -/
theorem footprint_cpu (K : Kernels) {c : Call} {f : Mem → Mem} (h : c.instr K = .cpu f) :
    Footprint c.reads c.writes f := by
  cases c with
  | regAdd b n =>
    cases h
    exact footprint_id
  | scratchAt n =>
    cases h
    exact footprint_id
  | memcpy d s n =>
    cases h
    exact footprint_memcpy d s n
  | cpuReduce dt op d s n =>
    cases h
    refine footprint_putWords fun m m' hm i hi => ?_
    rw [word_agree (fun a ha => hm a (touches_cons.mpr (.inl ha))) hi,
      word_agree (fun a ha => hm a (touches_cons.mpr (.inr (touches_single.mpr ha)))) hi]
  | cpuScale dt d n k =>
    cases h
    refine footprint_putWords fun m m' hm i hi => ?_
    rw [word_agree (fun a ha => hm a (touches_single.mpr ha)) hi]
  | cpuScaleCopy dt d s n k =>
    cases h
    refine footprint_putWords fun m m' hm i hi => ?_
    rw [word_agree (fun a ha => hm a (touches_single.mpr ha)) hi]
  | cpuScaledAccumulate dt d s n k =>
    cases h
    refine footprint_putWords fun m m' hm i hi => ?_
    rw [word_agree (fun a ha => hm a (touches_cons.mpr (.inl ha))) hi,
      word_agree (fun a ha => hm a (touches_cons.mpr (.inr (touches_single.mpr ha)))) hi]
  | postRecvs reqs => cases h
  | send peer buf bytes =>
    simp only [Call.instr] at h
    split at h
    · cases h
    · cases h
      exact ⟨fun _ _ _ => rfl, fun _ _ _ a ha => absurd ha (not_touches_nil a)⟩
  | recv peer buf bytes =>
    simp only [Call.instr] at h
    split at h
    · cases h
    · rename_i hnone
      cases h
      refine ⟨fun _ _ _ => rfl, fun m m' hm a ha => ?_⟩
      obtain ⟨-, h1, h2⟩ := touches_single.mp ha
      simp only [half_eq_none hnone] at h1 h2
      omega
  | sendRecv sp sb sn rp rb rn => cases h

theorem sep_slice {p q : Ptr} {b c : Nat} (h : Apart p b q c) : Net.Sep (slice p b) (slice q c) :=
  fun _ ha => h.not_mem ha

/-- A local call ignores a slice that is apart from its ranges. -/
theorem ignores_call (K : Kernels) {c : Call} {f : Mem → Mem} (h : c.instr K = .cpu f) {p : Ptr}
    {b : Nat} (hr : ∀ x ∈ c.reads, Apart p b x.1 x.2) (hw : ∀ x ∈ c.writes, Apart p b x.1 x.2) :
    Net.Ignores f (slice p b) := by
  have hmiss : ∀ {L : List Range}, (∀ x ∈ L, Apart p b x.1 x.2) → ∀ a ∈ slice p b, ¬ Touches L a := by
    rintro L hL a ha ⟨x, hx, hin⟩
    exact (hL x hx).not_mem ha (mem_slice.mpr hin)
  have hf := footprint_cpu K h
  exact Net.ignores_of_footprint hf.frame hf.agree (hmiss hr) (hmiss hw)

end Vccl
