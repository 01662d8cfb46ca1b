import Vccl.Net.Process

/-!
# What a process can write

A library; it names no program. If every instruction of a process writes addresses of a set `W`
only, no run of all processes together ever changes another address of its memory, at any moment
(`frame_reach`).
-/

namespace Vccl.Net

variable {ι A V : Type} [DecidableEq ι] [DecidableEq A]

/-- The instruction writes addresses of `W` only, a receive it posts included. -/
def Instr.Within (W : A → Prop) : Instr ι A V → Prop
  | .cpu f => ∀ m a, ¬ W a → f m a = m a
  | .post reqs => ∀ q ∈ reqs, ∀ a ∈ q.2, W a
  | .xchg _ inn => ∀ q ∈ inn, ∀ a ∈ q.2, W a

/-- Every process has code within its set left, and no other address has changed. -/
structure Framed (W : ι → A → Prop) (m : ι → A → V) (c : Cfg ι A V) : Prop where
  code : ∀ r, ∀ i ∈ c.code r, i.Within (W r)
  mem : ∀ r a, ¬ W r a → c.mem r a = m r a

variable {W : ι → A → Prop} {m : ι → A → V} {c c' : Cfg ι A V}

omit [DecidableEq A] in
/-- Code and memory of the process that moves are all there is to check. -/
theorem Framed.update (h : Framed W m c) {r : ι} {k : List (Instr ι A V)} (m' : A → V)
    (ch : ι → ι → List (List V)) (hk : ∀ i ∈ k, i.Within (W r))
    (hm : ∀ a, ¬ W r a → m' a = c.mem r a) :
    Framed W m ⟨Function.update c.code r k, Function.update c.mem r m', ch⟩ where
  code x := by
    by_cases hx : x = r
    · subst hx
      simpa using hk
    · simpa [Function.update_of_ne hx] using h.code x
  mem x a ha := by
    by_cases hx : x = r
    · subst hx
      simp only [Function.update_self]
      exact (hm a ha).trans (h.mem x a ha)
    · simp only [Function.update_of_ne hx]
      exact h.mem x a ha

theorem framed_step (h : Framed W m c) (hs : Step c c') : Framed W m c' := by
  obtain ⟨a, ha⟩ := hs
  cases a with
  | loc r =>
    obtain ⟨i, k, m', hc, hi, rfl⟩ := loc_cases ha
    have hcode := h.code r
    rw [hc] at hcode
    refine h.update _ _ (fun j hj => hcode j (List.mem_cons_of_mem i hj)) fun b hb => ?_
    have hin := hcode i List.mem_cons_self
    rcases run_cases hi with ⟨f, rfl, rfl⟩ | ⟨q, rfl, rfl⟩ | ⟨rfl, rfl⟩
    · exact hin _ b hb
    · rfl
    · rfl
  | snd r =>
    obtain ⟨q, s, inn, k, hc, rfl⟩ := snd_cases ha
    have hcode := h.code r
    rw [hc] at hcode
    have hupd : ∀ k : List (Instr ι A V), (∀ i ∈ k, i.Within (W r)) →
        Framed W m ⟨Function.update c.code r k, c.mem,
          setPair c.chan r q (c.chan r q ++ [load (c.mem r) s])⟩ := fun k hk => by
      have := h.update (c.mem r) (setPair c.chan r q (c.chan r q ++ [load (c.mem r) s])) hk
        fun _ _ => rfl
      rwa [Function.update_eq_self] at this
    refine hupd _ fun j hj => ?_
    rcases List.mem_cons.mp hj with rfl | hj
    · exact hcode (.xchg (some (q, s)) inn) List.mem_cons_self
    · exact hcode j (List.mem_cons_of_mem _ hj)
  | rcv r =>
    obtain ⟨p, s, out, k, d, ds, hc, -, rfl⟩ := rcv_cases ha
    have hcode := h.code r
    rw [hc] at hcode
    refine h.update _ _ (fun j hj => ?_) fun b hb => ?_
    · rcases List.mem_cons.mp hj with rfl | hj
      · intro q hq
        exact absurd hq (by simp)
      · exact hcode j (List.mem_cons_of_mem _ hj)
    · exact store_of_not_mem fun hbs => hb (hcode _ List.mem_cons_self (p, s) rfl b hbs)

/-- **No run writes outside.** -/
theorem frame_reach {prog : ι → List (Instr ι A V)} (hW : ∀ r, ∀ i ∈ prog r, i.Within (W r))
    (h : Relation.ReflTransGen Step (start prog m) c) (r : ι) (a : A) (ha : ¬ W r a) :
    c.mem r a = m r a := by
  have hinv : Framed W m c := by
    induction h with
    | refl => exact ⟨hW, fun _ _ _ => rfl⟩
    | tail _ hs ih => exact framed_step ih hs
  exact hinv.mem r a ha

end Vccl.Net
