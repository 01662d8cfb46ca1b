import Vccl.Net.Prepost

/-!
# Code that posts its receives and then takes them in turn

A library; it names no program. A process often announces all receives of a loop at once and then
runs the loop: an exchange that takes the oldest announced receive, and local steps on what has
arrived (`Turn`). Whether such code is careful is a question about pairs of turns (`Turn.Before`):
while the earlier one runs, the receive of the later one is pending.

* `along_turns`: turns that are pairwise in order are careful, and leave nothing pending;
* `along_quiet`: so is code that posts nothing ahead, if no exchange sends what it receives into;
* `ignores_of_footprint`: a local step ignores a slice that is apart from what it reads and writes.
-/

namespace Vccl.Net

variable {ι A V : Type} [DecidableEq ι] [DecidableEq A] {B : List A → Bool}

/-- An exchange and the local steps after it. -/
structure Turn (ι A V : Type) where
  out : Option (ι × List A)
  inn : Option (ι × List A)
  steps : List ((A → V) → A → V)

def Turn.code (x : Turn ι A V) : List (Instr ι A V) := .xchg x.out x.inn :: x.steps.map .cpu

/-- The exchange does not send what it receives into. -/
def OwnSep (out inn : Option (ι × List A)) : Prop :=
  ∀ q u p s, out = some (q, u) → inn = some (p, s) → Sep u s

/-- Turn `x` does not disturb the receive of the later turn `y`, which is pending meanwhile. -/
structure Turn.Before (B : List A → Bool) (x y : Turn ι A V) : Prop where
  inner : ∀ p s q u, x.inn = some (p, s) → y.inn = some (q, u) → Sep s u
  outer : ∀ p s q u, x.out = some (p, s) → y.inn = some (q, u) → q ≠ p → Sep s u
  direct : ∀ q u, y.inn = some (q, u) → B u = false
  steps : ∀ q u, y.inn = some (q, u) → ∀ f ∈ x.steps, Ignores f u

/-- Local steps leave the pending receives as they are. -/
theorem along_steps {F : List (ι × List A)} {k : List (Instr ι A V)}
    (hk : Along (Careful B) F k) : ∀ {steps : List ((A → V) → A → V)},
      (∀ f ∈ steps, ∀ x ∈ F, Ignores f x.2) → Along (Careful B) F (steps.map .cpu ++ k)
  | [], _ => hk
  | f :: steps, h => by
    refine ⟨fun x hx _ => h f List.mem_cons_self x hx, ?_⟩
    exact along_steps hk fun g hg => h g (List.mem_cons_of_mem f hg)

omit [DecidableEq A] in
/-- The first pending receive is the one its exchange takes. -/
theorem unsel_cons_self (p : ι) (s : List A) (F : List (ι × List A)) : unsel p ((p, s) :: F) = F := by
  unfold unsel
  rw [List.eraseP_cons_of_pos (by simp)]

/-- **Turns in order are careful**, with the receives of all of them pending before the first, and
nothing after the last. -/
theorem along_turns : ∀ {turns : List (Turn ι A V)}, (∀ x ∈ turns, OwnSep x.out x.inn) →
    turns.Pairwise (Turn.Before B) →
    Along (Careful B) (turns.filterMap Turn.inn) (turns.flatMap Turn.code)
  | [], _, _ => rfl
  | x :: turns, hown, hpair => by
    obtain ⟨hx, hrest⟩ := List.pairwise_cons.mp hpair
    have hlater : ∀ z ∈ turns.filterMap Turn.inn, ∃ y ∈ turns, y.inn = some z := by
      intro z hz
      obtain ⟨y, hy, hz⟩ := List.mem_filterMap.mp hz
      exact ⟨y, hy, hz⟩
    have hpend : (Instr.xchg (V := V) x.out x.inn).pend ((x :: turns).filterMap Turn.inn) =
        turns.filterMap Turn.inn := by
      rw [List.filterMap_cons]
      cases hi : x.inn with
      | none => rfl
      | some ps => exact unsel_cons_self ps.1 ps.2 _
    have hxchg : CarefulXchg (V := V) B ((x :: turns).filterMap Turn.inn) x.out x.inn := by
      constructor
      · intro p s hi u hu
        rw [List.filterMap_cons, hi] at hu
        simp only [sel_cons, if_true, List.head?_cons, Option.mem_some_iff] at hu
        exact hu.symm
      · intro p s hi z hz
        rw [List.filterMap_cons, hi] at hz
        simp only [unsel_cons_self] at hz
        obtain ⟨y, hy, hyi⟩ := hlater z hz
        exact (hx y hy).inner p s z.1 z.2 hi hyi
      · exact hown x List.mem_cons_self
      · intro q u ho z hz hne
        rw [hpend] at hz
        obtain ⟨y, hy, hyi⟩ := hlater z hz
        exact (hx y hy).outer q u z.1 z.2 ho hyi hne
      · intro z hz
        rw [hpend] at hz
        obtain ⟨y, hy, hyi⟩ := hlater z hz
        exact (hx y hy).direct z.1 z.2 hyi
    have ih := along_turns (fun y hy => hown y (List.mem_cons_of_mem x hy)) hrest
    rw [List.flatMap_cons]
    refine ⟨hxchg, ?_⟩
    rw [hpend]
    refine along_steps ih fun f hf z hz => ?_
    obtain ⟨y, hy, hyi⟩ := hlater z hz
    exact (hx y hy).steps z.1 z.2 hyi f hf

/-- Posting a list of receives where none is pending. -/
theorem along_post {reqs : List (ι × List A)} {k : List (Instr ι A V)}
    (h : Along (Careful B) reqs k) : Along (Careful B) [] (.post reqs :: k) := ⟨trivial, h⟩

/-- An instruction of code that posts nothing ahead. -/
def Quiet : Instr ι A V → Prop
  | .cpu _ => True
  | .post _ => False
  | .xchg out inn => OwnSep out inn

theorem along_quiet : ∀ {k : List (Instr ι A V)}, (∀ i ∈ k, Quiet i) → Along (Careful B) [] k
  | [], _ => rfl
  | i :: k, h => by
    have ih : Along (Careful B) [] k := along_quiet fun j hj => h j (List.mem_cons_of_mem i hj)
    have hi := h i List.mem_cons_self
    cases i with
    | cpu f => exact ⟨fun x hx => absurd hx List.not_mem_nil, ih⟩
    | post reqs => exact hi.elim
    | xchg out inn =>
      have hpend : (Instr.xchg (V := V) out inn).pend [] = [] := by
        cases inn <;> rfl
      refine ⟨⟨?_, ?_, hi, ?_, ?_⟩, ?_⟩
      · exact fun p s _ u hu => absurd hu (by simp)
      · exact fun p s _ x hx => absurd hx (by simp [unsel])
      · exact fun q u _ x hx => absurd (hpend ▸ hx) List.not_mem_nil
      · exact fun x hx => absurd (hpend ▸ hx) List.not_mem_nil
      · rw [hpend]
        exact ih

/-- Careful code never sends what it receives into. -/
theorem Along.separated : ∀ {k : List (Instr ι A V)} {F : List (ι × List A)},
    Along (Careful B) F k → Separated k
  | [], _, _ => fun _ _ _ _ h => absurd h List.not_mem_nil
  | i :: k, F, h => by
    intro q s p t hm
    rcases List.mem_cons.mp hm with rfl | hm
    · exact h.1.own q s p t rfl rfl
    · exact Along.separated h.2 q s p t hm

/-- A local step ignores a slice that is apart from what it reads (`D`) and writes (`W`). -/
theorem ignores_of_footprint {f : (A → V) → A → V} {D W : A → Prop} {s : List A}
    (hw : ∀ m a, ¬ W a → f m a = m a)
    (hd : ∀ m m', (∀ a, D a → m a = m' a) → ∀ a, W a → f m a = f m' a)
    (hD : ∀ a ∈ s, ¬ D a) (hW : ∀ a ∈ s, ¬ W a) : Ignores f s := by
  intro m d
  funext a
  by_cases ha : a ∈ s
  · rw [hw _ a (hW a ha), store_of_mem ha, store_of_mem ha, hw m a (hW a ha)]
  · rw [store_of_not_mem ha]
    by_cases hwa : W a
    · exact hd _ _ (fun b hb => store_of_not_mem fun hbs => hD b hbs hb) a hwa
    · rw [hw _ a hwa, hw m a hwa, store_of_not_mem ha]

end Vccl.Net
