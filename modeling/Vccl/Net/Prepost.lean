import Vccl.Net.Process

/-!
# Receives posted ahead of time: what a process must respect

A library; it names no program. Receives that a process posts ahead (`Instr.post`) are pending until
the exchange that takes them: an exchange that receives from `p` takes the oldest pending receive
from `p`, if there is one. Which receives are pending is determined by the code alone (`Instr.pend`),
so a condition on the pending receives at every instruction is a property of the code (`Along`).

`Careful` is such a condition. A process that keeps to it cannot tell whether a pending receive has
been written yet:

* local steps neither read nor write pending slices;
* an exchange receives into the very slice that was posted for it, which is apart from the slices that
  stay pending;
* what an exchange sends overlaps neither the slice it receives into nor a pending slice, except
  pending slices of the process it sends to: what that process sends next depends on this message.

The last clause of `Careful` is about slices that are received through a staging copy (`B`), of
which none may be pending beyond the exchange.
-/

namespace Vccl.Net

variable {ι A V : Type} [DecidableEq ι] [DecidableEq A]

/-! ## Lists of things with a peer -/

section Select

variable {β : Type}

/-- The things with peer `p`, in order. -/
def sel (p : ι) (l : List (ι × β)) : List β := l.filterMap fun x => if x.1 = p then some x.2 else none

/-- The list without its first thing with peer `p`. -/
def unsel (p : ι) (l : List (ι × β)) : List (ι × β) := l.eraseP fun x => x.1 = p

@[simp] theorem sel_nil (p : ι) : sel p ([] : List (ι × β)) = [] := rfl

theorem sel_cons (p : ι) (x : ι × β) (l : List (ι × β)) :
    sel p (x :: l) = if x.1 = p then x.2 :: sel p l else sel p l := by
  unfold sel
  by_cases h : x.1 = p <;> simp [h]

@[simp] theorem sel_append (p : ι) (l l' : List (ι × β)) : sel p (l ++ l') = sel p l ++ sel p l' := by
  simp [sel]

theorem mem_sel {p : ι} {b : β} {l : List (ι × β)} : b ∈ sel p l ↔ (p, b) ∈ l := by
  simp only [sel, List.mem_filterMap]
  constructor
  · rintro ⟨⟨q, c⟩, hx, h⟩
    split at h
    · rename_i hq
      obtain rfl : q = p := hq
      obtain rfl : c = b := Option.some.inj h
      exact hx
    · cases h
  · exact fun h => ⟨(p, b), h, by simp⟩

theorem sel_unsel (p : ι) : ∀ l : List (ι × β), sel p (unsel p l) = (sel p l).tail
  | [] => rfl
  | x :: l => by
    by_cases h : x.1 = p
    · simp [unsel, sel_cons, h]
    · have ih := sel_unsel p l
      simp only [unsel] at ih
      simp [unsel, sel_cons, h, ih]

theorem sel_unsel_of_ne {p q : ι} (hpq : q ≠ p) : ∀ l : List (ι × β), sel q (unsel p l) = sel q l
  | [] => rfl
  | x :: l => by
    by_cases h : x.1 = p
    · simp [unsel, sel_cons, h, hpq.symm]
    · have ih := sel_unsel_of_ne hpq l
      simp only [unsel] at ih
      simp [unsel, sel_cons, h, ih]

theorem unsel_sublist (p : ι) (l : List (ι × β)) : (unsel p l).Sublist l := List.eraseP_sublist

theorem unsel_of_sel_nil {p : ι} {l : List (ι × β)} (h : sel p l = []) : unsel p l = l := by
  refine List.eraseP_of_forall_not fun x hx => ?_
  intro hp
  have : x.2 ∈ sel p l := mem_sel.mpr (by simpa [← of_decide_eq_true hp] using hx)
  rw [h] at this
  exact List.not_mem_nil this

/-- A list is its first thing with peer `p` and the others. -/
theorem perm_unsel {p : ι} {b : β} {l : List (ι × β)} (h : (sel p l).head? = some b) :
    l.Perm ((p, b) :: unsel p l) := by
  induction l with
  | nil => cases h
  | cons x l ih =>
    by_cases hx : x.1 = p
    · rw [sel_cons, if_pos hx] at h
      obtain rfl := Option.some.inj h
      obtain rfl := hx
      simp [unsel]
    · rw [sel_cons, if_neg hx] at h
      have hu : unsel p (x :: l) = x :: unsel p l := by simp [unsel, hx]
      rw [hu]
      exact ((ih h).cons x).trans (List.Perm.swap _ _ _)

end Select

/-! ## Pending receives -/

/-- The pending receives after an instruction. -/
def Instr.pend (F : List (ι × List A)) : Instr ι A V → List (ι × List A)
  | .cpu _ => F
  | .post reqs => F ++ reqs
  | .xchg _ none => F
  | .xchg _ (some (p, _)) => unsel p F

/-- `P` holds of the pending receives and the instruction all along the code, which leaves no
receive pending. -/
def Along (P : List (ι × List A) → Instr ι A V → Prop) :
    List (ι × List A) → List (Instr ι A V) → Prop
  | F, [] => F = []
  | F, i :: k => P F i ∧ Along P (i.pend F) k

omit [DecidableEq A] in
theorem Along.append {P : List (ι × List A) → Instr ι A V → Prop} {k' : List (Instr ι A V)}
    (h' : Along P [] k') : ∀ {k : List (Instr ι A V)} {F : List (ι × List A)}, Along P F k →
      Along P F (k ++ k')
  | [], F, h => by
    obtain rfl : F = [] := h
    exact h'
  | _ :: _, _, h => ⟨h.1, Along.append h' h.2⟩

/-- The slices that the code receives into from `p`, in order. -/
def inSlices (p : ι) (k : List (Instr ι A V)) : List (List A) :=
  k.filterMap fun
    | .xchg _ (some (q, s)) => if q = p then some s else none
    | _ => none

/-- The slices that the code sends to `q`, in order. -/
def outSlices (q : ι) (k : List (Instr ι A V)) : List (List A) :=
  k.filterMap fun
    | .xchg (some (p, s)) _ => if p = q then some s else none
    | _ => none

/-- The slices have no address in common. -/
def Sep (s t : List A) : Prop := ∀ a ∈ s, a ∉ t

omit [DecidableEq A] in
theorem Sep.symm {s t : List A} (h : Sep s t) : Sep t s := fun a ht hs => h a hs ht

/-- A local step that neither reads nor writes the slice. -/
def Ignores (f : (A → V) → A → V) (s : List A) : Prop :=
  ∀ m d, f (store m s d) = store (f m) s d

/-- What an exchange respects, `F` pending before it. -/
structure CarefulXchg (B : List A → Bool) (F : List (ι × List A)) (out inn : Option (ι × List A)) :
    Prop where
  /-- The oldest pending receive from the peer was posted for this slice. -/
  posted : ∀ p s, inn = some (p, s) → ∀ u ∈ (sel p F).head?, u = s
  /-- The slice received into is apart from the receives that stay pending. -/
  inner : ∀ p s, inn = some (p, s) → ∀ x ∈ unsel p F, Sep s x.2
  own : ∀ q u p s, out = some (q, u) → inn = some (p, s) → Sep u s
  outer : ∀ q u, out = some (q, u) →
    ∀ x ∈ (Instr.xchg (V := V) out inn).pend F, x.1 ≠ q → Sep u x.2
  direct : ∀ x ∈ (Instr.xchg (V := V) out inn).pend F, B x.2 = false

/-- The condition on an instruction, `F` pending before it. -/
def Careful (B : List A → Bool) (F : List (ι × List A)) : Instr ι A V → Prop
  | .cpu f => ∀ x ∈ F, B x.2 = false → Ignores f x.2
  | .post _ => True
  | .xchg out inn => CarefulXchg (V := V) B F out inn

omit [DecidableEq A] in
/-- An exchange whose outgoing half has run. -/
theorem CarefulXchg.sent {B : List A → Bool} {F : List (ι × List A)} {out inn : Option (ι × List A)}
    (h : CarefulXchg (V := V) B F out inn) : CarefulXchg (V := V) B F none inn where
  posted := h.posted
  inner := h.inner
  own _ _ _ _ ho := absurd ho (by simp)
  outer _ _ ho := absurd ho (by simp)
  direct := by
    have := h.direct
    cases inn <;> exact this

/-- Pending receives are taken in the order of the code. -/
theorem Along.taken_in_order {B : List A → Bool} (p : ι) : ∀ {k : List (Instr ι A V)}
    {F : List (ι × List A)}, Along (Careful B) F k → sel p F <+: inSlices p k
  | [], F, h => by
    obtain rfl : F = [] := h
    exact List.nil_prefix
  | .cpu _ :: k, F, h => Along.taken_in_order p (k := k) h.2
  | .post reqs :: k, F, h => by
    have ih := Along.taken_in_order p (k := k) h.2
    rw [Instr.pend, sel_append] at ih
    exact (List.prefix_append _ _).trans ih
  | .xchg _ none :: k, F, h => Along.taken_in_order p (k := k) h.2
  | .xchg out (some (q, s)) :: k, F, h => by
    have ih := Along.taken_in_order p (k := k) h.2
    rw [Instr.pend] at ih
    by_cases hq : q = p
    · subst hq
      rw [sel_unsel] at ih
      have hin : inSlices q (Instr.xchg out (some (q, s)) :: k) = s :: inSlices q k := by
        simp [inSlices]
      rw [hin]
      cases hs : sel q F with
      | nil => exact List.nil_prefix
      | cons u us =>
        rw [hs] at ih
        obtain rfl : u = s := h.1.posted q s rfl u (by rw [hs]; rfl)
        exact (List.prefix_cons_inj u).mpr ih
    · rw [sel_unsel_of_ne (fun e => hq e.symm)] at ih
      have hin : inSlices p (Instr.xchg out (some (q, s)) :: k) = inSlices p k := by
        simp [inSlices, hq]
      rw [hin]
      exact ih

end Vccl.Net
