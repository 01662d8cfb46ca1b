import Mathlib.Algebra.GroupWithZero.Nat
import Mathlib.Algebra.Order.BigOperators.Group.Finset
import Mathlib.Data.Finset.Basic
import Mathlib.Data.List.Forall2
import Mathlib.Logic.Function.Basic
import Mathlib.Logic.Relation

/-!
# Straight-line processes over FIFO channels

A library of message-passing processes; it names no program. Every process `r : ι` owns a memory
`A → V` and runs a straight-line list of instructions:

* `cpu f`: a local step on its memory;
* `post reqs`: announces receives ahead of time, without effect on this semantics;
* `xchg out inn`: an exchange, with at most one outgoing and at most one incoming message, the two
  halves in either order. A message is the contents of a slice (a list of addresses), read when
  the outgoing half runs and written to the receiver's slice when the incoming half runs.

The channel from `p` to `q` is a FIFO: the `k`-th message `p` sends to `q` is the one the `k`-th
receive of `q` from `p` gets. Any process may move at any time.

Results:
* `ends_of_wp`, the proof rule. Give every exchange a time (`Entry`), the same on both ends of
  each message and increasing along every process, and give every message a predicate `Pay`. If
  every process alone meets its obligations (`wp`: what it sends satisfies `Pay`, given that what
  it receives does), then every run of the whole system, under every interleaving, is finite and
  ends with every process finished in its postcondition.
* `wp_append`, `wp_mono`, `wp_loop`: the rules for sequences and loops.
* `normal_unique`: if no exchange sends from the slice it receives into, all complete runs end in
  the same configuration.
-/

namespace Vccl.Net

/-! ## Slices of a memory -/

section Store

variable {A V : Type} [DecidableEq A]

/-- The contents of a slice. -/
def load (m : A → V) (s : List A) : List V := s.map m

/-- Write `d` to the addresses of `s`, position by position. -/
def store (m : A → V) (s : List A) (d : List V) : A → V :=
  fun a => if a ∈ s then d.getD (s.idxOf a) (m a) else m a

theorem store_of_not_mem {m : A → V} {s : List A} {d : List V} {a : A} (h : a ∉ s) :
    store m s d a = m a := if_neg h

theorem store_of_mem {m : A → V} {s : List A} {d : List V} {a : A} (h : a ∈ s) :
    store m s d a = d.getD (s.idxOf a) (m a) := if_pos h

omit [DecidableEq A] in
theorem load_congr {m m' : A → V} {s : List A} (h : ∀ a ∈ s, m a = m' a) : load m s = load m' s :=
  List.map_congr_left h

theorem load_store_disjoint {m : A → V} {s t : List A} {d : List V} (h : ∀ a ∈ t, a ∉ s) :
    load (store m s d) t = load m t :=
  load_congr fun a ha => store_of_not_mem (h a ha)

theorem store_congr {m m' : A → V} {s : List A} {d : List V} (hd : s.length ≤ d.length) {a : A}
    (h : a ∉ s → m a = m' a) : store m s d a = store m' s d a := by
  unfold store
  split
  · rename_i ha
    have hi : s.idxOf a < d.length := Nat.lt_of_lt_of_le (List.idxOf_lt_length_of_mem ha) hd
    simp [List.getD_eq_getElem?_getD, List.getElem?_eq_getElem hi]
  · rename_i ha
    exact h ha

omit [DecidableEq A] in
theorem load_length (m : A → V) (s : List A) : (load m s).length = s.length := List.length_map ..

end Store

/-! ## Processes -/

/-- One instruction of a straight-line process. -/
inductive Instr (ι A V : Type) where
  | cpu (f : (A → V) → A → V)
  | post (reqs : List (ι × List A))
  | xchg (out inn : Option (ι × List A))

/-- A configuration: what each process has left to run, its memory, and the messages in flight.
`chan p q` holds those from `p` to `q`, oldest first. -/
structure Cfg (ι A V : Type) where
  code : ι → List (Instr ι A V)
  mem : ι → A → V
  chan : ι → ι → List (List V)

variable {ι A V : Type} [DecidableEq ι] [DecidableEq A]

/-- Replace the entry of one pair of processes. -/
def setPair {β : Type} (ch : ι → ι → β) (p q : ι) (l : β) : ι → ι → β :=
  fun a b => if a = p ∧ b = q then l else ch a b

theorem setPair_same {β : Type} (ch : ι → ι → β) (p q : ι) (l : β) :
    setPair ch p q l p q = l := by simp [setPair]

theorem setPair_other {β : Type} {ch : ι → ι → β} {p q a b : ι} {l : β}
    (h : ¬ (a = p ∧ b = q)) : setPair ch p q l a b = ch a b := if_neg h

theorem setPair_comm {β : Type} {ch : ι → ι → β} {p q a b : ι} {l k : β}
    (h : ¬ (a = p ∧ b = q)) :
    setPair (setPair ch p q l) a b k = setPair (setPair ch a b k) p q l := by
  funext x y
  simp only [setPair]
  by_cases h1 : x = a ∧ y = b
  · obtain ⟨rfl, rfl⟩ := h1
    simp [h]
  · simp [h1]

theorem setPair_setPair {β : Type} (ch : ι → ι → β) (p q : ι) (l k : β) :
    setPair (setPair ch p q l) p q k = setPair ch p q k := by
  funext x y
  simp only [setPair]
  split <;> rfl

/-- Which half of which process moves: a local step, an outgoing half, an incoming half. -/
inductive Move (ι : Type) where
  | loc (r : ι)
  | snd (r : ι)
  | rcv (r : ι)
  deriving DecidableEq

/-- Drop the head instruction of `r` and set its memory. -/
def Cfg.next (c : Cfg ι A V) (r : ι) (k : List (Instr ι A V)) (m : A → V) : Cfg ι A V :=
  ⟨Function.update c.code r k, Function.update c.mem r m, c.chan⟩

/-- The memory after an instruction that involves no other process; an exchange is one when
nothing of it is left. -/
def Instr.run (m : A → V) : Instr ι A V → Option (A → V)
  | .cpu f => some (f m)
  | .post _ => some m
  | .xchg none none => some m
  | .xchg _ _ => none

/-- One move. A half that has run is erased from its exchange; an exchange with nothing left is
dropped by a local step. -/
def move : Move ι → Cfg ι A V → Option (Cfg ι A V)
  | .loc r, c =>
    match c.code r with
    | i :: k => (i.run (c.mem r)).map (c.next r k)
    | [] => none
  | .snd r, c =>
    match c.code r with
    | .xchg (some (q, s)) inn :: k =>
      some { c with
        code := Function.update c.code r (.xchg none inn :: k)
        chan := setPair c.chan r q (c.chan r q ++ [load (c.mem r) s]) }
    | _ => none
  | .rcv r, c =>
    match c.code r with
    | .xchg out (some (p, s)) :: k =>
      match c.chan p r with
      | d :: ds =>
        some { code := Function.update c.code r (.xchg out none :: k)
               mem := Function.update c.mem r (store (c.mem r) s d)
               chan := setPair c.chan p r ds }
      | [] => none
    | _ => none

/-- One move of any process. -/
def Step (c c' : Cfg ι A V) : Prop := ∃ a, move a c = some c'

/-- All processes at the start of `prog` with memories `m`, nothing in flight. -/
def start (prog : ι → List (Instr ι A V)) (m : ι → A → V) : Cfg ι A V := ⟨prog, m, fun _ _ => []⟩

/-! ### What a move can do -/

theorem loc_cases {c c' : Cfg ι A V} {r : ι} (h : move (.loc r) c = some c') :
    ∃ i k m, c.code r = i :: k ∧ i.run (c.mem r) = some m ∧ c' = c.next r k m := by
  simp only [move] at h
  split at h
  · rename_i i k hc
    obtain ⟨m, hm, rfl⟩ := Option.map_eq_some_iff.mp h
    exact ⟨i, k, m, hc, hm, rfl⟩
  · exact absurd h (by simp)

omit [DecidableEq ι] [DecidableEq A] in
theorem run_cases {i : Instr ι A V} {m m' : A → V} (h : i.run m = some m') :
    (∃ f, i = .cpu f ∧ m' = f m) ∨ (∃ q, i = .post q ∧ m' = m) ∨
      (i = .xchg none none ∧ m' = m) := by
  match i, h with
  | .cpu f, h => exact Or.inl ⟨f, rfl, (Option.some.inj h).symm⟩
  | .post q, h => exact Or.inr (Or.inl ⟨q, rfl, (Option.some.inj h).symm⟩)
  | .xchg none none, h => exact Or.inr (Or.inr ⟨rfl, (Option.some.inj h).symm⟩)
  | .xchg (some _) none, h => exact absurd h (by simp [Instr.run])
  | .xchg (some _) (some _), h => exact absurd h (by simp [Instr.run])
  | .xchg none (some _), h => exact absurd h (by simp [Instr.run])

theorem snd_cases {c c' : Cfg ι A V} {r : ι} (h : move (.snd r) c = some c') :
    ∃ q s inn k, c.code r = .xchg (some (q, s)) inn :: k ∧
      c' = ⟨Function.update c.code r (.xchg none inn :: k), c.mem,
        setPair c.chan r q (c.chan r q ++ [load (c.mem r) s])⟩ := by
  simp only [move] at h
  split at h
  · rename_i q s inn k hc
    exact ⟨q, s, inn, k, hc, (Option.some.inj h).symm⟩
  · exact absurd h (by simp)

theorem rcv_cases {c c' : Cfg ι A V} {r : ι} (h : move (.rcv r) c = some c') :
    ∃ p s out k d ds, c.code r = .xchg out (some (p, s)) :: k ∧ c.chan p r = d :: ds ∧
      c' = ⟨Function.update c.code r (.xchg out none :: k),
        Function.update c.mem r (store (c.mem r) s d), setPair c.chan p r ds⟩ := by
  simp only [move] at h
  split at h
  · rename_i out p s k hc
    split at h
    · rename_i d ds hd
      exact ⟨p, s, out, k, d, ds, hc, hd, (Option.some.inj h).symm⟩
    · exact absurd h (by simp)
  · exact absurd h (by simp)

/-! ## Plans: the times of the exchanges -/

/-- The ghost record of one exchange: its time and its peers. -/
structure Entry (ι : Type) where
  time : Nat
  out : Option ι
  inn : Option ι

/-- The times at which a plan sends to `q`. -/
def outTimes (q : ι) (pl : List (Entry ι)) : List Nat :=
  (pl.filter fun e => e.out = some q).map Entry.time

/-- The times at which a plan receives from `p`. -/
def inTimes (p : ι) (pl : List (Entry ι)) : List Nat :=
  (pl.filter fun e => e.inn = some p).map Entry.time

theorem outTimes_cons (q : ι) (e : Entry ι) (pl : List (Entry ι)) :
    outTimes q (e :: pl) = if e.out = some q then e.time :: outTimes q pl else outTimes q pl := by
  unfold outTimes
  by_cases h : e.out = some q <;> simp [h]

theorem inTimes_cons (p : ι) (e : Entry ι) (pl : List (Entry ι)) :
    inTimes p (e :: pl) = if e.inn = some p then e.time :: inTimes p pl else inTimes p pl := by
  unfold inTimes
  by_cases h : e.inn = some p <;> simp [h]

theorem outTimes_append (q : ι) (a b : List (Entry ι)) :
    outTimes q (a ++ b) = outTimes q a ++ outTimes q b := by
  simp [outTimes]

theorem inTimes_append (p : ι) (a b : List (Entry ι)) :
    inTimes p (a ++ b) = inTimes p a ++ inTimes p b := by
  simp [inTimes]

/-- Time increases along the plan. -/
def Ordered (pl : List (Entry ι)) : Prop := pl.Pairwise fun e e' => e.time < e'.time

/-! ## Weakest preconditions of one process -/

section Wp

variable (Pay : ι → ι → Nat → List V → Prop)

/-- The outgoing half of an exchange at time `t` agrees with its entry, and what it would send
now satisfies `Pay`. -/
def OutOk (r : ι) (t : Nat) (m : A → V) : Option (ι × List A) → Option ι → Prop
  | none, none => True
  | some (q, s), some q' => q' = q ∧ Pay r q t (load m s)
  | _, _ => False

variable {Pay} in
omit [DecidableEq ι] [DecidableEq A] in
theorem OutOk.peer {r : ι} {t : Nat} {m : A → V} : ∀ {out : Option (ι × List A)} {o : Option ι},
    OutOk Pay r t m out o → o = out.map Prod.fst
  | none, none, _ => rfl
  | some (_, _), some _, h => congrArg some h.1
  | some (_, _), none, h => h.elim
  | none, some _, h => h.elim

/-- What process `r` must meet so that its code, following the plan, ends in `Q`: every message
it sends satisfies `Pay`, before and after the incoming half of the same exchange, and it copes
with every incoming message that satisfies `Pay`. -/
def wp (r : ι) : List (Instr ι A V) → List (Entry ι) → ((A → V) → Prop) → (A → V) → Prop
  | [], [], Q, m => Q m
  | .cpu f :: k, pl, Q, m => wp r k pl Q (f m)
  | .post _ :: k, pl, Q, m => wp r k pl Q m
  | .xchg out none :: k, e :: pl, Q, m =>
    e.inn = none ∧ OutOk Pay r e.time m out e.out ∧ wp r k pl Q m
  | .xchg out (some (p, s)) :: k, e :: pl, Q, m =>
    e.inn = some p ∧ OutOk Pay r e.time m out e.out ∧
      ∀ d, Pay p r e.time d →
        OutOk Pay r e.time (store m s d) out e.out ∧ wp r k pl Q (store m s d)
  | _, _, _, _ => False

variable {Pay}

omit [DecidableEq ι] in
theorem wp_mono {r : ι} {Q Q' : (A → V) → Prop} (hQ : ∀ m, Q m → Q' m) :
    ∀ {k : List (Instr ι A V)} {l : List (Entry ι)} {m : A → V},
      wp Pay r k l Q m → wp Pay r k l Q' m
  | [], [], m, h => hQ m h
  | [], _ :: _, _, h => h.elim
  | .cpu f :: k, l, m, h => wp_mono hQ (k := k) (l := l) (m := f m) h
  | .post _ :: k, l, m, h => wp_mono hQ (k := k) (l := l) (m := m) h
  | .xchg _ none :: _, _ :: _, _, h => ⟨h.1, h.2.1, wp_mono hQ h.2.2⟩
  | .xchg _ (some (_, _)) :: _, _ :: _, _, h =>
    ⟨h.1, h.2.1, fun d hd => ⟨(h.2.2 d hd).1, wp_mono hQ (h.2.2 d hd).2⟩⟩
  | .xchg _ none :: _, [], _, h => h.elim
  | .xchg _ (some (_, _)) :: _, [], _, h => h.elim

omit [DecidableEq ι] in
/-- Sequencing. -/
theorem wp_append {r : ι} {Q : (A → V) → Prop} {k' : List (Instr ι A V)} {l' : List (Entry ι)} :
    ∀ {k : List (Instr ι A V)} {l : List (Entry ι)} {m : A → V},
      wp Pay r k l (fun m => wp Pay r k' l' Q m) m → wp Pay r (k ++ k') (l ++ l') Q m
  | [], [], _, h => h
  | [], _ :: _, _, h => h.elim
  | .cpu f :: k, l, m, h => wp_append (k := k) (l := l) (m := f m) h
  | .post _ :: k, l, m, h => wp_append (k := k) (l := l) (m := m) h
  | .xchg _ none :: _, _ :: _, _, h => ⟨h.1, h.2.1, wp_append h.2.2⟩
  | .xchg _ (some (_, _)) :: _, _ :: _, _, h =>
    ⟨h.1, h.2.1, fun d hd => ⟨(h.2.2 d hd).1, wp_append (h.2.2 d hd).2⟩⟩
  | .xchg _ none :: _, [], _, h => h.elim
  | .xchg _ (some (_, _)) :: _, [], _, h => h.elim

omit [DecidableEq ι] in
/-- **The loop rule.** `J s` holds before iteration `s`; the loop runs iterations `b, …, b+N-1`. -/
theorem wp_loop {r : ι} {body : Nat → List (Instr ι A V)} {ent : Nat → List (Entry ι)}
    (J : Nat → (A → V) → Prop) (b : Nat) :
    ∀ (N : Nat) {Q : (A → V) → Prop} {m : A → V},
      (∀ s, b ≤ s → s < b + N → ∀ m, J s m → wp Pay r (body s) (ent s) (J (s + 1)) m) →
      (∀ m, J (b + N) m → Q m) → J b m →
      wp Pay r ((List.range' b N).flatMap body) ((List.range' b N).flatMap ent) Q m
  | 0, Q, m, _, hQ, hJ => hQ m (by simpa using hJ)
  | N + 1, Q, m, hbody, hQ, hJ => by
    rw [List.range'_succ, List.flatMap_cons, List.flatMap_cons]
    apply wp_append
    refine wp_mono (fun m' hm' => ?_) (hbody b (le_refl b) (by omega) m hJ)
    exact wp_loop (r := r) J (b + 1) N
      (fun s h1 h2 m hm => hbody s (by omega) (by omega) m hm)
      (fun m hm => hQ m (by rwa [show b + (N + 1) = b + 1 + N by omega])) hm'

end Wp

/-! ## Every run meets its contract -/

section Sound

variable {Pay : ι → ι → Nat → List V → Prop} {Q : ι → (A → V) → Prop}

/-- The invariant of all runs: every process still meets its obligations along what is left of
its plan, every message in flight satisfies `Pay` at its time and is older than what its sender has
left, and the receives still to come are the messages in flight followed by the sends still to
come. -/
structure Keeps (Pay : ι → ι → Nat → List V → Prop) (Q : ι → (A → V) → Prop) (c : Cfg ι A V)
    (plan : ι → List (Entry ι)) (fly : ι → ι → List Nat) : Prop where
  wp : ∀ r, wp Pay r (c.code r) (plan r) (Q r) (c.mem r)
  pay : ∀ p q, List.Forall₂ (Pay p q) (fly p q) (c.chan p q)
  meet : ∀ p q, inTimes p (plan q) = fly p q ++ outTimes q (plan p)
  ordered : ∀ r, Ordered (plan r)
  sent : ∀ p q, ∀ t ∈ fly p q, ∀ e ∈ plan p, t ≤ e.time

omit [DecidableEq ι] in
/-- What is left of a plan after its first entry lost a half. -/
theorem Ordered.head_congr {e : Entry ι} {l : List (Entry ι)} (h : Ordered (e :: l))
    (e' : Entry ι) (ht : e'.time = e.time) : Ordered (e' :: l) := by
  unfold Ordered at h ⊢
  rw [List.pairwise_cons] at h ⊢
  exact ⟨fun x hx => by rw [ht]; exact h.1 x hx, h.2⟩

theorem keeps_loc {c c' : Cfg ι A V} {plan : ι → List (Entry ι)} {fly : ι → ι → List Nat} {r : ι}
    (h : Keeps Pay Q c plan fly) (hs : move (.loc r) c = some c') :
    ∃ plan' fly', Keeps Pay Q c' plan' fly' := by
  obtain ⟨i, k, m, hc, hi, rfl⟩ := loc_cases hs
  have hw := h.wp r
  rw [hc] at hw
  -- the plan loses its head exactly when an exhausted exchange is dropped
  have hplan : ∃ pl, wp Pay r k pl (Q r) m ∧ Ordered pl ∧ pl ⊆ plan r ∧
      (∀ p, inTimes p pl = inTimes p (plan r)) ∧ ∀ q, outTimes q pl = outTimes q (plan r) := by
    rcases run_cases hi with ⟨f, rfl, rfl⟩ | ⟨q, rfl, rfl⟩ | ⟨rfl, rfl⟩
    · exact ⟨plan r, hw, h.ordered r, fun _ he => he, fun _ => rfl, fun _ => rfl⟩
    · exact ⟨plan r, hw, h.ordered r, fun _ he => he, fun _ => rfl, fun _ => rfl⟩
    · cases hp : plan r with
      | nil => rw [hp] at hw; exact hw.elim
      | cons e pl =>
        rw [hp] at hw
        obtain ⟨hin, hout, hk⟩ := hw
        have ho : e.out = none := by
          cases he : e.out with
          | none => rfl
          | some q => rw [he] at hout; exact hout.elim
        have hord := h.ordered r
        rw [hp] at hord
        refine ⟨pl, hk, (List.pairwise_cons.mp hord).2, List.subset_cons_self e pl, fun p => ?_,
          fun q => ?_⟩
        · rw [inTimes_cons, hin, if_neg (by simp)]
        · rw [outTimes_cons, ho, if_neg (by simp)]
  obtain ⟨pl, hk, hord, hsub, hin, hout⟩ := hplan
  refine ⟨Function.update plan r pl, fly, ⟨fun x => ?_, h.pay, fun p q => ?_, fun x => ?_,
    fun p q t ht e he => ?_⟩⟩
  · by_cases hx : x = r
    · subst hx; simpa [Cfg.next] using hk
    · simpa [Cfg.next, hx] using h.wp x
  · have e1 : inTimes p (Function.update plan r pl q) = inTimes p (plan q) := by
      by_cases hq : q = r
      · subst hq; rw [Function.update_self]; exact hin p
      · rw [Function.update_of_ne hq]
    have e2 : outTimes q (Function.update plan r pl p) = outTimes q (plan p) := by
      by_cases hp : p = r
      · subst hp; rw [Function.update_self]; exact hout q
      · rw [Function.update_of_ne hp]
    rw [e1, e2]
    exact h.meet p q
  · by_cases hx : x = r
    · subst hx; simpa using hord
    · simpa [hx] using h.ordered x
  · by_cases hp : p = r
    · subst hp
      rw [Function.update_self] at he
      exact h.sent p q t ht e (hsub he)
    · rw [Function.update_of_ne hp] at he
      exact h.sent p q t ht e he

theorem keeps_snd {c c' : Cfg ι A V} {plan : ι → List (Entry ι)} {fly : ι → ι → List Nat} {r : ι}
    (h : Keeps Pay Q c plan fly) (hs : move (.snd r) c = some c') :
    ∃ plan' fly', Keeps Pay Q c' plan' fly' := by
  obtain ⟨q, s, inn, k, hc, rfl⟩ := snd_cases hs
  have hw := h.wp r
  rw [hc] at hw
  cases hp : plan r with
  | nil => rw [hp] at hw; cases inn <;> exact hw.elim
  | cons e pl =>
    rw [hp] at hw
    obtain ⟨hout, hpay, hk⟩ : e.out = some q ∧ Pay r q e.time (load (c.mem r) s) ∧
        wp Pay r (.xchg none inn :: k) ({ e with out := none } :: pl) (Q r) (c.mem r) := by
      cases inn with
      | none =>
        obtain ⟨hin, ho, hk⟩ := hw
        cases he : e.out with
        | none => rw [he] at ho; exact ho.elim
        | some q' =>
          rw [he] at ho
          obtain ⟨rfl, hpay⟩ := ho
          exact ⟨rfl, hpay, hin, trivial, hk⟩
      | some ps =>
        obtain ⟨p, t⟩ := ps
        obtain ⟨hin, ho, hk⟩ := hw
        cases he : e.out with
        | none => rw [he] at ho; exact ho.elim
        | some q' =>
          rw [he] at ho
          obtain ⟨rfl, hpay⟩ := ho
          exact ⟨rfl, hpay, hin, trivial, fun d hd => ⟨trivial, (hk d hd).2⟩⟩
    have hord := h.ordered r
    rw [hp] at hord
    let fly' : ι → ι → List Nat := fun a b => if a = r ∧ b = q then fly r q ++ [e.time] else fly a b
    refine ⟨Function.update plan r ({ e with out := none } :: pl), fly', ⟨fun x => ?_, fun a b => ?_,
      fun a b => ?_, fun x => ?_, fun a b t ht e' he' => ?_⟩⟩
    · by_cases hx : x = r
      · subst hx; simpa using hk
      · simpa [hx] using h.wp x
    · by_cases hab : a = r ∧ b = q
      · obtain ⟨rfl, rfl⟩ := hab
        simp only [fly', setPair_same, and_self, if_true]
        exact List.rel_append (h.pay a b) (List.Forall₂.cons hpay List.Forall₂.nil)
      · simp only [fly', if_neg hab, setPair_other hab]
        exact h.pay a b
    · have e1 : inTimes a (Function.update plan r ({ e with out := none } :: pl) b) =
          inTimes a (plan b) := by
        by_cases hb : b = r
        · subst hb; rw [Function.update_self, hp, inTimes_cons, inTimes_cons]
        · rw [Function.update_of_ne hb]
      rw [e1, h.meet a b]
      by_cases ha : a = r
      · subst ha
        rw [Function.update_self, hp, outTimes_cons, outTimes_cons, hout]
        by_cases hb : b = q
        · subst hb; simp [fly']
        · have hb' : ¬ q = b := fun hqb => hb hqb.symm
          simp [fly', hb, hb']
      · rw [Function.update_of_ne ha]
        simp [fly', ha]
    · by_cases hx : x = r
      · subst hx; simpa using hord.head_congr { e with out := none } rfl
      · simpa [hx] using h.ordered x
    · by_cases ha : a = r
      · subst ha
        rw [Function.update_self] at he'
        -- the times of the plan are as before, and the message just sent has the first of them
        obtain ⟨e'', hmem, htime⟩ : ∃ e'' ∈ plan a, e''.time = e'.time := by
          rw [hp]
          rcases List.mem_cons.mp he' with rfl | hin
          · exact ⟨e, List.mem_cons_self, rfl⟩
          · exact ⟨e', List.mem_cons_of_mem e hin, rfl⟩
        have hfirst : e.time ≤ e''.time := by
          rw [hp] at hmem
          rcases List.mem_cons.mp hmem with rfl | hin
          · exact Nat.le_refl _
          · exact Nat.le_of_lt ((List.pairwise_cons.mp hord).1 e'' hin)
        rw [← htime]
        simp only [fly'] at ht
        split at ht
        · rcases List.mem_append.mp ht with ht | ht
          · exact h.sent a q t ht e'' hmem
          · rw [List.mem_singleton.mp ht]; exact hfirst
        · exact h.sent a b t ht e'' hmem
      · rw [Function.update_of_ne ha] at he'
        simp only [fly', if_neg fun hab : a = r ∧ b = q => ha hab.1] at ht
        exact h.sent a b t ht e' he'

theorem keeps_rcv {c c' : Cfg ι A V} {plan : ι → List (Entry ι)} {fly : ι → ι → List Nat} {r : ι}
    (h : Keeps Pay Q c plan fly) (hs : move (.rcv r) c = some c') :
    ∃ plan' fly', Keeps Pay Q c' plan' fly' := by
  obtain ⟨p, s, out, k, d, ds, hc, hd, rfl⟩ := rcv_cases hs
  have hw := h.wp r
  rw [hc] at hw
  cases hp : plan r with
  | nil => rw [hp] at hw; exact hw.elim
  | cons e pl =>
    rw [hp] at hw
    obtain ⟨hin, -, hk⟩ := hw
    have hpay := h.pay p r
    have hmeet := h.meet p r
    rw [hp, inTimes_cons, hin, if_pos rfl] at hmeet
    rw [hd] at hpay
    obtain ⟨t, ts, hft, hPd, hPds⟩ : ∃ t ts, fly p r = t :: ts ∧ Pay p r t d ∧
        List.Forall₂ (Pay p r) ts ds := by
      cases hf : fly p r with
      | nil => rw [hf] at hpay; cases hpay
      | cons t ts =>
        rw [hf] at hpay
        cases hpay with
        | cons h1 h2 => exact ⟨t, ts, rfl, h1, h2⟩
    rw [hft, List.cons_append, List.cons.injEq] at hmeet
    obtain ⟨ht, hmeet⟩ := hmeet
    rw [← ht] at hPd
    obtain ⟨ho, hk⟩ := hk d hPd
    have hord := h.ordered r
    rw [hp] at hord
    let fly' : ι → ι → List Nat := fun a b => if a = p ∧ b = r then ts else fly a b
    refine ⟨Function.update plan r ({ e with inn := none } :: pl), fly', ⟨fun x => ?_, fun a b => ?_,
      fun a b => ?_, fun x => ?_, fun a b t ht e' he' => ?_⟩⟩
    · by_cases hx : x = r
      · subst hx
        simp only [Function.update_self]
        exact ⟨rfl, ho, hk⟩
      · simpa [hx] using h.wp x
    · by_cases hab : a = p ∧ b = r
      · obtain ⟨rfl, rfl⟩ := hab
        simpa [fly', setPair_same] using hPds
      · simp only [fly', if_neg hab, setPair_other hab]
        exact h.pay a b
    · have e2 : outTimes b (Function.update plan r ({ e with inn := none } :: pl) a) =
          outTimes b (plan a) := by
        by_cases ha : a = r
        · subst ha; rw [Function.update_self, hp, outTimes_cons, outTimes_cons]
        · rw [Function.update_of_ne ha]
      rw [e2]
      by_cases hb : b = r
      · subst hb
        rw [Function.update_self, inTimes_cons, if_neg (by simp)]
        by_cases ha : a = p
        · subst ha; simpa [fly'] using hmeet
        · have := h.meet a b
          rw [hp, inTimes_cons, hin, if_neg (by simpa using fun hpa => ha hpa.symm)] at this
          simpa [fly', ha] using this
      · rw [Function.update_of_ne hb]
        simpa [fly', hb] using h.meet a b
    · by_cases hx : x = r
      · subst hx; simpa using hord.head_congr { e with inn := none } rfl
      · simpa [hx] using h.ordered x
    · have hsub : t ∈ fly a b := by
        simp only [fly'] at ht
        split at ht
        · rename_i hab
          obtain ⟨rfl, rfl⟩ := hab
          rw [hft]
          exact List.mem_cons_of_mem _ ht
        · exact ht
      by_cases ha : a = r
      · subst ha
        rw [Function.update_self] at he'
        rcases List.mem_cons.mp he' with rfl | hin
        · exact h.sent a b t hsub e (by rw [hp]; exact List.mem_cons_self)
        · exact h.sent a b t hsub e' (by rw [hp]; exact List.mem_cons_of_mem e hin)
      · rw [Function.update_of_ne ha] at he'
        exact h.sent a b t hsub e' he'

/-- One step keeps the invariant. -/
theorem keeps_step {c c' : Cfg ι A V} {plan : ι → List (Entry ι)} {fly : ι → ι → List Nat}
    (h : Keeps Pay Q c plan fly) (hs : Step c c') : ∃ plan' fly', Keeps Pay Q c' plan' fly' := by
  obtain ⟨a, ha⟩ := hs
  cases a with
  | loc r => exact keeps_loc h ha
  | snd r => exact keeps_snd h ha
  | rcv r => exact keeps_rcv h ha

/-- Every reachable configuration keeps the invariant. -/
theorem keeps_reach {c c' : Cfg ι A V} {plan : ι → List (Entry ι)} {fly : ι → ι → List Nat}
    (h : Keeps Pay Q c plan fly) (hs : Relation.ReflTransGen Step c c') :
    ∃ plan' fly', Keeps Pay Q c' plan' fly' := by
  induction hs with
  | refl => exact ⟨plan, fly, h⟩
  | tail _ hstep ih =>
    obtain ⟨_, _, ih⟩ := ih
    exact keeps_step ih hstep

/-! ### No run gets stuck -/

/-- Where no process can move, every unfinished one waits for a message that is not in flight. -/
theorem stuck_waits {c : Cfg ι A V} (hn : ∀ c', ¬ Step c c') {r : ι} (hr : c.code r ≠ []) :
    ∃ p s k, c.code r = .xchg none (some (p, s)) :: k ∧ c.chan p r = [] := by
  have hno : ∀ a, move a c = none := fun a => by
    cases h : move a c with
    | none => rfl
    | some c' => exact absurd ⟨a, h⟩ (hn c')
  have hl := hno (.loc r)
  have hsn := hno (.snd r)
  have hrc := hno (.rcv r)
  cases hc : c.code r with
  | nil => exact absurd hc hr
  | cons i k =>
    simp only [move, hc] at hl hsn hrc
    match i with
    | .cpu f => exact absurd hl (by simp [Instr.run])
    | .post q => exact absurd hl (by simp [Instr.run])
    | .xchg none none => exact absurd hl (by simp [Instr.run])
    | .xchg (some (q, s)) inn => exact absurd hsn (by simp)
    | .xchg none (some (p, s)) =>
      simp only at hrc
      split at hrc
      · exact absurd hrc (by simp)
      · rename_i hch
        exact ⟨p, s, k, rfl, hch⟩

/-- **Progress**: a configuration that keeps the invariant and cannot move is finished. The
process waiting at the least time waits for one that waits at an earlier time. -/
theorem finished_of_stuck {c : Cfg ι A V} {plan : ι → List (Entry ι)} {fly : ι → ι → List Nat}
    (h : Keeps Pay Q c plan fly) (hn : ∀ c', ¬ Step c c') : ∀ r, c.code r = [] := by
  suffices hw : ∀ t r e pl, plan r = e :: pl → e.time = t → c.code r ≠ [] → False by
    intro r
    by_contra hr
    obtain ⟨p, s, k, hc, -⟩ := stuck_waits hn hr
    have hwr := h.wp r
    rw [hc] at hwr
    cases hp : plan r with
    | nil => rw [hp] at hwr; exact hwr.elim
    | cons e pl => exact hw e.time r e pl hp rfl hr
  intro t
  induction t using Nat.strong_induction_on with
  | _ t ih =>
    intro r e pl hp ht hr
    obtain ⟨p, s, k, hc, hch⟩ := stuck_waits hn hr
    have hwr := h.wp r
    rw [hc, hp] at hwr
    have hfly : fly p r = [] := by
      have := h.pay p r
      rw [hch] at this
      cases hf : fly p r with
      | nil => rfl
      | cons _ _ => rw [hf] at this; cases this
    -- the sender still has to send at time `t`
    have hmem : t ∈ outTimes r (plan p) := by
      have := h.meet p r
      rw [hp, inTimes_cons, hwr.1, if_pos rfl, hfly, List.nil_append] at this
      rw [← this, ht]
      exact List.mem_cons_self
    obtain ⟨e', he', het⟩ := List.mem_map.mp hmem
    rw [List.mem_filter] at he'
    obtain ⟨hmem', ho'⟩ := he'
    have hpne : c.code p ≠ [] := by
      intro h0
      have hwp := h.wp p
      rw [h0] at hwp
      cases hpp : plan p with
      | nil => rw [hpp] at hmem'; exact absurd hmem' List.not_mem_nil
      | cons _ _ => rw [hpp] at hwp; exact hwp.elim
    obtain ⟨p2, s2, k2, hc2, -⟩ := stuck_waits hn hpne
    have hwp := h.wp p
    rw [hc2] at hwp
    cases hpp : plan p with
    | nil => rw [hpp] at hwp; exact hwp.elim
    | cons e0 pl0 =>
      rw [hpp] at hwp hmem'
      have h0 : e0.out = none := by
        cases he0 : e0.out with
        | none => rfl
        | some _ => have := hwp.2.1; rw [he0] at this; exact this.elim
      have hlt : e0.time < t := by
        rcases List.mem_cons.mp hmem' with rfl | hin
        · rw [h0] at ho'; exact absurd ho' (by simp)
        · have := h.ordered p
          rw [hpp] at this
          rw [← het]
          exact (List.pairwise_cons.mp this).1 e' hin
      exact ih e0.time hlt p e0 pl0 hpp rfl hpne

/-! ### Every run ends -/

/-- The moves an instruction still takes. -/
def Instr.weight : Instr ι A V → Nat
  | .cpu _ => 1
  | .post _ => 1
  | .xchg out inn => 1 + out.toList.length + inn.toList.length

/-- The moves a process still takes. -/
def codeWeight (k : List (Instr ι A V)) : Nat := (k.map Instr.weight).sum

/-- A move takes one unit of weight from one process and leaves the code of the others alone. -/
theorem move_weight {a : Move ι} {c c' : Cfg ι A V} (h : move a c = some c') :
    ∃ r, codeWeight (c.code r) = codeWeight (c'.code r) + 1 ∧ ∀ x, x ≠ r → c'.code x = c.code x := by
  cases a with
  | loc r =>
    obtain ⟨i, k, m, hc, hi, rfl⟩ := loc_cases h
    refine ⟨r, ?_, fun x hx => by simp [Cfg.next, hx]⟩
    have hw : i.weight = 1 := by
      rcases run_cases hi with ⟨f, rfl, -⟩ | ⟨q, rfl, -⟩ | ⟨rfl, -⟩ <;> rfl
    simp [hc, Cfg.next, codeWeight, hw, Nat.add_comm]
  | snd r =>
    obtain ⟨q, s, inn, k, hc, rfl⟩ := snd_cases h
    refine ⟨r, ?_, fun x hx => by simp [hx]⟩
    simp [hc, codeWeight, Instr.weight]
    omega
  | rcv r =>
    obtain ⟨p, s, out, k, d, ds, hc, -, rfl⟩ := rcv_cases h
    refine ⟨r, ?_, fun x hx => by simp [hx]⟩
    simp [hc, codeWeight, Instr.weight]
    omega

/-- Runs from `a` are finite, and each that cannot be continued ends in a state satisfying `P`. -/
def Ends {α : Type} (R : α → α → Prop) (a : α) (P : α → Prop) : Prop :=
  Acc (fun x y => R y x) a ∧
    ∀ b, Relation.ReflTransGen R a b → (∀ c, ¬ R b c) → P b

theorem Ends.mono {α : Type} {R : α → α → Prop} {a : α} {P Q : α → Prop} (h : Ends R a P)
    (hPQ : ∀ b, P b → Q b) : Ends R a Q := ⟨h.1, fun b hb hstop => hPQ b (h.2 b hb hstop)⟩

/-- From a state all of whose runs are finite, some run leads to where no step is possible. -/
theorem exists_terminal {α : Type} {R : α → α → Prop} {a : α} (h : Acc (fun x y => R y x) a) :
    ∃ b, Relation.ReflTransGen R a b ∧ ∀ c, ¬ R b c := by
  induction h with
  | intro a _ ih =>
    by_cases hstep : ∃ b, R a b
    · obtain ⟨b, hb⟩ := hstep
      obtain ⟨c, hbc, hc⟩ := ih b hb
      exact ⟨c, .head hb hbc, hc⟩
    · exact ⟨a, .refl, fun c hc => hstep ⟨c, hc⟩⟩

/-- When all runs end alike, "every run ends in `P`" is a question about one state. -/
theorem Ends.ends_iff {α : Type} {R : α → α → Prop} {a : α} {P Q : α → Prop} {X : Prop}
    (h : Ends R a P) (hX : ∀ b, P b → (Q b ↔ X)) : Ends R a Q ↔ X := by
  constructor
  · intro hQ
    obtain ⟨b, hb, hstop⟩ := exists_terminal h.1
    exact (hX b (h.2 b hb hstop)).mp (hQ.2 b hb hstop)
  · exact fun hx => ⟨h.1, fun b hb hstop => (hX b (h.2 b hb hstop)).mpr hx⟩

/-- With finitely many processes at work, every run is finite. -/
theorem acc_step {ranks : Finset ι} {c : Cfg ι A V} (hc : ∀ r, r ∉ ranks → c.code r = []) :
    Acc (fun x y => Step y x) c := by
  suffices h : ∀ N c, (∀ r, r ∉ ranks → c.code r = []) →
      (∑ r ∈ ranks, codeWeight (c.code r)) = N → Acc (fun x y : Cfg ι A V => Step y x) c from
    h _ c hc rfl
  intro N
  induction N using Nat.strong_induction_on with
  | _ N ih =>
    intro c hc hN
    refine ⟨_, fun c' ⟨a, ha⟩ => ?_⟩
    obtain ⟨r, hr, hx⟩ := move_weight ha
    have hmem : r ∈ ranks := by
      by_contra hr'
      rw [hc r hr'] at hr
      simp [codeWeight] at hr
    have hlt : (∑ x ∈ ranks, codeWeight (c'.code x)) < N := by
      rw [← hN]
      refine Finset.sum_lt_sum (fun x _ => ?_) ⟨r, hmem, by omega⟩
      by_cases hxr : x = r
      · subst hxr; omega
      · rw [hx x hxr]
    refine ih _ hlt c' (fun x hx' => ?_) rfl
    rw [hx x (fun e => hx' (e ▸ hmem))]
    exact hc x hx'

theorem keeps_start {prog : ι → List (Instr ι A V)} {m : ι → A → V} {plan : ι → List (Entry ι)}
    (hmeet : ∀ p q, inTimes p (plan q) = outTimes q (plan p)) (hord : ∀ r, Ordered (plan r))
    (hwp : ∀ r, wp Pay r (prog r) (plan r) (Q r) (m r)) :
    Keeps Pay Q (start prog m) plan fun _ _ => [] :=
  ⟨hwp, fun _ _ => List.Forall₂.nil, fun p q => by simpa using hmeet p q, hord,
    fun _ _ _ ht => absurd ht List.not_mem_nil⟩

/-- **The proof rule.** Plans that meet and increase, and obligations that hold process by
process, make every run of the system end with all processes finished in their
postconditions. -/
theorem ends_of_wp {ranks : Finset ι} {prog : ι → List (Instr ι A V)} {m : ι → A → V}
    {plan : ι → List (Entry ι)} (hfin : ∀ r, r ∉ ranks → prog r = [])
    (hmeet : ∀ p q, inTimes p (plan q) = outTimes q (plan p)) (hord : ∀ r, Ordered (plan r))
    (hwp : ∀ r, wp Pay r (prog r) (plan r) (Q r) (m r)) :
    Ends Step (start prog m) fun c => (∀ r, c.code r = []) ∧ ∀ r, Q r (c.mem r) := by
  refine ⟨acc_step hfin, fun c hc hn => ?_⟩
  have h0 : Keeps Pay Q (start prog m) plan (fun _ _ => []) :=
    keeps_start hmeet hord hwp
  obtain ⟨plan', fly', h⟩ := keeps_reach h0 hc
  have hdone := finished_of_stuck h hn
  refine ⟨hdone, fun r => ?_⟩
  have hw := h.wp r
  rw [hdone r] at hw
  cases hp : plan' r with
  | nil => rw [hp] at hw; exact hw
  | cons _ _ => rw [hp] at hw; exact hw.elim

end Sound

/-- Where all processes are finished no step is possible. -/
theorem stopped_of_finished {c : Cfg ι A V} (h : ∀ r, c.code r = []) : ∀ c', ¬ Step c c' := by
  rintro c' ⟨a, ha⟩
  cases a with
  | loc r =>
    obtain ⟨i, k, m, hc, -, -⟩ := loc_cases ha
    exact absurd (hc.symm.trans (h r)) (List.cons_ne_nil i k)
  | snd r =>
    obtain ⟨q, s, inn, k, hc, -⟩ := snd_cases ha
    exact absurd (hc.symm.trans (h r)) (List.cons_ne_nil _ k)
  | rcv r =>
    obtain ⟨p, s, out, k, d, ds, hc, -, -⟩ := rcv_cases ha
    exact absurd (hc.symm.trans (h r)) (List.cons_ne_nil _ k)

/-! ## All complete runs end alike -/

/-- No exchange sends from the slice it receives into. -/
def Separated (k : List (Instr ι A V)) : Prop :=
  ∀ q s p t, .xchg (some (q, s)) (some (p, t)) ∈ k → ∀ a ∈ s, a ∉ t

theorem separated_move {a : Move ι} {c c' : Cfg ι A V} (h : move a c = some c')
    (hc : ∀ r, Separated (c.code r)) : ∀ r, Separated (c'.code r) := by
  -- a move replaces one list of instructions by a tail of it, or erases a half of its head
  suffices hsub : ∀ r q s p t, Instr.xchg (some (q, s)) (some (p, t)) ∈ c'.code r →
      Instr.xchg (some (q, s)) (some (p, t)) ∈ c.code r by
    intro r q s p t hm
    exact hc r q s p t (hsub r q s p t hm)
  intro x q s p t hm
  cases a with
  | loc r =>
    obtain ⟨i, k, m, hcr, -, rfl⟩ := loc_cases h
    by_cases hx : x = r
    · subst hx
      rw [hcr]
      exact List.mem_cons_of_mem _ (by simpa [Cfg.next] using hm)
    · simpa [Cfg.next, hx] using hm
  | snd r =>
    obtain ⟨q', s', inn, k, hcr, rfl⟩ := snd_cases h
    by_cases hx : x = r
    · subst hx
      rw [hcr]
      exact List.mem_cons_of_mem _ (by simpa using hm)
    · simpa [hx] using hm
  | rcv r =>
    obtain ⟨p', s', out, k, d, ds, hcr, -, rfl⟩ := rcv_cases h
    by_cases hx : x = r
    · subst hx
      rw [hcr]
      exact List.mem_cons_of_mem _ (by simpa using hm)
    · simpa [hx] using hm

theorem move_loc {c : Cfg ι A V} {r : ι} {i : Instr ι A V} {k : List (Instr ι A V)} {m : A → V}
    (hc : c.code r = i :: k) (hm : i.run (c.mem r) = some m) :
    move (.loc r) c = some (c.next r k m) := by
  simp [move, hc, hm]

theorem move_snd {c : Cfg ι A V} {r q : ι} {s : List A} {w : Option (ι × List A)}
    {k : List (Instr ι A V)} (hc : c.code r = .xchg (some (q, s)) w :: k) :
    move (.snd r) c = some ⟨Function.update c.code r (.xchg none w :: k), c.mem,
      setPair c.chan r q (c.chan r q ++ [load (c.mem r) s])⟩ := by
  simp [move, hc]

theorem move_rcv {c : Cfg ι A V} {r p : ι} {s : List A} {o : Option (ι × List A)}
    {k : List (Instr ι A V)} {d : List V} {l : List (List V)}
    (hc : c.code r = .xchg o (some (p, s)) :: k) (hd : c.chan p r = d :: l) :
    move (.rcv r) c = some ⟨Function.update c.code r (.xchg o none :: k),
      Function.update c.mem r (store (c.mem r) s d), setPair c.chan p r l⟩ := by
  simp [move, hc, hd]

/-- A local step commutes with any other move. -/
theorem loc_comm {c ca cb : Cfg ι A V} {r : ι} {b : Move ι} (hne : Move.loc r ≠ b)
    (ha : move (.loc r) c = some ca) (hb : move b c = some cb) :
    ∃ d, move b ca = some d ∧ move (.loc r) cb = some d := by
  obtain ⟨i, k, m, hc, hi, rfl⟩ := loc_cases ha
  cases b with
  | loc x =>
    have hx : x ≠ r := fun e => hne (by rw [e])
    obtain ⟨i', k', m', hc', hi', rfl⟩ := loc_cases hb
    refine ⟨_, move_loc (i := i') (k := k') (m := m') (by simp [Cfg.next, hx, hc'])
      (by simpa [Cfg.next, hx] using hi'), ?_⟩
    rw [move_loc (i := i) (k := k) (m := m) (by simp [Cfg.next, hx.symm, hc])
      (by simpa [Cfg.next, hx.symm] using hi)]
    simp only [Cfg.next]
    rw [Function.update_comm hx, Function.update_comm hx]
  | snd x =>
    obtain ⟨q, s, inn, k', hc', rfl⟩ := snd_cases hb
    have hx : x ≠ r := by
      rintro rfl
      rw [hc'] at hc
      obtain ⟨rfl, -⟩ := List.cons.inj hc
      cases inn <;> exact absurd hi (by simp [Instr.run])
    refine ⟨_, move_snd (q := q) (s := s) (w := inn) (k := k') (by simp [Cfg.next, hx, hc']), ?_⟩
    rw [move_loc (i := i) (k := k) (m := m) (by simp [hx.symm, hc]) (by simpa using hi)]
    simp only [Cfg.next]
    rw [Function.update_comm hx, Function.update_of_ne hx]
  | rcv x =>
    obtain ⟨p, s, out, k', d, ds, hc', hd, rfl⟩ := rcv_cases hb
    have hx : x ≠ r := by
      rintro rfl
      rw [hc'] at hc
      obtain ⟨rfl, -⟩ := List.cons.inj hc
      cases out <;> exact absurd hi (by simp [Instr.run])
    refine ⟨_, move_rcv (p := p) (s := s) (o := out) (k := k') (d := d) (l := ds)
      (by simp [Cfg.next, hx, hc']) hd, ?_⟩
    rw [move_loc (i := i) (k := k) (m := m) (by simp [hx.symm, hc])
      (by simpa [hx.symm] using hi)]
    simp only [Cfg.next]
    rw [Function.update_comm hx, Function.update_comm hx, Function.update_of_ne hx]

/-- Two outgoing halves commute. -/
theorem snd_snd_comm {c ca cb : Cfg ι A V} {r x : ι} (hx : x ≠ r)
    (ha : move (.snd r) c = some ca) (hb : move (.snd x) c = some cb) :
    ∃ d, move (.snd x) ca = some d ∧ move (.snd r) cb = some d := by
  obtain ⟨q, s, inn, k, hc, rfl⟩ := snd_cases ha
  obtain ⟨q', s', inn', k', hc', rfl⟩ := snd_cases hb
  have h1 : ¬ (x = r ∧ q' = q) := fun h => hx h.1
  have h2 : ¬ (r = x ∧ q = q') := fun h => hx h.1.symm
  refine ⟨_, move_snd (q := q') (s := s') (w := inn') (k := k') (by simp [hx, hc']), ?_⟩
  rw [move_snd (q := q) (s := s) (w := inn) (k := k) (by simp [hx.symm, hc])]
  simp only
  rw [Function.update_comm hx, setPair_other h1, setPair_other h2, setPair_comm h1]

/-- Two incoming halves of different processes commute. -/
theorem rcv_rcv_comm {c ca cb : Cfg ι A V} {r x : ι} (hx : x ≠ r)
    (ha : move (.rcv r) c = some ca) (hb : move (.rcv x) c = some cb) :
    ∃ d, move (.rcv x) ca = some d ∧ move (.rcv r) cb = some d := by
  obtain ⟨p, s, out, k, d, ds, hc, hd, rfl⟩ := rcv_cases ha
  obtain ⟨p', s', out', k', d', ds', hc', hd', rfl⟩ := rcv_cases hb
  have h1 : ¬ (p' = p ∧ x = r) := fun h => hx h.2
  have h2 : ¬ (p = p' ∧ r = x) := fun h => hx h.2.symm
  refine ⟨_, move_rcv (p := p') (s := s') (o := out') (k := k') (d := d') (l := ds')
    (by simp [hx, hc']) (by simpa [setPair_other h1] using hd'), ?_⟩
  rw [move_rcv (p := p) (s := s) (o := out) (k := k) (d := d) (l := ds)
    (by simp [hx.symm, hc]) (by simpa [setPair_other h2] using hd)]
  simp only
  rw [Function.update_comm hx, Function.update_comm hx, setPair_comm h1,
    Function.update_of_ne hx, Function.update_of_ne hx.symm]

/-- An outgoing and an incoming half commute: on one channel because a queue is popped at one end
and pushed at the other, in one process because the two slices are disjoint. -/
theorem snd_rcv_comm {c ca cb : Cfg ι A V} {r x : ι} (hsep : ∀ r, Separated (c.code r))
    (ha : move (.snd r) c = some ca) (hb : move (.rcv x) c = some cb) :
    ∃ d, move (.rcv x) ca = some d ∧ move (.snd r) cb = some d := by
  obtain ⟨q, s, inn, k, hc, rfl⟩ := snd_cases ha
  obtain ⟨p, t, out, k', d, ds, hc', hd, rfl⟩ := rcv_cases hb
  -- the channel contents after both, in either order
  have hchan : setPair (setPair c.chan r q (c.chan r q ++ [load (c.mem r) s])) p x
        (if p = r ∧ x = q then ds ++ [load (c.mem r) s] else ds) =
      setPair (setPair c.chan p x ds) r q
        (setPair c.chan p x ds r q ++ [load (c.mem r) s]) := by
    by_cases h : p = r ∧ x = q
    · obtain ⟨rfl, rfl⟩ := h
      simp only [and_self, if_true]
      rw [setPair_setPair, setPair_setPair, setPair_same]
    · have h' : ¬ (r = p ∧ q = x) := fun e => h ⟨e.1.symm, e.2.symm⟩
      rw [if_neg h, setPair_comm h, setPair_other h']
  have hda : setPair c.chan r q (c.chan r q ++ [load (c.mem r) s]) p x =
      d :: (if p = r ∧ x = q then ds ++ [load (c.mem r) s] else ds) := by
    by_cases h : p = r ∧ x = q
    · obtain ⟨rfl, rfl⟩ := h
      simp [setPair_same, hd]
    · rw [if_neg h, setPair_other h]; exact hd
  by_cases hx : x = r
  · subst hx
    rw [hc] at hc'
    obtain ⟨hi, rfl⟩ := List.cons.inj hc'
    obtain ⟨rfl, rfl⟩ := Instr.xchg.inj hi
    have hdis : ∀ a ∈ s, a ∉ t := hsep x q s p t (by rw [hc]; exact List.mem_cons_self)
    refine ⟨_, move_rcv (p := p) (s := t) (o := none) (k := k) (d := d)
      (by simp) hda, ?_⟩
    rw [move_snd (q := q) (s := s) (w := none) (k := k) (by simp)]
    simp only [Function.update_self, Function.update_idem]
    rw [load_store_disjoint hdis, hchan]
  · refine ⟨_, move_rcv (p := p) (s := t) (o := out) (k := k') (d := d)
      (by simp [hx, hc']) hda, ?_⟩
    have hx' : r ≠ x := fun e => hx e.symm
    rw [move_snd (q := q) (s := s) (w := inn) (k := k) (by simp [hx', hc])]
    simp only
    rw [Function.update_comm hx, Function.update_of_ne hx', hchan]

/-- **Moves commute.** -/
theorem move_comm {c ca cb : Cfg ι A V} {a b : Move ι} (hsep : ∀ r, Separated (c.code r))
    (hne : a ≠ b) (ha : move a c = some ca) (hb : move b c = some cb) :
    ∃ d, move b ca = some d ∧ move a cb = some d := by
  cases a with
  | loc r => exact loc_comm hne ha hb
  | snd r =>
    cases b with
    | loc x =>
      obtain ⟨d, h1, h2⟩ := loc_comm hne.symm hb ha
      exact ⟨d, h2, h1⟩
    | snd x => exact snd_snd_comm (fun e => hne (by rw [e])) ha hb
    | rcv x => exact snd_rcv_comm hsep ha hb
  | rcv r =>
    cases b with
    | loc x =>
      obtain ⟨d, h1, h2⟩ := loc_comm hne.symm hb ha
      exact ⟨d, h2, h1⟩
    | snd x =>
      obtain ⟨d, h1, h2⟩ := snd_rcv_comm hsep hb ha
      exact ⟨d, h2, h1⟩
    | rcv x => exact rcv_rcv_comm (fun e => hne (by rw [e])) ha hb

/-- **All complete runs end in the same configuration.** -/
theorem normal_unique {c c₁ c₂ : Cfg ι A V} (hsep : ∀ r, Separated (c.code r))
    (h1 : Relation.ReflTransGen Step c c₁) (h2 : Relation.ReflTransGen Step c c₂)
    (n1 : ∀ d, ¬ Step c₁ d) (n2 : ∀ d, ¬ Step c₂ d) : c₁ = c₂ := by
  -- steps of separated configurations, a relation that has the diamond property
  let R : Cfg ι A V → Cfg ι A V → Prop := fun a b => (∀ r, Separated (a.code r)) ∧ Step a b
  have hlift : ∀ {d}, Relation.ReflTransGen Step c d →
      Relation.ReflTransGen R c d ∧ ∀ r, Separated (d.code r) := by
    intro d hd
    induction hd with
    | refl => exact ⟨.refl, hsep⟩
    | tail _ hs ih =>
      obtain ⟨a, ha⟩ := hs
      exact ⟨ih.1.tail ⟨ih.2, a, ha⟩, separated_move ha ih.2⟩
  have hdia : ∀ a b d, R a b → R a d → ∃ e, Relation.ReflGen R b e ∧ Relation.ReflTransGen R d e := by
    rintro a b d ⟨hs, x, hx⟩ ⟨-, y, hy⟩
    by_cases hxy : x = y
    · subst hxy
      rw [hx] at hy
      obtain rfl := Option.some.inj hy
      exact ⟨b, .refl, .refl⟩
    · obtain ⟨e, he1, he2⟩ := move_comm hs hxy hx hy
      exact ⟨e, .single ⟨separated_move hx hs, y, he1⟩, .single ⟨separated_move hy hs, x, he2⟩⟩
  obtain ⟨e, he1, he2⟩ := Relation.church_rosser hdia (hlift h1).1 (hlift h2).1
  have stay : ∀ {d : Cfg ι A V}, (∀ x, ¬ Step d x) → Relation.ReflTransGen R d e → d = e := by
    intro d hd hr
    rcases Relation.ReflTransGen.cases_head hr with rfl | ⟨x, hx, -⟩
    · rfl
    · exact absurd hx.2 (hd x)
  rw [stay n1 he1, stay n2 he2]

end Vccl.Net
