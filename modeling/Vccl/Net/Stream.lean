import Mathlib.Logic.Function.Basic
import Mathlib.Logic.Relation
import Mathlib.Data.List.Basic
import Mathlib.Data.List.Infix

/-!
# Parties on byte streams

Every ordered pair of parties has a reliable stream: a party puts bytes on it, the other end takes
them off, in order, and at most `cap` bytes are under way. Nothing on the stream says where a message
ends; that is known at the two ends only. A `Ledger` is what one end has seen of one direction: the
messages that are whole, and the bytes of the one under way.

A party is any local transition relation `L` over actions: a step of its own, bytes put on a stream,
or bytes taken off one, each with the end's own opinion whether a message ends there. `FlowStep` lets
any party make any step its relation and the streams allow, so a run is any interleaving, with any
cut of the messages into pieces.

* `flow_bytes`: what one end has put on is what the other has taken off and what is under way.
* `Ledger.Cut sz`: the `i`-th message has `sz i` bytes.
* `Ledger.Cut.agree`: two ends that cut one stream at the same sizes see the same messages. A message that
  the receiver has whole, and that is not empty, the sender has sent whole.
* `flow_local`: an invariant of every party by itself, whatever it takes off, holds in every run.
-/

namespace Vccl.Net

variable {ι B σ : Type} [DecidableEq ι]

/-! ## One end of a stream -/

/-- The messages of one direction of a stream, as one end sees them: the whole ones, and the bytes
of the one under way. -/
structure Ledger (B : Type) where
  done : List (List B)
  part : List B

/-- More bytes of the message under way; `fin` says that it ends with them. -/
def Ledger.add (l : Ledger B) (bs : List B) (fin : Bool) : Ledger B :=
  if fin then ⟨l.done ++ [l.part ++ bs], []⟩ else ⟨l.done, l.part ++ bs⟩

/-- All bytes that have passed. -/
def Ledger.bytes (l : Ledger B) : List B := l.done.flatten ++ l.part

theorem Ledger.bytes_add (l : Ledger B) (bs : List B) (fin : Bool) :
    (l.add bs fin).bytes = l.bytes ++ bs := by
  cases fin <;> simp [Ledger.add, Ledger.bytes]

/-- The ledger is cut at the sizes `sz`: message `i` has `sz i` bytes, and that under way fewer. -/
structure Ledger.Cut (sz : Nat → Nat) (l : Ledger B) : Prop where
  done : ∀ i m, l.done[i]? = some m → m.length = sz i
  part : l.part = [] ∨ l.part.length < sz l.done.length

theorem Ledger.cut_empty (sz : Nat → Nat) : Ledger.Cut sz (⟨[], []⟩ : Ledger B) :=
  ⟨by simp, Or.inl rfl⟩

/-- An entry of a list with one more at its end. -/
theorem getElem?_snoc {α : Type} {l : List α} {x y : α} {i : Nat} (h : (l ++ [x])[i]? = some y) :
    l[i]? = some y ∨ (i = l.length ∧ y = x) := by
  rcases Nat.lt_trichotomy i l.length with hlt | rfl | hgt
  · rw [List.getElem?_append_left hlt] at h
    exact Or.inl h
  · exact Or.inr ⟨rfl, by simpa using h.symm⟩
  · rw [List.getElem?_eq_none (by simp; omega)] at h
    cases h

/-- A message ends exactly when it has all its bytes. -/
theorem Ledger.Cut.add {sz : Nat → Nat} {l : Ledger B} (h : l.Cut sz) {bs : List B} {fin : Bool}
    (hle : l.part.length + bs.length ≤ sz l.done.length)
    (hfin : fin = decide (l.part.length + bs.length = sz l.done.length)) : (l.add bs fin).Cut sz := by
  cases fin with
  | false =>
    have hlt : l.part.length + bs.length ≠ sz l.done.length := by simpa using hfin.symm
    refine ⟨h.done, Or.inr ?_⟩
    simp only [Ledger.add, Bool.false_eq_true, if_false, List.length_append]
    omega
  | true =>
    have heq : l.part.length + bs.length = sz l.done.length := by simpa using hfin.symm
    refine ⟨fun i m hi => ?_, Or.inl rfl⟩
    simp only [Ledger.add, if_true] at hi
    rcases getElem?_snoc hi with hold | ⟨rfl, rfl⟩
    · exact h.done i m hold
    · simpa using heq

/-- The same stream cut at the same sizes gives the same messages. -/
theorem flatten_cut_agree {sz : Nat → Nat} {as bs : List (List B)} {pa rest : List B}
    (ha : ∀ i m, as[i]? = some m → m.length = sz i) (hpa : pa = [] ∨ pa.length < sz as.length)
    (hb : ∀ i m, bs[i]? = some m → m.length = sz i) (h : as.flatten ++ pa = bs.flatten ++ rest)
    {k : Nat} {m : List B} (hk : bs[k]? = some m) (hm : m ≠ []) : as[k]? = some m := by
  induction bs generalizing as sz k with
  | nil => simp at hk
  | cons y bs ih =>
    have hy : y.length = sz 0 := hb 0 y rfl
    cases as with
    | nil =>
      -- the sender has sent no whole message, so the receiver has none but empty ones
      have hlen := congrArg List.length h
      simp only [List.flatten_nil, List.nil_append, List.flatten_cons, List.length_append] at hlen
      rcases hpa with rfl | hlt
      · have hempty : (y :: bs).flatten = [] := by
          simp only [List.flatten_nil, List.nil_append] at h
          exact (List.append_eq_nil_iff.mp h.symm).1
        exact absurd (List.flatten_eq_nil_iff.mp hempty m (List.mem_of_getElem? hk)) hm
      · simp only [List.length_nil] at hlt
        omega
    | cons x as =>
      have hx : x.length = sz 0 := ha 0 x rfl
      simp only [List.flatten_cons, List.append_assoc] at h
      obtain ⟨rfl, htail⟩ := List.append_inj h (hx.trans hy.symm)
      cases k with
      | zero => exact hk
      | succ k =>
        have has : ∀ i m, as[i]? = some m → m.length = sz (i + 1) := fun i m hi => ha (i + 1) m hi
        have hbs : ∀ i m, bs[i]? = some m → m.length = sz (i + 1) := fun i m hi => hb (i + 1) m hi
        exact ih has (by simpa using hpa) hbs htail hk

/-- **Two ends that cut a stream at the same sizes agree**: a message that the receiver has whole,
unless it is empty, the sender has sent whole. -/
theorem Ledger.Cut.agree {sz : Nat → Nat} {a b : Ledger B} {way : List B} (ha : a.Cut sz)
    (hb : b.Cut sz) (h : a.bytes = b.bytes ++ way) {k : Nat} {m : List B}
    (hk : b.done[k]? = some m) (hm : m ≠ []) : a.done[k]? = some m := by
  have hcut : a.done.flatten ++ a.part = b.done.flatten ++ (b.part ++ way) := by
    simpa [Ledger.bytes] using h
  exact flatten_cut_agree ha.done ha.part hb.done hcut hk hm

/-! ## Parties -/

/-- What a party does. -/
inductive Act (ι B : Type) where
  | tau
  | put (q : ι) (bs : List B) (fin : Bool)
  | take (q : ι) (bs : List B) (fin : Bool)

/-- A party's outgoing ledgers after an action. -/
def Act.out (l : ι → Ledger B) : Act ι B → ι → Ledger B
  | .put q bs fin => Function.update l q ((l q).add bs fin)
  | _ => l

/-- A party's incoming ledgers after an action. -/
def Act.inn (l : ι → Ledger B) : Act ι B → ι → Ledger B
  | .take q bs fin => Function.update l q ((l q).add bs fin)
  | _ => l

/-- The parties, their ledgers, and the bytes under way: `chan p q` from `p` to `q`. -/
structure Flow (ι B σ : Type) where
  st : ι → σ
  out : ι → ι → Ledger B
  inn : ι → ι → Ledger B
  chan : ι → ι → List B

/-- The parties at their start. -/
def Flow.start (st : ι → σ) : Flow ι B σ :=
  ⟨st, fun _ _ => ⟨[], []⟩, fun _ _ => ⟨[], []⟩, fun _ _ => []⟩

/-- The streams let party `p` do it: there is room, or the bytes have arrived. -/
def Flow.Allows (cap : ι → ι → Nat) (c : Flow ι B σ) (p : ι) : Act ι B → Prop
  | .tau => True
  | .put q bs _ => (c.chan p q).length + bs.length ≤ cap p q
  | .take q bs _ => bs <+: c.chan q p

/-- The bytes under way after party `p` has acted. -/
def Flow.carry (c : Flow ι B σ) (p : ι) : Act ι B → ι → ι → List B
  | .tau => c.chan
  | .put q bs _ => Function.update c.chan p (Function.update (c.chan p) q (c.chan p q ++ bs))
  | .take q bs _ =>
    Function.update c.chan q (Function.update (c.chan q) p ((c.chan q p).drop bs.length))

/-- Party `p` acts and comes to the state `s`. -/
def Flow.act (c : Flow ι B σ) (p : ι) (a : Act ι B) (s : σ) : Flow ι B σ :=
  ⟨Function.update c.st p s, Function.update c.out p (a.out (c.out p)),
    Function.update c.inn p (a.inn (c.inn p)), c.carry p a⟩

/-- One step of one party. -/
def FlowStep (cap : ι → ι → Nat) (L : ι → σ → Act ι B → σ → Prop) (c c' : Flow ι B σ) : Prop :=
  ∃ p a s, L p (c.st p) a s ∧ c.Allows cap p a ∧ c' = c.act p a s

/-- Runs of the parties. -/
abbrev FlowRun (cap : ι → ι → Nat) (L : ι → σ → Act ι B → σ → Prop) :
    Flow ι B σ → Flow ι B σ → Prop := Relation.ReflTransGen (FlowStep cap L)

/-! ## What holds in every run -/

section Runs

variable {cap : ι → ι → Nat} {L : ι → σ → Act ι B → σ → Prop}

theorem update₂_self {α : Type} (f : ι → ι → α) (p q : ι) (v : α) :
    Function.update f p (Function.update (f p) q v) p q = v := by
  rw [Function.update_self, Function.update_self]

theorem update₂_ne {α : Type} (f : ι → ι → α) {p q i j : ι} (v : α) (h : ¬ (i = p ∧ j = q)) :
    Function.update f p (Function.update (f p) q v) i j = f i j := by
  by_cases hi : i = p
  · subst hi
    rw [Function.update_self, Function.update_of_ne (fun hj => h ⟨rfl, hj⟩)]
  · rw [Function.update_of_ne hi]

/-- A step keeps the account of every stream. -/
theorem flow_bytes_step {c c' : Flow ι B σ} (hs : FlowStep cap L c c')
    (h : ∀ p q, (c.out p q).bytes = (c.inn q p).bytes ++ c.chan p q) (p q : ι) :
    (c'.out p q).bytes = (c'.inn q p).bytes ++ c'.chan p q := by
  obtain ⟨r, a, s, -, hallow, rfl⟩ := hs
  cases a with
  | tau =>
    have hout : Function.update c.out r (c.out r) = c.out := Function.update_eq_self _ _
    have hinn : Function.update c.inn r (c.inn r) = c.inn := Function.update_eq_self _ _
    simp only [Flow.act, Act.out, Act.inn, Flow.carry, hout, hinn]
    exact h p q
  | put x bs fin =>
    have hinn : Function.update c.inn r (c.inn r) = c.inn := Function.update_eq_self _ _
    simp only [Flow.act, Act.out, Act.inn, Flow.carry, hinn]
    by_cases hpq : p = r ∧ q = x
    · obtain ⟨rfl, rfl⟩ := hpq
      rw [update₂_self, update₂_self, Ledger.bytes_add, h, List.append_assoc]
    · rw [update₂_ne _ _ hpq, update₂_ne _ _ hpq]
      exact h p q
  | take x bs fin =>
    obtain ⟨rest, hrest⟩ := hallow
    have hout : Function.update c.out r (c.out r) = c.out := Function.update_eq_self _ _
    simp only [Flow.act, Act.out, Act.inn, Flow.carry, hout]
    by_cases hpq : q = r ∧ p = x
    · obtain ⟨rfl, rfl⟩ := hpq
      rw [update₂_self, update₂_self, Ledger.bytes_add, h, ← hrest, List.drop_left,
        List.append_assoc]
    · rw [update₂_ne _ _ hpq, update₂_ne _ _ (fun hx => hpq ⟨hx.2, hx.1⟩)]
      exact h p q

/-- **No byte is lost, added or reordered**: what has been put on a stream has been taken off it or
is under way. -/
theorem flow_bytes {st : ι → σ} {c : Flow ι B σ} (h : FlowRun cap L (Flow.start st) c) (p q : ι) :
    (c.out p q).bytes = (c.inn q p).bytes ++ c.chan p q := by
  induction h generalizing p q with
  | refl => rfl
  | tail _ hs ih => exact flow_bytes_step hs ih p q

/-- **Local invariants hold in every run.** -/
theorem flow_local {f : ι → σ} {I : ι → σ → (ι → Ledger B) → (ι → Ledger B) → Prop}
    (h0 : ∀ p, I p (f p) (fun _ => ⟨[], []⟩) fun _ => ⟨[], []⟩)
    (hstep : ∀ p s a s' out inn, I p s out inn → L p s a s' → I p s' (a.out out) (a.inn inn))
    {c : Flow ι B σ} (h : FlowRun cap L (Flow.start f) c) (p : ι) :
    I p (c.st p) (c.out p) (c.inn p) := by
  induction h generalizing p with
  | refl => exact h0 p
  | tail _ hs ih =>
    obtain ⟨r, a, s, hL, -, rfl⟩ := hs
    by_cases hp : p = r
    · subst hp
      simp only [Flow.act, Function.update_self]
      exact hstep p _ a s _ _ (ih p) hL
    · simp only [Flow.act, Function.update_of_ne hp]
      exact ih p

end Runs

end Vccl.Net
