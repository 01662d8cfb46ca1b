import Vccl.Net.Rendezvous

/-!
# Systems of processes that share memories

A library; it names no program. Several systems of rendezvous processes (`Posted`) run side by side.
Each has its own channels, but their processes live in homes, and the processes of one home share
its memory: `Homes.place` says where an address of a process is. A move of a process takes place
over its view of the shared memory (`smove`).

Every process reads addresses of a set `D` only and writes addresses of a set `W` only
(`Instr.Confined`). When nothing a process writes is in the `D` of another one of the same home
(`Homes.Undisturbed`), a run of all systems together is, for each of them, a run of that system
alone: it makes the same moves, and its addresses have the same contents (`mirrored_step`). A move
it can make alone it can make among the others (`Mirrors.lift`), each move takes from the moves its
process still makes (`smove_weight`), and what no process writes stays (`smove_frame`).
-/

namespace Vccl.Net

/-! ## Moves over memories that agree -/

section Alike

variable {ι A V : Type} [DecidableEq ι] [DecidableEq A]

/-- The instruction reads addresses of `D` and writes addresses of `W` only. -/
def Instr.Confined (D W : A → Prop) : Instr ι A V → Prop
  | .cpu f => (∀ m a, ¬ W a → f m a = m a) ∧
      ∀ m m', (∀ a, D a → m a = m' a) → ∀ a, D a → f m a = f m' a
  | .post _ => True
  | .xchg out inn => (∀ q ∈ out, ∀ a ∈ q.2, D a) ∧ ∀ q ∈ inn, ∀ a ∈ q.2, W a

/-- All code left is confined. -/
def Confined (D W : ι → A → Prop) (code : ι → List (Instr ι A V)) : Prop :=
  ∀ r, ∀ i ∈ code r, i.Confined (D r) (W r)

/-- The process a move belongs to. -/
def Move.mover : Move ι → ι
  | .loc r | .snd r | .rcv r => r

/-- The process a move belongs to; a message moves its sender. -/
def RMove.mover : RMove ι → ι
  | .loc r | .enter r | .take r => r
  | .xfer p _ => p

variable {D W : ι → A → Prop}

omit [DecidableEq A] in
theorem Confined.update {code : ι → List (Instr ι A V)} (h : Confined D W code) {r : ι}
    {k : List (Instr ι A V)} (hk : ∀ i ∈ k, i.Confined (D r) (W r)) :
    Confined D W (Function.update code r k) := by
  intro x
  by_cases hx : x = r
  · subst hx
    rw [Function.update_self]
    exact hk
  · rw [Function.update_of_ne hx]
    exact h x

/-- A move leaves confined code, the memories of the others, and what its process does not write. -/
theorem move_confined {a : Move ι} {c c' : Cfg ι A V} (h : Confined D W c.code)
    (hs : move a c = some c') : Confined D W c'.code ∧
      (∀ x, x ≠ a.mover → c'.mem x = c.mem x) ∧
      ∀ b, ¬ W a.mover b → c'.mem a.mover b = c.mem a.mover b := by
  cases a with
  | loc r =>
    obtain ⟨i, k, m', hc, hi, rfl⟩ := loc_cases hs
    have hcode := h r
    rw [hc] at hcode
    refine ⟨h.update fun j hj => hcode j (List.mem_cons_of_mem i hj), fun x hx => ?_, fun b hb => ?_⟩
    · simp only [Cfg.next, Move.mover] at hx ⊢
      rw [Function.update_of_ne hx]
    · simp only [Cfg.next, Move.mover, Function.update_self]
      rcases run_cases hi with ⟨f, rfl, rfl⟩ | ⟨q, rfl, rfl⟩ | ⟨rfl, rfl⟩
      · exact (hcode _ List.mem_cons_self).1 _ b hb
      · rfl
      · rfl
  | snd r =>
    obtain ⟨q, s, inn, k, hc, rfl⟩ := snd_cases hs
    have hcode := h r
    rw [hc] at hcode
    refine ⟨h.update fun j hj => ?_, fun x hx => rfl, fun b hb => rfl⟩
    rcases List.mem_cons.mp hj with rfl | hj
    · exact ⟨fun q hq => absurd hq (Option.not_mem_none q), (hcode (.xchg (some (q, s)) inn) List.mem_cons_self).2⟩
    · exact hcode j (List.mem_cons_of_mem _ hj)
  | rcv r =>
    obtain ⟨p, s, out, k, d, ds, hc, -, rfl⟩ := rcv_cases hs
    have hcode := h r
    rw [hc] at hcode
    have hhead := hcode (.xchg out (some (p, s))) List.mem_cons_self
    refine ⟨h.update fun j hj => ?_, fun x hx => ?_, fun b hb => ?_⟩
    · rcases List.mem_cons.mp hj with rfl | hj
      · exact ⟨hhead.1, fun q hq => absurd hq (Option.not_mem_none q)⟩
      · exact hcode j (List.mem_cons_of_mem _ hj)
    · simp only [Move.mover] at hx ⊢
      rw [Function.update_of_ne hx]
    · simp only [Move.mover, Function.update_self]
      exact store_of_not_mem fun hbs => hb (hhead.2 (p, s) rfl b hbs)

/-- A move over memories that agree on `D`. -/
theorem move_agree {a : Move ι} {c c' d : Cfg ι A V} (h : Confined D W c.code) (hcode : d.code = c.code) (hchan : d.chan = c.chan)
    (hmem : ∀ r b, D r b → c.mem r b = d.mem r b) (hs : move a c = some c') :
    ∃ d', move a d = some d' ∧ d'.code = c'.code ∧ d'.chan = c'.chan ∧
      ∀ r b, D r b → c'.mem r b = d'.mem r b := by
  -- the memory of the process that moves is all there is to compare
  have hupd : ∀ {r : ι} {m m' : A → V}, (∀ b, D r b → m b = m' b) → ∀ x b, D x b →
      Function.update c.mem r m x b = Function.update d.mem r m' x b := by
    intro r m m' hm x b hb
    by_cases hx : x = r
    · subst hx
      rw [Function.update_self, Function.update_self]
      exact hm b hb
    · rw [Function.update_of_ne hx, Function.update_of_ne hx]
      exact hmem x b hb
  cases a with
  | loc r =>
    obtain ⟨i, k, m', hc, hi, rfl⟩ := loc_cases hs
    have hin := h r i (hc ▸ List.mem_cons_self)
    have hrun : ∃ m₂, i.run (d.mem r) = some m₂ ∧ ∀ b, D r b → m' b = m₂ b := by
      rcases run_cases hi with ⟨f, rfl, rfl⟩ | ⟨q, rfl, rfl⟩ | ⟨rfl, rfl⟩
      · exact ⟨_, rfl, hin.2 _ _ (hmem r)⟩
      · exact ⟨_, rfl, hmem r⟩
      · exact ⟨_, rfl, hmem r⟩
    obtain ⟨m₂, hm₂, hag⟩ := hrun
    refine ⟨_, move_loc (hcode ▸ hc) hm₂, ?_, hchan, hupd hag⟩
    simp only [Cfg.next, hcode]
  | snd r =>
    obtain ⟨q, s, inn, k, hc, rfl⟩ := snd_cases hs
    have hin := h r _ (hc ▸ List.mem_cons_self)
    have hload : load (d.mem r) s = load (c.mem r) s :=
      load_congr fun b hb => (hmem r b (hin.1 (q, s) rfl b hb)).symm
    refine ⟨_, move_snd (hcode ▸ hc), ?_, ?_, hmem⟩
    · simp only [hcode]
    · simp only [hchan, hload]
  | rcv r =>
    obtain ⟨p, s, out, k, x, xs, hc, hx, rfl⟩ := rcv_cases hs
    refine ⟨_, move_rcv (hcode ▸ hc) (hchan ▸ hx), ?_, ?_, hupd fun b hb => ?_⟩
    · simp only [hcode]
    · simp only [hchan]
    · unfold store
      split
      · rw [hmem r b hb]
      · exact hmem r b hb

/-- The part of a configuration that is not memory. -/
structure Crew (ι A V : Type) where
  code : ι → List (Instr ι A V)
  chan : ι → ι → List (List V)
  busy : ι → Bool
  fifo : ι → ι → Nat
  slots : ι → ι → Nat

def Posted.crew (c : Posted ι A V) : Crew ι A V :=
  ⟨c.cfg.code, c.cfg.chan, c.busy, c.fifo, c.slots⟩

/-- The configuration over given memories. -/
def Crew.on (t : Crew ι A V) (m : ι → A → V) : Posted ι A V :=
  ⟨⟨t.code, m, t.chan⟩, t.busy, t.fifo, t.slots⟩

omit [DecidableEq A] in
/-- A rendezvous move is a move of `Process`, or leaves code, memories and channels alone. -/
theorem rmove_move [DecidableEq A] {pre : Bool} {a : RMove ι} {c c' : Posted ι A V}
    (hs : rmove pre a c = some c') :
    c'.cfg = c.cfg ∨ ∃ b : Move ι, move b c.cfg = some c'.cfg ∧ b.mover = a.mover := by
  cases a with
  | loc r => exact .inr ⟨.loc r, (rloc_cases hs).1, rfl⟩
  | enter r =>
    obtain ⟨_, _, _, -, -, h, -⟩ := enter_cases hs
    exact .inl h
  | xfer p q =>
    obtain ⟨_, _, _, -, -, h, -⟩ := xfer_cases hs
    exact .inr ⟨.snd p, h, rfl⟩
  | take r => exact .inr ⟨.rcv r, (take_cases hs).2.1, rfl⟩

theorem rmove_confined {pre : Bool} {a : RMove ι} {c c' : Posted ι A V}
    (h : Confined D W c.cfg.code) (hs : rmove pre a c = some c') : Confined D W c'.cfg.code ∧
      (∀ x, x ≠ a.mover → c'.cfg.mem x = c.cfg.mem x) ∧
      ∀ b, ¬ W a.mover b → c'.cfg.mem a.mover b = c.cfg.mem a.mover b := by
  rcases rmove_move hs with heq | ⟨b, hb, hmover⟩
  · rw [heq]
    exact ⟨h, fun _ _ => rfl, fun _ _ => rfl⟩
  · rw [← hmover]
    exact move_confined h hb

/-- A process that moves has code. -/
theorem rmove_code {pre : Bool} {a : RMove ι} {c c' : Posted ι A V}
    (hs : rmove pre a c = some c') : c.cfg.code a.mover ≠ [] := by
  intro h0
  cases a with
  | loc r =>
    obtain ⟨-, i, k, hc, -⟩ := rloc_cases hs
    exact List.cons_ne_nil _ _ (hc.symm.trans h0)
  | enter r =>
    obtain ⟨_, _, _, hc, -⟩ := enter_cases hs
    exact List.cons_ne_nil _ _ (hc.symm.trans h0)
  | xfer p q =>
    obtain ⟨_, _, _, hc, -⟩ := xfer_cases hs
    exact List.cons_ne_nil _ _ (hc.symm.trans h0)
  | take r =>
    obtain ⟨_, _, _, _, _, _, hc, -⟩ := rcv_cases (take_cases hs).2.1
    exact List.cons_ne_nil _ _ (hc.symm.trans h0)

/-- A rendezvous move over memories that agree on `D`. -/
theorem rmove_agree {pre : Bool} {a : RMove ι} {c c' d : Posted ι A V}
    (h : Confined D W c.cfg.code) (hcrew : d.crew = c.crew)
    (hmem : ∀ r b, D r b → c.cfg.mem r b = d.cfg.mem r b) (hs : rmove pre a c = some c') :
    ∃ d', rmove pre a d = some d' ∧ d'.crew = c'.crew ∧
      ∀ r b, D r b → c'.cfg.mem r b = d'.cfg.mem r b := by
  obtain ⟨⟨code, m, chan⟩, busy, fifo, slots⟩ := c
  obtain ⟨⟨code₂, m₂, chan₂⟩, busy₂, fifo₂, slots₂⟩ := d
  obtain ⟨rfl, rfl, rfl, rfl, rfl⟩ := Crew.mk.inj hcrew
  have hmove : ∀ {b : Move ι} {x : Cfg ι A V}, move b ⟨code₂, m, chan₂⟩ = some x →
      ∃ y, move b ⟨code₂, m₂, chan₂⟩ = some y ∧ y.code = x.code ∧ y.chan = x.chan ∧
        ∀ r b, D r b → x.mem r b = y.mem r b := fun hb => move_agree h rfl rfl hmem hb
  cases a with
  | loc r =>
    simp only [rmove] at hs ⊢
    split at hs
    · obtain ⟨x, hx, rfl⟩ := Option.map_eq_some_iff.mp hs
      obtain ⟨y, hy, h1, h2, h3⟩ := hmove hx
      rw [hy]
      exact ⟨_, rfl, by simp only [Posted.crew, h1, h2], h3⟩
    · obtain ⟨x, hx, rfl⟩ := Option.map_eq_some_iff.mp hs
      obtain ⟨y, hy, h1, h2, h3⟩ := hmove hx
      rw [hy]
      refine ⟨_, rfl, ?_, ?_⟩
      · cases pre <;> simp only [Posted.crew, h1, h2, if_true, if_false, Bool.false_eq_true]
      · cases pre <;> exact h3
    · split at hs
      · rename_i hb
        obtain ⟨x, hx, rfl⟩ := Option.map_eq_some_iff.mp hs
        obtain ⟨y, hy, h1, h2, h3⟩ := hmove hx
        rw [if_pos hb, hy]
        exact ⟨_, rfl, by simp only [Posted.crew, h1, h2], h3⟩
      · cases hs
    · cases hs
  | enter r =>
    simp only [rmove] at hs ⊢
    split at hs
    · split at hs
      · cases hs
      · rename_i hb
        rw [if_neg hb]
        split at hs
        · obtain rfl := Option.some.inj hs
          exact ⟨_, rfl, rfl, hmem⟩
        · obtain rfl := Option.some.inj hs
          exact ⟨_, rfl, rfl, hmem⟩
    · cases hs
  | xfer p q =>
    simp only [rmove] at hs ⊢
    split at hs
    · split at hs
      · rename_i hg
        obtain ⟨x, hx, rfl⟩ := Option.map_eq_some_iff.mp hs
        obtain ⟨y, hy, h1, h2, h3⟩ := hmove hx
        rw [if_pos hg, hy]
        exact ⟨_, rfl, by simp only [Posted.crew, h1, h2], h3⟩
      · cases hs
    · cases hs
  | take r =>
    simp only [rmove] at hs ⊢
    split at hs
    · rename_i hb
      obtain ⟨x, hx, rfl⟩ := Option.map_eq_some_iff.mp hs
      obtain ⟨y, hy, h1, h2, h3⟩ := hmove hx
      rw [if_pos hb, hy]
      exact ⟨_, rfl, by simp only [Posted.crew, h1, h2], h3⟩
    · cases hs

end Alike

/-! ## Runs of one system -/

section Alone

variable {ι A V : Type} [DecidableEq ι] [DecidableEq A] {pre : Bool}

/-- The moves process `r` still makes. -/
def Crew.weight (t : Crew ι A V) (r : ι) : Nat :=
  2 * codeWeight (t.code r) + bif t.busy r then 0 else 1

theorem move_weight_mover {a : Move ι} {c c' : Cfg ι A V} (hs : move a c = some c') :
    codeWeight (c.code a.mover) = codeWeight (c'.code a.mover) + 1 ∧
      ∀ x, x ≠ a.mover → c'.code x = c.code x := by
  have hother : ∀ x, x ≠ a.mover → c'.code x = c.code x := by
    intro x hx
    cases a with
    | loc r =>
      obtain ⟨i, k, m, -, -, rfl⟩ := loc_cases hs
      exact Function.update_of_ne hx _ _
    | snd r =>
      obtain ⟨q, s, inn, k, -, rfl⟩ := snd_cases hs
      exact Function.update_of_ne hx _ _
    | rcv r =>
      obtain ⟨p, s, out, k, d, ds, -, -, rfl⟩ := rcv_cases hs
      exact Function.update_of_ne hx _ _
  obtain ⟨r, hr, -⟩ := move_weight hs
  have hmover : r = a.mover := by
    by_contra hne
    rw [hother r hne] at hr
    omega
  exact ⟨hmover ▸ hr, hother⟩

/-- **A move takes from the moves its process still makes**, and from no other's. -/
theorem rmove_weight {a : RMove ι} {c c' : Posted ι A V} (hs : rmove pre a c = some c') :
    c'.crew.weight a.mover < c.crew.weight a.mover ∧
      ∀ x, x ≠ a.mover → c'.crew.weight x = c.crew.weight x := by
  unfold Crew.weight Posted.crew
  cases a with
  | loc r =>
    obtain ⟨hm, i, k, -, hcase⟩ := rloc_cases hs
    obtain ⟨hw, hother⟩ := move_weight_mover hm
    simp only [Move.mover, RMove.mover] at hw hother ⊢
    rcases hcase with ⟨-, hb, -⟩ | ⟨-, hb, -, -⟩
    · refine ⟨by rw [hb]; omega, fun x hx => by rw [hb, hother x hx]⟩
    · refine ⟨?_, fun x hx => by rw [hb, hother x hx, Function.update_of_ne hx]⟩
      rw [hb, Function.update_self, cond_false]
      omega
  | enter r =>
    obtain ⟨_, _, _, -, hb, hcfg, hb', -⟩ := enter_cases hs
    simp only [RMove.mover]
    refine ⟨?_, fun x hx => by rw [hcfg, hb', Function.update_of_ne hx]⟩
    rw [hcfg, hb', Function.update_self, hb, cond_true, cond_false]
    omega
  | xfer p q =>
    obtain ⟨_, _, _, -, -, hm, hb, -⟩ := xfer_cases hs
    obtain ⟨hw, hother⟩ := move_weight_mover hm
    simp only [Move.mover, RMove.mover] at hw hother ⊢
    exact ⟨by rw [hb]; omega, fun x hx => by rw [hb, hother x hx]⟩
  | take r =>
    obtain ⟨-, hm, hb, -⟩ := take_cases hs
    obtain ⟨hw, hother⟩ := move_weight_mover hm
    simp only [Move.mover, RMove.mover] at hw hother ⊢
    exact ⟨by rw [hb]; omega, fun x hx => by rw [hb, hother x hx]⟩

/-- A finished process stays finished. -/
theorem rmove_nil {a : RMove ι} {c c' : Posted ι A V} (hs : rmove pre a c = some c') {r : ι}
    (hr : c.cfg.code r = []) : c'.cfg.code r = [] := by
  have hne : r ≠ a.mover := fun h => rmove_code hs (h ▸ hr)
  rcases rmove_move hs with heq | ⟨b, hb, hmover⟩
  · rw [heq]
    exact hr
  · rw [(move_weight_mover hb).2 r (hmover ▸ hne)]
    exact hr

/-- A rendezvous run is a run of `Process`. -/
theorem rreach_reach {c c' : Posted ι A V} (h : Relation.ReflTransGen (RStep pre) c c') :
    Relation.ReflTransGen Step c.cfg c'.cfg := by
  induction h with
  | refl => exact .refl
  | tail _ hs ih =>
    obtain ⟨a, ha⟩ := hs
    rcases rmove_move ha with heq | ⟨b, hb, -⟩
    · rw [heq]
      exact ih
    · exact ih.tail ⟨b, hb⟩

/-- With finitely many processes at work, every rendezvous run is finite. -/
theorem acc_rstep {ranks : Finset ι} {c : Posted ι A V} (hc : ∀ r, r ∉ ranks → c.cfg.code r = []) :
    Acc (fun x y => RStep pre y x) c := by
  suffices h : ∀ N c, (∀ r, r ∉ ranks → c.cfg.code r = []) →
      (∑ r ∈ ranks, c.crew.weight r) = N → Acc (fun x y : Posted ι A V => RStep pre y x) c from
    h _ c hc rfl
  intro N
  induction N using Nat.strong_induction_on with
  | _ N ih =>
    intro c hc hN
    refine ⟨_, fun c' ⟨a, ha⟩ => ?_⟩
    obtain ⟨hlt, hother⟩ := rmove_weight ha
    have hmem : a.mover ∈ ranks := by
      by_contra hout
      exact rmove_code ha (hc _ hout)
    have hsum : (∑ r ∈ ranks, c'.crew.weight r) < N := by
      rw [← hN]
      refine Finset.sum_lt_sum (fun x _ => ?_) ⟨a.mover, hmem, hlt⟩
      by_cases hx : x = a.mover
      · rw [hx]
        exact Nat.le_of_lt hlt
      · exact Nat.le_of_eq (hother x hx)
    exact ih _ hsum c' (fun r hr => rmove_nil ha (hc r hr)) rfl

/-- **One system under rendezvous.** Plans that meet and increase make every run finite and end with
all processes finished, always in the same memories. -/
theorem rendezvous_ends {ranks : Finset ι} {prog : ι → List (Instr ι A V)} {m : ι → A → V}
    {plan : ι → List (Entry ι)} (hfin : ∀ r, r ∉ ranks → prog r = [])
    (hmeet : ∀ p q, inTimes p (plan q) = outTimes q (plan p)) (hord : ∀ r, Ordered (plan r))
    (hwp : ∀ r, wp (fun _ _ _ _ => True) r (prog r) (plan r) (fun _ => True) (m r))
    (hsep : ∀ r, Separated (prog r)) :
    ∃ m' : ι → A → V, Ends (RStep pre) (rstart prog m) fun c => (∀ r, c.cfg.code r = []) ∧
      c.cfg.mem = m' := by
  have hacc : Acc (fun x y => RStep pre y x) (rstart prog m) := acc_rstep hfin
  have hdone : ∀ c, Relation.ReflTransGen (RStep pre) (rstart prog m) c → (∀ c', ¬ RStep pre c c') →
      ∀ r, c.cfg.code r = [] := by
    intro c hc hstop r
    by_contra hr
    obtain ⟨_, _, hready⟩ := ready_reach (ready_start hmeet hord hwp) hc
    obtain ⟨c', hc'⟩ := rendezvous_progress hready hr
    exact hstop c' hc'
  obtain ⟨c₀, hc₀, hstop₀⟩ := exists_terminal hacc
  refine ⟨c₀.cfg.mem, hacc, fun c hc hstop => ⟨hdone c hc hstop, ?_⟩⟩
  have heq : c.cfg = c₀.cfg := normal_unique hsep (rreach_reach hc) (rreach_reach hc₀)
    (stopped_of_finished (hdone c hc hstop)) (stopped_of_finished (hdone c₀ hc₀ hstop₀))
  rw [heq]

end Alone

/-! ## Homes -/

section Homes

variable {C ι H A B V : Type} [DecidableEq C] [DecidableEq ι] [DecidableEq H] [DecidableEq A]

/-- Where the processes of every system are at home, and where their addresses are there. -/
structure Homes (C ι H A B : Type) where
  home : C → ι → H
  place : C → ι → A → B
  back : C → ι → B → Option A
  back_iff : ∀ κ r b a, back κ r b = some a ↔ place κ r a = b

/-- The memories of the homes, and the systems. -/
structure Shared (C ι H A B V : Type) where
  mem : H → B → V
  crew : C → Crew ι A V

/-- What the processes of a system see. -/
def Homes.view (L : Homes C ι H A B) (m : H → B → V) (κ : C) (r : ι) : A → V :=
  fun a => m (L.home κ r) (L.place κ r a)

/-- A process writes its memory back. -/
def Homes.write (L : Homes C ι H A B) (m : H → B → V) (κ : C) (r : ι) (v : A → V) : H → B → V :=
  Function.update m (L.home κ r) fun b =>
    match L.back κ r b with
    | some a => v a
    | none => m (L.home κ r) b

/-- A move of one system. -/
def smove (L : Homes C ι H A B) (pre : Bool) (κ : C) (a : RMove ι) (s : Shared C ι H A B V) :
    Option (Shared C ι H A B V) :=
  (rmove pre a ((s.crew κ).on (L.view s.mem κ))).map fun c =>
    { mem := L.write s.mem κ a.mover (c.cfg.mem a.mover), crew := Function.update s.crew κ c.crew }

/-- Nothing a process writes is among what another process of its home reads or writes. -/
def Homes.Undisturbed (L : Homes C ι H A B) (D W : C → ι → A → Prop) : Prop :=
  ∀ κ r κ' r', L.home κ r = L.home κ' r' → ¬ (κ = κ' ∧ r = r') →
    ∀ a a', W κ r a → D κ' r' a' → L.place κ r a ≠ L.place κ' r' a'

variable {L : Homes C ι H A B} {D W : C → ι → A → Prop}

omit [DecidableEq C] [DecidableEq ι] [DecidableEq A] in
theorem view_write_self (m : H → B → V) (κ : C) (r : ι) (v : A → V) :
    L.view (L.write m κ r v) κ r = v := by
  funext a
  unfold Homes.view Homes.write
  rw [Function.update_self, (L.back_iff κ r _ a).mpr rfl]

omit [DecidableEq C] [DecidableEq ι] [DecidableEq A] in
/-- Another process sees its own addresses unchanged. -/
theorem view_write_other (hu : L.Undisturbed D W) {m : H → B → V} {κ κ' : C} {r r' : ι} {v : A → V}
    (hv : ∀ a, ¬ W κ r a → v a = L.view m κ r a) (hne : ¬ (κ = κ' ∧ r = r')) {a : A}
    (ha : D κ' r' a) : L.view (L.write m κ r v) κ' r' a = L.view m κ' r' a := by
  unfold Homes.view Homes.write
  by_cases hh : L.home κ' r' = L.home κ r
  · rw [hh, Function.update_self]
    cases hb : L.back κ r (L.place κ' r' a) with
    | none => rfl
    | some x =>
      have hx : L.place κ r x = L.place κ' r' a := (L.back_iff κ r _ x).mp hb
      have hw : ¬ W κ r x := fun hw => hu κ r κ' r' hh.symm hne x a hw ha hx
      show v x = _
      rw [hv x hw, ← hx]
      rfl
  · rw [Function.update_of_ne hh]

omit [DecidableEq C] [DecidableEq ι] [DecidableEq A] in
/-- Bytes that are no process's to write stay. -/
theorem write_frame {m : H → B → V} {κ : C} {r : ι} {v : A → V}
    (hv : ∀ a, ¬ W κ r a → v a = L.view m κ r a) {h : H} {b : B}
    (hb : L.home κ r = h → ∀ a, W κ r a → L.place κ r a ≠ b) : L.write m κ r v h b = m h b := by
  unfold Homes.write
  by_cases hh : h = L.home κ r
  · subst hh
    rw [Function.update_self]
    cases hx : L.back κ r b with
    | none => rfl
    | some x =>
      have hplace : L.place κ r x = b := (L.back_iff κ r b x).mp hx
      show v x = _
      rw [hv x fun hw => hb rfl x hw hplace, ← hplace]
      rfl
  · rw [Function.update_of_ne hh]

/-- `c` is system `κ` of `s`: it has come as far, its code is confined, and its addresses have the
same contents. -/
structure Mirrors (L : Homes C ι H A B) (D W : C → ι → A → Prop) (κ : C) (s : Shared C ι H A B V)
    (c : Posted ι A V) : Prop where
  crew : c.crew = s.crew κ
  confined : Confined (D κ) (W κ) c.cfg.code
  mem : ∀ r a, D κ r a → c.cfg.mem r a = L.view s.mem κ r a

variable {pre : Bool} {s s' : Shared C ι H A B V} {κ κ' : C} {c : Posted ι A V} {a : RMove ι}

omit [DecidableEq C] [DecidableEq ι] [DecidableEq H] [DecidableEq A] in
theorem crew_on (t : Crew ι A V) (m : ι → A → V) : (t.on m).crew = t := rfl

/-- A move of the system itself is a move of its mirror. -/
theorem Mirrors.step (hu : L.Undisturbed D W) (h : Mirrors L D W κ s c)
    (hs : smove L pre κ a s = some s') : ∃ c', RStep pre c c' ∧ Mirrors L D W κ s' c' := by
  obtain ⟨x, hx, rfl⟩ := Option.map_eq_some_iff.mp hs
  have hconf : Confined (D κ) (W κ) ((s.crew κ).on (L.view s.mem κ)).cfg.code := by
    have := h.confined
    rw [show c.cfg.code = (s.crew κ).code from congrArg Crew.code h.crew] at this
    exact this
  obtain ⟨c', hc', hcrew, hmem⟩ := rmove_agree hconf (h.crew.trans (crew_on _ _).symm)
    (fun r b hb => (h.mem r b hb).symm) hx
  obtain ⟨h1, h2, h3⟩ := rmove_confined hconf hx
  refine ⟨c', ⟨a, hc'⟩, ?_, ?_, fun r b hb => ?_⟩
  · simp only [Function.update_self]
    exact hcrew
  · rw [show c'.cfg.code = x.cfg.code from congrArg Crew.code hcrew]
    exact h1
  · rw [← hmem r b hb]
    by_cases hr : r = a.mover
    · subst hr
      rw [view_write_self]
    · rw [view_write_other hu h3 (fun he => hr he.2.symm) hb, h2 r hr]
      rfl

/-- A move of another system leaves the mirror as it is. -/
theorem Mirrors.other (hu : L.Undisturbed D W) (h : Mirrors L D W κ s c)
    (hconf : Confined (D κ') (W κ') (s.crew κ').code) (hne : κ' ≠ κ)
    (hs : smove L pre κ' a s = some s') : Mirrors L D W κ s' c := by
  obtain ⟨x, hx, rfl⟩ := Option.map_eq_some_iff.mp hs
  obtain ⟨-, -, h3⟩ := rmove_confined (c := (s.crew κ').on (L.view s.mem κ')) hconf hx
  refine ⟨?_, h.confined, fun r b hb => ?_⟩
  · simp only [Function.update_of_ne hne.symm]
    exact h.crew
  · rw [view_write_other hu h3 (fun he => hne he.1) hb]
    exact h.mem r b hb

/-- A move the mirror can make the system can make. -/
theorem Mirrors.lift (h : Mirrors L D W κ s c) {c' : Posted ι A V}
    (hs : rmove pre a c = some c') : ∃ s', smove L pre κ a s = some s' := by
  obtain ⟨x, hx, -⟩ := rmove_agree h.confined (d := (s.crew κ).on (L.view s.mem κ))
    ((crew_on _ _).trans h.crew.symm) h.mem hs
  exact ⟨_, Option.map_eq_some_iff.mpr ⟨x, hx, rfl⟩⟩

/-- A move of a system is a move over its view of the memory. -/
theorem smove_cases (hs : smove L pre κ a s = some s') :
    ∃ x, rmove pre a ((s.crew κ).on (L.view s.mem κ)) = some x ∧ s'.crew κ = x.crew ∧
      ∀ κ', κ' ≠ κ → s'.crew κ' = s.crew κ' := by
  obtain ⟨x, hx, rfl⟩ := Option.map_eq_some_iff.mp hs
  exact ⟨x, hx, Function.update_self .., fun κ' hne => Function.update_of_ne hne ..⟩

/-- A move takes from the moves its process still makes, and from no other's. -/
theorem smove_weight (hs : smove L pre κ a s = some s') :
    (s'.crew κ).weight a.mover < (s.crew κ).weight a.mover ∧
      ∀ κ' r, ¬ (κ' = κ ∧ r = a.mover) → (s'.crew κ').weight r = (s.crew κ').weight r := by
  obtain ⟨x, hx, hcrew, hother⟩ := smove_cases hs
  obtain ⟨hlt, hx'⟩ := rmove_weight hx
  refine ⟨by rw [hcrew]; exact hlt, fun κ' r hne => ?_⟩
  by_cases hκ : κ' = κ
  · subst hκ
    rw [hcrew, hx' r fun h => hne ⟨rfl, h⟩]
    rfl
  · rw [hother κ' hκ]

/-- Each system of `s` has run from its start, as it does alone. -/
def Mirrored (L : Homes C ι H A B) (D W : C → ι → A → Prop) (pre : Bool)
    (prog : C → ι → List (Instr ι A V)) (m : H → B → V) (s : Shared C ι H A B V) : Prop :=
  ∀ κ, ∃ c, Relation.ReflTransGen (RStep pre) (rstart (prog κ) (L.view m κ)) c ∧ Mirrors L D W κ s c

/-- All systems at their start. -/
def sstart (prog : C → ι → List (Instr ι A V)) (m : H → B → V) : Shared C ι H A B V :=
  ⟨m, fun κ => ⟨prog κ, fun _ _ => [], fun _ => false, fun _ _ => 0, fun _ _ => 0⟩⟩

variable {prog : C → ι → List (Instr ι A V)} {m : H → B → V}

omit [DecidableEq C] [DecidableEq H] in
theorem mirrored_start (hconf : ∀ κ, Confined (D κ) (W κ) (prog κ)) :
    Mirrored L D W pre prog m (sstart prog m) :=
  fun κ => ⟨_, .refl, rfl, hconf κ, fun _ _ _ => rfl⟩

/-- **Among the others a system runs as it does alone.** -/
theorem mirrored_step (hu : L.Undisturbed D W) (h : Mirrored L D W pre prog m s)
    (hs : smove L pre κ a s = some s') : Mirrored L D W pre prog m s' := by
  intro κ'
  obtain ⟨c, hc, hmir⟩ := h κ'
  by_cases hκ : κ = κ'
  · subst hκ
    obtain ⟨c', hstep, hmir'⟩ := hmir.step hu hs
    exact ⟨c', hc.tail hstep, hmir'⟩
  · obtain ⟨c₂, -, hmir₂⟩ := h κ
    have hconf : Confined (D κ) (W κ) (s.crew κ).code := hmir₂.crew ▸ hmir₂.confined
    exact ⟨c, hc, hmir.other hu hconf hκ hs⟩

/-- What no process of the home writes stays as it is. -/
theorem smove_frame (h : Mirrored L D W pre prog m s) (hs : smove L pre κ a s = some s') {w : H} {b : B}
    (hb : ∀ κ r a, L.home κ r = w → W κ r a → L.place κ r a ≠ b) : s'.mem w b = s.mem w b := by
  obtain ⟨c, -, hmir⟩ := h κ
  have hconf : Confined (D κ) (W κ) (s.crew κ).code := hmir.crew ▸ hmir.confined
  obtain ⟨x, hx, rfl⟩ := Option.map_eq_some_iff.mp hs
  obtain ⟨-, -, hw⟩ := rmove_confined (c := (s.crew κ).on (L.view s.mem κ)) hconf hx
  exact write_frame hw fun hh a ha => hb κ _ a hh ha

end Homes

end Vccl.Net
