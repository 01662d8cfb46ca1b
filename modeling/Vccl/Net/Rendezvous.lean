import Vccl.Net.Process

/-!
# Processes that send by rendezvous

The processes of `Vccl.Net.Process` over a transport without buffering: the outgoing half of an
exchange runs only when the receiver has posted the matching receive. A process posts a receive
when it enters the exchange that has it, or earlier with `post` if the transport honours that
(`pre`); an exchange whose receive was posted earlier takes that one.

A configuration (`Posted`) is a configuration of `Process` with the counts of posted receives, and
each move is a move of `Process` under a guard, so `Keeps` holds along all runs (`ready_reach`).

**No run deadlocks** (`rendezvous_progress`): under a plan, some process can move in every
reachable configuration that is not finished. At the least time of an unfinished process both ends
of its message are in the same exchange.
-/

namespace Vccl.Net

variable {ι A V : Type} [DecidableEq ι] [DecidableEq A]

/-- A configuration with posted receives: `slots q p` receives of `q` from `p` are posted and
unmatched, `fifo q p` were posted ahead and no exchange of `q` has taken them yet, and `busy r`
says that `r` is inside its first exchange. -/
structure Posted (ι A V : Type) where
  cfg : Cfg ι A V
  busy : ι → Bool
  fifo : ι → ι → Nat
  slots : ι → ι → Nat

/-- A local step, entering an exchange, a message from `p` to `q`, taking a message in. -/
inductive RMove (ι : Type) where
  | loc (r : ι)
  | enter (r : ι)
  | xfer (p q : ι)
  | take (r : ι)

/-- Receives from `p` among those posted. -/
def countFrom (p : ι) (reqs : List (ι × List A)) : Nat := reqs.countP fun x => x.1 = p

/-- Add `k p` to the row of `q`. -/
def addRow (f : ι → ι → Nat) (q : ι) (k : ι → Nat) : ι → ι → Nat :=
  fun a b => if a = q then f a b + k b else f a b

/-- One move. -/
def rmove (pre : Bool) : RMove ι → Posted ι A V → Option (Posted ι A V)
  | .loc r, c =>
    match c.cfg.code r with
    | .cpu _ :: _ => (move (.loc r) c.cfg).map fun d => { c with cfg := d }
    | .post reqs :: _ => (move (.loc r) c.cfg).map fun d =>
        if pre then
          { c with
            cfg := d
            fifo := addRow c.fifo r fun p => countFrom p reqs
            slots := addRow c.slots r fun p => countFrom p reqs }
        else { c with cfg := d }
    | .xchg none none :: _ =>
      if c.busy r then
        (move (.loc r) c.cfg).map fun d => { c with cfg := d, busy := Function.update c.busy r false }
      else none
    | _ => none
  | .enter r, c =>
    match c.cfg.code r with
    | .xchg _ inn :: _ =>
      if c.busy r then none
      else
        match inn with
        | none => some { c with busy := Function.update c.busy r true }
        | some (p, _) =>
          some { c with
            busy := Function.update c.busy r true
            fifo := setPair c.fifo r p (c.fifo r p - 1)
            slots := if c.fifo r p = 0 then setPair c.slots r p (c.slots r p + 1) else c.slots }
    | _ => none
  | .xfer p q, c =>
    match c.cfg.code p with
    | .xchg (some (q', _)) _ :: _ =>
      if c.busy p ∧ q' = q ∧ 0 < c.slots q p then
        (move (.snd p) c.cfg).map fun d => { c with cfg := d, slots := setPair c.slots q p (c.slots q p - 1) }
      else none
    | _ => none
  | .take r, c =>
    if c.busy r then (move (.rcv r) c.cfg).map fun d => { c with cfg := d } else none

/-- One move of any process. -/
def RStep (pre : Bool) (c c' : Posted ι A V) : Prop := ∃ a, rmove pre a c = some c'

/-- Nothing posted, nobody inside an exchange. -/
def rstart (prog : ι → List (Instr ι A V)) (m : ι → A → V) : Posted ι A V :=
  ⟨start prog m, fun _ => false, fun _ _ => 0, fun _ _ => 0⟩

/-- The receive a process waits for when it is inside its first exchange. -/
def pending (busy : Bool) (k : List (Instr ι A V)) (p : ι) : Nat :=
  match busy, k with
  | true, .xchg _ (some (p', _)) :: _ => if p' = p then 1 else 0
  | _, _ => 0

/-- The invariant of all runs: the plan is kept, only a process at an exchange is inside one, and
the receives posted and not taken in are those posted ahead and the one waited for. -/
structure Ready (c : Posted ι A V) (plan : ι → List (Entry ι)) (fly : ι → ι → List Nat) : Prop where
  keeps : Keeps (fun _ _ _ _ => True) (fun _ _ => True) c.cfg plan fly
  inside : ∀ r, c.busy r = true → ∃ out inn k, c.cfg.code r = .xchg out inn :: k
  posted : ∀ q p, c.slots q p + (c.cfg.chan p q).length =
    c.fifo q p + pending (c.busy q) (c.cfg.code q) p

omit [DecidableEq A] in
theorem pending_false (k : List (Instr ι A V)) (p : ι) : pending false k p = 0 := by
  unfold pending
  split
  · rename_i h; exact absurd h (by simp)
  · rfl

omit [DecidableEq A] in
theorem pending_none (b : Bool) (out : Option (ι × List A)) (k : List (Instr ι A V)) (p : ι) :
    pending b (.xchg out none :: k) p = 0 := by
  cases b <;> rfl

/-! ## What a move can do -/

omit [DecidableEq ι] [DecidableEq A] in
theorem addRow_zero [DecidableEq ι] (f : ι → ι → Nat) (q : ι) : addRow f q (fun _ => 0) = f := by
  funext a b
  simp [addRow]

/-- A local step posts receives, or leaves a finished exchange. -/
theorem rloc_cases {pre : Bool} {c c' : Posted ι A V} {r : ι}
    (hs : rmove pre (.loc r) c = some c') :
    move (.loc r) c.cfg = some c'.cfg ∧ ∃ i k, c.cfg.code r = i :: k ∧
      (((∀ out inn, i ≠ .xchg out inn) ∧ c'.busy = c.busy ∧
          ∃ add, c'.fifo = addRow c.fifo r add ∧ c'.slots = addRow c.slots r add) ∨
       (i = .xchg none none ∧ c'.busy = Function.update c.busy r false ∧ c'.fifo = c.fifo ∧
          c'.slots = c.slots)) := by
  simp only [rmove] at hs
  split at hs
  · rename_i f k hc
    obtain ⟨d, hd, rfl⟩ := Option.map_eq_some_iff.mp hs
    exact ⟨hd, _, k, hc, Or.inl ⟨by simp, rfl, fun _ => 0, (addRow_zero _ _).symm,
      (addRow_zero _ _).symm⟩⟩
  · rename_i reqs k hc
    obtain ⟨d, hd, rfl⟩ := Option.map_eq_some_iff.mp hs
    cases pre with
    | true => exact ⟨hd, _, k, hc, Or.inl ⟨by simp, rfl, _, rfl, rfl⟩⟩
    | false =>
      exact ⟨hd, _, k, hc, Or.inl ⟨by simp, rfl, fun _ => 0, (addRow_zero _ _).symm,
        (addRow_zero _ _).symm⟩⟩
  · rename_i k hc
    split at hs
    · obtain ⟨d, hd, rfl⟩ := Option.map_eq_some_iff.mp hs
      exact ⟨hd, _, k, hc, Or.inr ⟨rfl, rfl, rfl, rfl⟩⟩
    · exact absurd hs (by simp)
  · exact absurd hs (by simp)

/-- Entering an exchange takes a receive posted ahead, or posts it. -/
theorem enter_cases {pre : Bool} {c c' : Posted ι A V} {r : ι}
    (hs : rmove pre (.enter r) c = some c') :
    ∃ out inn k, c.cfg.code r = .xchg out inn :: k ∧ c.busy r = false ∧ c'.cfg = c.cfg ∧
      c'.busy = Function.update c.busy r true ∧
      ((inn = none ∧ c'.fifo = c.fifo ∧ c'.slots = c.slots) ∨
       ∃ p s, inn = some (p, s) ∧ c'.fifo = setPair c.fifo r p (c.fifo r p - 1) ∧
        c'.slots = if c.fifo r p = 0 then setPair c.slots r p (c.slots r p + 1) else c.slots) := by
  simp only [rmove] at hs
  split at hs
  · rename_i out inn k hc
    split at hs
    · exact absurd hs (by simp)
    · rename_i hb
      have hb : c.busy r = false := by simpa using hb
      cases inn with
      | none =>
        obtain rfl := Option.some.inj hs
        exact ⟨out, none, k, hc, hb, rfl, rfl, Or.inl ⟨rfl, rfl, rfl⟩⟩
      | some ps =>
        obtain ⟨p, s⟩ := ps
        obtain rfl := Option.some.inj hs
        exact ⟨out, _, k, hc, hb, rfl, rfl, Or.inr ⟨p, s, rfl, rfl, rfl⟩⟩
  · exact absurd hs (by simp)

theorem xfer_cases {pre : Bool} {c c' : Posted ι A V} {p q : ι}
    (hs : rmove pre (.xfer p q) c = some c') :
    ∃ s inn k, c.cfg.code p = .xchg (some (q, s)) inn :: k ∧ 0 < c.slots q p ∧
      move (.snd p) c.cfg = some c'.cfg ∧ c'.busy = c.busy ∧ c'.fifo = c.fifo ∧
      c'.slots = setPair c.slots q p (c.slots q p - 1) := by
  simp only [rmove] at hs
  split at hs
  · rename_i q' s inn k hc
    split at hs
    · rename_i hg
      obtain ⟨-, rfl, hpos⟩ := hg
      obtain ⟨d, hd, rfl⟩ := Option.map_eq_some_iff.mp hs
      exact ⟨s, inn, k, hc, hpos, hd, rfl, rfl, rfl⟩
    · exact absurd hs (by simp)
  · exact absurd hs (by simp)

theorem take_cases {pre : Bool} {c c' : Posted ι A V} {r : ι}
    (hs : rmove pre (.take r) c = some c') :
    c.busy r = true ∧ move (.rcv r) c.cfg = some c'.cfg ∧ c'.busy = c.busy ∧ c'.fifo = c.fifo ∧
      c'.slots = c.slots := by
  simp only [rmove] at hs
  split at hs
  · rename_i hb
    obtain ⟨d, hd, rfl⟩ := Option.map_eq_some_iff.mp hs
    exact ⟨hb, hd, rfl, rfl, rfl⟩
  · exact absurd hs (by simp)

/-! ## The invariant -/

theorem ready_loc {pre : Bool} {c c' : Posted ι A V} {plan : ι → List (Entry ι)}
    {fly : ι → ι → List Nat} {r : ι} (h : Ready c plan fly) (hs : rmove pre (.loc r) c = some c') :
    ∃ plan' fly', Ready c' plan' fly' := by
  obtain ⟨hd, i, k, hc, hcase⟩ := rloc_cases hs
  obtain ⟨plan', fly', hk⟩ := keeps_loc h.keeps hd
  obtain ⟨_, k', m, hc', -, hcfg⟩ := loc_cases hd
  rw [hc] at hc'
  obtain ⟨rfl, rfl⟩ := List.cons.inj hc'
  have hcode : ∀ x, x ≠ r → c'.cfg.code x = c.cfg.code x := fun x hx => by simp [hcfg, Cfg.next, hx]
  have hchan : c'.cfg.chan = c.cfg.chan := by rw [hcfg]; rfl
  -- whether it posts or leaves, the process is inside no exchange afterwards
  have hbr : c'.busy r = false := by
    rcases hcase with ⟨hi, hb, -⟩ | ⟨-, hb, -⟩
    · rw [hb]
      by_contra hcon
      obtain ⟨out, inn, k'', hk''⟩ := h.inside r (by simpa using hcon)
      rw [hc] at hk''
      exact hi out inn (List.cons.inj hk'').1
    · rw [hb, Function.update_self]
  have hbx : ∀ x, x ≠ r → c'.busy x = c.busy x := fun x hx => by
    rcases hcase with ⟨-, hb, -⟩ | ⟨-, hb, -⟩
    · rw [hb]
    · rw [hb, Function.update_of_ne hx]
  have hpend : ∀ p, pending (c.busy r) (c.cfg.code r) p = 0 := fun p => by
    rcases hcase with ⟨hi, hb, -⟩ | ⟨rfl, -, -⟩
    · rw [← hb, hbr, pending_false]
    · rw [hc, pending_none]
  refine ⟨plan', fly', hk, fun x hx => ?_, fun q p => ?_⟩
  · have hxr : x ≠ r := fun e => by rw [e, hbr] at hx; exact absurd hx (by simp)
    rw [hcode x hxr]
    exact h.inside x (by rwa [← hbx x hxr])
  · have hold := h.posted q p
    rw [hchan]
    by_cases hq : q = r
    · subst hq
      rw [hpend] at hold
      rw [hbr, pending_false]
      rcases hcase with ⟨-, -, add, hf, hsl⟩ | ⟨-, -, hf, hsl⟩
      · rw [hf, hsl]
        simp only [addRow, if_true]
        omega
      · rw [hf, hsl]
        exact hold
    · rw [hbx q hq, hcode q hq]
      rcases hcase with ⟨-, -, add, hf, hsl⟩ | ⟨-, -, hf, hsl⟩
      · rw [hf, hsl]
        simpa [addRow, hq] using hold
      · rw [hf, hsl]
        exact hold

theorem ready_enter {pre : Bool} {c c' : Posted ι A V} {plan : ι → List (Entry ι)}
    {fly : ι → ι → List Nat} {r : ι} (h : Ready c plan fly)
    (hs : rmove pre (.enter r) c = some c') : Ready c' plan fly := by
  obtain ⟨out, inn, k, hc, hb, hcfg, hbusy, hcase⟩ := enter_cases hs
  refine ⟨hcfg ▸ h.keeps, fun x hx => ?_, fun q p => ?_⟩
  · rw [hcfg]
    by_cases hxr : x = r
    · subst hxr; exact ⟨out, inn, k, hc⟩
    · exact h.inside x (by rwa [hbusy, Function.update_of_ne hxr] at hx)
  · have hold := h.posted q p
    rw [hcfg, hbusy]
    by_cases hq : q = r
    · subst hq
      rw [hb, pending_false] at hold
      rw [Function.update_self, hc]
      rcases hcase with ⟨rfl, hf, hsl⟩ | ⟨p', s, rfl, hf, hsl⟩
      · rw [hf, hsl, pending_none]; exact hold
      · by_cases hp : p' = p
        · subst hp
          rw [hf, hsl, setPair_same]
          simp only [pending, if_true]
          split
          · rw [setPair_same]; omega
          · omega
        · have hne : ¬ (q = q ∧ p = p') := fun e => hp e.2.symm
          rw [hf, hsl, setPair_other hne]
          simp only [pending, if_neg hp]
          split
          · rw [setPair_other hne]; exact hold
          · exact hold
    · rw [Function.update_of_ne hq]
      rcases hcase with ⟨-, hf, hsl⟩ | ⟨p', s, -, hf, hsl⟩
      · rw [hf, hsl]; exact hold
      · have hne : ¬ (q = r ∧ p = p') := fun e => hq e.1
        rw [hf, hsl, setPair_other hne]
        split
        · rw [setPair_other hne]; exact hold
        · exact hold

theorem ready_xfer {pre : Bool} {c c' : Posted ι A V} {plan : ι → List (Entry ι)}
    {fly : ι → ι → List Nat} {a b : ι} (h : Ready c plan fly)
    (hs : rmove pre (.xfer a b) c = some c') : ∃ plan' fly', Ready c' plan' fly' := by
  obtain ⟨s, inn, k, hc, hpos, hd, hbusy, hf, hsl⟩ := xfer_cases hs
  obtain ⟨plan', fly', hk⟩ := keeps_snd h.keeps hd
  obtain ⟨_, _, _, _, hc', hcfg⟩ := snd_cases hd
  rw [hc] at hc'
  obtain ⟨hi, rfl⟩ := List.cons.inj hc'
  obtain ⟨ho, rfl⟩ := Instr.xchg.inj hi
  obtain ⟨rfl, rfl⟩ := Prod.mk.inj (Option.some.inj ho)
  have hcode : c'.cfg.code = Function.update c.cfg.code a (.xchg none inn :: k) := by rw [hcfg]
  have hchan : c'.cfg.chan = setPair c.cfg.chan a b (c.cfg.chan a b ++ [load (c.cfg.mem a) s]) := by
    rw [hcfg]
  -- the sender's incoming half is untouched
  have hpend : ∀ q p, pending (c'.busy q) (c'.cfg.code q) p =
      pending (c.busy q) (c.cfg.code q) p := by
    intro q p
    rw [hbusy, hcode]
    by_cases hq : q = a
    · subst hq
      rw [hc, Function.update_self]
      cases c.busy q <;> cases inn <;> rfl
    · rw [Function.update_of_ne hq]
  refine ⟨plan', fly', hk, fun x hx => ?_, fun q p => ?_⟩
  · rw [hbusy] at hx
    by_cases hxa : x = a
    · subst hxa; rw [hcode]; exact ⟨_, _, _, by rw [Function.update_self]⟩
    · rw [hcode, Function.update_of_ne hxa]; exact h.inside x hx
  · have hold := h.posted q p
    rw [hpend, hf, hsl, hchan]
    by_cases hqp : q = b ∧ p = a
    · obtain ⟨rfl, rfl⟩ := hqp
      rw [setPair_same, setPair_same, List.length_append, List.length_singleton]
      omega
    · rw [setPair_other hqp, setPair_other fun e : p = a ∧ q = b => hqp ⟨e.2, e.1⟩]
      exact hold

theorem ready_take {pre : Bool} {c c' : Posted ι A V} {plan : ι → List (Entry ι)}
    {fly : ι → ι → List Nat} {r : ι} (h : Ready c plan fly)
    (hs : rmove pre (.take r) c = some c') : ∃ plan' fly', Ready c' plan' fly' := by
  obtain ⟨hb, hd, hbusy, hf, hsl⟩ := take_cases hs
  obtain ⟨plan', fly', hk⟩ := keeps_rcv h.keeps hd
  obtain ⟨a, s, out, k, d, ds, hc, hch, hcfg⟩ := rcv_cases hd
  have hcode : c'.cfg.code = Function.update c.cfg.code r (.xchg out none :: k) := by rw [hcfg]
  have hchan : c'.cfg.chan = setPair c.cfg.chan a r ds := by rw [hcfg]
  refine ⟨plan', fly', hk, fun x hx => ?_, fun q p => ?_⟩
  · rw [hbusy] at hx
    by_cases hxr : x = r
    · subst hxr; rw [hcode]; exact ⟨_, _, _, by rw [Function.update_self]⟩
    · rw [hcode, Function.update_of_ne hxr]; exact h.inside x hx
  · have hold := h.posted q p
    rw [hf, hsl, hbusy, hcode, hchan]
    by_cases hq : q = r
    · subst hq
      rw [hb, hc] at hold
      rw [Function.update_self, pending_none]
      by_cases hp : a = p
      · subst hp
        rw [hch] at hold
        simp only [pending, if_true, List.length_cons] at hold
        rw [setPair_same]
        omega
      · simp only [pending, if_neg hp] at hold
        rw [setPair_other fun e : p = a ∧ q = q => hp e.1.symm]
        exact hold
    · rw [Function.update_of_ne hq, setPair_other fun e : p = a ∧ q = r => hq e.2]
      exact hold

/-- One step keeps the invariant. -/
theorem ready_step {pre : Bool} {c c' : Posted ι A V} {plan : ι → List (Entry ι)}
    {fly : ι → ι → List Nat} (h : Ready c plan fly) (hs : RStep pre c c') :
    ∃ plan' fly', Ready c' plan' fly' := by
  obtain ⟨a, ha⟩ := hs
  cases a with
  | loc r => exact ready_loc h ha
  | enter r => exact ⟨plan, fly, ready_enter h ha⟩
  | xfer p q => exact ready_xfer h ha
  | take r => exact ready_take h ha

/-- Every reachable configuration keeps the invariant. -/
theorem ready_reach {pre : Bool} {c c' : Posted ι A V} {plan : ι → List (Entry ι)}
    {fly : ι → ι → List Nat} (h : Ready c plan fly) (hs : Relation.ReflTransGen (RStep pre) c c') :
    ∃ plan' fly', Ready c' plan' fly' := by
  induction hs with
  | refl => exact ⟨plan, fly, h⟩
  | tail _ hstep ih =>
    obtain ⟨_, _, ih⟩ := ih
    exact ready_step ih hstep

/-! ## Progress -/

/-- Where nothing moves, every unfinished process is inside its first exchange, with a half that
cannot run: no receive is posted for it, or no message is there. -/
theorem rstuck_inside {pre : Bool} {c : Posted ι A V} (hn : ∀ c', ¬ RStep pre c c') {r : ι}
    (hr : c.cfg.code r ≠ []) :
    ∃ out inn k, c.cfg.code r = .xchg out inn :: k ∧ c.busy r = true ∧
      (out ≠ none ∨ inn ≠ none) ∧
      (∀ q s, out = some (q, s) → c.slots q r = 0) ∧
      ∀ p s, inn = some (p, s) → c.cfg.chan p r = [] := by
  have hno : ∀ a, rmove pre a c = none := fun a => by
    cases h : rmove pre a c with
    | none => rfl
    | some c' => exact absurd ⟨a, h⟩ (hn c')
  have hl := hno (.loc r)
  have he := hno (.enter r)
  have ht := hno (.take r)
  cases hc : c.cfg.code r with
  | nil => exact absurd hc hr
  | cons i k =>
    match i with
    | .cpu f => exact absurd hl (by simp [rmove, hc, move, Instr.run])
    | .post q => exact absurd hl (by cases pre <;> simp [rmove, hc, move, Instr.run])
    | .xchg out inn =>
      have hb : c.busy r = true := by
        by_contra hb
        simp only [rmove, hc, if_neg hb] at he
        cases inn <;> exact absurd he (by simp)
      refine ⟨out, inn, k, rfl, hb, ?_, ?_, ?_⟩
      · by_contra hcon
        rw [not_or, not_not, not_not] at hcon
        obtain ⟨rfl, rfl⟩ := hcon
        exact absurd hl (by simp [rmove, hc, hb, move, Instr.run])
      · rintro q s rfl
        by_contra hpos
        have hx := hno (.xfer r q)
        exact absurd hx (by simp [rmove, hc, hb, move, Nat.pos_of_ne_zero hpos])
      · rintro p s rfl
        cases hch : c.cfg.chan p r with
        | nil => rfl
        | cons d ds => exact absurd ht (by simp [rmove, hc, hb, move, hch])

/-- The head of the plan of a process at an exchange. -/
theorem Keeps.entry {Pay : ι → ι → Nat → List V → Prop} {Q : ι → (A → V) → Prop} {c : Cfg ι A V}
    {plan : ι → List (Entry ι)} {fly : ι → ι → List Nat} (h : Keeps Pay Q c plan fly) {r : ι}
    {out inn : Option (ι × List A)} {k : List (Instr ι A V)} (hc : c.code r = .xchg out inn :: k) :
    ∃ e pl, plan r = e :: pl ∧ e.out = out.map Prod.fst ∧ e.inn = inn.map Prod.fst := by
  have hw := h.wp r
  rw [hc] at hw
  cases hp : plan r with
  | nil => rw [hp] at hw; cases inn <;> exact hw.elim
  | cons e pl =>
    rw [hp] at hw
    cases inn with
    | none => exact ⟨e, pl, rfl, hw.2.1.peer, hw.1⟩
    | some ps => exact ⟨e, pl, rfl, hw.2.1.peer, hw.1⟩

omit [DecidableEq ι] in
/-- An entry of the plan at time `t` is the first, or the first is earlier. -/
theorem head_or_earlier {e : Entry ι} {pl : List (Entry ι)} (ho : Ordered (e :: pl)) {e' : Entry ι}
    (h : e' ∈ e :: pl) : e' = e ∨ e.time < e'.time := by
  rcases List.mem_cons.mp h with h | h
  · exact Or.inl h
  · exact Or.inr ((List.pairwise_cons.mp ho).1 e' h)

theorem Keeps.code_ne_nil {Pay : ι → ι → Nat → List V → Prop} {Q : ι → (A → V) → Prop}
    {c : Cfg ι A V} {plan : ι → List (Entry ι)} {fly : ι → ι → List Nat}
    (h : Keeps Pay Q c plan fly) {r : ι} {e : Entry ι} (he : e ∈ plan r) : c.code r ≠ [] := by
  intro h0
  have hw := h.wp r
  rw [h0] at hw
  cases hp : plan r with
  | nil => rw [hp] at he; exact absurd he List.not_mem_nil
  | cons _ _ => rw [hp] at hw; exact hw.elim

/-- **No deadlock.** In a configuration that keeps the invariant, some process can move unless
all have finished. -/
theorem rendezvous_progress {pre : Bool} {c : Posted ι A V} {plan : ι → List (Entry ι)}
    {fly : ι → ι → List Nat} (h : Ready c plan fly) {r : ι} (hr : c.cfg.code r ≠ []) :
    ∃ c', RStep pre c c' := by
  by_contra hcon
  have hn : ∀ c', ¬ RStep pre c c' := fun c' hc' => hcon ⟨c', hc'⟩
  -- induction on the time of the exchange a process is inside of
  suffices hw : ∀ t r e pl, plan r = e :: pl → e.time = t → c.cfg.code r ≠ [] → False by
    obtain ⟨out, inn, k, hc, -⟩ := rstuck_inside hn hr
    obtain ⟨e, pl, hp, -⟩ := h.keeps.entry hc
    exact hw e.time r e pl hp rfl hr
  intro t
  induction t using Nat.strong_induction_on with
  | _ t ih =>
    intro r e pl hp ht hr
    obtain ⟨out, inn, k, hc, hb, hhalf, hslots, hchan⟩ := rstuck_inside hn hr
    obtain ⟨e0, pl0, hp0, hout, hinn⟩ := h.keeps.entry hc
    rw [hp] at hp0
    obtain ⟨rfl, rfl⟩ := List.cons.inj hp0
    -- the peer's exchange at time `t` is its first, else the peer is unfinished at an earlier time
    have hpeer : ∀ x e', e' ∈ plan x → e'.time = t → ∃ out' inn' k', c.cfg.code x =
        .xchg out' inn' :: k' ∧ c.busy x = true ∧ e'.out = out'.map Prod.fst ∧
        e'.inn = inn'.map Prod.fst ∧ (∀ q s, out' = some (q, s) → c.slots q x = 0) ∧
        ∀ p s, inn' = some (p, s) → c.cfg.chan p x = [] := by
      intro x e' he' het
      have hx := h.keeps.code_ne_nil he'
      obtain ⟨out', inn', k', hc', hb', -, hsl', hch'⟩ := rstuck_inside hn hx
      obtain ⟨e0, pl0, hp0, ho', hi'⟩ := h.keeps.entry hc'
      rw [hp0] at he'
      rcases head_or_earlier (by rw [← hp0]; exact h.keeps.ordered x) he' with rfl | hlt
      · exact ⟨out', inn', k', hc', hb', ho', hi', hsl', hch'⟩
      · exact (ih e0.time (by omega) x e0 pl0 hp0 rfl hx).elim
    cases inn with
    | some ps =>
      obtain ⟨p, s⟩ := ps
      have hch := hchan p s rfl
      have hfly : fly p r = [] := by
        have := h.keeps.pay p r
        rw [hch] at this
        cases hf : fly p r with
        | nil => rfl
        | cons _ _ => rw [hf] at this; cases this
      have hmem : t ∈ outTimes r (plan p) := by
        have := h.keeps.meet p r
        rw [hp, inTimes_cons, hinn, Option.map_some, if_pos rfl, hfly, List.nil_append] at this
        rw [← this, ht]
        exact List.mem_cons_self
      obtain ⟨e', he', het⟩ := List.mem_map.mp hmem
      rw [List.mem_filter, decide_eq_true_iff] at he'
      obtain ⟨out', inn', k', hc', -, ho', -, hsl', -⟩ := hpeer p e' he'.1 het
      obtain ⟨qs, rfl, hq⟩ := Option.map_eq_some_iff.mp (ho'.symm.trans he'.2)
      obtain ⟨q', s'⟩ := qs
      obtain rfl : q' = r := hq
      -- the sender is there, so no receive of this process is posted, yet it waits for one
      have hpost := h.posted q' p
      rw [hch, hsl' q' s' rfl, hb, hc] at hpost
      simp [pending] at hpost
    | none =>
      cases out with
      | none => simp at hhalf
      | some qs =>
        obtain ⟨q, s⟩ := qs
        have hmem : t ∈ inTimes r (plan q) := by
          rw [h.keeps.meet r q, hp, outTimes_cons, hout, Option.map_some, if_pos rfl, ht]
          exact List.mem_append_right _ List.mem_cons_self
        obtain ⟨e', he', het⟩ := List.mem_map.mp hmem
        rw [List.mem_filter, decide_eq_true_iff] at he'
        obtain ⟨out', inn', k', hc', hb', -, hi', -, hch'⟩ := hpeer q e' he'.1 het
        obtain ⟨ps, rfl, hq⟩ := Option.map_eq_some_iff.mp (hi'.symm.trans he'.2)
        obtain ⟨r', s'⟩ := ps
        obtain rfl : r' = r := hq
        have hpost := h.posted q r'
        rw [hch' r' s' rfl, hslots q s rfl, hb', hc'] at hpost
        simp [pending] at hpost

theorem ready_start {prog : ι → List (Instr ι A V)} {m : ι → A → V} {plan : ι → List (Entry ι)}
    (hmeet : ∀ p q, inTimes p (plan q) = outTimes q (plan p)) (hord : ∀ r, Ordered (plan r))
    (hwp : ∀ r, wp (fun _ _ _ _ => True) r (prog r) (plan r) (fun _ => True) (m r)) :
    Ready (rstart prog m) plan fun _ _ => [] where
  keeps := keeps_start hmeet hord hwp
  inside _ h := absurd h (by simp [rstart])
  posted _ _ := by simp [rstart, start, pending_false]

end Vccl.Net
