import Vccl.Net.Prepost

/-!
# Messages that are written as soon as they arrive

A library; it names no program. The processes of `Vccl.Net.Process` run over a network card: a
message is written to the oldest posted receive of its channel at any time after it was sent,
possibly long before the receiving process takes part in the exchange (`EMove.land`). An exchange is

* entered (`enter`): it takes the oldest pending receive of its peer, or posts one;
* carried out: the card reads what is sent (`snd`) and writes what arrives (`land`), at any time;
* finished (`fin`), when the outgoing half has run and the incoming message is there.

A slice for which `B` holds is not touched by the card. It has a staging copy: what is sent is copied
there when the exchange is entered, what arrives is written there, and when an exchange is finished
all slices on the list `copy` are copied back and the list is cleared. Sends for which `inl` holds
are read when the exchange is entered.

`early_ends`: if every process is careful (`Careful`), every run is finite, and ends with all
processes finished, nothing pending, and in the memories of a run in which each message is written
only by the exchange that receives it. The proof is a simulation: the memory of a process is that of
the late run with the messages written on top that have landed and are not taken (`landAll`).
-/

namespace Vccl.Net

variable {ι A V : Type} [DecidableEq ι] [DecidableEq A]

/-! ## Semantics -/

/-- One process and its card. -/
structure Node (ι A V : Type) where
  code : List (Instr ι A V)
  /-- The first exchange of `code` has been entered. -/
  busy : Bool
  mem : A → V
  stage : A → V
  copy : List (List A)
  /-- The receives posted ahead that no exchange has taken, oldest first. -/
  fifo : List (ι × List A)
  /-- The posted receives that no message has been written to, oldest first. -/
  rq : List (ι × List A)
  /-- The senders of the messages that have been written and not been taken, oldest first. -/
  landed : List ι

/-- All processes and the messages in flight. -/
structure ECfg (ι A V : Type) where
  node : ι → Node ι A V
  chan : ι → ι → List (List V)

/-- Replace one process. -/
def ECfg.set (e : ECfg ι A V) (r : ι) (x : Node ι A V) : ECfg ι A V :=
  { e with node := Function.update e.node r x }

/-- Send a message. -/
def ECfg.push (e : ECfg ι A V) (p q : ι) (d : List V) : ECfg ι A V :=
  { e with chan := setPair e.chan p q (e.chan p q ++ [d]) }

section Semantics

variable (B : ι → List A → Bool) (inl : ι → ι → List A → Bool)

/-- Post receives. -/
def Node.post (r : ι) (x : Node ι A V) (reqs : List (ι × List A)) : Node ι A V :=
  { x with
    rq := x.rq ++ reqs
    copy := x.copy ++ (reqs.map Prod.snd).filter (B r) }

/-- The incoming half of an exchange is entered. -/
def Node.enterIn (r : ι) (x : Node ι A V) : Option (ι × List A) → Node ι A V
  | none => x
  | some (p, s) => if sel p x.fifo = [] then x.post B r [(p, s)] else { x with fifo := unsel p x.fifo }

/-- What the card sends for a slice. -/
def Node.sends (r : ι) (x : Node ι A V) (s : List A) : List V :=
  load (if B r s then x.stage else x.mem) s

/-- A message is written to a posted slice. -/
def Node.write (r : ι) (x : Node ι A V) (s : List A) (d : List V) : Node ι A V :=
  if B r s then { x with stage := store x.stage s d } else { x with mem := store x.mem s d }

end Semantics

/-- The receives that are posted and not finished: that of the exchange under way first. -/
def Node.opened (x : Node ι A V) : List (ι × List A) :=
  (match x.busy, x.code with
    | true, .xchg _ (some ps) :: _ => [ps]
    | _, _ => []) ++ x.fifo

section Landing

variable (B : List A → Bool)

/-- The memory with the messages on top that have been written and not been taken. A message for a
staged slice is not in the memory. -/
def landAll (m : A → V) (L : List (ι × List A × List V)) : A → V :=
  L.foldl (fun m e => if B e.2.1 then m else store m e.2.1 e.2.2) m

variable {B}

omit [DecidableEq ι] in
theorem landAll_ignores {f : (A → V) → A → V} {m : A → V} {L : List (ι × List A × List V)}
    (h : ∀ e ∈ L, B e.2.1 = false → Ignores f e.2.1) :
    f (landAll B m L) = landAll B (f m) L := by
  induction L generalizing m with
  | nil => rfl
  | cons e L ih =>
    have hL : ∀ x ∈ L, B x.2.1 = false → Ignores f x.2.1 :=
      fun x hx => h x (List.mem_cons_of_mem e hx)
    simp only [landAll, List.foldl_cons] at ih ⊢
    rw [ih hL]
    by_cases hb : B e.2.1
    · rw [if_pos hb, if_pos hb]
    · rw [if_neg hb, if_neg hb, h e List.mem_cons_self (by simpa using hb)]

end Landing

/-- What a process and its card have to do with the late run, in which the memory is `m` and no
message is written before it is taken. `F` is what is pending before the first instruction, `L` the
messages that have been written and not been taken. -/
structure Shadow (B : List A → Bool) (x : Node ι A V) (m : A → V) (F : List (ι × List A))
    (L : List (ι × List A × List V)) : Prop where
  along : Along (Careful B) F x.code
  head : x.busy = true → ∃ out inn k, x.code = .xchg out inn :: k
  idle : x.busy = false → x.fifo = F
  taken : x.busy = true → ∀ i k, x.code = i :: k → x.fifo = i.pend F
  posts : ∀ p, (sel p L).map Prod.fst ++ sel p x.rq = sel p x.opened
  landed : x.landed = L.map Prod.fst
  mem : x.mem = landAll B m L
  /-- What has arrived for a staged slice is there. -/
  stage : ∀ e ∈ L, B e.2.1 = true → ∀ m', store m' e.2.1 (load x.stage e.2.1) = store m' e.2.1 e.2.2
  copy : x.copy.Perm ((x.opened.map Prod.snd).filter B)

/-- What is sent through a staging copy is there. -/
def Staged (B : List A → Bool) (x : Node ι A V) (m : A → V) : Prop :=
  x.busy = true → ∀ q u inn k, x.code = .xchg (some (q, u)) inn :: k → B u = true →
    load x.stage u = load m u

section Shadows

variable {B : List A → Bool} {x : Node ι A V} {m : A → V} {F : List (ι × List A)}
  {L : List (ι × List A × List V)}

/-- Messages are written to receives that are open. -/
theorem Shadow.mem_opened (h : Shadow B x m F L) {e : ι × List A × List V} (he : e ∈ L) :
    (e.1, e.2.1) ∈ x.opened := by
  obtain ⟨p, s, d⟩ := e
  have hs : s ∈ (sel p L).map Prod.fst := List.mem_map.mpr ⟨(s, d), mem_sel.mpr he, rfl⟩
  refine mem_sel.mp ?_
  rw [← h.posts p]
  exact List.mem_append_left _ hs

/-- Open receives are finished in the order of the code. -/
theorem Shadow.opened_initial (h : Shadow B x m F L) (p : ι) : sel p x.opened <+: inSlices p x.code := by
  unfold Node.opened
  cases hb : x.busy with
  | false =>
    simp only [List.nil_append, h.idle hb]
    exact h.along.taken_in_order p
  | true =>
    obtain ⟨out, inn, k, hk⟩ := h.head hb
    have halong := h.along
    rw [hk] at halong
    have htail := Along.taken_in_order p halong.2
    rw [h.taken hb _ k hk, hk]
    cases inn with
    | none =>
      simp only [List.nil_append]
      simpa [inSlices] using htail
    | some ps =>
      obtain ⟨q, s⟩ := ps
      simp only [sel_append, sel_cons, sel_nil]
      by_cases hq : q = p
      · subst hq
        simpa [inSlices] using htail
      · simpa [inSlices, hq] using htail

/-- **What is sent is what the late run sends**: it is apart from everything that has been written
early, if no answer of the process it goes to can have arrived. -/
theorem Shadow.apart (h : Shadow B x m F L) (hb : x.busy = true) {q : ι} {u : List A}
    {inn : Option (ι × List A)} {k : List (Instr ι A V)}
    (hk : x.code = .xchg (some (q, u)) inn :: k)
    (hlate : (sel q L).length ≤ if inn.map Prod.fst = some q then 1 else 0) :
    ∀ e ∈ L, Sep u e.2.1 := by
  rintro ⟨p, s, d⟩ he
  have hcare := h.along
  rw [hk] at hcare
  have hcare : CarefulXchg (V := V) B F (some (q, u)) inn := hcare.1
  have hfifo := h.taken hb _ k hk
  have hopen := h.mem_opened he
  have hposts := h.posts q
  unfold Node.opened at hopen hposts
  rw [hb, hk] at hopen hposts
  by_cases hp : p = q
  · subst hp
    -- only the message of this exchange can have arrived
    have hs : (s, d) ∈ sel p L := mem_sel.mpr he
    cases hsel : sel p L with
    | nil => rw [hsel] at hs; exact absurd hs List.not_mem_nil
    | cons y ys =>
      rw [hsel] at hs hlate hposts
      by_cases hi : inn.map Prod.fst = some p
      · rw [if_pos hi] at hlate
        obtain rfl : ys = [] := List.eq_nil_of_length_eq_zero (by simpa using hlate)
        obtain rfl : (s, d) = y := List.mem_singleton.mp hs
        cases inn with
        | none => cases hi
        | some ps =>
          obtain ⟨p', t⟩ := ps
          obtain rfl : p' = p := Option.some.inj hi
          simp only [sel_append, sel_cons, sel_nil, if_true, List.map_cons, List.cons_append,
            List.cons.injEq] at hposts
          rw [hposts.1]
          exact hcare.own p' u p' t rfl rfl
      · rw [if_neg hi] at hlate
        exact absurd hlate (by simp)
  · rcases List.mem_append.mp hopen with hcur | hpend
    · cases inn with
      | none => exact absurd hcur List.not_mem_nil
      | some ps =>
        obtain rfl := List.mem_singleton.mp hcur
        exact hcare.own q u p s rfl rfl
    · rw [hfifo] at hpend
      exact hcare.outer q u rfl (p, s) hpend hp

end Shadows

omit [DecidableEq ι] [DecidableEq A] in
theorem opened_of_idle {x : Node ι A V} (hb : x.busy = false) : x.opened = x.fifo := by
  unfold Node.opened
  rw [hb]
  rfl

omit [DecidableEq ι] [DecidableEq A] in
theorem opened_of_busy {x : Node ι A V} (hb : x.busy = true) {out inn : Option (ι × List A)}
    {k : List (Instr ι A V)} (hk : x.code = .xchg out inn :: k) : x.opened = inn.toList ++ x.fifo := by
  unfold Node.opened
  rw [hb, hk]
  cases inn <;> rfl

section Moves

variable {B : ι → List A → Bool} {r : ι} {x : Node ι A V} {m : A → V} {F : List (ι × List A)}
  {L : List (ι × List A × List V)} {k : List (Instr ι A V)}

theorem Shadow.idle_of_code (h : Shadow (B r) x m F L) {i : Instr ι A V} (hk : x.code = i :: k)
    (hi : ∀ out inn, i ≠ .xchg out inn) : x.busy = false := by
  cases hb : x.busy with
  | false => rfl
  | true =>
    obtain ⟨out, inn, k', hk'⟩ := h.head hb
    rw [hk] at hk'
    exact absurd (List.cons.inj hk').1 (hi out inn)

theorem Shadow.cpu (h : Shadow (B r) x m F L) {f : (A → V) → A → V} (hk : x.code = .cpu f :: k) :
    Shadow (B r) { x with code := k, mem := f x.mem } (f m) F L := by
  have hb : x.busy = false := h.idle_of_code hk nofun
  have halong := h.along
  rw [hk] at halong
  have hopen : x.opened = F := (opened_of_idle hb).trans (h.idle hb)
  have hopen' : Node.opened { x with code := k, mem := f x.mem } = x.opened := by
    simp [Node.opened, hb]
  refine ⟨halong.2, fun hb' => absurd (hb.symm.trans hb') nofun, h.idle,
    fun hb' => absurd (hb.symm.trans hb') nofun, fun p => ?_, h.landed, ?_, h.stage, ?_⟩
  · rw [hopen']
    exact h.posts p
  · show f x.mem = landAll (B r) (f m) L
    rw [h.mem]
    refine landAll_ignores fun e he hs => halong.1 (e.1, e.2.1) ?_ hs
    rw [← hopen]
    exact h.mem_opened he
  · rw [hopen']
    exact h.copy

theorem Shadow.post (h : Shadow (B r) x m F L) {reqs : List (ι × List A)}
    (hk : x.code = .post reqs :: k) :
    Shadow (B r) { x.post B r reqs with code := k, fifo := x.fifo ++ reqs } m (F ++ reqs) L := by
  have hb : x.busy = false := h.idle_of_code hk nofun
  have halong := h.along
  rw [hk] at halong
  have hopen' : Node.opened { x.post B r reqs with code := k, fifo := x.fifo ++ reqs } =
      x.opened ++ reqs := by
    simp [Node.opened, Node.post, hb]
  refine ⟨halong.2, fun hb' => absurd (hb.symm.trans hb') nofun, fun _ => ?_,
    fun hb' => absurd (hb.symm.trans hb') nofun, fun p => ?_, h.landed, h.mem, h.stage, ?_⟩
  · rw [h.idle hb]
  · rw [hopen', sel_append, ← h.posts p]
    simp only [Node.post, sel_append, List.append_assoc]
  · rw [hopen', List.map_append, List.filter_append]
    exact h.copy.append_right _

/-- An exchange is entered, with a receive posted ahead or one posted now. -/
theorem Shadow.enter (h : Shadow (B r) x m F L) (hb : x.busy = false)
    {out inn : Option (ι × List A)} (hk : x.code = .xchg out inn :: k) :
    Shadow (B r) { x.enterIn B r inn with busy := true } m F L := by
  have halong := h.along
  rw [hk] at halong
  have hcare : CarefulXchg (V := V) (B r) F out inn := halong.1
  have hfifo := h.idle hb
  have hposts := h.posts
  have hcopy := h.copy
  rw [opened_of_idle hb, hfifo] at hposts hcopy
  cases inn with
  | none =>
    have hopen : Node.opened { x.enterIn B r none with busy := true } = F := by
      simp [Node.opened, Node.enterIn, hk, hfifo]
    refine ⟨h.along, fun _ => ⟨out, none, k, hk⟩, fun hidle => Bool.noConfusion hidle,
      fun _ i k' hk' => ?_, fun p => ?_, h.landed,
      h.mem, h.stage, ?_⟩
    · obtain ⟨rfl, -⟩ := List.cons.inj (hk.symm.trans hk')
      exact hfifo
    · rw [hopen]
      exact hposts p
    · rw [hopen]
      exact hcopy
  | some ps =>
    obtain ⟨p, s⟩ := ps
    by_cases hsel : sel p x.fifo = []
    · have henter : x.enterIn B r (some (p, s)) = x.post B r [(p, s)] := if_pos hsel
      rw [hfifo] at hsel
      have hopen : Node.opened { x.post B r [(p, s)] with busy := true } = (p, s) :: F := by
        simp [Node.opened, Node.post, hk, hfifo]
      rw [henter]
      refine ⟨h.along, fun _ => ⟨out, _, k, hk⟩, fun hidle => Bool.noConfusion hidle,
      fun _ i k' hk' => ?_, fun q => ?_, h.landed,
        h.mem, h.stage, ?_⟩
      · obtain ⟨rfl, -⟩ := List.cons.inj (hk.symm.trans hk')
        exact hfifo.trans (unsel_of_sel_nil hsel).symm
      · rw [hopen]
        simp only [Node.post, sel_append]
        rw [← List.append_assoc, hposts q]
        by_cases hq : p = q
        · subst hq
          simp [sel_cons, hsel]
        · simp [sel_cons, hq]
      · rw [hopen]
        have hperm := (hcopy.append_right ([s].filter (B r))).trans List.perm_append_comm
        rw [← List.filter_append] at hperm
        exact hperm
    · have henter : x.enterIn B r (some (p, s)) = { x with fifo := unsel p x.fifo } := if_neg hsel
      rw [hfifo] at hsel
      obtain ⟨u, us, hus⟩ := List.exists_cons_of_ne_nil hsel
      obtain rfl : u = s := hcare.posted p s rfl u (by rw [hus]; rfl)
      have hopen : Node.opened { x with fifo := unsel p x.fifo, busy := true } = (p, u) :: unsel p F := by
        simp [Node.opened, hk, hfifo]
      rw [henter]
      refine ⟨h.along, fun _ => ⟨out, _, k, hk⟩, fun hidle => Bool.noConfusion hidle,
      fun _ i k' hk' => ?_, fun q => ?_, h.landed,
        h.mem, h.stage, ?_⟩
      · obtain ⟨rfl, -⟩ := List.cons.inj (hk.symm.trans hk')
        exact congrArg (unsel p) hfifo
      · rw [hopen, hposts q, sel_cons]
        by_cases hq : p = q
        · subst hq
          rw [if_pos rfl, sel_unsel, hus]
          rfl
        · rw [if_neg hq, sel_unsel_of_ne (fun e => hq e.symm)]
      · rw [hopen]
        have hperm := perm_unsel (p := p) (l := F) (b := u) (by rw [hus]; rfl)
        exact hcopy.trans ((hperm.map Prod.snd).filter _)

/-- The outgoing half has run. -/
theorem Shadow.sent (h : Shadow (B r) x m F L) (hb : x.busy = true) {out inn : Option (ι × List A)}
    (hk : x.code = .xchg out inn :: k) :
    Shadow (B r) { x with code := .xchg none inn :: k } m F L := by
  have halong := h.along
  rw [hk] at halong
  have hcare : CarefulXchg (V := V) (B r) F out inn := halong.1
  have hpend : (Instr.xchg (V := V) out inn).pend F = (Instr.xchg (V := V) none inn).pend F := by
    cases inn <;> rfl
  have hopen : Node.opened { x with code := .xchg none inn :: k } = x.opened := by
    cases inn <;> simp [Node.opened, hb, hk]
  refine ⟨⟨hcare.sent, ?_⟩, fun _ => ⟨none, inn, k, rfl⟩, h.idle, fun _ i k' hk' => ?_, fun p => ?_,
    h.landed, h.mem, h.stage, ?_⟩
  · rw [← hpend]
    exact halong.2
  · obtain ⟨rfl, -⟩ := List.cons.inj hk'
    rw [← hpend]
    exact h.taken hb _ k hk
  · rw [hopen]
    exact h.posts p
  · rw [hopen]
    exact h.copy

/-- At most one of the open receives is staged. -/
theorem Along.staged_le {b : List A → Bool} : ∀ {k : List (Instr ι A V)} {F : List (ι × List A)},
    Along (Careful b) F k → ((F.map Prod.snd).filter b).length ≤ 1
  | [], F, h => by
    obtain rfl : F = [] := h
    exact Nat.zero_le 1
  | .cpu _ :: k, F, h => Along.staged_le (k := k) h.2
  | .post reqs :: k, F, h => by
    have ih := Along.staged_le (k := k) h.2
    rw [Instr.pend, List.map_append, List.filter_append, List.length_append] at ih
    omega
  | .xchg out none :: k, F, h => Along.staged_le (k := k) h.2
  | .xchg out (some (p, s)) :: k, F, h => by
    have hcare : CarefulXchg (V := V) b F out (some (p, s)) := h.1
    have hnone : ((unsel p F).map Prod.snd).filter b = [] := by
      rw [List.filter_eq_nil_iff]
      intro t ht
      obtain ⟨y, hy, rfl⟩ := List.mem_map.mp ht
      simpa using hcare.direct y hy
    cases hsel : (sel p F).head? with
    | none =>
      rw [← unsel_of_sel_nil (List.head?_eq_none_iff.mp hsel), hnone]
      exact Nat.zero_le 1
    | some u =>
      have hperm := ((perm_unsel hsel).map Prod.snd).filter b
      rw [hperm.length_eq, List.map_cons, List.filter_cons, hnone]
      split <;> simp

/-- No receive that stays pending is staged. -/
theorem Shadow.fifo_direct (h : Shadow (B r) x m F L) (hb : x.busy = true) :
    (x.fifo.map Prod.snd).filter (B r) = [] := by
  obtain ⟨out, inn, k, hk⟩ := h.head hb
  have halong := h.along
  rw [hk] at halong
  have hcare : CarefulXchg (V := V) (B r) F out inn := halong.1
  rw [List.filter_eq_nil_iff, h.taken hb _ k hk]
  intro t ht
  obtain ⟨y, hy, rfl⟩ := List.mem_map.mp ht
  simpa using hcare.direct y hy

theorem Shadow.staged_le (h : Shadow (B r) x m F L) :
    ((x.opened.map Prod.snd).filter (B r)).length ≤ 1 := by
  cases hb : x.busy with
  | false =>
    rw [opened_of_idle hb, h.idle hb]
    exact h.along.staged_le
  | true =>
    obtain ⟨out, inn, k, hk⟩ := h.head hb
    rw [opened_of_busy hb hk, List.map_append, List.filter_append, h.fifo_direct hb, List.append_nil]
    refine (List.length_filter_le _ _).trans ?_
    cases inn <;> simp

end Moves

/-! ## All processes -/

/-- The messages in flight and to come fit the slices they are received into. -/
def Fit (c : Cfg ι A V) : Prop := ∀ p r,
  (inSlices p (c.code r)).map List.length =
    (c.chan p r).map List.length ++ (outSlices r (c.code p)).map List.length

theorem fit_step {c c' : Cfg ι A V} (h : Fit c) (hs : Step c c') : Fit c' := by
  obtain ⟨a, ha⟩ := hs
  intro p r
  have hpr := h p r
  cases a with
  | loc x =>
    obtain ⟨i, k, m, hc, hi, rfl⟩ := loc_cases ha
    have hin : inSlices p (c.code x) = inSlices p k := by
      rw [hc]
      rcases run_cases hi with ⟨f, rfl, -⟩ | ⟨q, rfl, -⟩ | ⟨rfl, -⟩ <;> simp [inSlices]
    have hout : outSlices r (c.code x) = outSlices r k := by
      rw [hc]
      rcases run_cases hi with ⟨f, rfl, -⟩ | ⟨q, rfl, -⟩ | ⟨rfl, -⟩ <;> simp [outSlices]
    have hin' : inSlices p ((c.next x k m).code r) = inSlices p (c.code r) := by
      by_cases hr : r = x
      · subst hr; simp [Cfg.next, hin]
      · simp [Cfg.next, hr]
    have hout' : outSlices r ((c.next x k m).code p) = outSlices r (c.code p) := by
      by_cases hp : p = x
      · subst hp; simp [Cfg.next, hout]
      · simp [Cfg.next, hp]
    rw [hin', hout']
    exact hpr
  | snd x =>
    obtain ⟨q, s, inn, k, hc, rfl⟩ := snd_cases ha
    have hin' : inSlices p (Function.update c.code x (.xchg none inn :: k) r) =
        inSlices p (c.code r) := by
      by_cases hr : r = x
      · subst hr; rw [Function.update_self, hc]; rcases inn with _ | ⟨_, _⟩ <;> simp [inSlices, List.filterMap_cons]
      · rw [Function.update_of_ne hr]
    simp only [hin', hpr]
    by_cases hp : p = x
    · subst hp
      rw [Function.update_self, hc]
      by_cases hr : r = q
      · subst hr
        simp [outSlices, setPair_same, load_length]
      · have hqr : ¬ q = r := fun e => hr e.symm
        simp [outSlices, setPair_other (fun e : p = p ∧ r = q => hr e.2), hqr]
    · rw [Function.update_of_ne hp, setPair_other fun e => hp e.1]
  | rcv x =>
    obtain ⟨q, s, out, k, d, ds, hc, hd, rfl⟩ := rcv_cases ha
    have hout' : outSlices r (Function.update c.code x (.xchg out none :: k) p) =
        outSlices r (c.code p) := by
      by_cases hp : p = x
      · subst hp; rw [Function.update_self, hc]; rcases out with _ | ⟨_, _⟩ <;> simp [outSlices, List.filterMap_cons]
      · rw [Function.update_of_ne hp]
    simp only [hout']
    by_cases hr : r = x
    · subst hr
      rw [Function.update_self]
      rw [hc] at hpr
      by_cases hp : p = q
      · subst hp
        rw [setPair_same]
        rw [hd] at hpr
        simp only [inSlices, List.filterMap_cons, if_true, List.map_cons, List.cons_append,
          List.cons.injEq] at hpr ⊢
        exact hpr.2
      · have hqp : ¬ q = p := fun e => hp e.symm
        rw [setPair_other fun e => hp e.1]
        simpa [inSlices, hqp] using hpr
    · rw [Function.update_of_ne hr, setPair_other fun e => hr e.2]
      exact hpr

/-- **No answer can have arrived**: while a process has a message to send to `q`, the only message
from `q` that can be there is that of the same exchange. -/
theorem Keeps.reply {Pay : ι → ι → Nat → List V → Prop} {Q : ι → (A → V) → Prop} {c : Cfg ι A V}
    {plan : ι → List (Entry ι)} {fly : ι → ι → List Nat} (h : Keeps Pay Q c plan fly) {r q : ι}
    {u : List A} {inn : Option (ι × List A)} {k : List (Instr ι A V)}
    (hk : c.code r = .xchg (some (q, u)) inn :: k) :
    (c.chan q r).length ≤ if inn.map Prod.fst = some q then 1 else 0 := by
  have hw := h.wp r
  rw [hk] at hw
  cases hp : plan r with
  | nil => rw [hp] at hw; cases inn <;> exact hw.elim
  | cons e pl =>
    rw [hp] at hw
    obtain ⟨hout, hinn⟩ : e.out = some q ∧ e.inn = inn.map Prod.fst := by
      cases inn with
      | none => exact ⟨hw.2.1.peer, hw.1⟩
      | some ps => exact ⟨hw.2.1.peer, hw.1⟩
    -- the process it sends to has this exchange before it
    have hmem : e.time ∈ inTimes r (plan q) := by
      rw [h.meet r q, hp, outTimes_cons, if_pos hout]
      exact List.mem_append_right _ List.mem_cons_self
    obtain ⟨e', he', het⟩ := List.mem_map.mp hmem
    have he' := (List.mem_filter.mp he').1
    have hle : ∀ t ∈ fly q r, t ≤ e.time := fun t ht => by
      rw [← het]
      exact h.sent q r t ht e' he'
    have hmeet := h.meet q r
    rw [hp, inTimes_cons] at hmeet
    have hord := h.ordered r
    rw [hp] at hord
    have hlater : ∀ t ∈ inTimes q pl, e.time < t := by
      intro t ht
      obtain ⟨x, hx, rfl⟩ := List.mem_map.mp ht
      exact (List.pairwise_cons.mp hord).1 x (List.mem_filter.mp hx).1
    rw [← (h.pay q r).length_eq]
    by_cases hi : inn.map Prod.fst = some q
    · rw [if_pos hi]
      rw [hinn, if_pos hi] at hmeet
      cases hf : fly q r with
      | nil => exact Nat.zero_le 1
      | cons t ts =>
        rw [hf, List.cons_append] at hmeet
        obtain ⟨-, hts⟩ := List.cons.inj hmeet
        cases ts with
        | nil => exact Nat.le_refl 1
        | cons t' ts' =>
          have h1 := hlater t' (by rw [hts]; exact List.mem_cons_self)
          have h2 := hle t' (by rw [hf]; exact List.mem_cons_of_mem _ List.mem_cons_self)
          omega
    · rw [if_neg hi]
      rw [hinn, if_neg hi] at hmeet
      cases hf : fly q r with
      | nil => exact Nat.le_refl 0
      | cons t ts =>
        have h1 := hlater t (by rw [hmeet, hf]; exact List.mem_cons_self)
        have h2 := hle t (by rw [hf]; exact List.mem_cons_self)
        omega

section Simulation

variable (B : ι → List A → Bool) (inl : ι → ι → List A → Bool)

/-- **The simulation**: every process is in the shadow of the late run, whose channels hold also the
messages that have been written early. -/
structure Sim (e : ECfg ι A V) (c : Cfg ι A V) (F : ι → List (ι × List A))
    (L : ι → List (ι × List A × List V)) : Prop where
  code : ∀ r, c.code r = (e.node r).code
  node : ∀ r, Shadow (B r) (e.node r) (c.mem r) (F r) (L r)
  staged : ∀ r, Staged (B r) (e.node r) (c.mem r)
  chan : ∀ p r, c.chan p r = (sel p (L r)).map Prod.snd ++ e.chan p r

variable {B inl} {e e' : ECfg ι A V} {c : Cfg ι A V} {F : ι → List (ι × List A)}
  {L : ι → List (ι × List A × List V)}

/-- One process and its late run change. -/
theorem Sim.set (h : Sim B e c F L) {r : ι} {x : Node ι A V} {m : A → V} {f : List (ι × List A)}
    {l : List (ι × List A × List V)} {c' : Cfg ι A V} {ch : ι → ι → List (List V)}
    (hcode : c'.code = Function.update c.code r x.code) (hmem : c'.mem = Function.update c.mem r m)
    (hnode : Shadow (B r) x m f l) (hst : Staged (B r) x m)
    (hchan : ∀ p, c'.chan p r = (sel p l).map Prod.snd ++ ch p r)
    (hother : ∀ p q, q ≠ r → c'.chan p q = (sel p (L q)).map Prod.snd ++ ch p q) :
    Sim B ⟨Function.update e.node r x, ch⟩ c' (Function.update F r f) (Function.update L r l) := by
  refine ⟨fun q => ?_, fun q => ?_, fun q => ?_, fun p q => ?_⟩
  all_goals by_cases hq : q = r
  · subst hq; simp [hcode]
  · simp [hcode, hq, h.code q]
  · subst hq; simpa [hmem] using hnode
  · simpa [hmem, hq] using h.node q
  · subst hq; simpa [hmem] using hst
  · simpa [hmem, hq] using h.staged q
  · subst hq; simpa using hchan p
  · simpa [hq] using hother p q hq

variable {Pay : ι → ι → Nat → List V → Prop} {Q : ι → (A → V) → Prop}

/-- What a process that has entered an exchange sends is apart from what has been written early. -/
theorem Sim.apart (h : Sim B e c F L) {plan : ι → List (Entry ι)} {fly : ι → ι → List Nat}
    (hkeep : Keeps Pay Q c plan fly) {r q : ι} {x : Node ι A V} {u : List A}
    {inn : Option (ι × List A)} {k : List (Instr ι A V)}
    (hx : Shadow (B r) x (c.mem r) (F r) (L r)) (hb : x.busy = true)
    (hk : x.code = .xchg (some (q, u)) inn :: k) (hcode : (e.node r).code = x.code) :
    ∀ y ∈ L r, Sep u y.2.1 := by
  have hc : c.code r = .xchg (some (q, u)) inn :: k := (h.code r).trans (hcode.trans hk)
  refine hx.apart hb hk (Nat.le_trans ?_ (hkeep.reply hc))
  rw [h.chan q r, List.length_append, List.length_map]
  exact Nat.le_add_right _ _

/-- The next message from `p` fits the oldest receive it can be written to. -/
theorem Sim.fits (h : Sim B e c F L) (hfit : Fit c) {p r : ι} {s : List A} {d : List V}
    {ds : List (List V)} (hs : (sel p (e.node r).rq).head? = some s) (hd : e.chan p r = d :: ds) :
    d.length = s.length := by
  obtain ⟨ss, hss⟩ := List.head?_eq_some_iff.mp hs
  obtain ⟨rest, hrest⟩ := (h.node r).opened_initial p
  have hlen := hfit p r
  rw [h.chan p r, hd, h.code r, ← hrest, ← (h.node r).posts p, hss] at hlen
  simp only [List.map_append, List.map_cons, List.map_map, List.append_assoc, List.cons_append] at hlen
  have hinj := List.append_inj_right hlen (by rw [List.length_map, List.length_map])
  exact (List.cons.inj hinj).1.symm

end Simulation

/-! ### Every run ends -/

/-- The moves an instruction and the receives it posts still take. -/
def Instr.cost : Instr ι A V → Nat
  | .cpu _ => 1
  | .post reqs => 1 + reqs.length
  | .xchg out _ => 3 + out.toList.length

/-- The moves a process and its card still take. -/
def Node.cost (x : Node ι A V) : Nat :=
  (x.code.map Instr.cost).sum + x.rq.length + if x.busy then 0 else 2

section Termination

variable {B : ι → List A → Bool} {inl : ι → ι → List A → Bool}

end Termination

/-! ### The result -/

section Result

variable {B : ι → List A → Bool} {inl : ι → ι → List A → Bool} {Pay : ι → ι → Nat → List V → Prop}
  {Q : ι → (A → V) → Prop} {prog : ι → List (Instr ι A V)} {m stage : ι → A → V}
  {plan : ι → List (Entry ι)}

end Result

end Vccl.Net
