import Vccl.Net.Early
import Vccl.Net.Rendezvous
import Mathlib.Data.List.GetD

/-!
# Messages that move in pieces

A library; it names no program. The processes of `Vccl.Net.Process` run over byte streams: between two
processes there is a pipe of a bounded size, a message goes over it in pieces of any length, and nothing
on the pipe says where a message ends. What is left of an exchange stands in the code of its process
(`left`): a half that has moved completely is erased from it. The halves of one exchange move in any
order, turn by turn.

* `Begun`: a process that has moved a part of its first exchange, beside the process of the run by
  whole messages, which has moved none of it yet. What was received stands in its memory already.
* `Pieced`: all processes, and every pipe: what is received of the message under way, and the pipe,
  are the messages in flight, and what is sent of the message under way.
* `pieced_put`, `pieced_take`: with the last byte of a half, the run by messages makes the move. The
  last byte sent moves the message onto its channel. The last byte received is the last one of the
  oldest message of the channel, because messages fit the slices they are received into (`Fit`).
* `pieces_progress`: no state is stuck, however small the pipes. Of two ends of a pipe at their
  exchange one can move a byte: the pipe is full or not.
* `pieces_ends`: every run is finite, and leaves the memories of a run by messages.
-/

namespace Vccl.Net

variable {ι A V : Type} [DecidableEq ι] [DecidableEq A]

/-! ## The machine -/

/-- What each process has left to run, its memory, and the pipes. -/
structure PCfg (ι A V : Type) where
  code : ι → List (Instr ι A V)
  mem : ι → A → V
  pipe : ι → ι → List V

/-- What is left of a half after `j` more places of its slice. -/
def left (q : ι) (s : List A) (j : Nat) : Option (ι × List A) :=
  if j = s.length then none else some (q, s.drop j)

/-- One step of one process: a local step, a piece put on a pipe that has room for it, or a piece
taken off a pipe. -/
inductive PStep (cap : ι → ι → Nat) : PCfg ι A V → PCfg ι A V → Prop
  | loc {e : PCfg ι A V} {r : ι} {i : Instr ι A V} {k : List (Instr ι A V)} {m : A → V}
      (hc : e.code r = i :: k) (hm : i.run (e.mem r) = some m) :
      PStep cap e ⟨Function.update e.code r k, Function.update e.mem r m, e.pipe⟩
  | put {e : PCfg ι A V} {r q : ι} {s : List A} {inn : Option (ι × List A)}
      {k : List (Instr ι A V)} {j : Nat} (hc : e.code r = .xchg (some (q, s)) inn :: k) (hj : 0 < j)
      (hle : j ≤ s.length) (hroom : (e.pipe r q).length + j ≤ cap r q) :
      PStep cap e ⟨Function.update e.code r (.xchg (left q s j) inn :: k), e.mem,
        setPair e.pipe r q (e.pipe r q ++ load (e.mem r) (s.take j))⟩
  | take {e : PCfg ι A V} {r p : ι} {s : List A} {out : Option (ι × List A)}
      {k : List (Instr ι A V)} {bs rest : List V} (hc : e.code r = .xchg out (some (p, s)) :: k)
      (hj : 0 < bs.length) (hle : bs.length ≤ s.length) (hbs : e.pipe p r = bs ++ rest) :
      PStep cap e ⟨Function.update e.code r (.xchg out (left p s bs.length) :: k),
        Function.update e.mem r (store (e.mem r) (s.take bs.length) bs), setPair e.pipe p r rest⟩

/-- All processes at the start of `prog`, the pipes empty. -/
def pstart (prog : ι → List (Instr ι A V)) (m : ι → A → V) : PCfg ι A V := ⟨prog, m, fun _ _ => []⟩

/-! ## A process in its exchange -/

/-- The first exchange without what has moved of it. -/
def shave (i j : Nat) : List (Instr ι A V) → List (Instr ι A V)
  | .xchg out inn :: k =>
    .xchg (out.map fun h => (h.1, h.2.drop i)) (inn.map fun h => (h.1, h.2.drop j)) :: k
  | k => k

/-- The memory with what has been received of the first exchange. -/
def landed (got : List V) : List (Instr ι A V) → (A → V) → A → V
  | .xchg _ (some (_, s)) :: _, m => store m (s.take got.length) got
  | _, m => m

/-- What has been sent to `q` of the first exchange. -/
def sentPart (q : ι) (m : A → V) (i : Nat) : List (Instr ι A V) → List V
  | .xchg (some (p, s)) _ :: _ => if p = q then load m (s.take i) else []
  | _ => []

/-- What has been received from `p` of the first exchange. -/
def gotPart (p : ι) (got : List V) : List (Instr ι A V) → List V
  | .xchg _ (some (q, _)) :: _ => if q = p then got else []
  | _ => []

/-- A process with code `k'` and memory `m'` that has sent `i` places and received `got` of its first
exchange; with `k` and `m` it has not begun it. -/
structure Begun (k : List (Instr ι A V)) (m : A → V) (i : Nat) (got : List V)
    (k' : List (Instr ι A V)) (m' : A → V) : Prop where
  code : k' = shave i got.length k
  mem : m' = landed got k m
  out : i = 0 ∨ ∃ q s inn l, k = .xchg (some (q, s)) inn :: l ∧ i < s.length
  inn : got = [] ∨ ∃ p s out l, k = .xchg out (some (p, s)) :: l ∧ got.length < s.length

/-- The slices of an exchange have places, and different ones. -/
def Solid (k : List (Instr ι A V)) : Prop :=
  ∀ out inn, .xchg out inn ∈ k → (∀ q s, out = some (q, s) → s ≠ []) ∧
    ∀ p s, inn = some (p, s) → s ≠ [] ∧ s.Nodup

omit [DecidableEq ι] [DecidableEq A] in
theorem shave_zero (k : List (Instr ι A V)) : shave 0 0 k = k := by
  rcases k with _ | ⟨_ | _ | ⟨out, inn⟩, k⟩
  · rfl
  · rfl
  · rfl
  · simp [shave]

theorem store_empty (m : A → V) : store m [] [] = m := by
  funext a
  exact store_of_not_mem List.not_mem_nil

omit [DecidableEq ι] in
theorem landed_nil (k : List (Instr ι A V)) (m : A → V) : landed [] k m = m := by
  rcases k with _ | ⟨_ | _ | ⟨out, _ | ⟨p, s⟩⟩, k⟩
  · rfl
  · rfl
  · rfl
  · rfl
  · exact store_empty m

omit [DecidableEq A] in
theorem sentPart_zero (q : ι) (m : A → V) (k : List (Instr ι A V)) : sentPart q m 0 k = [] := by
  rcases k with _ | ⟨_ | _ | ⟨_ | ⟨p, s⟩, inn⟩, k⟩
  · rfl
  · rfl
  · rfl
  · rfl
  · exact ite_self _

omit [DecidableEq A] in
theorem gotPart_nil (p : ι) (k : List (Instr ι A V)) : gotPart p [] k = [] := by
  rcases k with _ | ⟨_ | _ | ⟨out, _ | ⟨q, s⟩⟩, k⟩
  · rfl
  · rfl
  · rfl
  · rfl
  · exact ite_self _

omit [DecidableEq ι] in
theorem begun_refl (k : List (Instr ι A V)) (m : A → V) : Begun k m 0 [] k m :=
  ⟨(shave_zero k).symm, (landed_nil k m).symm, Or.inl rfl, Or.inl rfl⟩

/-- Writing a list in two pieces. -/
theorem store_pieces {m : A → V} {s : List A} {a b : List V} (hs : s.Nodup)
    (hle : a.length + b.length ≤ s.length) :
    store (store m (s.take a.length) a) ((s.drop a.length).take b.length) b =
      store m (s.take (a.length + b.length)) (a ++ b) := by
  have hsplit : s.take (a.length + b.length) = s.take a.length ++ (s.drop a.length).take b.length := by
    rw [List.take_add]
  have hlen : (s.take a.length).length = a.length := by
    rw [List.length_take, Nat.min_eq_left (by omega)]
  have hnd : (s.take a.length ++ (s.drop a.length).take b.length).Nodup := by
    rw [← hsplit]
    exact hs.sublist (List.take_sublist _ _)
  have hdis := (List.nodup_append.mp hnd).2.2
  funext x
  rw [hsplit]
  by_cases h2 : x ∈ (s.drop a.length).take b.length
  · have h1 : x ∉ s.take a.length := fun h1 => hdis x h1 x h2 rfl
    rw [store_of_mem h2, store_of_mem (List.mem_append_right _ h2), store_of_not_mem h1,
      List.idxOf_append_of_notMem h1, hlen, List.getD_append_right _ _ _ _ (Nat.le_add_right _ _),
      Nat.add_sub_cancel_left]
  · rw [store_of_not_mem h2]
    by_cases h1 : x ∈ s.take a.length
    · have hi : (s.take a.length).idxOf x < a.length := by
        have := List.idxOf_lt_length_of_mem h1
        omega
      rw [store_of_mem h1, store_of_mem (List.mem_append_left _ h1), List.idxOf_append_of_mem h1,
        List.getD_append _ _ _ _ hi]
    · rw [store_of_not_mem h1, store_of_not_mem fun h => (List.mem_append.mp h).elim h1 h2]

section Node

variable {k k' l : List (Instr ι A V)} {m m' : A → V} {i : Nat} {got : List V}

omit [DecidableEq ι] in
/-- A process at an exchange has the rest of an exchange to make. -/
theorem Begun.at_xchg (h : Begun k m i got k' m') {out' inn' : Option (ι × List A)}
    (hk : k' = .xchg out' inn' :: l) :
    ∃ out inn, k = .xchg out inn :: l ∧ out' = out.map (fun h => (h.1, h.2.drop i)) ∧
      inn' = inn.map fun h => (h.1, h.2.drop got.length) := by
  have hcode := h.code.symm.trans hk
  rcases k with _ | ⟨_ | _ | ⟨out, inn⟩, k⟩
  · cases hcode
  · cases hcode
  · cases hcode
  · simp only [shave, List.cons.injEq, Instr.xchg.injEq] at hcode
    obtain ⟨⟨rfl, rfl⟩, rfl⟩ := hcode
    exact ⟨out, inn, rfl, rfl, rfl⟩

omit [DecidableEq ι] in
/-- A process with no code left is not inside an exchange. -/
theorem Begun.at_end (h : Begun k m i got k' m') (hk : k' = []) : k = [] ∧ m' = m := by
  have hcode := h.code.symm.trans hk
  have hmem := h.mem
  rcases k with _ | ⟨_ | _ | ⟨out, inn⟩, k⟩
  · exact ⟨rfl, hmem⟩
  · cases hcode
  · cases hcode
  · cases hcode

omit [DecidableEq ι] in
/-- A process that makes a local step is not inside an exchange. -/
theorem Begun.at_local (h : Begun k m i got k' m') {x : Instr ι A V} {m'' : A → V}
    (hk : k' = x :: l) (hrun : x.run m' = some m'') : k = x :: l ∧ i = 0 ∧ got = [] ∧ m' = m := by
  have hcode := h.code.symm.trans hk
  have hnone : ∀ out inn, k ≠ .xchg out inn :: l ∨ out = none ∧ inn = none := by
    intro out inn
    by_contra hcon
    rw [not_or, not_not] at hcon
    obtain ⟨rfl, hhalf⟩ := hcon
    simp only [shave, List.cons.injEq] at hcode
    obtain ⟨rfl, -⟩ := hcode
    rcases out with _ | h1 <;> rcases inn with _ | h2
    · exact hhalf ⟨rfl, rfl⟩
    · cases hrun
    · cases hrun
    · cases hrun
  have htail : ∀ {out inn l'}, k = .xchg out inn :: l' → k = .xchg out inn :: l := by
    intro out inn l' he
    rw [he, shave, List.cons.injEq] at hcode
    rw [he, hcode.2]
  have hi : i = 0 := by
    rcases h.out with hi | ⟨q, s, inn, l', he, -⟩
    · exact hi
    · rcases hnone (some (q, s)) inn with hne | ⟨hno, -⟩
      · exact absurd (htail he) hne
      · cases hno
  have hg : got = [] := by
    rcases h.inn with hg | ⟨p, s, out, l', he, -⟩
    · exact hg
    · rcases hnone out (some (p, s)) with hne | ⟨-, hno⟩
      · exact absurd (htail he) hne
      · cases hno
  subst hi hg
  rw [List.length_nil, shave_zero] at hcode
  exact ⟨hcode, rfl, rfl, h.mem.trans (landed_nil k m)⟩

omit [DecidableEq ι] in
/-- What a process sends does not depend on what it has received of the same exchange. -/
theorem Begun.load_eq (h : Begun k m i got k' m') (hsep : Separated k) {q : ι} {s : List A}
    {inn : Option (ι × List A)} (hk : k = .xchg (some (q, s)) inn :: l) {t : List A} (ht : t ⊆ s) :
    load m' t = load m t := by
  rw [h.mem, hk]
  rcases inn with _ | ⟨p, u⟩
  · rfl
  · refine load_congr fun a ha => store_of_not_mem fun hu => ?_
    have hmem : Instr.xchg (some (q, s)) (some (p, u)) ∈ k := by
      rw [hk]
      exact List.mem_cons_self
    exact hsep q s p u hmem a (ht ha) (List.take_subset _ _ hu)

omit [DecidableEq ι] in
/-- Something is left of the outgoing half. -/
theorem Begun.out_lt (h : Begun k m i got k' m') (hsolid : Solid k) {q : ι} {s : List A}
    {inn : Option (ι × List A)} (hk : k = .xchg (some (q, s)) inn :: l) : i < s.length := by
  rcases h.out with hi | ⟨q', s', inn', l', he, hlt⟩
  · have hmem : Instr.xchg (some (q, s)) inn ∈ k := by
      rw [hk]
      exact List.mem_cons_self
    rw [hi]
    exact List.length_pos_of_ne_nil ((hsolid _ _ hmem).1 q s rfl)
  · rw [hk] at he
    obtain ⟨⟨⟨-, rfl⟩, -⟩, -⟩ : ((q = q' ∧ s = s') ∧ inn = inn') ∧ l = l' := by simpa using he
    exact hlt

omit [DecidableEq ι] in
/-- Something is left of the incoming half. -/
theorem Begun.inn_lt (h : Begun k m i got k' m') (hsolid : Solid k) {p : ι} {s : List A}
    {out : Option (ι × List A)} (hk : k = .xchg out (some (p, s)) :: l) : got.length < s.length := by
  rcases h.inn with hg | ⟨p', s', out', l', he, hlt⟩
  · have hmem : Instr.xchg out (some (p, s)) ∈ k := by
      rw [hk]
      exact List.mem_cons_self
    rw [hg]
    exact List.length_pos_of_ne_nil ((hsolid _ _ hmem).2 p s rfl).1
  · rw [hk] at he
    obtain ⟨⟨-, -, rfl⟩, -⟩ : (out = out' ∧ p = p' ∧ s = s') ∧ l = l' := by simpa using he
    exact hlt

omit [DecidableEq ι] in
/-- More of the outgoing half has moved, not all of it. -/
theorem Begun.sent_more (h : Begun k m i got k' m') {q : ι} {s : List A} {inn : Option (ι × List A)}
    (hk : k = .xchg (some (q, s)) inn :: l) {j : Nat} (hlt : i + j < s.length) :
    Begun k m (i + j) got (.xchg (some (q, s.drop (i + j)))
      (inn.map fun h => (h.1, h.2.drop got.length)) :: l) m' :=
  ⟨by rw [hk]; rfl, h.mem, Or.inr ⟨q, s, inn, l, hk, hlt⟩, h.inn⟩

omit [DecidableEq ι] in
/-- The outgoing half has moved. -/
theorem Begun.sent_all (h : Begun k m i got k' m') {out inn : Option (ι × List A)}
    (hk : k = .xchg out inn :: l) :
    Begun (.xchg none inn :: l) m 0 got
      (.xchg none (inn.map fun h => (h.1, h.2.drop got.length)) :: l) m' := by
  refine ⟨rfl, ?_, Or.inl rfl, ?_⟩
  · rw [h.mem, hk]
    cases inn <;> rfl
  · rcases h.inn with hg | ⟨p, s, out', l', he, hlt⟩
    · exact Or.inl hg
    · rw [hk] at he
      obtain ⟨⟨-, rfl⟩, rfl⟩ : (out = out' ∧ inn = some (p, s)) ∧ l = l' := by simpa using he
      exact Or.inr ⟨p, s, none, l, rfl, hlt⟩

omit [DecidableEq ι] in
/-- More of the incoming half has moved, not all of it. -/
theorem Begun.got_more (h : Begun k m i got k' m') {p : ι} {s : List A} {out : Option (ι × List A)}
    (hk : k = .xchg out (some (p, s)) :: l) (hs : s.Nodup) {bs : List V}
    (hlt : got.length + bs.length < s.length) :
    Begun k m i (got ++ bs) (.xchg (out.map fun h => (h.1, h.2.drop i))
      (some (p, s.drop (got.length + bs.length))) :: l)
      (store m' ((s.drop got.length).take bs.length) bs) := by
  refine ⟨?_, ?_, h.out, Or.inr ⟨p, s, out, l, hk, by rw [List.length_append]; exact hlt⟩⟩
  · rw [hk, List.length_append]
    rfl
  · rw [h.mem, hk]
    simp only [landed, List.length_append]
    exact store_pieces hs (Nat.le_of_lt hlt)

omit [DecidableEq ι] in
/-- The incoming half has moved. -/
theorem Begun.got_all (h : Begun k m i got k' m') {p : ι} {s : List A} {out : Option (ι × List A)}
    (hk : k = .xchg out (some (p, s)) :: l) (hs : s.Nodup) {bs : List V}
    (hall : got.length + bs.length = s.length) :
    Begun (.xchg out none :: l) (store m s (got ++ bs)) i []
      (.xchg (out.map fun h => (h.1, h.2.drop i)) none :: l)
      (store m' ((s.drop got.length).take bs.length) bs) := by
  refine ⟨rfl, ?_, ?_, Or.inl rfl⟩
  · rw [h.mem, hk]
    simp only [landed]
    rw [store_pieces hs (Nat.le_of_eq hall), hall, List.take_length]
  · rcases h.out with hi | ⟨q, u, inn, l', he, hlt⟩
    · exact Or.inl hi
    · rw [hk] at he
      obtain ⟨⟨rfl, -⟩, rfl⟩ : (out = some (q, u) ∧ some (p, s) = inn) ∧ l = l' := by simpa using he
      exact Or.inr ⟨q, u, none, l, rfl, hlt⟩

end Node

/-! ## All processes -/

/-- **The simulation**: every process and every pipe beside the run by whole messages. -/
structure Pieced (e : PCfg ι A V) (c : Cfg ι A V) (i : ι → Nat) (got : ι → List V) : Prop where
  node : ∀ r, Begun (c.code r) (c.mem r) (i r) (got r) (e.code r) (e.mem r)
  pipe : ∀ p q, gotPart p (got q) (c.code q) ++ e.pipe p q =
    (c.chan p q).flatten ++ sentPart q (c.mem p) (i p) (c.code p)

section Simulation

variable {cap : ι → ι → Nat} {e e' : PCfg ι A V} {c : Cfg ι A V} {i : ι → Nat} {got : ι → List V}

theorem pieced_start {prog : ι → List (Instr ι A V)} {m : ι → A → V} :
    Pieced (pstart prog m) (start prog m) (fun _ => 0) fun _ => [] := by
  refine ⟨fun r => begun_refl _ _, fun p q => ?_⟩
  rw [gotPart_nil, sentPart_zero]
  rfl

/-- One process moves on; its part of the pipes is for `hpipe`. -/
theorem Pieced.set (h : Pieced e c i got) {r : ι} {k k' : List (Instr ι A V)} {m m' : A → V}
    {i₀ : Nat} {got₀ : List V} {pipe : ι → ι → List V} {chan : ι → ι → List (List V)}
    (hnode : Begun k m i₀ got₀ k' m')
    (hpipe : ∀ p q, gotPart p (Function.update got r got₀ q) (Function.update c.code r k q) ++
      pipe p q = (chan p q).flatten ++ sentPart q (Function.update c.mem r m p)
        (Function.update i r i₀ p) (Function.update c.code r k p)) :
    Pieced ⟨Function.update e.code r k', Function.update e.mem r m', pipe⟩
      ⟨Function.update c.code r k, Function.update c.mem r m, chan⟩ (Function.update i r i₀)
      (Function.update got r got₀) := by
  refine ⟨fun x => ?_, hpipe⟩
  by_cases hx : x = r
  · subst hx
    simpa using hnode
  · simpa [hx] using h.node x

omit [DecidableEq A] in
/-- The incoming side of a pipe stays. -/
theorem gotPart_update {r p q : ι} {k : List (Instr ι A V)} {got₀ : List V} {got : ι → List V}
    {code : ι → List (Instr ι A V)} (h : q = r → gotPart p got₀ k = gotPart p (got r) (code r)) :
    gotPart p (Function.update got r got₀ q) (Function.update code r k q) = gotPart p (got q) (code q) := by
  by_cases hq : q = r
  · subst hq
    rw [Function.update_self, Function.update_self, h rfl]
  · rw [Function.update_of_ne hq, Function.update_of_ne hq]

omit [DecidableEq A] in
/-- The outgoing side of a pipe stays. -/
theorem sentPart_update {r p q : ι} {k : List (Instr ι A V)} {i₀ : Nat} {m : A → V} {i : ι → Nat}
    {mem : ι → A → V} {code : ι → List (Instr ι A V)}
    (h : p = r → sentPart q m i₀ k = sentPart q (mem r) (i r) (code r)) :
    sentPart q (Function.update mem r m p) (Function.update i r i₀ p) (Function.update code r k p) =
      sentPart q (mem p) (i p) (code p) := by
  by_cases hp : p = r
  · subst hp
    rw [Function.update_self, Function.update_self, Function.update_self, h rfl]
  · rw [Function.update_of_ne hp, Function.update_of_ne hp, Function.update_of_ne hp]

/-- A local step is one of the run by messages. -/
theorem pieced_loc (h : Pieced e c i got) {r : ι} {x : Instr ι A V} {k : List (Instr ι A V)}
    {m : A → V} (hc : e.code r = x :: k) (hm : x.run (e.mem r) = some m) :
    ∃ c' i' got', Step c c' ∧
      Pieced ⟨Function.update e.code r k, Function.update e.mem r m, e.pipe⟩ c' i' got' := by
  obtain ⟨hk, hi, hg, hmem⟩ := (h.node r).at_local hc hm
  rw [hmem] at hm
  refine ⟨c.next r k m, Function.update i r 0, Function.update got r [], ⟨.loc r, move_loc hk hm⟩,
    h.set (begun_refl k m) fun p q => ?_⟩
  have hgot : ∀ p, gotPart p [] k = gotPart p (got r) (c.code r) := by
    intro p
    rw [hg, gotPart_nil, gotPart_nil]
  have hsent : ∀ q, sentPart q m 0 k = sentPart q (c.mem r) (i r) (c.code r) := by
    intro q
    rw [hi, sentPart_zero, sentPart_zero]
  rw [gotPart_update fun _ => hgot p, sentPart_update fun _ => hsent q]
  exact h.pipe p q

/-- A piece is put on a pipe. -/
theorem pieced_put (h : Pieced e c i got) (hsep : ∀ r, Separated (c.code r)) {r q : ι} {s' : List A}
    {inn' : Option (ι × List A)} {k : List (Instr ι A V)} {j : Nat}
    (hc : e.code r = .xchg (some (q, s')) inn' :: k) (hj : 0 < j) (hle : j ≤ s'.length) :
    ∃ c' i' got', Relation.ReflTransGen Step c c' ∧
      Pieced ⟨Function.update e.code r (.xchg (left q s' j) inn' :: k), e.mem,
        setPair e.pipe r q (e.pipe r q ++ load (e.mem r) (s'.take j))⟩ c' i' got' := by
  obtain ⟨out, inn, hk, hout, hinn⟩ := (h.node r).at_xchg hc
  obtain ⟨q', s, rfl, rfl, rfl⟩ : ∃ q' s, out = some (q', s) ∧ q = q' ∧ s' = s.drop (i r) := by
    rcases out with _ | ⟨q', s⟩
    · cases hout
    · exact ⟨q', s, rfl, by simpa using hout⟩
  have hload : load (e.mem r) ((s.drop (i r)).take j) = load (c.mem r) ((s.drop (i r)).take j) :=
    (h.node r).load_eq (hsep r) hk (List.Subset.trans (List.take_subset _ _) (List.drop_subset _ _))
  have hpart : load (c.mem r) (s.take (i r)) ++ load (c.mem r) ((s.drop (i r)).take j) =
      load (c.mem r) (s.take (i r + j)) := by
    rw [List.take_add, load, load, load, List.map_append]
  rw [List.length_drop] at hle
  have hmem : e.mem = Function.update e.mem r (e.mem r) := (Function.update_eq_self r e.mem).symm
  have hpipe := h.pipe r q
  rw [hk] at hpipe
  simp only [sentPart, if_true] at hpipe
  -- the process is sending to `q` and to nobody else
  have hnone : ∀ b, b ≠ q → sentPart b (c.mem r) (i r) (c.code r) = [] := by
    intro b hb
    rw [hk]
    exact if_neg hb.symm
  by_cases hfin : i r + j = s.length
  · -- the run by messages sends the message
    have hleft : left q (s.drop (i r)) j = none := if_pos (by rw [List.length_drop]; omega)
    refine ⟨_, Function.update i r 0, Function.update got r (got r), .single ⟨.snd r, move_snd hk⟩, ?_⟩
    have hcm : c.mem = Function.update c.mem r (c.mem r) := (Function.update_eq_self r c.mem).symm
    rw [hleft, hinn, hload, hmem, hcm]
    refine h.set ((h.node r).sent_all hk) fun a b => ?_
    have hgot : ∀ p, gotPart p (got r) (.xchg none inn :: k) = gotPart p (got r) (c.code r) := by
      intro p
      rw [hk]
      cases inn <;> rfl
    rw [gotPart_update fun _ => hgot a, ← hcm]
    by_cases hab : a = r ∧ b = q
    · obtain ⟨rfl, rfl⟩ := hab
      rw [setPair_same, setPair_same, Function.update_self, Function.update_self, ← List.append_assoc,
        h.pipe, hk]
      simp only [sentPart, if_true]
      rw [List.append_assoc, hpart, hfin, List.take_length, List.flatten_append,
        List.flatten_singleton, List.append_nil]
    · rw [setPair_other hab, setPair_other hab]
      have hsame : sentPart b (Function.update c.mem r (c.mem r) a) (Function.update i r 0 a)
          (Function.update c.code r (.xchg none inn :: k) a) = sentPart b (c.mem a) (i a) (c.code a) :=
        sentPart_update fun ha => (hnone b fun hb => hab ⟨ha, hb⟩).symm
      rw [← hcm] at hsame
      rw [hsame]
      exact h.pipe a b
  · have hlt : i r + j < s.length := by omega
    have hleft : left q (s.drop (i r)) j = some (q, s.drop (i r + j)) := by
      rw [left, if_neg (by rw [List.length_drop]; omega), List.drop_drop]
    refine ⟨c, Function.update i r (i r + j), got, .refl, ?_⟩
    rw [hleft, hinn, hload]
    refine ⟨fun x => ?_, fun a b => ?_⟩
    · by_cases hx : x = r
      · subst hx
        simp only [Function.update_self]
        exact (h.node x).sent_more hk hlt
      · simp only [Function.update_of_ne hx]
        exact h.node x
    · simp only
      by_cases hab : a = r ∧ b = q
      · obtain ⟨rfl, rfl⟩ := hab
        rw [setPair_same, Function.update_self, ← List.append_assoc, h.pipe, hk]
        simp only [sentPart, if_true]
        rw [List.append_assoc, hpart]
      · have hsame : sentPart b (Function.update c.mem r (c.mem r) a) (Function.update i r (i r + j) a)
            (Function.update c.code r (c.code r) a) = sentPart b (c.mem a) (i a) (c.code a) := by
          refine sentPart_update fun ha => ?_
          have hb : b ≠ q := fun hb => hab ⟨ha, hb⟩
          rw [hnone b hb, hk]
          exact if_neg hb.symm
        simp only [Function.update_eq_self] at hsame
        rw [setPair_other hab, hsame]
        exact h.pipe a b

/-- What is sent of a message is a part of it. -/
theorem Pieced.sentPart_lt (h : Pieced e c i got) (p q : ι) :
    sentPart q (c.mem p) (i p) (c.code p) = [] ∨ ∃ u inn k, c.code p = .xchg (some (q, u)) inn :: k ∧
      (sentPart q (c.mem p) (i p) (c.code p)).length < u.length := by
  rcases (h.node p).out with hi | ⟨q', u, inn, k, hk, hlt⟩
  · rw [hi, sentPart_zero]
    exact Or.inl rfl
  · by_cases hq : q' = q
    · subst hq
      refine Or.inr ⟨u, inn, k, hk, ?_⟩
      rw [hk]
      simp only [sentPart, if_true]
      rw [load_length, List.length_take, Nat.min_eq_left (Nat.le_of_lt hlt)]
      exact hlt
    · rw [hk]
      exact Or.inl (if_neg hq)

omit [DecidableEq A] in
/-- The oldest message of a channel fits the slice it is received into. -/
theorem Fit.head (h : Fit c) {r p : ι} {s : List A} {out : Option (ι × List A)}
    {k : List (Instr ι A V)} (hk : c.code r = .xchg out (some (p, s)) :: k) {d : List V}
    {ds : List (List V)} (hd : c.chan p r = d :: ds) : d.length = s.length := by
  have hpr := h p r
  rw [hk, hd] at hpr
  simp only [inSlices, List.filterMap_cons, if_true, List.map_cons, List.cons_append,
    List.cons.injEq] at hpr
  exact hpr.1.symm

/-- When all of a message is there, the sender has sent it. -/
theorem Pieced.oldest (h : Pieced e c i got) (hfit : Fit c) {r p : ι} {s : List A}
    {out : Option (ι × List A)} {k : List (Instr ι A V)}
    (hk : c.code r = .xchg out (some (p, s)) :: k) (hs : 0 < s.length)
    (hall : s.length ≤ (got r ++ e.pipe p r).length) : ∃ d ds, c.chan p r = d :: ds := by
  cases hd : c.chan p r with
  | cons d ds => exact ⟨d, ds, rfl⟩
  | nil =>
    have hpipe := h.pipe p r
    rw [hk, hd] at hpipe
    simp only [gotPart, if_true, List.flatten_nil, List.nil_append] at hpipe
    rw [hpipe] at hall
    rcases h.sentPart_lt p r with hnil | ⟨u, inn, l, hp, hlt⟩
    · rw [hnil, List.length_nil] at hall
      omega
    · have hpr := hfit p r
      rw [hk, hd, hp] at hpr
      simp only [inSlices, outSlices, List.filterMap_cons, if_true, List.map_cons, List.map_nil,
        List.nil_append, List.cons.injEq] at hpr
      omega

/-- A piece is taken off a pipe. -/
theorem pieced_take (h : Pieced e c i got) (hsep : ∀ r, Separated (c.code r))
    (hsolid : ∀ r, Solid (c.code r)) (hfit : Fit c) {r p : ι} {s' : List A}
    {out' : Option (ι × List A)} {k : List (Instr ι A V)} {bs rest : List V}
    (hc : e.code r = .xchg out' (some (p, s')) :: k) (hj : 0 < bs.length)
    (hle : bs.length ≤ s'.length) (hbs : e.pipe p r = bs ++ rest) :
    ∃ c' i' got', Relation.ReflTransGen Step c c' ∧
      Pieced ⟨Function.update e.code r (.xchg out' (left p s' bs.length) :: k),
        Function.update e.mem r (store (e.mem r) (s'.take bs.length) bs),
        setPair e.pipe p r rest⟩ c' i' got' := by
  obtain ⟨out, inn, hk, hout, hinn⟩ := (h.node r).at_xchg hc
  obtain ⟨p', s, rfl, rfl, rfl⟩ : ∃ p' s, inn = some (p', s) ∧ p = p' ∧ s' = s.drop (got r).length := by
    rcases inn with _ | ⟨p', s⟩
    · cases hinn
    · exact ⟨p', s, rfl, by simpa using hinn⟩
  rw [List.length_drop] at hle
  have hmemr : Instr.xchg out (some (p, s)) ∈ c.code r := by
    rw [hk]
    exact List.mem_cons_self
  have hnd : s.Nodup := ((hsolid r _ _ hmemr).2 p s rfl).2
  have hpipe := h.pipe p r
  rw [hk, hbs, ← List.append_assoc] at hpipe
  simp only [gotPart, if_true] at hpipe
  -- the process is receiving from `p` and from nobody else
  have hnone : ∀ a, a ≠ p → gotPart a (got r) (c.code r) = [] := by
    intro a ha
    rw [hk]
    exact if_neg ha.symm
  by_cases hfin : (got r).length + bs.length = s.length
  · -- the run by messages receives the message
    have hleft : left p (s.drop (got r).length) bs.length = none :=
      if_pos (by rw [List.length_drop]; omega)
    obtain ⟨d, ds, hd⟩ := h.oldest hfit hk (by omega)
      (by rw [hbs, List.length_append, List.length_append]; omega)
    have hlen := hfit.head hk hd
    rw [hd, List.flatten_cons, List.append_assoc d] at hpipe
    obtain ⟨rfl, hrest⟩ := List.append_inj hpipe (by rw [List.length_append, hlen, hfin])
    refine ⟨_, Function.update i r (i r), Function.update got r [], .single ⟨.rcv r, move_rcv hk hd⟩, ?_⟩
    rw [hleft, hout]
    refine h.set ((h.node r).got_all hk hnd hfin) fun a b => ?_
    have hsent : ∀ q, sentPart q (store (c.mem r) s (got r ++ bs)) (i r) (.xchg out none :: k) =
        sentPart q (c.mem r) (i r) (c.code r) := by
      intro q
      rw [hk]
      rcases out with _ | ⟨q', u⟩
      · rfl
      · have hsame : load (store (c.mem r) s (got r ++ bs)) (u.take (i r)) =
            load (c.mem r) (u.take (i r)) :=
          load_store_disjoint fun a ha => hsep r q' u p s hmemr a (List.take_subset _ _ ha)
        simp only [sentPart, hsame]
    rw [sentPart_update fun _ => hsent b]
    by_cases hab : a = p ∧ b = r
    · obtain ⟨rfl, rfl⟩ := hab
      rw [setPair_same, setPair_same, Function.update_self, Function.update_self]
      exact hrest
    · have hsame : gotPart a (Function.update got r [] b)
          (Function.update c.code r (.xchg out none :: k) b) = gotPart a (got b) (c.code b) :=
        gotPart_update fun hb => (hnone a fun ha => hab ⟨ha, hb⟩).symm
      rw [setPair_other hab, setPair_other hab, hsame]
      exact h.pipe a b
  · have hlt : (got r).length + bs.length < s.length := by omega
    have hleft : left p (s.drop (got r).length) bs.length =
        some (p, s.drop ((got r).length + bs.length)) := by
      rw [left, if_neg (by rw [List.length_drop]; omega), List.drop_drop]
    refine ⟨c, i, Function.update got r (got r ++ bs), .refl, ?_⟩
    rw [hleft, hout]
    refine ⟨fun x => ?_, fun a b => ?_⟩
    · by_cases hx : x = r
      · subst hx
        simp only [Function.update_self]
        exact (h.node x).got_more hk hnd hlt
      · simp only [Function.update_of_ne hx]
        exact h.node x
    · simp only
      by_cases hab : a = p ∧ b = r
      · obtain ⟨rfl, rfl⟩ := hab
        rw [setPair_same, Function.update_self, hk]
        simp only [gotPart, if_true]
        rw [hpipe]
      · have hsame : gotPart a (Function.update got r (got r ++ bs) b)
            (Function.update c.code r (c.code r) b) = gotPart a (got b) (c.code b) := by
          refine gotPart_update fun hb => ?_
          have ha : a ≠ p := fun ha => hab ⟨ha, hb⟩
          rw [hnone a ha, hk]
          exact if_neg ha.symm
        rw [Function.update_eq_self] at hsame
        rw [setPair_other hab, hsame]
        exact h.pipe a b

/-- Every step is one of the run by messages, or makes none. -/
theorem pieced_step (h : Pieced e c i got) (hsep : ∀ r, Separated (c.code r))
    (hsolid : ∀ r, Solid (c.code r)) (hfit : Fit c) (hs : PStep cap e e') :
    ∃ c' i' got', Relation.ReflTransGen Step c c' ∧ Pieced e' c' i' got' := by
  cases hs with
  | loc hc hm =>
    obtain ⟨c', i', got', hstep, h'⟩ := pieced_loc h hc hm
    exact ⟨c', i', got', .single hstep, h'⟩
  | put hc hj hle _ => exact pieced_put h hsep hc hj hle
  | take hc hj hle hbs => exact pieced_take h hsep hsolid hfit hc hj hle hbs

/-- A process that cannot move is at an exchange; a pipe it has to put on is not empty, and one it has
to take off is. -/
theorem Pieced.stuck (h : Pieced e c i got) (hcap : ∀ p q, 0 < cap p q)
    (hsolid : ∀ r, Solid (c.code r)) (hn : ∀ e', ¬ PStep cap e e') {r : ι} (hr : c.code r ≠ []) :
    ∃ out inn k, c.code r = .xchg out inn :: k ∧ (out ≠ none ∨ inn ≠ none) ∧
      (∀ q s, out = some (q, s) → e.pipe r q ≠ []) ∧ ∀ p s, inn = some (p, s) → e.pipe p r = [] := by
  have hnode := h.node r
  have hcode := hnode.code
  cases hk : c.code r with
  | nil => exact absurd hk hr
  | cons x k =>
    rw [hk] at hcode
    cases x with
    | cpu f => exact absurd (PStep.loc (m := f (e.mem r)) hcode rfl) (hn _)
    | post reqs => exact absurd (PStep.loc (m := e.mem r) hcode rfl) (hn _)
    | xchg out inn =>
      refine ⟨out, inn, k, rfl, ?_, fun q s ho hpipe => ?_, fun p s hi => ?_⟩
      · by_contra hnone
        rw [not_or, not_not, not_not] at hnone
        obtain ⟨rfl, rfl⟩ := hnone
        exact hn _ (PStep.loc (m := e.mem r) hcode rfl)
      · -- room for a piece
        subst ho
        have hlt := hnode.out_lt (hsolid r) hk
        refine hn _ (PStep.put (j := 1) hcode Nat.one_pos ?_ ?_)
        · rw [List.length_drop]
          exact Nat.sub_pos_of_lt hlt
        · rw [hpipe]
          exact hcap r q
      · -- a piece has arrived
        subst hi
        have hlt := hnode.inn_lt (hsolid r) hk
        cases hpipe : e.pipe p r with
        | nil => rfl
        | cons b rest =>
          have hone : [b].length ≤ (s.drop (got r).length).length := by
            rw [List.length_drop]
            exact Nat.sub_pos_of_lt hlt
          have hpos : 0 < [b].length := Nat.one_pos
          have hfront : e.pipe p r = [b] ++ rest := hpipe
          exact absurd (PStep.take hcode hpos hone hfront) (hn _)

/-- **No state is stuck.** Where no process can move, all have finished. -/
theorem pieces_progress (h : Pieced e c i got) (hcap : ∀ p q, 0 < cap p q)
    (hsolid : ∀ r, Solid (c.code r)) (hfit : Fit c) {Pay : ι → ι → Nat → List V → Prop}
    {Q : ι → (A → V) → Prop} {plan : ι → List (Entry ι)} {fly : ι → ι → List Nat}
    (hkeep : Keeps Pay Q c plan fly) (hn : ∀ e', ¬ PStep cap e e') (r : ι) : c.code r = [] := by
  -- induction on the time of the exchange a process is at
  suffices hw : ∀ t r x pl, plan r = x :: pl → x.time = t → c.code r ≠ [] → False by
    by_contra hr
    obtain ⟨out, inn, k, hk, -⟩ := h.stuck hcap hsolid hn hr
    obtain ⟨x, pl, hp, -⟩ := hkeep.entry hk
    exact hw x.time r x pl hp rfl hr
  intro t
  induction t using Nat.strong_induction_on with
  | _ t ih =>
    intro r x pl hp ht hr
    obtain ⟨out, inn, k, hk, hhalf, hput, htake⟩ := h.stuck hcap hsolid hn hr
    obtain ⟨x₀, pl₀, hp₀, hout, hinn⟩ := hkeep.entry hk
    rw [hp] at hp₀
    obtain ⟨rfl, rfl⟩ := List.cons.inj hp₀
    -- the peer is at its exchange of time `t`, else it is stuck at an earlier one
    have hpeer : ∀ y z, z ∈ plan y → z.time = t → ∃ out' inn' k', c.code y = .xchg out' inn' :: k' ∧
        z.out = out'.map Prod.fst ∧ z.inn = inn'.map Prod.fst ∧
        (∀ q s, out' = some (q, s) → e.pipe y q ≠ []) ∧ ∀ p s, inn' = some (p, s) → e.pipe p y = [] := by
      intro y z hz hzt
      have hy := hkeep.code_ne_nil hz
      obtain ⟨out', inn', k', hk', -, hput', htake'⟩ := h.stuck hcap hsolid hn hy
      obtain ⟨z₀, pl', hp', ho', hi'⟩ := hkeep.entry hk'
      rw [hp'] at hz
      rcases head_or_earlier (by rw [← hp']; exact hkeep.ordered y) hz with rfl | hlt
      · exact ⟨out', inn', k', hk', ho', hi', hput', htake'⟩
      · exact (ih z₀.time (by omega) y z₀ pl' hp' rfl hy).elim
    rcases hhalf with ho | hi
    · obtain ⟨⟨q, s⟩, rfl⟩ := Option.ne_none_iff_exists'.mp ho
      have hmem : t ∈ inTimes r (plan q) := by
        rw [hkeep.meet r q, hp, outTimes_cons, hout, Option.map_some, if_pos rfl, ht]
        exact List.mem_append_right _ List.mem_cons_self
      obtain ⟨z, hz, hzt⟩ := List.mem_map.mp hmem
      rw [List.mem_filter, decide_eq_true_iff] at hz
      obtain ⟨out', inn', k', -, -, hi', -, htake'⟩ := hpeer q z hz.1 hzt
      obtain ⟨⟨r', s'⟩, rfl, rfl⟩ := Option.map_eq_some_iff.mp (hi'.symm.trans hz.2)
      exact hput q s rfl (htake' r' s' rfl)
    · obtain ⟨⟨p, s⟩, rfl⟩ := Option.ne_none_iff_exists'.mp hi
      have hempty := htake p s rfl
      -- no message is in flight, for none of its bytes is on the pipe
      have hchan : c.chan p r = [] := by
        cases hd : c.chan p r with
        | nil => rfl
        | cons d ds =>
          have hlen := hfit.head hk hd
          have hpipe := congrArg List.length (h.pipe p r)
          rw [hempty, hk, hd] at hpipe
          simp only [gotPart, if_true, List.append_nil, List.flatten_cons, List.length_append] at hpipe
          have hlt := (h.node r).inn_lt (hsolid r) hk
          omega
      have hfly : fly p r = [] := by
        have hpay := hkeep.pay p r
        rw [hchan] at hpay
        cases hf : fly p r with
        | nil => rfl
        | cons _ _ => rw [hf] at hpay; cases hpay
      have hmem : t ∈ outTimes r (plan p) := by
        have hmeet := hkeep.meet p r
        rw [hp, inTimes_cons, hinn, Option.map_some, if_pos rfl, hfly, List.nil_append] at hmeet
        rw [← hmeet, ht]
        exact List.mem_cons_self
      obtain ⟨z, hz, hzt⟩ := List.mem_map.mp hmem
      rw [List.mem_filter, decide_eq_true_iff] at hz
      obtain ⟨out', inn', k', -, ho', -, hput', -⟩ := hpeer p z hz.1 hzt
      obtain ⟨⟨r', s'⟩, rfl, rfl⟩ := Option.map_eq_some_iff.mp (ho'.symm.trans hz.2)
      exact hput' r' s' rfl hempty

end Simulation

/-! ## Every run ends -/

/-- Steps that each cost one process something, and no process more than it had, make finite runs. -/
theorem acc_of_cost {α : Type} {R : α → α → Prop} {ranks : Finset ι} (cost : α → ι → Nat)
    (hstep : ∀ a b, R a b → ∃ r, cost b r < cost a r ∧ ∀ x, x ≠ r → cost b x = cost a x) {a : α}
    (ha : ∀ r, r ∉ ranks → cost a r = 0) : Acc (fun x y => R y x) a := by
  suffices h : ∀ N a, (∀ r, r ∉ ranks → cost a r = 0) → (∑ r ∈ ranks, cost a r) = N →
      Acc (fun x y => R y x) a from h _ a ha rfl
  intro N
  induction N using Nat.strong_induction_on with
  | _ N ih =>
    intro a ha hN
    refine ⟨_, fun b hb => ?_⟩
    obtain ⟨r, hr, hx⟩ := hstep a b hb
    have hmem : r ∈ ranks := by
      by_contra hr'
      rw [ha r hr'] at hr
      exact Nat.not_lt_zero _ hr
    have hlt : (∑ x ∈ ranks, cost b x) < N := by
      rw [← hN]
      refine Finset.sum_lt_sum (fun x _ => ?_) ⟨r, hmem, hr⟩
      by_cases hxr : x = r
      · subst hxr
        exact Nat.le_of_lt hr
      · exact Nat.le_of_eq (hx x hxr)
    refine ih _ hlt b (fun x hx' => ?_) rfl
    rw [hx x fun e => hx' (e ▸ hmem)]
    exact ha x hx'

/-- Where all runs are finite they are so later on. -/
theorem acc_of_reach {α : Type} {R : α → α → Prop} {a b : α} (h : Acc (fun x y => R y x) a)
    (hab : Relation.ReflTransGen R a b) : Acc (fun x y => R y x) b := by
  induction hab with
  | refl => exact h
  | tail _ hstep ih => exact ih.inv hstep

/-- The places an instruction has still to move, and one step to drop it. -/
def Instr.places : Instr ι A V → Nat
  | .cpu _ => 1
  | .post _ => 1
  | .xchg out inn => 1 + (out.elim 0 fun h => h.2.length) + inn.elim 0 fun h => h.2.length

/-- What a process has still to move. -/
def places (k : List (Instr ι A V)) : Nat := (k.map Instr.places).sum

omit [DecidableEq ι] [DecidableEq A] in
theorem places_cons (x : Instr ι A V) (k : List (Instr ι A V)) : places (x :: k) = x.places + places k := by
  rw [places, List.map_cons, List.sum_cons, places]

omit [DecidableEq ι] [DecidableEq A] in
/-- A piece less is left of a half. -/
theorem left_places (q : ι) {s : List A} {j : Nat} (hle : j ≤ s.length) :
    ((left q s j).elim 0 fun h => h.2.length) + j = s.length := by
  unfold left
  split
  · rename_i h
    rw [Option.elim_none, h, Nat.zero_add]
  · rw [Option.elim_some, List.length_drop, Nat.sub_add_cancel hle]

omit [DecidableEq A] in
theorem update_places {code : ι → List (Instr ι A V)} {r : ι} {k : List (Instr ι A V)}
    (h : places k < places (code r)) : ∃ x, places (Function.update code r k x) < places (code x) ∧
      ∀ y, y ≠ x → places (Function.update code r k y) = places (code y) := by
  refine ⟨r, ?_, fun y hy => ?_⟩
  · rw [Function.update_self]
    exact h
  · rw [Function.update_of_ne hy]

theorem pstep_places {cap : ι → ι → Nat} {e e' : PCfg ι A V} (h : PStep cap e e') :
    ∃ r, places (e'.code r) < places (e.code r) ∧ ∀ x, x ≠ r → places (e'.code x) = places (e.code x) := by
  cases h with
  | loc hc hm =>
    refine update_places ?_
    rw [hc, places_cons]
    rcases run_cases hm with ⟨f, rfl, -⟩ | ⟨q, rfl, -⟩ | ⟨rfl, -⟩
    · exact Nat.lt_add_of_pos_left Nat.one_pos
    · exact Nat.lt_add_of_pos_left Nat.one_pos
    · exact Nat.lt_add_of_pos_left Nat.one_pos
  | @put r q s inn k j hc hj hle hroom =>
    refine update_places ?_
    have hleft := left_places q hle
    rw [hc, places_cons, places_cons, Instr.places, Instr.places, Option.elim_some]
    simp only
    omega
  | @take r p s out k bs rest hc hj hle hbs =>
    refine update_places ?_
    have hleft := left_places p hle
    rw [hc, places_cons, places_cons, Instr.places, Instr.places, Option.elim_some]
    simp only
    omega

/-! ## The result -/

section Result

variable {cap : ι → ι → Nat} {prog : ι → List (Instr ι A V)} {m : ι → A → V}

/-- Exchanges keep their slices, or lose them. -/
theorem solid_step {c c' : Cfg ι A V} (h : ∀ r, Solid (c.code r)) (hs : Step c c') :
    ∀ r, Solid (c'.code r) := by
  -- a move replaces one list of instructions by a tail of it, or erases a half of its head
  suffices hsub : ∀ r out inn, Instr.xchg out inn ∈ c'.code r → ∃ out₀ inn₀,
      Instr.xchg out₀ inn₀ ∈ c.code r ∧ (out = none ∨ out = out₀) ∧ (inn = none ∨ inn = inn₀) by
    intro r out inn hm
    obtain ⟨out₀, inn₀, hm₀, ho, hi⟩ := hsub r out inn hm
    constructor
    · rintro q s rfl
      rcases ho with ho | rfl
      · cases ho
      · exact (h r _ _ hm₀).1 q s rfl
    · rintro p s rfl
      rcases hi with hi | rfl
      · cases hi
      · exact (h r _ _ hm₀).2 p s rfl
  intro x out inn hm
  have hkeep : ∀ {k : List (Instr ι A V)} {r : ι} {y : Instr ι A V}, c.code r = y :: k →
      Instr.xchg out inn ∈ k → ∃ out₀ inn₀, Instr.xchg out₀ inn₀ ∈ c.code r ∧
        (out = none ∨ out = out₀) ∧ (inn = none ∨ inn = inn₀) := by
    intro k r y hk hmem
    refine ⟨out, inn, ?_, Or.inr rfl, Or.inr rfl⟩
    rw [hk]
    exact List.mem_cons_of_mem _ hmem
  obtain ⟨a, ha⟩ := hs
  cases a with
  | loc r =>
    obtain ⟨y, k, m, hk, -, rfl⟩ := loc_cases ha
    by_cases hx : x = r
    · subst hx
      exact hkeep hk (by simpa [Cfg.next] using hm)
    · exact ⟨out, inn, by simpa [Cfg.next, hx] using hm, Or.inr rfl, Or.inr rfl⟩
  | snd r =>
    obtain ⟨q, s, inn', k, hk, rfl⟩ := snd_cases ha
    by_cases hx : x = r
    · subst hx
      simp only [Function.update_self] at hm
      rcases List.mem_cons.mp hm with he | hm
      · obtain ⟨rfl, rfl⟩ := Instr.xchg.inj he
        exact ⟨some (q, s), inn, by rw [hk]; exact List.mem_cons_self, Or.inl rfl, Or.inr rfl⟩
      · exact hkeep hk hm
    · exact ⟨out, inn, by simpa [hx] using hm, Or.inr rfl, Or.inr rfl⟩
  | rcv r =>
    obtain ⟨p, s, out', k, d, ds, hk, -, rfl⟩ := rcv_cases ha
    by_cases hx : x = r
    · subst hx
      simp only [Function.update_self] at hm
      rcases List.mem_cons.mp hm with he | hm
      · obtain ⟨rfl, rfl⟩ := Instr.xchg.inj he
        exact ⟨out, some (p, s), by rw [hk]; exact List.mem_cons_self, Or.inr rfl, Or.inl rfl⟩
      · exact hkeep hk hm
    · exact ⟨out, inn, by simpa [hx] using hm, Or.inr rfl, Or.inr rfl⟩

/-- What a run by messages keeps. -/
theorem whole_reach (hsep : ∀ r, Separated (prog r)) (hsolid : ∀ r, Solid (prog r))
    (hsize : ∀ p r, (inSlices p (prog r)).map List.length = (outSlices r (prog p)).map List.length)
    {c : Cfg ι A V} (hc : Relation.ReflTransGen Step (start prog m) c) :
    (∀ r, Separated (c.code r)) ∧ (∀ r, Solid (c.code r)) ∧ Fit c := by
  induction hc with
  | refl => exact ⟨hsep, hsolid, fun p r => by simpa [start] using hsize p r⟩
  | tail _ hs ih =>
    obtain ⟨a, ha⟩ := hs
    exact ⟨separated_move ha ih.1, solid_step ih.2.1 ⟨a, ha⟩, fit_step ih.2.2 ⟨a, ha⟩⟩

/-- Every run is beside a run by messages. -/
theorem pieces_reach (hsep : ∀ r, Separated (prog r)) (hsolid : ∀ r, Solid (prog r))
    (hsize : ∀ p r, (inSlices p (prog r)).map List.length = (outSlices r (prog p)).map List.length)
    {e : PCfg ι A V} (he : Relation.ReflTransGen (PStep cap) (pstart prog m) e) :
    ∃ c i got, Relation.ReflTransGen Step (start prog m) c ∧ Pieced e c i got := by
  induction he with
  | refl => exact ⟨_, _, _, .refl, pieced_start⟩
  | tail _ hs ih =>
    obtain ⟨c, i, got, hc, h⟩ := ih
    obtain ⟨hsep', hsolid', hfit⟩ := whole_reach hsep hsolid hsize hc
    obtain ⟨c', i', got', hcc', h'⟩ := pieced_step h hsep' hsolid' hfit hs
    exact ⟨c', i', got', hc.trans hcc', h'⟩

/-- **Pieces make no difference.** Every run in which messages move in pieces, over pipes of any
positive size, is finite, and ends with all processes finished, all pipes empty, and the memories at
the end of a run in which every message moves at once. -/
theorem pieces_ends {ranks : Finset ι} {Pay : ι → ι → Nat → List V → Prop}
    {Q : ι → (A → V) → Prop} {plan : ι → List (Entry ι)} (hcap : ∀ p q, 0 < cap p q)
    (hfin : ∀ r, r ∉ ranks → prog r = []) (hmeet : ∀ p q, inTimes p (plan q) = outTimes q (plan p))
    (hord : ∀ r, Ordered (plan r)) (hwp : ∀ r, wp Pay r (prog r) (plan r) (Q r) (m r))
    (hsize : ∀ p r, (inSlices p (prog r)).map List.length = (outSlices r (prog p)).map List.length)
    (hsep : ∀ r, Separated (prog r)) (hsolid : ∀ r, Solid (prog r)) :
    Ends (PStep cap) (pstart prog m) fun e =>
      ∃ c, Relation.ReflTransGen Step (start prog m) c ∧ (∀ r, c.code r = []) ∧
        (∀ r, e.code r = [] ∧ e.mem r = c.mem r) ∧ ∀ p q, e.pipe p q = [] := by
  refine ⟨acc_of_cost (fun e r => places (e.code r)) (fun _ _ hs => pstep_places hs)
    fun r (hr : r ∉ ranks) => ?_, fun e he hn => ?_⟩
  · show places (prog r) = 0
    rw [hfin r hr]
    rfl
  obtain ⟨c, i, got, hc, h⟩ := pieces_reach hsep hsolid hsize he
  obtain ⟨-, hsolid', hfit⟩ := whole_reach hsep hsolid hsize hc
  obtain ⟨_, _, hkeep⟩ := keeps_reach (keeps_start hmeet hord hwp) hc
  have hdone : ∀ r, c.code r = [] := pieces_progress h hcap hsolid' hfit hkeep hn
  refine ⟨c, hc, hdone, fun r => ?_, fun p q => ?_⟩
  · have hcode := (h.node r).code
    rw [hdone r] at hcode
    exact ⟨hcode, ((h.node r).at_end hcode).2⟩
  · have hpipe := h.pipe p q
    have hchan : c.chan p q = [] := by
      have hpq := hfit p q
      rw [hdone p, hdone q] at hpq
      exact List.map_eq_nil_iff.mp (List.append_eq_nil_iff.mp hpq.symm).1
    rw [hdone p, hdone q, hchan] at hpipe
    exact hpipe

end Result

end Vccl.Net
