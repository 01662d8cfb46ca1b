import Vccl.Net.Stream
import Mathlib.Algebra.GroupWithZero.Nat

/-!
# Queues of transfers on a stream

One end of one direction of a stream has transfers to make, one after the other: a queue, of whose
first entry some bytes have moved. A `Lane` is such a queue beside the ledger of that end: the
messages that are whole are the transfers `past` of earlier rounds and then those of this round that
have left the queue, in order, and the message under way is the first entry's.

`Holds` says besides what the messages are: `read o k` is what the place of transfer `o` holds of its
first `k` bytes.

* `Lane.advance`, `Lane.next`: bytes move; a round of transfers begins.
* `Lane.cut`: the ledger is cut at the sizes of the transfers.
* `Holds.advance`, `Holds.next`: the same for what the messages are.
* `flow_map`: a run of parties is a run of the parties they implement.
-/

namespace Vccl.Net

variable {O B : Type}

/-- A transfer of which `done` bytes have moved. -/
structure Active (O : Type) where
  op : O
  done : Nat
  deriving DecidableEq, Repr

/-- The queue of transfers that have not begun. -/
def enqueue (ops : List O) : List (Active O) := ops.map fun o => ⟨o, 0⟩

/-- The queue after `k` more bytes of its first transfer. -/
def advance (size : O → Nat) (k : Nat) : List (Active O) → List (Active O)
  | [] => []
  | a :: rest => if a.done + k = size a.op then rest else ⟨a.op, a.done + k⟩ :: rest

/-- A queue beside the ledger of its end: `past` are the transfers of the rounds before, `gone` those
of this round that have left the queue. -/
structure Lane (size : O → Nat) (past gone : List O) (queue : List (Active O)) (led : Ledger B) :
    Prop where
  first : ∀ a rest, queue = a :: rest → a.done < size a.op ∧ led.part.length = a.done
  idle : queue = [] → led.part = []
  fresh : ∀ a ∈ queue.tail, a.done = 0 ∧ 0 < size a.op
  count : led.done.length = (past ++ gone).length
  sizes : ∀ (i : Nat) (m : List B), led.done[i]? = some m → ∃ o, (past ++ gone)[i]? = some o ∧ m.length = size o

section Lanes

variable {size : O → Nat} {past gone : List O} {queue : List (Active O)} {led : Ledger B}

theorem lane_empty (size : O → Nat) : Lane size [] [] [] (⟨[], []⟩ : Ledger B) :=
  ⟨nofun, fun _ => rfl, nofun, rfl, nofun⟩

/-- The first transfer moves on; it leaves the queue with its last byte. -/
theorem Lane.advance {a : Active O} {rest : List (Active O)}
    (h : Lane size past gone (a :: rest) led) (bs : List B)
    (hle : a.done + bs.length ≤ size a.op) :
    Lane size past (if a.done + bs.length = size a.op then gone ++ [a.op] else gone)
      (advance size bs.length (a :: rest)) (led.add bs (decide (a.done + bs.length = size a.op))) := by
  obtain ⟨hlt, hpart⟩ := h.first a rest rfl
  by_cases hfin : a.done + bs.length = size a.op
  · simp only [Net.advance, Ledger.add, hfin, decide_true, if_true]
    refine ⟨fun b rest' hq => ?_, fun _ => rfl, fun b hb' => ?_, ?_, fun i m hi => ?_⟩
    · obtain ⟨h0, hpos⟩ := h.fresh b (by rw [List.tail_cons, hq]; exact List.mem_cons_self)
      exact ⟨by omega, h0.symm⟩
    · exact h.fresh b (List.mem_of_mem_tail hb')
    · rw [← List.append_assoc]
      simp only [List.length_append, List.length_singleton] at *
      have := h.count
      simp only [List.length_append] at this
      omega
    · rw [← List.append_assoc]
      rcases getElem?_snoc hi with hold | ⟨rfl, rfl⟩
      · obtain ⟨o, ho, hlen⟩ := h.sizes i m hold
        refine ⟨o, ?_, hlen⟩
        rw [List.getElem?_append_left (List.getElem?_eq_some_iff.mp ho).1]
        exact ho
      · refine ⟨a.op, ?_, ?_⟩
        · rw [h.count, List.getElem?_concat_length]
        · rw [List.length_append]
          omega
  · simp only [Net.advance, Ledger.add, hfin, decide_false, Bool.false_eq_true, if_false]
    refine ⟨fun b rest' hq => ?_, fun hq => absurd hq (List.cons_ne_nil _ _), h.fresh, h.count,
      h.sizes⟩
    cases hq
    refine ⟨by simp only; omega, ?_⟩
    rw [List.length_append, hpart]

/-- The next round of transfers begins. -/
theorem Lane.next (h : Lane size past gone [] led) {ops : List O} (hpos : ∀ o ∈ ops, 0 < size o) :
    Lane size (past ++ gone) [] (enqueue ops) led := by
  have hpart := h.idle rfl
  have hall : ∀ a ∈ enqueue ops, a.done = 0 ∧ 0 < size a.op := by
    intro a ha
    obtain ⟨o, ho, rfl⟩ := List.mem_map.mp ha
    exact ⟨rfl, hpos o ho⟩
  refine ⟨fun a rest hq => ?_, fun _ => hpart, fun a ha => hall a (List.mem_of_mem_tail ha), ?_, ?_⟩
  · obtain ⟨h0, h1⟩ := hall a (by rw [hq]; exact List.mem_cons_self)
    rw [hpart]
    exact ⟨by omega, h0.symm⟩
  · rw [List.append_nil]
    exact h.count
  · rw [List.append_nil]
    exact h.sizes

/-- The bytes that have moved, and those that are to move, are those of the transfers. -/
theorem Lane.bytes (h : Lane size past gone queue led) :
    led.bytes.length = (past.map size).sum + (gone.map size).sum +
      (queue.head?.map Active.done).getD 0 := by
  have hdone : led.done.flatten.length = ((past ++ gone).map size).sum := by
    rw [List.length_flatten]
    congr 1
    apply List.ext_getElem?
    intro i
    rw [List.getElem?_map, List.getElem?_map]
    cases hm : led.done[i]? with
    | none =>
      have hge : led.done.length ≤ i := List.getElem?_eq_none_iff.mp hm
      rw [List.getElem?_eq_none (by rw [← h.count]; exact hge)]
      rfl
    | some m =>
      obtain ⟨o, ho, hlen⟩ := h.sizes i m hm
      rw [ho]
      exact congrArg some hlen
  have hpart : led.part.length = (queue.head?.map Active.done).getD 0 := by
    cases queue with
    | nil => rw [h.idle rfl]; rfl
    | cons a rest => exact (h.first a rest rfl).2
  rw [Ledger.bytes, List.length_append, hdone, hpart, List.map_append, List.sum_append]

/-- A queue that is not empty has bytes to move. -/
theorem Lane.left (h : Lane size past gone queue led) (hq : queue ≠ []) :
    led.bytes.length < (past.map size).sum + (gone.map size).sum +
      ((queue.map Active.op).map size).sum := by
  rw [h.bytes]
  cases queue with
  | nil => exact absurd rfl hq
  | cons a rest =>
    have := (h.first a rest rfl).1
    simp only [List.head?_cons, Option.map_some, Option.getD_some, List.map_cons, List.sum_cons]
    omega

/-- A queue that has bytes to move is not empty. -/
theorem Lane.ne_nil (h : Lane size past gone queue led)
    (hlt : led.bytes.length < (past.map size).sum + (gone.map size).sum +
      ((queue.map Active.op).map size).sum) : queue ≠ [] := by
  rintro rfl
  rw [h.bytes] at hlt
  simp at hlt

end Lanes

/-! ## What the messages are -/

/-- The messages of the transfers of this round that are `good`: what their places hold. -/
structure Holds (good : O → Prop) (read : O → Nat → List B) (size : O → Nat) (past gone : List O)
    (queue : List (Active O)) (led : Ledger B) : Prop where
  whole : ∀ (i : Nat) (o : O), gone[i]? = some o → good o → led.done[past.length + i]? = some (read o (size o))
  under : ∀ a rest, queue = a :: rest → good a.op → led.part = read a.op a.done

section Holding

variable {good : O → Prop} {read read' : O → Nat → List B} {size : O → Nat} {past gone : List O}
  {queue : List (Active O)} {led : Ledger B}

/-- The first transfer moves on. The other places are left as they are. -/
theorem Holds.advance {a : Active O} {rest : List (Active O)}
    (h : Holds good read size past gone (a :: rest) led)
    (hl : Lane size past gone (a :: rest) led) (bs : List B) (read' : O → Nat → List B)
    (hkeep : ∀ o ∈ gone, good o → read' o (size o) = read o (size o))
    (hgrow : good a.op → read' a.op (a.done + bs.length) = read a.op a.done ++ bs)
    (hzero : ∀ o, read' o 0 = []) :
    Holds good read' size past
      (if a.done + bs.length = size a.op then gone ++ [a.op] else gone)
      (Net.advance size bs.length (a :: rest))
      (led.add bs (decide (a.done + bs.length = size a.op))) := by
  have hold : ∀ (i : Nat) (o : O), gone[i]? = some o → good o →
      led.done[past.length + i]? = some (read' o (size o)) := by
    intro i o ho hg
    rw [hkeep o (List.mem_of_getElem? ho) hg]
    exact h.whole i o ho hg
  by_cases hfin : a.done + bs.length = size a.op
  · simp only [Net.advance, Ledger.add, hfin, decide_true, if_true]
    refine ⟨fun i o ho hg => ?_, fun b rest' hq hg => ?_⟩
    · rcases getElem?_snoc ho with hgone | ⟨rfl, rfl⟩
      · have hget := hold i o hgone hg
        rw [List.getElem?_append_left (List.getElem?_eq_some_iff.mp hget).1]
        exact hget
      · have hcount := hl.count
        rw [List.length_append] at hcount
        rw [← hcount, List.getElem?_concat_length, h.under a rest rfl hg, ← hgrow hg, hfin]
    · obtain ⟨h0, -⟩ := hl.fresh b (by rw [List.tail_cons, hq]; exact List.mem_cons_self)
      rw [h0, hzero]
  · simp only [Net.advance, Ledger.add, hfin, decide_false, Bool.false_eq_true, if_false]
    refine ⟨hold, fun b rest' hq hg => ?_⟩
    cases hq
    rw [h.under a rest rfl hg, hgrow hg]

/-- Nothing moves on this lane, and the places are left as they are. -/
theorem Holds.keep (h : Holds good read size past gone queue led)
    (hgone : ∀ o ∈ gone, good o → read' o (size o) = read o (size o))
    (hfirst : ∀ a rest, queue = a :: rest → good a.op → read' a.op a.done = read a.op a.done) :
    Holds good read' size past gone queue led := by
  refine ⟨fun i o ho hg => ?_, fun a rest hq hg => ?_⟩
  · rw [hgone o (List.mem_of_getElem? ho) hg]
    exact h.whole i o ho hg
  · rw [hfirst a rest hq hg]
    exact h.under a rest hq hg

theorem holds_next (hl : Lane size past gone [] led) {ops : List O} (hzero : ∀ o, read o 0 = []) :
    Holds good read size (past ++ gone) [] (enqueue ops) led := by
  refine ⟨nofun, fun a rest hq hg => ?_⟩
  have hmem : a ∈ enqueue ops := by
    rw [hq]
    exact List.mem_cons_self
  obtain ⟨o, -, rfl⟩ := List.mem_map.mp hmem
  rw [hzero, hl.idle rfl]

end Holding

/-! ## Parties that implement others -/

section Map

variable {ι σ τ : Type} [DecidableEq ι] {cap : ι → ι → Nat} {L : ι → σ → Act ι B → σ → Prop}
  {K : ι → τ → Act ι B → τ → Prop}

/-- The same streams between parties seen through `f`. -/
def Flow.map (f : σ → τ) (c : Flow ι B σ) : Flow ι B τ := ⟨fun p => f (c.st p), c.out, c.inn, c.chan⟩

/-- **A run of parties is a run of the parties they implement.** `I` is an invariant of the parties
by themselves. -/
theorem flow_map {st : ι → σ} {f : σ → τ} {I : ι → σ → Prop} (h0 : ∀ p, I p (st p))
    (hstep : ∀ p s a s', I p s → L p s a s' → I p s' ∧ K p (f s) a (f s')) {c : Flow ι B σ}
    (h : FlowRun cap L (Flow.start st) c) :
    (∀ p, I p (c.st p)) ∧ FlowRun cap K (Flow.start fun p => f (st p)) (c.map f) := by
  induction h with
  | refl => exact ⟨h0, .refl⟩
  | @tail c c' _ hs ih =>
    obtain ⟨p, a, s, hL, hallow, rfl⟩ := hs
    obtain ⟨hI, hrun⟩ := ih
    obtain ⟨hI', hL'⟩ := hstep p _ a s (hI p) hL
    refine ⟨fun q => ?_, hrun.tail ⟨p, a, f s, hL', ?_, ?_⟩⟩
    · by_cases hq : q = p
      · subst hq
        simpa [Flow.act] using hI'
      · simpa [Flow.act, hq] using hI q
    · cases a <;> exact hallow
    · have hst : (fun q => f (Function.update c.st p s q)) =
          Function.update (fun q => f (c.st q)) p (f s) := by
        funext q
        by_cases hq : q = p
        · subst hq
          simp
        · simp [hq]
      simp only [Flow.map, Flow.act, hst]
      cases a <;> rfl

end Map

end Vccl.Net
