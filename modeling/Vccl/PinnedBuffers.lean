import Vccl.Comm
import Vccl.Recency

/-!
# Do a collective's buffers stay pinned? (`ScopedReg` in `collectives.cc`)

A collective adds its buffers to a `ScopedReg` before it touches them, so that the data path makes no
registration of its own. With a cache the `ScopedReg` owns nothing: a range is pinned by an entry of
the cache, or by whatever `covers` found. Every collective adds one range or none, except
`doAllToAllv`, which adds two (`pins_job`), and its second add may evict what pins the first range
(`Loses`): in a cache of one place, or when the first range was found covered by the oldest entry,
whose stamp `covers` does not renew.
-/

namespace Vccl

/-! ## What the calls of a collective add -/

/-- None of the calls is of this kind. -/
def Lacks (kind : Call → Bool) (calls : List Call) : Prop := ∀ c ∈ calls, kind c = false

/-- `ScopedReg::add`. -/
def Call.isAdd : Call → Bool
  | .regAdd _ _ => true
  | _ => false

/-- A call that touches the registrations. -/
def Call.isBook : Call → Bool
  | .regAdd _ _ | .scratchAt _ => true
  | _ => false

section Lacks

variable {kind : Call → Bool} {a b : List Call}

theorem lacks_nil : Lacks kind [] := fun _ h => absurd h List.not_mem_nil

theorem lacks_cons {c : Call} (hc : kind c = false) (h : Lacks kind a) : Lacks kind (c :: a) := by
  intro x hx
  rcases List.mem_cons.mp hx with rfl | hx
  · exact hc
  · exact h x hx

theorem Lacks.append (ha : Lacks kind a) (hb : Lacks kind b) : Lacks kind (a ++ b) :=
  fun c hc => (List.mem_append.mp hc).elim (ha c) (hb c)

theorem lacks_flatMap {β : Type} {l : List β} {body : β → List Call}
    (h : ∀ x ∈ l, Lacks kind (body x)) : Lacks kind (l.flatMap body) := by
  intro c hc
  obtain ⟨x, hx, hc⟩ := List.mem_flatMap.mp hc
  exact h x hx c hc

theorem lacks_map {β : Type} {l : List β} {call : β → Call} (h : ∀ x ∈ l, kind (call x) = false) :
    Lacks kind (l.map call) := by
  intro c hc
  obtain ⟨x, hx, rfl⟩ := List.mem_map.mp hc
  exact h x hx

theorem lacks_ite {p : Prop} [Decidable p] (ha : Lacks kind a) (hb : Lacks kind b) :
    Lacks kind (if p then a else b) := by
  split
  · exact ha
  · exact hb

theorem Lacks.isAdd (h : Lacks Call.isBook a) : Lacks Call.isAdd a := by
  intro c hc
  have := h c hc
  cases c with
  | regAdd p bytes => exact this
  | _ => rfl

end Lacks

/-- How a collective adds its buffers. -/
inductive Pins : List Call → Prop
  | idle {cs : List Call} (h : Lacks Call.isAdd cs) : Pins cs
  /-- One range, before scratch is asked for. -/
  | ahead (p : Ptr) (bytes : Nat) {cs : List Call} (h : Lacks Call.isAdd cs) :
      Pins (Call.regAdd p bytes :: cs)
  /-- One range, and no scratch is asked for later. -/
  | behind (p : Ptr) (bytes : Nat) {pre cs : List Call} (hpre : Lacks Call.isAdd pre)
      (h : Lacks Call.isBook cs) : Pins (pre ++ Call.regAdd p bytes :: cs)
  | pair (p q : Ptr) (a b : Nat) {cs : List Call} (h : Lacks Call.isBook cs) :
      Pins (Call.regAdd p a :: Call.regAdd q b :: cs)

section Jobs

variable {kind : Call → Bool} {n r : Nat} {recv : Ptr}

theorem lacks_ringReduceScatter {chunks : Nat → Chunk} {dt : DataType} {op : RedOp} :
    Lacks Call.isAdd (ringReduceScatter n r recv chunks dt op) :=
  lacks_cons rfl (lacks_flatMap fun _ _ =>
    lacks_cons rfl (lacks_ite (lacks_cons rfl lacks_nil) lacks_nil))

theorem lacks_ringAllGather {chunks : Nat → Chunk} {shift : Nat} :
    Lacks Call.isAdd (ringAllGather n r recv chunks shift) :=
  lacks_cons rfl (lacks_flatMap fun _ _ => lacks_cons rfl lacks_nil)

theorem lacks_recursiveDoublingAllGather {chunkBytes : Nat} :
    Lacks Call.isAdd (recursiveDoublingAllGather n r recv chunkBytes) :=
  lacks_cons rfl (lacks_flatMap fun _ _ => lacks_cons rfl lacks_nil)

theorem lacks_bruckAllGather {chunkBytes : Nat} :
    Lacks Call.isAdd (bruckAllGather n r recv chunkBytes) := by
  unfold bruckAllGather
  refine Lacks.append (Lacks.append (Lacks.append (lacks_ite (lacks_cons rfl lacks_nil) lacks_nil)
    (lacks_cons rfl lacks_nil)) (lacks_flatMap fun x _ => lacks_cons rfl lacks_nil))
    (lacks_ite ?_ lacks_nil)
  exact (lacks_cons rfl (lacks_map fun _ _ => rfl)).append (lacks_cons rfl lacks_nil)

theorem lacks_recursiveDoublingAllReduce {count : Nat} {dt : DataType} {op : RedOp} :
    Lacks Call.isAdd (recursiveDoublingAllReduce n r recv count dt op) :=
  lacks_cons rfl (lacks_cons rfl (lacks_flatMap fun _ _ =>
    lacks_cons rfl (lacks_cons rfl lacks_nil)))

theorem lacks_pow2ElimAllReduce {count : Nat} {dt : DataType} {op : RedOp} :
    Lacks Call.isAdd (pow2ElimAllReduce n r recv count dt op) := by
  unfold pow2ElimAllReduce
  refine Lacks.append (Lacks.append (Lacks.append (lacks_cons rfl (lacks_cons rfl lacks_nil)) ?_)
    (lacks_flatMap fun _ _ => lacks_cons rfl (lacks_cons rfl lacks_nil))) ?_
  · exact lacks_ite (lacks_cons rfl (lacks_cons rfl lacks_nil))
      (lacks_ite (lacks_cons rfl lacks_nil) lacks_nil)
  · exact lacks_ite (lacks_cons rfl lacks_nil) (lacks_ite (lacks_cons rfl lacks_nil) lacks_nil)

theorem pins_doAllGather {env : AlgoEnv} {s d : Ptr} {count : Nat} {dt : DataType} :
    Pins (doAllGather env n r s d count dt) := by
  unfold doAllGather
  rw [List.append_assoc, List.singleton_append]
  refine Pins.ahead _ _ (Lacks.append (lacks_ite (lacks_cons rfl lacks_nil) lacks_nil) ?_)
  exact lacks_ite lacks_nil (lacks_ite
    (lacks_ite lacks_recursiveDoublingAllGather lacks_bruckAllGather) lacks_ringAllGather)

theorem pins_doReduceScatter {s d : Ptr} {count : Nat} {dt : DataType} {op : RedOp}
    {premul : Option Factor} : Pins (doReduceScatter n r s d count dt op premul) := by
  have hcopy : Lacks Call.isAdd (if count > 0 ∧ s ≠ d then
      [Call.memcpy d s (count * typeSize dt)] else []) :=
    lacks_ite (lacks_cons rfl lacks_nil) lacks_nil
  have havg : Lacks Call.isAdd (if op = .avg then [Call.cpuScale dt d count (.recip n)] else []) :=
    lacks_ite (lacks_cons rfl lacks_nil) lacks_nil
  unfold doReduceScatter
  refine Pins.ahead _ _ (lacks_ite (hcopy.append ?_) (Lacks.append (Lacks.append (Lacks.append
    (lacks_cons rfl lacks_nil) ?_) (lacks_flatMap fun i _ => lacks_cons rfl (lacks_ite
      (Lacks.append ?_ (lacks_cons rfl lacks_nil)) ?_))) havg))
  all_goals cases premul with
    | some k => exact lacks_cons rfl lacks_nil
    | none => first
      | exact lacks_nil
      | exact lacks_cons rfl lacks_nil
      | exact lacks_ite (lacks_cons rfl lacks_nil) lacks_nil

theorem pins_doAllReduce {env : AlgoEnv} {s d : Ptr} {count : Nat} {dt : DataType} {op : RedOp}
    {premul : Option Factor} : Pins (doAllReduce env n r s d count dt op premul) := by
  simp only [doAllReduce, List.append_assoc, List.cons_append, List.nil_append]
  refine Pins.ahead _ _ (Lacks.append (lacks_ite (lacks_cons rfl lacks_nil) lacks_nil)
    (Lacks.append ?_ ?_))
  · cases premul with
    | none => exact lacks_nil
    | some k => exact lacks_cons rfl lacks_nil
  refine lacks_ite lacks_nil (lacks_ite (Lacks.append
    (lacks_ite lacks_recursiveDoublingAllReduce lacks_pow2ElimAllReduce)
    (lacks_ite (lacks_cons rfl lacks_nil) lacks_nil)) ?_)
  exact lacks_ringReduceScatter.append
    (Lacks.append (lacks_ite (lacks_cons rfl lacks_nil) lacks_nil) lacks_ringAllGather)

theorem pins_doReduce {s d : Ptr} {count : Nat} {dt : DataType} {op : RedOp}
    {premul : Option Factor} {root : Nat} : Pins (doReduce n r s d count dt op premul root) := by
  simp only [doReduce]
  by_cases h1 : n = 1
  · rw [if_pos h1]
    refine .idle ((lacks_ite (lacks_cons rfl lacks_nil) lacks_nil).append ?_)
    cases premul with
    | none => exact lacks_nil
    | some k => exact lacks_cons rfl lacks_nil
  rw [if_neg h1]
  by_cases h0 : count = 0
  · rw [if_pos h0]
    exact .idle lacks_nil
  rw [if_neg h0]
  have hbody : ∀ (l : List Nat) (body : Nat → List Call), (∀ j ∈ l, Lacks Call.isBook (body j)) →
      Pins ([Call.scratchAt kPipeBytes] ++
        (if r = (root + 1) % n ∧ premul.isNone then [Call.regAdd s (count * typeSize dt)] else []) ++
        l.flatMap body) := by
    intro l body hl
    rw [List.append_assoc]
    split
    · exact Pins.behind s _ (lacks_cons rfl lacks_nil) (lacks_flatMap hl)
    · exact .idle (lacks_cons rfl (lacks_flatMap hl).isAdd)
  refine hbody _ _ fun j _ => ?_
  have hcopy : Lacks Call.isBook (if d + j * kPipeBytes ≠ s + j * kPipeBytes then
      [Call.memcpy (d + j * kPipeBytes) (s + j * kPipeBytes)
        (min kPipeBytes (count * typeSize dt - j * kPipeBytes))] else []) :=
    lacks_ite (lacks_cons rfl lacks_nil) lacks_nil
  cases premul with
  | none =>
    refine lacks_ite (lacks_cons rfl lacks_nil) (lacks_ite ?_ ?_)
    · exact lacks_cons rfl ((hcopy.append (lacks_cons rfl lacks_nil)).append
        (lacks_ite (lacks_cons rfl lacks_nil) lacks_nil))
    · exact lacks_cons rfl (lacks_cons rfl (lacks_cons rfl lacks_nil))
  | some k =>
    refine lacks_ite (lacks_cons rfl (lacks_cons rfl lacks_nil)) (lacks_ite ?_ ?_)
    · exact lacks_cons rfl (lacks_cons rfl (lacks_cons rfl
        (lacks_ite (lacks_cons rfl lacks_nil) lacks_nil)))
    · exact lacks_cons rfl (lacks_cons rfl (lacks_cons rfl lacks_nil))

theorem pins_doBroadcast {s d : Ptr} {count : Nat} {dt : DataType} {root : Nat} :
    Pins (doBroadcast n r s d count dt root) := by
  simp only [doBroadcast]
  have hcopy : Lacks Call.isAdd
      (if r = root ∧ s ≠ d then [Call.memcpy d s (count * typeSize dt)] else []) :=
    lacks_ite (lacks_cons rfl lacks_nil) lacks_nil
  by_cases h0 : n = 1 ∨ count = 0
  · rw [if_pos h0]
    exact .idle (hcopy.append lacks_nil)
  · rw [if_neg h0, List.singleton_append]
    refine Pins.behind d _ hcopy (lacks_flatMap fun j _ => ?_)
    split
    · exact lacks_cons rfl lacks_nil
    · exact lacks_cons rfl (lacks_ite lacks_nil (lacks_cons rfl lacks_nil))

theorem pins_doGather {s d : Ptr} {count : Nat} {dt : DataType} {root : Nat} :
    Pins (doGather n r s d count dt root) := by
  simp only [doGather, List.cons_append, List.nil_append]
  by_cases h0 : n = 1 ∨ count = 0
  · rw [if_pos h0]
    exact .idle (lacks_ite (lacks_cons rfl lacks_nil) lacks_nil)
  rw [if_neg h0]
  by_cases hr : r ≠ root
  · rw [if_pos hr]
    exact .ahead _ _ (lacks_cons rfl lacks_nil)
  · rw [if_neg hr]
    exact Pins.ahead _ _ (Lacks.append (lacks_ite (lacks_cons rfl lacks_nil) lacks_nil)
      (lacks_flatMap fun _ _ => lacks_cons rfl lacks_nil))

theorem pins_doScatter {s d : Ptr} {count : Nat} {dt : DataType} {root : Nat} :
    Pins (doScatter n r s d count dt root) := by
  simp only [doScatter, List.cons_append, List.nil_append]
  by_cases h0 : n = 1 ∨ count = 0
  · rw [if_pos h0]
    exact .idle (lacks_ite (lacks_cons rfl lacks_nil) lacks_nil)
  rw [if_neg h0]
  by_cases hr : r ≠ root
  · rw [if_pos hr]
    exact .ahead _ _ (lacks_cons rfl lacks_nil)
  · rw [if_neg hr]
    exact Pins.ahead _ _ (Lacks.append (lacks_ite (lacks_cons rfl lacks_nil) lacks_nil)
      (lacks_flatMap fun _ _ => lacks_cons rfl lacks_nil))

theorem pins_doAllToAllv {s d : Ptr} {sc sd rc rd : Nat → Nat} {dt : DataType} :
    Pins (doAllToAllv n r s sc sd d rc rd dt) := by
  simp only [doAllToAllv, List.cons_append, List.nil_append]
  exact Pins.pair _ _ _ _ (Lacks.append (lacks_ite (lacks_cons rfl lacks_nil) lacks_nil)
    (lacks_flatMap fun _ _ => lacks_cons rfl lacks_nil))

/-- **Every collective** adds one range or none, or is `doAllToAllv`. -/
theorem pins_job (gatherEnv reduceEnv : AlgoEnv) (n r : Nat) (job : Job) :
    Pins (job.calls gatherEnv reduceEnv n r) := by
  cases job with
  | allGather => exact pins_doAllGather
  | reduceScatter => exact pins_doReduceScatter
  | allReduce => exact pins_doAllReduce
  | reduce => exact pins_doReduce
  | broadcast => exact pins_doBroadcast
  | gather => exact pins_doGather
  | scatter => exact pins_doScatter
  | allToAll => exact pins_doAllToAllv
  | allToAllv => exact pins_doAllToAllv

end Jobs

/-! ## A collective at work -/

/-- A call, as the registrations see it; the answer of `regMr` and the address of a scratch buffer that
grows come from outside. -/
def Registry.call (cap : Nat) (loc : Ptr → Nat) (answer : Result) (addr : Nat) (s : Registry) :
    Call → Result × Registry
  | .regAdd p bytes => s.add cap 0 (loc p) bytes (s.covers (loc p) bytes) answer
  | .scratchAt bytes => (.success, s.scratchAt bytes addr answer)
  | _ => (.success, s)

/-- `Through cap loc s calls t rest`: from `s` the calls lead to `t`, where `rest` of them are left; so
far each has succeeded. -/
inductive Through (cap : Nat) (loc : Ptr → Nat) :
    Registry → List Call → Registry → List Call → Prop
  | refl (s : Registry) (calls : List Call) : Through cap loc s calls s calls
  | step {s t : Registry} {c : Call} {calls rest : List Call} (answer : Result) (addr : Nat)
      (hok : (s.call cap loc answer addr c).1 = .success)
      (h : Through cap loc (s.call cap loc answer addr c).2 calls t rest) :
      Through cap loc s (c :: calls) t rest

/-- Once a collective's adds have all returned success, each range it added is covered by a live
registration for as long as the collective runs. -/
def StaysPinned (cap : Nat) (loc : Ptr → Nat) (s : Registry) (calls : List Call) : Prop :=
  ∀ t rest, Through cap loc s calls t rest → Lacks Call.isAdd rest →
    ∀ p bytes, Call.regAdd p bytes ∈ calls → loc p ≠ 0 → bytes ≠ 0 → t.covers (loc p) bytes = true

/-- Every byte of the first range is in the second. -/
def Within (a la b lb : Nat) : Prop := b ≤ a ∧ a + la ≤ b + lb

instance (a la b lb : Nat) : Decidable (Within a la b lb) := inferInstanceAs (Decidable (_ ∧ _))

/-- The second add of a collective takes the registration of the first range: it has to evict, in a
cache of one place that the first add has just filled, or in a full cache whose oldest entry is all
that covers the first range. -/
def Loses (cap : Nat) (s : Registry) (a la b lb : Nat) : Prop :=
  (a ≠ 0 ∧ la ≠ 0 ∧ b ≠ 0 ∧ lb ≠ 0 ∧ ¬ Within a la b lb) ∧
  ((cap = 1 ∧ s.covers a la = false ∧ ¬ Within b lb a la ∧
      ∀ r ∈ s.regions, r.covers b lb = true → r.birth ∈ s.mrCache.map MrCacheEntry.handle) ∨
    (cap ≤ s.mrCache.length ∧ s.covers a la = true ∧ s.covers b lb = false ∧
      ∀ r ∈ s.regions, r.covers a la = true → s.mrCache.head?.map MrCacheEntry.handle = some r.birth))

instance (cap : Nat) (s : Registry) (a la b lb : Nat) : Decidable (Loses cap s a la b lb) :=
  inferInstanceAs (Decidable (_ ∧ (_ ∧ _ ∧ _ ∧ (∀ r ∈ _, _ → _) ∨ _ ∧ _ ∧ _ ∧ ∀ r ∈ _, _ → _)))

section Work

variable {cap : Nat} {loc : Ptr → Nat} {s t : Registry} {calls rest : List Call}

theorem Ordered.call (h : Ordered cap s) (hcap : 0 < cap) (answer : Result) (addr : Nat) (c : Call) :
    Ordered cap (s.call cap loc answer addr c).2 := by
  cases c with
  | regAdd p bytes => exact h.addCached hcap 0 (loc p) bytes answer
  | scratchAt bytes => exact h.scratchAt bytes addr answer
  | _ => exact h

theorem Through.ordered (ht : Through cap loc s calls t rest) (hcap : 0 < cap) (h : Ordered cap s) :
    Ordered cap t := by
  induction ht with
  | refl => exact h
  | step answer addr _ _ ih => exact ih (h.call hcap answer addr _)

/-- Calls that touch no registration. -/
theorem Through.still (ht : Through cap loc s calls t rest) (hl : Lacks Call.isBook calls) : t = s := by
  induction ht with
  | refl => rfl
  | @step s t c calls rest answer addr hok _ ih =>
    have hsame : (s.call cap loc answer addr c).2 = s := by
      have hc := hl c List.mem_cons_self
      cases c with
      | regAdd p bytes => cases hc
      | scratchAt bytes => cases hc
      | _ => rfl
    rw [hsame] at ih
    exact ih fun x hx => hl x (List.mem_cons_of_mem _ hx)

/-- What is left of two lists of calls. -/
theorem Through.append {a b : List Call} (ht : Through cap loc s (a ++ b) t rest) :
    (∃ left, rest = left ++ b) ∨ ∃ m, Through cap loc s a m [] ∧ Through cap loc m b t rest := by
  induction a generalizing s with
  | nil => exact .inr ⟨s, .refl s [], ht⟩
  | cons c a ih =>
    cases ht with
    | refl => exact .inl ⟨c :: a, rfl⟩
    | step answer addr hok h =>
      rcases ih h with hleft | ⟨m, ha, hb⟩
      · exact .inl hleft
      · exact .inr ⟨m, .step answer addr hok ha, hb⟩

/-- A region that growing scratch does not take. -/
def Kept (r : Region) (t : Registry) : Prop := r ∈ t.regions ∧ t.scratchRegHandle ≠ some r.birth

theorem kept_scratchAt {r : Region} (h : Ordered cap s) (hk : Kept r s) (bytes addr : Nat)
    (answer : Result) : Kept r (s.scratchAt bytes addr answer) := by
  refine ⟨scratchAt_regions h hk.1 hk.2, ?_⟩
  have hlt := h.owned.birth_lt hk.1
  unfold Registry.scratchAt
  rw [deregAll_eq]
  split
  · simp only
    split
    · intro heq
      have : s.issued = r.birth := Option.some.inj heq
      omega
    · exact fun heq => by cases heq
  · exact hk.2

theorem Through.kept {r : Region} (ht : Through cap loc s calls t rest) (hcap : 0 < cap)
    (hl : Lacks Call.isAdd calls) (h : Ordered cap s) (hk : Kept r s) : r ∈ t.regions := by
  induction ht with
  | refl => exact hk.1
  | @step s t c calls rest answer addr hok _ ih =>
    refine ih (fun x hx => hl x (List.mem_cons_of_mem _ hx)) (h.call hcap answer addr c) ?_
    have hc := hl c List.mem_cons_self
    cases c with
    | regAdd p bytes => cases hc
    | scratchAt bytes => exact kept_scratchAt h hk bytes addr answer
    | _ => exact hk

/-- A successful add covers its range and leaves scratch alone. -/
theorem add_covers (h : Ordered cap s) (hcap : 0 < cap) {scope ptr bytes : Nat} {answer : Result}
    (hptr : ptr ≠ 0) (hbytes : bytes ≠ 0)
    (hok : (s.add cap scope ptr bytes (s.covers ptr bytes) answer).1 = .success) :
    (s.add cap scope ptr bytes (s.covers ptr bytes) answer).2.covers ptr bytes = true := by
  rw [add_eq h hcap] at hok ⊢
  by_cases hcov : s.covers ptr bytes = true
  · rw [if_pos (.inr (.inr hcov))]
    exact hcov
  · have hnew : ¬ (ptr = 0 ∨ bytes = 0 ∨ s.covers ptr bytes = true) := by
      rintro (hp | hb | hc)
      · exact hptr hp
      · exact hbytes hb
      · exact hcov hc
    rw [if_neg hnew] at hok ⊢
    split at hok
    · rename_i hans
      rw [if_pos hans]
      obtain ⟨regions, deregs, heq, hmem⟩ := mrCachePut_spec h hcap ptr bytes
      rw [heq]
      exact covers_iff.mpr ⟨_, (hmem _).mpr (.inl rfl),
        region_covers_iff.mpr ⟨Nat.le_refl _, Nat.le_refl _⟩⟩
    · rename_i hans
      exact absurd hok hans

theorem add_scratch (cap : Nat) (s : Registry) (scope ptr bytes : Nat) (covered : Bool)
    (answer : Result) :
    (s.add cap scope ptr bytes covered answer).2.scratchRegHandle = s.scratchRegHandle := by
  have hevict : ∀ t : Registry, t.evict.scratchRegHandle = t.scratchRegHandle := by
    intro t
    unfold Registry.evict
    split
    · rfl
    · rfl
  unfold Registry.add
  split
  · rfl
  split
  · rfl
  split
  · split
    · rename_i hget
      obtain ⟨es, -, rfl⟩ := Option.map_eq_some_iff.mp hget
      rfl
    · split
      · unfold Registry.mrCachePut
        split
        · rfl
        · simp only
          split
          · exact hevict _
          · rfl
      · rfl
  split
  · rfl
  · rfl

/-- An add that makes an entry evicts the only registration of the first range. -/
def Drops (cap : Nat) (s : Registry) (a la b lb : Nat) : Prop :=
  b ≠ 0 ∧ lb ≠ 0 ∧ s.covers b lb = false ∧ ¬ Within a la b lb ∧ cap ≤ s.mrCache.length ∧
    ∀ r ∈ s.regions, r.covers a la = true → s.mrCache.head?.map MrCacheEntry.handle = some r.birth

/-- **The second add.** -/
theorem covers_add_iff (h : Ordered cap s) (hcap : 0 < cap) {a la b lb : Nat} {answer : Result}
    (hcov : s.covers a la = true)
    (hok : (s.add cap 0 b lb (s.covers b lb) answer).1 = .success) :
    (s.add cap 0 b lb (s.covers b lb) answer).2.covers a la = true ↔ ¬ Drops cap s a la b lb := by
  rw [add_eq h hcap] at hok ⊢
  by_cases hold : b = 0 ∨ lb = 0 ∨ s.covers b lb = true
  · rw [if_pos hold]
    refine iff_of_true hcov ?_
    rintro ⟨hb, hlb, hnot, -⟩
    rcases hold with h0 | h0 | hc
    · exact hb h0
    · exact hlb h0
    · rw [hc] at hnot
      cases hnot
  rw [if_neg hold] at hok ⊢
  split at hok
  · rename_i hans
    rw [if_pos hans]
    obtain ⟨hb, hrest⟩ := not_or.mp hold
    obtain ⟨hlb, hnot⟩ := not_or.mp hrest
    obtain ⟨regions, deregs, heq, hmem⟩ := mrCachePut_spec h hcap b lb
    rw [heq]
    -- what still covers the first range is the new region or an old one that was not evicted
    have hiff : ({ s with
        regions := regions, issued := s.issued + 1, deregs := deregs,
        mrCache := s.kept cap ++ [⟨b, lb, s.issued, s.mrClock + 1⟩],
        mrClock := s.mrClock + 1 } : Registry).covers a la = true ↔
        Within a la b lb ∨ ∃ r ∈ s.regions, r.covers a la = true ∧ r.birth ∉ s.evicted cap := by
      rw [covers_iff]
      constructor
      · rintro ⟨r, hr, hc⟩
        rcases (hmem r).mp hr with rfl | ⟨hr, hev⟩
        · exact .inl (region_covers_iff.mp hc)
        · exact .inr ⟨r, hr, hc, hev⟩
      · rintro (hw | ⟨r, hr, hc, hev⟩)
        · exact ⟨_, (hmem _).mpr (.inl rfl), region_covers_iff.mpr hw⟩
        · exact ⟨r, (hmem r).mpr (.inr ⟨hr, hev⟩), hc⟩
    rw [hiff]
    unfold Drops Registry.evicted
    constructor
    · rintro (hw | ⟨r, hr, hc, hev⟩) ⟨-, -, -, hnw, hfull, hall⟩
      · exact hnw hw
      · rw [if_pos hfull, hall r hr hc] at hev
        exact hev (List.mem_singleton_self _)
    · intro hd
      refine Classical.byContradiction fun hne => hd ?_
      obtain ⟨hnw, hall⟩ := not_or.mp hne
      have hevicted : ∀ r ∈ s.regions, r.covers a la = true → r.birth ∈
          if cap ≤ s.mrCache.length then (s.mrCache.head?.map MrCacheEntry.handle).toList else [] :=
        fun r hr hc => Classical.byContradiction fun hev => hall ⟨r, hr, hc, hev⟩
      obtain ⟨r₀, hr₀, hc₀⟩ := covers_iff.mp hcov
      have hfull : cap ≤ s.mrCache.length := by
        refine Classical.byContradiction fun hroom => ?_
        have := hevicted r₀ hr₀ hc₀
        rw [if_neg hroom] at this
        exact List.not_mem_nil this
      refine ⟨hb, hlb, Bool.eq_false_iff.mpr hnot, hnw, hfull, fun r hr hc => ?_⟩
      have := hevicted r hr hc
      rw [if_pos hfull] at this
      exact Option.mem_toList.mp this
  · rename_i hans
    exact absurd hok hans

/-- The first add, and what it means for the second. -/
theorem drops_iff_loses (h : Ordered cap s) (hcap : 0 < cap) {a la b lb : Nat} {answer : Result}
    (ha : a ≠ 0) (hla : la ≠ 0) (hok : (s.add cap 0 a la (s.covers a la) answer).1 = .success) :
    Drops cap (s.add cap 0 a la (s.covers a la) answer).2 a la b lb ↔ Loses cap s a la b lb := by
  rw [add_eq h hcap] at hok ⊢
  unfold Loses
  by_cases hcov : s.covers a la = true
  · rw [if_pos (.inr (.inr hcov))]
    unfold Drops
    rw [hcov]
    constructor
    · rintro ⟨hb, hlb, hnot, hnw, hfull, hall⟩
      exact ⟨⟨ha, hla, hb, hlb, hnw⟩, .inr ⟨hfull, rfl, hnot, hall⟩⟩
    · rintro ⟨⟨-, -, hb, hlb, hnw⟩, ⟨-, hf, -⟩ | ⟨hfull, -, hnot, hall⟩⟩
      · cases hf
      · exact ⟨hb, hlb, hnot, hnw, hfull, hall⟩
  have hnew : ¬ (a = 0 ∨ la = 0 ∨ s.covers a la = true) := by
    rintro (hp | hb | hc)
    · exact ha hp
    · exact hla hb
    · exact hcov hc
  rw [if_neg hnew] at hok ⊢
  split at hok
  · rename_i hans
    rw [if_pos hans]
    have hord := h.put hcap (Bool.eq_false_iff.mpr hcov)
    obtain ⟨regions, deregs, heq, hmem⟩ := mrCachePut_spec h hcap a la
    rw [heq] at hord ⊢
    have hsize := h.owned.cache.size
    -- with one place the cache is the new entry alone
    have hone : cap = 1 → s.kept cap = [] ∧ ∀ x, x ∈ s.evicted cap ↔
        x ∈ s.mrCache.map MrCacheEntry.handle := by
      rintro rfl
      unfold Registry.kept Registry.evicted
      cases hes : s.mrCache with
      | nil => exact ⟨rfl, fun x => by simp⟩
      | cons e es =>
        rw [hes, List.length_cons] at hsize
        obtain rfl : es = [] := List.eq_nil_of_length_eq_zero (by omega)
        exact ⟨rfl, fun x => by simp⟩
    unfold Drops
    simp only
    constructor
    · rintro ⟨hb, hlb, hnot, hnw, hfull, hall⟩
      have hhead := hall ⟨a, la, s.issued⟩ ((hmem _).mpr (.inl rfl))
        (region_covers_iff.mpr ⟨Nat.le_refl _, Nat.le_refl _⟩)
      -- the first entry is the new one, so that it is alone
      have hkept : s.kept cap = [] := by
        cases hk : s.kept cap with
        | nil => rfl
        | cons e es =>
          have he : e ∈ s.mrCache := by
            have : e ∈ s.kept cap := hk ▸ List.mem_cons_self
            unfold Registry.kept at this
            split at this
            · exact List.mem_of_mem_tail this
            · exact this
          have hlt := h.owned.lt_issued (x := e.handle) (by
            rw [owned_eq]
            exact List.mem_append_left _ (List.mem_map_of_mem he))
          rw [hk] at hhead
          have : e.handle = s.issued := Option.some.inj hhead
          omega
      have hcap1 : cap = 1 := by
        rw [hkept] at hfull
        have : cap ≤ 1 := hfull
        omega
      refine ⟨⟨ha, hla, hb, hlb, hnw⟩, .inl ⟨hcap1, Bool.eq_false_iff.mpr hcov, fun hw => ?_,
        fun r hr hc => Classical.byContradiction fun hne => ?_⟩⟩
      · exact Bool.eq_false_iff.mp hnot
          (covers_iff.mpr ⟨_, (hmem _).mpr (.inl rfl), region_covers_iff.mpr hw⟩)
      · exact Bool.eq_false_iff.mp hnot (covers_iff.mpr ⟨r, (hmem r).mpr
          (.inr ⟨hr, fun hev => hne (((hone hcap1).2 _).mp hev)⟩), hc⟩)
    · rintro ⟨⟨-, -, hb, hlb, hnw⟩, ⟨hcap1, -, hnw', hall⟩ | ⟨-, hc, -⟩⟩
      · refine ⟨hb, hlb, ?_, hnw, ?_, fun r hr hc => ?_⟩
        · refine Bool.eq_false_iff.mpr fun hc => ?_
          obtain ⟨r, hr, hc⟩ := covers_iff.mp hc
          rcases (hmem r).mp hr with rfl | ⟨hr, hev⟩
          · exact hnw' (region_covers_iff.mp hc)
          · exact hev (((hone hcap1).2 _).mpr (hall r hr hc))
        · rw [(hone hcap1).1, hcap1]
          exact Nat.le_refl _
        · rcases (hmem r).mp hr with rfl | ⟨hr, hev⟩
          · rw [(hone hcap1).1]
            rfl
          · exact absurd (covers_iff.mpr ⟨r, hr, hc⟩) hcov
      · exact absurd hc hcov
  · rename_i hans
    exact absurd hok hans

end Work

/-! ## Every collective from every history of adds -/

/-- Scratch has not been asked for. -/
def NoScratch (_ : Registry) : RegOp → Prop
  | .scratchAt _ _ _ => False
  | _ => True

theorem Traced.no_scratch {cap : Nat} {s : Registry} {past : List (Nat × Nat)}
    (h : Traced cap NoScratch s past) : s.scratchRegHandle = none := by
  induction h with
  | init => rfl
  | @step s past op hs hop hc hn ih =>
    have hkeep : ∀ (self addr bytes : Nat) (mapped : Option Nat),
        (s.keep self addr bytes mapped).scratchRegHandle = none := by
      intro self addr bytes mapped
      unfold Registry.keep
      split
      · exact ih
      · exact ih
    cases op with
    | enter => exact ih
    | add scope ptr bytes covered answer => exact (add_scratch ..).trans ih
    | leave scope =>
      simp only [regStep, Registry.leave]
      rw [deregAll_eq]
      exact ih
    | scratchAt bytes addr answer => exact absurd hn id
    | commRegister buff bytes out self answer =>
      simp only [regStep, Registry.commRegister]
      split
      · exact ih
      split
      · exact ih
      · exact hkeep ..
    | commRegisterDmaBuf fd bytes out mapped self answer =>
      simp only [regStep, Registry.commRegisterDmaBuf]
      split
      · exact ih
      split
      · exact ih
      split
      · exact ih
      · exact hkeep ..
    | commDeregister handle =>
      simp only [regStep, Registry.commDeregister]
      split
      · exact ih
      split
      · exact ih
      · unfold Registry.flushMrCache
        simp only
        rw [deregAll_eq, deregAll_eq]
        exact ih

section Collectives

variable {cap : Nat} {loc : Ptr → Nat} {s t : Registry} {rest : List Call}

/-- One range, before scratch is asked for. -/
theorem stays_ahead (hcap : 0 < cap) (h : Ordered cap s) (hs : s.scratchRegHandle = none) {p : Ptr}
    {bytes : Nat} {cs : List Call} (hl : Lacks Call.isAdd cs) :
    StaysPinned cap loc s (Call.regAdd p bytes :: cs) := by
  intro t rest ht hrest q b hq hptr hbytes
  obtain ⟨rfl, rfl⟩ : q = p ∧ b = bytes := by
    rcases List.mem_cons.mp hq with heq | hq
    · exact ⟨(Call.regAdd.inj heq).1, (Call.regAdd.inj heq).2⟩
    · cases hl _ hq
  cases ht with
  | refl => cases hrest _ List.mem_cons_self
  | step answer addr hok ht =>
    have hcov := add_covers h hcap hptr hbytes hok
    obtain ⟨r, hr, hc⟩ := covers_iff.mp hcov
    refine covers_iff.mpr ⟨r, ht.kept hcap hl (h.call hcap answer addr (.regAdd q b)) ⟨hr, ?_⟩, hc⟩
    have hnone : (s.add cap 0 (loc q) b (s.covers (loc q) b) answer).2.scratchRegHandle = none :=
      (add_scratch ..).trans hs
    show (s.add cap 0 (loc q) b (s.covers (loc q) b) answer).2.scratchRegHandle ≠ _
    rw [hnone]
    exact (Option.some_ne_none _).symm

/-- One range, and no scratch is asked for later. -/
theorem stays_behind (hcap : 0 < cap) (h : Ordered cap s) {p : Ptr} {bytes : Nat}
    {pre cs : List Call} (hpre : Lacks Call.isAdd pre) (hl : Lacks Call.isBook cs) :
    StaysPinned cap loc s (pre ++ Call.regAdd p bytes :: cs) := by
  intro t rest ht hrest q b hq hptr hbytes
  obtain ⟨rfl, rfl⟩ : q = p ∧ b = bytes := by
    rcases List.mem_append.mp hq with hq | hq
    · cases hpre _ hq
    rcases List.mem_cons.mp hq with heq | hq
    · exact ⟨(Call.regAdd.inj heq).1, (Call.regAdd.inj heq).2⟩
    · cases hl _ hq
  rcases ht.append with ⟨left, rfl⟩ | ⟨m, hm, ht⟩
  · cases hrest _ (List.mem_append_right _ List.mem_cons_self)
  cases ht with
  | refl => cases hrest _ List.mem_cons_self
  | step answer addr hok ht =>
    rw [ht.still hl]
    exact add_covers (hm.ordered hcap h) hcap hptr hbytes hok

/-- Two ranges: the second is covered, and the first is unless the second add drops it. -/
theorem stays_pair_iff (hcap : 0 < cap) (h : Ordered cap s) {p q : Ptr} {la lb : Nat}
    {cs : List Call} (hl : Lacks Call.isBook cs) :
    StaysPinned cap loc s (Call.regAdd p la :: Call.regAdd q lb :: cs) ↔
      ¬ Loses cap s (loc p) la (loc q) lb := by
  constructor
  · -- both adds succeed, and nothing else happens
    intro hstay hlose
    have ha := hlose.1.1
    have hla := hlose.1.2.1
    have hok : ∀ {u : Registry} (hu : Ordered cap u) (ptr bytes : Nat),
        (u.add cap 0 ptr bytes (u.covers ptr bytes) .success).1 = .success := by
      intro u hu ptr bytes
      rw [add_eq hu hcap, if_pos rfl]
      split
      · rfl
      · rfl
    have h₁ := @Ordered.call cap loc s h hcap .success 0 (.regAdd p la)
    have hrun : Through cap loc s (Call.regAdd p la :: Call.regAdd q lb :: cs) _ cs :=
      .step .success 0 (hok h (loc p) la) (.step .success 0 (hok h₁ (loc q) lb) (.refl _ cs))
    have hcov := hstay _ _ hrun hl.isAdd p la List.mem_cons_self ha hla
    have hfirst := add_covers h hcap ha hla (hok h (loc p) la)
    exact (covers_add_iff h₁ hcap hfirst (hok h₁ (loc q) lb)).mp hcov
      ((drops_iff_loses h hcap ha hla (hok h (loc p) la)).mpr hlose)
  · intro hkeep t rest ht hrest x b hx hptr hbytes
    cases ht with
    | refl => cases hrest _ List.mem_cons_self
    | step answer₁ addr₁ hok₁ ht =>
      cases ht with
      | refl => cases hrest _ List.mem_cons_self
      | step answer₂ addr₂ hok₂ ht =>
        have h₁ := @Ordered.call cap loc s h hcap answer₁ addr₁ (.regAdd p la)
        rw [ht.still hl]
        rcases List.mem_cons.mp hx with heq | hx
        · obtain ⟨rfl, rfl⟩ := Call.regAdd.inj heq
          have hfirst := add_covers h hcap hptr hbytes hok₁
          refine (covers_add_iff h₁ hcap hfirst hok₂).mpr fun hd => hkeep ?_
          exact (drops_iff_loses h hcap hptr hbytes hok₁).mp hd
        rcases List.mem_cons.mp hx with heq | hx
        · obtain ⟨rfl, rfl⟩ := Call.regAdd.inj heq
          exact add_covers h₁ hcap hptr hbytes hok₂
        · cases hl _ hx

end Collectives

/-- **When the buffers of a collective stay pinned.** From any history of adds, and of registrations
of the user's, a collective with one buffer keeps it pinned; one with two does unless its second add
takes the registration of the first range. -/
theorem buffers_stay_pinned_iff (cap : Nat) (hcap : 0 < cap) (s : Registry)
    (past : List (Nat × Nat)) (h : Traced cap NoScratch s past) (loc : Ptr → Nat)
    (gatherEnv reduceEnv : AlgoEnv) (n r : Nat) (job : Job) :
    StaysPinned cap loc s (job.calls gatherEnv reduceEnv n r) ↔
      ∀ p q la lb cs, job.calls gatherEnv reduceEnv n r =
        Call.regAdd p la :: Call.regAdd q lb :: cs → ¬ Loses cap s (loc p) la (loc q) lb := by
  have hord := h.ordered
  have hone : ∀ {calls : List Call}, Pins calls → (StaysPinned cap loc s calls ↔
      ∀ p q la lb cs, calls = Call.regAdd p la :: Call.regAdd q lb :: cs →
        ¬ Loses cap s (loc p) la (loc q) lb) := by
    intro calls hp
    cases hp with
    | idle hl =>
      refine iff_of_true (fun t rest _ _ p bytes hm _ _ => ?_) fun p q la lb cs heq => ?_
      · cases hl _ hm
      · cases hl (.regAdd p la) (heq ▸ List.mem_cons_self)
    | ahead p bytes hl =>
      refine iff_of_true (stays_ahead hcap hord h.no_scratch hl) fun p' q la lb cs heq => ?_
      obtain ⟨-, rfl⟩ := List.cons.inj heq
      cases hl _ List.mem_cons_self
    | @behind p bytes pre cs hpre hl =>
      refine iff_of_true (stays_behind hcap hord hpre hl) fun p' q la lb cs' heq => ?_
      cases pre with
      | nil =>
        obtain ⟨-, rfl⟩ := List.cons.inj heq
        cases hl _ List.mem_cons_self
      | cons c pre =>
        obtain ⟨rfl, -⟩ := List.cons.inj heq
        cases hpre _ List.mem_cons_self
    | pair p q la lb hl =>
      rw [stays_pair_iff hcap hord hl]
      constructor
      · intro hkeep p' q' la' lb' cs' heq
        obtain ⟨h₁, heq⟩ := List.cons.inj heq
        obtain ⟨h₂, -⟩ := List.cons.inj heq
        obtain ⟨rfl, rfl⟩ := Call.regAdd.inj h₁
        obtain ⟨rfl, rfl⟩ := Call.regAdd.inj h₂
        exact hkeep
      · exact fun hall => hall p q la lb _ rfl
  exact hone (pins_job gatherEnv reduceEnv n r job)

/-- The user's buffers, 64 KiB apart. -/
def buffersAt (p : Ptr) : Nat :=
  match p.obj with
  | .scratch => 0
  | .user id => 65536 * (id + 1) + p.off

/-- `vcclAllToAll` of 32 bytes for each of two ranks, from buffer `i` to buffer `j`. -/
def exchange (i j : Nat) : Job := .allToAll ⟨.user i, 0⟩ ⟨.user j, 0⟩ 8 .float32

/-- Through a cache of two places that holds one other range. -/
theorem buffers_stay_pinned_two :
    StaysPinned 2 buffersAt (addRun 2 [262144]).1 ((exchange 0 1).calls ⟨none, none⟩ ⟨none, none⟩ 2 0) := by
  refine (buffers_stay_pinned_iff 2 (by decide) _ _ ((Traced.init.step .enter trivial trivial
    trivial).step (.add 0 262144 64 false .success) (by decide) (by decide) trivial) buffersAt
    ⟨none, none⟩ ⟨none, none⟩ 2 0 (exchange 0 1)).mpr fun p q la lb cs heq => ?_
  obtain ⟨h₁, heq⟩ := List.cons.inj heq
  obtain ⟨h₂, -⟩ := List.cons.inj heq
  obtain ⟨rfl, rfl⟩ := Call.regAdd.inj h₁
  obtain ⟨rfl, rfl⟩ := Call.regAdd.inj h₂
  decide

/-- **The first buffer is not pinned any more**: in a cache of one place, and in one of two places
whose older entry is the first buffer's. -/
theorem first_buffer_unpinned :
    (Traced 1 NoScratch (addRun 1 []).1 (addRun 1 []).2 ∧
      ¬ StaysPinned 1 buffersAt (addRun 1 []).1
        ((exchange 0 1).calls ⟨none, none⟩ ⟨none, none⟩ 2 0)) ∧
    (Traced 2 NoScratch (addRun 2 [65536, 262144]).1 (addRun 2 [65536, 262144]).2 ∧
      ¬ StaysPinned 2 buffersAt (addRun 2 [65536, 262144]).1
        ((exchange 0 1).calls ⟨none, none⟩ ⟨none, none⟩ 2 0)) := by
  have h₁ : Traced 1 NoScratch (addRun 1 []).1 (addRun 1 []).2 :=
    Traced.init.step .enter trivial trivial trivial
  have h₂ : Traced 2 NoScratch (addRun 2 [65536, 262144]).1 (addRun 2 [65536, 262144]).2 :=
    ((Traced.init.step .enter trivial trivial trivial).step (.add 0 65536 64 false .success)
      (by decide) (by decide) trivial).step (.add 0 262144 64 false .success) (by decide) (by decide)
      trivial
  have hquiet : ∀ cs : List Call, cs = ((exchange 0 1).calls ⟨none, none⟩ ⟨none, none⟩ 2 0).drop 2 →
      Lacks Call.isBook cs := by
    rintro _ rfl
    unfold Lacks
    decide
  exact ⟨⟨h₁, fun hstay => (stays_pair_iff (by decide) h₁.ordered (hquiet _ rfl)).mp hstay (by decide)⟩,
    h₂, fun hstay => (stays_pair_iff (by decide) h₂.ordered (hquiet _ rfl)).mp hstay (by decide)⟩

end Vccl
