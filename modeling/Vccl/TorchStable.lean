import Vccl.TorchComm

/-!
# Who keeps a returned tensor (`torch_comm.py`)

`all_reduce` returns its input. `all_gather` and `reduce_scatter` end in `reshape` and `contiguous`,
which copy out of the receive buffer only where the strides ask for it; otherwise the result is a
view of the buffer, which the next call of that shape fills again. `Call.lends` is that buffer, from
shapes alone, and `Call.fills` the buffers that a call writes to.

A `Session` is one rank's run: the state and the tensors returned so far. Between calls the caller
does what it likes with the heap. `Sound` is the invariant: a returned tensor lies in a buffer only
if some call has lent that buffer.
-/

namespace Vccl.Torch

open Strided

variable {α : Type}

/-! ## Calls and runs -/

/-- A call of the communicator. -/
inductive Call where
  | allReduce (input : Tensor)
  | allGather (input : Tensor) (dim : Int)
  | reduceScatter (input : Tensor) (dim : Int)
  deriving DecidableEq, Repr

namespace Call

/-- The tensor that is passed. -/
def input : Call → Tensor
  | .allReduce input | .allGather input _ | .reduceScatter input _ => input

def run (worldSize : Nat) (ans : Answers α) : Call → Py α Tensor
  | .allReduce input => Torch.allReduce worldSize ans input
  | .allGather input dim => Torch.allGather worldSize ans input dim
  | .reduceScatter input dim => Torch.reduceScatter worldSize ans input dim

/-- The place that `reduce_scatter` moves the first axis to. -/
def axis (input : Tensor) (dim : Int) : Nat := (wrapDim input.shape.length dim).toNat

/-- The buffers that a call fills. -/
def fills (worldSize : Nat) : Call → List BufKey
  | .allReduce input => [⟨.ar, input.shape, input.dtype⟩]
  | .allGather input _ => gatherKeys worldSize input
  | .reduceScatter input dim =>
    if -(input.shape.length : Int) ≤ dim ∧ dim < input.shape.length then
      scatterKeys worldSize (moveFirst (axis input dim) input.shape) input.dtype
    else []

/-- The receive buffer of an `all_gather` with the rank axis moved to `dim`. -/
def gatherLayout (worldSize : Nat) (shape : List Nat) (dim : Int) : View :=
  (View.whole 0 (worldSize :: shape)).movedim0 (wrapDim (shape.length + 1) dim).toNat

/-- The receive buffer that the result is a view of, if it is one. -/
def lends (worldSize : Nat) : Call → Option BufKey
  | .allReduce _ => none
  | .allGather input dim =>
    let dim := wrapDim input.shape.length dim
    match item? input.shape dim with
    | some n =>
      if ((gatherLayout worldSize input.shape dim).viewAs
          (gatheredShape worldSize dim input.shape n)).isSome then
        some ⟨.agOut, worldSize :: input.shape, input.dtype⟩
      else none
    | none => none
  | .reduceScatter input dim =>
    let shape := scatterShape worldSize (moveFirst (axis input dim) input.shape)
    if ((View.whole 0 shape).movedim0 (axis input dim)).isContiguous then
      some ⟨.rsOut, shape, input.dtype⟩
    else none

/-- The storages of the caller's that a call writes to. -/
def writes : Call → List Nat
  | .allReduce input => [input.storage]
  | _ => []

end Call

/-- A rank's run so far. -/
structure Session (α : Type) where
  state : State α
  returned : List (Call × Tensor)

/-- What happens next: a call, or something of the caller's own, that allocates some storages and
leaves these contents. -/
inductive Event (α : Type) where
  | call (c : Call) (ans : Answers α)
  | own (fresh : Nat) (cells : Nat → Nat → α)

namespace Session

/-- A new communicator. -/
def start (heap : Heap α) : Session α := ⟨⟨heap, fun _ => none⟩, []⟩

variable (worldSize : Nat)

def step (σ : Session α) : Event α → Session α
  | .call c ans =>
    match c.run worldSize ans σ.state with
    | .ok t s => ⟨s, (c, t) :: σ.returned⟩
    | .error _ s => ⟨s, σ.returned⟩
  | .own fresh cells => ⟨{ σ.state with heap := ⟨σ.state.heap.next + fresh, cells⟩ }, σ.returned⟩

/-- `P` holds of every step of a run. -/
def Along (P : Session α → Event α → Prop) : Session α → List (Event α) → Prop
  | _, [] => True
  | σ, e :: es => P σ e ∧ Along P (σ.step worldSize e) es

/-- The caller passes a tensor it can have: one in memory of its own or of a returned tensor. -/
def Legal (σ : Session α) : Event α → Prop
  | .call c _ => c.input.storage < σ.state.heap.next ∧
    ∀ k t, σ.state.buffers k = some t → t.storage = c.input.storage →
      ∃ p ∈ σ.returned, p.2.storage = c.input.storage
  | .own _ _ => True

/-- A call does not fill a buffer that an earlier call returned a view of, and an `all_reduce` gets
no other tensor that shares memory with a returned one. -/
def Careful (σ : Session α) : Event α → Prop
  | .call c _ => (∀ p ∈ σ.returned, ∀ k, p.1.lends worldSize = some k → k ∉ c.fills worldSize) ∧
    ∀ p ∈ σ.returned, c = .allReduce p.2 ∨ p.2.storage ∉ c.writes
  | .own _ _ => True

/-- A call does not change what an earlier call returned, unless it is an `all_reduce` of just that
tensor. -/
def Stable (σ : Session α) : Event α → Prop
  | .call c ans => ∀ p ∈ σ.returned, c ≠ .allReduce p.2 → ∀ idx, InShape p.2.shape idx →
    (σ.step worldSize (.call c ans)).state.heap.get p.2.toView idx =
      σ.state.heap.get p.2.toView idx
  | .own _ _ => True

end Session

/-! ## One call -/

section Calls

variable {s : State α} {worldSize : Nat}

/-- Where the result of a call lies. -/
def Call.Returns (worldSize : Nat) (c : Call) (s' : State α) (t : Tensor) : Prop :=
  t.storage < s'.heap.next ∧
  (c = .allReduce t ∨
    (∃ k b, c.lends worldSize = some k ∧ s'.buffers k = some b ∧ t.storage = b.storage) ∨
    ∀ k b, s'.buffers k = some b → t.storage ≠ b.storage)

theorem allReduce_ends (hw : worldSize ≠ 1) (ans : Answers α) (input : Tensor) (h : Ok s)
    (ha : input.storage < s.heap.next) :
    Ends (allReduce worldSize ans input) s
      (fun t s' => Ok s' ∧
        Frame [⟨.ar, input.shape, input.dtype⟩] [input.storage] s s' ∧ t = input)
      (fun _ s' => Ok s' ∧ Frame [⟨.ar, input.shape, input.dtype⟩] [input.storage] s s') := by
  have hown : ∀ {s' : State α}, Keeps [⟨.ar, input.shape, input.dtype⟩] s s' →
      Ok s' ∧ Frame [⟨.ar, input.shape, input.dtype⟩] [input.storage] s s' := fun hkeep =>
    ⟨hkeep.1, hkeep.2.mono (List.Subset.refl _) (List.nil_subset _)⟩
  rw [allReduce, if_neg hw]
  refine .bind (staged_ends ans .ar input.shape input h ha) ?_ ?_
  · rintro e s₁ ⟨hkeep, -⟩
    exact hown hkeep
  · rintro b s₁ ⟨hkeep, hb, -, -⟩
    refine .bind (vcclDtype_ends b) ?_ ?_
    · rintro e _ ⟨rfl, -⟩
      exact hown hkeep
    · rintro dt s₁ ⟨rfl, -⟩
      refine .bind (collective_ends ans _ b.numel dt hkeep.1 b hb) ?_ ?_
      · rintro e s₂ ⟨hcoll, -⟩
        exact hown (hkeep.trans hcoll)
      · rintro _ s₂ ⟨hcoll, -, -⟩
        obtain ⟨hok, hframe⟩ := hown (hkeep.trans hcoll)
        by_cases hx : expanded input.shape input.strides = true
        · exact .bind (.of_error (Q := fun _ _ => False) (E := fun _ s' => s' = s₂) (if_pos hx) rfl)
            (by rintro e _ rfl; exact ⟨hok, hframe⟩) (fun _ _ hf => hf.elim)
        · exact .bind_ok (if_neg hx) (.pure ⟨hok.fill _ _,
            hframe.trans (.fill_own (List.mem_singleton_self _) _), rfl⟩)

theorem viewAs_isSome_congr {u v : View} (hs : u.shape = v.shape)
    (hp : ∀ idx, u.place idx = v.place idx) (shape : List Nat) :
    (u.viewAs shape).isSome = (v.viewAs shape).isSome := by
  rw [Bool.eq_iff_iff, viewAs_isSome_iff, viewAs_isSome_iff, hs]
  simp only [hp]

theorem allGather_ends (hw : worldSize ≠ 1) (ans : Answers α) (input : Tensor) (dim : Int)
    (h : Ok s) (ha : input.storage < s.heap.next) :
    Ends (allGather worldSize ans input dim) s
      (fun t s' => Keeps (gatherKeys worldSize input) s s' ∧
        (Call.allGather input dim).Returns worldSize s' t)
      (fun _ s' => Keeps (gatherKeys worldSize input) s s') := by
  rw [allGather, if_neg hw]
  refine .bind (gatherInto_ends worldSize ans input h ha) (fun _ _ he => he.1) ?_
  rintro o s₁ ⟨hkeep, ho, -, -⟩
  have hl := (hkeep.1.layout _ o ho).1
  have ha₁ := hkeep.1.allocated _ o ho
  refine .bind (movedim_ends o _) (by rintro e _ ⟨rfl, -⟩; exact hkeep) ?_
  rintro v s₁ ⟨rfl, rfl⟩
  refine .bind (item_ends input.shape _) (by rintro e _ ⟨rfl, -⟩; exact hkeep) ?_
  rintro n s₁ ⟨rfl, hn⟩
  rw [hl]
  refine .weaken (reshape_ends hkeep.1 _ _ ha₁) ?_ (by rintro e _ ⟨rfl, -⟩; exact hkeep)
  rintro t s₂ ⟨hnew, hbuf, hlt, hst, -⟩
  refine ⟨hkeep.trans (hnew.mono (List.nil_subset _)), hlt, .inr ?_⟩
  -- the receive buffer's storage does not matter to whether its layout can be reshaped
  have hview := viewAs_isSome_congr (u := (View.whole o.storage (worldSize :: input.shape)).movedim0
    (wrapDim (input.shape.length + 1) (wrapDim input.shape.length dim)).toNat)
    (v := Call.gatherLayout worldSize input.shape (wrapDim input.shape.length dim)) rfl
    (fun _ => rfl) (gatheredShape worldSize (wrapDim input.shape.length dim) input.shape n)
  by_cases hlend : ((Call.gatherLayout worldSize input.shape
      (wrapDim input.shape.length dim)).viewAs
      (gatheredShape worldSize (wrapDim input.shape.length dim) input.shape n)).isSome = true
  · refine .inl ⟨_, o, ?_, by rw [hbuf]; exact ho, (if_pos (hview.trans hlend)).mp hst⟩
    simp only [Call.lends, hn]
    exact if_pos hlend
  · have hst := (if_neg (by rw [← hview] at hlend; exact hlend)).mp hst
    refine .inr fun k b hb heq => ?_
    rw [hbuf] at hb
    have hlt := hkeep.1.allocated k b hb
    omega

theorem length_scatterShape {moved : List Nat} (h : 0 < moved.length) :
    (scatterShape worldSize moved).length = moved.length := by
  rw [scatterShape, List.length_cons, List.length_tail, Nat.sub_add_cancel h]

/-- A dimension in range is counted from the end once. -/
theorem wrapDim_inRange {n : Nat} {dim : Int} (h : -(n : Int) ≤ dim ∧ dim < n) :
    0 ≤ wrapDim n dim ∧ wrapDim n dim < n ∧ wrapDim n (wrapDim n dim) = wrapDim n dim := by
  simp only [wrapDim]
  refine ⟨?_, ?_, ?_⟩ <;> split <;> omega

theorem reduceScatter_ends (hw : worldSize ≠ 1) (ans : Answers α) (input : Tensor) (dim : Int)
    (h : Ok s) (ha : input.storage < s.heap.next) :
    Ends (reduceScatter worldSize ans input dim) s
      (fun t s' => Keeps ((Call.reduceScatter input dim).fills worldSize) s s' ∧
        (Call.reduceScatter input dim).Returns worldSize s' t)
      (fun _ s' => Keeps ((Call.reduceScatter input dim).fills worldSize) s s') := by
  rw [reduceScatter, if_neg hw, Call.fills]
  refine .ite (fun hdim => ?_) fun hdim => .throw (.refl h _)
  obtain ⟨h0, hlt, hwrap⟩ := wrapDim_inRange hdim
  have hm : input.movedim0 (wrapDim input.shape.length (wrapDim input.shape.length dim)).toNat =
      input.movedim0 (Call.axis input dim) := by rw [hwrap, Call.axis]
  rw [if_pos hdim]
  refine .bind (scatterInto_ends worldSize ans input ⟨by omega, hlt⟩ hm h ha)
    (fun _ _ he => he.1) ?_
  rintro o s₁ ⟨hkeep, ho, -⟩
  have hl := (hkeep.1.layout _ o ho).1
  have ha₁ := hkeep.1.allocated _ o ho
  have hlen : o.shape.length = input.shape.length := by
    rw [hl]
    refine (length_scatterShape ?_).trans (length_moveFirst ..)
    rw [View.movedim0, length_moveFirst]
    omega
  refine .bind (movedim_ends o _) (by rintro e _ ⟨rfl, -⟩; exact hkeep) ?_
  rintro v s₁ ⟨rfl, rfl⟩
  rw [hlen, hwrap, hl]
  refine .weaken (contiguous_ends hkeep.1 _ ha₁) ?_ (fun _ _ hf => hf.elim)
  rintro t s₂ ⟨hnew, hbuf, hlt, hst, -⟩
  refine ⟨hkeep.trans (hnew.mono (List.nil_subset _)), hlt, .inr ?_⟩
  by_cases hlend : ((View.whole 0 (scatterShape worldSize
      (moveFirst (Call.axis input dim) input.shape))).movedim0
      (Call.axis input dim)).isContiguous = true
  · exact .inl ⟨_, o, if_pos hlend, by rw [hbuf]; exact ho, (if_pos hlend).mp hst⟩
  · have hst := (if_neg hlend).mp hst
    refine .inr fun k b hb heq => ?_
    rw [hbuf] at hb
    have hlt := hkeep.1.allocated k b hb
    omega

/-- **One call**: it fills its buffers, and returns its input, a view of the buffer it lends, or a
tensor that lies in no buffer. -/
theorem call_ends (hw : worldSize ≠ 1) (c : Call) (ans : Answers α) (h : Ok s)
    (ha : c.input.storage < s.heap.next) :
    Ends (c.run worldSize ans) s
      (fun t s' => Ok s' ∧ Frame (c.fills worldSize) c.writes s s' ∧ c.Returns worldSize s' t)
      (fun _ s' => Ok s' ∧ Frame (c.fills worldSize) c.writes s s') := by
  cases c with
  | allReduce input =>
    refine .weaken (allReduce_ends hw ans input h ha) ?_ (fun _ _ he => he)
    rintro t s' ⟨hok, hf, rfl⟩
    exact ⟨hok, hf, Nat.lt_of_lt_of_le ha hf.next, .inl rfl⟩
  | allGather input dim =>
    exact .weaken (allGather_ends hw ans input dim h ha)
      (fun _ _ hq => ⟨hq.1.1, hq.1.2, hq.2⟩) (fun _ _ he => he)
  | reduceScatter input dim =>
    exact .weaken (reduceScatter_ends hw ans input dim h ha)
      (fun _ _ hq => ⟨hq.1.1, hq.1.2, hq.2⟩) (fun _ _ he => he)

end Calls

/-! ## Which calls lend a buffer -/

section Lends

variable {worldSize : Nat} {shape p q : List Nat} {n k : Nat} {dim : Int}

theorem wrapDim_natCast (n k : Nat) : wrapDim n k = k := if_neg (by omega)

/-- A dimension in range splits the shape. -/
theorem exists_axis (h : -(shape.length : Int) ≤ dim ∧ dim < shape.length) :
    ∃ p n q, shape = p ++ n :: q ∧ wrapDim shape.length dim = p.length := by
  obtain ⟨h0, hlt, -⟩ := wrapDim_inRange h
  obtain ⟨k, hk⟩ := Int.eq_ofNat_of_zero_le h0
  have hlt : k < shape.length := by omega
  refine ⟨shape.take k, shape[k], shape.drop (k + 1), ?_, ?_⟩
  · rw [List.cons_getElem_drop_succ, List.take_append_drop]
  · rw [List.length_take, Nat.min_eq_left (Nat.le_of_lt hlt), hk]

theorem item_axis (p q : List Nat) (n : Nat) : item? (p ++ n :: q) p.length = some n := by
  rw [item?, wrapDim_natCast, if_pos (by omega), Int.toNat_natCast,
    List.getElem?_append_right (Nat.le_refl _), Nat.sub_self, List.getElem?_cons_zero]

theorem gatheredShape_axis (worldSize : Nat) (p q : List Nat) (n : Nat) :
    gatheredShape worldSize p.length (p ++ n :: q) n = p ++ (worldSize * n) :: q := by
  have hnext : wrapDim (p ++ n :: q).length ((p.length : Int) + 1) = (p.length + 1 : Nat) :=
    wrapDim_natCast ..
  rw [gatheredShape, sliceTo, sliceFrom, hnext, wrapDim_natCast, Int.toNat_natCast,
    Int.toNat_natCast, List.take_left, ← List.drop_drop, List.drop_left, List.drop_one,
    List.tail_cons]

/-- The receive buffer of a gather: the rank axis steps over a whole tensor. -/
theorem gatherLayout_axis (worldSize : Nat) (p q : List Nat) (n : Nat) :
    (Call.gatherLayout worldSize (p ++ n :: q) p.length).shape = p ++ worldSize :: n :: q ∧
    (Call.gatherLayout worldSize (p ++ n :: q) p.length).strides =
      (rowStrides p).map (· * (n :: q).prod) ++
        (p ++ n :: q).prod :: q.prod :: rowStrides q := by
  have hlen : ((rowStrides p).map (· * (n :: q).prod)).length = p.length := by
    rw [List.length_map, length_rowStrides]
  simp only [Call.gatherLayout, View.movedim0, View.whole, wrapDim_natCast, Int.toNat_natCast]
  refine ⟨moveFirst_append .., ?_⟩
  rw [rowStrides, rowStrides_append, ← hlen, moveFirst_append]
  rfl

/-- **When an `all_gather` lends its receive buffer**: when the axis has size one, or all axes before
it have. -/
theorem allGather_lends_iff (hw : 2 ≤ worldSize) (input : Tensor)
    (hdim : -(input.shape.length : Int) ≤ dim ∧ dim < input.shape.length)
    (hpos : 0 < input.shape.prod) :
    ((Call.allGather input dim).lends worldSize).isSome ↔
      input.shape[Call.axis input dim]? = some 1 ∨
      ∀ n ∈ input.shape.take (Call.axis input dim), n = 1 := by
  obtain ⟨p, n, q, hshape, hwrap⟩ := exists_axis hdim
  have haxis : Call.axis input dim = p.length := by rw [Call.axis, hwrap, Int.toNat_natCast]
  obtain ⟨hs, hst⟩ := gatherLayout_axis worldSize p q n
  have hlen : ((rowStrides p).map (· * (n :: q).prod)).length = p.length := by
    rw [List.length_map, length_rowStrides]
  have hpos' := hpos
  rw [hshape, List.prod_append, List.prod_cons] at hpos'
  have hnumel : 0 < (Call.gatherLayout worldSize (p ++ n :: q) p.length).numel := by
    rw [View.numel, Call.gatherLayout, View.movedim0, prod_moveFirst, View.whole, List.prod_cons,
      ← hshape]
    exact Nat.mul_pos (by omega) hpos
  have hmerge := viewAs_merge_iff hs hst hlen hnumel
  have hones : (p ++ n :: q).prod = n * q.prod ↔ ∀ n ∈ p, n = 1 := by
    rw [List.prod_append, List.prod_cons,
      Nat.mul_eq_right (Nat.pos_iff_ne_zero.mp (Nat.pos_of_mul_pos_left hpos'))]
    exact ⟨fun h1 m hm => Nat.dvd_one.mp (h1 ▸ List.dvd_prod hm), List.prod_eq_one⟩
  rw [hones, or_iff_right (by omega)] at hmerge
  rw [haxis, hshape, List.take_left, List.getElem?_append_right (Nat.le_refl _), Nat.sub_self,
    List.getElem?_cons_zero, Option.some.injEq, ← hmerge]
  rw [hshape] at hwrap
  simp only [Call.lends, hshape, hwrap, item_axis, gatheredShape_axis, Option.isSome_ite]

/-- **When a `reduce_scatter` lends its receive buffer**: when each rank gets one slice, or the axes
that the slices move past all have size one. -/
theorem reduceScatter_lends_iff (input : Tensor) {c : Nat}
    (hout : scatterShape worldSize (moveFirst (Call.axis input dim) input.shape) = c :: (p ++ q))
    (hp : p.length = Call.axis input dim) (hpos : 0 < (c :: (p ++ q)).prod) :
    ((Call.reduceScatter input dim).lends worldSize).isSome ↔ c = 1 ∨ ∀ n ∈ p, n = 1 := by
  have hcont := isContiguous_movedim0_iff (v := .whole 0 (c :: (p ++ q))) rfl rfl hpos
  rw [← hp] at hout
  simp only [Call.lends, ← hp, hout, Option.isSome_ite]
  exact hcont

end Lends

/-! ## A run -/

section Runs

variable {worldSize : Nat} {σ : Session α}

/-- What holds of a run: a returned tensor lies in a buffer only if the buffer was lent. -/
structure Session.Sound (worldSize : Nat) (σ : Session α) : Prop where
  ok : Ok σ.state
  allocated : ∀ p ∈ σ.returned, p.2.storage < σ.state.heap.next
  lent : ∀ p ∈ σ.returned, ∀ k b, σ.state.buffers k = some b → b.storage = p.2.storage →
    ∃ q ∈ σ.returned, q.1.lends worldSize = some k

/-- The state after a call. -/
theorem step_call (c : Call) (ans : Answers α) (hw : worldSize ≠ 1) (h : σ.Sound worldSize)
    (hl : σ.Legal (.call c ans)) :
    Ok (σ.step worldSize (.call c ans)).state ∧
    Frame (c.fills worldSize) c.writes σ.state (σ.step worldSize (.call c ans)).state ∧
    ∀ p ∈ (σ.step worldSize (.call c ans)).returned, p ∈ σ.returned ∨
      p.1 = c ∧ c.Returns worldSize (σ.step worldSize (.call c ans)).state p.2 := by
  have hends := call_ends hw c ans h.ok hl.1
  rw [Session.step]
  cases hrun : c.run worldSize ans σ.state with
  | ok t s' =>
    obtain ⟨hok, hf, hret⟩ := hends.1 t s' hrun
    refine ⟨hok, hf, fun p hp => ?_⟩
    rcases List.mem_cons.mp hp with rfl | hp
    · exact .inr ⟨rfl, hret⟩
    · exact .inl hp
  | error e s' =>
    obtain ⟨hok, hf⟩ := hends.2 e s' hrun
    exact ⟨hok, hf, fun p hp => .inl hp⟩

theorem sound_start (heap : Heap α) : (Session.start heap).Sound worldSize := by
  refine ⟨⟨?_, ?_, ?_, ?_⟩, ?_, ?_⟩ <;> rintro _ _ <;> (try rintro _ _) <;> simp_all [Session.start]

theorem returned_step (c : Call) (ans : Answers α) :
    σ.returned ⊆ (σ.step worldSize (.call c ans)).returned := by
  rw [Session.step]
  cases c.run worldSize ans σ.state with
  | ok t s' => exact List.subset_cons_self _ _
  | error e s' => exact List.Subset.refl _

/-- **Every step keeps the invariant.** -/
theorem sound_step (hw : worldSize ≠ 1) (h : σ.Sound worldSize) {e : Event α} (hl : σ.Legal e) :
    (σ.step worldSize e).Sound worldSize := by
  cases e with
  | own fresh cells =>
    exact ⟨h.ok.alloc (Nat.le_add_right _ _),
      fun p hp => Nat.lt_of_lt_of_le (h.allocated p hp) (Nat.le_add_right _ _), h.lent⟩
  | call c ans =>
    obtain ⟨hok, hf, hret⟩ := step_call c ans hw h hl
    have hsub := @returned_step α worldSize σ c ans
    -- a buffer in memory that existed before is an old one
    have hold : ∀ x < σ.state.heap.next, ∀ k b,
        (σ.step worldSize (.call c ans)).state.buffers k = some b → b.storage = x →
        σ.state.buffers k = some b := by
      intro x hx k b hb hbx
      rcases hf.fresh k b hb with hb | hnew
      · exact hb
      · omega
    refine ⟨hok, fun p hp => ?_, fun p hp k b hb hst => ?_⟩
    · rcases hret p hp with hp | ⟨-, hr⟩
      · exact Nat.lt_of_lt_of_le (h.allocated p hp) hf.next
      · exact hr.1
    · rcases hret p hp with hp' | ⟨rfl, -, hr⟩
      · obtain ⟨q, hq, hlend⟩ := h.lent p hp' k b (hold _ (h.allocated p hp') k b hb hst) hst
        exact ⟨q, hsub hq, hlend⟩
      · rcases hr with hin | ⟨k', b', hlend, hb', hst'⟩ | hfree
        · have hinput : p.1.input = p.2 := by rw [hin]; rfl
          have hb₀ := hold _ hl.1 k b hb (by rw [hinput]; exact hst)
          obtain ⟨p', hp', hsame⟩ := hl.2 k b hb₀ (by rw [hinput]; exact hst)
          rw [hinput] at hsame
          obtain ⟨q, hq, hlend⟩ := h.lent p' hp' k b hb₀ (hst.trans hsame.symm)
          exact ⟨q, hsub hq, hlend⟩
        · rw [hok.apart k b k' b' hb hb' (hst.trans hst')]
          exact ⟨p, hp, hlend⟩
        · exact absurd hst.symm (hfree k b hb)

/-- **A careful step** changes no returned tensor. -/
theorem stable_step (hw : worldSize ≠ 1) (h : σ.Sound worldSize) {e : Event α} (hl : σ.Legal e)
    (hc : σ.Careful worldSize e) : σ.Stable worldSize e := by
  cases e with
  | own fresh cells => exact trivial
  | call c ans =>
    obtain ⟨-, hf, -⟩ := step_call c ans hw h hl
    intro p hp hne idx _
    have hcells := hf.cells p.2.storage (h.allocated p hp) ((hc.2 p hp).resolve_left hne)
      fun k b hb hst hmem => by
        obtain ⟨q, hq, hlend⟩ := h.lent p hp k b hb hst
        exact hc.1 q hq k hlend hmem
    rw [Heap.get, Heap.get, hcells]

/-- **Returned tensors are stable in every careful run.** -/
theorem returned_tensors_stable (hw : 2 ≤ worldSize) (heap : Heap α) (es : List (Event α))
    (hlegal : (Session.start heap).Along worldSize Session.Legal es)
    (hcareful : (Session.start heap).Along worldSize (Session.Careful worldSize) es) :
    (Session.start heap).Along worldSize (Session.Stable worldSize) es := by
  have hrun : ∀ (es : List (Event α)) (σ : Session α), σ.Sound worldSize →
      σ.Along worldSize Session.Legal es → σ.Along worldSize (Session.Careful worldSize) es →
      σ.Along worldSize (Session.Stable worldSize) es := by
    intro es
    induction es with
    | nil => exact fun _ _ _ _ => trivial
    | cons e es ih =>
      intro σ h hl hc
      exact ⟨stable_step (by omega) h hl.1 hc.1,
        ih _ (sound_step (by omega) h hl.1) hl.2 hc.2⟩
  exact hrun es _ (sound_start heap) hlegal hcareful

end Runs

/-! ### Two calls of one shape -/

/-- A heap with the one-element tensors `[1]` and `[2]`. -/
def twoTensors : Heap Nat := ⟨2, fun x _ => x + 1⟩

/-- The one-element tensor in storage `x`. -/
def single (x : Nat) : Tensor := ⟨.whole x [1], .float32⟩

/-- A C library for two ranks that pass the same. -/
def twice : Answers Nat := ⟨fun _ => .success, fun n _ f => (.success, fun j => f (j % n))⟩

/-- A gather of `[1]`. -/
def firstGather : Event Nat := .call (.allGather (single 0) 0) twice

/-- What it returns lies in the receive buffer, the second new storage. -/
theorem firstGather_step : ((Session.start twoTensors).step 2 firstGather).returned =
    [(.allGather (single 0) 0, ⟨.whole 3 [2], .float32⟩)] := by
  rfl

theorem legal_first (c : Call) (hx : c.input.storage < 2) (ans : Answers Nat) :
    (Session.start twoTensors).Legal (.call c ans) :=
  ⟨hx, fun _ _ hb => by cases hb⟩

theorem legal_second (c : Call) (hx : c.input.storage < 2) (ans : Answers Nat) :
    ((Session.start twoTensors).step 2 firstGather).Legal (.call c ans) := by
  obtain ⟨-, hf, -⟩ := step_call (.allGather (single 0) 0) twice (by decide : (2 : Nat) ≠ 1)
    (sound_start twoTensors) (legal_first _ (by decide) twice)
  refine ⟨Nat.lt_of_lt_of_le hx hf.next, fun k b hb hst => ?_⟩
  rcases hf.fresh k b hb with hb | hnew
  · cases hb
  · have hle : 2 ≤ b.storage := hnew
    omega

/-- Gathering `[2]` afterwards changes the result of gathering `[1]`. -/
theorem gathered_tensor_overwritten :
    (Session.start twoTensors).Along 2 Session.Legal
      [firstGather, .call (.allGather (single 1) 0) twice] ∧
    ¬ (Session.start twoTensors).Along 2 (Session.Stable 2)
      [firstGather, .call (.allGather (single 1) 0) twice] := by
  refine ⟨⟨legal_first _ (by decide) twice, legal_second _ (by decide) twice, trivial⟩, ?_⟩
  rintro ⟨-, hstable, -⟩
  have hmem : (Call.allGather (single 0) 0, (⟨.whole 3 [2], .float32⟩ : Tensor)) ∈
      ((Session.start twoTensors).step 2 firstGather).returned := by
    rw [firstGather_step]
    exact List.mem_singleton_self _
  have hread := hstable _ hmem (by decide) [0] (.cons (by decide) .nil)
  have hafter : (((Session.start twoTensors).step 2 firstGather).step 2
      (.call (.allGather (single 1) 0) twice)).state.heap.get (.whole 3 [2]) [0] = 2 := by rfl
  have hbefore : ((Session.start twoTensors).step 2 firstGather).state.heap.get
      (.whole 3 [2]) [0] = 1 := by rfl
  rw [show (⟨.whole 3 [2], .float32⟩ : Tensor).toView = .whole 3 [2] from rfl, hafter,
    hbefore] at hread
  exact absurd hread (by decide)

theorem returned_tensors_stable_reduce :
    (Session.start twoTensors).Along 2 (Session.Stable 2)
      [firstGather, .call (.allReduce (single 1)) twice] := by
  refine returned_tensors_stable (by decide) twoTensors _
    ⟨legal_first _ (by decide) twice, legal_second _ (by decide) twice, trivial⟩
    ⟨⟨fun _ hp => (List.not_mem_nil hp).elim, fun _ hp => (List.not_mem_nil hp).elim⟩, ⟨fun p hp k hk => ?_, fun p hp => ?_⟩,
      trivial⟩
  · rw [firstGather_step] at hp
    cases List.mem_singleton.mp hp
    have hlend : (Call.allGather (single 0) 0).lends 2 = some ⟨.agOut, [2, 1], .float32⟩ := by
      decide
    cases hlend.symm.trans hk
    decide
  · rw [firstGather_step] at hp
    cases List.mem_singleton.mp hp
    exact .inr (by decide)

end Vccl.Torch
