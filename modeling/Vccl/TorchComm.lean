import Vccl.Comm
import Vccl.Raises
import Vccl.Strided

/-!
# The torch communicator (`torch_comm.py`)

`VcclCommunicator` of one rank: a heap of torch storages and `_buffers`, the persistent staging
tensors by role, shape and dtype. A method is a program that changes these and may raise; what an
exception leaves behind stays. What the C library answers during a call is an argument (`Answers`):
what registering a buffer returns, and what a collective returns and leaves in its receive buffer,
given the values in the send buffer. The handle that `_buf` keeps beside a tensor is read by
`destroy` alone and left out.

`Ok` is the invariant: a buffer is row-major, has elements, and has a storage of its own. `Frame` is
what a piece of a method may change: the buffers of some keys, some storages the caller names, and
what did not exist before.
-/

namespace Vccl.Torch

open Strided

/-! ## Tensors and errors -/

/-- `torch.dtype`; `other` are those that `_TORCH_DTYPE` has no entry for. -/
inductive Dtype where
  | int8 | uint8 | int32 | int64 | float16 | float32 | float64 | bfloat16
  | other (code : Nat)
  deriving DecidableEq, Repr

/-- `_TORCH_DTYPE`. -/
def torchDtype : Dtype → Option DataType
  | .int8 => some .int8
  | .uint8 => some .uint8
  | .int32 => some .int32
  | .int64 => some .int64
  | .float16 => some .float16
  | .float32 => some .float32
  | .float64 => some .float64
  | .bfloat16 => some .bfloat16
  | .other _ => none

/-- `torch.Tensor`. -/
structure Tensor extends View where
  dtype : Dtype
  deriving DecidableEq, Repr

/-- What a method raises; `TypeError` says that `dtype` is not supported by vccl. -/
inductive PyError where
  | assertionError
  | indexError
  | runtimeError
  | typeError (dtype : Dtype)
  | vcclError (result : Result) (what : String)
  deriving DecidableEq, Repr

/-- The first part of a key of `_buffers`: `"ar"`, `"ag_in"`, `"ag_out"`, `"rs_in"`, `"rs_out"`. -/
inductive Role where
  | ar | agIn | agOut | rsIn | rsOut
  deriving DecidableEq, Repr

/-- A key of `_buffers`. -/
structure BufKey where
  role : Role
  shape : List Nat
  dtype : Dtype
  deriving DecidableEq, Repr

/-- The heap, and `_buffers` of the communicator. -/
structure State (α : Type) where
  heap : Heap α
  buffers : BufKey → Option Tensor

/-- What the C library answers during one call. `collective` gets the count, the type and the values
in the send buffer. -/
structure Answers (α : Type) where
  regMr : Role → Result
  collective : Nat → DataType → (Nat → α) → Result × (Nat → α)

/-- A piece of a method. -/
abbrev Py (α β : Type) := EStateM PyError (State α) β

variable {α : Type}

/-! ## Torch operations -/

/-- `torch.empty`. -/
def torchEmpty (shape : List Nat) (dtype : Dtype) : Py α Tensor := fun s =>
  .ok ⟨(s.heap.empty shape).1, dtype⟩ { s with heap := (s.heap.empty shape).2 }

/-- `contiguous`. -/
def contiguous (t : Tensor) : Py α Tensor := fun s =>
  .ok ⟨(s.heap.contiguous t.toView).1, t.dtype⟩ { s with heap := (s.heap.contiguous t.toView).2 }

/-- `copy_`, between tensors of one shape; torch refuses to write to an expanded tensor. -/
def copy_ (dst src : Tensor) : Py α Unit := fun s =>
  if expanded dst.shape dst.strides then .error .runtimeError s
  else .ok () { s with heap := s.heap.fill dst.toView (s.heap.flat src.toView) }

/-- A dimension counted from the end if it is negative. -/
def wrapDim (n : Nat) (dim : Int) : Int := if dim < 0 then dim + n else dim

/-- `movedim(0, dim)`. -/
def movedim (t : Tensor) (dim : Int) : Py α Tensor :=
  if -(t.shape.length : Int) ≤ dim ∧ dim < t.shape.length then
    pure ⟨t.movedim0 (wrapDim t.shape.length dim).toNat, t.dtype⟩
  else throw .indexError

/-- `reshape`. -/
def reshape (t : Tensor) (shape : List Nat) : Py α Tensor := fun s =>
  if shape.prod = t.numel then
    .ok ⟨(s.heap.reshape t.toView shape).1, t.dtype⟩
      { s with heap := (s.heap.reshape t.toView shape).2 }
  else .error .runtimeError s

/-- `xs[i]` of a Python tuple, if it is there. -/
def item? (xs : List Nat) (i : Int) : Option Nat :=
  if 0 ≤ wrapDim xs.length i then xs[(wrapDim xs.length i).toNat]? else none

/-- `xs[i]`. -/
def item (xs : List Nat) (i : Int) : Py α Nat :=
  match item? xs i with
  | some x => pure x
  | none => throw .indexError

/-- `xs[:i]`. -/
def sliceTo (xs : List Nat) (i : Int) : List Nat := xs.take (wrapDim xs.length i).toNat

/-- `xs[i:]`. -/
def sliceFrom (xs : List Nat) (i : Int) : List Nat := xs.drop (wrapDim xs.length i).toNat

/-! ## Calls into the C library -/

/-- `_vccl_dtype`. -/
def vcclDtype (t : Tensor) : Py α DataType :=
  match torchDtype t.dtype with
  | some dt => pure dt
  | none => throw (.typeError t.dtype)

/-- `register`; `vcclCommRegister` refuses a buffer of no bytes. -/
def register (ans : Answers α) (role : Role) (t : Tensor) : Py α Unit :=
  if t.numel = 0 then throw (.vcclError .invalidArgument "vcclCommRegister")
  else if ans.regMr role = .success then pure ()
  else throw (.vcclError (ans.regMr role) "vcclCommRegister")

/-- A collective of the C library, on contiguous tensors. -/
def collective (ans : Answers α) (what : String) (count : Nat) (dt : DataType)
    (send recv : Tensor) : Py α Unit := fun s =>
  let (res, values) := ans.collective count dt (s.heap.flat send.toView)
  let s' := { s with heap := s.heap.fill recv.toView values }
  if res = .success then .ok () s' else .error (.vcclError res what) s'

/-- `_buf`. -/
def buf (ans : Answers α) (role : Role) (shape : List Nat) (dtype : Dtype) : Py α Tensor := do
  let s ← get
  match s.buffers ⟨role, shape, dtype⟩ with
  | some t => pure t
  | none =>
    let t ← torchEmpty shape dtype
    let t ← contiguous t
    register ans role t
    modify fun s => { s with buffers := Function.update s.buffers ⟨role, shape, dtype⟩ (some t) }
    pure t

/-- `_buf`, then `copy_` into it. -/
def staged (ans : Answers α) (role : Role) (shape : List Nat) (src : Tensor) : Py α Tensor := do
  let t ← buf ans role shape src.dtype
  copy_ t src
  pure t

/-! ## The methods -/

section Methods

variable (worldSize : Nat) (ans : Answers α) (input : Tensor) (dim : Int)

/-- `all_reduce`. -/
def allReduce : Py α Tensor :=
  if worldSize = 1 then pure input
  else do
    let buf ← staged ans .ar input.shape input
    let dt ← vcclDtype buf
    collective ans "vcclAllReduce" buf.numel dt buf buf
    copy_ input buf
    pure input

/-- `all_gather` before the collective: the send and the receive buffer. -/
def gatherBuffers : Py α (Tensor × Tensor) := do
  let t ← staged ans .agIn input.shape input
  let output ← buf ans .agOut (worldSize :: input.shape) input.dtype
  pure (t, output)

/-- `all_gather` with the collective: the receive buffer. -/
def gatherInto : Py α Tensor := do
  let (t, output) ← gatherBuffers worldSize ans input
  let dt ← vcclDtype t
  collective ans "vcclAllGather" t.numel dt t output
  pure output

/-- The shape that `all_gather` reshapes to, where axis `dim` has size `n`. -/
def gatheredShape (shape : List Nat) (n : Nat) : List Nat :=
  sliceTo shape dim ++ (worldSize * n) :: sliceFrom shape (dim + 1)

/-- `all_gather`. -/
def allGather : Py α Tensor :=
  if worldSize = 1 then pure input
  else do
    let dim := wrapDim input.shape.length dim
    let output ← gatherInto worldSize ans input
    let output ← movedim output dim
    let n ← item input.shape dim
    reshape output (gatheredShape worldSize dim input.shape n)

/-- `reduce_scatter` before the collective: the send and the receive buffer. -/
def scatterBuffers : Py α (Tensor × Tensor) := do
  let moved ← movedim input dim
  let inputTensor ← staged ans .rsIn moved.shape moved
  let size ← item inputTensor.shape 0
  if size % worldSize = 0 then do
    let outputTensor ←
      buf ans .rsOut (size / worldSize :: sliceFrom inputTensor.shape 1) inputTensor.dtype
    pure (inputTensor, outputTensor)
  else throw .assertionError

/-- `reduce_scatter` with the collective: the receive buffer. -/
def scatterInto : Py α Tensor := do
  let (inputTensor, outputTensor) ← scatterBuffers worldSize ans input dim
  let dt ← vcclDtype inputTensor
  collective ans "vcclReduceScatter" outputTensor.numel dt inputTensor outputTensor
  pure outputTensor

/-- `reduce_scatter`. -/
def reduceScatter : Py α Tensor :=
  if worldSize = 1 then pure input
  else if -(input.shape.length : Int) ≤ dim ∧ dim < input.shape.length then do
    let dim := wrapDim input.shape.length dim
    let outputTensor ← scatterInto worldSize ans input dim
    let moved ← movedim outputTensor dim
    contiguous moved
  else throw .assertionError

end Methods

/-! ## The invariant and the frame -/

/-- What `_buffers` holds: each buffer is a row-major tensor that has elements and a storage of its
own. -/
structure Ok (s : State α) : Prop where
  layout : ∀ k t, s.buffers k = some t → t.toView = .whole t.storage k.shape ∧ t.dtype = k.dtype
  allocated : ∀ k t, s.buffers k = some t → t.storage < s.heap.next
  nonempty : ∀ k t, s.buffers k = some t → 0 < k.shape.prod
  apart : ∀ k t k' t', s.buffers k = some t → s.buffers k' = some t' →
    t.storage = t'.storage → k = k'

/-- From `s` to `s'` only the buffers of `keys`, the storages `own` and new storages change. -/
structure Frame (keys : List BufKey) (own : List Nat) (s s' : State α) : Prop where
  next : s.heap.next ≤ s'.heap.next
  keep : ∀ k t, s.buffers k = some t → s'.buffers k = some t
  fresh : ∀ k t, s'.buffers k = some t → s.buffers k = some t ∨ s.heap.next ≤ t.storage
  cells : ∀ x < s.heap.next, x ∉ own → (∀ k t, s.buffers k = some t → t.storage = x → k ∉ keys) →
    s'.heap.cells x = s.heap.cells x

section Invariant

variable {s s' s'' : State α} {keys : List BufKey} {own : List Nat} {k : BufKey} {t : Tensor}

theorem Frame.refl (keys : List BufKey) (own : List Nat) (s : State α) : Frame keys own s s :=
  ⟨Nat.le_refl _, fun _ _ h => h, fun _ _ h => .inl h, fun _ _ _ _ => rfl⟩

theorem Frame.trans (h : Frame keys own s s') (h' : Frame keys own s' s'') :
    Frame keys own s s'' := by
  refine ⟨Nat.le_trans h.next h'.next, fun k t hk => h'.keep k t (h.keep k t hk), ?_, ?_⟩
  · intro k t hk
    rcases h'.fresh k t hk with hk' | hnew
    · exact h.fresh k t hk'
    · exact .inr (Nat.le_trans h.next hnew)
  · intro x hx hown hkeys
    rw [h'.cells x (Nat.lt_of_lt_of_le hx h.next) hown ?_, h.cells x hx hown hkeys]
    intro k t hk hst
    rcases h.fresh k t hk with hk' | hnew
    · exact hkeys k t hk' hst
    · omega

theorem Frame.mono {keys' : List BufKey} {own' : List Nat} (h : Frame keys own s s')
    (hk : keys ⊆ keys') (ho : own ⊆ own') : Frame keys' own' s s' :=
  ⟨h.next, h.keep, h.fresh, fun x hx hown hkeys => h.cells x hx (fun hm => hown (ho hm))
    fun k t hb hst hm => hkeys k t hb hst (hk hm)⟩

/-- Writing to a buffer. -/
theorem Frame.fill (hk : s.buffers k = some t) (hmem : k ∈ keys) (f : Nat → α) :
    Frame keys own s { s with heap := s.heap.fill t.toView f } := by
  refine ⟨Nat.le_refl _, fun _ _ h => h, fun _ _ h => .inl h, fun x _ _ hkeys => ?_⟩
  exact cells_fill t.toView f fun hx => hkeys k t hk hx.symm hmem

/-- Writing to a storage of the caller's. -/
theorem Frame.fill_own (hmem : t.storage ∈ own) (f : Nat → α) :
    Frame keys own s { s with heap := s.heap.fill t.toView f } :=
  ⟨Nat.le_refl _, fun _ _ h => h, fun _ _ h => .inl h,
    fun _ _ hown _ => cells_fill t.toView f fun hx => hown (hx ▸ hmem)⟩

theorem Ok.fill (h : Ok s) (v : View) (f : Nat → α) : Ok { s with heap := s.heap.fill v f } :=
  ⟨h.layout, h.allocated, h.nonempty, h.apart⟩

/-- New storages do not concern the buffers. -/
theorem Ok.alloc (h : Ok s) {heap : Heap α} (hn : s.heap.next ≤ heap.next) :
    Ok { s with heap := heap } :=
  ⟨h.layout, fun k t hk => Nat.lt_of_lt_of_le (h.allocated k t hk) hn, h.nonempty, h.apart⟩

/-- A new buffer. -/
theorem Ok.insert (h : Ok s) (hl : t.toView = .whole t.storage k.shape) (hd : t.dtype = k.dtype)
    (ha : t.storage < s.heap.next) (hp : 0 < k.shape.prod)
    (hfree : ∀ k' t', s.buffers k' = some t' → t'.storage ≠ t.storage) :
    Ok { s with buffers := Function.update s.buffers k (some t) } := by
  have hcase : ∀ k' t', Function.update s.buffers k (some t) k' = some t' →
      (k' = k ∧ t' = t) ∨ s.buffers k' = some t' := by
    intro k' t' hb
    by_cases hkk : k' = k
    · subst hkk
      rw [Function.update_self] at hb
      exact .inl ⟨rfl, (Option.some.inj hb).symm⟩
    · rw [Function.update_of_ne hkk] at hb
      exact .inr hb
  refine ⟨fun k' t' hb => ?_, fun k' t' hb => ?_, fun k' t' hb => ?_,
    fun k₁ t₁ k₂ t₂ hb₁ hb₂ hst => ?_⟩
  · rcases hcase k' t' hb with ⟨rfl, rfl⟩ | hb
    · exact ⟨hl, hd⟩
    · exact h.layout k' t' hb
  · rcases hcase k' t' hb with ⟨rfl, rfl⟩ | hb
    · exact ha
    · exact h.allocated k' t' hb
  · rcases hcase k' t' hb with ⟨rfl, rfl⟩ | hb
    · exact hp
    · exact h.nonempty k' t' hb
  · rcases hcase k₁ t₁ hb₁ with ⟨rfl, rfl⟩ | ho₁ <;> rcases hcase k₂ t₂ hb₂ with ⟨rfl, rfl⟩ | ho₂
    · rfl
    · exact absurd hst.symm (hfree k₂ t₂ ho₂)
    · exact absurd hst (hfree k₁ t₁ ho₁)
    · exact h.apart k₁ t₁ k₂ t₂ ho₁ ho₂ hst

end Invariant

/-! ## The pieces -/

section Pieces

variable {s : State α} {keys : List BufKey} {own : List Nat}

theorem Ok.separate (h : Ok s) {k : BufKey} {t : Tensor} (hk : s.buffers k = some t) :
    t.Separate := by
  have hd : dense t.shape t.strides = true := by
    rw [(h.layout k t hk).1]
    exact dense_rowStrides _
  exact separate_of_dense hd

theorem isContiguous_whole (storage : Nat) (shape : List Nat) :
    (View.whole storage shape).isContiguous = true := by
  rw [View.isContiguous, View.whole, dense_rowStrides, Bool.or_true]

theorem contiguous_whole (storage : Nat) (shape : List Nat) (dtype : Dtype) (s : State α) :
    contiguous ⟨.whole storage shape, dtype⟩ s = .ok ⟨.whole storage shape, dtype⟩ s := by
  rw [contiguous, Heap.contiguous, if_pos (isContiguous_whole storage shape)]

theorem register_ends (ans : Answers α) (role : Role) (t : Tensor) (s : State α) :
    Ends (register ans role t) s (fun _ s' => s' = s ∧ 0 < t.numel)
      (fun _ s' => s' = s ∧ (0 < t.numel → ans.regMr role ≠ .success)) := by
  rw [register]
  refine .ite (fun h0 => .throw ⟨rfl, fun hpos => ?_⟩) fun h0 => ?_
  · omega
  · exact .ite (fun _ => .pure ⟨rfl, Nat.pos_of_ne_zero h0⟩) fun hne => .throw ⟨rfl, fun _ => hne⟩

/-- **`_buf`** returns the buffer of its key and writes to nothing. It raises for an empty shape, or
when the registration fails. -/
theorem buf_ends (ans : Answers α) (role : Role) (shape : List Nat) (dtype : Dtype) (h : Ok s) :
    Ends (buf ans role shape dtype) s
      (fun t s' => Ok s' ∧ Frame [] [] s s' ∧ s'.buffers ⟨role, shape, dtype⟩ = some t ∧
        0 < shape.prod)
      (fun _ s' => Ok s' ∧ Frame [] [] s s' ∧ (0 < shape.prod → ans.regMr role ≠ .success)) := by
  rw [buf]
  refine @Ends.bind_ok _ _ _ _ s _ _ _ _ s s rfl ?_
  cases hk : s.buffers ⟨role, shape, dtype⟩ with
  | some t => exact .pure ⟨h, .refl [] [] s, hk, h.nonempty _ _ hk⟩
  | none =>
    have hnew : Frame [] [] s { s with heap := (s.heap.empty shape).2 } :=
      ⟨Nat.le_succ _, fun _ _ hb => hb, fun _ _ hb => .inl hb, fun _ _ _ _ => rfl⟩
    refine .bind_ok rfl (.bind_ok (contiguous_whole _ _ _ _) ?_)
    have hok : Ok { s with heap := (s.heap.empty shape).2 } := h.alloc (Nat.le_succ _)
    refine .bind (register_ends ans role _ _) ?_ ?_
    · rintro e _ ⟨rfl, hraise⟩
      exact ⟨hok, hnew, hraise⟩
    · rintro _ _ ⟨rfl, hpos⟩
      refine .bind_ok rfl (.pure ⟨hok.insert rfl rfl (Nat.lt_succ_self _) hpos ?_, ?_,
        Function.update_self .., hpos⟩)
      · intro k t hb heq
        exact absurd heq (Nat.ne_of_lt (h.allocated k t hb))
      · refine ⟨hnew.next, fun k t hb => ?_, fun k t hb => ?_, hnew.cells⟩
        · have hne : k ≠ ⟨role, shape, dtype⟩ := fun heq => by
            rw [heq, hk] at hb
            cases hb
          exact (Function.update_of_ne hne ..).trans hb
        · by_cases hkey : k = ⟨role, shape, dtype⟩
          · subst hkey
            cases (Function.update_self ..).symm.trans hb
            exact .inr (Nat.le_refl _)
          · exact .inl ((Function.update_of_ne hkey ..).symm.trans hb)

/-- The C library does what it is asked to. -/
def Answers.Good (ans : Answers α) : Prop :=
  (∀ role, ans.regMr role = .success) ∧ ∀ n dt f, (ans.collective n dt f).1 = .success

theorem flat_congr {h h' : Heap α} {v : View} (hc : h'.cells v.storage = h.cells v.storage) :
    h'.flat v = h.flat v := by
  funext k
  rw [Heap.flat, Heap.flat, Heap.get, Heap.get, hc]

/-- Staging buffers have no expanded axes. -/
theorem expanded_rowStrides {shape : List Nat} (h : 0 < shape.prod) :
    expanded shape (rowStrides shape) = false := by
  induction shape with
  | nil => rfl
  | cons n shape ih =>
    rw [List.prod_cons] at h
    have hpos : 0 < shape.prod := Nat.pos_of_mul_pos_left h
    have hne : shape.prod ≠ 0 := Nat.pos_iff_ne_zero.mp hpos
    have htail := ih hpos
    rw [expanded] at htail ⊢
    rw [rowStrides, List.zipWith_cons_cons, List.any_cons, htail, Bool.or_false, id,
      decide_eq_false_iff_not]
    exact fun hc => hne hc.2

/-- Filling a buffer with a tensor. -/
theorem copy_buffer (h : Ok s) {k : BufKey} {t : Tensor} (hk : s.buffers k = some t)
    (src : Tensor) :
    copy_ t src s = .ok () { s with heap := s.heap.fill t.toView (s.heap.flat src.toView) } := by
  have hl : t.shape = k.shape ∧ t.strides = rowStrides k.shape := by
    rw [(h.layout k t hk).1]
    exact ⟨rfl, rfl⟩
  rw [copy_, hl.1, hl.2, expanded_rowStrides (h.nonempty k t hk)]
  rfl

theorem vcclDtype_ends (t : Tensor) :
    Ends (vcclDtype t) s (fun dt s' => s' = s ∧ torchDtype t.dtype = some dt)
      (fun _ s' => s' = s ∧ torchDtype t.dtype = none) := by
  rw [vcclDtype]
  cases hdt : torchDtype t.dtype with
  | some dt => exact .pure ⟨rfl, rfl⟩
  | none => exact .throw ⟨rfl, rfl⟩

theorem movedim_ends (t : Tensor) (dim : Int) :
    Ends (movedim t dim) s
      (fun u s' => s' = s ∧ u = ⟨t.movedim0 (wrapDim t.shape.length dim).toNat, t.dtype⟩)
      (fun _ s' => s' = s ∧ ¬ (-(t.shape.length : Int) ≤ dim ∧ dim < t.shape.length)) :=
  .ite (fun _ => .pure ⟨rfl, rfl⟩) fun hno => .throw ⟨rfl, hno⟩

theorem item_ends (xs : List Nat) (i : Int) :
    Ends (item xs i) s (fun n s' => s' = s ∧ item? xs i = some n)
      (fun _ s' => s' = s ∧ item? xs i = none) := by
  rw [item]
  cases hi : item? xs i with
  | some n => exact .pure ⟨rfl, rfl⟩
  | none => exact .throw ⟨rfl, rfl⟩

/-- What a piece of a method does to the buffers of `keys`. -/
def Keeps (keys : List BufKey) (s s' : State α) : Prop := Ok s' ∧ Frame keys [] s s'

theorem Keeps.refl (h : Ok s) (keys : List BufKey) : Keeps keys s s := ⟨h, .refl ..⟩

theorem Keeps.trans {s' s'' : State α} (h : Keeps keys s s') (h' : Keeps keys s' s'') :
    Keeps keys s s'' := ⟨h'.1, h.2.trans h'.2⟩

theorem Keeps.mono {s' : State α} {keys' : List BufKey} (h : Keeps keys s s')
    (hk : keys ⊆ keys') : Keeps keys' s s' := ⟨h.1, h.2.mono hk (List.Subset.refl _)⟩

theorem Keeps.fill (h : Ok s) {k : BufKey} {t : Tensor} (hk : s.buffers k = some t)
    (hmem : k ∈ keys) (f : Nat → α) :
    Keeps keys s { s with heap := s.heap.fill t.toView f } := ⟨h.fill _ f, .fill hk hmem f⟩

/-- A tensor that existed before, and is not a buffer of `keys`, holds what it held. -/
theorem Keeps.flat {s' : State α} (h : Keeps keys s s') {v : View} (ha : v.storage < s.heap.next)
    (hkeys : ∀ k t, s.buffers k = some t → t.storage = v.storage → k ∉ keys) :
    s'.heap.flat v = s.heap.flat v :=
  flat_congr (h.2.cells v.storage ha (List.not_mem_nil) hkeys)

/-- **Staging a tensor in a buffer.** -/
theorem staged_ends (ans : Answers α) (role : Role) (shape : List Nat) (src : Tensor)
    (h : Ok s) (ha : src.storage < s.heap.next) :
    Ends (staged ans role shape src) s
      (fun t s' => Keeps [⟨role, shape, src.dtype⟩] s s' ∧
        s'.buffers ⟨role, shape, src.dtype⟩ = some t ∧ 0 < shape.prod ∧
        ∀ k < shape.prod, s'.heap.flat t.toView k = s.heap.flat src.toView k)
      (fun _ s' => Keeps [⟨role, shape, src.dtype⟩] s s' ∧
        (0 < shape.prod → ans.regMr role ≠ .success)) := by
  refine .bind (buf_ends ans role shape src.dtype h) ?_ ?_
  · rintro e s' ⟨hok, hf, hraise⟩
    exact ⟨Keeps.mono ⟨hok, hf⟩ (List.nil_subset _), hraise⟩
  · rintro t s' ⟨hok, hf, hk, hpos⟩
    have hkeep : Keeps [] s s' := ⟨hok, hf⟩
    refine .bind_ok (copy_buffer hok hk src) (.pure ⟨?_, hk, hpos, fun k hlt => ?_⟩)
    · exact (hkeep.mono (List.nil_subset _)).trans (.fill hok hk (List.mem_singleton_self _) _)
    · have hn : t.numel = shape.prod := by rw [(hok.layout _ t hk).1]; rfl
      rw [flat_fill (hok.separate hk) _ (by rw [hn]; exact hlt),
        hkeep.flat ha fun _ _ _ _ => List.not_mem_nil]

/-- **A collective between two buffers.** -/
theorem collective_ends (ans : Answers α) (what : String) (count : Nat) (dt : DataType) (h : Ok s)
    (send : Tensor) {k : BufKey} {recv : Tensor} (hk : s.buffers k = some recv) :
    Ends (collective ans what count dt send recv) s
      (fun _ s' => Keeps [k] s s' ∧ s'.buffers k = some recv ∧ ∀ j < k.shape.prod,
        s'.heap.flat recv.toView j = (ans.collective count dt (s.heap.flat send.toView)).2 j)
      (fun _ s' => Keeps [k] s s' ∧ ¬ ans.Good) := by
  have hkeep := Keeps.fill h hk (List.mem_singleton_self k)
    (ans.collective count dt (s.heap.flat send.toView)).2
  have hn : recv.numel = k.shape.prod := by rw [(h.layout _ recv hk).1]; rfl
  by_cases hres : (ans.collective count dt (s.heap.flat send.toView)).1 = .success
  · refine .of_ok (if_pos hres) ⟨hkeep, hk, fun j hj => ?_⟩
    exact flat_fill (h.separate hk) _ (by rw [hn]; exact hj)
  · exact .of_error (if_neg hres) ⟨hkeep, fun hgood => hres (hgood.2 ..)⟩

/-- A new tensor is no buffer's. -/
theorem Keeps.create (h : Ok s) (shape : List Nat) (f : Nat → α) :
    Keeps [] s { s with heap := (s.heap.create shape f).2 } :=
  ⟨h.alloc (Nat.le_succ _), Nat.le_succ _, fun _ _ hb => hb, fun _ _ hb => .inl hb,
    fun _ hx _ _ => cells_create _ _ _ hx⟩

/-- **`reshape`** returns the same memory if the strides allow it, and a new tensor otherwise. -/
theorem reshape_ends (h : Ok s) (t : Tensor) (shape : List Nat) (ha : t.storage < s.heap.next) :
    Ends (reshape t shape) s
      (fun u s' => Keeps [] s s' ∧ s'.buffers = s.buffers ∧ u.storage < s'.heap.next ∧
        (if (t.viewAs shape).isSome then u.storage = t.storage else s.heap.next ≤ u.storage) ∧
        u.shape = shape ∧ ∀ k < shape.prod, s'.heap.flat u.toView k = s.heap.flat t.toView k)
      (fun _ s' => s' = s ∧ shape.prod ≠ t.numel) := by
  by_cases hn : shape.prod = t.numel
  · refine .of_ok (if_pos hn) ?_
    refine and_assoc.mp (and_assoc.mp (and_assoc.mp ⟨?_, shape_reshape .., ?_⟩))
    · cases hv : t.viewAs shape with
      | some u =>
        have hr : s.heap.reshape t.toView shape = (u, s.heap) := by rw [Heap.reshape, hv]
        have hst := (viewAs_spec s.heap hv).1
        rw [hr]
        refine ⟨⟨⟨.refl h [], rfl⟩, ?_⟩, ?_⟩
        · exact hst ▸ ha
        · exact (if_pos rfl).mpr hst
      | none =>
        have hr : s.heap.reshape t.toView shape = s.heap.create shape (s.heap.flat t.toView) := by
          rw [Heap.reshape, hv]
        rw [hr]
        refine ⟨⟨⟨.create h .., rfl⟩, Nat.lt_succ_self _⟩, ?_⟩
        exact (if_neg Bool.false_ne_true).mpr (Nat.le_refl _)
    · intro k hk
      exact flat_reshape s.heap t.toView hk
  · exact .of_error (if_neg hn) ⟨rfl, hn⟩

/-- **`contiguous`** returns the tensor itself if it is contiguous. -/
theorem contiguous_ends (h : Ok s) (t : Tensor) (ha : t.storage < s.heap.next) :
    Ends (contiguous t) s
      (fun u s' => Keeps [] s s' ∧ s'.buffers = s.buffers ∧ u.storage < s'.heap.next ∧
        (if t.isContiguous then u.storage = t.storage else s.heap.next ≤ u.storage) ∧
        u.shape = t.shape ∧ ∀ idx, InShape t.shape idx →
          s'.heap.get u.toView idx = s.heap.get t.toView idx)
      (fun _ _ => False) := by
  refine .of_ok rfl ?_
  refine and_assoc.mp (and_assoc.mp (and_assoc.mp ⟨?_, shape_contiguous .., ?_⟩))
  · by_cases hc : t.isContiguous = true
    · have hr : s.heap.contiguous t.toView = (t.toView, s.heap) := if_pos hc
      rw [hr, if_pos hc]
      exact ⟨⟨⟨.refl h [], rfl⟩, ha⟩, rfl⟩
    · have hr : s.heap.contiguous t.toView = s.heap.create t.shape (s.heap.flat t.toView) :=
        if_neg hc
      rw [hr, if_neg hc]
      exact ⟨⟨⟨.create h .., rfl⟩, Nat.lt_succ_self _⟩, Nat.le_refl _⟩
  · intro idx hi
    exact get_contiguous s.heap t.toView hi

end Pieces

/-! ## The methods, up to the collective -/

section Stages

variable {s : State α}

/-- The buffers of an `all_gather`. -/
def gatherKeys (worldSize : Nat) (input : Tensor) : List BufKey :=
  [⟨.agIn, input.shape, input.dtype⟩, ⟨.agOut, worldSize :: input.shape, input.dtype⟩]

theorem gatherBuffers_ends (worldSize : Nat) (ans : Answers α) (input : Tensor) (h : Ok s)
    (ha : input.storage < s.heap.next) :
    Ends (gatherBuffers worldSize ans input) s
      (fun p s' => Keeps (gatherKeys worldSize input) s s' ∧
        s'.buffers ⟨.agIn, input.shape, input.dtype⟩ = some p.1 ∧
        s'.buffers ⟨.agOut, worldSize :: input.shape, input.dtype⟩ = some p.2 ∧
        0 < input.shape.prod ∧
        ∀ k < input.shape.prod, s'.heap.flat p.1.toView k = s.heap.flat input.toView k)
      (fun _ s' => Keeps (gatherKeys worldSize input) s s' ∧
        (0 < worldSize → 0 < input.shape.prod → ¬ ans.Good)) := by
  refine .bind (staged_ends ans .agIn input.shape input h ha) ?_ ?_
  · rintro e s₁ ⟨hkeep, hraise⟩
    exact ⟨hkeep.mono (by simp [gatherKeys]), fun _ hpos hgood => hraise hpos (hgood.1 _)⟩
  · rintro t s₁ ⟨hkeep, hk, hpos, hflat⟩
    have hkeep' : Keeps (gatherKeys worldSize input) s s₁ := hkeep.mono (by simp [gatherKeys])
    refine .bind (buf_ends ans .agOut _ input.dtype hkeep.1) ?_ ?_
    · rintro e s₂ ⟨hok, hf, hraise⟩
      refine ⟨hkeep'.trans (Keeps.mono ⟨hok, hf⟩ (List.nil_subset _)), fun hw hp hgood => ?_⟩
      exact hraise (by rw [List.prod_cons]; exact Nat.mul_pos hw hp) (hgood.1 _)
    · rintro output s₂ ⟨hok, hf, hout, -⟩
      have hnew : Keeps [] s₁ s₂ := ⟨hok, hf⟩
      refine .pure ⟨hkeep'.trans (hnew.mono (List.nil_subset _)), hf.keep _ _ hk, hout, hpos, ?_⟩
      intro k hlt
      rw [hnew.flat (hkeep.1.allocated _ t hk) fun _ _ _ _ => List.not_mem_nil, hflat k hlt]

/-- **`all_gather` up to the collective**: the receive buffer holds what the C library left in it,
given the elements of `input`. -/
theorem gatherInto_ends (worldSize : Nat) (ans : Answers α) (input : Tensor) (h : Ok s)
    (ha : input.storage < s.heap.next) :
    Ends (gatherInto worldSize ans input) s
      (fun o s' => Keeps (gatherKeys worldSize input) s s' ∧
        s'.buffers ⟨.agOut, worldSize :: input.shape, input.dtype⟩ = some o ∧
        0 < input.shape.prod ∧ ∃ dt sent, torchDtype input.dtype = some dt ∧
        (∀ k < input.shape.prod, sent k = s.heap.flat input.toView k) ∧
        ∀ j < worldSize * input.shape.prod,
          s'.heap.flat o.toView j = (ans.collective input.shape.prod dt sent).2 j)
      (fun _ s' => Keeps (gatherKeys worldSize input) s s' ∧
        (0 < worldSize → 0 < input.shape.prod → (torchDtype input.dtype).isSome → ¬ ans.Good)) := by
  refine .bind (gatherBuffers_ends worldSize ans input h ha) ?_ ?_
  · rintro e s₁ ⟨hkeep, hraise⟩
    exact ⟨hkeep, fun hw hp _ => hraise hw hp⟩
  · rintro ⟨t, output⟩ s₁ ⟨hkeep, hin, hout, hpos, hflat⟩
    have hl := hkeep.1.layout _ t hin
    refine .bind (vcclDtype_ends t) ?_ ?_
    · rintro e _ ⟨rfl, hnone⟩
      rw [hl.2] at hnone
      exact ⟨hkeep, fun _ _ hsome => by rw [hnone] at hsome; cases hsome⟩
    · rintro dt _ ⟨rfl, hdt⟩
      rw [hl.2] at hdt
      have hn : t.numel = input.shape.prod := by rw [hl.1]; rfl
      refine .bind (collective_ends ans _ t.numel dt hkeep.1 t hout) ?_ ?_
      · rintro e s₂ ⟨hcoll, hbad⟩
        exact ⟨hkeep.trans (hcoll.mono (by simp [gatherKeys])), fun _ _ _ => hbad⟩
      · rintro _ s₂ ⟨hcoll, hout', hrecv⟩
        refine .pure ⟨hkeep.trans (hcoll.mono (by simp [gatherKeys])), hout', hpos, dt, _, hdt,
          hflat, fun j hj => ?_⟩
        rw [hn] at hrecv
        exact hrecv j (by rw [List.prod_cons]; exact hj)

/-- The shape of what `reduce_scatter` stages, where the first axis has moved to `k`. -/
def scatterShape (worldSize : Nat) (moved : List Nat) : List Nat :=
  moved.headD 0 / worldSize :: moved.tail

/-- The buffers of a `reduce_scatter` that stages a tensor of shape `moved`. -/
def scatterKeys (worldSize : Nat) (moved : List Nat) (dtype : Dtype) : List BufKey :=
  ⟨.rsIn, moved, dtype⟩ ::
    if moved.headD 0 % worldSize = 0 then [⟨.rsOut, scatterShape worldSize moved, dtype⟩] else []

theorem head_tail {n : Nat} {xs : List Nat} (h : xs.length = n + 1) :
    item? xs 0 = some (xs.headD 0) ∧ xs.headD 0 * xs.tail.prod = xs.prod ∧
      sliceFrom xs 1 = xs.tail := by
  cases xs with
  | nil => cases h
  | cons x xs => exact ⟨rfl, List.prod_cons.symm, rfl⟩

theorem scatterShape_pos {worldSize : Nat} {moved : List Nat} (hw : 0 < worldSize)
    (hpos : 0 < moved.headD 0 * moved.tail.prod) (hdvd : moved.headD 0 % worldSize = 0) :
    0 < (scatterShape worldSize moved).prod := by
  rw [scatterShape, List.prod_cons]
  refine Nat.mul_pos (Nat.div_pos (Nat.le_of_dvd ?_ (Nat.dvd_of_mod_eq_zero hdvd)) hw) ?_
  · exact Nat.pos_of_mul_pos_right hpos
  · exact Nat.pos_of_mul_pos_left hpos

theorem scatterBuffers_ends (worldSize : Nat) (ans : Answers α) (input : Tensor) {dim : Int}
    (hdim : -(input.shape.length : Int) ≤ dim ∧ dim < input.shape.length) {moved : View}
    (hm : input.movedim0 (wrapDim input.shape.length dim).toNat = moved) (h : Ok s)
    (ha : input.storage < s.heap.next) :
    Ends (scatterBuffers worldSize ans input dim) s
      (fun p s' => Keeps (scatterKeys worldSize moved.shape input.dtype) s s' ∧
        s'.buffers ⟨.rsIn, moved.shape, input.dtype⟩ = some p.1 ∧
        s'.buffers ⟨.rsOut, scatterShape worldSize moved.shape, input.dtype⟩ = some p.2 ∧
        0 < moved.shape.prod ∧ moved.shape.headD 0 % worldSize = 0 ∧
        ∀ k < moved.shape.prod, s'.heap.flat p.1.toView k = s.heap.flat moved k)
      (fun _ s' => Keeps (scatterKeys worldSize moved.shape input.dtype) s s' ∧
        (0 < worldSize → 0 < moved.shape.prod → moved.shape.headD 0 % worldSize = 0 →
          ¬ ans.Good)) := by
  have hlen : moved.shape.length = (input.shape.length - 1) + 1 := by
    rw [← hm, View.movedim0, length_moveFirst]
    omega
  obtain ⟨hhead, hprod, htail⟩ := head_tail hlen
  have hst : moved.storage = input.storage := by rw [← hm]; rfl
  have hstage : [⟨.rsIn, moved.shape, input.dtype⟩] ⊆
      scatterKeys worldSize moved.shape input.dtype := by simp [scatterKeys]
  refine .bind (movedim_ends input dim) ?_ ?_
  · rintro e _ ⟨rfl, hno⟩
    exact absurd hdim hno
  · rintro _ _ ⟨rfl, rfl⟩
    rw [hm]
    refine .bind (staged_ends ans .rsIn moved.shape ⟨moved, input.dtype⟩ h (hst ▸ ha)) ?_ ?_
    · rintro e s₁ ⟨hkeep, hraise⟩
      exact ⟨hkeep.mono hstage, fun _ hpos _ hgood => hraise hpos (hgood.1 _)⟩
    · rintro t s₁ ⟨hkeep, hin, hpos, hflat⟩
      have hl := hkeep.1.layout _ t hin
      have hshape : t.shape = moved.shape := by rw [hl.1]; rfl
      refine .bind (item_ends t.shape 0) ?_ ?_
      · rintro e _ ⟨rfl, hnone⟩
        rw [hshape, hhead] at hnone
        cases hnone
      · rintro n s₁ ⟨rfl, hn⟩
        rw [hshape, hhead] at hn
        cases hn
        refine .ite (fun hdvd => ?_) fun hdvd => ?_
        · rw [hshape, htail, hl.2]
          refine .bind (buf_ends ans .rsOut (scatterShape worldSize moved.shape) input.dtype
            hkeep.1) ?_ ?_
          · rintro e s₂ ⟨hok, hf, hraise⟩
            refine ⟨(hkeep.mono hstage).trans (Keeps.mono ⟨hok, hf⟩ (List.nil_subset _)),
              fun hw hp _ hgood => ?_⟩
            exact hraise (scatterShape_pos hw (by rw [hprod]; exact hp) hdvd) (hgood.1 _)
          · rintro output s₂ ⟨hok, hf, hout, -⟩
            have hnew : Keeps [] s₁ s₂ := ⟨hok, hf⟩
            refine .pure ⟨(hkeep.mono hstage).trans (hnew.mono (List.nil_subset _)),
              hf.keep _ _ hin, hout, hpos, hdvd, fun k hk => ?_⟩
            rw [hnew.flat (hkeep.1.allocated _ t hin) fun _ _ _ _ => List.not_mem_nil, hflat k hk]
        · exact .throw ⟨hkeep.mono hstage, fun _ _ hd => absurd hd hdvd⟩

/-- **`reduce_scatter` up to the collective.** -/
theorem scatterInto_ends (worldSize : Nat) (ans : Answers α) (input : Tensor) {dim : Int}
    (hdim : -(input.shape.length : Int) ≤ dim ∧ dim < input.shape.length) {moved : View}
    (hm : input.movedim0 (wrapDim input.shape.length dim).toNat = moved) (h : Ok s)
    (ha : input.storage < s.heap.next) :
    Ends (scatterInto worldSize ans input dim) s
      (fun o s' => Keeps (scatterKeys worldSize moved.shape input.dtype) s s' ∧
        s'.buffers ⟨.rsOut, scatterShape worldSize moved.shape, input.dtype⟩ = some o ∧
        0 < moved.shape.prod ∧ moved.shape.headD 0 % worldSize = 0 ∧
        ∃ dt sent, torchDtype input.dtype = some dt ∧
        (∀ k < moved.shape.prod, sent k = s.heap.flat moved k) ∧
        ∀ j < (scatterShape worldSize moved.shape).prod, s'.heap.flat o.toView j =
          (ans.collective (scatterShape worldSize moved.shape).prod dt sent).2 j)
      (fun _ s' => Keeps (scatterKeys worldSize moved.shape input.dtype) s s' ∧
        (0 < worldSize → 0 < moved.shape.prod → moved.shape.headD 0 % worldSize = 0 →
          (torchDtype input.dtype).isSome → ¬ ans.Good)) := by
  refine .bind (scatterBuffers_ends worldSize ans input hdim hm h ha) ?_ ?_
  · rintro e s₁ ⟨hkeep, hraise⟩
    exact ⟨hkeep, fun hw hp hd _ => hraise hw hp hd⟩
  · rintro ⟨t, output⟩ s₁ ⟨hkeep, hin, hout, hpos, hdvd, hflat⟩
    have hl := hkeep.1.layout _ t hin
    have hmem : [⟨.rsOut, scatterShape worldSize moved.shape, input.dtype⟩] ⊆
        scatterKeys worldSize moved.shape input.dtype := by
      rw [scatterKeys, if_pos hdvd]
      exact List.subset_cons_self _ _
    refine .bind (vcclDtype_ends t) ?_ ?_
    · rintro e _ ⟨rfl, hnone⟩
      rw [hl.2] at hnone
      exact ⟨hkeep, fun _ _ _ hsome => by rw [hnone] at hsome; cases hsome⟩
    · rintro dt _ ⟨rfl, hdt⟩
      rw [hl.2] at hdt
      have hn : output.numel = (scatterShape worldSize moved.shape).prod := by
        rw [(hkeep.1.layout _ output hout).1]; rfl
      refine .bind (collective_ends ans _ output.numel dt hkeep.1 t hout) ?_ ?_
      · rintro e s₂ ⟨hcoll, hbad⟩
        exact ⟨hkeep.trans (hcoll.mono hmem), fun _ _ _ _ => hbad⟩
      · rintro _ s₂ ⟨hcoll, hout', hrecv⟩
        rw [hn] at hrecv
        exact .pure ⟨hkeep.trans (hcoll.mono hmem), hout', hpos, hdvd, dt, _, hdt, hflat, hrecv⟩

end Stages

end Vccl.Torch
