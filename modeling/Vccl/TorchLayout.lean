import Mathlib.Data.List.GetD
import Vccl.TorchStable

/-!
# Gathering and scattering along a dimension (`all_gather`, `reduce_scatter` of `torch_comm.py`)

All ranks of a communicator make one call, each from a state that its communicator can have reached,
with a tensor of one shape and dtype. The C collectives do what they promise: `sentBy` is what a
rank has in its send buffer, `gathered` leaves every rank's values one after another in each receive
buffer, `scattered` leaves on rank `r` the `r`-th part of the sums. So the results are determined by
layouts alone.

`all_gather` moves the rank axis before `dim` and merges the two, which concatenates along `dim`.
`reduce_scatter` stages `movedim(0, dim)` and moves its result back the same way. This brings `dim`
to the front only for the first two dimensions.
-/

namespace Vccl.Torch

open Strided

variable {α : Type}

/-! ## All ranks -/

/-- A state that a communicator can be in. -/
def Reached (worldSize : Nat) (s : State α) : Prop :=
  ∃ (heap : Heap α) (es : List (Event α)), (Session.start heap).Along worldSize Session.Legal es ∧
    s = (es.foldl (Session.step worldSize) (Session.start heap)).state

/-- What the ranks pass. -/
structure Inputs (worldSize : Nat) (shape : List Nat) (dtype : Dtype) (σ : Nat → State α)
    (x : Nat → Tensor) : Prop where
  reached : ∀ r < worldSize, Reached worldSize (σ r)
  shape : ∀ r < worldSize, (x r).shape = shape
  dtype : ∀ r < worldSize, (x r).dtype = dtype
  allocated : ∀ r < worldSize, (x r).storage < (σ r).heap.next

/-- Buffers can be registered. -/
def registering : Answers α := ⟨fun _ => .success, fun _ _ f => (.success, f)⟩

/-- The values in a rank's send buffer when it calls the C library; of no interest if it has raised
before. -/
def sentBy (before : Py α (Tensor × Tensor)) (s : State α) : Nat → α :=
  match before s with
  | .ok p s' => s'.heap.flat p.1.toView
  | .error _ s' => s'.heap.cells 0

/-- `vcclAllGather` of all ranks. -/
def gathered (sent : Nat → Nat → α) : Answers α where
  regMr _ := .success
  collective n _ _ := (.success, fun j => sent (j / n) (j % n))

/-- `vcclReduceScatter` of all ranks, on rank `r`. -/
def scattered (sum : List α → α) (worldSize : Nat) (sent : Nat → Nat → α) (r : Nat) : Answers α where
  regMr _ := .success
  collective n _ _ :=
    (.success, fun i => sum ((List.range worldSize).map fun k => sent k (r * n + i)))

section Ranks

variable (sum : List α → α) (worldSize : Nat) (σ : Nat → State α) (x : Nat → Tensor) (dim : Int)

/-- `all_gather` of all ranks, on rank `r`. -/
def gatherOn (r : Nat) : Py α Tensor :=
  allGather worldSize
    (gathered fun k => sentBy (gatherBuffers worldSize registering (x k)) (σ k)) (x r) dim

/-- `reduce_scatter` of all ranks, on rank `r`. -/
def scatterOn (r : Nat) : Py α Tensor :=
  reduceScatter worldSize
    (scattered sum worldSize (fun k => sentBy (scatterBuffers worldSize registering (x k)
      (wrapDim (x k).shape.length dim)) (σ k)) r) (x r) dim

end Ranks

theorem good_registering : (registering : Answers α).Good := ⟨fun _ => rfl, fun _ _ _ => rfl⟩

theorem good_gathered (sent : Nat → Nat → α) : (gathered sent).Good :=
  ⟨fun _ => rfl, fun _ _ _ => rfl⟩

theorem good_scattered (sum : List α → α) (worldSize : Nat) (sent : Nat → Nat → α) (r : Nat) :
    (scattered sum worldSize sent r).Good := ⟨fun _ => rfl, fun _ _ _ => rfl⟩

theorem sentBy_of_ends {before : Py α (Tensor × Tensor)} {s : State α} {Q : Nat → α → Prop}
    {n : Nat} (h : Ends before s (fun p s' => ∀ k < n, Q k (s'.heap.flat p.1.toView k))
      fun _ _ => False) : ∀ k < n, Q k (sentBy before s k) := by
  obtain ⟨p, s', hrun, hq⟩ := h.returns
  intro k hk
  rw [sentBy, hrun]
  exact hq k hk

theorem reached_ok {worldSize : Nat} (hw : 2 ≤ worldSize) {s : State α}
    (h : Reached worldSize s) : Ok s := by
  obtain ⟨heap, es, hl, rfl⟩ := h
  have hrun : ∀ (es : List (Event α)) (σ : Session α), σ.Sound worldSize →
      σ.Along worldSize Session.Legal es →
      (es.foldl (Session.step worldSize) σ).Sound worldSize := by
    intro es
    induction es with
    | nil => exact fun _ hs _ => hs
    | cons e es ih => exact fun σ hs hl => ih _ (sound_step (by omega) hs hl.1) hl.2
  exact (hrun es _ (sound_start heap) hl).ok

/-- Ranks with new communicators, and the contents of the tensor that each passes. -/
def freshState (f : Nat → α) : State α := (Session.start ⟨1, fun _ => f⟩).state

theorem inputs_fresh (worldSize : Nat) (shape : List Nat) (dtype : Dtype) (f : Nat → Nat → α) :
    Inputs worldSize shape dtype (fun j => freshState (f j)) fun _ => ⟨.whole 0 shape, dtype⟩ :=
  ⟨fun j _ => ⟨⟨1, fun _ => f j⟩, [], trivial, rfl⟩, fun _ _ => rfl, fun _ _ => rfl,
    fun _ _ => Nat.one_pos⟩

theorem get_fresh (f : Nat → α) {shape idx : List Nat} (h : InShape shape idx) :
    (freshState f).heap.get (.whole 0 shape) idx = f (ravel shape idx) := by
  have hplace : (View.whole 0 shape).place idx = 0 + ravel shape idx :=
    place_of_dense (dense_rowStrides shape) h
  rw [Heap.get, hplace, Nat.zero_add]
  rfl

theorem mul_add_div' {k n j : Nat} (hj : j < n) : (k * n + j) / n = k := by
  rw [Nat.mul_comm, Nat.mul_add_div (Nat.zero_lt_of_lt hj), Nat.div_eq_of_lt hj, Nat.add_zero]

theorem mul_add_mod' {k n j : Nat} (hj : j < n) : (k * n + j) % n = j := by
  rw [Nat.mul_comm, Nat.mul_add_mod, Nat.mod_eq_of_lt hj]

/-! ## `all_gather` -/

section Gather

variable {worldSize : Nat} {shape : List Nat} {dtype : Dtype} {σ : Nat → State α}
  {x : Nat → Tensor} {dim : Int}

/-- What a rank has in its send buffer. -/
theorem gather_sent (hw : 2 ≤ worldSize) (hx : Inputs worldSize shape dtype σ x)
    (hpos : 0 < shape.prod) {k : Nat} (hk : k < worldSize) : ∀ j < shape.prod,
    sentBy (gatherBuffers worldSize registering (x k)) (σ k) j = (σ k).heap.flat (x k).toView j := by
  refine sentBy_of_ends (Q := fun j v => v = (σ k).heap.flat (x k).toView j)
    ((gatherBuffers_ends worldSize registering (x k) (reached_ok hw (hx.reached k hk))
    (hx.allocated k hk)).weaken ?_ ?_)
  · rintro p s' ⟨-, -, -, -, hflat⟩
    rw [← hx.shape k hk]
    exact hflat
  · rintro e s' ⟨-, hbad⟩
    exact hbad (by omega) (by rw [hx.shape k hk]; exact hpos) good_registering

/-- **A gather on one rank**, with the axis at its place in the shape. -/
theorem gatherOn_ends (hw : 2 ≤ worldSize) (hx : Inputs worldSize shape dtype σ x) {r : Nat}
    (hr : r < worldSize) {p q : List Nat} {n : Nat} (hshape : shape = p ++ n :: q)
    (hwrap : wrapDim shape.length dim = p.length) :
    Ends (gatherOn worldSize σ x dim r) (σ r)
      (fun t s' => (0 < shape.prod ∧ (torchDtype dtype).isSome) ∧
        t.shape = p ++ (worldSize * n) :: q ∧
        ∀ as c bs, InShape p as → c < worldSize * n → InShape q bs →
          s'.heap.get t.toView (as ++ c :: bs) =
            (σ (c / n)).heap.get (x (c / n)).toView (as ++ c % n :: bs))
      (fun _ _ => ¬ (0 < shape.prod ∧ (torchDtype dtype).isSome)) := by
  rw [gatherOn, allGather, if_neg (by omega)]
  have hdim : wrapDim (x r).shape.length dim = p.length := by rw [hx.shape r hr, hwrap]
  have hends := gatherInto_ends worldSize
    (gathered fun k => sentBy (gatherBuffers worldSize registering (x k)) (σ k)) (x r)
    (reached_ok hw (hx.reached r hr)) (hx.allocated r hr)
  rw [hx.shape r hr, hx.dtype r hr] at hends
  simp only [hdim]
  refine .bind hends ?_ ?_
  · rintro e s₁ ⟨-, hbad⟩ ⟨hpos, hsome⟩
    exact hbad (by omega) hpos hsome (good_gathered _)
  rintro o s₁ ⟨hkeep, ho, hpos, dt, sent, hdt, -, hrecv⟩
  have hl := (hkeep.1.layout _ o ho).1
  have hsome : 0 < shape.prod ∧ (torchDtype dtype).isSome := ⟨hpos, by rw [hdt]; rfl⟩
  have hlen : o.shape = worldSize :: shape := by rw [hl]; rfl
  refine .bind (movedim_ends o p.length) ?_ ?_
  · rintro e _ ⟨rfl, hno⟩
    refine absurd ⟨by omega, ?_⟩ hno
    rw [hlen, hshape]
    simp only [List.length_cons, List.length_append]
    omega
  rintro v s₁ ⟨rfl, hv⟩
  rw [wrapDim_natCast, Int.toNat_natCast] at hv
  rw [hx.shape r hr, hshape]
  have hitem : item (p ++ n :: q) p.length s₁ = .ok n s₁ := by rw [item, item_axis]; rfl
  refine .bind_ok hitem ?_
  rw [gatheredShape_axis]
  have hvs : v.shape = p ++ worldSize :: n :: q := by
    rw [hv]
    refine (congrArg (moveFirst p.length) hlen).trans ?_
    rw [hshape, moveFirst_append]
  refine .weaken (reshape_ends hkeep.1 v _ ?_) ?_ ?_
  · rw [hv]
    exact hkeep.1.allocated _ o ho
  · rintro t s₂ ⟨-, -, -, -, hts, hflat⟩
    refine ⟨hshape ▸ hsome, hts, fun as c bs has hc hbs => ?_⟩
    have hn : 0 < n := Nat.pos_of_mul_pos_left (Nat.zero_lt_of_lt hc)
    have hk : c / n < worldSize := Nat.div_lt_of_lt_mul (by rwa [Nat.mul_comm])
    have hin : InShape shape (as ++ c % n :: bs) := by
      rw [hshape]
      exact has.axis (Nat.mod_lt c hn) hbs
    have hino : InShape o.shape (c / n :: (as ++ c % n :: bs)) := by
      rw [hlen]
      exact .cons hk hin
    have hinv : InShape v.shape (as ++ c / n :: c % n :: bs) := by
      rw [hvs]
      exact has.append (.cons hk (.cons (Nat.mod_lt c hn) hbs))
    have hsent := gather_sent hw hx hpos hk _ (ravel_lt hin)
    calc s₂.heap.get t.toView (as ++ c :: bs)
        = s₂.heap.flat t.toView (ravel (p ++ (worldSize * n) :: q) (as ++ c :: bs)) := by
          rw [get_eq_flat _ (by rw [hts]; exact has.axis hc hbs), hts]
      _ = s₁.heap.flat v.toView (ravel v.shape (as ++ c / n :: c % n :: bs)) := by
          rw [hflat _ (ravel_lt (has.axis hc hbs)), hvs, ← ravel_merge has.length_eq,
            Nat.div_add_mod']
      _ = s₁.heap.get o.toView (c / n :: (as ++ c % n :: bs)) := by
          rw [← get_eq_flat _ hinv, hv, has.length_eq]
          refine get_movedim0 s₁.heap ?_
          rw [hlen, hshape, ← has.length_eq]
          simp only [List.length_cons, List.length_append]
          omega
      _ = s₁.heap.flat o.toView (c / n * shape.prod + ravel shape (as ++ c % n :: bs)) := by
          rw [get_eq_flat _ hino, hlen, ravel]
      _ = (σ (c / n)).heap.flat (x (c / n)).toView (ravel shape (as ++ c % n :: bs)) := by
          have hlt : c / n * shape.prod + ravel shape (as ++ c % n :: bs) < worldSize * shape.prod :=
            @ravel_lt (worldSize :: shape) _ (.cons hk hin)
          rw [← hsent, hrecv _ hlt, gathered]
          simp only [mul_add_div' (ravel_lt hin), mul_add_mod' (ravel_lt hin)]
      _ = (σ (c / n)).heap.get (x (c / n)).toView (as ++ c % n :: bs) := by
          rw [get_eq_flat _ (by rw [hx.shape _ hk]; exact hin), hx.shape _ hk]
  · rintro e _ ⟨rfl, hno⟩
    refine absurd ?_ hno
    rw [View.numel, hvs]
    simp only [List.prod_append, List.prod_cons, Nat.mul_assoc]

/-- **`all_gather` concatenates along `dim`.** It returns if the dtype is one of vccl's and the
tensors have elements. -/
theorem all_gather_concatenates (hw : 2 ≤ worldSize) (hx : Inputs worldSize shape dtype σ x)
    (hdim : -(shape.length : Int) ≤ dim ∧ dim < shape.length) {r : Nat} (hr : r < worldSize)
    {k : Nat} (hk : wrapDim shape.length dim = k) :
    ((∃ t s', gatherOn worldSize σ x dim r (σ r) = .ok t s') ↔
      0 < shape.prod ∧ (torchDtype dtype).isSome) ∧
    ∀ t s', gatherOn worldSize σ x dim r (σ r) = .ok t s' →
      t.shape = shape.set k (worldSize * shape.getD k 0) ∧
      ∀ idx, InShape t.shape idx →
        idx.getD k 0 / shape.getD k 0 < worldSize ∧
        s'.heap.get t.toView idx =
          (σ (idx.getD k 0 / shape.getD k 0)).heap.get (x (idx.getD k 0 / shape.getD k 0)).toView
            (idx.set k (idx.getD k 0 % shape.getD k 0)) := by
  obtain ⟨p, n, q, hshape, hwrap⟩ := exists_axis hdim
  obtain rfl : p.length = k := by omega
  have hends := gatherOn_ends hw hx hr hshape hwrap
  have hget : shape.getD p.length 0 = n := by
    rw [hshape, List.getD_append_right _ _ _ _ (Nat.le_refl _), Nat.sub_self, List.getD_cons_zero]
  rw [hget]
  refine ⟨⟨?_, fun hcond => ?_⟩, fun t s' hrun => ?_⟩
  · rintro ⟨t, s', hrun⟩
    exact (hends.1 t s' hrun).1
  · obtain ⟨t, s', hrun, -⟩ := (hends.weaken (fun _ _ hq => hq) fun _ _ hbad => hbad hcond).returns
    exact ⟨t, s', hrun⟩
  · obtain ⟨-, hts, hget⟩ := hends.1 t s' hrun
    refine ⟨?_, fun idx hidx => ?_⟩
    · rw [hts, hshape, List.set_append_right _ _ (Nat.le_refl _), Nat.sub_self, List.set_cons_zero]
    · rw [hts] at hidx
      obtain ⟨as, c, bs, rfl, has, hc, hbs⟩ := hidx.split_axis
      have hc' : (as ++ c :: bs).getD p.length 0 = c := by
        rw [has.length_eq, List.getD_append_right _ _ _ _ (Nat.le_refl _), Nat.sub_self,
          List.getD_cons_zero]
      rw [hc']
      refine ⟨Nat.div_lt_of_lt_mul (by rwa [Nat.mul_comm]), ?_⟩
      rw [hget as c bs has hc hbs, has.length_eq, List.set_append_right _ _ (Nat.le_refl _),
        Nat.sub_self, List.set_cons_zero]

theorem all_gather_concatenates_pair :
    ∃ t s', gatherOn 2 (fun j => freshState fun addr => 10 * j + addr)
        (fun _ => ⟨.whole 0 [2, 3], .int32⟩) (-1) 0 (freshState fun addr => 10 * 0 + addr) =
          .ok t s' ∧
      t.shape = [2, 6] ∧ s'.heap.get t.toView [1, 4] = 14 := by
  obtain ⟨hreturns, hcat⟩ := all_gather_concatenates (by decide)
    (inputs_fresh 2 [2, 3] .int32 fun j addr => 10 * j + addr) (by decide : -2 ≤ (-1 : Int) ∧ -1 < 2)
    (by decide : 0 < 2) (by decide : wrapDim 2 (-1) = (1 : Nat))
  obtain ⟨t, s', hrun⟩ := hreturns.mpr ⟨by decide, rfl⟩
  obtain ⟨hshape, hget⟩ := hcat t s' hrun
  refine ⟨t, s', hrun, hshape, ?_⟩
  rw [(hget [1, 4] (by rw [hshape]; exact .cons (by decide) (.cons (by decide) .nil))).2]
  rfl

end Gather

/-! ## `reduce_scatter` -/

section Scatter

variable {sum : List α → α} {worldSize : Nat} {shape : List Nat} {dtype : Dtype}
  {σ : Nat → State α} {x : Nat → Tensor} {dim : Int} {k : Nat}

/-- The first axis and the others. -/
theorem exists_head {xs : List Nat} (h : k < xs.length) :
    ∃ n p q, xs = n :: (p ++ q) ∧ p.length = k := by
  cases xs with
  | nil => cases h
  | cons n xs =>
    refine ⟨n, xs.take k, xs.drop k, by rw [List.take_append_drop], ?_⟩
    rw [List.length_take, Nat.min_eq_left (Nat.le_of_lt_succ h)]

/-- What a rank has in its send buffer. -/
theorem scatter_sent (hw : 2 ≤ worldSize) (hx : Inputs worldSize shape dtype σ x)
    (hdim : -(shape.length : Int) ≤ dim ∧ dim < shape.length)
    (hwrap : wrapDim shape.length dim = k) (hpos : 0 < shape.prod)
    (hdvd : (moveFirst k shape).headD 0 % worldSize = 0) {r : Nat} (hr : r < worldSize) :
    ∀ j < shape.prod, sentBy (scatterBuffers worldSize registering (x r)
      (wrapDim (x r).shape.length dim)) (σ r) j = (σ r).heap.flat ((x r).movedim0 k) j := by
  obtain ⟨h0, hlt, hagain⟩ := wrapDim_inRange hdim
  have hshape := hx.shape r hr
  have hms : ((x r).movedim0 k).shape = moveFirst k shape := congrArg (moveFirst k) hshape
  have hm : (x r).movedim0 (wrapDim (x r).shape.length
      (wrapDim (x r).shape.length dim)).toNat = (x r).movedim0 k := by
    rw [hshape, hagain, hwrap, Int.toNat_natCast]
  refine sentBy_of_ends (Q := fun j v => v = (σ r).heap.flat ((x r).movedim0 k) j)
    ((scatterBuffers_ends worldSize registering (x r) ?_ hm (reached_ok hw (hx.reached r hr))
    (hx.allocated r hr)).weaken ?_ ?_)
  · rw [hshape]
    exact ⟨by omega, hlt⟩
  · rintro p s' ⟨-, -, -, -, -, hflat⟩
    rw [hms, prod_moveFirst] at hflat
    exact hflat
  · rintro e s' ⟨-, hbad⟩
    rw [hms, prod_moveFirst] at hbad
    exact hbad (by omega) hpos hdvd good_registering

/-- **A scatter on one rank**: the index of an element of the result, with the entry at `k` moved to
the front and counted from the rank's first slice on, is its index in what the ranks staged. -/
theorem scatterOn_ends (hw : 2 ≤ worldSize) (hx : Inputs worldSize shape dtype σ x)
    (hdim : -(shape.length : Int) ≤ dim ∧ dim < shape.length)
    (hwrap : wrapDim shape.length dim = k) {n : Nat} {p q : List Nat}
    (hmoved : moveFirst k shape = n :: (p ++ q)) (hp : p.length = k) {r : Nat}
    (hr : r < worldSize) :
    Ends (scatterOn sum worldSize σ x dim r) (σ r)
      (fun t s' => (0 < shape.prod ∧ (torchDtype dtype).isSome ∧ worldSize ∣ n) ∧
        t.shape = p ++ n / worldSize :: q ∧
        ∀ as i bs, InShape p as → i < n / worldSize → InShape q bs →
          s'.heap.get t.toView (as ++ i :: bs) = sum ((List.range worldSize).map fun j =>
            (σ j).heap.get ((x j).movedim0 k) ((r * (n / worldSize) + i) :: (as ++ bs))))
      (fun _ _ => ¬ (0 < shape.prod ∧ (torchDtype dtype).isSome ∧ worldSize ∣ n)) := by
  obtain ⟨h0, hlt, hagain⟩ := wrapDim_inRange hdim
  have hshape := hx.shape r hr
  have hms : ((x r).movedim0 k).shape = n :: (p ++ q) :=
    (congrArg (moveFirst k) hshape).trans hmoved
  have hm : (x r).movedim0 (wrapDim (x r).shape.length k).toNat = (x r).movedim0 k := by
    rw [wrapDim_natCast, Int.toNat_natCast]
  have hprod : (n :: (p ++ q)).prod = shape.prod := by rw [← hmoved, prod_moveFirst]
  have hlen : (n :: (p ++ q)).length = shape.length := by rw [← hmoved, length_moveFirst]
  have hout : scatterShape worldSize (n :: (p ++ q)) = n / worldSize :: (p ++ q) := rfl
  rw [scatterOn, reduceScatter, if_neg (by omega), hshape, if_pos hdim]
  have hends := scatterInto_ends worldSize (scattered sum worldSize (fun k =>
      sentBy (scatterBuffers worldSize registering (x k) (wrapDim (x k).shape.length dim)) (σ k)) r)
    (x r) (show -((x r).shape.length : Int) ≤ k ∧ (k : Int) < (x r).shape.length by
      rw [hshape]; omega) hm (reached_ok hw (hx.reached r hr))
    (hx.allocated r hr)
  rw [hms, hx.dtype r hr, hprod, hout, List.headD_cons] at hends
  simp only [hwrap]
  refine .bind hends ?_ ?_
  · rintro e s₁ ⟨-, hbad⟩ ⟨hpos, hsome, hdvd⟩
    exact hbad (by omega) hpos (Nat.mod_eq_zero_of_dvd hdvd) hsome (good_scattered ..)
  rintro o s₁ ⟨hkeep, ho, hpos, hdvd, dt, sent, hdt, -, hrecv⟩
  have hl := (hkeep.1.layout _ o ho).1
  have hos : o.shape = n / worldSize :: (p ++ q) := by rw [hl]; rfl
  refine .bind (movedim_ends o k) ?_ ?_
  · rintro e _ ⟨rfl, hno⟩
    refine absurd ⟨by omega, ?_⟩ hno
    rw [hos]
    rw [List.length_cons] at hlen ⊢
    omega
  rintro v s₁ ⟨rfl, hv⟩
  rw [wrapDim_natCast, Int.toNat_natCast] at hv
  have hvs : v.shape = p ++ n / worldSize :: q := by
    rw [hv]
    refine (congrArg (moveFirst k) hos).trans ?_
    rw [← hp, moveFirst_append]
  refine .weaken (contiguous_ends hkeep.1 v ?_) ?_ (fun _ _ hf => hf.elim)
  · rw [hv]
    exact hkeep.1.allocated _ o ho
  rintro t s₂ ⟨-, -, -, -, hts, hget⟩
  refine ⟨⟨hpos, by rw [hdt]; rfl, Nat.dvd_of_mod_eq_zero hdvd⟩, hts.trans hvs,
    fun as i bs has hi hbs => ?_⟩
  have hin : InShape (n / worldSize :: (p ++ q)) (i :: (as ++ bs)) := .cons hi (has.append hbs)
  have hrow : r * (n / worldSize) + i < n := by
    calc r * (n / worldSize) + i < r * (n / worldSize) + n / worldSize := by omega
      _ = (r + 1) * (n / worldSize) := by ring
      _ ≤ worldSize * (n / worldSize) := Nat.mul_le_mul_right _ hr
      _ = n := Nat.mul_div_cancel' (Nat.dvd_of_mod_eq_zero hdvd)
  have hstaged : InShape (n :: (p ++ q)) ((r * (n / worldSize) + i) :: (as ++ bs)) :=
    .cons hrow (has.append hbs)
  -- the rank's part starts at its first slice
  have hnum : r * (n / worldSize :: (p ++ q)).prod +
      ravel (n / worldSize :: (p ++ q)) (i :: (as ++ bs)) =
      ravel (n :: (p ++ q)) ((r * (n / worldSize) + i) :: (as ++ bs)) := by
    rw [ravel, ravel, List.prod_cons]
    ring
  have hask : as.length = k := has.length_eq.symm.trans hp
  calc s₂.heap.get t.toView (as ++ i :: bs)
      = s₁.heap.get v.toView (as ++ i :: bs) := by
        refine hget _ ?_
        rw [hvs]
        exact has.axis hi hbs
    _ = s₁.heap.get o.toView (i :: (as ++ bs)) := by
        rw [hv, ← hask]
        refine get_movedim0 s₁.heap ?_
        rw [hos, hask, ← hp, List.length_cons, List.length_append]
        omega
    _ = sum ((List.range worldSize).map fun j => sentBy (scatterBuffers worldSize registering (x j)
          (wrapDim (x j).shape.length dim)) (σ j)
          (ravel (n :: (p ++ q)) ((r * (n / worldSize) + i) :: (as ++ bs)))) := by
        rw [get_eq_flat _ (by rw [hos]; exact hin), hos, hrecv _ (ravel_lt hin)]
        simp only [scattered, hnum]
    _ = sum ((List.range worldSize).map fun j =>
          (σ j).heap.get ((x j).movedim0 k) ((r * (n / worldSize) + i) :: (as ++ bs))) := by
        congr 1
        refine List.map_congr_left fun j hj => ?_
        have hj' := List.mem_range.mp hj
        have hjs : ((x j).movedim0 k).shape = n :: (p ++ q) :=
          (congrArg (moveFirst k) (hx.shape j hj')).trans hmoved
        rw [scatter_sent hw hx hdim hwrap hpos (by rw [hmoved]; exact hdvd) hj' _
          (by rw [← hprod]; exact ravel_lt hstaged), get_eq_flat _ (by rw [hjs]; exact hstaged), hjs]

/-- What `reduce_scatter` is asked for: on rank `r` of all ranks, the `r`-th slice along axis `k` of
the sums. -/
def ScattersAlong (sum : List α → α) (worldSize : Nat) (shape : List Nat) (dtype : Dtype)
    (dim : Int) (k : Nat) : Prop :=
  ∀ (σ : Nat → State α) (x : Nat → Tensor), Inputs worldSize shape dtype σ x →
    ∀ r < worldSize, ∃ t s', scatterOn sum worldSize σ x dim r (σ r) = .ok t s' ∧
      t.shape = shape.set k (shape.getD k 0 / worldSize) ∧
      ∀ idx, InShape t.shape idx → s'.heap.get t.toView idx =
        sum ((List.range worldSize).map fun j => (σ j).heap.get (x j).toView
          (idx.set k (r * (shape.getD k 0 / worldSize) + idx.getD k 0)))

/-! ### The first two dimensions -/

theorem moveFirst_le_one {p : List Nat} (h : p.length ≤ 1) (n : Nat) (q : List Nat) :
    moveFirst p.length (p ++ n :: q) = n :: (p ++ q) := by
  rcases p with _ | ⟨a, _ | ⟨b, p⟩⟩
  · rfl
  · rfl
  · simp only [List.length_cons] at h
    omega

/-- Moving the first axis to the first or second place and back are the same. -/
theorem get_movedim0_le_one (h : Heap α) {v : View} {as bs : List Nat} {i : Nat}
    (h1 : as.length ≤ 1) (hl : as.length < v.shape.length) :
    h.get (v.movedim0 as.length) (i :: (as ++ bs)) = h.get v (as ++ i :: bs) := by
  rcases as with _ | ⟨a, _ | ⟨b, as⟩⟩
  · exact @get_movedim0 α v [] bs i h hl
  · exact @get_movedim0 α v [i] bs a h hl
  · simp only [List.length_cons] at h1
    omega

/-- **Along the first two dimensions `reduce_scatter` is right.** -/
theorem scattersAlong_of_le_one (hw : 2 ≤ worldSize)
    (hdim : -(shape.length : Int) ≤ dim ∧ dim < shape.length)
    (hwrap : wrapDim shape.length dim = k) (hdvd : worldSize ∣ shape.getD k 0) (hk : k ≤ 1)
    (hpos : 0 < shape.prod) (hsome : (torchDtype dtype).isSome) :
    ScattersAlong sum worldSize shape dtype dim k := by
  obtain ⟨p, n, q, hshape, hwrap'⟩ := exists_axis hdim
  obtain rfl : p.length = k := by omega
  have hget : ∀ xs c ys, xs.length = p.length → (xs ++ c :: ys : List Nat).getD p.length 0 = c := by
    intro xs c ys hxs
    rw [← hxs, List.getD_append_right _ _ _ _ (Nat.le_refl _), Nat.sub_self, List.getD_cons_zero]
  have hset : ∀ (xs ys : List Nat) (c d : Nat), xs.length = p.length →
      (xs ++ c :: ys).set p.length d = xs ++ d :: ys := by
    intro xs ys c d hxs
    rw [← hxs, List.set_append_right _ _ (Nat.le_refl _), Nat.sub_self, List.set_cons_zero]
  have hn : shape.getD p.length 0 = n := by rw [hshape]; exact hget p n q rfl
  rw [hn] at hdvd
  intro σ x hx r hr
  have hmoved : moveFirst p.length shape = n :: (p ++ q) := by
    rw [hshape]
    exact moveFirst_le_one hk n q
  have hends := @scatterOn_ends α sum _ _ _ _ _ _ _ hw hx hdim hwrap n p q hmoved rfl r hr
  obtain ⟨t, s', hrun, -, hts, helem⟩ :=
    (hends.weaken (fun _ _ hq => hq) fun _ _ hbad => hbad ⟨hpos, hsome, hdvd⟩).returns
  refine ⟨t, s', hrun, ?_, fun idx hidx => ?_⟩
  · rw [hts, hn, hshape, hset p q n _ rfl]
  · rw [hts] at hidx
    obtain ⟨as, i, bs, rfl, has, hi, hbs⟩ := hidx.split_axis
    have hlen : as.length = p.length := has.length_eq.symm
    rw [helem as i bs has hi hbs, hn, hget as i bs hlen, hset as bs i _ hlen]
    congr 1
    refine List.map_congr_left fun j hj => ?_
    rw [← hlen]
    refine get_movedim0_le_one _ (by rw [hlen]; exact hk) ?_
    rw [hx.shape j (List.mem_range.mp hj), hlen, hshape, List.length_append, List.length_cons]
    omega

/-! ### Further dimensions -/

theorem ravel_inj {shape idx idx' : List Nat} (h : InShape shape idx) (h' : InShape shape idx')
    (heq : ravel shape idx = ravel shape idx') : idx = idx' := by
  rw [← unravel_ravel h, heq, unravel_ravel h']

/-- Moving the first axis past others brings the last of them to the front. -/
theorem get_movedim0_past (h : Heap α) {v : View} {as bs : List Nat} {a i : Nat}
    (hk : as.length + 1 = k) (hl : k < v.shape.length) :
    h.get (v.movedim0 k) (i :: (as ++ [a] ++ bs)) = h.get v (a :: i :: (as ++ bs)) := by
  rw [List.append_assoc, List.singleton_append, ← List.cons_append, ← hk]
  exact @get_movedim0 α v (i :: as) bs a h (by rw [List.length_cons, hk]; exact hl)

theorem zeros_ext {xs ys : List Nat} (hx : ∀ i ∈ xs, i = 0) (hy : ∀ i ∈ ys, i = 0)
    (hl : xs.length = ys.length) : xs = ys := by
  rw [List.eq_replicate_of_mem hx, List.eq_replicate_of_mem hy, hl]

/-- The index that is zero apart from axis `k`. -/
theorem inShape_set_zero (hk : k < shape.length) (hpos : 0 < shape.prod) {c : Nat}
    (hc : c < shape.getD k 0) : InShape shape ((shape.map fun _ => 0).set k c) := by
  have hsplit : shape = shape.take k ++ shape.getD k 0 :: shape.drop (k + 1) := by
    rw [List.getD_eq_getElem _ _ hk, List.cons_getElem_drop_succ, List.take_append_drop]
  have hlen : ((shape.take k).map fun _ => 0).length = k := by
    rw [List.length_map, List.length_take, Nat.min_eq_left (Nat.le_of_lt hk)]
  have hset : (shape.map fun _ => 0).set k c =
      (shape.take k).map (fun _ => 0) ++ c :: (shape.drop (k + 1)).map fun _ => 0 := by
    conv_lhs => rw [hsplit, List.map_append, List.map_cons]
    rw [List.set_append_right _ _ (Nat.le_of_eq hlen), hlen, Nat.sub_self, List.set_cons_zero]
  rw [hset]
  rw [hsplit, List.prod_append, List.prod_cons] at hpos
  have hin := (inShape_zero (Nat.pos_of_mul_pos_right hpos)).axis hc
    (inShape_zero (Nat.pos_of_mul_pos_left (Nat.pos_of_mul_pos_left hpos)))
  rwa [← hsplit] at hin

/-- **Along any further dimension `reduce_scatter` is wrong**, on the second rank's first element:
it comes from the second axis and not from `dim`. -/
theorem not_scattersAlong (hw : 2 ≤ worldSize)
    (hdim : -(shape.length : Int) ≤ dim ∧ dim < shape.length)
    (hwrap : wrapDim shape.length dim = k) (hk : 2 ≤ k)
    (hsum : ∃ a b : Nat → α, sum ((List.range worldSize).map a) ≠
      sum ((List.range worldSize).map b)) :
    ¬ ScattersAlong sum worldSize shape dtype dim k := by
  intro hall
  obtain ⟨a, b, hne⟩ := hsum
  obtain ⟨-, hlt, -⟩ := wrapDim_inRange hdim
  have hkd : k < shape.length := by omega
  obtain ⟨m, n, rest, hshape⟩ : ∃ m n rest, shape = m :: n :: rest := by
    rcases shape with _ | ⟨m, _ | ⟨n, rest⟩⟩
    · simp only [List.length_nil] at hkd; omega
    · simp only [List.length_cons, List.length_nil] at hkd; omega
    · exact ⟨m, n, rest, rfl⟩
  have hrest : k - 1 ≤ rest.length := by
    rw [hshape, List.length_cons, List.length_cons] at hkd
    omega
  have htake : (rest.take (k - 1)).length = k - 1 := by
    rw [List.length_take, Nat.min_eq_left hrest]
  -- the second axis comes to the front
  have hmoved : moveFirst k shape = n :: ((rest.take (k - 1) ++ [m]) ++ rest.drop (k - 1)) := by
    obtain ⟨k', rfl⟩ : ∃ k', k = k' + 1 := ⟨k - 1, by omega⟩
    rw [hshape, moveFirst, List.take_succ_cons, List.drop_succ_cons, Nat.add_sub_cancel,
      List.cons_append, List.append_assoc, List.singleton_append]
  have hp : (rest.take (k - 1) ++ [m]).length = k := by
    rw [List.length_append, htake, List.length_singleton]
    omega
  -- what is read, and what should be
  have hx := inputs_fresh worldSize shape dtype fun j addr =>
    if addr = ravel shape (0 :: (1 * (n / worldSize) + 0) :: rest.map fun _ => 0) then a j else b j
  obtain ⟨t, s', hrun, -, hget⟩ := hall _ _ hx 1 (by omega)
  obtain ⟨⟨hpos, -, hdvd⟩, hts, helem⟩ :=
    (@scatterOn_ends α sum _ _ _ _ _ _ _ hw hx hdim hwrap _ _ _ hmoved hp 1 (by omega)).1 t s' hrun
  have hpos' := hpos
  rw [hshape, List.prod_cons, List.prod_cons] at hpos'
  have hm : 0 < m := Nat.pos_of_mul_pos_right hpos'
  have hn : 0 < n := Nat.pos_of_mul_pos_right (Nat.pos_of_mul_pos_left hpos')
  have hr : 0 < rest.prod := Nat.pos_of_mul_pos_left (Nat.pos_of_mul_pos_left hpos')
  have hc : 0 < n / worldSize := Nat.div_pos (Nat.le_of_dvd hn hdvd) (by omega)
  have hcn : 1 * (n / worldSize) + 0 < n := by
    rw [Nat.one_mul, Nat.add_zero]
    exact Nat.div_lt_self hn (by omega)
  have hread : InShape shape (0 :: (1 * (n / worldSize) + 0) :: rest.map fun _ => 0) := by
    rw [hshape]
    exact .cons hm (.cons hcn (inShape_zero hr))
  have hkpos : 0 < shape.getD k 0 := by
    rw [List.getD_eq_getElem _ _ hkd]
    refine Nat.pos_of_ne_zero fun h0 => ?_
    exact prod_pos_iff.mp hpos (h0 ▸ List.getElem_mem hkd)
  have hwant : InShape shape ((shape.map fun _ => 0).set k (1 * (shape.getD k 0 / worldSize) + 0)) := by
    refine inShape_set_zero hkd hpos ?_
    rw [Nat.one_mul, Nat.add_zero]
    exact Nat.div_lt_self hkpos (by omega)
  have hne' : ravel shape ((shape.map fun _ => 0).set k (1 * (shape.getD k 0 / worldSize) + 0)) ≠
      ravel shape (0 :: (1 * (n / worldSize) + 0) :: rest.map fun _ => 0) := by
    intro heq
    have hidx := congrArg (fun l : List Nat => l[1]?) (ravel_inj hwant hread heq)
    simp only [List.getElem?_set_ne (show k ≠ 1 by omega), hshape, List.map_cons,
      List.getElem?_cons_succ, List.getElem?_cons_zero, Option.some.injEq] at hidx
    omega
  -- the element at index zero
  have hp0 : 0 < (rest.take (k - 1)).prod ∧ 0 < (rest.drop (k - 1)).prod := by
    rw [← List.take_append_drop (k - 1) rest, List.prod_append] at hr
    exact ⟨Nat.pos_of_mul_pos_right hr, Nat.pos_of_mul_pos_left hr⟩
  have hzp : InShape (rest.take (k - 1) ++ [m]) ((rest.take (k - 1)).map (fun _ => 0) ++ [0]) :=
    (inShape_zero hp0.1).append (.cons hm .nil)
  have hzq := inShape_zero hp0.2
  have hidx : (rest.take (k - 1)).map (fun _ => 0) ++ [0] ++
      0 :: (rest.drop (k - 1)).map (fun _ => 0) = shape.map fun _ => 0 := by
    refine zeros_ext ?_ (fun i hi => ?_) ?_
    · simp only [List.mem_append, List.mem_cons, List.mem_map, List.not_mem_nil, or_false]
      rintro i ((⟨_, _, rfl⟩ | rfl) | rfl | ⟨_, _, rfl⟩) <;> rfl
    · obtain ⟨_, _, rfl⟩ := List.mem_map.mp hi
      rfl
    · simp only [List.length_append, List.length_cons, List.length_map, List.length_nil, htake,
        List.length_drop, hshape]
      omega
  have hval := helem _ 0 _ hzp hc hzq
  have hin := hzp.axis hc hzq
  rw [← hts] at hin
  rw [hget _ hin, hidx] at hval
  refine hne (Eq.trans ?_ (hval.symm.trans ?_))
  · congr 1
    refine List.map_congr_left fun j _ => ?_
    have htail : (rest.take (k - 1)).map (fun _ => 0) ++ (rest.drop (k - 1)).map (fun _ => 0) =
        rest.map fun _ => 0 := by rw [← List.map_append, List.take_append_drop]
    have hfront : ((rest.take (k - 1)).map fun _ => 0).length + 1 = k := by
      rw [List.length_map, htake]
      omega
    have hmove := @get_movedim0_past α k (freshState fun addr =>
      if addr = ravel shape (0 :: (1 * (n / worldSize) + 0) :: rest.map fun _ => 0) then a j
      else b j).heap (.whole 0 shape) _ ((rest.drop (k - 1)).map fun _ => 0) 0
      (1 * (n / worldSize) + 0) hfront hkd
    rw [htail] at hmove
    exact ((hmove.trans (get_fresh _ hread)).trans (if_pos rfl)).symm
  · congr 1
    refine List.map_congr_left fun j _ => ?_
    have hzero : (shape.map fun _ => 0).getD k 0 = 0 := by
      rw [List.getD_eq_getElem _ _ (by rw [List.length_map]; exact hkd), List.getElem_map]
    rw [hzero]
    exact (get_fresh _ hwant).trans (if_neg hne')

/-- **Where `reduce_scatter` acts along `dim`**: for the first two dimensions, of tensors that have
elements, of a dtype of vccl's. -/
theorem reduce_scatter_along_iff (hw : 2 ≤ worldSize)
    (hsum : ∃ a b : Nat → α, sum ((List.range worldSize).map a) ≠
      sum ((List.range worldSize).map b))
    (hdim : -(shape.length : Int) ≤ dim ∧ dim < shape.length)
    (hwrap : wrapDim shape.length dim = k) (hdvd : worldSize ∣ shape.getD k 0) :
    ScattersAlong sum worldSize shape dtype dim k ↔
      k ≤ 1 ∧ 0 < shape.prod ∧ (torchDtype dtype).isSome := by
  constructor
  · intro hall
    have hk : k ≤ 1 := by
      by_contra hk
      exact not_scattersAlong hw hdim hwrap (by omega) hsum hall
    obtain ⟨a, -⟩ := hsum
    have hx := inputs_fresh worldSize shape dtype fun _ => a
    obtain ⟨t, s', hrun, -⟩ := hall _ _ hx 0 (by omega)
    obtain ⟨-, hlt, -⟩ := wrapDim_inRange hdim
    obtain ⟨n, p, q, hmoved, hp⟩ :=
      @exists_head k (moveFirst k shape) (by rw [length_moveFirst]; omega)
    obtain ⟨⟨hpos, hsome, -⟩, -⟩ :=
      (@scatterOn_ends α sum _ _ _ _ _ _ _ hw hx hdim hwrap _ _ _ hmoved hp 0 (by omega)).1 t s' hrun
    exact ⟨hk, hpos, hsome⟩
  · rintro ⟨hk, hpos, hsome⟩
    exact scattersAlong_of_le_one hw hdim hwrap hdvd hk hpos hsome

theorem reduce_scatter_along_last :
    ScattersAlong (List.sum : List Nat → Nat) 2 [3, 4] .float32 (-1) 1 ↔
      1 ≤ 1 ∧ 0 < [3, 4].prod ∧ (torchDtype .float32).isSome :=
  reduce_scatter_along_iff (by decide) ⟨fun _ => 0, fun _ => 1, by decide⟩ (by decide) (by decide)
    (by decide)

/-- Along the third dimension of a cube. -/
theorem not_along_third :
    ¬ ScattersAlong (List.sum : List Nat → Nat) 2 [2, 2, 2] .float32 2 2 :=
  not_scattersAlong (by decide) (by decide) (by decide) (by decide)
    ⟨fun _ => 0, fun _ => 1, by decide⟩

end Scatter

end Vccl.Torch
