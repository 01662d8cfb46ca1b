import Vccl.Memory
import Vccl.Net.Waves

/-!
# Batches of transfers over verbs (`VerbsTransport::batch`)

A batch posts its operations in waves that fit the queue depth of every QP and direction, and polls
each wave to completion before it posts the next. `waves` is the cut: a wave ends before the first
operation that would take its QP and direction over `kQueueDepth` work requests, whatever the
operations behind it are. An operation of `bytes` is `segments bytes` work requests.

The ranks' waves are processes of `Vccl.Net.Waves`: a send completes once the peer has posted the
matching receive, a receive once the peer has posted the matching send.

The operation lists decide the question of deadlock: matched batches run through exactly when the
waves have no cycle of needs. Two ranks that each issue 129 sends and
then 129 receives have one: each waits in its first wave, all sends, for receives that are in the
other's second wave.
-/

namespace Vccl

open Net (Wr WState WStep wstart Needs cnt)

/-- `kMaxSegBytes`. -/
def kMaxSegBytes : Nat := 1 <<< 30

/-- `kQueueDepth`. -/
def kQueueDepth : Nat := 128

/-- `P2pOp`. -/
structure P2pOp where
  isSend : Bool
  peer : Nat
  buf : Ptr
  bytes : Nat
  deriving DecidableEq, Repr

/-- The work requests of an operation; those of an inline send are one as well. -/
def segments (bytes : Nat) : Nat := (bytes + kMaxSegBytes - 1) / kMaxSegBytes

/-- The loop that finds `waveEnd`, from the counts of the wave so far: how many of the operations
at hand go into the wave. An empty operation needs no work request. -/
def waveLen (counts : Bool → Nat → Nat) : List P2pOp → Nat
  | [] => 0
  | op :: ops =>
    if op.bytes = 0 then waveLen counts ops + 1
    else if counts op.isSend op.peer + segments op.bytes > kQueueDepth then 0
    else
      waveLen (fun d p => if d = op.isSend ∧ p = op.peer then counts d p + segments op.bytes
        else counts d p) ops + 1

/-- The outer loop of `batch`: cut waves until no operation is left. A wave has at least one
operation. -/
def cutWaves : Nat → List P2pOp → List (List P2pOp)
  | 0, _ => []
  | _ + 1, [] => []
  | fuel + 1, op :: ops =>
    let len := max 1 (waveLen (fun _ _ => 0) (op :: ops))
    (op :: ops).take len :: cutWaves fuel ((op :: ops).drop len)

/-- The waves of a batch. -/
def waves (ops : List P2pOp) : List (List P2pOp) := cutWaves ops.length ops

/-- The work requests posted for an operation. -/
def P2pOp.wrs (op : P2pOp) : List (Wr Nat) := List.replicate (segments op.bytes) ⟨op.isSend, op.peer⟩

/-- The work requests of a batch, wave by wave. -/
def waveWrs (ops : List P2pOp) : List (List (Wr Nat)) := (waves ops).map (List.flatMap P2pOp.wrs)

/-- The waves of all ranks of a communicator of `n`. -/
def batchWaves (n : Nat) (ops : Nat → List P2pOp) (r : Nat) : List (List (Wr Nat)) :=
  if r < n then waveWrs (ops r) else []

/-- The sizes of the non-empty operations of one direction with one peer, in order. -/
def sizesWith (d : Bool) (x : Nat) (ops : List P2pOp) : List Nat :=
  (ops.filter fun op => op.isSend = d ∧ op.peer = x ∧ op.bytes ≠ 0).map P2pOp.bytes

/-- Sends and receives of every two ranks agree in number, order and size, and name ranks. -/
structure MatchedOps (n : Nat) (ops : Nat → List P2pOp) : Prop where
  peer : ∀ r, r < n → ∀ op ∈ ops r, op.peer < n
  sizes : ∀ p q, p < n → q < n → sizesWith true q (ops p) = sizesWith false p (ops q)

/-! ## The cut loses nothing -/

theorem cutWaves_flatten : ∀ (fuel : Nat) (ops : List P2pOp), ops.length ≤ fuel →
    (cutWaves fuel ops).flatten = ops
  | 0, ops, h => by
    cases ops with
    | nil => rfl
    | cons _ _ => exact absurd h (by simp)
  | fuel + 1, [], _ => rfl
  | fuel + 1, op :: ops, h => by
    simp only [cutWaves, List.flatten_cons]
    rw [cutWaves_flatten fuel, List.take_append_drop]
    rw [List.length_drop]
    omega

theorem waves_flatten (ops : List P2pOp) : (waves ops).flatten = ops :=
  cutWaves_flatten ops.length ops (Nat.le_refl _)

theorem waveWrs_flatten (ops : List P2pOp) : (waveWrs ops).flatten = ops.flatMap P2pOp.wrs := by
  rw [waveWrs, ← List.flatMap_def]
  conv_rhs => rw [← waves_flatten ops, ← List.flatMap_id, List.flatMap_assoc]
  rfl

/-- The work requests of one kind are counted by the sizes of their operations. -/
theorem cnt_wrs (d : Bool) (x : Nat) : ∀ ops : List P2pOp,
    cnt d x (ops.flatMap P2pOp.wrs) = ((sizesWith d x ops).map segments).sum
  | [] => rfl
  | op :: ops => by
    rw [List.flatMap_cons, Net.cnt_append, cnt_wrs d x ops]
    have h0 : segments 0 = 0 := by decide
    have hone : cnt d x op.wrs = if op.isSend = d ∧ op.peer = x then segments op.bytes else 0 := by
      unfold cnt P2pOp.wrs
      rw [List.countP_replicate]
      simp
    unfold sizesWith
    rw [hone, List.filter_cons]
    by_cases hk : op.isSend = d ∧ op.peer = x
    · by_cases hb : op.bytes = 0
      · simp [hk, hb, h0]
      · simp [hk, hb]
    · rw [if_neg hk, if_neg (by simpa using fun h1 h2 => absurd ⟨h1, h2⟩ hk), Nat.zero_add]

theorem mem_batchWaves {n r : Nat} {ops : Nat → List P2pOp} (h : MatchedOps n ops) {w : Wr Nat}
    (hw : w ∈ (batchWaves n ops r).flatten) : r < n ∧ w.peer < n := by
  unfold batchWaves at hw
  split at hw
  · rename_i hr
    rw [waveWrs_flatten] at hw
    obtain ⟨op, hop, hw⟩ := List.mem_flatMap.mp hw
    obtain ⟨-, rfl⟩ := List.mem_replicate.mp hw
    exact ⟨hr, h.peer r hr op hop⟩
  · exact absurd hw (by simp)

/-- Matched operations have as many sends as receives, as work requests. -/
theorem balanced_batch {n : Nat} {ops : Nat → List P2pOp} (h : MatchedOps n ops) :
    Net.Balanced (batchWaves n ops) := by
  have hzero : ∀ d p q, ¬ (p < n ∧ q < n) → cnt d q (batchWaves n ops p).flatten = 0 := by
    intro d p q hpq
    refine List.countP_eq_zero.mpr fun w hw => ?_
    have := mem_batchWaves h hw
    simp only [decide_eq_true_eq]
    rintro ⟨-, rfl⟩
    exact hpq this
  intro d p q
  by_cases hpq : p < n ∧ q < n
  · obtain ⟨hp, hq⟩ := hpq
    have hs : sizesWith d q (ops p) = sizesWith (!d) p (ops q) := by
      cases d with
      | true => exact h.sizes p q hp hq
      | false => exact (h.sizes q p hq hp).symm
    simp only [batchWaves, if_pos hp, if_pos hq, waveWrs_flatten, cnt_wrs, hs]
  · rw [hzero d p q hpq, hzero (!d) q p fun e => hpq ⟨e.2, e.1⟩]

/-! ## Deadlock -/

/-- No run of the ranks' batches gets stuck: while a rank is unfinished, some rank can begin its
next wave, post a work request or see a completion. -/
def BatchProgress (n : Nat) (ops : Nat → List P2pOp) : Prop :=
  ∀ s, Relation.ReflTransGen WStep (wstart (batchWaves n ops)) s →
    (∃ r, r < n ∧ ¬ s.finished r) → ∃ s', WStep s s'

theorem batch_stuck {n : Nat} {ops : Nat → List P2pOp} (h : MatchedOps n ops) {x : Nat × Nat}
    (hx : Relation.TransGen (Needs (batchWaves n ops)) x x) : ¬ BatchProgress n ops := by
  intro hprog
  obtain ⟨s, hs, ⟨r, hr, hun⟩, hn⟩ := Net.waves_stuck (Finset.range n)
    (fun r hr => if_neg fun e => hr (Finset.mem_range.mpr e))
    (fun r w hw => Finset.mem_range.mpr (mem_batchWaves h hw).2) hx
  obtain ⟨s', hs'⟩ := hprog s hs ⟨r, Finset.mem_range.mp hr, hun⟩
  exact hn s' hs'

/-- **Matched batches run through exactly when the waves have no cycle of needs.** -/
theorem batch_progress_iff (n : Nat) (ops : Nat → List P2pOp) (h : MatchedOps n ops) :
    BatchProgress n ops ↔ ∀ x, ¬ Relation.TransGen (Needs (batchWaves n ops)) x x := by
  constructor
  · exact fun hprog x hx => batch_stuck h hx hprog
  · rintro hacyc s hs ⟨r, -, hr⟩
    exact Net.waves_progress (Finset.range n)
      (fun r hr => if_neg fun e => hr (Finset.mem_range.mpr e)) (balanced_batch h) hacyc hs hr

/-- `k` one-byte sends to the other of two ranks, then `k` receives from it. -/
def sendsThenRecvs (k r : Nat) : List P2pOp :=
  List.replicate k ⟨true, 1 - r, ⟨.user 0, 0⟩, 1⟩ ++ List.replicate k ⟨false, 1 - r, ⟨.user 1, 0⟩, 1⟩

theorem matched_sendsThenRecvs (k : Nat) : MatchedOps 2 (sendsThenRecvs k) where
  peer r _ op hop := by
    rcases List.mem_append.mp hop with h | h
    · rw [(List.mem_replicate.mp h).2]; show 1 - r < 2; omega
    · rw [(List.mem_replicate.mp h).2]; show 1 - r < 2; omega
  sizes p q hp hq := by
    unfold sizesWith sendsThenRecvs
    rw [List.filter_append, List.filter_append, List.map_append, List.map_append,
      List.filter_replicate, List.filter_replicate, List.filter_replicate, List.filter_replicate]
    have hpq : (1 - p = q) ↔ (1 - q = p) := by omega
    by_cases h : 1 - p = q
    · simp [h, hpq.mp h]
    · have h' : ¬ 1 - q = p := fun e => h (hpq.mpr e)
      simp [h, h']

/-- **129 sends, then 129 receives, on both ranks**: the first wave of each is 128 sends and has no
receive. -/
theorem batch_two_ranks_stuck :
    MatchedOps 2 (sendsThenRecvs 129) ∧ ¬ BatchProgress 2 (sendsThenRecvs 129) := by
  have h01 : Needs (batchWaves 2 (sendsThenRecvs 129)) (0, 0) (1, 0) := ⟨true, by decide +kernel⟩
  have h10 : Needs (batchWaves 2 (sendsThenRecvs 129)) (1, 0) (0, 0) := ⟨true, by decide +kernel⟩
  exact ⟨matched_sendsThenRecvs 129,
    batch_stuck (matched_sendsThenRecvs 129) (.tail (.single h01) h10)⟩

/-- 64 sends, then 64 receives: one wave on each rank. -/
theorem batch_progress_iff_sixty_four :
    BatchProgress 2 (sendsThenRecvs 64) ↔
      ∀ x, ¬ Relation.TransGen (Needs (batchWaves 2 (sendsThenRecvs 64))) x x :=
  batch_progress_iff 2 (sendsThenRecvs 64) (matched_sendsThenRecvs 64)

end Vccl
