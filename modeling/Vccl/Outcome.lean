import Vccl.Bounds
import Vccl.Rooted

/-!
# Reduce-scatter and the chains, under the laws of the element operation

`doReduceScatter` and `doReduce` leave `arrived` at the rank their partial travels to
(`Vccl.ReduceScatter`, `Vccl.Rooted`). For an associative and commutative operation this is the fold
over the ranks, whatever the order the ring or the chain takes them in.

* Of a reduce-scatter, rank `r` ends with block `r` of the fold, and at no moment of a run has a byte
  of `sendbuff` outside block `r` changed.
* `doReduce` leaves the fold at the root and `doBroadcast` the root's elements everywhere, for any
  number of 512 KiB pieces and any interleaving of them.
-/

namespace Vccl

open Net (Lawful foldRange)

section Folds

variable {K : Kernels} {dt : DataType} {op : RedOp} {n : Nat}

/-- The travelling partial arrives as the fold over the ranks. -/
theorem arrived_eq_foldRange (hlaw : Lawful (K.reduce dt op)) (hop : op ≠ .avg)
    (y : Nat → Word (typeSize dt)) {c : Nat} (hc : c < n) :
    arrived K op (fun _ => none) n y c = foldRange (K.reduce dt op) y n := by
  obtain ⟨l, hl, hcomb⟩ := arrived_combines (K := K) hop y hc
  exact hcomb.perm_unique hlaw (Net.foldRange_combines _ _ (by omega)) hl

/-- A block of the send buffer other than the one the receive buffer may stand for. -/
theorem not_inRange_block {send recv a : Ptr} {b r len : Nat} (hb : b < n) (hbr : b ≠ r)
    (hplace : recv = send + r * len ∨ Apart recv len send (n * len))
    (ha : InRange (send + b * len) len a) : ¬ InRange recv len a := by
  intro hrecv
  have hap : Apart recv len (send + b * len) len := by
    rcases hplace with rfl | h
    · exact apart_blocks fun h => hbr h.symm
    · exact h.mono (j := 0) (k := b * len) (by omega) (by
        rw [← Nat.succ_mul]
        exact Nat.mul_le_mul_right len hb)
  exact hap.not_mem (mem_slice.mpr hrecv) (mem_slice.mpr ha)

/-- **Reduce-scatter folds block `r` at rank `r`**, and never changes another user byte; in
particular, in the in-place form and for separate buffers, no other block of `sendbuff`. -/
theorem reduceScatter_folds (K : Kernels) (n : Nat) (hn : 1 ≤ n) (sendbuff recvbuff : Nat → Ptr)
    (count : Nat) (dt : DataType) (op : RedOp) (m : Nat → Mem) (hlaw : Lawful (K.reduce dt op))
    (hop : op ≠ .avg) (hsend : ∀ r, r < n → (sendbuff r).obj ≠ .scratch)
    (hrecv : ∀ r, r < n → (recvbuff r).obj ≠ .scratch) :
    Net.Ends Net.Step
      (system K n (fun r => doReduceScatter n r (sendbuff r) (recvbuff r) count dt op none) m)
      (fun c => (∀ r, c.code r = []) ∧ ∀ r, r < n → ∀ k, k < count →
        word (typeSize dt) (c.mem r) (recvbuff r) k = foldRange (K.reduce dt op)
          (fun p => word (typeSize dt) (m p) (sendbuff p) (r * count + k)) n) ∧
    ∀ c, Relation.ReflTransGen Net.Step
        (system K n (fun r => doReduceScatter n r (sendbuff r) (recvbuff r) count dt op none) m) c →
      ∀ r, r < n →
        (∀ a : Ptr, a.obj ≠ .scratch → ¬ InRange (recvbuff r) (count * typeSize dt) a →
          c.mem r a = m r a) ∧
        ((recvbuff r = sendbuff r + r * (count * typeSize dt) ∨
            Apart (recvbuff r) (count * typeSize dt) (sendbuff r) (n * (count * typeSize dt))) →
          ∀ b, b < n → b ≠ r → ∀ a, InRange (sendbuff r + b * (count * typeSize dt))
            (count * typeSize dt) a → c.mem r a = m r a) := by
  constructor
  · obtain ⟨hacc, hend⟩ :=
      ends_doReduceScatter K sendbuff recvbuff count dt op (fun _ => none) m hsend hrecv
    refine ⟨hacc, fun c hc hstop => ?_⟩
    obtain ⟨hdone, hval⟩ := hend c hc hstop
    refine ⟨hdone, fun r hr k hk => ?_⟩
    rw [hval r hr k hk]
    exact arrived_eq_foldRange hlaw hop _ hr
  · intro c hc r hr
    have hframe : ∀ a : Ptr, a.obj ≠ .scratch →
        ¬ InRange (recvbuff r) (count * typeSize dt) a → c.mem r a = m r a := by
      intro a ha hout
      refine frame_calls
        (I := fun r => [(sendbuff r, n * (count * typeSize dt))])
        (O := fun r => [(recvbuff r, count * typeSize dt)]) K (fun r _ =>
          inBounds_doReduceScatter (Nat.le_refl _) hn List.mem_cons_self List.mem_cons_self)
        hc hr ?_
      rintro (h | ⟨y, hy, hin⟩)
      · exact ha h
      · rw [List.mem_singleton.mp hy] at hin
        exact hout hin
    refine ⟨hframe, fun hplace b hb hbr a ha => hframe a (fun h => ?_) ?_⟩
    · exact hsend r hr (ha.1.symm.trans h)
    · exact not_inRange_block hb hbr hplace ha

/-- Three ranks, two elements each, in place. -/
theorem reduceScatter_folds_three :
    Net.Ends Net.Step
      (system (cpuKernels .idle) 3 (fun r => doReduceScatter 3 r (Ptr.mk (.user 0) 0)
        (Ptr.mk (.user 0) 0 + r * 8) 2 .int32 .sum none) fun r _ => UInt8.ofNat (100 * r))
      (fun c => (∀ r, c.code r = []) ∧ ∀ r, r < 3 → ∀ k, k < 2 →
        word 4 (c.mem r) (Ptr.mk (.user 0) 0 + r * 8) k =
          foldRange ((cpuKernels .idle).reduce .int32 .sum)
            (fun p => word 4 (fun _ => UInt8.ofNat (100 * p)) (Ptr.mk (.user 0) 0) (r * 2 + k)) 3) :=
  (reduceScatter_folds (cpuKernels .idle) 3 (by decide) (fun _ => Ptr.mk (.user 0) 0)
    (fun r => Ptr.mk (.user 0) 0 + r * 8) 2 .int32 .sum (fun r _ => UInt8.ofNat (100 * r))
    (int_lawful .idle rfl .sum) (by decide) (by decide) fun _ _ h => Obj.noConfusion h).1

/-- **The chains.** Every run of `doReduce` ends with the fold of all ranks' elements at the root,
and every run of `doBroadcast` with the root's elements on every rank. -/
theorem chains_fold_and_copy (K : Kernels) (n root : Nat) (hroot : root < n)
    (sendbuff recvbuff : Nat → Ptr) (count : Nat) (dt : DataType) (m : Nat → Mem) :
    (∀ op : RedOp, Lawful (K.reduce dt op) → op ≠ .avg →
      (∀ r, r < n → (sendbuff r).obj ≠ .scratch) → (recvbuff root).obj ≠ .scratch →
      (recvbuff root = sendbuff root ∨ Apart (recvbuff root) (count * typeSize dt)
        (sendbuff root) (count * typeSize dt)) →
      Net.Ends Net.Step
        (system K n (fun r => doReduce n r (sendbuff r) (recvbuff r) count dt op none root) m)
        fun c => (∀ r, c.code r = []) ∧ ∀ k, k < count →
          word (typeSize dt) (c.mem root) (recvbuff root) k =
            foldRange (K.reduce dt op) (fun p => word (typeSize dt) (m p) (sendbuff p) k) n) ∧
    Net.Ends Net.Step
      (system K n (fun r => doBroadcast n r (sendbuff r) (recvbuff r) count dt root) m)
      fun c => (∀ r, c.code r = []) ∧ ∀ r, r < n → ∀ k, k < count →
        word (typeSize dt) (c.mem r) (recvbuff r) k =
          word (typeSize dt) (m root) (sendbuff root) k := by
  refine ⟨fun op hlaw hop hsend hrecv hplace => ?_, ends_doBroadcast K hroot sendbuff recvbuff count
    dt m⟩
  obtain ⟨hacc, hend⟩ :=
    ends_doReduce K hroot sendbuff recvbuff count dt op (fun _ => none) m hsend hrecv hplace
  refine ⟨hacc, fun c hc hstop => ?_⟩
  obtain ⟨hdone, hval⟩ := hend c hc hstop
  refine ⟨hdone, fun k hk => ?_⟩
  rw [hval k hk]
  exact arrived_eq_foldRange hlaw hop _ hroot

/-- A product of 200000 doublewords, four pieces, to rank 2 of three, in place; and a broadcast. -/
theorem chains_fold_and_copy_three :
    Net.Ends Net.Step
      (system (cpuKernels .idle) 3 (fun r => doReduce 3 r (Ptr.mk (.user 0) 0) (Ptr.mk (.user 0) 0)
        200000 .uint64 .prod none 2) fun r _ => UInt8.ofNat r)
      (fun c => (∀ r, c.code r = []) ∧ ∀ k, k < 200000 →
        word 8 (c.mem 2) (Ptr.mk (.user 0) 0) k =
          foldRange ((cpuKernels .idle).reduce .uint64 .prod)
            (fun p => word 8 (fun _ => UInt8.ofNat p) (Ptr.mk (.user 0) 0) k) 3) ∧
    Net.Ends Net.Step
      (system (cpuKernels .idle) 3 (fun r => doBroadcast 3 r (Ptr.mk (.user 0) 0)
        (Ptr.mk (.user 0) 0) 200000 .uint64 2) fun r _ => UInt8.ofNat r)
      fun c => (∀ r, c.code r = []) ∧ ∀ r, r < 3 → ∀ k, k < 200000 →
        word 8 (c.mem r) (Ptr.mk (.user 0) 0) k =
          word 8 (fun _ => UInt8.ofNat 2) (Ptr.mk (.user 0) 0) k := by
  have h := chains_fold_and_copy (cpuKernels .idle) 3 2 (by decide) (fun _ => Ptr.mk (.user 0) 0)
    (fun _ => Ptr.mk (.user 0) 0) 200000 .uint64 fun r _ => UInt8.ofNat r
  exact ⟨h.1 .prod (int_lawful .idle rfl .prod) (by decide) (by decide) (by decide) (Or.inl rfl), h.2⟩

end Folds

end Vccl
