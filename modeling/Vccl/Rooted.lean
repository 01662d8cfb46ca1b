import Vccl.Matching
import Vccl.ReduceScatter

/-!
# The rooted collectives (`doReduce`, `doBroadcast`, `doGather`, `doScatter`)

The two chains run piece by piece. A piece is a whole number of elements, since `kPipeBytes` is a
multiple of every element size (`piece_eq`), and the ranks of a chain agree on the pieces:

* `doReduce`: piece by piece the partial leaves rank `root + 1`, takes every rank in and ends at the
  root, so an element ends as `arrived` (`Vccl.ReduceScatter`). The root may receive in place: it
  writes a piece after the last use of that piece of its send buffer.
* `doBroadcast`: before piece `j` a rank has the elements of the pieces before it.
* `doGather` and `doScatter` move a block between the root and each other rank.
-/

namespace Vccl

open Net (wp)

/-! ## Pieces -/

/-- Elements in a full piece. -/
def pipeLen (dt : DataType) : Nat := kPipeBytes / typeSize dt

theorem pipeLen_mul (dt : DataType) : pipeLen dt * typeSize dt = kPipeBytes := by
  cases dt <;> decide

theorem pipeLen_pos (dt : DataType) : 0 < pipeLen dt := by cases dt <;> decide

/-- Elements of piece `j`. -/
def pieceLen (dt : DataType) (count j : Nat) : Nat := min (pipeLen dt) (count - j * pipeLen dt)

theorem offset_eq (dt : DataType) (j : Nat) :
    j * kPipeBytes = j * pipeLen dt * typeSize dt := by
  rw [Nat.mul_assoc, pipeLen_mul]

/-- The bytes of a piece are those of its elements. -/
theorem piece_eq (dt : DataType) (count j : Nat) :
    min kPipeBytes (count * typeSize dt - j * kPipeBytes) = pieceLen dt count j * typeSize dt := by
  rw [offset_eq dt, ← Nat.sub_mul, ← pipeLen_mul dt, Nat.mul_min_mul_right]
  rfl

theorem pieceLen_le (dt : DataType) (count j : Nat) : pieceLen dt count j ≤ pipeLen dt :=
  Nat.min_le_left _ _

theorem pieceLen_pos {dt : DataType} {count j : Nat} (hj : j < pieces (count * typeSize dt)) :
    0 < pieceLen dt count j := by
  have h := piece_ne_zero (by decide) hj
  rw [piece_eq] at h
  exact Nat.pos_of_ne_zero fun h0 => h (by rw [h0, Nat.zero_mul])

theorem index_lt_count {dt : DataType} {count j i : Nat} (hi : i < pieceLen dt count j) :
    j * pipeLen dt + i < count := by
  unfold pieceLen at hi
  omega

/-- The pieces before the end cover everything. -/
theorem count_le_pieces (dt : DataType) (count : Nat) :
    count ≤ pieces (count * typeSize dt) * pipeLen dt := by
  have he := typeSize_pos dt
  have hk : 0 < kPipeBytes := by decide
  have h : count * typeSize dt ≤ pieces (count * typeSize dt) * kPipeBytes := by
    unfold pieces
    have hd := Nat.div_add_mod (count * typeSize dt + kPipeBytes - 1) kPipeBytes
    have hm := Nat.mod_lt (count * typeSize dt + kPipeBytes - 1) hk
    rw [Nat.mul_comm] at hd
    omega
  rw [offset_eq dt] at h
  exact Nat.le_of_mul_le_mul_right h he

/-! ## Reduce -/

/-- The calls of `doReduce` on several ranks, piece by piece. -/
theorem doReduce_eq {n r root : Nat} {send recv : Ptr} {count : Nat} {dt : DataType} {op : RedOp}
    {premul : Option Factor} (hn : n ≠ 1) (hc : count ≠ 0) :
    doReduce n r send recv count dt op premul root =
      [Call.scratchAt kPipeBytes] ++
      (if r = (root + 1) % n ∧ premul.isNone then [Call.regAdd send (count * typeSize dt)] else []) ++
      (List.range (pieces (count * typeSize dt))).flatMap fun j =>
        let off := j * pipeLen dt * typeSize dt
        let len := pieceLen dt count j
        if r = (root + 1) % n then
          (premul.elim [] fun k => [Call.cpuScaleCopy dt scratch (send + off) len (.scalar k)]) ++
          [Call.send (next n r) (if premul.isSome then scratch else send + off) (len * typeSize dt)]
        else if r = root then
          Call.recv (prev n r) scratch (len * typeSize dt) ::
            finishCalls n dt op (recv + off) (send + off) scratch len premul
        else
          Call.recv (prev n r) scratch (len * typeSize dt) ::
            (gainCalls dt op scratch (send + off) len premul ++
              [Call.send (next n r) scratch (len * typeSize dt)]) := by
  unfold doReduce
  simp only [if_neg hn, if_neg hc, piece_eq, Nat.mul_div_cancel _ (typeSize_pos dt)]
  simp only [offset_eq dt]
  congr 1
  refine List.flatMap_congr fun j _ => ?_
  cases premul with
  | none => simp [finishCalls, enterCalls, gainCalls]
  | some k => simp [finishCalls, enterCalls, gainCalls]

/-- The messages of `doReduce`: piece `j` leaves the rank at distance `d` from the head at time
`2 * j + d`. -/
def reduceChainMsgs (K : Kernels) (dt : DataType) (op : RedOp) (premul : Nat → Option Factor)
    (n count root : Nat) (x : Nat → Nat → Word (typeSize dt)) (p _q t : Nat) : List UInt8 :=
  pack (typeSize dt) (pieceLen dt count ((t - dist n ((root + 1) % n) p) / 2)) fun i =>
    travelled K op premul n
      (fun p' => x p' ((t - dist n ((root + 1) % n) p) / 2 * pipeLen dt + i)) root
      (dist n ((root + 1) % n) p)

/-- Places on the chain. -/
structure OnChain (n root r : Nat) : Prop where
  root : root < n
  rank : r < n
  two : 2 ≤ n

namespace OnChain

variable {n root r : Nat}

theorem head_lt (h : OnChain n root r) : (root + 1) % n < n := Nat.mod_lt _ (by have := h.two; omega)

/-- The rank at its distance from the head. -/
theorem at_dist (h : OnChain n root r) : (root + 1 + dist n ((root + 1) % n) r) % n = r := by
  have hn := h.two
  have hd : dist n ((root + 1) % n) r < n := dist_lt (by omega)
  have h1 := (dist_eq_iff h.rank h.head_lt hd).mp rfl
  have h2 := (add_sub_mod_iff h.rank h.head_lt (Nat.le_of_lt hd)).mp h1.symm
  rwa [Nat.mod_add_mod] at h2

theorem dist_zero (h : OnChain n root r) : dist n ((root + 1) % n) r = 0 ↔ r = (root + 1) % n :=
  dist_eq_zero_iff h.head_lt h.rank

theorem dist_last (h : OnChain n root r) : dist n ((root + 1) % n) r + 1 = n ↔ r = root := by
  rw [dist_last_iff h.head_lt h.rank]
  have hnext : next n root = (root + 1) % n := rfl
  rw [← hnext]
  exact ⟨fun e => by rw [← prev_next h.rank, e, prev_next h.root], fun e => by rw [e]⟩

/-- The predecessor is one closer to the head. -/
theorem dist_prev (h : OnChain n root r) (h0 : dist n ((root + 1) % n) r ≠ 0) :
    dist n ((root + 1) % n) (prev n r) = dist n ((root + 1) % n) r - 1 := by
  have hn := h.two
  have hd := dist_next h.head_lt (prev_lt r (show 0 < n by omega))
  rw [next_prev h.rank] at hd
  split at hd
  · exact absurd hd h0
  · omega

theorem head_ne_root (h : OnChain n root r) : (root + 1) % n ≠ root := by
  have hn := h.two
  have := add_mod_ne (x := root) (d := 1) (n := n) Nat.one_pos (by omega)
  rwa [Nat.mod_eq_of_lt h.root] at this

end OnChain

section Reduce

variable {K : Kernels} {Q : Mem → Prop} {m m' : Mem} {n r root : Nat} {send recv : Ptr}
  {count j : Nat} {dt : DataType} {op : RedOp} {premul : Nat → Option Factor}
  {x : Nat → Nat → Word (typeSize dt)}

/-- What leaves a rank for piece `j`. -/
theorem reduceChainMsgs_eq {p q d : Nat} (hd : dist n ((root + 1) % n) p = d) :
    reduceChainMsgs K dt op premul n count root x p q (0 + 2 * j + d) =
      pack (typeSize dt) (pieceLen dt count j) fun i =>
        travelled K op premul n (fun p' => x p' (j * pipeLen dt + i)) root d := by
  have ht : (0 + 2 * j + d - d) / 2 = j := by omega
  rw [reduceChainMsgs, hd, ht]

/-- A piece of the send buffer, as long as it has not been written. -/
theorem elems_piece (hx : ∀ k, x r k = word (typeSize dt) m send k)
    (hm' : ∀ k, k < count → j * pipeLen dt ≤ k → word (typeSize dt) m' send k =
      word (typeSize dt) m send k) :
    Elems dt (pieceLen dt count j) (send + j * pipeLen dt * typeSize dt)
      (fun i => x r (j * pipeLen dt + i)) m' := fun i hi => by
  rw [word_add, hm' _ (index_lt_count hi) (Nat.le_add_right _ _)]
  exact (hx _).symm

theorem OnlyWrites.word {e : Nat} {q : Ptr} (h : OnlyWrites q 0 m m') (hp : send.obj ≠ .scratch)
    (k : Nat) : word e m' send k = word e m send k := by
  funext i
  exact h _ hp (not_inRange_zero _ _)

/-- The head sends its contribution. -/
theorem wp_headPiece (h : OnChain n root r) (hd : dist n ((root + 1) % n) r = 0)
    (hj : j < pieces (count * typeSize dt)) (hsend : send.obj ≠ .scratch)
    (hx : ∀ k, x r k = word (typeSize dt) m send k) (hm : OnlyWrites recv 0 m m') :
    wp (Carries (reduceChainMsgs K dt op premul n count root x)) r
      (code K (((premul r).elim [] fun k => [Call.cpuScaleCopy dt scratch
          (send + j * pipeLen dt * typeSize dt) (pieceLen dt count j) (.scalar k)]) ++
        [Call.send (next n r) (if (premul r).isSome then scratch else
          send + j * pipeLen dt * typeSize dt) (pieceLen dt count j * typeSize dt)]))
      ([Slot.mk (0 + 2 * j + dist n ((root + 1) % n) r)
        (part (next n r) (pieceLen dt count j * typeSize dt)) none].map Slot.entry)
      (OnlyWrites recv 0 m) m' := by
  have hb : pieceLen dt count j * typeSize dt ≠ 0 :=
    Nat.pos_iff_ne_zero.mp (Nat.mul_pos (pieceLen_pos hj) (typeSize_pos dt))
  have hpiece : Elems dt (pieceLen dt count j) (send + j * pipeLen dt * typeSize dt)
      (fun i => x r (j * pipeLen dt + i)) m' := elems_piece hx fun k _ _ => hm.word hsend k
  have hrank := h.at_dist
  rw [hd, Nat.add_zero] at hrank
  rw [hd]
  cases hpm : premul r with
  | none =>
    refine wp_send (l := []) hb ?_ hm
    rw [reduceChainMsgs_eq hd]
    simp only [travelled, hrank, hpm]
    exact pack_congr fun i hi => (hpiece i hi).symm
  | some k =>
    refine wp_local rfl (wp_send (l := []) hb ?_ (hm.trans (onlyWrites_scratch rfl)))
    rw [reduceChainMsgs_eq hd]
    simp only [travelled, hrank, hpm]
    exact pack_congr fun i hi => (elems_cpuScaleCopy (c := .scalar k) hpiece i hi).symm

/-- A rank in between takes its contribution in and passes the partial on. -/
theorem wp_middlePiece (h : OnChain n root r) (hd : dist n ((root + 1) % n) r ≠ 0)
    (hj : j < pieces (count * typeSize dt)) (hsend : send.obj ≠ .scratch)
    (hx : ∀ k, x r k = word (typeSize dt) m send k) (hm : OnlyWrites recv 0 m m') :
    wp (Carries (reduceChainMsgs K dt op premul n count root x)) r
      (code K (Call.recv (prev n r) scratch (pieceLen dt count j * typeSize dt) ::
        (gainCalls dt op scratch (send + j * pipeLen dt * typeSize dt) (pieceLen dt count j)
            (premul r) ++
          [Call.send (next n r) scratch (pieceLen dt count j * typeSize dt)])))
      ([Slot.mk (0 + 2 * j + (dist n ((root + 1) % n) r - 1)) none
          (part (prev n r) (pieceLen dt count j * typeSize dt)),
        Slot.mk (0 + 2 * j + dist n ((root + 1) % n) r)
          (part (next n r) (pieceLen dt count j * typeSize dt)) none].map Slot.entry)
      (OnlyWrites recv 0 m) m' := by
  have hb : pieceLen dt count j * typeSize dt ≠ 0 :=
    Nat.pos_iff_ne_zero.mp (Nat.mul_pos (pieceLen_pos hj) (typeSize_pos dt))
  obtain ⟨d, hd'⟩ : ∃ d, dist n ((root + 1) % n) r = d + 1 := ⟨_, (Nat.succ_pred hd).symm⟩
  have hrank := h.at_dist
  have hprev := h.dist_prev hd
  rw [hd'] at hrank hprev ⊢
  rw [Nat.add_sub_cancel] at hprev ⊢
  refine wp_recv hb (reduceChainMsgs_eq hprev) ?_
  have hfr := hm.trans (onlyWrites_scratch (m := m') (c := pieceLen dt count j) (g := fun i =>
    travelled K op premul n (fun p' => x p' (j * pipeLen dt + i)) root d) (q := scratch) rfl)
  refine wp_calls_append (l := []) (wp_gain (premul r) elems_putWords
    (elems_piece hx fun k _ _ => hfr.word hsend k) fun m₂ h₂ hm₂ => ?_)
  refine wp_send (l := []) hb ?_ (hfr.trans fun a ha _ => hm₂ a fun hin => ha hin.1)
  rw [reduceChainMsgs_eq hd']
  refine pack_congr fun i hi => ?_
  simp only [travelled, hrank]
  exact (h₂ i hi).symm

/-- The root's buffer before piece `j`: the pieces before are done, and nothing else of the user's
memory is written. -/
structure RootDone (K : Kernels) (dt : DataType) (op : RedOp) (premul : Nat → Option Factor)
    (n count root : Nat) (x : Nat → Nat → Word (typeSize dt)) (recv : Ptr) (m : Mem) (j : Nat)
    (m' : Mem) : Prop where
  done : ∀ k, k < count → k < j * pipeLen dt → word (typeSize dt) m' recv k =
    arrived K op premul n (fun p => x p k) root
  rest : OnlyWrites recv (min (j * pipeLen dt) count * typeSize dt) m m'

/-- The pieces to come are still in the root's send buffer, which may be its receive buffer. -/
theorem RootDone.unread (hm : RootDone K dt op premul n count root x recv m j m')
    (hsend : send.obj ≠ .scratch)
    (hplace : recv = send ∨ Apart recv (count * typeSize dt) send (count * typeSize dt)) {k : Nat}
    (hk : k < count) (hjk : j * pipeLen dt ≤ k) :
    word (typeSize dt) m' send k = word (typeSize dt) m send k := by
  funext b
  refine hm.rest _ hsend ?_
  rcases hplace with rfl | hap
  · have := not_inRange_of_index (p := recv) (b := 0) (c := min (j * pipeLen dt) count) (i := k)
      (by omega) b
    rwa [Nat.zero_mul, Ptr.add_zero] at this
  · have hle := Nat.mul_le_mul_right (typeSize dt) (Nat.min_le_right (j * pipeLen dt) count)
    have hap' : Apart (recv + 0) (min (j * pipeLen dt) count * typeSize dt) (send + 0)
        (count * typeSize dt) := hap.mono (by omega) (by omega)
    exact hap'.not_inRange_word hk b

/-- The root folds the piece into its buffer. -/
theorem wp_rootPiece (h : OnChain n root r) (hd : dist n ((root + 1) % n) r + 1 = n)
    (hj : j < pieces (count * typeSize dt)) (hsend : send.obj ≠ .scratch)
    (hrecv : recv.obj ≠ .scratch)
    (hplace : recv = send ∨ Apart recv (count * typeSize dt) send (count * typeSize dt))
    (hx : ∀ k, x r k = word (typeSize dt) m send k)
    (hm : RootDone K dt op premul n count root x recv m j m') :
    wp (Carries (reduceChainMsgs K dt op premul n count root x)) r
      (code K (Call.recv (prev n r) scratch (pieceLen dt count j * typeSize dt) ::
        finishCalls n dt op (recv + j * pipeLen dt * typeSize dt)
          (send + j * pipeLen dt * typeSize dt) scratch (pieceLen dt count j) (premul r)))
      ([Slot.mk (0 + 2 * j + (dist n ((root + 1) % n) r - 1)) none
          (part (prev n r) (pieceLen dt count j * typeSize dt))].map Slot.entry)
      (RootDone K dt op premul n count root x recv m (j + 1)) m' := by
  have hn := h.two
  have hb : pieceLen dt count j * typeSize dt ≠ 0 :=
    Nat.pos_iff_ne_zero.mp (Nat.mul_pos (pieceLen_pos hj) (typeSize_pos dt))
  obtain rfl : r = root := h.dist_last.mp hd
  have hprev := h.dist_prev (by omega)
  rw [show dist n ((r + 1) % n) r - 1 = n - 2 by omega] at hprev ⊢
  refine wp_recv (l := []) hb (reduceChainMsgs_eq hprev) ?_
  have hfr := onlyWrites_scratch (m := m') (p := recv) (b := 0) (c := pieceLen dt count j)
    (g := fun i => travelled K op premul n (fun p' => x p' (j * pipeLen dt + i)) r (n - 2))
    (q := scratch) rfl
  have hpiece : Elems dt (pieceLen dt count j) (send + j * pipeLen dt * typeSize dt)
      (fun i => x r (j * pipeLen dt + i)) _ := elems_piece hx fun k hk hjk =>
    (hfr.word hsend k).trans (hm.unread hsend hplace hk hjk)
  refine wp_finish n (premul r) rfl hrecv elems_putWords hpiece fun m₂ h₂ hm₂ => ⟨fun k hk hkj => ?_,
    fun a ha hout => ?_⟩
  · by_cases hlt : k < j * pipeLen dt
    · rw [← hm.done k hk hlt, ← hfr.word hrecv k]
      funext b
      exact hm₂ _ (not_inRange_of_index (by omega) b)
    · -- an element of this piece
      have hi : k - j * pipeLen dt < pieceLen dt count j := by
        rw [Nat.succ_mul] at hkj
        unfold pieceLen
        omega
      have hval := h₂ _ hi
      have hk' : j * pipeLen dt + (k - j * pipeLen dt) = k := by omega
      simp only [word_add, hk'] at hval
      rw [hval, arrived, if_neg (by omega)]
  · have hsub : min (j * pipeLen dt) count ≤ min ((j + 1) * pipeLen dt) count := by
      rw [Nat.succ_mul]
      omega
    have hend : j * pipeLen dt + pieceLen dt count j ≤ min ((j + 1) * pipeLen dt) count := by
      have := pieceLen_pos hj
      rw [Nat.succ_mul]
      unfold pieceLen at *
      omega
    have hsub' := Nat.mul_le_mul_right (typeSize dt) hsub
    have hend' := Nat.mul_le_mul_right (typeSize dt) hend
    rw [Nat.add_mul] at hend'
    rw [hm₂ a fun hin => hout ?_, hfr a ha (not_inRange_zero _ _), hm.rest a ha fun hin => hout ?_]
    · exact ⟨hin.1, hin.2.1, by have := hin.2.2; omega⟩
    · obtain ⟨h1, h2, h3⟩ := hin
      simp only [Ptr.add_obj, Ptr.add_off] at h1 h2 h3
      exact ⟨h1, by omega, by omega⟩

/-- The pieces of `doReduce`, with the sizes counted in elements. -/
theorem chain_pieces (t head N : Nat) :
    (chain t n head r N fun j => min kPipeBytes (count * typeSize dt - j * kPipeBytes)) =
      chain t n head r N fun j => pieceLen dt count j * typeSize dt := by
  simp only [piece_eq]

/-- `doReduce`. The root may receive in place. -/
theorem wp_doReduce (hroot : root < n) (hr : r < n) (hsend : send.obj ≠ .scratch)
    (hrecv : r = root → recv.obj ≠ .scratch)
    (hplace : r = root →
      recv = send ∨ Apart recv (count * typeSize dt) send (count * typeSize dt))
    (hx : ∀ k, x r k = word (typeSize dt) m send k)
    (hQ : ∀ m', (r = root →
      Elems dt count recv (fun k => arrived K op premul n (fun p => x p k) root) m') → Q m') :
    wp (Carries (reduceChainMsgs K dt op premul n count root x)) r
      (code K (doReduce n r send recv count dt op (premul r) root))
      ((if n = 1 ∨ count = 0 then [] else
        chain 0 n ((root + 1) % n) r (pieces (count * typeSize dt)) fun j =>
          min kPipeBytes (count * typeSize dt - j * kPipeBytes)).map Slot.entry) Q m := by
  by_cases hn : n = 1
  · rw [if_pos (Or.inl hn)]
    have hcalls : doReduce n r send recv count dt op (premul r) root =
        aloneCalls dt recv send count (premul r) := by
      unfold doReduce aloneCalls
      simp only [if_pos hn]
      cases premul r <;> simp
    rw [hcalls]
    obtain rfl : r = root := by omega
    refine wp_alone (x := fun k => x r k) (premul r) (fun k _ => (hx k).symm) fun m' h _ =>
      hQ m' fun _ => h.congr fun k _ => ?_
    rw [arrived, if_pos hn]
  by_cases hc : count = 0
  · rw [if_pos (Or.inr hc)]
    have hcalls : doReduce n r send recv count dt op (premul r) root = [] := by
      simp [doReduce, hn, hc]
    rw [hcalls]
    exact hQ m fun _ k hk => absurd hk (by omega)
  rw [if_neg (by omega), doReduce_eq hn hc, chain_pieces]
  have h : OnChain n root r := ⟨hroot, hr, by omega⟩
  simp only [List.cons_append, List.nil_append]
  refine wp_skip rfl ?_
  rw [← List.nil_append (chain 0 n _ r _ _)]
  refine wp_calls_append ?_
  have hreg : ∀ {Q : Mem → Prop} {m : Mem}, Q m →
      wp (Carries (reduceChainMsgs K dt op premul n count root x)) r
        (code K (if r = (root + 1) % n ∧ (premul r).isNone = true then
          [Call.regAdd send (count * typeSize dt)] else []))
        (([] : List Slot).map Slot.entry) Q m := fun hQ => by
    split
    · exact wp_skip (l := []) rfl hQ
    · exact hQ
  refine hreg ?_
  unfold chain
  -- the invariant: done so far at the root, nothing but scratch written elsewhere
  by_cases hrr : r = root
  · have hd := h.dist_last.mpr hrr
    have hd0 : dist n ((root + 1) % n) r ≠ 0 := by have := h.two; omega
    have hhead : r ≠ (root + 1) % n := fun e => hd0 (h.dist_zero.mpr e)
    refine wp_iterate (RootDone K dt op premul n count root x recv m) (fun j hj m' hm' => ?_)
      (fun m' hm' => hQ m' fun _ k hk =>
        hm'.done k hk (Nat.lt_of_lt_of_le hk (count_le_pieces dt count))) ⟨fun k _ hk => ?_, ?_⟩
    · simp only [if_neg hhead, if_pos hrr, if_neg hd0, if_pos hd, List.append_nil]
      exact wp_rootPiece h hd hj hsend (hrecv hrr) (hplace hrr) hx hm'
    · omega
    · exact onlyWrites_refl _ _ _
  · have hlast : ¬ dist n ((root + 1) % n) r + 1 = n := fun e => hrr (h.dist_last.mp e)
    refine wp_iterate (fun _ => OnlyWrites recv 0 m) (fun j hj m' hm' => ?_)
      (fun m' _ => hQ m' fun e => absurd e hrr) (onlyWrites_refl _ _ _)
    by_cases hhead : r = (root + 1) % n
    · have hd := h.dist_zero.mpr hhead
      simp only [if_pos hhead, if_pos hd, if_neg hlast, List.nil_append]
      exact wp_headPiece h hd hj hsend hx hm'
    · have hd : dist n ((root + 1) % n) r ≠ 0 := fun e => hhead (h.dist_zero.mp e)
      simp only [if_neg hhead, if_neg hrr, if_neg hd, if_neg hlast]
      exact wp_middlePiece h hd hj hsend hx hm'

end Reduce

/-- **What reduce computes.** Every run ends, with `arrived` of the inputs in the root's receive
buffer. -/
theorem ends_doReduce (K : Kernels) {n root : Nat} (hroot : root < n) (sendbuff recvbuff : Nat → Ptr)
    (count : Nat) (dt : DataType) (op : RedOp) (premul : Nat → Option Factor) (m : Nat → Mem)
    (hsend : ∀ r, r < n → (sendbuff r).obj ≠ .scratch) (hrecv : (recvbuff root).obj ≠ .scratch)
    (hplace : recvbuff root = sendbuff root ∨ Apart (recvbuff root) (count * typeSize dt)
      (sendbuff root) (count * typeSize dt)) :
    Net.Ends Net.Step
      (system K n (fun r => doReduce n r (sendbuff r) (recvbuff r) count dt op (premul r) root) m)
      fun c => (∀ r, c.code r = []) ∧
        Elems dt count (recvbuff root)
          (fun k => arrived K op premul n (fun p => word (typeSize dt) (m p) (sendbuff p) k) root)
          (c.mem root) := by
  have hplan : Schedule n 0 (0 + (2 * pieces (count * typeSize dt) + n)) fun r =>
      if n = 1 ∨ count = 0 then [] else
        chain 0 n ((root + 1) % n) r (pieces (count * typeSize dt)) fun j =>
          min kPipeBytes (count * typeSize dt - j * kPipeBytes) :=
    (schedule_chain (Nat.mod_lt _ (by omega))).unless
  obtain ⟨hacc, hend⟩ := ends_of_schedule hplan fun r hr =>
    wp_doReduce (Q := fun m' => r = root → Elems dt count (recvbuff r) (fun k => arrived K op premul n
        (fun p => word (typeSize dt) (m p) (sendbuff p) k) root) m')
      (x := fun p k => word (typeSize dt) (m p) (sendbuff p) k) hroot hr (hsend r hr)
      (fun e => by rw [e]; exact hrecv) (fun e => by rw [e]; exact hplace) (fun _ => rfl)
      fun _ h => h
  refine ⟨hacc, fun c hc hstop => ?_⟩
  obtain ⟨hdone, hval⟩ := hend c hc hstop
  exact ⟨hdone, hval root hroot rfl⟩

/-! ## Broadcast -/

/-- The messages of `doBroadcast`: the pieces of `G`. -/
def broadcastMsgs {dt : DataType} (n count root : Nat) (G : Nat → Word (typeSize dt)) (p _q t : Nat) :
    List UInt8 :=
  pack (typeSize dt) (pieceLen dt count ((t - dist n root p) / 2)) fun i =>
    G ((t - dist n root p) / 2 * pipeLen dt + i)

section Broadcast

variable {K : Kernels} {Q : Mem → Prop} {m : Mem} {n r root : Nat} {sendbuff recv : Ptr}
  {count j : Nat} {dt : DataType} {G : Nat → Word (typeSize dt)}

theorem broadcastMsgs_eq {p q d : Nat} (hd : dist n root p = d) :
    broadcastMsgs n count root G p q (0 + 2 * j + d) =
      pack (typeSize dt) (pieceLen dt count j) fun i => G (j * pipeLen dt + i) := by
  have ht : (0 + 2 * j + d - d) / 2 = j := by omega
  rw [broadcastMsgs, hd, ht]

/-- The elements a rank has before piece `j`: the root all, the others those of the pieces
before. -/
def HasPieces (dt : DataType) (count : Nat) (recv : Ptr) (G : Nat → Word (typeSize dt))
    (isRoot : Prop) (j : Nat) (m : Mem) : Prop :=
  ∀ k, k < count → isRoot ∨ k < j * pipeLen dt → word (typeSize dt) m recv k = G k

/-- `doBroadcast`. -/
theorem wp_doBroadcast (hroot : root < n) (hr : r < n)
    (hG : r = root → ∀ k, k < count → word (typeSize dt) m sendbuff k = G k)
    (hQ : ∀ m', Elems dt count recv G m' → Q m') :
    wp (Carries (broadcastMsgs n count root G)) r
      (code K (doBroadcast n r sendbuff recv count dt root))
      ((if n = 1 ∨ count = 0 then [] else
        chain 0 n root r (pieces (count * typeSize dt)) fun j =>
          min kPipeBytes (count * typeSize dt - j * kPipeBytes)).map Slot.entry) Q m := by
  have hn : 0 < n := by omega
  unfold doBroadcast
  simp only [piece_eq]
  simp only [offset_eq dt]
  rw [← List.nil_append (if n = 1 ∨ count = 0 then [] else chain 0 n root r _ _)]
  refine wp_calls_append ?_
  -- the root starts with its data in place
  suffices h : ∀ m', HasPieces dt count recv G (r = root) 0 m' →
      wp (Carries (broadcastMsgs n count root G)) r _ _ Q m' by
    split
    · rename_i hcp
      refine wp_local (l := []) rfl (h _ fun k hk _ => ?_)
      rw [memcpy_eq_putWords, putWords_hit hk]
      exact hG hcp.1 k hk
    · rename_i hcp
      refine h m fun k hk hor => ?_
      have hrr : r = root := hor.resolve_right (by omega)
      have hin : sendbuff = recv := Classical.not_not.mp fun hne => hcp ⟨hrr, hne⟩
      rw [← hin]
      exact hG hrr k hk
  intro m' hm'
  by_cases h0 : n = 1 ∨ count = 0
  · rw [if_pos h0, if_pos h0]
    refine hQ m' fun k hk => hm' k hk (Or.inl ?_)
    omega
  rw [if_neg h0, if_neg h0]
  simp only [List.cons_append, List.nil_append]
  refine wp_skip rfl ?_
  unfold chain
  refine wp_iterate (HasPieces dt count recv G (r = root)) (fun j hj m' hm' => ?_)
    (fun m' hm' => hQ m' fun k hk =>
      hm' k hk (Or.inr (Nat.lt_of_lt_of_le hk (count_le_pieces dt count)))) hm'
  have hb : pieceLen dt count j * typeSize dt ≠ 0 :=
    Nat.pos_iff_ne_zero.mp (Nat.mul_pos (pieceLen_pos hj) (typeSize_pos dt))
  have hd0 := dist_eq_zero_iff hroot hr
  have hlast := dist_last_iff hroot hr
  -- a rank that has piece `j` sends it on
  have hsend : ∀ m', HasPieces dt count recv G (r = root) (j + 1) m' →
      broadcastMsgs n count root G r (next n r) (0 + 2 * j + dist n root r) =
        pack (typeSize dt) (pieceLen dt count j)
          (word (typeSize dt) m' (recv + j * pipeLen dt * typeSize dt)) := fun m' hm' => by
    rw [broadcastMsgs_eq rfl]
    refine pack_congr fun i hi => ?_
    rw [word_add, hm' _ (index_lt_count hi) (Or.inr ?_)]
    have := pieceLen_le dt count j
    rw [Nat.succ_mul]
    omega
  by_cases hrr : r = root
  · have hd := hd0.mpr hrr
    have hnl : ¬ dist n root r + 1 = n := by omega
    simp only [if_pos hrr, if_pos hd, if_neg hnl, List.nil_append]
    have hm'' : HasPieces dt count recv G (r = root) (j + 1) m' := fun k hk _ =>
      hm' k hk (Or.inl hrr)
    have hmsg := hsend m' hm''
    rw [hd] at hmsg ⊢
    exact wp_send (l := []) hb hmsg hm''
  · have hd : ¬ dist n root r = 0 := fun e => hrr (hd0.mp e)
    have hprev : dist n root (prev n r) = dist n root r - 1 := by
      have hnx := dist_next hroot (prev_lt r hn)
      rw [next_prev hr] at hnx
      split at hnx
      · exact absurd hnx hd
      · omega
    have hm'' : HasPieces dt count recv G (r = root) (j + 1)
        (putWords (typeSize dt) m' (recv + j * pipeLen dt * typeSize dt) (pieceLen dt count j)
          fun i => G (j * pipeLen dt + i)) := by
      intro k hk hor
      rw [word_putWords]
      split
      · rename_i hin
        rw [show j * pipeLen dt + (k - j * pipeLen dt) = k by omega]
      · rename_i hout
        refine hm' k hk (Or.inr ?_)
        have hlt := hor.resolve_left hrr
        rw [Nat.succ_mul] at hlt
        unfold pieceLen at hout
        omega
    simp only [if_neg hrr, if_neg hd, List.cons_append, List.nil_append]
    refine wp_recv hb (broadcastMsgs_eq hprev) ?_
    by_cases hl : next n r = root
    · rw [if_pos hl, if_pos (hlast.mpr hl)]
      exact hm''
    · rw [if_neg hl, if_neg fun e => hl (hlast.mp e)]
      exact wp_send (l := []) hb (hsend _ hm'') hm''

end Broadcast

/-- **What broadcast computes.** -/
theorem ends_doBroadcast (K : Kernels) {n root : Nat} (hroot : root < n)
    (sendbuff recvbuff : Nat → Ptr) (count : Nat) (dt : DataType) (m : Nat → Mem) :
    Net.Ends Net.Step
      (system K n (fun r => doBroadcast n r (sendbuff r) (recvbuff r) count dt root) m)
      fun c => (∀ r, c.code r = []) ∧ ∀ r, r < n →
        Elems dt count (recvbuff r) (word (typeSize dt) (m root) (sendbuff root)) (c.mem r) := by
  have hplan : Schedule n 0 (0 + (2 * pieces (count * typeSize dt) + n)) fun r =>
      if n = 1 ∨ count = 0 then [] else
        chain 0 n root r (pieces (count * typeSize dt)) fun j =>
          min kPipeBytes (count * typeSize dt - j * kPipeBytes) :=
    (schedule_chain hroot).unless
  exact ends_of_schedule hplan fun r hr => wp_doBroadcast
    (G := word (typeSize dt) (m root) (sendbuff root)) hroot hr (fun e k _ => by rw [e])
    fun _ h => h

/-! ## Gather and scatter -/

section Star

variable {K : Kernels} {Q : Mem → Prop} {m : Mem} {n r root : Nat} {count : Nat} {dt : DataType}

/-- A rank other than the root has one slot. -/
theorem starPlan_leaf {t bytes : Nat} (hroot : root < n) (hr : r < n) (hne : r ≠ root) :
    starPlan t n root r bytes = [⟨t + (dist n root r - 1), none, part root bytes⟩] := by
  have hd : dist n root r ≠ 0 := fun h => hne ((dist_eq_zero_iff hroot hr).mp h)
  have hlt : dist n root r < n := dist_lt (by omega)
  have hround : ∀ s, s < n - 1 → (r = (root + (s + 1)) % n ↔ s + 1 = dist n root r) := by
    intro s hs
    rw [eq_comm (a := s + 1), dist_eq_iff hr hroot (by omega), eq_comm,
      eq_comm (a := root) (b := (r + n - (s + 1)) % n), add_sub_mod_iff hr hroot (by omega)]
  unfold starPlan rounds
  refine filterMap_range_single (dist n root r - 1) ?_ (n - 1) (by omega) fun s hs hs0 => ?_
  · rw [star, if_neg hne, if_pos ((hround _ (by omega)).mpr (by omega))]
    rfl
  · rw [star, if_neg hne, if_neg fun h => hs0 (by have := (hround s hs).mp h; omega)]
    rfl

/-- The root has one slot for every other rank. -/
theorem starPlan_hub {t bytes : Nat} :
    starPlan t n root root bytes =
      rounds t (n - 1) fun s => some (part ((root + (s + 1)) % n) bytes, none) := by
  unfold starPlan
  congr 1
  funext s
  exact if_pos rfl

theorem rounds_swap (t N : Nat) (f : Round) :
    (rounds t N f).map Slot.swap = rounds t N fun s => (f s).map Prod.swap := by
  unfold rounds
  rw [List.map_filterMap]
  congr 1
  funext s
  simp only
  cases f s <;> rfl

/-- The loop of the root runs through the ranks after it. -/
theorem range'_loop (body : Nat → List Call) (N : Nat) :
    (List.range' 1 N).flatMap body = (List.range N).flatMap fun s => body (s + 1) := by
  rw [List.range'_eq_map_range, List.flatMap_map]
  exact List.flatMap_congr fun s _ => by rw [Nat.add_comm]

/-- Every rank but the root comes up. -/
theorem exists_round {b : Nat} (hroot : root < n) (hb : b < n) (hne : b ≠ root) :
    ∃ s, s < n - 1 ∧ b = (root + (s + 1)) % n := by
  have hd : dist n root b ≠ 0 := fun h => hne ((dist_eq_zero_iff hroot hb).mp h)
  have hlt : dist n root b < n := dist_lt (by omega)
  refine ⟨dist n root b - 1, by omega, ?_⟩
  have h := (dist_eq_iff hb hroot hlt).mp rfl
  rw [show dist n root b - 1 + 1 = dist n root b by omega]
  exact ((add_sub_mod_iff hb hroot (Nat.le_of_lt hlt)).mp h.symm).symm

/-- Different blocks are apart. -/
theorem apart_blocks {p : Ptr} {a b len : Nat} (h : a ≠ b) : Apart (p + a * len) len (p + b * len) len := by
  refine apart_add ?_
  rcases Nat.lt_or_gt_of_ne h with h | h
  · have := Nat.mul_le_mul_right len (show a + 1 ≤ b from h)
    rw [Nat.succ_mul] at this
    exact Or.inl this
  · have := Nat.mul_le_mul_right len (show b + 1 ≤ a from h)
    rw [Nat.succ_mul] at this
    exact Or.inr this

/-- `doGather`: `x p` are the elements of rank `p`. -/
theorem wp_doGather {sendbuff recv : Ptr} {x : Nat → Nat → Word (typeSize dt)} (hroot : root < n)
    (hr : r < n) (hx : ∀ k, x r k = word (typeSize dt) m sendbuff k)
    (hQ : ∀ m', (r = root → ∀ b, b < n →
      Elems dt count (recv + b * (count * typeSize dt)) (x b) m') → Q m') :
    wp (Carries fun p _ _ => pack (typeSize dt) count (x p)) r
      (code K (doGather n r sendbuff recv count dt root))
      (((if n = 1 ∨ count = 0 then [] else
        starPlan 0 n root r (count * typeSize dt)).map Slot.swap).map Slot.entry) Q m := by
  have hown : Elems dt count sendbuff (x r) m := fun k _ => (hx k).symm
  unfold doGather
  by_cases h0 : n = 1 ∨ count = 0
  · simp only [if_pos h0, List.map_nil]
    suffices h : ∀ m', Elems dt count recv (x r) m' → Q m' by
      split
      · exact wp_local (l := []) rfl (h _ (elems_memcpy hown))
      · rename_i hcp
        refine h m fun k hk => ?_
        have hin : sendbuff = recv := Classical.not_not.mp fun hne => hcp ⟨by omega, hne⟩
        rw [← hin]
        exact hown k hk
    refine fun m' hm' => hQ m' fun _ b hb k hk => ?_
    have hn : n = 1 := h0.resolve_right (by omega)
    obtain rfl : b = r := by omega
    obtain rfl : b = 0 := by omega
    rw [Nat.zero_mul, Ptr.add_zero]
    exact hm' k hk
  have hb : count * typeSize dt ≠ 0 :=
    Nat.mul_ne_zero (fun h => h0 (Or.inr h)) (Nat.pos_iff_ne_zero.mp (typeSize_pos dt))
  simp only [if_neg h0]
  by_cases hrr : r = root
  · subst hrr
    rw [if_neg (by simp), starPlan_hub, rounds_swap, range'_loop]
    simp only [List.cons_append, List.nil_append]
    refine wp_skip rfl ?_
    rw [← List.nil_append (rounds 0 (n - 1) _)]
    refine wp_calls_append ?_
    -- the blocks in place before round `s`
    let J : Nat → Mem → Prop := fun s m' => ∀ b, b < n →
      (b = r ∨ ∃ i, i < s ∧ b = (r + (i + 1)) % n) →
      Elems dt count (recv + b * (count * typeSize dt)) (x b) m'
    suffices h : ∀ m', Elems dt count (recv + r * (count * typeSize dt)) (x r) m' →
        wp (Carries fun p _ _ => pack (typeSize dt) count (x p)) r _ _ Q m' by
      split
      · exact wp_local (l := []) rfl (h _ (elems_memcpy hown))
      · rename_i hcp
        have hin : sendbuff = recv + r * (count * typeSize dt) := Classical.not_not.mp hcp
        rw [hin] at hown
        exact h m hown
    intro m' hm'
    refine wp_rounds J (fun s hs m' hm' => ?_) (fun m' hm' => hQ m' fun _ b hb => ?_) ?_
    · refine wp_recv (l := []) hb rfl fun b hb hor => ?_
      by_cases hbp : b = (r + (s + 1)) % n
      · rw [← hbp]
        exact elems_putWords
      · refine (hm' b hb ?_).apart (apart_blocks fun e => hbp e.symm)
        rcases hor with rfl | ⟨i, hi, rfl⟩
        · exact Or.inl rfl
        · rcases Nat.lt_or_eq_of_le (Nat.le_of_lt_succ hi) with h | rfl
          · exact Or.inr ⟨i, h, rfl⟩
          · exact absurd rfl hbp
    · by_cases hbr : b = r
      · exact hm' b hb (Or.inl hbr)
      · obtain ⟨s, hs, hbs⟩ := exists_round hroot hb hbr
        exact hm' b hb (Or.inr ⟨s, hs, hbs⟩)
    · rintro b - (rfl | ⟨i, hi, -⟩)
      · exact hm'
      · exact absurd hi (Nat.not_lt_zero i)
  · rw [if_pos hrr, starPlan_leaf hroot hr hrr]
    refine wp_skip rfl (wp_send (l := []) hb ?_ (hQ m fun e => absurd e hrr))
    exact pack_congr fun k hk => (hown k hk).symm

/-- `doScatter`: `x` are the elements of the root's send buffer. -/
theorem wp_doScatter {send recvbuff : Ptr} {x : Nat → Word (typeSize dt)} (hroot : root < n)
    (hr : r < n)
    (hplace : r = root → recvbuff = send + root * (count * typeSize dt) ∨
      Apart recvbuff (count * typeSize dt) send (n * (count * typeSize dt)))
    (hx : r = root → ∀ k, k < n * count → x k = word (typeSize dt) m send k)
    (hQ : ∀ m', Elems dt count recvbuff (fun k => x (r * count + k)) m' → Q m') :
    wp (Carries fun _ q _ => pack (typeSize dt) count fun k => x (q * count + k)) r
      (code K (doScatter n r send recvbuff count dt root))
      ((if n = 1 ∨ count = 0 then [] else
        starPlan 0 n root r (count * typeSize dt)).map Slot.entry) Q m := by
  -- the blocks of the root
  have hblock : r = root → ∀ b, b < n → Elems dt count (send + b * (count * typeSize dt))
      (fun k => x (b * count + k)) m := fun hrr b hb k hk => by
    rw [← Nat.mul_assoc, word_add]
    exact (hx hrr _ (index_lt hb hk)).symm
  unfold doScatter
  by_cases h0 : n = 1 ∨ count = 0
  · simp only [if_pos h0, List.map_nil]
    suffices h : ∀ m', Elems dt count recvbuff (fun k => x (r * count + k)) m' → Q m' by
      by_cases hc : count = 0
      · rw [if_neg (by omega)]
        exact h m fun k hk => absurd hk (by omega)
      have hn : n = 1 := h0.resolve_right hc
      have h00 := hblock (by omega) 0 (by omega)
      rw [Nat.zero_mul, Ptr.add_zero] at h00
      obtain rfl : r = 0 := by omega
      split
      · exact wp_local (l := []) rfl (h _ (elems_memcpy h00))
      · rename_i hcp
        have hin : send = recvbuff := Classical.not_not.mp fun hne => hcp ⟨by omega, hne⟩
        exact h m (by rwa [← hin])
    exact hQ
  have hb : count * typeSize dt ≠ 0 :=
    Nat.mul_ne_zero (fun h => h0 (Or.inr h)) (Nat.pos_iff_ne_zero.mp (typeSize_pos dt))
  simp only [if_neg h0]
  by_cases hrr : r = root
  · subst hrr
    rw [if_neg (by simp), starPlan_hub, range'_loop]
    simp only [List.cons_append, List.nil_append]
    refine wp_skip rfl ?_
    rw [← List.nil_append (rounds 0 (n - 1) _)]
    refine wp_calls_append ?_
    -- own block delivered, the others still in the send buffer
    let J : Mem → Prop := fun m' => Elems dt count recvbuff (fun k => x (r * count + k)) m' ∧
      ∀ b, b < n → b ≠ r → Elems dt count (send + b * (count * typeSize dt))
        (fun k => x (b * count + k)) m'
    suffices h : ∀ m', J m' → wp (Carries fun _ q _ =>
        pack (typeSize dt) count fun k => x (q * count + k)) r _ _ Q m' by
      split
      · rename_i hne
        have hap := (hplace rfl).resolve_left hne
        refine wp_local (l := []) rfl (h _ ⟨elems_memcpy (hblock rfl r hr), fun b hbn _ => ?_⟩)
        rw [memcpy_eq_putWords]
        refine (hblock rfl b hbn).apart ?_
        have hle := Nat.mul_le_mul_right (count * typeSize dt) (show b + 1 ≤ n from hbn)
        rw [Nat.succ_mul] at hle
        have hsub : Apart (recvbuff + 0) (count * typeSize dt) (send + b * (count * typeSize dt))
            (count * typeSize dt) := hap.mono (by omega) hle
        exact hsub
      · rename_i hcp
        have hin : recvbuff = send + r * (count * typeSize dt) := Classical.not_not.mp hcp
        refine h m ⟨?_, fun b hb _ => hblock rfl b hb⟩
        rw [hin]
        exact hblock rfl r hr
    intro m' hm'
    refine wp_rounds (fun _ => J) (fun s hs m' hm' => ?_) (fun m' hm' => hQ m' hm'.1) hm'
    refine wp_send (l := []) hb (pack_congr fun k hk => ?_) hm'
    refine (hm'.2 _ (Nat.mod_lt _ (by omega)) ?_ k hk).symm
    have := add_mod_ne (x := r) (d := s + 1) (n := n) (by omega) (by omega)
    rwa [Nat.mod_eq_of_lt hroot] at this
  · rw [if_pos hrr, starPlan_leaf hroot hr hrr]
    exact wp_skip rfl (wp_recv (l := []) hb rfl (hQ _ elems_putWords))

end Star

/-- **What gather computes.** -/
theorem ends_doGather (K : Kernels) {n root : Nat} (hroot : root < n) (sendbuff recvbuff : Nat → Ptr)
    (count : Nat) (dt : DataType) (m : Nat → Mem) :
    Net.Ends Net.Step
      (system K n (fun r => doGather n r (sendbuff r) (recvbuff r) count dt root) m)
      fun c => (∀ r, c.code r = []) ∧ ∀ b, b < n →
        Elems dt count (recvbuff root + b * (count * typeSize dt))
          (word (typeSize dt) (m b) (sendbuff b)) (c.mem root) := by
  have hplan : Schedule n 0 (0 + (n - 1)) fun r =>
      (if n = 1 ∨ count = 0 then [] else starPlan 0 n root r (count * typeSize dt)).map Slot.swap :=
    ((schedule_star hroot).unless).swap
  obtain ⟨hacc, hend⟩ := ends_of_schedule hplan fun r hr =>
    wp_doGather (Q := fun m' => r = root → ∀ b, b < n → Elems dt count
        (recvbuff r + b * (count * typeSize dt)) (word (typeSize dt) (m b) (sendbuff b)) m')
      (x := fun p => word (typeSize dt) (m p) (sendbuff p)) hroot hr (fun _ => rfl) fun _ h => h
  refine ⟨hacc, fun c hc hstop => ?_⟩
  obtain ⟨hdone, hval⟩ := hend c hc hstop
  exact ⟨hdone, hval root hroot rfl⟩

/-- **What scatter computes.** -/
theorem ends_doScatter (K : Kernels) {n root : Nat} (hroot : root < n)
    (sendbuff recvbuff : Nat → Ptr) (count : Nat) (dt : DataType) (m : Nat → Mem)
    (hplace : recvbuff root = sendbuff root + root * (count * typeSize dt) ∨
      Apart (recvbuff root) (count * typeSize dt) (sendbuff root) (n * (count * typeSize dt))) :
    Net.Ends Net.Step
      (system K n (fun r => doScatter n r (sendbuff r) (recvbuff r) count dt root) m)
      fun c => (∀ r, c.code r = []) ∧ ∀ r, r < n → Elems dt count (recvbuff r)
        (fun k => word (typeSize dt) (m root) (sendbuff root) (r * count + k)) (c.mem r) := by
  have hplan : Schedule n 0 (0 + (n - 1)) fun r =>
      if n = 1 ∨ count = 0 then [] else starPlan 0 n root r (count * typeSize dt) :=
    (schedule_star hroot).unless
  exact ends_of_schedule hplan fun r hr =>
    wp_doScatter (x := word (typeSize dt) (m root) (sendbuff root)) hroot hr
      (fun e => by rw [e]; exact hplace) (fun e k _ => by rw [e]) fun _ h => h

end Vccl
