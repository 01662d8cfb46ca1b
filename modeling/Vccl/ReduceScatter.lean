import Vccl.AllReduceLaws
import Vccl.Matching

/-!
# Reduce-scatter (`doReduceScatter`)

The partial of chunk `c` leaves rank `c + 1` and travels around the ring to rank `c`; every rank it
passes adds its own block, and the last hop is folded into `recvbuff`. A PreMulSum scales each
contribution where it enters: with `cpuScaleCopy` at the first and the last rank, with
`cpuScaledAccumulate` in between.

* `travelled`: the partial after some hops; `arrived`: what its rank ends with. No law of the
  element operation is used for them, and `doReduce` computes the same value along its chain.
* before step `s` the buffer a rank sends from holds the partial of chunk `r - s - 1` after `s`
  hops, and no byte outside scratch has changed (`wp_scatterLoop`);
* every run ends with `arrived` in the receive buffers (`ends_doReduceScatter`).
-/

namespace Vccl

open Net (wp Combines Lawful foldRange)

/-! ## The travelling partial -/

section Values

variable (K : Kernels) {dt : DataType} (op : RedOp) (premul : Nat → Option Factor) (n : Nat)

/-- A rank's contribution where it starts or ends an accumulation. -/
def entered (premul : Option Factor) (x : Word (typeSize dt)) : Word (typeSize dt) :=
  match premul with
  | some k => K.scaleCopy dt k x
  | none => x

/-- A partial that takes in a rank's contribution on the way. -/
def gained (premul : Option Factor) (a x : Word (typeSize dt)) : Word (typeSize dt) :=
  match premul with
  | some k => K.scaledAccumulate dt k a x
  | none => K.reduce dt op a x

/-- The partial bound for rank `c`: it left rank `c + 1` and took in the next `d` ranks. -/
def travelled (y : Nat → Word (typeSize dt)) (c : Nat) : Nat → Word (typeSize dt)
  | 0 => entered K (premul ((c + 1) % n)) (y ((c + 1) % n))
  | d + 1 => gained K op (premul ((c + 1 + (d + 1)) % n)) (travelled y c d)
      (y ((c + 1 + (d + 1)) % n))

/-- What rank `c` ends with: its contribution and the partial of all others. -/
def arrived (y : Nat → Word (typeSize dt)) (c : Nat) : Word (typeSize dt) :=
  if n = 1 then preScaled K (premul c) (y c)
  else averaged K op n
    (K.reduce dt op (entered K (premul c) (y c)) (travelled K op premul n y c (n - 2)))

end Values

section Once

variable {K : Kernels} {dt : DataType} {op : RedOp} {n : Nat}

theorem travelled_combines (y : Nat → Word (typeSize dt)) (c : Nat) : ∀ d,
    Combines (K.reduce dt op) y ((List.range (d + 1)).map fun j => (c + 1 + j) % n)
      (travelled K op (fun _ => none) n y c d)
  | 0 => .leaf ((c + 1) % n)
  | d + 1 => by
    rw [List.range_succ, List.map_append]
    exact .node (travelled_combines y c d) (.leaf _)

/-- The last rank, then the others from the first one on: the whole ring. -/
theorem travel_perm {c : Nat} (hc : c < n) (h2 : 2 ≤ n) :
    ([c] ++ (List.range (n - 2 + 1)).map fun j => (c + 1 + j) % n).Perm (List.range n) := by
  have hring : [c] ++ (List.range (n - 2 + 1)).map (fun j => (c + 1 + j) % n) =
      (List.range n).map fun j => (c + j) % n := by
    rw [show n = n - 2 + 1 + 1 by omega, List.range_succ_eq_map (n := n - 2 + 1)]
    rw [← show n = n - 2 + 1 + 1 by omega]
    simp only [List.map_cons, List.map_map, Nat.add_zero, Nat.mod_eq_of_lt hc,
      List.singleton_append, List.cons.injEq, true_and]
    exact List.map_congr_left fun j _ => by
      simp only [Function.comp_apply]
      congr 1
      omega
  rw [hring]
  exact ((List.reverse_perm _).symm).trans (Net.ring_perm hc)

/-- **Each rank enters once.** -/
theorem arrived_combines (hop : op ≠ .avg) (y : Nat → Word (typeSize dt)) {c : Nat} (hc : c < n) :
    ∃ l, l.Perm (List.range n) ∧
      Combines (K.reduce dt op) y l (arrived K op (fun _ => none) n y c) := by
  unfold arrived averaged
  rw [if_neg hop]
  by_cases h1 : n = 1
  · subst h1
    obtain rfl : c = 0 := by omega
    exact ⟨[0], List.Perm.refl _, .leaf 0⟩
  · rw [if_neg h1]
    have hcomb : Combines (K.reduce dt op) y _ (travelled K op (fun _ => none) n y c (n - 2)) :=
      travelled_combines y c (n - 2)
    exact ⟨_, travel_perm hc (by omega), .node (.leaf c) hcomb⟩

end Once

/-! ## Memory -/

/-- Only scratch and the bytes `[p, p + b)` may differ. -/
def OnlyWrites (p : Ptr) (b : Nat) (m m' : Mem) : Prop :=
  ∀ a, a.obj ≠ .scratch → ¬ InRange p b a → m' a = m a

section Memory

variable {K : Kernels} {dt : DataType} {op : RedOp} {count : Nat} {p q : Ptr} {m m' : Mem}
  {v u : Nat → Word (typeSize dt)}

theorem not_inRange_zero (p a : Ptr) : ¬ InRange p 0 a := by
  rintro ⟨-, h1, h2⟩
  omega

theorem onlyWrites_refl (p : Ptr) (b : Nat) (m : Mem) : OnlyWrites p b m m := fun _ _ _ => rfl

theorem OnlyWrites.mono {b c : Nat} {j : Nat} (h : OnlyWrites (p + j) b m m') (hc : j + b ≤ c) :
    OnlyWrites p c m m' := fun a ha hr => h a ha fun h' => hr (by
  obtain ⟨h1, h2, h3⟩ := h'
  simp only [Ptr.add_obj, Ptr.add_off] at h1 h2 h3
  exact ⟨h1, by omega, by omega⟩)

theorem OnlyWrites.trans {b : Nat} {m'' : Mem} (h : OnlyWrites p b m m')
    (h' : OnlyWrites p b m' m'') : OnlyWrites p b m m'' := fun a ha hr =>
  (h' a ha hr).trans (h a ha hr)

/-- A kernel or a message that writes the elements `[b, b + c)` of the array. -/
theorem onlyWrites_putWords {e b c d : Nat} {g : Nat → Word e} (hd : b + c ≤ d) :
    OnlyWrites p (d * e) m (putWords e m (p + b * e) c g) := fun a _ hr => by
  refine putWords_miss fun h => hr ?_
  obtain ⟨h1, h2, h3⟩ := h
  simp only [Ptr.add_obj, Ptr.add_off] at h1 h2 h3
  have := Nat.mul_le_mul_right e hd
  rw [Nat.add_mul] at this
  exact ⟨h1, by omega, by omega⟩

theorem onlyWrites_scratch {b e c : Nat} {g : Nat → Word e} (hq : q.obj = .scratch) :
    OnlyWrites p b m (putWords e m q c g) := fun _ ha _ =>
  putWords_miss fun h => ha (h.1.trans hq)

/-- An array that is not written keeps its elements. -/
theorem OnlyWrites.elems (h : OnlyWrites q 0 m m') (hp : p.obj ≠ .scratch)
    (hv : Elems dt count p v m) : Elems dt count p v m' := fun k hk => by
  rw [← hv k hk]
  funext j
  exact h _ hp (not_inRange_zero _ _)

/-- A message, or a kernel's result, over the whole array. -/
theorem elems_putWords : Elems dt count p v (putWords (typeSize dt) m p count v) :=
  fun _ hk => putWords_hit hk

theorem Elems.apart {c : Nat} (hv : Elems dt count p v m)
    (h : Apart q (c * typeSize dt) p (count * typeSize dt)) :
    Elems dt count p v (putWords (typeSize dt) m q c u) := fun k hk => by
  rw [word_putWords_other h hk]
  exact hv k hk

theorem Elems.congr (hv : Elems dt count p v m) (h : ∀ k, k < count → v k = u k) :
    Elems dt count p u m := fun k hk => (hv k hk).trans (h k hk)

/-- `memcpy` of the elements of another array. -/
theorem elems_memcpy (hv : Elems dt count q v m) :
    Elems dt count p v (memcpy m p q (count * typeSize dt)) := fun k hk => by
  rw [memcpy_eq_putWords, putWords_hit hk]
  exact hv k hk

theorem elems_cpuScaleCopy {c : Coef} (hv : Elems dt count q v m) :
    Elems dt count p (fun k => K.scaleCopy dt (c.value K) (v k)) (cpuScaleCopy K dt p q count c m) :=
  fun k hk => by
  unfold cpuScaleCopy
  rw [putWords_hit hk, hv k hk]

theorem Elems.cpuScaledAccumulate {c : Coef} (hv : Elems dt count p v m)
    (hu : Elems dt count q u m) :
    Elems dt count p (fun k => K.scaledAccumulate dt (c.value K) (v k) (u k))
      (cpuScaledAccumulate K dt p q count c m) := fun k hk => by
  unfold Vccl.cpuScaledAccumulate
  rw [putWords_hit hk, hv k hk, hu k hk]

end Memory

/-! ## The calls of a hop -/

/-- `cpuScaleCopy`, or `memcpy` unless the elements are in place. -/
def enterCalls (dt : DataType) (dst src : Ptr) (count : Nat) : Option Factor → List Call
  | some k => [Call.cpuScaleCopy dt dst src count (.scalar k)]
  | none => if dst ≠ src then [Call.memcpy dst src (count * typeSize dt)] else []

/-- `cpuScaledAccumulate`, or `cpuReduce`. -/
def gainCalls (dt : DataType) (op : RedOp) (dst src : Ptr) (count : Nat) : Option Factor → List Call
  | some k => [Call.cpuScaledAccumulate dt dst src count (.scalar k)]
  | none => [Call.cpuReduce dt op dst src count]

/-- The end of an accumulation at `dst`, whose partial is at `part`. -/
def finishCalls (n : Nat) (dt : DataType) (op : RedOp) (dst src part : Ptr) (count : Nat)
    (premul : Option Factor) : List Call :=
  enterCalls dt dst src count premul ++ [Call.cpuReduce dt op dst part count] ++
    if op = .avg then [Call.cpuScale dt dst count (.recip n)] else []

/-- A communicator of one rank: copy, then scale. -/
def aloneCalls (dt : DataType) (dst src : Ptr) (count : Nat) (premul : Option Factor) : List Call :=
  (if count > 0 ∧ src ≠ dst then [Call.memcpy dst src (count * typeSize dt)] else []) ++
    premul.elim [] fun k => [Call.cpuScale dt dst count (.scalar k)]

section Calls

variable {K : Kernels} {M : Nat → Nat → Nat → List UInt8} {Q : Mem → Prop} {m : Mem} {r : Nat}
  {dt : DataType} {op : RedOp} {count : Nat} {dst src : Ptr} {v x : Nat → Word (typeSize dt)}

theorem wp_enter (premul : Option Factor) (hx : Elems dt count src x m)
    (hQ : ∀ m', Elems dt count dst (fun k => entered K premul (x k)) m' →
      (∀ a, ¬ InRange dst (count * typeSize dt) a → m' a = m a) → Q m') :
    wp (Carries M) r (code K (enterCalls dt dst src count premul))
      (([] : List Slot).map Slot.entry) Q m := by
  cases premul with
  | some k => exact wp_local (l := []) rfl (hQ _ (elems_cpuScaleCopy hx) fun a ha => putWords_miss ha)
  | none =>
    by_cases h : dst ≠ src
    · rw [enterCalls, if_pos h]
      exact wp_local (l := []) rfl (hQ _ (elems_memcpy hx) fun a ha => memcpy_miss ha)
    · rw [enterCalls, if_neg h]
      obtain rfl := Classical.not_not.mp h
      exact hQ m hx fun _ _ => rfl

theorem wp_gain (premul : Option Factor) (hv : Elems dt count dst v m) (hx : Elems dt count src x m)
    (hQ : ∀ m', Elems dt count dst (fun k => gained K op premul (v k) (x k)) m' →
      (∀ a, ¬ InRange dst (count * typeSize dt) a → m' a = m a) → Q m') :
    wp (Carries M) r (code K (gainCalls dt op dst src count premul))
      (([] : List Slot).map Slot.entry) Q m := by
  cases premul with
  | some k =>
    exact wp_local (l := []) rfl (hQ _ (hv.cpuScaledAccumulate hx) fun a ha => putWords_miss ha)
  | none => exact wp_local (l := []) rfl (hQ _ (hv.cpuReduce K op hx) fun a ha => putWords_miss ha)

theorem wp_alone (premul : Option Factor) (hx : Elems dt count src x m)
    (hQ : ∀ m', Elems dt count dst (fun k => preScaled K premul (x k)) m' →
      (∀ a, ¬ InRange dst (count * typeSize dt) a → m' a = m a) → Q m') :
    wp (Carries M) r (code K (aloneCalls dt dst src count premul))
      (([] : List Slot).map Slot.entry) Q m := by
  unfold aloneCalls
  refine wp_calls_append (l := []) (w := []) ?_
  suffices h : ∀ m', Elems dt count dst x m' →
      (∀ a, ¬ InRange dst (count * typeSize dt) a → m' a = m a) →
      wp (Carries M) r (code K (premul.elim [] fun k => [Call.cpuScale dt dst count (.scalar k)]))
        (([] : List Slot).map Slot.entry) Q m' by
    by_cases hc : count > 0 ∧ src ≠ dst
    · rw [if_pos hc]
      exact wp_local (l := []) rfl (h _ (elems_memcpy hx) fun a ha => memcpy_miss ha)
    · rw [if_neg hc]
      refine h m (fun k hk => ?_) fun _ _ => rfl
      have hsd : src = dst := Classical.not_not.mp fun hne => hc ⟨by omega, hne⟩
      rw [← hsd]
      exact hx k hk
  intro m' hm' hfr
  cases premul with
  | none => exact hQ m' hm' hfr
  | some k =>
    exact wp_local (l := []) rfl (hQ _ (hm'.cpuScale (c := .scalar k)) fun a ha =>
      (putWords_miss ha).trans (hfr a ha))

/-- The own contribution, the partial, and the factor of `vcclAvg`. -/
theorem wp_finish (n : Nat) (premul : Option Factor) {part : Ptr} (hpart : part.obj = .scratch)
    (hdst : dst.obj ≠ .scratch) (hv : Elems dt count part v m) (hx : Elems dt count src x m)
    (hQ : ∀ m', Elems dt count dst (fun k =>
        averaged K op n (K.reduce dt op (entered K premul (x k)) (v k))) m' →
      (∀ a, ¬ InRange dst (count * typeSize dt) a → m' a = m a) → Q m') :
    wp (Carries M) r (code K (finishCalls n dt op dst src part count premul))
      (([] : List Slot).map Slot.entry) Q m := by
  unfold finishCalls
  rw [List.append_assoc]
  refine wp_calls_append (l := []) (w := []) (wp_enter premul hx fun m₁ h₁ hm₁ => ?_)
  -- the partial is still in scratch
  have hv₁ : Elems dt count part v m₁ := fun k hk => by
    rw [← hv k hk]
    funext j
    exact hm₁ _ fun h => hdst (h.1.symm.trans hpart)
  refine wp_local (l := []) rfl ?_
  have h₂ := h₁.cpuReduce K op hv₁
  have hm₂ : ∀ a, ¬ InRange dst (count * typeSize dt) a →
      cpuReduce K dt op dst part count m₁ a = m a := fun a ha =>
    (putWords_miss ha).trans (hm₁ a ha)
  by_cases ho : op = .avg
  · rw [if_pos ho]
    refine wp_local (l := []) rfl (hQ _ (fun k hk => ?_) fun a ha =>
      (putWords_miss ha).trans (hm₂ a ha))
    simp only [averaged, if_pos ho]
    exact h₂.cpuScale (c := .recip n) k hk
  · rw [if_neg ho]
    refine hQ _ (fun k hk => ?_) hm₂
    simp only [averaged, if_neg ho]
    exact h₂ k hk

end Calls

/-! ## The collective -/

/-- `bufA` and `bufB` in turn. -/
def recvBuf (chunkBytes s : Nat) : Ptr := if s % 2 = 0 then scratch else scratch + chunkBytes

/-- `sendPtr` at step `s`. -/
def sendBuf (chunkBytes : Nat) (premul : Option Factor) (first : Ptr) (s : Nat) : Ptr :=
  if s = 0 then (if premul.isSome then scratch + 2 * chunkBytes else first)
  else recvBuf chunkBytes (s - 1)

/-- The calls of `doReduceScatter` that move data, with the last step taken out of the loop. -/
theorem doReduceScatter_eq {n r : Nat} {sendbuff recvbuff : Ptr} {count : Nat} {dt : DataType}
    {op : RedOp} {premul : Option Factor} (h0 : ¬ (n = 1 ∨ count = 0)) (hn : 0 < n) :
    let cb := count * typeSize dt
    let first := sendbuff + ((r + n - 1) % n) * cb
    let hop := fun s => Call.sendRecv (next n r) (sendBuf cb premul first s) cb (prev n r)
      (recvBuf cb s) cb
    let local_ := fun s => sendbuff + ((r + 2 * n - s - 2) % n) * cb
    doReduceScatter n r sendbuff recvbuff count dt op premul =
      [Call.regAdd sendbuff (n * cb), Call.scratchAt ((if premul.isSome then 3 else 2) * cb)] ++
      (premul.elim [] fun k =>
        [Call.cpuScaleCopy dt (scratch + 2 * cb) first count (.scalar k)]) ++
      (((List.range (n - 2)).flatMap fun s =>
        hop s :: gainCalls dt op (recvBuf cb s) (local_ s) count premul) ++
      (hop (n - 2) ::
        finishCalls n dt op recvbuff (local_ (n - 2)) (recvBuf cb (n - 2)) count premul)) := by
  intro cb first hop local_
  have hrange : List.range (n - 1) = List.range (n - 2) ++ [n - 2] := by
    rw [← List.range_succ]
    congr 1
    omega
  have hloop : ∀ body : Nat → List Call, (List.range (n - 1)).flatMap body =
      (List.range (n - 2)).flatMap body ++ body (n - 2) := fun body => by
    rw [hrange, List.flatMap_append, List.flatMap_singleton]
  have hne : ∀ s, s ∈ List.range (n - 2) → s ≠ n - 2 := fun s hs =>
    Nat.ne_of_lt (List.mem_range.mp hs)
  unfold doReduceScatter
  simp only [if_neg h0]
  rw [hloop, List.flatMap_congr (g := fun s => hop s :: gainCalls dt op (recvBuf cb s) (local_ s)
    count premul) fun s hs => ?_]
  · cases premul <;> simp [hop, finishCalls, enterCalls, sendBuf, recvBuf, cb, first, local_]
  · have := hne s hs
    cases premul <;> simp [this, hop, gainCalls, sendBuf, recvBuf, cb, first, local_]

/-- The messages of `doReduceScatter`: at step `t` rank `p` passes the partial of chunk `p - t - 1`
on. -/
def scatterMsgs (K : Kernels) (dt : DataType) (op : RedOp) (premul : Nat → Option Factor)
    (n count : Nat) (x : Nat → Nat → Word (typeSize dt)) (p _q t : Nat) : List UInt8 :=
  pack (typeSize dt) count fun k =>
    travelled K op premul n (fun p' => x p' ((p + 2 * n - t - 1) % n * count + k))
      ((p + 2 * n - t - 1) % n) t

section Collective

variable {K : Kernels} {Q : Mem → Prop} {m : Mem} {n r : Nat} {sendbuff recvbuff : Ptr}
  {count : Nat} {dt : DataType} {op : RedOp} {premul : Nat → Option Factor}
  {x : Nat → Nat → Word (typeSize dt)}

theorem recvBuf_obj (cb s : Nat) : (recvBuf cb s).obj = .scratch := by
  unfold recvBuf
  split <;> rfl

/-- The buffer received into is not the one sent from. -/
theorem recvBuf_apart (cb s : Nat) {first : Ptr} (pm : Option Factor)
    (hfirst : first.obj ≠ .scratch) : Apart (recvBuf cb s) cb (sendBuf cb pm first s) cb := by
  unfold sendBuf
  by_cases h0 : s = 0
  · rw [if_pos h0]
    split
    · rw [h0]
      exact apart_add (p := scratch) (j := 0) (by omega)
    · exact apart_of_obj fun h => hfirst (h.symm.trans (recvBuf_obj cb s))
  · rw [if_neg h0]
    unfold recvBuf
    rcases Nat.mod_two_eq_zero_or_one s with h2 | h2
    · rw [if_pos h2, if_neg (by omega)]
      exact apart_add (p := scratch) (j := 0) (by omega)
    · rw [if_neg (by omega), if_pos (by omega)]
      exact apart_add (p := scratch) (k := 0) (by omega)

/-- Block `c` of the send buffer. -/
theorem elems_block {m' : Mem} (count c : Nat) (hx : ∀ k, x r k = word (typeSize dt) m' sendbuff k) :
    Elems dt count (sendbuff + c * (count * typeSize dt)) (fun k => x r (c * count + k)) m' :=
  fun k _ => by
  rw [← Nat.mul_assoc, word_add]
  exact (hx _).symm

/-- The rank a partial takes in when it passes. -/
theorem passing {s : Nat} (hr : r < n) (hs : s + 2 ≤ n) :
    ((r + 2 * n - s - 2) % n + 1 + (s + 1)) % n = r := by
  rw [show (r + 2 * n - s - 2) % n + 1 + (s + 1) = (r + 2 * n - s - 2) % n + (s + 2) by omega,
    Nat.mod_add_mod, show r + 2 * n - s - 2 + (s + 2) = r + n + n by omega, Nat.add_mod_right,
    Nat.add_mod_right, Nat.mod_eq_of_lt hr]

/-- Before step `s` the send buffer holds the partial of chunk `r - s - 1` after `s` hops. -/
def SendsPartial (K : Kernels) (dt : DataType) (op : RedOp) (premul : Nat → Option Factor)
    (n count : Nat) (x : Nat → Nat → Word (typeSize dt)) (r : Nat) (sendbuff : Ptr) (s : Nat)
    (m : Mem) : Prop :=
  Elems dt count
    (sendBuf (count * typeSize dt) (premul r)
      (sendbuff + (r + n - 1) % n * (count * typeSize dt)) s)
    (fun k => travelled K op premul n (fun p => x p ((r + 2 * n - s - 1) % n * count + k))
      ((r + 2 * n - s - 1) % n) s) m

/-- A hop: the partial goes on, and the one of chunk `r - s - 2` arrives. -/
theorem wp_scatterHop {s : Nat} {calls : List Call} {l : List Slot} {m' : Mem} (hr : r < n)
    (hs : s + 2 ≤ n) (hsend : sendbuff.obj ≠ .scratch)
    (hx : ∀ k, x r k = word (typeSize dt) m sendbuff k)
    (hv : SendsPartial K dt op premul n count x r sendbuff s m')
    (hm' : OnlyWrites recvbuff 0 m m')
    (hQ : ∀ m', Elems dt count (recvBuf (count * typeSize dt) s)
        (fun k => travelled K op premul n (fun p => x p ((r + 2 * n - s - 2) % n * count + k))
          ((r + 2 * n - s - 2) % n) s) m' →
      Elems dt count (sendbuff + (r + 2 * n - s - 2) % n * (count * typeSize dt))
        (fun k => x r ((r + 2 * n - s - 2) % n * count + k)) m' →
      OnlyWrites recvbuff 0 m m' →
      wp (Carries (scatterMsgs K dt op premul n count x)) r (code K calls) (l.map Slot.entry) Q m') :
    wp (Carries (scatterMsgs K dt op premul n count x)) r
      (code K (Call.sendRecv (next n r) (sendBuf (count * typeSize dt) (premul r)
          (sendbuff + (r + n - 1) % n * (count * typeSize dt)) s) (count * typeSize dt) (prev n r)
          (recvBuf (count * typeSize dt) s) (count * typeSize dt) :: calls))
      ((Slot.mk (0 + s) (part (next n r) (count * typeSize dt))
        (part (prev n r) (count * typeSize dt)) :: l).map Slot.entry) Q m' := by
  have hin : scatterMsgs K dt op premul n count x (prev n r) r (0 + s) =
      pack (typeSize dt) count fun k =>
        travelled K op premul n (fun p => x p ((r + 2 * n - s - 2) % n * count + k))
          ((r + 2 * n - s - 2) % n) s := by
    have hidx : (prev n r + 2 * n - (0 + s) - 1) % n = (r + 2 * n - s - 2) % n := by
      have h := prev_sub_mod (n := n) (r := r) (a := 2 * n) (s := s + 1) (by omega) (by omega)
      rw [show prev n r + 2 * n - (0 + s) - 1 = prev n r + 2 * n - (s + 1) by omega, h]
      congr 1
    rw [scatterMsgs, hidx, Nat.zero_add]
  have hap : Apart (recvBuf (count * typeSize dt) s) (count * typeSize dt)
      (sendBuf (count * typeSize dt) (premul r)
        (sendbuff + (r + n - 1) % n * (count * typeSize dt)) s) (count * typeSize dt) :=
    recvBuf_apart _ s _ hsend
  have hout : ∀ m', SendsPartial K dt op premul n count x r sendbuff s m' →
      scatterMsgs K dt op premul n count x r (next n r) (0 + s) =
        pack (typeSize dt) count (word (typeSize dt) m' (sendBuf (count * typeSize dt) (premul r)
          (sendbuff + (r + n - 1) % n * (count * typeSize dt)) s)) := fun m' h => by
    rw [scatterMsgs, Nat.zero_add]
    exact pack_congr fun k hk => (h k hk).symm
  have hfr := hm'.trans (onlyWrites_scratch (m := m') (c := count) (g := fun k =>
    travelled K op premul n (fun p => x p ((r + 2 * n - s - 2) % n * count + k))
      ((r + 2 * n - s - 2) % n) s) (recvBuf_obj (count * typeSize dt) s))
  exact wp_sendRecv (hout m' hv) hin (hout _ (hv.apart hap)) (hQ _ elems_putWords
    (hfr.elems (by rwa [Ptr.add_obj]) (elems_block count ((r + 2 * n - s - 2) % n) hx)) hfr)

/-- The first chunk, scaled into scratch for a PreMulSum. -/
theorem wp_scatterFirst {M : Nat → Nat → Nat → List UInt8} (op : RedOp) (recvbuff : Ptr) (hr : r < n)
    (hx : ∀ k, x r k = word (typeSize dt) m sendbuff k)
    (hQ : ∀ m', SendsPartial K dt op premul n count x r sendbuff 0 m' →
      OnlyWrites recvbuff 0 m m' → Q m') :
    wp (Carries M) r (code K ((premul r).elim [] fun k =>
        [Call.cpuScaleCopy dt (scratch + 2 * (count * typeSize dt))
          (sendbuff + (r + n - 1) % n * (count * typeSize dt)) count (.scalar k)]))
      (([] : List Slot).map Slot.entry) Q m := by
  have hidx : (r + 2 * n - 0 - 1) % n = (r + n - 1) % n := by
    rw [show r + 2 * n - 0 - 1 = r + n - 1 + n by omega, Nat.add_mod_right]
  have hstart : ((r + n - 1) % n + 1) % n = r := by
    rw [Nat.mod_add_mod, show r + n - 1 + 1 = r + n by omega, Nat.add_mod_right,
      Nat.mod_eq_of_lt hr]
  have hblock := elems_block count ((r + n - 1) % n) hx
  cases hpm : premul r with
  | none =>
    refine hQ m (fun k hk => ?_) (onlyWrites_refl _ _ _)
    simp only [hpm, hidx, travelled, hstart]
    exact hblock k hk
  | some f =>
    refine wp_local (l := []) rfl (hQ _ (fun k hk => ?_) (onlyWrites_scratch rfl))
    simp only [hpm, hidx, travelled, hstart]
    exact elems_cpuScaleCopy (c := .scalar f) hblock k hk

/-- The loop up to the last step; only scratch is written. -/
theorem wp_scatterLoop {N : Nat} {m' : Mem} (hr : r < n) (hN : N + 2 ≤ n)
    (hsend : sendbuff.obj ≠ .scratch) (hx : ∀ k, x r k = word (typeSize dt) m sendbuff k)
    (h0 : SendsPartial K dt op premul n count x r sendbuff 0 m') (hm' : OnlyWrites recvbuff 0 m m')
    (hQ : ∀ m', SendsPartial K dt op premul n count x r sendbuff N m' →
      OnlyWrites recvbuff 0 m m' → Q m') :
    wp (Carries (scatterMsgs K dt op premul n count x)) r
      (code K ((List.range N).flatMap fun s =>
        Call.sendRecv (next n r) (sendBuf (count * typeSize dt) (premul r)
            (sendbuff + (r + n - 1) % n * (count * typeSize dt)) s) (count * typeSize dt) (prev n r)
            (recvBuf (count * typeSize dt) s) (count * typeSize dt) ::
          gainCalls dt op (recvBuf (count * typeSize dt) s)
            (sendbuff + (r + 2 * n - s - 2) % n * (count * typeSize dt)) count (premul r)))
      ((rounds 0 N fun _ => some (part (next n r) (count * typeSize dt),
        part (prev n r) (count * typeSize dt))).map Slot.entry) Q m' := by
  refine wp_rounds (fun s m' => SendsPartial K dt op premul n count x r sendbuff s m' ∧
      OnlyWrites recvbuff 0 m m')
    (fun s hs m' hm' => ?_) (fun m' hm' => hQ m' hm'.1 hm'.2) ⟨h0, hm'⟩
  refine wp_scatterHop (l := []) hr (by omega) hsend hx hm'.1 hm'.2 fun m₁ hv hlocal hfr => ?_
  -- what arrived takes the rank's own block in and is sent next
  refine wp_gain (premul r) hv hlocal fun m₂ h₂ hm₂ => ⟨?_, hfr.trans fun a ha _ =>
    hm₂ a fun h => ha (h.1.trans (recvBuf_obj _ s))⟩
  unfold SendsPartial
  rw [sendBuf, if_neg (Nat.succ_ne_zero s), Nat.add_sub_cancel,
    show r + 2 * n - (s + 1) - 1 = r + 2 * n - s - 2 by omega]
  refine h₂.congr fun k _ => ?_
  simp only [travelled, passing hr (show s + 2 ≤ n by omega)]

/-- `doReduceScatter`. -/
theorem wp_doReduceScatter (hr : r < n) (hsend : sendbuff.obj ≠ .scratch)
    (hrecv : recvbuff.obj ≠ .scratch) (hx : ∀ k, x r k = word (typeSize dt) m sendbuff k)
    (hQ : ∀ m', Elems dt count recvbuff
        (fun k => arrived K op premul n (fun p => x p (r * count + k)) r) m' →
      OnlyWrites recvbuff (count * typeSize dt) m m' → Q m') :
    wp (Carries (scatterMsgs K dt op premul n count x)) r
      (code K (doReduceScatter n r sendbuff recvbuff count dt op (premul r)))
      ((if n = 1 ∨ count = 0 then [] else
        ringPlan 0 n r (fun _ => count * typeSize dt) fun _ => count * typeSize dt).map
        Slot.entry) Q m := by
  by_cases h0 : n = 1 ∨ count = 0
  · rw [if_pos h0]
    have hcalls : doReduceScatter n r sendbuff recvbuff count dt op (premul r) =
        Call.regAdd sendbuff (n * (count * typeSize dt)) ::
          aloneCalls dt recvbuff sendbuff count (premul r) := by
      unfold doReduceScatter aloneCalls
      simp only [if_pos h0]
      cases premul r <;> simp
    rw [hcalls]
    refine wp_skip rfl (wp_alone (x := fun k => x r k) (premul r) (fun k _ => (hx k).symm)
      fun m' h hm' => hQ m' (h.congr fun k hk => ?_) fun a _ ha => hm' a ha)
    have hn : n = 1 := h0.resolve_right (by omega)
    obtain rfl : r = 0 := by omega
    rw [arrived, if_pos hn, Nat.zero_mul, Nat.zero_add]
  · rw [if_neg h0, doReduceScatter_eq h0 (by omega)]
    have hn2 : 2 ≤ n := by omega
    have hplan : ringPlan 0 n r (fun _ => count * typeSize dt) (fun _ => count * typeSize dt) =
        (rounds 0 (n - 2) fun _ => some (part (next n r) (count * typeSize dt),
          part (prev n r) (count * typeSize dt))) ++
        [Slot.mk (0 + (n - 2)) (part (next n r) (count * typeSize dt))
          (part (prev n r) (count * typeSize dt))] := by
      unfold ringPlan rounds
      rw [show n - 1 = n - 2 + 1 by omega, List.range_succ, List.filterMap_append]
      rfl
    rw [hplan]
    simp only [List.cons_append, List.nil_append]
    refine wp_skip rfl (wp_skip rfl ?_)
    rw [← List.nil_append (rounds 0 (n - 2) _ ++ _)]
    refine wp_calls_append ?_
    refine wp_scatterFirst op recvbuff hr hx fun m' hv hfr => ?_
    refine wp_calls_append (wp_scatterLoop hr (by omega) hsend hx hv hfr fun m' hv hfr => ?_)
    refine wp_scatterHop (l := []) hr (by omega) hsend hx hv hfr fun m₁ hv₁ hlocal hfr₁ => ?_
    have hlast : (r + 2 * n - (n - 2) - 2) % n = r := by
      rw [show r + 2 * n - (n - 2) - 2 = r + n by omega, Nat.add_mod_right, Nat.mod_eq_of_lt hr]
    refine wp_finish n (premul r) (recvBuf_obj _ _) hrecv hv₁ hlocal fun m₂ h₂ hm₂ =>
      hQ m₂ (h₂.congr fun k _ => ?_) fun a ha hr => ?_
    · rw [arrived, if_neg (fun h => h0 (Or.inl h)), hlast]
    · exact (hm₂ a hr).trans (hfr₁ a ha (not_inRange_zero _ _))

end Collective

/-- **What reduce-scatter computes**, in any run. -/
theorem ends_doReduceScatter (K : Kernels) {n : Nat} (sendbuff recvbuff : Nat → Ptr) (count : Nat)
    (dt : DataType) (op : RedOp) (premul : Nat → Option Factor) (m : Nat → Mem)
    (hsend : ∀ r, r < n → (sendbuff r).obj ≠ .scratch)
    (hrecv : ∀ r, r < n → (recvbuff r).obj ≠ .scratch) :
    Net.Ends Net.Step
      (system K n (fun r =>
        doReduceScatter n r (sendbuff r) (recvbuff r) count dt op (premul r)) m)
      fun c => (∀ r, c.code r = []) ∧ ∀ r, r < n →
        Elems dt count (recvbuff r) (fun k => arrived K op premul n
          (fun p => word (typeSize dt) (m p) (sendbuff p) (r * count + k)) r) (c.mem r) := by
  have hplan : Schedule n 0 (0 + (n - 1)) fun r =>
      if n = 1 ∨ count = 0 then [] else
        ringPlan 0 n r (fun _ => count * typeSize dt) fun _ => count * typeSize dt :=
    (schedule_ring fun _ _ _ _ => rfl).unless
  exact ends_of_schedule hplan fun r hr =>
    wp_doReduceScatter (x := fun p k => word (typeSize dt) (m p) (sendbuff p) k) hr (hsend r hr)
      (hrecv r hr) (fun _ => rfl) fun _ h _ => h

end Vccl
