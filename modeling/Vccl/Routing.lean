import Vccl.Bounds
import Vccl.Rooted

/-!
# Where blocks go (`doGather`, `doScatter`, `doAllToAllv`)

The three collectives that compute nothing: every block of a send buffer turns up, byte by byte, at
its place in a receive buffer.

* `wp_later` moves a rank's obligations to a later time, so that one collective can follow another
  without a barrier between them: rank `p` may be scattering while the root still gathers. Scattering
  what was gathered gives every rank its own block back.
* `doAllToAllv` has `n * n` blocks with sizes and places of their own. Step `s` of rank `r` writes
  the block from `r - s` and nothing else, so the send blocks of a rank, which lie outside its
  receive blocks, still have the initial bytes when they leave (`Exchanged`). A block of no element
  has no message.
-/

namespace Vccl

open Net (wp OutOk)

/-! ## One collective after another -/

/-- The slot, `t` later. -/
def Slot.later (t : Nat) (s : Slot) : Slot := ⟨t + s.time, s.out, s.inn⟩

theorem rounds_later (t N : Nat) (f : Round) : rounds t N f = (rounds 0 N f).map (Slot.later t) := by
  unfold rounds
  rw [List.map_filterMap]
  congr 1
  funext s
  cases f s with
  | none => rfl
  | some x => simp [Slot.later]

section Later

variable {M M' : Nat → Nat → Nat → List UInt8} {r t : Nat}

theorem outOk_later {m : Mem} {out : Option (Nat × List Ptr)} {s : Slot}
    (hM : ∀ p q, M' p q (t + s.time) = M p q s.time)
    (h : OutOk (Carries M) r s.time m out s.entry.out) :
    OutOk (Carries M') r (s.later t).time m out (s.later t).entry.out := by
  show OutOk (Carries M') r (t + s.time) m out s.entry.out
  cases ho : s.entry.out with
  | none =>
    rw [ho] at h
    cases out with
    | none => trivial
    | some x => exact h.elim
  | some q =>
    rw [ho] at h
    cases out with
    | none => exact h.elim
    | some x => exact ⟨h.1, by rw [Carries, hM]; exact h.2⟩

/-- The obligations along a plan, `t` later, when the messages are those of the plan. -/
theorem wp_later {Q : Mem → Prop} : ∀ {k : List (Net.Instr Nat Ptr UInt8)} {l : List Slot} {m : Mem},
    (∀ s ∈ l, ∀ p q, M' p q (t + s.time) = M p q s.time) →
    wp (Carries M) r k (l.map Slot.entry) Q m →
    wp (Carries M') r k ((l.map (Slot.later t)).map Slot.entry) Q m
  | [], [], _, _, h => h
  | [], _ :: _, _, _, h => h.elim
  | .cpu f :: k, l, m, hM, h => wp_later (k := k) (l := l) (m := f m) hM h
  | .post _ :: k, l, m, hM, h => wp_later (k := k) (l := l) (m := m) hM h
  | .xchg _ none :: _, [], _, _, h => h.elim
  | .xchg _ (some _) :: _, [], _, _, h => h.elim
  | .xchg _ none :: k, s :: l, m, hM, h =>
    ⟨h.1, outOk_later (hM s List.mem_cons_self) h.2.1,
      wp_later (k := k) (l := l) (fun s' hs' => hM s' (List.mem_cons_of_mem s hs')) h.2.2⟩
  | .xchg _ (some (p, b)) :: k, s :: l, m, hM, h =>
    ⟨h.1, outOk_later (hM s List.mem_cons_self) h.2.1, fun d hd => by
      have hd' : Carries M p r s.time d := by
        rw [Carries, ← hM s List.mem_cons_self]
        exact hd
      exact ⟨outOk_later (hM s List.mem_cons_self) (h.2.2 d hd').1,
        wp_later (k := k) (l := l) (fun s' hs' => hM s' (List.mem_cons_of_mem s hs'))
          (h.2.2 d hd').2⟩⟩

end Later

/-! ## All-to-all -/

/-- The ranges have no byte in common. -/
def NoOverlap (x y : Range) : Prop := ∀ a, InRange x.1 x.2 a → ¬ InRange y.1 y.2 a

/-- A block of `count` elements at displacement `displ`, in elements. -/
def block (e : Nat) (buf : Ptr) (displ count : Nat) : Range := (buf + displ * e, count * e)

theorem noOverlap_obj {e d c d' c' : Nat} {p q : Ptr} (h : p.obj ≠ q.obj) :
    NoOverlap (block e p d c) (block e q d' c') := fun _ ha hb => h (ha.1.symm.trans hb.1)

theorem noOverlap_displ {e d c d' c' : Nat} {p : Ptr} (h : d + c ≤ d' ∨ d' + c' ≤ d) :
    NoOverlap (block e p d c) (block e p d' c') := by
  rintro a ⟨-, h1, h2⟩ ⟨-, h3, h4⟩
  simp only [block, Ptr.add_off] at h1 h2 h3 h4
  rcases h with h | h
  · have := Nat.mul_le_mul_right e h
    rw [Nat.add_mul] at this
    omega
  · have := Nat.mul_le_mul_right e h
    rw [Nat.add_mul] at this
    omega

theorem Elems.noOverlap {dt : DataType} {count c : Nat} {p q : Ptr} {v u : Nat → Word (typeSize dt)}
    {m : Mem} (hv : Elems dt count p v m)
    (h : NoOverlap (p, count * typeSize dt) (q, c * typeSize dt)) :
    Elems dt count p v (putWords (typeSize dt) m q c u) := fun k hk => by
  rw [← hv k hk]
  funext j
  exact putWords_miss (h _ (inRange_add.mpr (index_lt hk j.isLt)))

section AllToAllv

variable {K : Kernels} {Q : Mem → Prop} {m m' : Mem} {n r : Nat} {send recv : Ptr}
  {cnt : Nat → Nat → Nat} {sd rd : Nat → Nat} {dt : DataType}
  {data : Nat → Nat → Nat → Word (typeSize dt)}

/-- What rank `r` may count on: its receive blocks lie apart from each other and from its send
blocks. `cnt p q` elements go from `p` to `q`. -/
structure Blocks (n r : Nat) (send recv : Ptr) (cnt : Nat → Nat → Nat) (sd rd : Nat → Nat)
    (e : Nat) : Prop where
  apart : ∀ p p', p < n → p' < n → p ≠ p' →
    NoOverlap (block e recv (rd p) (cnt p r)) (block e recv (rd p') (cnt p' r))
  clear : ∀ q p, q < n → p < n →
    NoOverlap (block e send (sd q) (cnt r q)) (block e recv (rd p) (cnt p r))

/-- The blocks of the ranks in `done` have arrived, and no byte outside the receive blocks has
changed. -/
structure Exchanged (n r : Nat) (recv : Ptr) (cnt : Nat → Nat → Nat) (rd : Nat → Nat)
    (data : Nat → Nat → Nat → Word (typeSize dt)) (m : Mem) (done : Nat → Prop) (m' : Mem) :
    Prop where
  arrived : ∀ p, p < n → done p → Elems dt (cnt p r) (recv + rd p * typeSize dt) (data p r) m'
  others : ∀ a, (∀ p, p < n → ¬ InRange (recv + rd p * typeSize dt) (cnt p r * typeSize dt) a) →
    m' a = m a

variable {done : Nat → Prop}

/-- The block of `q` is still in the send buffer. -/
theorem Exchanged.sendBlock (h : Exchanged n r recv cnt rd data m done m')
    (hb : Blocks n r send recv cnt sd rd (typeSize dt)) {q : Nat} (hq : q < n)
    (hdata : Elems dt (cnt r q) (send + sd q * typeSize dt) (data r q) m) :
    Elems dt (cnt r q) (send + sd q * typeSize dt) (data r q) m' := fun k hk => by
  rw [← hdata k hk]
  funext j
  exact h.others _ fun p hp => hb.clear q p hq hp _ (inRange_add.mpr (index_lt hk j.isLt))

/-- The block of `p` arrives. -/
theorem Exchanged.put (h : Exchanged n r recv cnt rd data m done m')
    (hb : Blocks n r send recv cnt sd rd (typeSize dt)) {p : Nat} (hp : p < n) {done' : Nat → Prop}
    (hdone : ∀ x, done' x → x = p ∨ done x) :
    Exchanged n r recv cnt rd data m done'
      (putWords (typeSize dt) m' (recv + rd p * typeSize dt) (cnt p r) (data p r)) where
  arrived x hx hd := by
    by_cases hxp : x = p
    · rw [hxp]
      exact elems_putWords
    · exact (h.arrived x hx ((hdone x hd).resolve_left hxp)).noOverlap (hb.apart x p hx hp hxp)
  others a ha := by
    rw [putWords_miss (ha p hp)]
    exact h.others a ha

/-- The sources of the first `s` steps, and the rank itself. -/
def Came (n r s p : Nat) : Prop := p = r ∨ ∃ i, i < s ∧ p = (r + n - (i + 1)) % n

theorem came_all {p : Nat} (hr : r < n) (hp : p < n) : Came n r (n - 1) p := by
  by_cases hpr : p = r
  · exact Or.inl hpr
  · obtain ⟨s, hs, hrs⟩ := exists_round hp hr fun e => hpr e.symm
    exact Or.inr ⟨s, hs, ((add_sub_mod_iff hr hp (by omega)).mpr hrs.symm).symm⟩

/-- `doAllToAllv`: `data p q` are the elements that go from `p` to `q`. -/
theorem wp_doAllToAllv (hr : r < n) (hb : Blocks n r send recv cnt sd rd (typeSize dt))
    (hdata : ∀ q, q < n → Elems dt (cnt r q) (send + sd q * typeSize dt) (data r q) m)
    (hQ : ∀ m', Exchanged n r recv cnt rd data m (fun _ => True) m' → Q m') :
    wp (Carries fun p q _ => pack (typeSize dt) (cnt p q) (data p q)) r
      (code K (doAllToAllv n r send (cnt r) sd recv (fun p => cnt p r) rd dt))
      ((pairwisePlan 0 n r (typeSize dt) cnt).map Slot.entry) Q m := by
  have hown : ∀ m', Exchanged n r recv cnt rd data m (Came n r 0) m' →
      wp (Carries fun p q _ => pack (typeSize dt) (cnt p q) (data p q)) r
        (code K ((List.range' 1 (n - 1)).flatMap fun s =>
          [Call.sendRecv ((r + s) % n) (send + sd ((r + s) % n) * typeSize dt)
            (cnt r ((r + s) % n) * typeSize dt) ((r + n - s) % n)
            (recv + rd ((r + n - s) % n) * typeSize dt)
            (cnt ((r + n - s) % n) r * typeSize dt)]))
        ((pairwisePlan 0 n r (typeSize dt) cnt).map Slot.entry) Q m' := by
    intro m' hm'
    rw [range'_loop]
    refine wp_rounds (fun s => Exchanged n r recv cnt rd data m (Came n r s)) (fun s hs m₁ hm₁ => ?_)
      (fun m₁ hm₁ => hQ m₁ ⟨fun p hp _ => hm₁.arrived p hp (came_all hr hp), hm₁.others⟩) hm'
    have hdst : (r + (s + 1)) % n < n := Nat.mod_lt _ (by omega)
    have hsrc : (r + n - (s + 1)) % n < n := Nat.mod_lt _ (by omega)
    have hm₂ : Exchanged n r recv cnt rd data m (Came n r (s + 1)) _ := hm₁.put hb hsrc fun x hx => by
      rcases hx with rfl | ⟨i, hi, rfl⟩
      · exact Or.inr (Or.inl rfl)
      · rcases Nat.lt_or_eq_of_le (Nat.le_of_lt_succ hi) with hi | rfl
        · exact Or.inr (Or.inr ⟨i, hi, rfl⟩)
        · exact Or.inl rfl
    -- the outgoing block has its first bytes before and after the incoming one is written
    exact wp_sendRecv (l := [])
      (pack_congr fun k hk => (hm₁.sendBlock hb hdst (hdata _ hdst) k hk).symm) rfl
      (pack_congr fun k hk => (hm₂.sendBlock hb hdst (hdata _ hdst) k hk).symm) hm₂
  have hstart : Exchanged n r recv cnt rd data m (fun _ => False) m :=
    ⟨fun _ _ h => h.elim, fun _ _ => rfl⟩
  unfold doAllToAllv
  simp only [List.cons_append, List.nil_append]
  refine wp_skip rfl (wp_skip rfl ?_)
  have hcame : ∀ x, Came n r 0 x → x = r ∨ False := by
    rintro x (rfl | ⟨i, hi, -⟩)
    · exact Or.inl rfl
    · exact absurd hi (Nat.not_lt_zero i)
  split
  · have hm' := hstart.put hb hr hcame
    refine wp_local rfl (hown _ ?_)
    have hcopy : memcpy m (recv + rd r * typeSize dt) (send + sd r * typeSize dt)
        (cnt r r * typeSize dt) =
        putWords (typeSize dt) m (recv + rd r * typeSize dt) (cnt r r) (data r r) := by
      rw [memcpy_eq_putWords, ← store_pack, ← store_pack, pack_congr (hdata r hr)]
    rw [hcopy]
    exact hm'
  · rename_i hskip
    -- an empty block: one that is in place would overlap the send block
    have hzero : cnt r r = 0 := by
      refine Classical.byContradiction fun hne => hskip ⟨by omega, fun heq => ?_⟩
      have hpos : 0 < cnt r r * typeSize dt := Nat.mul_pos (by omega) (typeSize_pos dt)
      have hin : InRange (send + sd r * typeSize dt) (cnt r r * typeSize dt)
          (send + sd r * typeSize dt) := ⟨rfl, Nat.le_refl _, by omega⟩
      refine hb.clear r r hr hr _ hin ?_
      show InRange (recv + rd r * typeSize dt) (cnt r r * typeSize dt) _
      rw [heq]
      exact hin
    refine hown m ⟨fun p _ hp k hk => ?_, fun _ _ => rfl⟩
    obtain rfl := (hcame p hp).resolve_right id
    omega

end AllToAllv

/-! ## Runs -/

/-- **What all-to-all computes.** -/
theorem ends_doAllToAllv (K : Kernels) {n : Nat} (sendbuff recvbuff : Nat → Ptr)
    (cnt sdispls rdispls : Nat → Nat → Nat) (dt : DataType) (m : Nat → Mem)
    (hb : ∀ r, r < n →
      Blocks n r (sendbuff r) (recvbuff r) cnt (sdispls r) (rdispls r) (typeSize dt)) :
    Net.Ends Net.Step
      (system K n (fun r => doAllToAllv n r (sendbuff r) (cnt r) (sdispls r) (recvbuff r)
        (fun p => cnt p r) (rdispls r) dt) m)
      fun c => (∀ r, c.code r = []) ∧ ∀ r, r < n → Exchanged n r (recvbuff r) cnt (rdispls r)
        (fun p q => word (typeSize dt) (m p) (sendbuff p + sdispls p q * typeSize dt)) (m r)
        (fun _ => True) (c.mem r) :=
  ends_of_schedule schedule_pairwise fun r hr =>
    wp_doAllToAllv hr (hb r hr) (fun _ _ _ _ => rfl) fun _ h => h

/-- **Scattering what was gathered** gives every rank its own elements back. -/
theorem ends_gatherScatter (K : Kernels) {n root : Nat} (hroot : root < n)
    (sendbuff all recvbuff : Nat → Ptr) (count : Nat) (dt : DataType) (m : Nat → Mem)
    (hplace : recvbuff root = all root + root * (count * typeSize dt) ∨
      Apart (recvbuff root) (count * typeSize dt) (all root) (n * (count * typeSize dt))) :
    Net.Ends Net.Step
      (system K n (fun r => doGather n r (sendbuff r) (all r) count dt root ++
        doScatter n r (all r) (recvbuff r) count dt root) m)
      fun c => (∀ r, c.code r = []) ∧ ∀ r, r < n →
        Elems dt count (recvbuff r) (word (typeSize dt) (m r) (sendbuff r)) (c.mem r) := by
  let star : Nat → List Slot := fun r =>
    if n = 1 ∨ count = 0 then [] else starPlan 0 n root r (count * typeSize dt)
  have hstar : Schedule n 0 (0 + (n - 1)) star := (schedule_star hroot).unless
  have hlater : Schedule n (0 + (n - 1)) (0 + (n - 1) + (n - 1)) fun r =>
      (star r).map (Slot.later (n - 1)) := by
    refine Schedule.congr (P := fun r => if n = 1 ∨ count = 0 then [] else
      starPlan (0 + (n - 1)) n root r (count * typeSize dt)) (schedule_star hroot).unless fun r _ => ?_
    simp only [star, starPlan, Nat.zero_add, rounds_later (n - 1)]
    split <;> rfl
  -- first the blocks to the root, then each back to its rank
  let M : Nat → Nat → Nat → List UInt8 := fun p q t =>
    if t < n - 1 then pack (typeSize dt) count (word (typeSize dt) (m p) (sendbuff p))
    else pack (typeSize dt) count (word (typeSize dt) (m q) (sendbuff q))
  let x : Nat → Word (typeSize dt) := fun k =>
    word (typeSize dt) (m (k / count)) (sendbuff (k / count)) (k % count)
  have hx : ∀ b k, k < count → x (b * count + k) = word (typeSize dt) (m b) (sendbuff b) k := by
    intro b k hk
    have hdiv : (b * count + k) / count = b := by
      rw [Nat.mul_comm, Nat.mul_add_div (by omega), Nat.div_eq_of_lt hk, Nat.add_zero]
    have hmod : (b * count + k) % count = k := by
      rw [Nat.mul_comm, Nat.mul_add_mod, Nat.mod_eq_of_lt hk]
    simp only [x, hdiv, hmod]
  refine ends_of_schedule (M := M) (hstar.swap.append hlater (by omega) (by omega)) fun r hr => ?_
  refine wp_calls_append ?_
  have hscatter : ∀ m' : Mem, (r = root → ∀ b, b < n → Elems dt count
      (all r + b * (count * typeSize dt)) (word (typeSize dt) (m b) (sendbuff b)) m') →
      wp (Carries M) r (code K (doScatter n r (all r) (recvbuff r) count dt root))
        (((star r).map (Slot.later (n - 1))).map Slot.entry)
        (Elems dt count (recvbuff r) (word (typeSize dt) (m r) (sendbuff r))) m' := by
    intro m' hm'
    refine wp_later (M := fun _ q _ => pack (typeSize dt) count fun k => x (q * count + k))
      (fun s _ p q => ?_) (wp_doScatter hroot hr (fun e => by rw [e]; exact hplace) (fun e k hk => ?_)
        fun m₂ h₂ => h₂.congr fun k hk => hx r k hk)
    · show M p q (n - 1 + s.time) = _
      simp only [M]
      rw [if_neg (by omega)]
      exact pack_congr fun k hk => (hx q k hk).symm
    · have hc : 0 < count := Nat.pos_of_ne_zero fun h0 => by rw [h0] at hk; omega
      have hb : k / count < n := (Nat.div_lt_iff_lt_mul hc).mpr hk
      have hblock := hm' e (k / count) hb (k % count) (Nat.mod_lt _ hc)
      rw [← Nat.mul_assoc, word_add, Nat.div_add_mod'] at hblock
      exact hblock.symm
  have hgather : wp (Carries fun p _ _ =>
      pack (typeSize dt) count (word (typeSize dt) (m p) (sendbuff p))) r (code K (doGather n r (sendbuff r) (all r) count dt root))
      (((star r).map Slot.swap).map Slot.entry) _ (m r) :=
    wp_doGather hroot hr (fun _ => rfl) hscatter
  have hnow : wp (Carries M) r (code K (doGather n r (sendbuff r) (all r) count dt root))
      ((((star r).map Slot.swap).map (Slot.later 0)).map Slot.entry) _ (m r) :=
    wp_later (fun s hs p q => if_pos (by have := (hstar.swap.within r hr s hs).2; omega)) hgather
  have hid : Slot.later 0 = id := funext fun s => by simp [Slot.later]
  rw [hid, List.map_id] at hnow
  exact hnow

/-- Only the counts of the ranks are read. -/
theorem doAllToAllv_congr {n r : Nat} {send recv : Ptr} {sc rc rc' sd rd : Nat → Nat} {dt : DataType}
    (h : ∀ p, p < n → rc p = rc' p) :
    doAllToAllv n r send sc sd recv rc rd dt = doAllToAllv n r send sc sd recv rc' rd dt := by
  unfold doAllToAllv
  have hend : (List.range n).foldl (fun b p => max b ((rd p + rc p) * typeSize dt)) 0 =
      (List.range n).foldl (fun b p => max b ((rd p + rc' p) * typeSize dt)) 0 :=
    List.foldl_ext _ _ _ fun b p hp => by rw [h p (List.mem_range.mp hp)]
  have hloop : ∀ s ∈ List.range' 1 (n - 1), rc ((r + n - s) % n) = rc' ((r + n - s) % n) := by
    intro s hs
    have := List.mem_range'_1.mp hs
    exact h _ (Nat.mod_lt _ (by omega))
  simp only [hend]
  congr 1
  exact List.flatMap_congr fun s hs => by rw [hloop s hs]

/-- **Every block goes to its place**, on every rank and under every interleaving: a gather puts the
input of rank `p` at block `p` of the root's buffer; a scatter gives rank `p` block `p` of the
root's buffer, so that after a gather to the same root it gives every rank its input; and of an
all-to-all with counts and displacements of its own for every pair, the block of `p` at
`sdispls p q` turns up on `q` at `rdispls q p`, and no byte of `q` outside its receive blocks
changes. -/
theorem blocks_routed (K : Kernels) (n : Nat) (dt : DataType) (m : Nat → Mem) :
    (∀ root, root < n → ∀ (count : Nat) (sendbuff recvbuff : Nat → Ptr),
      Net.Ends Net.Step
        (system K n (fun r => doGather n r (sendbuff r) (recvbuff r) count dt root) m)
        fun c => (∀ r, c.code r = []) ∧ ∀ p, p < n → ∀ k, k < count →
          word (typeSize dt) (c.mem root) (recvbuff root + p * (count * typeSize dt)) k =
            word (typeSize dt) (m p) (sendbuff p) k) ∧
    (∀ root, root < n → ∀ (count : Nat) (sendbuff recvbuff : Nat → Ptr),
      (recvbuff root = sendbuff root + root * (count * typeSize dt) ∨
        Apart (recvbuff root) (count * typeSize dt) (sendbuff root) (n * (count * typeSize dt))) →
      Net.Ends Net.Step
        (system K n (fun r => doScatter n r (sendbuff r) (recvbuff r) count dt root) m)
        fun c => (∀ r, c.code r = []) ∧ ∀ p, p < n → ∀ k, k < count →
          word (typeSize dt) (c.mem p) (recvbuff p) k =
            word (typeSize dt) (m root) (sendbuff root + p * (count * typeSize dt)) k) ∧
    (∀ root, root < n → ∀ (count : Nat) (sendbuff all recvbuff : Nat → Ptr),
      (recvbuff root = all root + root * (count * typeSize dt) ∨
        Apart (recvbuff root) (count * typeSize dt) (all root) (n * (count * typeSize dt))) →
      Net.Ends Net.Step
        (system K n (fun r => doGather n r (sendbuff r) (all r) count dt root ++
          doScatter n r (all r) (recvbuff r) count dt root) m)
        fun c => (∀ r, c.code r = []) ∧ ∀ p, p < n → ∀ k, k < count →
          word (typeSize dt) (c.mem p) (recvbuff p) k = word (typeSize dt) (m p) (sendbuff p) k) ∧
    ∀ (sendbuff recvbuff : Nat → Ptr) (sendcounts sdispls recvcounts rdispls : Nat → Nat → Nat),
      (∀ p q, p < n → q < n → sendcounts p q = recvcounts q p) →
      (∀ r, r < n →
        Blocks n r (sendbuff r) (recvbuff r) sendcounts (sdispls r) (rdispls r) (typeSize dt)) →
      Net.Ends Net.Step
        (system K n (fun r => doAllToAllv n r (sendbuff r) (sendcounts r) (sdispls r) (recvbuff r)
          (recvcounts r) (rdispls r) dt) m)
        fun c => (∀ r, c.code r = []) ∧
          (∀ p q, p < n → q < n → ∀ k, k < sendcounts p q →
            word (typeSize dt) (c.mem q) (recvbuff q + rdispls q p * typeSize dt) k =
              word (typeSize dt) (m p) (sendbuff p + sdispls p q * typeSize dt) k) ∧
          ∀ q, q < n → ∀ a, (∀ p, p < n → ¬ InRange (recvbuff q + rdispls q p * typeSize dt)
            (recvcounts q p * typeSize dt) a) → c.mem q a = m q a := by
  refine ⟨fun root hroot count s d => ends_doGather K hroot s d count dt m,
    fun root hroot count s d hplace => ?_,
    fun root hroot count s a d hplace => ends_gatherScatter K hroot s a d count dt m hplace,
    fun s d sc sd rc rd hcnt hb => ?_⟩
  · obtain ⟨hacc, hend⟩ := ends_doScatter K hroot s d count dt m hplace
    refine ⟨hacc, fun c hc hstop => ?_⟩
    obtain ⟨hdone, hval⟩ := hend c hc hstop
    refine ⟨hdone, fun p hp k hk => ?_⟩
    rw [← Nat.mul_assoc, word_add]
    exact hval p hp k hk
  · have hsys : system K n (fun r => doAllToAllv n r (s r) (sc r) (sd r) (d r) (rc r) (rd r) dt) m =
        system K n (fun r => doAllToAllv n r (s r) (sc r) (sd r) (d r) (fun p => sc p r) (rd r) dt)
          m := system_congr fun r hr => doAllToAllv_congr fun p hp => (hcnt p r hp hr).symm
    rw [hsys]
    obtain ⟨hacc, hend⟩ := ends_doAllToAllv K s d sc sd rd dt m hb
    refine ⟨hacc, fun c hc hstop => ?_⟩
    obtain ⟨hdone, hval⟩ := hend c hc hstop
    refine ⟨hdone, fun p q hp hq => (hval q hq).arrived p hp trivial, fun q hq a ha =>
      (hval q hq).others a fun p hp => ?_⟩
    rw [hcnt p q hp hq]
    exact ha p hp

/-- Rank `p` of three sends `p + 1` elements to every rank, its blocks in a row on both sides. -/
theorem blocks_routed_three :
    Net.Ends Net.Step
      (system (cpuKernels .idle) 3 (fun r => doAllToAllv 3 r (Ptr.mk (.user 0) 0) (fun _ => r + 1)
        (fun q => q * (r + 1)) (Ptr.mk (.user 1) 0) (fun p => p + 1) (fun p => [0, 1, 3].getD p 0)
        .float32) fun r _ => UInt8.ofNat r)
      fun c => (∀ r, c.code r = []) ∧
        (∀ p q, p < 3 → q < 3 → ∀ k, k < p + 1 →
          word 4 (c.mem q) (Ptr.mk (.user 1) 0 + [0, 1, 3].getD p 0 * 4) k =
            word 4 (fun _ => UInt8.ofNat p) (Ptr.mk (.user 0) 0 + q * (p + 1) * 4) k) ∧
        ∀ q, q < 3 → ∀ a, (∀ p, p < 3 → ¬ InRange (Ptr.mk (.user 1) 0 + [0, 1, 3].getD p 0 * 4)
          ((p + 1) * 4) a) → c.mem q a = UInt8.ofNat q :=
  (blocks_routed (cpuKernels .idle) 3 .float32 fun r _ => UInt8.ofNat r).2.2.2
    (fun _ => Ptr.mk (.user 0) 0) (fun _ => Ptr.mk (.user 1) 0) (fun p _ => p + 1)
    (fun p q => q * (p + 1)) (fun _ p => p + 1) (fun _ p => [0, 1, 3].getD p 0)
    (fun _ _ _ _ => rfl) fun _ _ => ⟨fun p p' hp hp' hne => noOverlap_displ
      ((by decide : ∀ p, p < 3 → ∀ p', p' < 3 → p ≠ p' →
        [0, 1, 3].getD p 0 + (p + 1) ≤ [0, 1, 3].getD p' 0 ∨
          [0, 1, 3].getD p' 0 + (p' + 1) ≤ [0, 1, 3].getD p 0) p hp p' hp' hne),
      fun _ _ _ _ => noOverlap_obj (by decide)⟩

end Vccl
