import Vccl.Schedule

/-!
# Runs of a collective

`ends_of_schedule` is `Net.ends_of_wp` at the ranks `0, …, n-1` of a communicator: if the calls of
every rank meet their obligations along its part of a schedule, every run of all ranks together,
under every interleaving, ends with every rank finished and its postcondition true.

What a collective sends is a function of the inputs, so the payload of the message from `p` to `q`
at time `t` is stated outright, as a list of bytes `M p q t` (`Carries`). The rules for the calls
follow; a slice of a transport call is an array of `e`-byte elements, and what arrives there is a
`putWords`.
-/

namespace Vccl

open Net (load store wp OutOk)

/-- Every message is the one the message table has. -/
def Carries (M : Nat → Nat → Nat → List UInt8) : Nat → Nat → Nat → List UInt8 → Prop :=
  fun p q t d => d = M p q t

/-! ## The ranks together -/

theorem inTimes_entry (p : Nat) (pl : List Slot) :
    Net.inTimes p (pl.map Slot.entry) = (received p pl).map Prod.fst := by
  induction pl with
  | nil => rfl
  | cons s pl ih =>
    have hs : received p (s :: pl) = (tagged p s.time s.inn).toList ++ received p pl := by
      unfold received
      rw [List.filterMap_cons]
      cases tagged p s.time s.inn <;> rfl
    rw [List.map_cons, Net.inTimes_cons, hs, List.map_append, ih]
    obtain ⟨t, o, i⟩ := s
    cases i with
    | none => simp [Slot.entry, tagged]
    | some x => by_cases hx : x.1 = p <;> simp [Slot.entry, tagged_some, hx]

theorem outTimes_entry (q : Nat) (pl : List Slot) :
    Net.outTimes q (pl.map Slot.entry) = (sent q pl).map Prod.fst := by
  induction pl with
  | nil => rfl
  | cons s pl ih =>
    have hs : sent q (s :: pl) = (tagged q s.time s.out).toList ++ sent q pl := by
      unfold sent
      rw [List.filterMap_cons]
      cases tagged q s.time s.out <;> rfl
    rw [List.map_cons, Net.outTimes_cons, hs, List.map_append, ih]
    obtain ⟨t, o, i⟩ := s
    cases o with
    | none => simp [Slot.entry, tagged]
    | some x => by_cases hx : x.1 = q <;> simp [Slot.entry, tagged_some, hx]

/-- The plans of all ranks; a number that is no rank has nothing to do. -/
def ranksOnly (n : Nat) (plan : Nat → List Slot) (r : Nat) : List (Net.Entry Nat) :=
  if r < n then (plan r).map Slot.entry else []

theorem not_mem_peers {n a b : Nat} {plan : Nat → List Slot} (h : Schedule n a b plan) {r x : Nat}
    (hr : r < n) (hx : ¬ x < n) : sent x (plan r) = [] ∧ received x (plan r) = [] := by
  constructor
  · refine List.filterMap_eq_nil_iff.mpr fun s hs => ?_
    refine Option.eq_none_iff_forall_ne_some.mpr fun y hy => hx ?_
    exact h.peer r hr s hs _ (Or.inl (tagged_eq_some.mp hy).1)
  · refine List.filterMap_eq_nil_iff.mpr fun s hs => ?_
    refine Option.eq_none_iff_forall_ne_some.mpr fun y hy => hx ?_
    exact h.peer r hr s hs _ (Or.inr (tagged_eq_some.mp hy).1)

theorem ranksOnly_meet {n a b : Nat} {plan : Nat → List Slot} (h : Schedule n a b plan) (p q : Nat) :
    Net.inTimes p (ranksOnly n plan q) = Net.outTimes q (ranksOnly n plan p) := by
  unfold ranksOnly
  by_cases hp : p < n <;> by_cases hq : q < n
  · rw [if_pos hp, if_pos hq, inTimes_entry, outTimes_entry, h.meet p q hp hq]
  · rw [if_pos hp, if_neg hq, outTimes_entry, (not_mem_peers h hp hq).1]
    rfl
  · rw [if_neg hp, if_pos hq, inTimes_entry, (not_mem_peers h hq hp).2]
    rfl
  · rw [if_neg hp, if_neg hq]
    rfl

theorem ranksOnly_ordered {n a b : Nat} {plan : Nat → List Slot} (h : Schedule n a b plan)
    (r : Nat) : Net.Ordered (ranksOnly n plan r) := by
  unfold ranksOnly Net.Ordered
  split
  · rename_i hr
    rw [List.pairwise_map]
    exact h.ordered r hr
  · exact List.Pairwise.nil

/-- **Every run of a scheduled collective ends**, with all ranks finished in their
postconditions. -/
theorem ends_of_schedule {K : Kernels} {n a b : Nat} {calls : Nat → List Call}
    {m : Nat → Mem} {plan : Nat → List Slot} {M : Nat → Nat → Nat → List UInt8}
    {Q : Nat → Mem → Prop} (hplan : Schedule n a b plan)
    (hwp : ∀ r, r < n →
      wp (Carries M) r (code K (calls r)) ((plan r).map Slot.entry) (Q r) (m r)) :
    Net.Ends Net.Step (system K n calls m) fun c =>
      (∀ r, c.code r = []) ∧ ∀ r, r < n → Q r (c.mem r) := by
  have hfin : ∀ r, r ∉ Finset.range n → (if r < n then code K (calls r) else []) = [] :=
    fun r hr => if_neg fun h => hr (Finset.mem_range.mpr h)
  have hQ : ∀ r, wp (Carries M) r (if r < n then code K (calls r) else []) (ranksOnly n plan r)
      (fun m => r < n → Q r m) (m r) := by
    intro r
    unfold ranksOnly
    split
    · rename_i hr
      exact Net.wp_mono (fun m hm _ => hm) (hwp r hr)
    · rename_i hr
      exact fun h => absurd h hr
  exact Net.ends_of_wp hfin (ranksOnly_meet hplan) (ranksOnly_ordered hplan) hQ

theorem system_congr {K : Kernels} {n : Nat} {calls calls' : Nat → List Call} {m : Nat → Mem}
    (h : ∀ r, r < n → calls r = calls' r) : system K n calls m = system K n calls' m := by
  unfold system
  congr 1
  funext r
  split
  · rename_i hr; rw [h r hr]
  · rfl

/-! ## Rules for the calls -/

section Rules

variable {K : Kernels} {M : Nat → Nat → Nat → List UInt8} {r : Nat} {calls : List Call}
  {l : List Slot} {Q : Mem → Prop} {m : Mem}

/-- A call that moves no message is its effect on memory. -/
theorem wp_local {c : Call} {f : Mem → Mem} (hc : c.instr K = .cpu f)
    (h : wp (Carries M) r (code K calls) (l.map Slot.entry) Q (f m)) :
    wp (Carries M) r (code K (c :: calls)) (l.map Slot.entry) Q m := by
  unfold code at h ⊢
  rw [List.map_cons, hc]
  exact h

/-- `regAdd` and `scratchAt` leave memory alone. -/
theorem wp_skip {c : Call} (hc : c.instr K = .cpu id)
    (h : wp (Carries M) r (code K calls) (l.map Slot.entry) Q m) :
    wp (Carries M) r (code K (c :: calls)) (l.map Slot.entry) Q m := wp_local hc h

theorem wp_postRecvs {reqs : List RecvReq}
    (h : wp (Carries M) r (code K calls) (l.map Slot.entry) Q m) :
    wp (Carries M) r (code K (Call.postRecvs reqs :: calls)) (l.map Slot.entry) Q m := h

theorem slice_zero (p : Ptr) : slice p 0 = [] := rfl

theorem store_nil (m : Mem) (d : List UInt8) : store m [] d = m := by
  funext a
  exact Net.store_of_not_mem List.not_mem_nil

/-- `sendRecv` of `sc` elements out and `rc` elements in. What leaves must be right before and
after the incoming half, since the two may run in either order. -/
theorem wp_sendRecv {e sc rc t sp rp : Nat} {sb rb : Ptr} {g : Nat → Word e}
    (hout : M r sp t = pack e sc (word e m sb)) (hin : M rp r t = pack e rc g)
    (hout' : M r sp t = pack e sc (word e (putWords e m rb rc g) sb))
    (h : wp (Carries M) r (code K calls) (l.map Slot.entry) Q (putWords e m rb rc g)) :
    wp (Carries M) r (code K (Call.sendRecv sp sb (sc * e) rp rb (rc * e) :: calls))
      ((Slot.mk t (part sp (sc * e)) (part rp (rc * e)) :: l).map Slot.entry) Q m := by
  have ho : ∀ m' : Mem, M r sp t = pack e sc (word e m' sb) →
      OutOk (Carries M) r t m' (half sp sb (sc * e)) ((part sp (sc * e)).map Prod.fst) := by
    intro m' hm'
    unfold half part
    split
    · trivial
    · exact ⟨rfl, by rw [load_slice_eq_pack, Carries, hm']⟩
  by_cases hr : rc * e = 0
  · have h0 : putWords e m rb rc g = m := by
      rw [← store_pack, hr, slice_zero, store_nil]
    rw [h0] at h
    have e1 : half rp rb (rc * e) = none := if_pos hr
    have e2 : part rp (rc * e) = none := if_pos hr
    simp only [code, List.map_cons, Call.instr, Slot.entry, e1, e2]
    exact ⟨rfl, ho m hout, h⟩
  · have e1 : half rp rb (rc * e) = some (rp, slice rb (rc * e)) := if_neg hr
    have e2 : part rp (rc * e) = some (rp, rc * e) := if_neg hr
    simp only [code, List.map_cons, Call.instr, Slot.entry, e1, e2]
    refine ⟨rfl, ho m hout, ?_⟩
    rintro d rfl
    rw [hin, store_pack]
    exact ⟨ho _ hout', h⟩

theorem wp_send {e sc t sp : Nat} {sb : Ptr} (h0 : sc * e ≠ 0)
    (hout : M r sp t = pack e sc (word e m sb))
    (h : wp (Carries M) r (code K calls) (l.map Slot.entry) Q m) :
    wp (Carries M) r (code K (Call.send sp sb (sc * e) :: calls))
      ((Slot.mk t (part sp (sc * e)) none :: l).map Slot.entry) Q m := by
  have e1 : half sp sb (sc * e) = some (sp, slice sb (sc * e)) := if_neg h0
  have e2 : part sp (sc * e) = some (sp, sc * e) := if_neg h0
  simp only [code, List.map_cons, Call.instr, Slot.entry, e1, e2]
  exact ⟨rfl, ⟨rfl, by rw [load_slice_eq_pack, Carries, hout]⟩, h⟩

theorem wp_recv {e rc t rp : Nat} {rb : Ptr} {g : Nat → Word e} (h0 : rc * e ≠ 0)
    (hin : M rp r t = pack e rc g)
    (h : wp (Carries M) r (code K calls) (l.map Slot.entry) Q (putWords e m rb rc g)) :
    wp (Carries M) r (code K (Call.recv rp rb (rc * e) :: calls))
      ((Slot.mk t none (part rp (rc * e)) :: l).map Slot.entry) Q m := by
  have e1 : half rp rb (rc * e) = some (rp, slice rb (rc * e)) := if_neg h0
  have e2 : part rp (rc * e) = some (rp, rc * e) := if_neg h0
  simp only [code, List.map_cons, Call.instr, Slot.entry, e1, e2]
  refine ⟨rfl, trivial, ?_⟩
  rintro d rfl
  rw [hin, store_pack]
  exact ⟨trivial, h⟩

/-- Sequencing. -/
theorem wp_calls_append {calls' : List Call} {w : List Slot}
    (h : wp (Carries M) r (code K calls) (l.map Slot.entry)
      (fun m => wp (Carries M) r (code K calls') (w.map Slot.entry) Q m) m) :
    wp (Carries M) r (code K (calls ++ calls')) ((l ++ w).map Slot.entry) Q m := by
  unfold code at h ⊢
  rw [List.map_append, List.map_append]
  exact Net.wp_append h

/-- A loop, each iteration with its slots: `J s` before iteration `s`. -/
theorem wp_iterate {body : Nat → List Call} {slots : Nat → List Slot} {N : Nat}
    (J : Nat → Mem → Prop)
    (hbody : ∀ s, s < N → ∀ m, J s m →
      wp (Carries M) r (code K (body s)) ((slots s).map Slot.entry) (J (s + 1)) m)
    (hQ : ∀ m, J N m → Q m) (h0 : J 0 m) :
    wp (Carries M) r (code K ((List.range N).flatMap body))
      (((List.range N).flatMap slots).map Slot.entry) Q m := by
  have e1 : code K ((List.range N).flatMap body) =
      (List.range' 0 N).flatMap fun s => code K (body s) := by
    rw [code, List.map_flatMap, List.range_eq_range']
    rfl
  rw [e1, List.map_flatMap, List.range_eq_range']
  exact Net.wp_loop J 0 N (fun s _ hs m hm => hbody s (by omega) m hm)
    (fun m hm => hQ m (by rwa [Nat.zero_add] at hm)) h0

/-- A loop in rounds. -/
theorem wp_rounds {body : Nat → List Call} {f : Round} {t N : Nat} (J : Nat → Mem → Prop)
    (hbody : ∀ s, s < N → ∀ m, J s m → wp (Carries M) r (code K (body s))
      (((f s).toList.map fun x => Slot.mk (t + s) x.1 x.2).map Slot.entry) (J (s + 1)) m)
    (hQ : ∀ m, J N m → Q m) (h0 : J 0 m) :
    wp (Carries M) r (code K ((List.range N).flatMap body)) ((rounds t N f).map Slot.entry) Q m := by
  have hslots : rounds t N f = (List.range N).flatMap fun s =>
      (f s).toList.map fun x => Slot.mk (t + s) x.1 x.2 := by
    rw [rounds, List.filterMap_eq_flatMap_toList]
    refine List.flatMap_congr fun s _ => ?_
    cases f s <;> rfl
  rw [hslots]
  exact wp_iterate J hbody hQ h0

/-- A loop of local calls. -/
theorem wp_locals {N : Nat} {c : Nat → Call} {f : Nat → Mem → Mem} (J : Nat → Mem → Prop)
    (hc : ∀ i, (c i).instr K = .cpu (f i)) (hstep : ∀ i, i < N → ∀ m, J i m → J (i + 1) (f i m))
    (h0 : J 0 m) (hQ : ∀ m, J N m → Q m) :
    wp (Carries M) r (code K ((List.range N).map c)) [] Q m := by
  rw [List.map_eq_flatMap]
  have h : wp (Carries M) r (code K ((List.range N).flatMap fun i => [c i]))
      ((rounds 0 N fun _ => none).map Slot.entry) Q m :=
    wp_rounds J (fun s hs m hm => wp_local (l := []) (hc s) (hstep s hs m hm)) hQ h0
  simpa [rounds] using h

end Rules

end Vccl
