import Vccl.Discipline

/-!
# Work requests and the registrations they use

`resolve` takes a region of the user's or of scratch, or registers the range for the time being. The
temporary MRs of all pending work share one list, and `drainCompleted` empties it after any wait.
What is still pending then are receives posted ahead by `postRecvs`. They are safe when a region
covered each of them at the time; only the one that the next call of the transport claims may have a
temporary MR (`RegisteredAhead`). After a successful `ScopedReg::add` the user's buffer is covered.
The scratch buffer is when its last `regMr` succeeded, and `scratchAt` ignores a failure.

`MrLive` is the property of an MR. Registrations change only while no work is pending, by the count of
`VerbsRun`; so what is left is that the MRs of the receives pre-posted and not claimed are regions
(`Ahead`), and that behind the request the call at work waits for there is nothing else in a queue.
-/

namespace Vccl

/-! ## Live registrations -/

/-- The MR of a work request has not been deregistered. -/
def MrLive (regions : List Region) (t : Verbs) : Mr → Prop
  | .region handle => handle ∈ regions.map Region.birth
  | .temp k => k ∈ t.tempMrs
  | .inline => True

/-- All pending work uses live registrations. -/
def AllLive (regions : List Region) (t : Verbs) : Prop :=
  ∀ p, (∀ mr ∈ t.sendq p, MrLive regions t mr) ∧ ∀ mr ∈ t.recvq p, MrLive regions t mr

/-- The MR is that of a region. -/
def Lasting (regions : List Region) (mr : Mr) : Prop :=
  ∃ handle, mr = .region handle ∧ handle ∈ regions.map Region.birth

section Posting

variable {regions : List Region} {t t' : Verbs}

theorem Lasting.live {mr : Mr} (h : Lasting regions mr) (t : Verbs) : MrLive regions t mr := by
  obtain ⟨handle, rfl, hm⟩ := h
  exact hm

theorem MrLive.mono {mr : Mr} (h : MrLive regions t mr) (ht : t.tempMrs ⊆ t'.tempMrs) :
    MrLive regions t' mr := by
  cases mr with
  | region handle => exact h
  | temp k => exact ht h
  | inline => trivial

/-- `resolve` gives a live MR, and a region when one covers the range. -/
theorem live_resolve (t : Verbs) (regions : List Region) (addr bytes : Nat) :
    MrLive regions (t.resolve regions addr bytes).1 (t.resolve regions addr bytes).2 ∧
      t.tempMrs ⊆ (t.resolve regions addr bytes).1.tempMrs ∧
      ((regions.any fun r => r.covers addr bytes) = true →
        Lasting regions (t.resolve regions addr bytes).2) := by
  unfold Verbs.resolve
  cases hf : regions.find? fun r => r.covers addr bytes with
  | some r =>
    have hm : r.birth ∈ regions.map Region.birth := List.mem_map_of_mem (List.mem_of_find?_eq_some hf)
    exact ⟨hm, List.Subset.refl _, fun _ => ⟨r.birth, rfl, hm⟩⟩
  | none =>
    refine ⟨List.mem_append_right _ List.mem_cons_self, List.subset_append_left _ _, fun h => ?_⟩
    obtain ⟨r, hr, hc⟩ := List.any_eq_true.mp h
    exact absurd hc (List.find?_eq_none.mp hf r hr)

theorem mem_update {q : Nat → List Mr} {p x : Nat} {l : List Mr} {mr : Mr}
    (h : mr ∈ Function.update q p (q p ++ l) x) : mr ∈ q x ∨ mr ∈ l := by
  by_cases hx : x = p
  · subst hx
    rw [Function.update_self] at h
    exact List.mem_append.mp h
  · rw [Function.update_of_ne hx] at h
    exact .inl h

theorem AllLive.postSend (h : AllLive regions t) (peer addr bytes : Nat) :
    AllLive regions (t.postSend regions peer addr bytes).1 := by
  unfold Verbs.postSend
  split
  · intro p
    refine ⟨fun mr hm => ?_, (h p).2⟩
    rcases mem_update hm with hm | hm
    · exact (h p).1 mr hm
    · rw [List.mem_singleton.mp hm]
      trivial
  · obtain ⟨h1, h2, -⟩ := live_resolve t regions addr bytes
    simp only
    rw [resolve_eq]
    intro p
    refine ⟨fun mr hm => ?_, fun mr hm => ((h p).2 mr hm).mono h2⟩
    rcases mem_update hm with hm | hm
    · exact ((h p).1 mr hm).mono h2
    · rw [List.eq_of_mem_replicate hm]
      exact h1.mono (List.Subset.refl _)

theorem AllLive.postRecv (h : AllLive regions t) (peer addr bytes : Nat) :
    AllLive regions (t.postRecv regions peer addr bytes).1 := by
  obtain ⟨h1, h2, -⟩ := live_resolve t regions addr bytes
  unfold Verbs.postRecv
  simp only
  rw [resolve_eq]
  intro p
  refine ⟨fun mr hm => ((h p).1 mr hm).mono h2, fun mr hm => ?_⟩
  rcases mem_update hm with hm | hm
  · exact ((h p).2 mr hm).mono h2
  · rw [List.eq_of_mem_replicate hm]
    exact h1.mono (List.Subset.refl _)

theorem AllLive.claimRecv (h : AllLive regions t) (peer addr bytes : Nat) :
    AllLive regions (t.claimRecv regions peer addr bytes).1 := by
  unfold Verbs.claimRecv
  split
  · exact h
  · exact h.postRecv peer addr bytes

theorem AllLive.postWave (loc : Ptr → Nat) : ∀ (ops : List P2pOp) {t : Verbs} (posted : List Posted),
    AllLive regions t → AllLive regions (postWave loc regions (t, posted) ops).1
  | [], _, _, h => h
  | op :: ops, t, posted, h => by
    unfold Vccl.postWave
    split
    · exact AllLive.postWave loc ops posted h
    · cases op.isSend with
      | true => exact AllLive.postWave loc ops _ (h.postSend _ _ _)
      | false => exact AllLive.postWave loc ops _ (h.postRecv _ _ _)

theorem AllLive.startWaves (h : AllLive regions t) (loc : Ptr → Nat) (waves : List (List P2pOp)) :
    AllLive regions (startWaves t loc regions waves).1 := by
  cases waves with
  | nil => exact h
  | cons wave later => exact AllLive.postWave loc wave [] h

end Posting

/-! ## Receives posted ahead -/

/-- The MRs of the receives pre-posted and not claimed, on the QP of `p`. -/
def aheadMrs (qm : List (RecvReq × Mr)) (p : Nat) : List Mr :=
  (qm.filter fun x => x.1.peer = p).flatMap fun x => List.replicate (segments x.1.bytes) x.2

section Ahead

variable {regions : List Region}

theorem aheadMrs_cons (x : RecvReq × Mr) (qm : List (RecvReq × Mr)) (p : Nat) :
    aheadMrs (x :: qm) p =
      (if x.1.peer = p then List.replicate (segments x.1.bytes) x.2 else []) ++ aheadMrs qm p := by
  unfold aheadMrs
  by_cases h : x.1.peer = p <;> simp [h]

theorem length_aheadMrs (p : Nat) : ∀ qm : List (RecvReq × Mr),
    (aheadMrs qm p).length = preLoad (qm.map Prod.fst) p
  | [] => rfl
  | x :: qm => by
    rw [aheadMrs_cons, List.length_append, length_aheadMrs p qm, List.map_cons, preLoad_cons, only]
    by_cases h : x.1.peer = p
    · rw [if_pos h, if_pos h.symm, List.length_replicate]
    · rw [if_neg h, if_neg fun h' => h h'.symm, List.length_nil]

theorem mem_aheadMrs {qm : List (RecvReq × Mr)} {p : Nat} {mr : Mr} (h : mr ∈ aheadMrs qm p) :
    ∃ x ∈ qm, x.2 = mr := by
  obtain ⟨x, hx, hm⟩ := List.mem_flatMap.mp h
  exact ⟨x, List.mem_of_mem_filter hx, (List.eq_of_mem_replicate hm).symm⟩

/-- What `postRecvs` posts. -/
theorem postRecvs_ahead (loc : Ptr → Nat) (regions : List Region) : ∀ (reqs : List RecvReq)
    (t : Verbs), AllLive regions t → ∃ qm : List (RecvReq × Mr), qm.map Prod.fst = nonEmpty reqs ∧
    AllLive regions (t.postRecvs loc regions reqs) ∧
    (∀ p, (t.postRecvs loc regions reqs).recvq p = t.recvq p ++ aheadMrs qm p) ∧
    ∀ x ∈ qm, (regions.any fun r => r.covers (loc x.1.buf) x.1.bytes) = true → Lasting regions x.2
  | [], t, hl => ⟨[], rfl, hl, fun p => (List.append_nil _).symm, fun x hx => absurd hx List.not_mem_nil⟩
  | q :: reqs, t, hl => by
    by_cases hb : q.bytes = 0
    · have hskip : t.prePost loc regions q = t := if_pos hb
      obtain ⟨qm, h1, h2, h3, h4⟩ := postRecvs_ahead loc regions reqs t hl
      refine ⟨qm, ?_, ?_, fun p => ?_, h4⟩
      · rw [h1]
        simp [nonEmpty, hb]
      · show AllLive regions ((t.prePost loc regions q).postRecvs loc regions reqs)
        rw [hskip]
        exact h2
      · show ((t.prePost loc regions q).postRecvs loc regions reqs).recvq p = _
        rw [hskip]
        exact h3 p
    · have hpost : t.prePost loc regions q = { (t.postRecv regions q.peer (loc q.buf) q.bytes).1 with
          prePostedRecv := Function.update t.prePostedRecv q.peer
            (t.prePostedRecv q.peer ++ [segments q.bytes]) } := by
        unfold Verbs.prePost Verbs.postRecv
        rw [if_neg hb]
        simp only
        rw [resolve_eq]
      have hl' : AllLive regions (t.prePost loc regions q) := by
        rw [hpost]
        exact hl.postRecv q.peer (loc q.buf) q.bytes
      obtain ⟨qm, h1, h2, h3, h4⟩ := postRecvs_ahead loc regions reqs (t.prePost loc regions q) hl'
      refine ⟨(q, (t.resolve regions (loc q.buf) q.bytes).2) :: qm, ?_, h2, fun p => ?_,
        fun x hx hc => ?_⟩
      · rw [List.map_cons, h1]
        simp [nonEmpty, hb]
      · show ((t.prePost loc regions q).postRecvs loc regions reqs).recvq p = _
        rw [h3, hpost, aheadMrs_cons, ← List.append_assoc]
        congr 1
        show Function.update t.recvq q.peer _ p = _
        by_cases hp : q.peer = p
        · subst hp
          rw [Function.update_self, if_pos rfl]
        · rw [Function.update_of_ne fun h => hp h.symm, if_neg hp, List.append_nil]
      · rcases List.mem_cons.mp hx with rfl | hx
        · exact (live_resolve t regions _ _).2.2 hc
        · exact h4 x hx hc

/-- What is pending on a queue that no call waits for is what was posted ahead. -/
theorem behind_quiet {t : Verbs} {qm : List (RecvReq × Mr)} (h : Counted t none (qm.map Prod.fst))
    {p : Nat} {l : List Mr} (hs : t.recvq p <:+ l ++ aheadMrs qm p) :
    t.recvq p <:+ aheadMrs qm p ∧ t.sendq p = [] := by
  have h1 := h.recv p
  have h2 := h.send p
  simp only [ofWait, Option.elim] at h1 h2
  refine ⟨List.suffix_of_suffix_length_le hs (List.suffix_append _ _) ?_, ?_⟩
  · rw [length_aheadMrs]
    omega
  · exact List.eq_nil_of_length_eq_zero (by omega)

end Ahead

/-! ## The condition -/

/-- The next call of the transport claims a receive. -/
def claimsFirst : List Task → Bool
  | .call (.recv _ _ bytes) :: rest => bytes ≠ 0 || claimsFirst rest
  | .call (.sendRecv _ _ _ _ _ rbytes) :: _ => rbytes ≠ 0
  | .call (.send _ _ bytes) :: rest => bytes = 0 && claimsFirst rest
  | task :: rest => task.isLocal && claimsFirst rest
  | [] => false

/-- Receives posted ahead are covered by a registration, apart from the one that the next call of
the transport claims. -/
def RegisteredAhead (user : Nat → Nat) (s : VRank) : Prop :=
  ∀ reqs rest, s.wait = none → s.code = .call (.postRecvs reqs) :: rest →
    (∀ q ∈ (nonEmpty reqs).tail, s.reg.covers (s.reg.loc user q.buf) q.bytes = true) ∧
    ∀ q ∈ (nonEmpty reqs).head?,
      s.reg.covers (s.reg.loc user q.buf) q.bytes = true ∨ claimsFirst rest = true

/-- Runs whose every step meets the condition. -/
inductive Registered (cap : Nat) (user : Nat → Nat) (s₀ : VRank) : VRank → Prop
  | refl : Registered cap user s₀ s₀
  | step {s s' : VRank} : Registered cap user s₀ s → RegisteredAhead user s → RStep cap user s s' →
      Registered cap user s₀ s'

/-! ## The invariant -/

/-- The invariant, with what is pre-posted and not claimed and the MRs used for it. -/
structure Safe (s : VRank) (qm : List (RecvReq × Mr)) : Prop where
  orderly : Orderly s (qm.map Prod.fst)
  live : AllLive s.reg.regions s.tr
  behind : ∀ p, ∃ l, s.tr.recvq p <:+ l ++ aheadMrs qm p
  tail : ∀ x ∈ qm.tail, Lasting s.reg.regions x.2
  head : ∀ x ∈ qm.head?, Lasting s.reg.regions x.2 ∨ (s.wait = none ∧ claimsFirst s.code = true)

section Invariant

variable {cap : Nat} {user : Nat → Nat} {s s' : VRank} {qm : List (RecvReq × Mr)}

theorem Safe.lasting (h : Safe s qm) (hno : s.wait = none → claimsFirst s.code = false) :
    ∀ x ∈ qm, Lasting s.reg.regions x.2 := by
  intro x hx
  cases qm with
  | nil => cases hx
  | cons y qm =>
    rcases List.mem_cons.mp hx with rfl | hx
    · rcases h.head x rfl with h | ⟨hw, hc⟩
      · exact h
      · rw [hno hw] at hc
        cases hc
    · exact h.tail x hx

/-- The NIC completes a request. -/
theorem AllLive.shrink {regions : List Region} {t t' : Verbs} (h : AllLive regions t)
    (hs : ∀ p, t'.sendq p <:+ t.sendq p) (hr : ∀ p, t'.recvq p <:+ t.recvq p)
    (ht : t.tempMrs ⊆ t'.tempMrs) : AllLive regions t' := fun p =>
  ⟨fun mr hm => ((h p).1 mr ((hs p).subset hm)).mono ht,
    fun mr hm => ((h p).2 mr ((hr p).subset hm)).mono ht⟩

theorem update_suffix {q : Nat → List Mr} {p : Nat} {mr : Mr} {l : List Mr} (h : q p = mr :: l)
    (x : Nat) : Function.update q p l x <:+ q x := by
  by_cases hx : x = p
  · subst hx
    rw [Function.update_self, h]
    exact List.suffix_cons mr l
  · rw [Function.update_of_ne hx]

/-- An iteration of a loop leaves the queues of the QPs alone. -/
theorem body_queues {t t' : Verbs} {w w' : Wait} {o : Obs} (hb : w.body o t = .ok (t', w')) :
    t'.sendq = t.sendq ∧ t'.recvq = t.recvq ∧ t'.tempMrs = t.tempMrs := by
  have honce : ∀ {t t' : Verbs} {p a b : Nat}, t.pollOnce p = .ok (t', a, b) →
      t'.sendq = t.sendq ∧ t'.recvq = t.recvq ∧ t'.tempMrs = t.tempMrs := fun h => by
    obtain ⟨rfl, -, -⟩ := pollOnce_eq_ok h
    exact ⟨rfl, rfl, rfl⟩
  have hposted : ∀ {es es' : List Posted} {t t' : Verbs}, pollPosted t es = .ok (t', es') →
      t'.sendq = t.sendq ∧ t'.recvq = t.recvq ∧ t'.tempMrs = t.tempMrs := by
    intro es
    induction es with
    | nil =>
      intro es' t t' h
      obtain ⟨rfl, -⟩ := Prod.mk.inj (Except.ok.inj h)
      exact ⟨rfl, rfl, rfl⟩
    | cons e es ih =>
      intro es' t t' h
      obtain ⟨t₁, a, b, es₁, hp, he, -⟩ | ⟨-, es₁, he, -⟩ := pollPosted_cons h
      · obtain ⟨h1, h2, h3⟩ := honce hp
        obtain ⟨h4, h5, h6⟩ := ih he
        exact ⟨h4.trans h1, h5.trans h2, h6.trans h3⟩
      · exact ih he
  cases w with
  | pollPeer peer sendWrs recvNeed sendDone recvDone =>
    obtain ⟨a, b, hp, -, -⟩ := body_pollPeer hb
    exact honce hp
  | sendRecv sendPeer recvPeer sendWrs recvNeed sendDone recvDone =>
    obtain ⟨t₁, a, b, hs, hr, -⟩ := body_sendRecv hb
    have h₁ : t₁.sendq = t.sendq ∧ t₁.recvq = t.recvq ∧ t₁.tempMrs = t.tempMrs := by
      obtain ⟨-, r', hp⟩ | ⟨-, rfl, -⟩ := pollSends_eq_ok hs
      · exact honce hp
      · exact ⟨rfl, rfl, rfl⟩
    have h₂ : t'.sendq = t₁.sendq ∧ t'.recvq = t₁.recvq ∧ t'.tempMrs = t₁.tempMrs := by
      obtain ⟨-, s', hp⟩ | ⟨-, rfl, -⟩ := pollRecvs_eq_ok hr
      · exact honce hp
      · exact ⟨rfl, rfl, rfl⟩
    exact ⟨h₂.1.trans h₁.1, h₂.2.1.trans h₁.2.1, h₂.2.2.trans h₁.2.2⟩
  | batch pending posted later =>
    obtain ⟨posted', hp, -, -⟩ := body_batch hb
    exact hposted hp

theorem postSend_recvq (t : Verbs) (regions : List Region) (peer addr bytes : Nat) :
    (t.postSend regions peer addr bytes).1.recvq = t.recvq := by
  unfold Verbs.postSend
  split
  · rfl
  · simp only
    rw [resolve_eq]

theorem behind_nil (q : List Mr) (p : Nat) : ∃ l, q <:+ l ++ aheadMrs [] p := by
  refine ⟨q, ?_⟩
  rw [show aheadMrs [] p = [] from rfl, List.append_nil]

/-- A receive is claimed: what is left ahead are lasting MRs. -/
theorem Safe.claim (h : Safe s qm) (loc : Ptr → Nat) (buf : Ptr) {peer bytes : Nat}
    {qs' : List RecvReq} (hc : claimed peer bytes (qm.map Prod.fst) = some qs')
    (hz : bytes = 0 → claimsFirst s.code = false) :
    let r := if bytes = 0 then (s.tr, 0) else s.tr.claimRecv s.reg.regions peer (loc buf) bytes
    ∃ qm' : List (RecvReq × Mr), qm'.map Prod.fst = qs' ∧
      (∀ x ∈ qm', Lasting s.reg.regions x.2) ∧ AllLive s.reg.regions r.1 ∧
      ∀ p, ∃ l, r.1.recvq p <:+ l ++ aheadMrs qm' p := by
  intro r
  by_cases hb : bytes = 0
  · have hr : r = (s.tr, 0) := if_pos hb
    rw [hr]
    exact ⟨qm, claimed_zero hb hc, h.lasting fun _ => hz hb, h.live, h.behind⟩
  · have hr : r = s.tr.claimRecv s.reg.regions peer (loc buf) bytes := if_neg hb
    rw [hr]
    have hlive := h.live.claimRecv peer (loc buf) bytes
    unfold claimed at hc
    rw [if_neg hb] at hc
    cases qm with
    | nil =>
      obtain rfl := Option.some.inj hc
      exact ⟨[], rfl, fun x hx => absurd hx List.not_mem_nil, hlive, fun p => behind_nil _ p⟩
    | cons x qm =>
      rw [List.map_cons] at hc
      simp only at hc
      by_cases hp : x.1.peer = peer
      · rw [if_pos hp] at hc
        refine ⟨qm, Option.some.inj hc, h.tail, hlive, fun p => ?_⟩
        have hf : s.tr.prePostedRecv peer = segments x.1.bytes :: preFifo (qm.map Prod.fst) peer := by
          rw [h.orderly.counted.fifo, List.map_cons, preFifo_cons, if_pos hp]
        obtain ⟨l, hl⟩ := h.behind p
        rw [aheadMrs_cons, ← List.append_assoc] at hl
        unfold Verbs.claimRecv
        rw [hf]
        exact ⟨_, hl⟩
      · rw [if_neg hp] at hc
        cases hc

/-- The end of a loop: what was temporary is done. -/
theorem Safe.finish {w : Wait} (h : Safe s qm) (hw : s.wait = some w) (hl : ¬ w.looping)
    (loc : Ptr → Nat) :
    AllLive s.reg.regions (w.finish s.tr loc s.reg.regions).1 ∧
      ∀ p, ∃ l, (w.finish s.tr loc s.reg.regions).1.recvq p <:+ l ++ aheadMrs qm p := by
  have hlast := h.lasting fun hn => by rw [hw] at hn; cases hn
  have hc := (h.orderly.waiting hw).settled (h.orderly.honest w hw) hl
  have hquiet : ∀ p, s.tr.recvq p <:+ aheadMrs qm p ∧ s.tr.sendq p = [] := fun p =>
    (h.behind p).elim fun l hl => behind_quiet hc hl
  have hdrained : ∀ t' : Verbs, t'.sendq = s.tr.sendq → t'.recvq = s.tr.recvq →
      AllLive s.reg.regions t' := fun t' h1 h2 p => by
    refine ⟨fun mr hm => ?_, fun mr hm => ?_⟩
    · rw [h1, (hquiet p).2] at hm
      cases hm
    · rw [h2] at hm
      obtain ⟨x, hx, rfl⟩ := mem_aheadMrs ((hquiet p).1.subset hm)
      exact (hlast x hx).live t'
  cases w with
  | pollPeer => exact ⟨hdrained _ rfl rfl, h.behind⟩
  | sendRecv => exact ⟨hdrained _ rfl rfl, h.behind⟩
  | batch pending posted later =>
    obtain ⟨hqs, -⟩ := h.orderly.honest _ hw
    obtain rfl := List.map_eq_nil_iff.mp hqs
    exact ⟨(hdrained s.tr.drainCompleted rfl rfl).startWaves loc later, fun p => behind_nil _ p⟩

theorem AllLive.sendHalf {regions : List Region} {t : Verbs} (h : AllLive regions t)
    (peer addr bytes : Nat) :
    let s := if bytes = 0 then (t, 0) else t.postSend regions peer addr bytes
    AllLive regions s.1 ∧ s.1.recvq = t.recvq := by
  intro s
  by_cases hb : bytes = 0
  · have hs : s = (t, 0) := if_pos hb
    rw [hs]
    exact ⟨h, rfl⟩
  · have hs : s = t.postSend regions peer addr bytes := if_neg hb
    rw [hs]
    exact ⟨h.postSend peer addr bytes, postSend_recvq t regions peer addr bytes⟩

/-- What a task leaves: what is ahead of it, and lasting MRs unless the next call is a claim. -/
def LeftBy (s : VRank) (qm : List (RecvReq × Mr)) (task : Task) (rest : List Task)
    (r : Verbs × Option Wait) : Prop :=
  ∃ qm' : List (RecvReq × Mr), task.after (qm.map Prod.fst) = some (qm'.map Prod.fst) ∧
    AllLive s.reg.regions r.1 ∧ (∀ p, ∃ l, r.1.recvq p <:+ l ++ aheadMrs qm' p) ∧
    (∀ x ∈ qm'.tail, Lasting s.reg.regions x.2) ∧
    ∀ x ∈ qm'.head?, Lasting s.reg.regions x.2 ∨ (r.2 = none ∧ claimsFirst rest = true)

theorem Safe.left_send (h : Safe s qm) {rest : List Task} {loc : Ptr → Nat}
    (peer : Nat) (buf : Ptr) (bytes : Nat) (hc : s.code = .call (.send peer buf bytes) :: rest) :
    LeftBy s qm (.call (.send peer buf bytes)) rest
      ((VerbsOp.send peer buf bytes).start s.tr loc s.reg.regions) := by
  by_cases hb : bytes = 0
  · rw [show (VerbsOp.send peer buf bytes).start s.tr loc s.reg.regions = (s.tr, none) from if_pos hb]
    refine ⟨qm, rfl, h.live, h.behind, h.tail, fun x hx => (h.head x hx).imp_right fun hf => ?_⟩
    have hcl := hf.2
    rw [hc] at hcl
    exact ⟨rfl, (Bool.and_eq_true _ _ ▸ hcl).2⟩
  · have hno : claimsFirst s.code = false := by
      rw [hc]
      simp [claimsFirst, hb]
    have hlast := h.lasting fun _ => hno
    rw [show (VerbsOp.send peer buf bytes).start s.tr loc s.reg.regions = (_, _) from if_neg hb]
    refine ⟨qm, rfl, h.live.postSend peer (loc buf) bytes, fun p => ?_,
      fun x hx => hlast x (List.mem_of_mem_tail hx), fun x hx => .inl (hlast x (List.mem_of_mem_head? hx))⟩
    rw [postSend_recvq]
    exact h.behind p

theorem Safe.left_recv (h : Safe s qm) {rest : List Task} {loc : Ptr → Nat}
    (peer : Nat) (buf : Ptr) (bytes : Nat) (hc : s.code = .call (.recv peer buf bytes) :: rest) :
    LeftBy s qm (.call (.recv peer buf bytes)) rest
      ((VerbsOp.recv peer buf bytes).start s.tr loc s.reg.regions) := by
  obtain ⟨qs', ha, -⟩ := h.orderly.next hc
  by_cases hb : bytes = 0
  · rw [show (VerbsOp.recv peer buf bytes).start s.tr loc s.reg.regions = (s.tr, none) from if_pos hb]
    obtain rfl := claimed_zero hb ha
    refine ⟨qm, ha, h.live, h.behind, h.tail, fun x hx => (h.head x hx).imp_right fun hf => ?_⟩
    have hcl := hf.2
    rw [hc] at hcl
    simp only [claimsFirst, hb, ne_eq, not_true, decide_false, Bool.false_or] at hcl
    exact ⟨rfl, hcl⟩
  · obtain ⟨qm', hq, hlast, hlive, hbehind⟩ := 
      h.claim loc buf ha fun hz => absurd hz hb
    rw [if_neg hb] at hlive hbehind
    rw [show (VerbsOp.recv peer buf bytes).start s.tr loc s.reg.regions = (_, _) from if_neg hb]
    refine ⟨qm', hq ▸ ha, hlive, hbehind, fun x hx => hlast x (List.mem_of_mem_tail hx),
      fun x hx => .inl (hlast x (List.mem_of_mem_head? hx))⟩

theorem Safe.left_sendRecv (h : Safe s qm) {rest : List Task} {loc : Ptr → Nat} (sp : Nat) (sb : Ptr) (sn rp : Nat) (rb : Ptr) (rn : Nat)
    (hc : s.code = .call (.sendRecv sp sb sn rp rb rn) :: rest) :
    LeftBy s qm (.call (.sendRecv sp sb sn rp rb rn)) rest
      ((VerbsOp.sendRecv sp sb sn rp rb rn).start s.tr loc s.reg.regions) := by
  obtain ⟨qs', ha, -⟩ := h.orderly.next hc
  obtain ⟨qm', hq, hlast, hlive, hbehind⟩ := h.claim loc rb ha fun hz => by
    rw [hc]
    simp [claimsFirst, hz]
  have hafter : Task.after (qm.map Prod.fst) (.call (.sendRecv sp sb sn rp rb rn)) =
      some (qm'.map Prod.fst) := hq ▸ ha
  simp only [VerbsOp.start]
  generalize (if rn = 0 then (s.tr, 0) else s.tr.claimRecv s.reg.regions rp (loc rb) rn) = r
    at hlive hbehind ⊢
  obtain ⟨h1, h2⟩ := hlive.sendHalf sp (loc sb) sn
  generalize (if sn = 0 then (r.1, 0) else r.1.postSend s.reg.regions sp (loc sb) sn) = t at h1 h2 ⊢
  rw [← h2] at hbehind
  split
  · exact ⟨qm', hafter, h1, hbehind, fun x hx => hlast x (List.mem_of_mem_tail hx),
      fun x hx => .inl (hlast x (List.mem_of_mem_head? hx))⟩
  · exact ⟨qm', hafter, h1, hbehind, fun x hx => hlast x (List.mem_of_mem_tail hx),
      fun x hx => .inl (hlast x (List.mem_of_mem_head? hx))⟩

theorem Safe.left_postRecvs (h : Safe s qm) (hreg : RegisteredAhead user s) (hw : s.wait = none)
    {rest : List Task} (reqs : List RecvReq) (hc : s.code = .call (.postRecvs reqs) :: rest) :
    LeftBy s qm (.call (.postRecvs reqs)) rest
      ((VerbsOp.postRecvs reqs).start s.tr (s.reg.loc user) s.reg.regions) := by
  obtain ⟨qs', ha, -⟩ := h.orderly.next hc
  obtain ⟨hqs, rfl⟩ := quiet_after ha
  obtain rfl := List.map_eq_nil_iff.mp hqs
  obtain ⟨qm', h1, h2, h3, h4⟩ := postRecvs_ahead (s.reg.loc user) s.reg.regions reqs s.tr h.live
  obtain ⟨htail, hhead⟩ := hreg reqs rest hw hc
  rw [← h1] at ha htail hhead
  refine ⟨qm', ha, h2, fun p => ⟨s.tr.recvq p, ?_⟩, fun x hx => ?_, fun x hx => ?_⟩
  · rw [← h3 p]
    exact List.suffix_rfl
  · exact h4 x (List.mem_of_mem_tail hx) (htail x.1 (by
      rw [← List.map_tail]
      exact List.mem_map_of_mem hx))
  · refine (hhead x.1 (by rw [List.head?_map, hx]; rfl)).imp (h4 x (List.mem_of_mem_head? hx))
      fun hcl => ⟨rfl, hcl⟩

/-- The start of a task. -/
theorem Safe.left (h : Safe s qm) (hreg : RegisteredAhead user s) (hw : s.wait = none)
    {task : Task} {rest : List Task} {op : VerbsOp} (hc : s.code = task :: rest)
    (hv : task.verbs = some op) :
    LeftBy s qm task rest (op.start s.tr (s.reg.loc user) s.reg.regions) := by
  cases task with
  | reg r => cases hv
  | batch ops =>
    obtain rfl := Option.some.inj hv
    obtain ⟨qs', ha, -⟩ := h.orderly.next hc
    obtain ⟨hqs, rfl⟩ := quiet_after ha
    obtain rfl := List.map_eq_nil_iff.mp hqs
    exact ⟨[], ha, h.live.startWaves _ _, fun p => behind_nil _ p, fun x hx => absurd hx List.not_mem_nil,
      fun x hx => by cases hx⟩
  | call c =>
    cases c with
    | send peer buf bytes =>
      obtain rfl := Option.some.inj hv
      exact h.left_send peer buf bytes hc
    | recv peer buf bytes =>
      obtain rfl := Option.some.inj hv
      exact h.left_recv peer buf bytes hc
    | sendRecv sp sb sn rp rb rn =>
      obtain rfl := Option.some.inj hv
      exact h.left_sendRecv sp sb sn rp rb rn hc
    | postRecvs reqs =>
      obtain rfl := Option.some.inj hv
      exact h.left_postRecvs hreg hw reqs hc
    | _ => cases hv

theorem claimsFirst_local {task : Task} {rest : List Task} (hl : task.isLocal = true) :
    claimsFirst (task :: rest) = claimsFirst rest := by
  cases task with
  | reg op => cases hl
  | batch ops => cases hl
  | call c =>
    cases c with
    | memcpy | cpuReduce | cpuScale | cpuScaleCopy | cpuScaledAccumulate => exact Bool.true_and _
    | _ => cases hl

/-- **One step keeps the work in flight on live registrations.** -/
theorem Safe.step (h : Safe s qm) (hreg : RegisteredAhead user s) (hstep : RStep cap user s s') :
    ∃ qm', Safe s' qm' := by
  cases hstep with
  | sent p hq =>
    refine ⟨qm, ⟨Tally.sent h.orderly.counted hq, h.orderly.honest, h.orderly.after⟩, ?_, h.behind,
      h.tail, h.head⟩
    exact h.live.shrink (update_suffix hq) (fun _ => List.suffix_rfl) (List.Subset.refl _)
  | received p hq =>
    refine ⟨qm, ⟨Tally.received h.orderly.counted hq, h.orderly.honest, h.orderly.after⟩, ?_,
      fun x => ?_, h.tail, h.head⟩
    · exact h.live.shrink (fun _ => List.suffix_rfl) (update_suffix hq) (List.Subset.refl _)
    · obtain ⟨l, hl⟩ := h.behind x
      exact ⟨l, (update_suffix hq x).trans hl⟩
  | compute hw hc hl =>
    refine ⟨qm, h.orderly.compute hc hl, h.live, h.behind, h.tail, fun x hx => ?_⟩
    have := h.head x hx
    rwa [hc, claimsFirst_local hl] at this
  | book hw hc hb =>
    obtain ⟨hqs, h'⟩ := h.orderly.book cap hc hb
    obtain rfl := List.map_eq_nil_iff.mp hqs
    have hquiet : ∀ p, s.tr.recvq p = [] ∧ s.tr.sendq p = [] := fun p => by
      obtain ⟨l, hl⟩ := h.behind p
      obtain ⟨h1, h2⟩ := behind_quiet (h.orderly.quiet hw) hl
      exact ⟨List.suffix_nil.mp h1, h2⟩
    refine ⟨[], h', fun p => ⟨fun mr hm => ?_, fun mr hm => ?_⟩, h.behind,
      fun x hx => absurd hx List.not_mem_nil, fun x hx => by cases hx⟩
    · rw [(hquiet p).2] at hm
      cases hm
    · rw [(hquiet p).1] at hm
      cases hm
  | post hw hc hv =>
    obtain ⟨qm', ha, h1, h2, h3, h4⟩ := h.left hreg hw hc hv
    exact ⟨qm', h.orderly.post hw hc hv ha, h1, h2, h3, h4⟩
  | @poll w w' t' o hw hl hb =>
    obtain ⟨h1, h2, h3⟩ := body_queues hb
    have hlast := h.lasting fun hn => by rw [hw] at hn; cases hn
    refine ⟨qm, h.orderly.poll hw hb, h.live.shrink (fun p => ?_) (fun p => ?_) ?_, fun p => ?_,
      h.tail, fun x hx => .inl (hlast x (List.mem_of_mem_head? hx))⟩
    · rw [h1]
    · rw [h2]
    · rw [h3]
      exact List.Subset.refl _
    · show ∃ l, t'.recvq p <:+ _
      rw [h2]
      exact h.behind p
  | @finish w hw hl =>
    have hlast := h.lasting fun hn => by rw [hw] at hn; cases hn
    obtain ⟨h1, h2⟩ := h.finish hw hl (s.reg.loc user)
    exact ⟨qm, h.orderly.finish hw hl, h1, h2, h.tail,
      fun x hx => .inl (hlast x (List.mem_of_mem_head? hx))⟩

end Invariant

/-- **Work in flight refers to live registrations**, in a run in which every receive posted ahead is
covered by a registration, except one that the next call of the transport claims. -/
theorem work_requests_live (cap : Nat) (user : Nat → Nat) (gatherEnv reduceEnv : AlgoEnv) (n r : Nat)
    (reg : Registry) (maxInline : Nat → Nat) (acts : List Act) (s : VRank)
    (hrun : Registered cap user
      ⟨reg, .init maxInline, actTasks gatherEnv reduceEnv n r acts, none⟩ s) :
    AllLive s.reg.regions s.tr := by
  have h₀ : Safe ⟨reg, .init maxInline, actTasks gatherEnv reduceEnv n r acts, none⟩ [] :=
    ⟨orderly_init reg maxInline (tasksAfter_acts gatherEnv reduceEnv n r acts),
      fun p => ⟨fun mr hm => absurd hm List.not_mem_nil, fun mr hm => absurd hm List.not_mem_nil⟩,
      fun p => behind_nil _ p, fun x hx => absurd hx List.not_mem_nil, fun x hx => by cases hx⟩
  have hsafe : ∃ qm, Safe s qm := by
    induction hrun with
    | refl => exact ⟨[], h₀⟩
    | step _ hreg hstep ih =>
      obtain ⟨qm, h⟩ := ih
      exact h.step hreg hstep
  obtain ⟨qm, h⟩ := hsafe
  exact h.live

/-- The first rank of four, about to add up one `float` in place. -/
def fourAllReduce : VRank :=
  ⟨.init true, .init fun _ => 220, actTasks ⟨none, none⟩ ⟨none, none⟩ 4 0
    [.exec (.job (.allReduce ⟨.user 0, 0⟩ ⟨.user 0, 0⟩ 1 .float32 .sum none))], none⟩

theorem registeredAhead_other {user : Nat → Nat} {s : VRank} {task : Task} {rest : List Task}
    (hc : s.code = task :: rest) (hp : ∀ reqs, task ≠ .call (.postRecvs reqs)) :
    RegisteredAhead user s := fun reqs _ _ hc' =>
  absurd (List.cons.inj (hc.symm.trans hc')).1 (hp reqs)

theorem registeredAhead_post {user : Nat → Nat} {s : VRank} {reqs : List RecvReq}
    {rest : List Task} (hc : s.code = .call (.postRecvs reqs) :: rest)
    (hq : ∀ q ∈ nonEmpty reqs, s.reg.covers (s.reg.loc user q.buf) q.bytes = true) :
    RegisteredAhead user s := by
  intro reqs' rest' _ hc'
  have h := (List.cons.inj (hc.symm.trans hc')).1
  obtain rfl : reqs = reqs' := by
    injection h with h
    injection h
  exact ⟨fun q hm => hq q (List.mem_of_mem_tail hm), fun q hm => .inl (hq q (List.mem_of_mem_head? hm))⟩

/-- With its scratch buffer registered, the receive from rank 2 outlives the first step on a live
registration. -/
theorem work_requests_live_four : ∃ s, Registered 0 (fun _ => 4096) fourAllReduce s ∧
    s.tr.recvq 2 = [.region 1] ∧ s.tr.tempMrs = [] ∧ AllLive s.reg.regions s.tr := by
  have hinit : Registered 0 (fun _ => 4096) fourAllReduce fourAllReduce := .refl
  have hposted := ((hinit.step
    (registeredAhead_other rfl fun _ h => nomatch h) (.book _ rfl rfl (.reg _))).step
    (registeredAhead_other rfl fun _ h => nomatch h) (.book _ rfl rfl (.add _ _))).step
    (registeredAhead_other rfl fun _ h => nomatch h)
      (.book _ rfl rfl (.scratchAt _ 8192 .success))
  have hrun := (((((hposted.step
    (registeredAhead_post rfl (by decide)) (.post _ rfl rfl rfl)).step
    (registeredAhead_other rfl fun _ h => nomatch h) (.post _ rfl rfl rfl)).step
    (registeredAhead_other rfl fun _ h => nomatch h) (.sent _ 1 rfl)).step
    (registeredAhead_other rfl fun _ h => nomatch h) (.received _ 1 rfl)).step
    (registeredAhead_other rfl fun _ h => nomatch h)
      (.poll _ ⟨false, false, false⟩ rfl (Or.inl (by decide)) rfl)).step
    (registeredAhead_other rfl fun _ h => nomatch h)
      (.finish _ rfl fun h => h.elim (Nat.lt_irrefl 1) (Nat.lt_irrefl 1))
  exact ⟨_, hrun, rfl, rfl,
    work_requests_live 0 (fun _ => 4096) ⟨none, none⟩ ⟨none, none⟩ 4 0 (.init true) (fun _ => 220) _ _
      hrun⟩

/-- **A scratch buffer that is not registered**: after the first step of the all-reduce the receive
from rank 2 is still posted, and its MR is gone. -/
theorem ahead_mr_released : ∃ s, RReach 0 (fun _ => 4096) fourAllReduce s ∧
    s.tr.recvq 2 = [.temp 1] ∧ s.tr.tempMrs = [] ∧ ¬ AllLive s.reg.regions s.tr := by
  have hinit : RReach 0 (fun _ => 4096) fourAllReduce fourAllReduce := .refl
  have hrun := ((((((((hinit.step
    (.book _ rfl rfl (.reg _))).step
    (.book _ rfl rfl (.add _ _))).step
    (.book _ rfl rfl (.scratchAt _ 8192 .systemError))).step
    (.post _ rfl rfl rfl)).step
    (.post _ rfl rfl rfl)).step
    (.sent _ 1 rfl)).step
    (.received _ 1 rfl)).step
    (.poll _ ⟨false, false, false⟩ rfl (Or.inl (by decide)) rfl)).step
    (.finish _ rfl fun h => h.elim (Nat.lt_irrefl 1) (Nat.lt_irrefl 1))
  refine ⟨_, hrun, rfl, rfl, fun h => ?_⟩
  exact absurd ((h 2).2 (.temp 1) List.mem_cons_self) List.not_mem_nil

end Vccl
