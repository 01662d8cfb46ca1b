import Vccl.Completions

/-!
# Which runs drop a receive completion

`Tracked` is the invariant of a rank with the number of completions dropped so far. Nothing is ever
credited back (`Tracked.run`), and a rank at the end of its tasks has dropped none (`Tracked.closed`): one
that has dropped a completion waits for it for ever.

`Lossless` is a condition on the tasks: no call sends to a peer, other than the one it receives from,
from which a receive is pre-posted and not claimed. With such tasks no run drops anything.
-/

namespace Vccl

/-! ## Runs -/

/-- The invariant of a run, with `qs` pre-posted and not claimed and `d` dropped. -/
structure Tracked (s : VRank) (qs : List RecvReq) (d : Nat → Nat) : Prop where
  orderly : Orderly s qs
  balanced : Balanced s.tr d s.wait
  sane : ∀ w, s.wait = some w → w.Sane
  drawn : ∀ p, 0 < ofWait Wait.recvNeed s.wait p → s.tr.recvSurplus p = 0
  sound : ∀ p, ∀ c ∈ s.tr.cq p, c.ok = true

/-- No receive is pre-posted for the peer a loop for two peers sends to. -/
def Wait.Clear (qs : List RecvReq) : Wait → Prop
  | .sendRecv sendPeer _ sendWrs _ _ _ => sendWrs = 0 ∨ ∀ q ∈ qs, q.peer ≠ sendPeer
  | _ => True

/-- The call waits in the loop for two peers, has something to send, and a receive from the peer it
sends to is among those pre-posted and not claimed. -/
def Task.Lossy (qs : List RecvReq) : Task → Prop
  | .call (.sendRecv sendPeer _ sbytes recvPeer _ _) =>
    sendPeer ≠ recvPeer ∧ sbytes ≠ 0 ∧ ∃ q ∈ qs, q.peer = sendPeer
  | _ => False

instance (qs : List RecvReq) : (task : Task) → Decidable (task.Lossy qs)
  | .call (.sendRecv ..) => inferInstanceAs (Decidable (_ ∧ _ ∧ _))
  | .call (.send ..) | .call (.recv ..) | .call (.postRecvs _) | .call (.regAdd ..)
  | .call (.scratchAt _) | .call (.memcpy ..) | .call (.cpuReduce ..) | .call (.cpuScale ..)
  | .call (.cpuScaleCopy ..) | .call (.cpuScaledAccumulate ..) | .batch _ | .reg _ =>
    inferInstanceAs (Decidable False)

/-- No task is lossy when its turn comes, with `qs` pre-posted before the first. -/
def Lossless (qs : List RecvReq) : List Task → Prop
  | [] => True
  | task :: rest => ¬ task.Lossy qs ∧ ∀ qs' ∈ task.after qs, Lossless qs' rest

/-- The loop at work and the tasks left drop nothing. -/
structure Secure (s : VRank) (qs : List RecvReq) : Prop where
  clear : ∀ w, s.wait = some w → w.Clear qs
  lossless : Lossless qs s.code

/-- The NIC has completed no receive that the loop at work does not need. -/
structure Lazy (t : Verbs) (w : Option Wait) : Prop where
  surplus : ∀ p, t.recvSurplus p = 0
  ahead : ∀ p, t.unreaped true p + ofWait Wait.recvDone w p ≤ ofWait Wait.recvNeed w p

section Runs

variable {cap : Nat} {user : Nat → Nat} {s s' : VRank} {qs : List RecvReq} {d : Nat → Nat}

theorem RReach.trans {s₁ s₂ s₃ : VRank} (h : RReach cap user s₁ s₂) (h' : RReach cap user s₂ s₃) :
    RReach cap user s₁ s₃ := by
  induction h' with
  | refl => exact h
  | step _ hstep ih => exact .step ih hstep

theorem RReach.head {s₁ s₂ s₃ : VRank} (h : RStep cap user s₁ s₂) (h' : RReach cap user s₂ s₃) :
    RReach cap user s₁ s₃ := RReach.trans (.step .refl h) h'

theorem Tracked.waiting {w : Wait} (h : Tracked s qs d) (hw : s.wait = some w) :
    Balanced s.tr d (some w) := by
  have hb := h.balanced
  rwa [hw] at hb

theorem Tracked.quiet (h : Tracked s qs d) (hw : s.wait = none) : Balanced s.tr d none := by
  have hb := h.balanced
  rwa [hw] at hb

theorem Tracked.prePosted (h : Tracked s qs d) (p : Nat) : s.tr.prePostedRecv p = preFifo qs p :=
  h.orderly.counted.fifo p

/-- With no receive pre-posted for a peer nothing of it is pre-posted. -/
theorem preFifo_absent {p : Nat} (h : ∀ q ∈ qs, q.peer ≠ p) : preFifo qs p = [] := by
  unfold preFifo
  rw [List.filter_eq_nil_iff.mpr fun q hq => by simpa using h q hq, List.map_nil]

/-- A clear loop is tidy: what comes in from the peer it sends to was pre-posted, and nothing was. -/
theorem Tracked.tidy {w : Wait} (h : Tracked s qs d) (hw : s.wait = some w) (hc : w.Clear qs) :
    w.Tidy s.tr := by
  cases w with
  | pollPeer => trivial
  | batch => trivial
  | sendRecv sp rp wrs need sd rd =>
    intro hlt
    rcases hc with rfl | hc
    · exact absurd hlt (Nat.not_lt_zero _)
    · have hne : sp ≠ rp := h.sane _ hw
      have hrecv := (h.waiting hw).recv sp
      simp only [ofWait, Option.elim, Wait.recvNeed, Wait.recvDone, if_neg hne, h.prePosted sp,
        preFifo_absent hc, List.sum_nil] at hrecv
      omega

/-- So is a loop that the NIC does not run ahead of. -/
theorem Lazy.tidy {w : Wait} {t : Verbs} (h : Lazy t (some w)) (hs : w.Sane) : w.Tidy t := by
  cases w with
  | pollPeer => trivial
  | batch => trivial
  | sendRecv sp rp wrs need sd rd =>
    intro _
    have hne : sp ≠ rp := hs
    have := h.ahead sp
    simp only [ofWait, Option.elim, Wait.recvNeed, Wait.recvDone, if_neg hne] at this
    omega

theorem sane_body {t t' : Verbs} {w w' : Wait} {o : Obs} (hs : w.Sane)
    (hb : w.body o t = .ok (t', w')) : w'.Sane := by
  cases w with
  | pollPeer peer sendWrs recvNeed sendDone recvDone =>
    obtain ⟨_, _, -, -, rfl⟩ := body_pollPeer hb
    trivial
  | sendRecv sendPeer recvPeer sendWrs recvNeed sendDone recvDone =>
    obtain ⟨_, _, _, -, -, rfl⟩ := body_sendRecv hb
    exact hs
  | batch pending posted later =>
    obtain ⟨posted', hp, -, rfl⟩ := body_batch hb
    show (posted'.map Posted.peer).Pairwise (· < ·)
    rw [(pollPosted_frame hp).1]
    exact hs

theorem clear_body {t t' : Verbs} {w w' : Wait} {o : Obs} (hc : w.Clear qs)
    (hb : w.body o t = .ok (t', w')) : w'.Clear qs := by
  cases w with
  | pollPeer peer sendWrs recvNeed sendDone recvDone =>
    obtain ⟨_, _, -, -, rfl⟩ := body_pollPeer hb
    trivial
  | sendRecv sendPeer recvPeer sendWrs recvNeed sendDone recvDone =>
    obtain ⟨_, _, _, -, -, rfl⟩ := body_sendRecv hb
    exact hc
  | batch pending posted later =>
    obtain ⟨_, -, -, rfl⟩ := body_batch hb
    trivial

/-- What an iteration does to the transport: completions leave the queues. -/
structure Shrinks (t t' : Verbs) : Prop where
  frame : t'.sendq = t.sendq ∧ t'.recvq = t.recvq ∧ t'.recvSurplus = t.recvSurplus
  cq : ∀ p, ∃ k, t'.cq p = (t.cq p).drop k

theorem Shrinks.refl (t : Verbs) : Shrinks t t := ⟨⟨rfl, rfl, rfl⟩, fun _ => ⟨0, rfl⟩⟩

theorem Shrinks.trans {t₁ t₂ t₃ : Verbs} (h : Shrinks t₁ t₂) (h' : Shrinks t₂ t₃) :
    Shrinks t₁ t₃ := by
  refine ⟨⟨h'.frame.1.trans h.frame.1, h'.frame.2.1.trans h.frame.2.1,
    h'.frame.2.2.trans h.frame.2.2⟩, fun p => ?_⟩
  obtain ⟨k, hk⟩ := h.cq p
  obtain ⟨k', hk'⟩ := h'.cq p
  exact ⟨k + k', by rw [hk', hk, List.drop_drop]⟩

theorem shrinks_pollOnce {t t' : Verbs} {p a b : Nat} (hp : t.pollOnce p = .ok (t', a, b)) :
    Shrinks t t' ∧ t'.cq p = (t.cq p).drop 16 := by
  obtain ⟨rfl, -, -⟩ := pollOnce_eq_ok hp
  refine ⟨⟨⟨rfl, rfl, rfl⟩, fun x => ?_⟩, Function.update_self _ _ _⟩
  by_cases hx : x = p
  · subst hx
    exact ⟨16, Function.update_self _ _ _⟩
  · exact ⟨0, Function.update_of_ne hx _ _⟩

theorem shrinks_pollPosted : ∀ {es es' : List Posted} {t t' : Verbs},
    pollPosted t es = .ok (t', es') → Shrinks t t'
  | [], _, _, _, hp => by
    obtain ⟨rfl, -⟩ := Prod.mk.inj (Except.ok.inj hp)
    exact .refl _
  | e :: es, _, _, _, hp => by
    obtain ⟨_, _, _, _, hpoll, hes, -⟩ | ⟨-, _, hes, -⟩ := pollPosted_cons hp
    · exact (shrinks_pollOnce hpoll).1.trans (shrinks_pollPosted hes)
    · exact shrinks_pollPosted hes

theorem shrinks_body {t t' : Verbs} {w w' : Wait} {o : Obs} (hb : w.body o t = .ok (t', w')) :
    Shrinks t t' := by
  cases w with
  | pollPeer peer sendWrs recvNeed sendDone recvDone =>
    obtain ⟨_, _, hp, -, -⟩ := body_pollPeer hb
    exact (shrinks_pollOnce hp).1
  | sendRecv sendPeer recvPeer sendWrs recvNeed sendDone recvDone =>
    obtain ⟨t₁, _, _, hs, hr, -⟩ := body_sendRecv hb
    have h₁ : Shrinks t t₁ := by
      obtain ⟨-, _, hp⟩ | ⟨-, rfl, -⟩ := pollSends_eq_ok hs
      · exact (shrinks_pollOnce hp).1
      · exact .refl _
    obtain ⟨-, _, hp⟩ | ⟨-, rfl, -⟩ := pollRecvs_eq_ok hr
    · exact h₁.trans (shrinks_pollOnce hp).1
    · exact h₁
  | batch pending posted later =>
    obtain ⟨_, hp, -, -⟩ := body_batch hb
    exact shrinks_pollPosted hp

theorem Shrinks.sound {t t' : Verbs} (h : Shrinks t t') (hs : ∀ p, ∀ c ∈ t.cq p, c.ok = true)
    (p : Nat) : ∀ c ∈ t'.cq p, c.ok = true := by
  intro c hc
  obtain ⟨k, hk⟩ := h.cq p
  rw [hk] at hc
  exact hs p c (List.mem_of_mem_drop hc)

/-- A poll of the loop at work. -/
theorem Tracked.poll {w w' : Wait} {t' : Verbs} {o : Obs} (h : Tracked s qs d) (hw : s.wait = some w)
    (hb : w.body o s.tr = .ok (t', w')) :
    ∃ d', Tracked { s with tr := t', wait := some w' } qs d' ∧ (∀ p, d p ≤ d' p) ∧
      (w.Tidy s.tr → d' = d) := by
  obtain ⟨d', hbal, hle, htidy⟩ := Account.body (h.waiting hw) (h.sane w hw) hb
  have hneed := ((h.orderly.waiting hw).body hb).2.1
  have hsh := shrinks_body hb
  refine ⟨d', ⟨h.orderly.poll hw hb, hbal, fun w₁ hw₁ => ?_, fun p hp => ?_, hsh.sound h.sound⟩,
    hle, htidy⟩
  · rw [← Option.some.inj hw₁]
    exact sane_body (h.sane w hw) hb
  · show t'.recvSurplus p = 0
    rw [hsh.frame.2.2]
    refine h.drawn p ?_
    rw [hw]
    simpa only [ofWait, Option.elim, hneed] using hp

/-- A loop that is done owes nothing. -/
theorem done_body {w : Wait} (hh : w.Honest qs) (hl : ¬ w.looping) (p : Nat) :
    w.recvNeed p ≤ w.recvDone p ∧ w.sendNeed p ≤ w.sendDone p := by
  cases w with
  | pollPeer peer sendWrs recvNeed sendDone recvDone =>
    obtain ⟨hs, hr⟩ := not_or.mp hl
    exact ⟨only_mono (Nat.not_lt.mp hr) peer p, only_mono (Nat.not_lt.mp hs) peer p⟩
  | sendRecv sendPeer recvPeer sendWrs recvNeed sendDone recvDone =>
    obtain ⟨hs, hr⟩ := not_or.mp hl
    exact ⟨only_mono (Nat.not_lt.mp hr) recvPeer p, only_mono (Nat.not_lt.mp hs) sendPeer p⟩
  | batch pending posted later =>
    have hdone := hh.2 (Bool.eq_false_iff.mpr hl)
    exact ⟨postedSum_le p fun e he => Nat.not_lt.mp fun h => hdone e he (.inr h),
      postedSum_le p fun e he => Nat.not_lt.mp fun h => hdone e he (.inl h)⟩

/-- All sends of a loop that is done are counted. -/
theorem Tracked.sendsDone {w : Wait} (h : Tracked s qs d) (hw : s.wait = some w) (hl : ¬ w.looping)
    (p : Nat) : w.sendNeed p = w.sendDone p := by
  have hsend := (h.waiting hw).send p
  have hdone := (done_body (h.orderly.honest w hw) hl p).2
  simp only [ofWait, Option.elim] at hsend
  omega

/-- A rank with nothing pre-posted and nothing to wait for has no surplus. -/
theorem Tracked.noSurplus (h : Tracked s [] d) {w : Wait} (hw : s.wait = none ∨ s.wait = some w ∧
    ¬ w.looping) (p : Nat) : s.tr.recvSurplus p = 0 := by
  have hrecv := h.orderly.counted.recv p
  have hpre : preLoad [] p = 0 := rfl
  rw [hpre] at hrecv
  rcases hw with hw | ⟨hw, hl⟩
  · rw [hw] at hrecv
    simp only [ofWait, Option.elim] at hrecv
    omega
  · rw [hw] at hrecv
    have hdone := (done_body (h.orderly.honest w hw) hl p).1
    simp only [ofWait, Option.elim] at hrecv
    omega

/-- What is left after the start of a call or a wave. -/
theorem Begun.kept {r : Verbs × Option Wait} {qs' : List RecvReq} {code : List Task}
    (hr : Begun s.tr d r) (hsound : ∀ p, ∀ c ∈ s.tr.cq p, c.ok = true)
    (ho : Orderly { s with tr := r.1, wait := r.2, code := code } qs') :
    Tracked { s with tr := r.1, wait := r.2, code := code } qs' d where
  orderly := ho
  balanced := hr.balanced
  sane := hr.sane
  drawn := hr.drawn
  sound := by
    rw [hr.cq]
    exact hsound

theorem Begun.lazy {t : Verbs} {r : Verbs × Option Wait} (hr : Begun t d r)
    (hsur : ∀ p, t.recvSurplus p = 0) (hun : ∀ p, t.unreaped true p = 0) : Lazy r.1 r.2 := by
  refine ⟨fun p => ?_, fun p => ?_⟩
  · have := hr.surplus p
    rw [hsur p] at this
    exact Nat.le_zero.mp this
  · have hp : r.1.unreaped true p = 0 := by
      unfold Verbs.unreaped
      rw [hr.cq]
      exact hun p
    rw [hp, hr.fresh p]
    exact Nat.zero_le _

theorem Lazy.unreaped {t : Verbs} {w : Wait} (hz : Lazy t (some w)) (hh : w.Honest qs)
    (hl : ¬ w.looping) (p : Nat) : t.unreaped true p = 0 := by
  have := hz.ahead p
  have := (done_body hh hl p).1
  simp only [ofWait, Option.elim] at *
  omega

/-- The end of a loop on one or two peers: the credit. -/
theorem Tracked.credit {w : Wait} {rp need done : Nat} (h : Tracked s qs d) (hw : s.wait = some w)
    (hl : ¬ w.looping) (hneed : w.recvNeed = only rp need) (hdone : w.recvDone = only rp done)
    (ho : Orderly { s with
      tr := (s.tr.giveRecvSurplus rp (done - need)).drainCompleted, wait := none } qs) :
    Tracked { s with tr := (s.tr.giveRecvSurplus rp (done - need)).drainCompleted, wait := none } qs
      d ∧ (Lazy s.tr (some w) →
        Lazy (s.tr.giveRecvSurplus rp (done - need)).drainCompleted none) := by
  have hle : need ≤ done := by
    have := (done_body (h.orderly.honest w hw) hl rp).1
    rw [hneed, hdone, only, only, if_pos rfl, if_pos rfl] at this
    exact this
  have hbal : Account s.tr d (only rp need) (only rp done) w.sendNeed w.sendDone := by
    rw [← hneed, ← hdone]
    exact h.waiting hw
  refine ⟨⟨ho, ?_, fun w' hw' => ?_, fun p hp => absurd hp (Nat.lt_irrefl 0), h.sound⟩,
    fun hz => ⟨fun p => ?_, fun p => ?_⟩⟩
  · refine (hbal.giveRecvSurplus hle).drainCompleted.shift (fun p => rfl) fun p => ?_
    rw [h.sendsDone hw hl p]
    exact Nat.add_comm _ _
  · cases hw'
  · have hahead := hz.ahead rp
    simp only [ofWait, Option.elim, hneed, hdone, only, if_true] at hahead
    simp only [Verbs.drainCompleted, Verbs.giveRecvSurplus, show done - need = 0 by omega,
      Nat.add_zero, Function.update_eq_self]
    exact hz.surplus p
  · exact Nat.le_of_eq (hz.unreaped (h.orderly.honest w hw) hl p)

/-- **The end of a loop.** -/
theorem Tracked.finish {w : Wait} (h : Tracked s qs d) (user : Nat → Nat) (hw : s.wait = some w) (hl : ¬ w.looping) :
    Tracked { s with
      tr := (w.finish s.tr (s.reg.loc user) s.reg.regions).1,
      wait := (w.finish s.tr (s.reg.loc user) s.reg.regions).2 } qs d ∧
    (Lazy s.tr (some w) → Lazy (w.finish s.tr (s.reg.loc user) s.reg.regions).1
      (w.finish s.tr (s.reg.loc user) s.reg.regions).2) := by
  have ho : Orderly { s with
      tr := (w.finish s.tr (s.reg.loc user) s.reg.regions).1,
      wait := (w.finish s.tr (s.reg.loc user) s.reg.regions).2 } qs := h.orderly.finish hw hl
  cases w with
  | pollPeer peer sendWrs recvNeed sendDone recvDone => exact h.credit hw hl rfl rfl ho
  | sendRecv sendPeer recvPeer sendWrs recvNeed sendDone recvDone =>
    exact h.credit hw hl rfl rfl ho
  | batch pending posted later =>
    obtain ⟨rfl, -⟩ := h.orderly.honest _ hw
    have hsur := h.noSurplus (.inr ⟨hw, hl⟩)
    have hbal : Balanced s.tr d none := by
      refine (h.waiting hw).shift (fun p => ?_) fun p => ?_
      · have hcount := h.orderly.counted.recv p
        have hdone := (done_body (h.orderly.honest _ hw) hl p).1
        have hpre : preLoad [] p = 0 := rfl
        rw [hw, hpre] at hcount
        simp only [ofWait, Option.elim] at *
        omega
      · have := h.sendsDone hw hl p
        simp only [ofWait, Option.elim] at *
        omega
    obtain ⟨h1, h2, h3, h4, h5, h6⟩ := begun_waves (Account.drainCompleted hbal) hsur
      (s.reg.loc user) s.reg.regions later
    have hr : Begun s.tr d (startWaves s.tr.drainCompleted (s.reg.loc user) s.reg.regions later) :=
      ⟨h1, h2, h3, h4, h5, h6⟩
    refine ⟨hr.kept h.sound ho, fun hz => ?_⟩
    exact hr.lazy hsur fun p => hz.unreaped (h.orderly.honest _ hw) hl p

/-- A loop that follows another is that of a batch, and has fewer waves ahead of it. -/
theorem finish_next (qs : List RecvReq) {w w' : Wait} {t : Verbs} {loc : Ptr → Nat} {regions : List Region}
    (h : (w.finish t loc regions).2 = some w') :
    w'.Clear qs ∧ w'.later.length < w.later.length := by
  cases w with
  | pollPeer => cases h
  | sendRecv => cases h
  | batch pending posted later =>
    cases later with
    | nil => cases h
    | cons wave later =>
      obtain rfl := Option.some.inj h
      exact ⟨trivial, Nat.lt_succ_self _⟩

theorem claimed_subset {peer bytes : Nat} {qs' : List RecvReq}
    (h : claimed peer bytes qs = some qs') : ∀ q ∈ qs', q ∈ qs := by
  unfold claimed at h
  split at h
  · obtain rfl := Option.some.inj h
    exact fun q hq => hq
  · cases qs with
    | nil =>
      obtain rfl := Option.some.inj h
      exact fun q hq => hq
    | cons a qs =>
      simp only at h
      split at h
      · obtain rfl := Option.some.inj h
        exact fun q hq => List.mem_cons_of_mem a hq
      · cases h

/-- A task that is not lossy starts a clear loop. -/
theorem clear_start {t : Verbs} {loc : Ptr → Nat} {regions : List Region} {task : Task}
    {op : VerbsOp} {qs' : List RecvReq} {w : Wait} (hv : task.verbs = some op)
    (ha : task.after qs = some qs') (hn : ¬ task.Lossy qs)
    (hw : (op.start t loc regions).2 = some w) : w.Clear qs' := by
  by_cases htwo : op.TwoPeers
  · cases task with
    | reg r => cases hv
    | batch ops =>
      obtain rfl := Option.some.inj hv
      exact htwo.elim
    | call c =>
      cases c with
      | sendRecv sp sb sn rp rb rn =>
        obtain rfl := Option.some.inj hv
        have hne : sp ≠ rp := htwo
        simp only [VerbsOp.start, if_neg hne] at hw
        obtain rfl := Option.some.inj hw
        by_cases hb : sn = 0
        · left
          rw [if_pos hb]
        · right
          intro q hq hp
          exact hn ⟨hne, hb, q, claimed_subset ha q hq, hp⟩
      | send | recv | postRecvs =>
        obtain rfl := Option.some.inj hv
        exact htwo.elim
      | _ => cases hv
  · have hst : op.start t loc regions = ((op.start t loc regions).1, some w) := by rw [← hw]
    have hnot := (OnWait.start hst).twoPeers.not.mpr htwo
    cases w with
    | pollPeer => trivial
    | batch => trivial
    | sendRecv => exact absurd trivial hnot

/-- **The start of a task.** -/
theorem Tracked.post {task : Task} {rest : List Task} {op : VerbsOp} {qs' : List RecvReq}
    (h : Tracked s qs d) (user : Nat → Nat) (hw : s.wait = none) (hc : s.code = task :: rest)
    (hv : task.verbs = some op) (ha : task.after qs = some qs') :
    Tracked { s with
      tr := (op.start s.tr (s.reg.loc user) s.reg.regions).1,
      wait := (op.start s.tr (s.reg.loc user) s.reg.regions).2, code := rest } qs' d ∧
    (Lazy s.tr none → Lazy (op.start s.tr (s.reg.loc user) s.reg.regions).1
      (op.start s.tr (s.reg.loc user) s.reg.regions).2) := by
  have hsur : ∀ ops, op = .batch ops → ∀ p, s.tr.recvSurplus p = 0 := by
    rintro ops rfl p
    cases task with
    | reg r => cases hv
    | batch ops' =>
      obtain ⟨rfl, -⟩ := quiet_after ha
      exact h.noSurplus (w := .pollPeer 0 0 0 0 0) (.inl hw) p
    | call c => cases c <;> cases hv
  have hr := begun (h.quiet hw) (s.reg.loc user) s.reg.regions op hsur
  refine ⟨hr.kept h.sound (h.orderly.post hw hc hv ha), fun hz => ?_⟩
  exact hr.lazy hz.surplus fun p => Nat.le_zero.mp (Nat.le_trans (Nat.le_add_right _ _) (hz.ahead p))

theorem sound_append {t : Verbs} (hs : ∀ p, ∀ c ∈ t.cq p, c.ok = true) (p : Nat) (recv : Bool)
    (x : Nat) : ∀ c ∈ Function.update t.cq p (t.cq p ++ [⟨recv, true⟩]) x, c.ok = true := by
  intro c hc
  by_cases hx : x = p
  · subst hx
    rw [Function.update_self] at hc
    rcases List.mem_append.mp hc with hc | hc
    · exact hs x c hc
    · rw [List.mem_singleton.mp hc]
  · rw [Function.update_of_ne hx] at hc
    exact hs x c hc

/-- The NIC completes a send. -/
theorem Tracked.sent {p : Nat} {mr : Mr} {q : List Mr} (h : Tracked s qs d)
    (hq : s.tr.sendq p = mr :: q) :
    Tracked { s with tr := { s.tr with
      sendq := Function.update s.tr.sendq p q,
      cq := Function.update s.tr.cq p (s.tr.cq p ++ [⟨false, true⟩]) } } qs d where
  orderly := ⟨Tally.sent h.orderly.counted hq, h.orderly.honest, h.orderly.after⟩
  balanced := Account.sent h.balanced hq
  sane := h.sane
  drawn := h.drawn
  sound := sound_append h.sound p false

/-- The NIC completes a receive. -/
theorem Tracked.received {p : Nat} {mr : Mr} {q : List Mr} (h : Tracked s qs d)
    (hq : s.tr.recvq p = mr :: q) :
    Tracked { s with tr := { s.tr with
      recvq := Function.update s.tr.recvq p q,
      cq := Function.update s.tr.cq p (s.tr.cq p ++ [⟨true, true⟩]) } } qs d where
  orderly := ⟨Tally.received h.orderly.counted hq, h.orderly.honest, h.orderly.after⟩
  balanced := Account.received h.balanced hq
  sane := h.sane
  drawn := h.drawn
  sound := sound_append h.sound p true

theorem Lossless.next {task : Task} {rest : List Task} {qs' : List RecvReq}
    (h : Lossless qs (task :: rest)) (ha : task.after qs = some qs') : Lossless qs' rest :=
  h.2 qs' ha

/-- **One step** never takes a completion back, and drops none in a secure state. -/
theorem Tracked.step (h : Tracked s qs d) (hstep : RStep cap user s s') :
    ∃ qs' d', Tracked s' qs' d' ∧ (∀ p, d p ≤ d' p) ∧ (Secure s qs → Secure s' qs' ∧ d' = d) := by
  cases hstep with
  | sent p hq => exact ⟨qs, d, h.sent hq, fun p => Nat.le_refl _, fun hs => ⟨⟨hs.1, hs.2⟩, rfl⟩⟩
  | received p hq =>
    exact ⟨qs, d, h.received hq, fun p => Nat.le_refl _, fun hs => ⟨⟨hs.1, hs.2⟩, rfl⟩⟩
  | @compute task rest hw hc hl =>
    obtain ⟨qs', ha, -⟩ := h.orderly.next hc
    obtain rfl := after_local hl ha
    refine ⟨_, d, ⟨h.orderly.compute hc hl, h.balanced, h.sane, h.drawn, h.sound⟩,
      fun p => Nat.le_refl _, fun hs => ⟨⟨hs.clear, ?_⟩, rfl⟩⟩
    have hl' := hs.lossless
    rw [hc] at hl'
    exact hl'.next ha
  | @book task rest op hw hc hb =>
    obtain ⟨qs', ha, -⟩ := h.orderly.next hc
    obtain ⟨rfl, rfl⟩ := after_book hb ha
    refine ⟨[], d, ⟨(h.orderly.book cap hc hb).2, h.balanced, h.sane, h.drawn, h.sound⟩,
      fun p => Nat.le_refl _, fun hs => ⟨⟨hs.clear, ?_⟩, rfl⟩⟩
    have hl' := hs.lossless
    rw [hc] at hl'
    exact hl'.next ha
  | @post task rest op hw hc hv =>
    obtain ⟨qs', ha, -⟩ := h.orderly.next hc
    refine ⟨qs', d, (h.post user hw hc hv ha).1, fun p => Nat.le_refl _, fun hs => ⟨⟨?_, ?_⟩, rfl⟩⟩
    all_goals
      have hl' := hs.lossless
      rw [hc] at hl'
    · exact fun w hw' => clear_start hv ha hl'.1 hw'
    · exact hl'.next ha
  | @poll w w' t' o hw hl hb =>
    obtain ⟨d', hk, hle, htidy⟩ := h.poll hw hb
    refine ⟨qs, d', hk, hle, fun hs => ⟨⟨fun w₁ hw₁ => ?_, hs.lossless⟩, ?_⟩⟩
    · rw [← Option.some.inj hw₁]
      exact clear_body (hs.clear w hw) hb
    · exact htidy (h.tidy hw (hs.clear w hw))
  | @finish w hw hl =>
    refine ⟨qs, d, (h.finish user hw hl).1, fun p => Nat.le_refl _,
      fun hs => ⟨⟨fun w' hw' => ?_, hs.lossless⟩, rfl⟩⟩
    exact (finish_next qs hw').1

/-- A run never takes a completion back, and drops none from a secure state on. -/
theorem Tracked.run {s₀ : VRank} (h : Tracked s₀ qs d) (hrun : RReach cap user s₀ s) :
    ∃ qs' d', Tracked s qs' d' ∧ (∀ p, d p ≤ d' p) ∧ (Secure s₀ qs → Secure s qs' ∧ d' = d) := by
  induction hrun with
  | refl => exact ⟨qs, d, h, fun p => Nat.le_refl _, fun hs => ⟨hs, rfl⟩⟩
  | step _ hstep ih =>
    obtain ⟨qs₁, d₁, h₁, hle₁, hs₁⟩ := ih
    obtain ⟨qs₂, d₂, h₂, hle₂, hs₂⟩ := h₁.step hstep
    refine ⟨qs₂, d₂, h₂, fun p => Nat.le_trans (hle₁ p) (hle₂ p), fun hs => ?_⟩
    obtain ⟨hsec, rfl⟩ := hs₁ hs
    exact hs₂ hsec

theorem kept_init (reg : Registry) (maxInline : Nat → Nat) {code : List Task}
    (h : tasksAfter [] code = some []) :
    Tracked ⟨reg, .init maxInline, code, none⟩ [] (fun _ => 0) where
  orderly := orderly_init reg maxInline h
  balanced := ⟨fun _ => rfl, fun _ => rfl⟩
  sane _ hw := by cases hw
  drawn _ hp := absurd hp (Nat.lt_irrefl 0)
  sound _ _ hc := absurd hc List.not_mem_nil

/-- A rank at the end of its tasks has dropped nothing. -/
theorem Tracked.closed (h : Tracked s qs d) (hc : s.code = []) (hw : s.wait = none) : ∀ p, d p = 0 := by
  intro p
  have ha := h.orderly.after
  rw [hc] at ha
  obtain rfl := Option.some.inj ha
  have hrecv := (h.quiet hw).recv p
  rw [h.prePosted p] at hrecv
  simp only [ofWait, Option.elim, show preFifo [] p = [] from rfl, List.sum_nil] at hrecv
  omega

end Runs

end Vccl
