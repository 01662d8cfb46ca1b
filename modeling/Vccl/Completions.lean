import Vccl.Discipline

/-!
# The count of receive completions, with those that are dropped (`verbs.cc`)

A poll of one completion queue may reap receives of a later step: `pollPeer` credits them to
`recvSurplus_`, and the loop of `sendRecv` for two peers does the same for the peer it receives from.
On the queue of the peer it *sends* to, that loop passes `nullptr` for the count of receives, and
what it reaps there is gone. `Account` counts the receive work requests of every peer with the
dropped ones as an entry of their own:

    posted + unreaped + surplus + counted + dropped = pre-posted + needed.

Every operation of the transport keeps it, with nothing assumed of the calls. `Account.body` says
which iterations of a loop drop something: those that poll the peer of the sends while a receive of
it is on the queue (`Wait.Tidy`). `begun` is the rule for the start of a call.
-/

namespace Vccl

/-! ## The account -/

/-- The count of work requests, peer by peer: `d` receive completions were dropped, and the loop at
work has counted `rd` of the `rn` receives and `sd` of the `sn` sends it needs. -/
structure Account (t : Verbs) (d rn rd sn sd : Nat → Nat) : Prop where
  recv : ∀ p, (t.recvq p).length + t.unreaped true p + t.recvSurplus p + rd p + d p =
    (t.prePostedRecv p).sum + rn p
  send : ∀ p, (t.sendq p).length + t.unreaped false p + sd p = sn p

section Account

variable {t t' : Verbs} {d d' rn rd sn sd rn' rd' sn' sd' : Nat → Nat} {regions : List Region}
  {p addr bytes : Nat}

theorem Account.shift (h : Account t d rn rd sn sd)
    (hr : ∀ p, rn p + rd' p + d' p = rn' p + rd p + d p)
    (hs : ∀ p, sn p + sd' p = sn' p + sd p) : Account t d' rn' rd' sn' sd' := by
  refine ⟨fun p => ?_, fun p => ?_⟩
  · have := h.recv p
    have := hr p
    omega
  · have := h.send p
    have := hs p
    omega

theorem Account.postSend (h : Account t d rn rd sn sd) (regions : List Region)
    (p addr bytes : Nat) :
    Account (t.postSend regions p addr bytes).1 d rn rd
      (fun x => sn x + only p (t.postSend regions p addr bytes).2 x) sd := by
  unfold Verbs.postSend
  split
  · refine ⟨h.recv, fun x => ?_⟩
    have := h.send x
    have := length_update_append t.sendq p 1 [.inline] rfl x
    simp only [Verbs.unreaped] at *
    omega
  · simp only
    rw [resolve_eq]
    refine ⟨h.recv, fun x => ?_⟩
    have := h.send x
    have := length_update_append t.sendq p (segments bytes) (List.replicate (segments bytes)
      (t.resolve regions addr bytes).2) List.length_replicate x
    simp only [Verbs.unreaped] at *
    omega

theorem Account.postRecv (h : Account t d rn rd sn sd) (regions : List Region)
    (p addr bytes : Nat) :
    Account (t.postRecv regions p addr bytes).1 d (fun x => rn x + only p (segments bytes) x) rd sn
      sd := by
  unfold Verbs.postRecv
  simp only
  rw [resolve_eq]
  refine ⟨fun x => ?_, h.send⟩
  have := h.recv x
  have := length_update_append t.recvq p (segments bytes) (List.replicate (segments bytes)
    (t.resolve regions addr bytes).2) List.length_replicate x
  simp only [Verbs.unreaped] at *
  omega

theorem sum_update_append (f : Nat → List Nat) (p k x : Nat) :
    (Function.update f p (f p ++ [k]) x).sum = (f x).sum + only p k x := by
  unfold only
  by_cases hx : x = p
  · subst hx
    rw [Function.update_self, List.sum_append, List.sum_singleton, if_pos rfl]
  · rw [Function.update_of_ne hx, if_neg hx, Nat.add_zero]

theorem Account.prePost (h : Account t d rn rd sn sd) (loc : Ptr → Nat) (regions : List Region)
    (q : RecvReq) : Account (t.prePost loc regions q) d rn rd sn sd := by
  have hp := h.postRecv regions q.peer (loc q.buf) q.bytes
  unfold Verbs.prePost
  split
  · exact h
  · refine ⟨fun x => ?_, hp.send⟩
    have hrecv := hp.recv x
    have hsum := sum_update_append (t.postRecv regions q.peer (loc q.buf) q.bytes).1.prePostedRecv
      q.peer (t.postRecv regions q.peer (loc q.buf) q.bytes).2 x
    have hwrs : (t.postRecv regions q.peer (loc q.buf) q.bytes).2 = segments q.bytes := rfl
    simp only [Verbs.unreaped, hwrs] at *
    omega

theorem Account.postRecvs (loc : Ptr → Nat) (regions : List Region) : ∀ (reqs : List RecvReq)
    {t : Verbs}, Account t d rn rd sn sd → Account (t.postRecvs loc regions reqs) d rn rd sn sd
  | [], _, h => h
  | q :: reqs, _, h => Account.postRecvs loc regions reqs (h.prePost loc regions q)

/-- A claimed receive is needed now, and no longer pre-posted. -/
theorem Account.claimRecv (h : Account t d rn rd sn sd) (regions : List Region)
    (p addr bytes : Nat) :
    Account (t.claimRecv regions p addr bytes).1 d
      (fun x => rn x + only p (t.claimRecv regions p addr bytes).2 x) rd sn sd := by
  unfold Verbs.claimRecv
  cases hf : t.prePostedRecv p with
  | nil => exact h.postRecv regions p addr bytes
  | cons wrs rest =>
    refine ⟨fun x => ?_, h.send⟩
    have := h.recv x
    simp only [Verbs.unreaped, only] at *
    by_cases hx : x = p
    · subst hx
      rw [hf, List.sum_cons] at this
      rw [Function.update_self, if_pos rfl]
      omega
    · rw [Function.update_of_ne hx, if_neg hx]
      omega

theorem Account.takeRecvSurplus {want : Nat} (h : Account t d (only p want) rd sn sd) :
    Account (t.takeRecvSurplus p want).1 d (only p (t.takeRecvSurplus p want).2) rd sn sd := by
  refine ⟨fun x => ?_, h.send⟩
  have := h.recv x
  simp only [Verbs.takeRecvSurplus, Verbs.unreaped, only] at *
  by_cases hx : x = p
  · subst hx
    rw [Function.update_self]
    simp only [if_true] at *
    omega
  · rw [Function.update_of_ne hx]
    simp only [if_neg hx] at *
    omega

theorem Account.giveRecvSurplus {need done : Nat}
    (h : Account t d (only p need) (only p done) sn sd) (hle : need ≤ done) :
    Account (t.giveRecvSurplus p (done - need)) d (fun _ => 0) (fun _ => 0) sn sd := by
  refine ⟨fun x => ?_, h.send⟩
  have := h.recv x
  simp only [Verbs.giveRecvSurplus, Verbs.unreaped, only] at *
  by_cases hx : x = p
  · subst hx
    rw [Function.update_self]
    simp only [if_true] at *
    omega
  · rw [Function.update_of_ne hx]
    simp only [if_neg hx] at *
    omega

theorem Account.drainCompleted (h : Account t d rn rd sn sd) :
    Account t.drainCompleted d rn rd sn sd := ⟨h.recv, h.send⟩

/-- What a poll takes from the queue and what it leaves there. -/
theorem unreaped_poll {s r : Nat} (hp : t.pollOnce p = .ok (t', s, r)) (x : Nat) :
    t.unreaped true x = t'.unreaped true x + only p r x ∧
      t.unreaped false x = t'.unreaped false x + only p s x := by
  obtain ⟨rfl, rfl, rfl⟩ := pollOnce_eq_ok hp
  have hsplit : ∀ recv, (t.cq p).countP (fun w => w.isRecv = recv) =
      ((t.cq p).drop 16).countP (fun w => w.isRecv = recv) +
        ((t.cq p).take 16).countP (fun w => w.isRecv = recv) := fun recv => by
    rw [Nat.add_comm, ← List.countP_append, List.take_append_drop]
  unfold Verbs.unreaped only
  dsimp only
  by_cases hx : x = p
  · subst hx
    rw [Function.update_self, if_pos rfl, if_pos rfl, hsplit true, hsplit false]
    simp only [Bool.decide_eq_true, Bool.decide_eq_false, and_self]
  · rw [Function.update_of_ne hx, if_neg hx, if_neg hx]
    exact ⟨rfl, rfl⟩

theorem Account.pollOnce (h : Account t d rn rd sn sd) {s r : Nat}
    (hp : t.pollOnce p = .ok (t', s, r)) :
    Account t' d rn (fun x => rd x + only p r x) sn fun x => sd x + only p s x := by
  have hun := unreaped_poll hp
  obtain ⟨rfl, -, -⟩ := pollOnce_eq_ok hp
  refine ⟨fun x => ?_, fun x => ?_⟩
  · have := h.recv x
    have := (hun x).1
    dsimp only
    omega
  · have := h.send x
    have := (hun x).2
    dsimp only
    omega

/-- The NIC completes a send. -/
theorem Account.sent (h : Account t d rn rd sn sd) {mr : Mr} {q : List Mr}
    (hq : t.sendq p = mr :: q) :
    Account { t with
      sendq := Function.update t.sendq p q,
      cq := Function.update t.cq p (t.cq p ++ [⟨false, true⟩]) } d rn rd sn sd := by
  refine ⟨fun x => ?_, fun x => ?_⟩
  · rw [unreaped_update t p ⟨false, true⟩ true x, if_neg Bool.false_ne_true, only_zero]
    exact h.recv x
  · have := h.send x
    rw [unreaped_update t p ⟨false, true⟩ false x, if_pos rfl]
    unfold only
    by_cases hx : x = p
    · subst hx
      rw [hq, List.length_cons] at this
      simp only [Function.update_self, if_true]
      omega
    · simp only [Function.update_of_ne hx, if_neg hx]
      omega

/-- The NIC completes a receive. -/
theorem Account.received (h : Account t d rn rd sn sd) {mr : Mr} {q : List Mr}
    (hq : t.recvq p = mr :: q) :
    Account { t with
      recvq := Function.update t.recvq p q,
      cq := Function.update t.cq p (t.cq p ++ [⟨true, true⟩]) } d rn rd sn sd := by
  refine ⟨fun x => ?_, fun x => ?_⟩
  · have := h.recv x
    rw [unreaped_update t p ⟨true, true⟩ true x, if_pos rfl]
    unfold only
    by_cases hx : x = p
    · subst hx
      rw [hq, List.length_cons] at this
      simp only [Function.update_self, if_true]
      omega
    · simp only [Function.update_of_ne hx, if_neg hx]
      omega
  · rw [unreaped_update t p ⟨true, true⟩ false x, if_neg Bool.false_ne_true.symm, only_zero]
    exact h.send x

end Account

/-! ## The loops -/

/-- The account of a rank. -/
def Balanced (t : Verbs) (d : Nat → Nat) (w : Option Wait) : Prop :=
  Account t d (ofWait Wait.recvNeed w) (ofWait Wait.recvDone w) (ofWait Wait.sendNeed w)
    (ofWait Wait.sendDone w)

/-- The account of a wave. -/
def WaveAccount (t : Verbs) (d : Nat → Nat) (posted : List Posted) : Prop :=
  Account t d (postedSum Posted.recvs posted) (postedSum Posted.recvDone posted)
    (postedSum Posted.sends posted) (postedSum Posted.sendDone posted)

/-- The table of a wave has one entry for each peer, in order, and the loop for two peers has two. -/
def Wait.Sane : Wait → Prop
  | .pollPeer .. => True
  | .sendRecv sendPeer recvPeer .. => sendPeer ≠ recvPeer
  | .batch _ posted _ => (posted.map Posted.peer).Pairwise (· < ·)

/-- The next iteration drops nothing: when it polls the queue of the peer it sends to, there is no
receive on it. -/
def Wait.Tidy (t : Verbs) : Wait → Prop
  | .sendRecv sendPeer _ sendWrs _ sendDone _ => sendDone < sendWrs → t.unreaped true sendPeer = 0
  | _ => True

section Loops

variable {t t' : Verbs} {d d' rn sn : Nat → Nat} {o : Obs} {regions : List Region}

/-- Posting a wave. -/
theorem WaveAccount.wave (loc : Ptr → Nat) (regions : List Region) : ∀ (ops : List P2pOp)
    {t : Verbs} {posted : List Posted}, WaveAccount t d posted →
    WaveAccount (postWave loc regions (t, posted) ops).1 d
      (postWave loc regions (t, posted) ops).2
  | [], _, _, h => h
  | op :: ops, t, posted, h => by
    unfold postWave
    by_cases hb : op.bytes = 0
    · rw [if_pos hb]
      exact WaveAccount.wave loc regions ops h
    · rw [if_neg hb]
      refine WaveAccount.wave loc regions ops ?_
      cases hd : op.isSend with
      | true =>
        simp only [if_true]
        refine (h.postSend regions op.peer (loc op.buf) op.bytes).shift (fun x => ?_) fun x => ?_
        all_goals
          obtain ⟨h1, h2, h3, h4⟩ := postedSum_addSend op.peer
            (t.postSend regions op.peer (loc op.buf) op.bytes).2 posted x
          omega
      | false =>
        simp only [Bool.false_eq_true, if_false]
        refine (h.postRecv regions op.peer (loc op.buf) op.bytes).shift (fun x => ?_) fun x => ?_
        all_goals
          obtain ⟨h1, h2, h3, h4⟩ := postedSum_addRecv op.peer (segments op.bytes) posted x
          simp only [Verbs.postRecv]
          omega

theorem peers_addPosted (peer : Nat) (isSend : Bool) (k : Nat) : ∀ {es : List Posted} {x : Nat},
    x ∈ (addPosted peer isSend k es).map Posted.peer → x = peer ∨ x ∈ es.map Posted.peer
  | [], x, h => by
    unfold addPosted at h
    cases isSend <;> exact .inl (List.mem_singleton.mp h)
  | e :: es, x, h => by
    unfold addPosted at h
    split at h
    · cases isSend <;> exact .inr h
    · split at h
      · rw [List.map_cons, List.mem_cons] at h
        refine h.imp (fun h => ?_) id
        cases isSend <;> exact h
      · rw [List.map_cons, List.mem_cons] at h
        rcases h with rfl | h
        · exact .inr List.mem_cons_self
        · exact (peers_addPosted peer isSend k h).imp id (List.mem_cons_of_mem _)

/-- The table stays in the order of the peers. -/
theorem sorted_addPosted (peer : Nat) (isSend : Bool) (k : Nat) : ∀ {es : List Posted},
    (es.map Posted.peer).Pairwise (· < ·) →
    ((addPosted peer isSend k es).map Posted.peer).Pairwise (· < ·)
  | [], _ => by
    unfold addPosted
    cases isSend <;> exact List.pairwise_singleton _ _
  | e :: es, h => by
    have hcons := List.pairwise_cons.mp h
    unfold addPosted
    split
    · cases isSend <;> exact h
    · rename_i hne
      split
      · rename_i hlt
        have hnew : ∀ x ∈ (e :: es).map Posted.peer, peer < x := by
          intro x hx
          rcases List.mem_cons.mp hx with rfl | hx
          · exact hlt
          · exact hlt.trans (hcons.1 x hx)
        cases isSend <;> exact List.pairwise_cons.mpr ⟨hnew, h⟩
      · rename_i hge
        refine List.pairwise_cons.mpr ⟨fun x hx => ?_, sorted_addPosted peer isSend k hcons.2⟩
        rcases peers_addPosted peer isSend k hx with rfl | hx
        · omega
        · exact hcons.1 x hx

theorem sorted_postWave (loc : Ptr → Nat) (regions : List Region) : ∀ (ops : List P2pOp)
    {t : Verbs} {posted : List Posted}, (posted.map Posted.peer).Pairwise (· < ·) →
    ((postWave loc regions (t, posted) ops).2.map Posted.peer).Pairwise (· < ·)
  | [], _, _, h => h
  | op :: ops, t, posted, h => by
    unfold postWave
    split
    · exact sorted_postWave loc regions ops h
    · exact sorted_postWave loc regions ops (sorted_addPosted _ _ _ h)

theorem postedSum_absent {f : Posted → Nat} {p : Nat} : ∀ {es : List Posted},
    (∀ e ∈ es, e.peer ≠ p) → postedSum f es p = 0
  | [], _ => rfl
  | e :: es, h => by
    rw [postedSum_cons, postedSum_absent fun x hx => h x (List.mem_cons_of_mem e hx), only,
      if_neg fun hp => h e List.mem_cons_self hp.symm]

/-- In a table with one entry for each peer, the count of a peer is that of its entry. -/
theorem postedSum_entry {f : Posted → Nat} {e : Posted} : ∀ {es : List Posted},
    (es.map Posted.peer).Pairwise (· < ·) → e ∈ es → postedSum f es e.peer = f e
  | a :: es, h, hm => by
    have hcons := List.pairwise_cons.mp h
    rw [postedSum_cons]
    rcases List.mem_cons.mp hm with rfl | hm
    · rw [only, if_pos rfl, postedSum_absent fun x hx => ?_, Nat.add_zero]
      exact (hcons.1 x.peer (List.mem_map_of_mem hx)).ne'
    · have hlt := hcons.1 e.peer (List.mem_map_of_mem hm)
      rw [only, if_neg hlt.ne', Nat.zero_add]
      exact postedSum_entry hcons.2 hm

/-- An iteration of `batch` changes no entry but in what is done. -/
theorem pollPosted_frame : ∀ {es es' : List Posted} {t t' : Verbs},
    pollPosted t es = .ok (t', es') → es'.map Posted.peer = es.map Posted.peer ∧
      postedSum Posted.recvs es' = postedSum Posted.recvs es ∧
      postedSum Posted.sends es' = postedSum Posted.sends es
  | [], _, _, _, hp => by
    obtain ⟨-, rfl⟩ := Prod.mk.inj (Except.ok.inj hp)
    exact ⟨rfl, rfl, rfl⟩
  | e :: es, _, _, _, hp => by
    obtain ⟨_, s, r, es₁, -, hes, rfl⟩ | ⟨-, es₁, hes, rfl⟩ := pollPosted_cons hp
    all_goals
      obtain ⟨h1, h2, h3⟩ := pollPosted_frame hes
      refine ⟨?_, ?_, ?_⟩
      · rw [List.map_cons, List.map_cons, h1]
      · funext x
        rw [postedSum_cons, postedSum_cons, h2]
      · funext x
        rw [postedSum_cons, postedSum_cons, h3]

/-- An iteration of `batch` counts what it reaps; `rd` and `sd` are the counts of the peers before
those at hand. -/
theorem Account.pollPosted : ∀ {es es' : List Posted} {t t' : Verbs} {rd sd : Nat → Nat},
    Account t d rn (fun x => rd x + postedSum Posted.recvDone es x) sn
      (fun x => sd x + postedSum Posted.sendDone es x) →
    Vccl.pollPosted t es = .ok (t', es') →
    Account t' d rn (fun x => rd x + postedSum Posted.recvDone es' x) sn
      fun x => sd x + postedSum Posted.sendDone es' x
  | [], es', t, t', rd, sd, h, hp => by
    obtain ⟨rfl, rfl⟩ := Prod.mk.inj (Except.ok.inj hp)
    exact h
  | e :: es, es', t, t', rd, sd, h, hp => by
    obtain ⟨t₁, s, r, es₁, hpoll, hes, rfl⟩ | ⟨-, es₁, hes, rfl⟩ := pollPosted_cons hp
    · have h₁ : Account t₁ d rn
          (fun x => (rd x + only e.peer (e.recvDone + r) x) + postedSum Posted.recvDone es x) sn
          (fun x => (sd x + only e.peer (e.sendDone + s) x) + postedSum Posted.sendDone es x) := by
        refine (h.pollOnce hpoll).shift (fun x => ?_) fun x => ?_
        all_goals
          rw [postedSum_cons, only_add]
          omega
      refine (Account.pollPosted h₁ hes).shift (fun x => ?_) fun x => ?_
      all_goals
        rw [postedSum_cons]
        dsimp only
        omega
    · have h₁ : Account t d rn
          (fun x => (rd x + only e.peer e.recvDone x) + postedSum Posted.recvDone es x) sn
          (fun x => (sd x + only e.peer e.sendDone x) + postedSum Posted.sendDone es x) := by
        refine h.shift (fun x => ?_) fun x => ?_
        all_goals
          rw [postedSum_cons]
          omega
      refine (Account.pollPosted h₁ hes).shift (fun x => ?_) fun x => ?_
      all_goals
        rw [postedSum_cons]
        omega

/-- **An iteration** drops receives of the peer it sends to, and only if it is not tidy. -/
theorem Account.body {w w' : Wait} (h : Balanced t d (some w)) (hs : w.Sane)
    (hb : w.body o t = .ok (t', w')) :
    ∃ d', Balanced t' d' (some w') ∧ (∀ p, d p ≤ d' p) ∧ (w.Tidy t → d' = d) := by
  cases w with
  | pollPeer peer sendWrs recvNeed sendDone recvDone =>
    obtain ⟨s, r, hp, -, rfl⟩ := body_pollPeer hb
    refine ⟨d, (Account.pollOnce h hp).shift (fun x => ?_) fun x => ?_, fun p => Nat.le_refl _,
      fun _ => rfl⟩
    all_goals
      simp only [ofWait, Option.elim, Wait.recvNeed, Wait.recvDone, Wait.sendNeed, Wait.sendDone,
        only]
      split <;> omega
  | sendRecv sendPeer recvPeer sendWrs recvNeed sendDone recvDone =>
    obtain ⟨t₁, s, r, hsend, hrecv, rfl⟩ := body_sendRecv hb
    have h₀ : Account t d (only recvPeer recvNeed) (only recvPeer recvDone) (only sendPeer sendWrs)
      (only sendPeer sendDone) := h
    -- the first poll, which forgets the receives it reaps
    have h₁ : ∃ d', Account t₁ d' (only recvPeer recvNeed) (only recvPeer recvDone)
        (only sendPeer sendWrs) (only sendPeer (sendDone + s)) ∧ (∀ p, d p ≤ d' p) ∧
        ((sendDone < sendWrs → t.unreaped true sendPeer = 0) → d' = d) := by
      obtain ⟨hlt, r', hp⟩ | ⟨hge, rfl, rfl⟩ := pollSends_eq_ok hsend
      · refine ⟨fun x => d x + only sendPeer r' x, (h₀.pollOnce hp).shift (fun x => ?_)
          fun x => ?_, fun p => Nat.le_add_right _ _, fun hz => ?_⟩
        · omega
        · simp only [only_add]
        · have hr' : r' = 0 := by
            have hun := (unreaped_poll hp sendPeer).1
            rw [hz hlt, only, if_pos rfl] at hun
            omega
          funext x
          rw [hr', only_zero, Nat.add_zero]
      · exact ⟨d, h₀, fun p => Nat.le_refl _, fun _ => rfl⟩
    obtain ⟨d', h₁, hd, htidy⟩ := h₁
    refine ⟨d', ?_, hd, htidy⟩
    show Account t' d' (only recvPeer recvNeed) (only recvPeer (recvDone + r))
      (only sendPeer sendWrs) (only sendPeer (sendDone + s))
    obtain ⟨-, s', hp⟩ | ⟨-, rfl, rfl⟩ := pollRecvs_eq_ok hrecv
    · -- the second one forgets sends, but there are none on that queue
      have hs' : s' = 0 := by
        have hun := (unreaped_poll hp recvPeer).2
        have hnone := h₁.send recvPeer
        rw [only, if_pos rfl] at hun
        rw [only, only, if_neg hs.symm, if_neg hs.symm] at hnone
        omega
      refine (h₁.pollOnce hp).shift (fun x => ?_) fun x => ?_
      · simp only [only_add]
      · rw [hs', only_zero, Nat.add_zero]
    · exact h₁
  | batch pending posted later =>
    obtain ⟨posted', hp, -, rfl⟩ := body_batch hb
    have h₀ : Account t d (postedSum Posted.recvs posted)
        (fun x => 0 + postedSum Posted.recvDone posted x) (postedSum Posted.sends posted)
        (fun x => 0 + postedSum Posted.sendDone posted x) := by
      have hw : WaveAccount t d posted := h
      exact hw.shift (fun x => by omega) fun x => by omega
    obtain ⟨-, hrecv, hsend⟩ := pollPosted_frame hp
    refine ⟨d, ?_, fun p => Nat.le_refl _, fun _ => rfl⟩
    show Account t' d (postedSum Posted.recvs posted') (postedSum Posted.recvDone posted')
      (postedSum Posted.sends posted') (postedSum Posted.sendDone posted')
    rw [hrecv, hsend]
    simpa only [Nat.zero_add] using h₀.pollPosted hp

end Loops

/-! ## Starts and ends -/

/-- What the start of a call or of a wave leaves: a balanced account, a loop that has counted
nothing and needs receives only where the surplus is used up, and the completion queues as they
were. -/
structure Begun (t : Verbs) (d : Nat → Nat) (r : Verbs × Option Wait) : Prop where
  balanced : Balanced r.1 d r.2
  sane : ∀ w, r.2 = some w → w.Sane
  drawn : ∀ p, 0 < ofWait Wait.recvNeed r.2 p → r.1.recvSurplus p = 0
  cq : r.1.cq = t.cq
  surplus : ∀ p, r.1.recvSurplus p ≤ t.recvSurplus p
  fresh : ∀ p, ofWait Wait.recvDone r.2 p = 0

section Start

variable {t : Verbs} {d : Nat → Nat} {loc : Ptr → Nat} {regions : List Region}

theorem postSend_frame (t : Verbs) (regions : List Region) (p addr bytes : Nat) :
    (t.postSend regions p addr bytes).1.cq = t.cq ∧
      (t.postSend regions p addr bytes).1.recvSurplus = t.recvSurplus := by
  unfold Verbs.postSend
  split
  · exact ⟨rfl, rfl⟩
  · simp only
    rw [resolve_eq]
    exact ⟨rfl, rfl⟩

theorem postRecv_frame (t : Verbs) (regions : List Region) (p addr bytes : Nat) :
    (t.postRecv regions p addr bytes).1.cq = t.cq ∧
      (t.postRecv regions p addr bytes).1.recvSurplus = t.recvSurplus := by
  unfold Verbs.postRecv
  simp only
  rw [resolve_eq]
  exact ⟨rfl, rfl⟩

theorem claimRecv_frame (t : Verbs) (regions : List Region) (p addr bytes : Nat) :
    (t.claimRecv regions p addr bytes).1.cq = t.cq ∧
      (t.claimRecv regions p addr bytes).1.recvSurplus = t.recvSurplus := by
  unfold Verbs.claimRecv
  split
  · exact ⟨rfl, rfl⟩
  · exact postRecv_frame t regions p addr bytes

theorem postWave_frame (loc : Ptr → Nat) (regions : List Region) : ∀ (ops : List P2pOp) (t : Verbs)
    (posted : List Posted), (postWave loc regions (t, posted) ops).1.cq = t.cq ∧
      (postWave loc regions (t, posted) ops).1.recvSurplus = t.recvSurplus ∧
      postedSum Posted.recvDone (postWave loc regions (t, posted) ops).2 =
        postedSum Posted.recvDone posted
  | [], _, _ => ⟨rfl, rfl, rfl⟩
  | op :: ops, t, posted => by
    unfold postWave
    by_cases hb : op.bytes = 0
    · rw [if_pos hb]
      exact postWave_frame loc regions ops t posted
    · rw [if_neg hb]
      cases hd : op.isSend with
      | true =>
        simp only [if_true]
        obtain ⟨h1, h2, h3⟩ := postWave_frame loc regions ops
          (t.postSend regions op.peer (loc op.buf) op.bytes).1 (addPosted op.peer true
            (t.postSend regions op.peer (loc op.buf) op.bytes).2 posted)
        obtain ⟨h4, h5⟩ := postSend_frame t regions op.peer (loc op.buf) op.bytes
        refine ⟨h1.trans h4, h2.trans h5, h3.trans ?_⟩
        funext x
        exact (postedSum_addSend _ _ posted x).2.2.2
      | false =>
        simp only [Bool.false_eq_true, if_false]
        obtain ⟨h1, h2, h3⟩ := postWave_frame loc regions ops
          (t.postRecv regions op.peer (loc op.buf) op.bytes).1 (addPosted op.peer false
            (t.postRecv regions op.peer (loc op.buf) op.bytes).2 posted)
        obtain ⟨h4, h5⟩ := postRecv_frame t regions op.peer (loc op.buf) op.bytes
        refine ⟨h1.trans h4, h2.trans h5, h3.trans ?_⟩
        funext x
        exact (postedSum_addRecv _ _ posted x).2.2.2

theorem postRecvs_frame (loc : Ptr → Nat) (regions : List Region) : ∀ (reqs : List RecvReq)
    (t : Verbs), (t.postRecvs loc regions reqs).cq = t.cq ∧
      (t.postRecvs loc regions reqs).recvSurplus = t.recvSurplus
  | [], _ => ⟨rfl, rfl⟩
  | q :: reqs, t => by
    obtain ⟨h1, h2⟩ := postRecvs_frame loc regions reqs (t.prePost loc regions q)
    have hq : (t.prePost loc regions q).cq = t.cq ∧
        (t.prePost loc regions q).recvSurplus = t.recvSurplus := by
      unfold Verbs.prePost
      split
      · exact ⟨rfl, rfl⟩
      · exact postRecv_frame t regions q.peer (loc q.buf) q.bytes
    exact ⟨h1.trans hq.1, h2.trans hq.2⟩

theorem takeRecvSurplus_drawn (t : Verbs) (p want : Nat)
    (h : 0 < (t.takeRecvSurplus p want).2) : (t.takeRecvSurplus p want).1.recvSurplus p = 0 := by
  simp only [Verbs.takeRecvSurplus, Function.update_self] at h ⊢
  omega

theorem takeRecvSurplus_surplus (t : Verbs) (p want x : Nat) :
    (t.takeRecvSurplus p want).1.recvSurplus x ≤ t.recvSurplus x := by
  simp only [Verbs.takeRecvSurplus]
  by_cases hx : x = p
  · subst hx
    rw [Function.update_self]
    exact Nat.sub_le _ _
  · rw [Function.update_of_ne hx]

theorem begun_none (h : Balanced t d none) : Begun t d (t, none) where
  balanced := h
  sane _ hw := by cases hw
  drawn _ hp := absurd hp (Nat.lt_irrefl 0)
  cq := rfl
  surplus _ := Nat.le_refl _
  fresh _ := rfl

/-- The loops on one and on two peers, after `takeRecvSurplus`. -/
theorem begun_loop {t₁ : Verbs} {w : Wait} {rp sp wrs want : Nat}
    (hw : sp ≠ rp ∧ w = .sendRecv sp rp wrs (t₁.takeRecvSurplus rp want).2 0 0 ∨
      sp = rp ∧ w = .pollPeer sp wrs (t₁.takeRecvSurplus rp want).2 0 0)
    (h : Account t₁ d (only rp want) (fun _ => 0) (only sp wrs) fun _ => 0)
    (hcq : t₁.cq = t.cq) (hsur : t₁.recvSurplus = t.recvSurplus) :
    Begun t d ((t₁.takeRecvSurplus rp want).1, some w) := by
  have hloop : w.recvNeed = only rp (t₁.takeRecvSurplus rp want).2 ∧ w.recvDone = only rp 0 ∧
      w.sendNeed = only sp wrs ∧ w.sendDone = only sp 0 ∧ w.Sane := by
    obtain ⟨hne, rfl⟩ | ⟨rfl, rfl⟩ := hw
    · exact ⟨rfl, rfl, rfl, rfl, hne⟩
    · exact ⟨rfl, rfl, rfl, rfl, trivial⟩
  obtain ⟨h1, h2, h3, h4, h5⟩ := hloop
  refine ⟨h.takeRecvSurplus.shift (fun x => ?_) fun x => ?_, fun w' hw' => ?_, fun p hp => ?_, hcq,
    fun p => ?_, fun p => ?_⟩
  · simp only [ofWait, Option.elim, h1, h2, only_zero]
  · simp only [ofWait, Option.elim, h3, h4, only_zero]
  · rw [← Option.some.inj hw']
    exact h5
  · simp only [ofWait, Option.elim, h1, only] at hp
    by_cases hx : p = rp
    · rw [if_pos hx] at hp
      rw [hx]
      exact takeRecvSurplus_drawn t₁ rp want hp
    · rw [if_neg hx] at hp
      exact absurd hp (Nat.lt_irrefl 0)
  · rw [← hsur]
    exact takeRecvSurplus_surplus t₁ rp want p
  · simp only [ofWait, Option.elim, h2, only_zero]

theorem begun_send (h : Balanced t d none) (peer : Nat) (buf : Ptr) (bytes : Nat) :
    Begun t d ((VerbsOp.send peer buf bytes).start t loc regions) := by
  show Begun t d (if bytes = 0 then _ else _)
  by_cases hb : bytes = 0
  · rw [if_pos hb]
    exact begun_none h
  · rw [if_neg hb]
    obtain ⟨h1, h2⟩ := postSend_frame t regions peer (loc buf) bytes
    refine ⟨(Account.postSend h regions peer (loc buf) bytes).shift (fun x => ?_) fun x => ?_,
      fun w hw => ?_, fun p hp => ?_, h1, fun p => Nat.le_of_eq (congrFun h2 p), fun p => ?_⟩
    · simp only [ofWait, Option.elim, Wait.recvNeed, Wait.recvDone]
      split <;> rfl
    · simp only [ofWait, Option.elim, Wait.sendNeed, Wait.sendDone, only]
      split <;> omega
    · rw [← Option.some.inj hw]
      trivial
    · simp only [ofWait, Option.elim, Wait.recvNeed] at hp
      split at hp <;> exact absurd hp (Nat.lt_irrefl 0)
    · simp only [ofWait, Option.elim, Wait.recvDone]
      split <;> rfl

/-- The receiving half of a call. -/
theorem Balanced.recvHalf (h : Balanced t d none) (regions : List Region) (peer addr bytes : Nat) :
    let r := if bytes = 0 then (t, 0) else t.claimRecv regions peer addr bytes
    Account r.1 d (only peer r.2) (fun _ => 0) (fun _ => 0) (fun _ => 0) ∧ r.1.cq = t.cq ∧
      r.1.recvSurplus = t.recvSurplus := by
  intro r
  by_cases hb : bytes = 0
  · have hr : r = (t, 0) := if_pos hb
    rw [hr]
    refine ⟨Account.shift h (fun x => ?_) fun x => rfl, rfl, rfl⟩
    rw [only_zero]
    rfl
  · have hr : r = t.claimRecv regions peer addr bytes := if_neg hb
    rw [hr]
    refine ⟨(Account.claimRecv h regions peer addr bytes).shift (fun x => ?_) fun x => rfl,
      claimRecv_frame t regions peer addr bytes⟩
    simp only [ofWait, Option.elim]
    omega

/-- The sending half of a call. -/
theorem Account.sendHalf {rn rd : Nat → Nat} (h : Account t d rn rd (fun _ => 0) fun _ => 0)
    (regions : List Region) (peer addr bytes : Nat) :
    let s := if bytes = 0 then (t, 0) else t.postSend regions peer addr bytes
    Account s.1 d rn rd (only peer s.2) (fun _ => 0) ∧ s.1.cq = t.cq ∧
      s.1.recvSurplus = t.recvSurplus := by
  intro s
  by_cases hb : bytes = 0
  · have hs : s = (t, 0) := if_pos hb
    rw [hs]
    refine ⟨h.shift (fun x => rfl) fun x => ?_, rfl, rfl⟩
    rw [only_zero]
  · have hs : s = t.postSend regions peer addr bytes := if_neg hb
    rw [hs]
    refine ⟨(h.postSend regions peer addr bytes).shift (fun x => rfl) fun x => ?_,
      postSend_frame t regions peer addr bytes⟩
    omega

theorem begun_recv (h : Balanced t d none) (peer : Nat) (buf : Ptr) (bytes : Nat) :
    Begun t d ((VerbsOp.recv peer buf bytes).start t loc regions) := by
  show Begun t d (if bytes = 0 then _ else _)
  by_cases hb : bytes = 0
  · rw [if_pos hb]
    exact begun_none h
  · rw [if_neg hb]
    obtain ⟨h1, h2, h3⟩ := h.recvHalf regions peer (loc buf) bytes
    rw [if_neg hb] at h1 h2 h3
    refine begun_loop (.inr ⟨rfl, rfl⟩) (h1.shift (fun x => rfl) fun x => ?_) h2 h3
    rw [only_zero]

theorem begun_sendRecv (h : Balanced t d none) (sendPeer : Nat) (sbuf : Ptr)
    (sbytes recvPeer : Nat) (rbuf : Ptr) (rbytes : Nat) :
    Begun t d ((VerbsOp.sendRecv sendPeer sbuf sbytes recvPeer rbuf rbytes).start t loc regions) := by
  obtain ⟨h1, h2, h3⟩ := h.recvHalf regions recvPeer (loc rbuf) rbytes
  simp only [VerbsOp.start]
  generalize (if rbytes = 0 then (t, 0) else t.claimRecv regions recvPeer (loc rbuf) rbytes) = r
    at h1 h2 h3 ⊢
  obtain ⟨h4, h5, h6⟩ := h1.sendHalf regions sendPeer (loc sbuf) sbytes
  generalize (if sbytes = 0 then (r.1, 0) else r.1.postSend regions sendPeer (loc sbuf) sbytes) = s
    at h4 h5 h6 ⊢
  by_cases hp : sendPeer = recvPeer
  · rw [if_pos hp]
    exact begun_loop (.inr ⟨hp, rfl⟩) h4 (h5.trans h2) (h6.trans h3)
  · rw [if_neg hp]
    exact begun_loop (.inl ⟨hp, rfl⟩) h4 (h5.trans h2) (h6.trans h3)

theorem begun_waves (h : Balanced t d none) (hsur : ∀ p, t.recvSurplus p = 0) (loc : Ptr → Nat)
    (regions : List Region) :
    ∀ waves : List (List P2pOp), Begun t d (startWaves t loc regions waves)
  | [] => begun_none h
  | wave :: later => by
    have h₀ : WaveAccount t d [] := h
    obtain ⟨h1, h2, h3⟩ := postWave_frame loc regions wave t []
    refine ⟨h₀.wave loc regions wave, fun w hw => ?_, fun p _ => ?_, h1,
      fun p => Nat.le_of_eq (congrFun h2 p), fun p => ?_⟩
    · rw [← Option.some.inj hw]
      exact sorted_postWave loc regions wave List.Pairwise.nil
    · exact (congrFun h2 p).trans (hsur p)
    · exact congrFun h3 p

theorem begun_postRecvs (h : Balanced t d none) (reqs : List RecvReq) :
    Begun t d ((VerbsOp.postRecvs reqs).start t loc regions) := by
  obtain ⟨h1, h2⟩ := postRecvs_frame loc regions reqs t
  constructor
  · exact Account.postRecvs loc regions reqs h
  · intro w hw
    cases hw
  · exact fun p hp => absurd hp (Nat.lt_irrefl 0)
  · exact h1
  · exact fun p => Nat.le_of_eq (congrFun h2 p)
  · exact fun p => rfl

/-- **The start of a call.** A batch starts with no surplus. -/
theorem begun (h : Balanced t d none) (loc : Ptr → Nat) (regions : List Region) (op : VerbsOp)
    (hsur : ∀ ops, op = .batch ops → ∀ p, t.recvSurplus p = 0) :
    Begun t d (op.start t loc regions) := by
  cases op with
  | send peer buf bytes => exact begun_send h peer buf bytes
  | recv peer buf bytes => exact begun_recv h peer buf bytes
  | sendRecv sp sb sn rp rb rn => exact begun_sendRecv h sp sb sn rp rb rn
  | batch ops => exact begun_waves h (hsur ops rfl) loc regions (waves ops)
  | postRecvs reqs => exact begun_postRecvs h reqs

end Start

end Vccl
