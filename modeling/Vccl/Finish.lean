import Mathlib.Algebra.Order.BigOperators.Group.Finset
import Vccl.Dropped

/-!
# When a rank can finish

What a loop misses is on its completion queue or on a queue of the NIC, as long as nothing was
dropped (`Tracked.outstanding`). So the NIC or an iteration brings the loop nearer to its end
(`Tracked.advance`), every call comes to its end (`Tracked.drained`), and so does a list of lossless tasks.
A lossy call can be reached with nothing completed ahead of its need (`Lazy`); there the NIC completes
a receive from the peer the call sends to, and the next poll drops it (`Tracked.drops`). Together: a
rank can always finish if and only if its tasks are lossless (`finishes_iff`).
-/

namespace Vccl

/-! ## A loop comes to its end -/

/-- What is left at a peer: a work request on a queue of the NIC counts twice, its completion
once. -/
def Verbs.load (t : Verbs) (p : Nat) : Nat :=
  2 * ((t.sendq p).length + (t.recvq p).length) + (t.cq p).length

/-- The peers a loop polls. -/
def Wait.peers : Wait → Finset Nat
  | .pollPeer peer .. => {peer}
  | .sendRecv sendPeer recvPeer .. => {sendPeer, recvPeer}
  | .batch _ posted _ => (posted.map Posted.peer).toFinset

/-- The loop misses a completion of `p`. -/
def Wait.misses (w : Wait) (p : Nat) : Prop := w.recvDone p < w.recvNeed p ∨ w.sendDone p < w.sendNeed p

section Progress

variable (cap : Nat) (user : Nat → Nat) {s s' : VRank} {qs : List RecvReq} {t t' : Verbs}
  {w w' : Wait} {o : Obs}

theorem only_pos {peer a b p : Nat} (h : only peer a p < only peer b p) : p = peer ∧ a < b := by
  unfold only at h
  by_cases hp : p = peer
  · rw [if_pos hp, if_pos hp] at h
    exact ⟨hp, h⟩
  · rw [if_neg hp, if_neg hp] at h
    exact absurd h (Nat.lt_irrefl 0)

theorem postedSum_lt {f g : Posted → Nat} {p : Nat} : ∀ {es : List Posted},
    postedSum f es p < postedSum g es p → ∃ e ∈ es, e.peer = p ∧ f e < g e
  | [], h => absurd h (Nat.lt_irrefl 0)
  | e :: es, h => by
    rw [postedSum_cons, postedSum_cons] at h
    by_cases hes : postedSum f es p < postedSum g es p
    · obtain ⟨e', hm, he'⟩ := postedSum_lt hes
      exact ⟨e', List.mem_cons_of_mem e hm, he'⟩
    · obtain ⟨hp, hlt⟩ := only_pos (show only e.peer (f e) p < only e.peer (g e) p by omega)
      exact ⟨e, List.mem_cons_self, hp.symm, hlt⟩

/-- A loop that goes on misses something at one of its peers, or is the first iteration of an empty
wave. -/
theorem looping_misses (hs : w.Sane) (hl : w.looping) : (∃ p ∈ w.peers, w.misses p) ∨
    ∃ posted later, w = .batch true posted later ∧ ∀ e ∈ posted, ¬ e.missing := by
  cases w with
  | pollPeer peer sendWrs recvNeed sendDone recvDone =>
    refine .inl ⟨peer, Finset.mem_singleton_self peer, ?_⟩
    simp only [Wait.misses, Wait.recvDone, Wait.recvNeed, Wait.sendDone, Wait.sendNeed, if_true]
    exact hl.symm
  | sendRecv sendPeer recvPeer sendWrs recvNeed sendDone recvDone =>
    left
    rcases hl with hl | hl
    · refine ⟨sendPeer, Finset.mem_insert_self _ _, .inr ?_⟩
      simp only [Wait.sendDone, Wait.sendNeed, if_true]
      exact hl
    · refine ⟨recvPeer, Finset.mem_insert_of_mem (Finset.mem_singleton_self _), .inl ?_⟩
      simp only [Wait.recvDone, Wait.recvNeed, if_true]
      exact hl
  | batch pending posted later =>
    have hp : pending = true := hl
    by_cases hm : ∃ e ∈ posted, e.missing
    · obtain ⟨e, he, hm⟩ := hm
      refine .inl ⟨e.peer, List.mem_toFinset.mpr (List.mem_map_of_mem he), ?_⟩
      simp only [Wait.misses, Wait.recvDone, Wait.recvNeed, Wait.sendDone, Wait.sendNeed,
        postedSum_entry hs he]
      exact hm.symm
    · right
      rw [hp]
      exact ⟨posted, later, rfl, fun e he hm' => hm ⟨e, he, hm'⟩⟩

theorem peers_body (hb : w.body o t = .ok (t', w')) : w'.peers = w.peers := by
  cases w with
  | pollPeer peer sendWrs recvNeed sendDone recvDone =>
    obtain ⟨_, _, -, -, rfl⟩ := body_pollPeer hb
    rfl
  | sendRecv sendPeer recvPeer sendWrs recvNeed sendDone recvDone =>
    obtain ⟨_, _, _, -, -, rfl⟩ := body_sendRecv hb
    rfl
  | batch pending posted later =>
    obtain ⟨posted', hp, -, rfl⟩ := body_batch hb
    show (posted'.map Posted.peer).toFinset = (posted.map Posted.peer).toFinset
    rw [(pollPosted_frame hp).1]

/-- Good completions make a poll succeed. -/
theorem pollOnce_sound (h : ∀ p, ∀ c ∈ t.cq p, c.ok = true) (p : Nat) :
    ∃ t' a b, t.pollOnce p = .ok (t', a, b) := by
  unfold Verbs.pollOnce
  have hall : ((t.cq p).take 16).all Wc.ok = true :=
    List.all_eq_true.mpr fun c hc => h p c (List.mem_of_mem_take hc)
  simp only [hall, if_true]
  exact ⟨_, _, _, rfl⟩

theorem pollPosted_sound : ∀ (es : List Posted) {t : Verbs}, (∀ p, ∀ c ∈ t.cq p, c.ok = true) →
    ∃ t' es', pollPosted t es = .ok (t', es')
  | [], t, _ => ⟨t, [], rfl⟩
  | e :: es, t, h => by
    unfold pollPosted
    by_cases hm : e.missing
    · obtain ⟨t₁, a, b, hp⟩ := pollOnce_sound h e.peer
      obtain ⟨t₂, es₂, hes⟩ := pollPosted_sound es ((shrinks_pollOnce hp).1.sound h)
      rw [if_pos hm]
      simp only [hp, hes, bind, Except.bind, pure, Except.pure]
      exact ⟨_, _, rfl⟩
    · obtain ⟨t₂, es₂, hes⟩ := pollPosted_sound es h
      rw [if_neg hm]
      simp only [hes, bind, Except.bind, pure, Except.pure]
      exact ⟨_, _, rfl⟩

/-- An iteration with good completions, and nothing else to end the loop, succeeds. -/
theorem body_sound (h : ∀ p, ∀ c ∈ t.cq p, c.ok = true) (w : Wait) :
    ∃ t' w', w.body ⟨false, false, false⟩ t = .ok (t', w') := by
  cases w with
  | pollPeer peer sendWrs recvNeed sendDone recvDone =>
    obtain ⟨t₁, a, b, hp⟩ := pollOnce_sound h peer
    simp only [Wait.body, hp, stopIf, bind, Except.bind, pure, Except.pure]
    exact ⟨_, _, rfl⟩
  | sendRecv sendPeer recvPeer sendWrs recvNeed sendDone recvDone =>
    have hsend : ∃ t₁ a, pollSends t sendPeer sendWrs sendDone = .ok (t₁, a) ∧
        ∀ p, ∀ c ∈ t₁.cq p, c.ok = true := by
      unfold pollSends
      split
      · obtain ⟨t₁, a, b, hp⟩ := pollOnce_sound h sendPeer
        rw [hp]
        exact ⟨t₁, a, rfl, (shrinks_pollOnce hp).1.sound h⟩
      · exact ⟨t, 0, rfl, h⟩
    obtain ⟨t₁, a, hs, h₁⟩ := hsend
    have hrecv : ∃ t₂ b, pollRecvs t₁ recvPeer recvNeed recvDone = .ok (t₂, b) := by
      unfold pollRecvs
      split
      · obtain ⟨t₂, a', b, hp⟩ := pollOnce_sound h₁ recvPeer
        rw [hp]
        exact ⟨t₂, b, rfl⟩
      · exact ⟨t₁, 0, rfl⟩
    obtain ⟨t₂, b, hr⟩ := hrecv
    simp only [Wait.body, hs, hr, stopIf, bind, Except.bind, pure, Except.pure]
    exact ⟨_, _, rfl⟩
  | batch pending posted later =>
    obtain ⟨t₁, posted', hp⟩ := pollPosted_sound posted h
    simp only [Wait.body, hp, stopIf, Bool.and_false, bind, Except.bind, pure, Except.pure]
    exact ⟨_, _, rfl⟩

theorem Shrinks.length_le (h : Shrinks t t') (p : Nat) : (t'.cq p).length ≤ (t.cq p).length := by
  obtain ⟨k, hk⟩ := h.cq p
  rw [hk, List.length_drop]
  exact Nat.sub_le _ _

theorem pollOnce_length {p a b : Nat} (hp : t.pollOnce p = .ok (t', a, b)) :
    (t'.cq p).length = (t.cq p).length - 16 := by
  rw [(shrinks_pollOnce hp).2, List.length_drop]

theorem pollPosted_length {e : Posted} : ∀ {es es' : List Posted} {t t' : Verbs},
    pollPosted t es = .ok (t', es') → e ∈ es → e.missing → t.cq e.peer ≠ [] →
    (t'.cq e.peer).length < (t.cq e.peer).length
  | a :: es, _, t, t', hp, he, hm, hq => by
    have hpos := List.length_pos_of_ne_nil hq
    obtain ⟨t₁, _, _, _, hpoll, hes, -⟩ | ⟨hnot, _, hes, -⟩ := pollPosted_cons hp
    · have hle := (shrinks_pollPosted hes).length_le e.peer
      by_cases hpeer : a.peer = e.peer
      · have hlen := pollOnce_length hpoll
        rw [hpeer] at hlen
        omega
      · -- the poll of another peer leaves the queue as it is
        have hcq : t₁.cq e.peer = t.cq e.peer := by
          obtain ⟨rfl, -, -⟩ := pollOnce_eq_ok hpoll
          exact Function.update_of_ne (fun h => hpeer h.symm) _ _
        rcases List.mem_cons.mp he with rfl | he
        · exact absurd rfl hpeer
        · rw [← hcq] at hq ⊢
          exact pollPosted_length hes he hm hq
    · rcases List.mem_cons.mp he with rfl | he
      · exact absurd hm hnot
      · exact pollPosted_length hes he hm hq

/-- **An iteration reaps something** of a peer of which it misses something. -/
theorem body_length (hb : w.body o t = .ok (t', w')) {p : Nat} (hm : w.misses p)
    (hq : t.cq p ≠ []) : (t'.cq p).length < (t.cq p).length := by
  have hpos := List.length_pos_of_ne_nil hq
  cases w with
  | pollPeer peer sendWrs recvNeed sendDone recvDone =>
    obtain ⟨_, _, hp, -, -⟩ := body_pollPeer hb
    have hpeer : p = peer := hm.elim (fun h => (only_pos h).1) fun h => (only_pos h).1
    rw [hpeer] at hpos ⊢
    rw [pollOnce_length hp]
    omega
  | sendRecv sendPeer recvPeer sendWrs recvNeed sendDone recvDone =>
    obtain ⟨t₁, _, _, hs, hr, -⟩ := body_sendRecv hb
    have h₁ : Shrinks t t₁ := by
      obtain ⟨-, _, hp⟩ | ⟨-, rfl, -⟩ := pollSends_eq_ok hs
      · exact (shrinks_pollOnce hp).1
      · exact .refl _
    have h₂ : Shrinks t₁ t' := by
      obtain ⟨-, _, hp⟩ | ⟨-, rfl, -⟩ := pollRecvs_eq_ok hr
      · exact (shrinks_pollOnce hp).1
      · exact .refl _
    have hle₁ := h₁.length_le p
    have hle₂ := h₂.length_le p
    rcases hm with hm | hm
    · obtain ⟨rfl, hlt⟩ := only_pos hm
      obtain ⟨-, _, hp⟩ | ⟨hge, -, -⟩ := pollRecvs_eq_ok hr
      · have := pollOnce_length hp
        omega
      · exact absurd hlt hge
    · obtain ⟨rfl, hlt⟩ := only_pos hm
      obtain ⟨-, _, hp⟩ | ⟨hge, -, -⟩ := pollSends_eq_ok hs
      · have := pollOnce_length hp
        omega
      · exact absurd hlt hge
  | batch pending posted later =>
    obtain ⟨_, hp, -, -⟩ := body_batch hb
    rcases hm with hm | hm
    · obtain ⟨e, he, rfl, hlt⟩ := postedSum_lt hm
      exact pollPosted_length hp he (.inr hlt) hq
    · obtain ⟨e, he, rfl, hlt⟩ := postedSum_lt hm
      exact pollPosted_length hp he (.inl hlt) hq

theorem pollPosted_idle : ∀ {es es' : List Posted} {t t' : Verbs},
    pollPosted t es = .ok (t', es') → (∀ e ∈ es, ¬ e.missing) → es' = es
  | [], _, _, _, hp, _ => (Prod.mk.inj (Except.ok.inj hp)).2.symm
  | e :: es, _, _, _, hp, h => by
    unfold pollPosted at hp
    rw [if_neg (h e List.mem_cons_self)] at hp
    obtain ⟨⟨t₁, es₁⟩, hes, hp⟩ := bind_eq_ok hp
    obtain ⟨-, rfl⟩ := Prod.mk.inj (Except.ok.inj hp)
    rw [pollPosted_idle hes fun x hx => h x (List.mem_cons_of_mem e hx)]

/-- An iteration that drops nothing keeps the NIC from being ahead. -/
theorem Lazy.poll {d : Nat → Nat} (hz : Lazy s.tr (some w)) (h : Tracked s qs d)
    (hw : s.wait = some w) (h' : Tracked { s with tr := t', wait := some w' } qs d)
    (hb : w.body o s.tr = .ok (t', w')) : Lazy t' (some w') := by
  have hsh := shrinks_body hb
  have hneed := ((h.orderly.waiting hw).body hb).2.1
  refine ⟨fun p => ?_, fun p => ?_⟩
  · rw [hsh.frame.2.2]
    exact hz.surplus p
  · have hbefore := (h.waiting hw).recv p
    have hafter := h'.balanced.recv p
    have hahead := hz.ahead p
    rw [h.prePosted p] at hbefore
    rw [h'.prePosted p] at hafter
    simp only [hsh.frame.2.1, hsh.frame.2.2] at hafter
    simp only [ofWait, Option.elim, hneed] at hbefore hafter hahead ⊢
    omega

/-- A rank whose loop at work has come one step nearer to its end. -/
structure Nearer (s s' : VRank) (qs : List RecvReq) (w w' : Wait) : Prop where
  kept : Tracked s' qs fun _ => 0
  wait : s'.wait = some w'
  code : s'.code = s.code
  later : w'.later = w.later
  clear : w.Clear qs → w'.Clear qs
  lazy : Lazy s.tr (some w) → Lazy s'.tr (some w')

theorem Tracked.nearer_poll (h : Tracked s qs fun _ => 0) (hw : s.wait = some w)
    (hc : w.Clear qs ∨ Lazy s.tr (some w)) (hb : w.body o s.tr = .ok (t', w')) :
    Nearer s { s with tr := t', wait := some w' } qs w w' := by
  obtain ⟨d', hk, -, htidy⟩ := h.poll hw hb
  have hd : d' = fun _ => 0 := by
    refine htidy ?_
    rcases hc with hc | hc
    · exact h.tidy hw hc
    · exact hc.tidy (h.sane w hw)
  subst hd
  constructor
  · exact hk
  · rfl
  · rfl
  · exact later_body hb
  · exact fun hc => clear_body hc hb
  · exact fun hz => hz.poll h hw hk hb

/-- What a loop misses and is not on the completion queue is on a queue of the NIC. -/
theorem Tracked.outstanding (h : Tracked s qs fun _ => 0) (hw : s.wait = some w) {p : Nat}
    (hm : w.misses p) (hq : s.tr.cq p = []) :
    (w.recvDone p < w.recvNeed p ∧ s.tr.recvq p ≠ []) ∨ s.tr.sendq p ≠ [] := by
  have hrecv := (h.waiting hw).recv p
  have hsend := (h.waiting hw).send p
  have hnone : ∀ recv, s.tr.unreaped recv p = 0 := fun recv => by
    unfold Verbs.unreaped
    rw [hq, List.countP_nil]
  rw [hnone] at hrecv hsend
  simp only [ofWait, Option.elim] at hrecv hsend
  rcases hm with hm | hm
  · left
    refine ⟨hm, fun hnil => ?_⟩
    have hdrawn := h.drawn p
    rw [hw] at hdrawn
    have hzero := hdrawn (Nat.lt_of_le_of_lt (Nat.zero_le _) hm)
    rw [hnil, List.length_nil] at hrecv
    omega
  · right
    intro hnil
    rw [hnil, List.length_nil] at hsend
    omega

theorem load_sent {p : Nat} {mr : Mr} {q : List Mr} (hq : t.sendq p = mr :: q) (x : Nat) :
    Verbs.load { t with
      sendq := Function.update t.sendq p q,
      cq := Function.update t.cq p (t.cq p ++ [⟨false, true⟩]) } x + only p 1 x = t.load x := by
  unfold Verbs.load only
  by_cases hx : x = p
  · subst hx
    simp only [Function.update_self, hq, List.length_cons, List.length_append, List.length_nil,
      if_true]
    omega
  · simp only [Function.update_of_ne hx, if_neg hx, Nat.add_zero]

theorem load_received {p : Nat} {mr : Mr} {q : List Mr} (hq : t.recvq p = mr :: q) (x : Nat) :
    Verbs.load { t with
      recvq := Function.update t.recvq p q,
      cq := Function.update t.cq p (t.cq p ++ [⟨true, true⟩]) } x + only p 1 x = t.load x := by
  unfold Verbs.load only
  by_cases hx : x = p
  · subst hx
    simp only [Function.update_self, hq, List.length_cons, List.length_append, List.length_nil,
      if_true]
    omega
  · simp only [Function.update_of_ne hx, if_neg hx, Nat.add_zero]

theorem total_lt {ps : Finset Nat} {p : Nat} (hp : p ∈ ps)
    (h : ∀ x, t'.load x + only p 1 x ≤ t.load x) : ps.sum t'.load < ps.sum t.load := by
  refine Finset.sum_lt_sum (fun x _ => Nat.le_trans (Nat.le_add_right _ _) (h x)) ⟨p, hp, ?_⟩
  have := h p
  rw [only, if_pos rfl] at this
  exact this

/-- **A loop at work has a step that brings it nearer to its end**, when nothing was dropped: one of
the NIC, or an iteration. -/
theorem Tracked.advance (h : Tracked s qs fun _ => 0) (hw : s.wait = some w) (hl : w.looping)
    (hc : w.Clear qs ∨ Lazy s.tr (some w)) :
    ∃ s' w', RStep cap user s s' ∧ Nearer s s' qs w w' ∧ w'.peers = w.peers ∧
      (w'.looping → w.peers.sum s'.tr.load < w.peers.sum s.tr.load) := by
  obtain ⟨p, hmem, hm⟩ | ⟨posted, later, rfl, hidle⟩ := looping_misses (h.sane w hw) hl
  · by_cases hq : s.tr.cq p = []
    · obtain ⟨hlt, hne⟩ | hne := h.outstanding hw hm hq
      · -- the NIC completes a receive that the loop needs
        obtain ⟨mr, q, hrecvq⟩ := List.exists_cons_of_ne_nil hne
        refine ⟨_, w, .received s p hrecvq, ⟨h.received hrecvq, hw, rfl, rfl, id, fun hz =>
          ⟨hz.surplus, fun x => ?_⟩⟩, rfl, fun _ => ?_⟩
        · have hahead := hz.ahead x
          rw [unreaped_update s.tr p ⟨true, true⟩ true x, if_pos rfl, only]
          by_cases hx : x = p
          · have hnone : s.tr.unreaped true x = 0 := by
              unfold Verbs.unreaped
              rw [hx, hq, List.countP_nil]
            rw [if_pos hx, hnone]
            simp only [ofWait, Option.elim]
            rw [hx]
            omega
          · rw [if_neg hx]
            exact hahead
        · exact total_lt hmem fun x => Nat.le_of_eq (load_received hrecvq x)
      · obtain ⟨mr, q, hsendq⟩ := List.exists_cons_of_ne_nil hne
        refine ⟨_, w, .sent s p hsendq, ⟨h.sent hsendq, hw, rfl, rfl, id, fun hz =>
          ⟨hz.surplus, fun x => ?_⟩⟩, rfl, fun _ => ?_⟩
        · rw [unreaped_update s.tr p ⟨false, true⟩ true x, if_neg Bool.false_ne_true, only_zero]
          exact hz.ahead x
        · exact total_lt hmem fun x => Nat.le_of_eq (load_sent hsendq x)
    · obtain ⟨t', w', hb⟩ := body_sound h.sound w
      have hsh := shrinks_body hb
      refine ⟨_, w', .poll s _ hw hl hb, h.nearer_poll hw hc hb, peers_body hb, fun _ => ?_⟩
      refine total_lt hmem fun x => ?_
      have hle := hsh.length_le x
      have hlt := body_length hb hm hq
      simp only [Verbs.load, hsh.frame.1, hsh.frame.2.1, only]
      split
      · rename_i hx
        subst hx
        omega
      · omega
  · -- an empty wave: the iteration clears the flag
    obtain ⟨t', w', hb⟩ := body_sound h.sound (.batch true posted later)
    refine ⟨_, w', .poll s _ hw hl hb, h.nearer_poll hw hc hb, peers_body hb, fun hgo => ?_⟩
    obtain ⟨posted', hp, -, rfl⟩ := body_batch hb
    obtain ⟨e, he, hm⟩ := of_decide_eq_true hgo
    rw [pollPosted_idle hp hidle] at he
    exact absurd hm (hidle e he)

/-- A loop can be waited for. -/
theorem Tracked.waited : ∀ (k : Nat) {s : VRank} {w : Wait}, w.peers.sum s.tr.load < k →
    Tracked s qs (fun _ => 0) → s.wait = some w → (w.Clear qs ∨ Lazy s.tr (some w)) →
    ∃ s' w', RReach cap user s s' ∧ Nearer s s' qs w w' ∧ ¬ w'.looping
  | 0, s, w, hk, _, _, _ => absurd hk (Nat.not_lt_zero _)
  | k + 1, s, w, hk, h, hw, hc => by
    by_cases hl : w.looping
    · obtain ⟨s₁, w₁, hstep, hnear, hpeers, hlt⟩ := h.advance cap user hw hl hc
      by_cases hl₁ : w₁.looping
      · have hk₁ : w₁.peers.sum s₁.tr.load < k := by
          have := hlt hl₁
          rw [hpeers]
          omega
        obtain ⟨s₂, w₂, hrun, hnear₂, hl₂⟩ := Tracked.waited k hk₁ hnear.kept hnear.wait
          (hc.imp hnear.clear hnear.lazy)
        refine ⟨s₂, w₂, .head hstep hrun, ⟨hnear₂.kept, hnear₂.wait, hnear₂.code.trans hnear.code,
          hnear₂.later.trans hnear.later, fun h => hnear₂.clear (hnear.clear h),
          fun h => hnear₂.lazy (hnear.lazy h)⟩, hl₂⟩
      · exact ⟨s₁, w₁, .step .refl hstep, hnear, hl₁⟩
    · exact ⟨s, w, .refl, ⟨h, hw, rfl, rfl, id, id⟩, hl⟩

/-- **A call comes to its end**: from a state in which nothing was dropped, and its loop either polls
no queue with receives of a later step or the NIC has not run ahead. -/
theorem Tracked.drained : ∀ (k : Nat) {s : VRank} {w : Wait}, w.later.length < k →
    Tracked s qs (fun _ => 0) → s.wait = some w → (w.Clear qs ∨ Lazy s.tr (some w)) →
    ∃ s', RReach cap user s s' ∧ Tracked s' qs (fun _ => 0) ∧ s'.wait = none ∧ s'.code = s.code ∧
      (Lazy s.tr (some w) → Lazy s'.tr none)
  | 0, s, w, hk, _, _, _ => absurd hk (Nat.not_lt_zero _)
  | k + 1, s, w, hk, h, hw, hc => by
    obtain ⟨s₁, w₁, hrun, hnear, hl⟩ := Tracked.waited cap user _ (Nat.lt_succ_self _) h hw hc
    obtain ⟨hk₂, hlazy⟩ := hnear.kept.finish user hnear.wait hl
    have hfin : RStep cap user s₁ _ := .finish s₁ hnear.wait hl
    cases hnext : (w₁.finish s₁.tr (s₁.reg.loc user) s₁.reg.regions).2 with
    | none =>
      refine ⟨_, .step hrun hfin, hk₂, hnext, hnear.code, fun hz => ?_⟩
      rw [← hnext]
      exact hlazy (hnear.lazy hz)
    | some w₂ =>
      obtain ⟨hclear, hlater⟩ := finish_next qs hnext
      rw [hnear.later] at hlater
      rw [hnext] at hlazy
      obtain ⟨s₃, hrun₃, h₃, hw₃, hc₃, hz₃⟩ := Tracked.drained k
        (Nat.lt_of_lt_of_le hlater (Nat.le_of_lt_succ hk)) hk₂ hnext (.inl hclear)
      exact ⟨s₃, (RReach.step hrun hfin).trans hrun₃, h₃, hw₃, hc₃.trans hnear.code,
        fun hz => hz₃ (hlazy (hnear.lazy hz))⟩

end Progress

/-! ## A rank comes to the end of its tasks -/

/-- Nothing left to do and nothing to wait for. -/
def VRank.Finished (s : VRank) : Prop := s.code = [] ∧ s.wait = none

section Finish

variable (cap : Nat) (user : Nat → Nat) {s : VRank} {qs qs' : List RecvReq} {task : Task}
  {rest : List Task}

/-- Every task computes, is a call of the transport, or changes the registrations. -/
theorem task_cases (reg : Registry) (task : Task) : task.isLocal = true ∨
    (∃ op, task.verbs = some op) ∨ ∃ op, Books user reg task op := by
  cases task with
  | reg op => exact .inr (.inr ⟨op, .reg op⟩)
  | batch ops => exact .inr (.inl ⟨_, rfl⟩)
  | call c =>
    cases c with
    | regAdd p bytes => exact .inr (.inr ⟨_, .add p bytes⟩)
    | scratchAt bytes => exact .inr (.inr ⟨_, .scratchAt bytes 0 .success⟩)
    | send | recv | sendRecv | postRecvs => exact .inr (.inl ⟨_, rfl⟩)
    | memcpy | cpuReduce | cpuScale | cpuScaleCopy | cpuScaledAccumulate => exact .inl rfl

/-- **A task comes to its end**, if it is not lossy or the NIC does not run ahead. -/
theorem Tracked.head (h : Tracked s qs fun _ => 0) (hw : s.wait = none) (hc : s.code = task :: rest)
    (ha : task.after qs = some qs') (hs : ¬ task.Lossy qs ∨ Lazy s.tr none) :
    ∃ s', RReach cap user s s' ∧ Tracked s' qs' (fun _ => 0) ∧ s'.wait = none ∧ s'.code = rest ∧
      (Lazy s.tr none → Lazy s'.tr none) := by
  rcases task_cases user s.reg task with hl | ⟨op, hv⟩ | ⟨op, hb⟩
  · obtain rfl := after_local hl ha
    exact ⟨_, .step .refl (.compute s hw hc hl),
      ⟨h.orderly.compute hc hl, h.balanced, h.sane, h.drawn, h.sound⟩, hw, rfl, id⟩
  · obtain ⟨hk, hlazy⟩ := h.post user hw hc hv ha
    have hpost : RStep cap user s _ := .post s hw hc hv
    cases hnext : (op.start s.tr (s.reg.loc user) s.reg.regions).2 with
    | none =>
      rw [hnext] at hlazy
      exact ⟨_, .step .refl hpost, hk, hnext, rfl, hlazy⟩
    | some w =>
      rw [hnext] at hlazy
      obtain ⟨s', hrun, hk', hw', hc', hz'⟩ := Tracked.drained cap user _ (Nat.lt_succ_self _) hk hnext
        (hs.imp (fun hn => clear_start hv ha hn hnext) hlazy)
      exact ⟨s', .head hpost hrun, hk', hw', hc', fun hz => hz' (hlazy hz)⟩
  · obtain ⟨rfl, rfl⟩ := after_book hb ha
    exact ⟨_, .step .refl (.book s hw hc hb),
      ⟨(h.orderly.book cap hc hb).2, h.balanced, h.sane, h.drawn, h.sound⟩, hw, rfl, id⟩

/-- Nothing lossy is left: the rank can finish. -/
theorem Tracked.finishes : ∀ (code : List Task) {s : VRank} {qs : List RecvReq}, s.code = code →
    Tracked s qs (fun _ => 0) → s.wait = none → Lossless qs code →
    ∃ s', RReach cap user s s' ∧ s'.Finished
  | [], s, _, hc, _, hw, _ => ⟨s, .refl, hc, hw⟩
  | task :: rest, s, qs, hc, h, hw, hl => by
    obtain ⟨qs', ha, -⟩ := h.orderly.next hc
    obtain ⟨s₁, hrun, h₁, hw₁, hc₁, -⟩ := h.head cap user hw hc ha (.inl hl.1)
    obtain ⟨s₂, hrun₂, hfin⟩ := Tracked.finishes rest hc₁ h₁ hw₁ (hl.next ha)
    exact ⟨s₂, hrun.trans hrun₂, hfin⟩

/-- From any state in which nothing was dropped and nothing lossy is left. -/
theorem Tracked.secure_finishes (h : Tracked s qs fun _ => 0) (hs : Secure s qs) :
    ∃ s', RReach cap user s s' ∧ s'.Finished := by
  cases hw : s.wait with
  | none => exact Tracked.finishes cap user s.code rfl h hw hs.lossless
  | some w =>
    obtain ⟨s₁, hrun, h₁, hw₁, hc₁, -⟩ := Tracked.drained cap user _
      (Nat.lt_succ_self _) h hw (.inl (hs.clear w hw))
    obtain ⟨s₂, hrun₂, hfin⟩ := Tracked.finishes cap user s.code hc₁ h₁ hw₁
      hs.lossless
    exact ⟨s₂, hrun.trans hrun₂, hfin⟩

theorem claimed_bytes {peer bytes : Nat} (hne : ∀ q ∈ qs, q.bytes ≠ 0)
    (h : claimed peer bytes qs = some qs') : ∀ q ∈ qs', q.bytes ≠ 0 :=
  fun q hq => hne q (claimed_subset h q hq)

/-- Only receives of some bytes are pre-posted. -/
theorem after_bytes (hne : ∀ q ∈ qs, q.bytes ≠ 0) (ha : task.after qs = some qs') :
    ∀ q ∈ qs', q.bytes ≠ 0 := by
  have hnil : ∀ q ∈ ([] : List RecvReq), q.bytes ≠ 0 := fun q hq => absurd hq List.not_mem_nil
  cases task with
  | reg op =>
    obtain ⟨-, rfl⟩ := quiet_after ha
    exact hnil
  | batch ops =>
    obtain ⟨-, rfl⟩ := quiet_after ha
    exact hnil
  | call c =>
    cases c with
    | regAdd | scratchAt =>
      obtain ⟨-, rfl⟩ := quiet_after ha
      exact hnil
    | postRecvs reqs =>
      obtain ⟨-, rfl⟩ := quiet_after ha
      intro q hq
      simpa using (List.mem_filter.mp hq).2
    | recv | sendRecv => exact claimed_bytes hne ha
    | send | memcpy | cpuReduce | cpuScale | cpuScaleCopy | cpuScaledAccumulate =>
      obtain rfl := Option.some.inj ha
      exact hne

/-- A receive of another peer is not the one that is claimed. -/
theorem claimed_keeps {peer bytes : Nat} {q : RecvReq} (h : claimed peer bytes qs = some qs')
    (hq : q ∈ qs) (hp : q.peer ≠ peer) : q ∈ qs' := by
  by_cases hb : bytes = 0
  · rw [← claimed_zero hb h]
    exact hq
  · unfold claimed at h
    rw [if_neg hb] at h
    cases qs with
    | nil => exact absurd hq List.not_mem_nil
    | cons a qs =>
      simp only at h
      by_cases ha : a.peer = peer
      · rw [if_pos ha] at h
        obtain rfl := Option.some.inj h
        exact (List.mem_cons.mp hq).resolve_left fun he => hp (he ▸ ha)
      · rw [if_neg ha] at h
        cases h

theorem preFifo_pos {q : RecvReq} (hq : q ∈ qs) (hb : q.bytes ≠ 0) : 0 < (preFifo qs q.peer).sum := by
  have hmem : segments q.bytes ∈ preFifo qs q.peer :=
    List.mem_map_of_mem (List.mem_filter.mpr ⟨hq, decide_eq_true rfl⟩)
  exact Nat.lt_of_lt_of_le (segments_pos hb) (List.le_sum_of_mem hmem)

theorem cq_length (t : Verbs) (p : Nat) :
    (t.cq p).length = t.unreaped true p + t.unreaped false p := by
  unfold Verbs.unreaped
  induction t.cq p with
  | nil => rfl
  | cons c l ih =>
    rw [List.length_cons, List.countP_cons, List.countP_cons, ih]
    cases c.isRecv with
    | true =>
      simp only [decide_true, if_true, Bool.true_eq_false, decide_false, Bool.false_eq_true, if_false]
      omega
    | false =>
      simp only [decide_true, if_true, Bool.false_eq_true, decide_false, if_false]
      omega

theorem postSend_pos (t : Verbs) (regions : List Region) (p addr : Nat) {bytes : Nat}
    (h : bytes ≠ 0) : 0 < (t.postSend regions p addr bytes).2 := by
  unfold Verbs.postSend
  split
  · exact Nat.one_pos
  · exact segments_pos h

/-- What a call that sends something to one peer and receives from another waits for. -/
theorem start_twoPeers (t : Verbs) (loc : Ptr → Nat) (regions : List Region) {sp sn rp : Nat}
    (hne : sp ≠ rp) (hsn : sn ≠ 0) (sb rb : Ptr) (rn : Nat) : ∃ wrs need, 0 < wrs ∧
    ((VerbsOp.sendRecv sp sb sn rp rb rn).start t loc regions).2 =
      some (.sendRecv sp rp wrs need 0 0) := by
  simp only [VerbsOp.start, if_neg hne, if_neg hsn]
  exact ⟨_, _, postSend_pos _ regions sp (loc sb) hsn, rfl⟩

/-- With a receive on the queue of the peer it sends to, an iteration drops it. -/
theorem Tracked.drop_poll {sp rp wrs need : Nat} (h : Tracked s qs fun _ => 0)
    (hw : s.wait = some (.sendRecv sp rp wrs need 0 0)) (hwrs : 0 < wrs)
    (hone : s.tr.cq sp = [⟨true, true⟩]) :
    ∃ s' d', RStep cap user s s' ∧ Tracked s' qs d' ∧ 0 < d' sp := by
  have hne : sp ≠ rp := h.sane _ hw
  have hmiss : (Wait.sendRecv sp rp wrs need 0 0).misses sp := by
    right
    simp only [Wait.sendDone, Wait.sendNeed, if_true]
    exact hwrs
  obtain ⟨t', w', hb⟩ := body_sound h.sound (.sendRecv sp rp wrs need 0 0)
  obtain ⟨d', hk, -, -⟩ := h.poll hw hb
  refine ⟨_, d', .poll s _ hw (.inl hwrs) hb, hk, ?_⟩
  have hsh := shrinks_body hb
  have hlen := body_length hb hmiss (by rw [hone]; exact List.cons_ne_nil _ _)
  have hcount := cq_length t' sp
  have hbefore := (h.waiting hw).recv sp
  have hafter := hk.balanced.recv sp
  obtain ⟨_, _, _, -, -, rfl⟩ := body_sendRecv hb
  have hun : s.tr.unreaped true sp = 1 := by
    unfold Verbs.unreaped
    rw [hone]
    rfl
  rw [h.prePosted sp, hun] at hbefore
  rw [hk.prePosted sp] at hafter
  rw [hone, List.length_singleton] at hlen
  simp only [hsh.frame.2.1, hsh.frame.2.2] at hafter
  simp only [ofWait, Option.elim, Wait.recvNeed, Wait.recvDone, if_neg hne] at hbefore hafter
  omega

/-- The NIC completes a receive that is pre-posted for the peer a loop sends to, and the next
iteration drops it. -/
theorem Tracked.drop {sp rp wrs need : Nat} (h : Tracked s qs fun _ => 0) (hz : Lazy s.tr s.wait)
    (hw : s.wait = some (.sendRecv sp rp wrs need 0 0)) (hwrs : 0 < wrs)
    (hcq : s.tr.cq sp = []) (hpre : 0 < (preFifo qs sp).sum) :
    ∃ s' d', RReach cap user s s' ∧ Tracked s' qs d' ∧ 0 < d' sp := by
  have hne : sp ≠ rp := h.sane _ hw
  have hun : s.tr.unreaped true sp = 0 := by
    unfold Verbs.unreaped
    rw [hcq, List.countP_nil]
  have hrecv := (h.waiting hw).recv sp
  rw [h.prePosted sp, hun, hz.surplus sp] at hrecv
  simp only [ofWait, Option.elim, Wait.recvNeed, Wait.recvDone, if_neg hne] at hrecv
  have hposted : s.tr.recvq sp ≠ [] := by
    intro hnil
    rw [hnil, List.length_nil] at hrecv
    omega
  obtain ⟨mr, q, hq⟩ := List.exists_cons_of_ne_nil hposted
  have hone : Function.update s.tr.cq sp (s.tr.cq sp ++ [⟨true, true⟩]) sp = [⟨true, true⟩] := by
    rw [Function.update_self, hcq, List.nil_append]
  obtain ⟨s', d', hstep, hk, hd⟩ := (h.received hq).drop_poll cap user hw hwrs hone
  exact ⟨s', d', .head (.received s sp hq) (.step .refl hstep), hk, hd⟩

/-- **A lossy call can drop a completion**: the NIC completes the receive from the peer the call
sends to, and the next poll drops it. -/
theorem Tracked.drops (h : Tracked s qs fun _ => 0) (hz : Lazy s.tr none) (hw : s.wait = none)
    (hc : s.code = task :: rest) (hne : ∀ q ∈ qs, q.bytes ≠ 0) (hlossy : task.Lossy qs) :
    ∃ s' qs' d', RReach cap user s s' ∧ Tracked s' qs' d' ∧ ∃ p, 0 < d' p := by
  obtain ⟨qs', ha, -⟩ := h.orderly.next hc
  cases task with
  | reg op => exact hlossy.elim
  | batch ops => exact hlossy.elim
  | call c =>
    cases c with
    | sendRecv sp sb sn rp rb rn =>
      obtain ⟨hpeers, hsn, q, hq, rfl⟩ := hlossy
      obtain ⟨wrs, need, hwrs, hwait⟩ := start_twoPeers s.tr (s.reg.loc user) s.reg.regions hpeers
        hsn sb rb rn
      obtain ⟨h₁, hz₁⟩ := h.post user hw hc rfl ha
      have hcq : s.tr.cq q.peer = [] := by
        have hrecv := hz.ahead q.peer
        have hsend := (h.quiet hw).send q.peer
        have hlen := cq_length s.tr q.peer
        simp only [ofWait, Option.elim] at hrecv hsend
        exact List.length_eq_zero_iff.mp (by omega)
      have hframe : ((VerbsOp.sendRecv q.peer sb sn rp rb rn).start s.tr (s.reg.loc user)
          s.reg.regions).1.cq = s.tr.cq := (begun_sendRecv (h.quiet hw) q.peer sb sn rp rb rn).cq
      have hpre := preFifo_pos (claimed_keeps ha hq hpeers) (hne q hq)
      obtain ⟨s', d', hrun, hk, hd⟩ := h₁.drop cap user (hz₁ hz) hwait hwrs
        ((congrFun hframe q.peer).trans hcq) hpre
      exact ⟨s', qs', d', .head (.post s hw hc rfl) hrun, hk, q.peer, hd⟩
    | _ => exact hlossy.elim

/-- A lossy task ahead: some run drops a completion. -/
theorem Tracked.loses : ∀ (code : List Task) {s : VRank} {qs : List RecvReq}, s.code = code →
    Tracked s qs (fun _ => 0) → Lazy s.tr none → s.wait = none → (∀ q ∈ qs, q.bytes ≠ 0) →
    ¬ Lossless qs code →
    ∃ s' qs' d', RReach cap user s s' ∧ Tracked s' qs' d' ∧ ∃ p, 0 < d' p
  | [], _, _, _, _, _, _, _, hl => absurd trivial hl
  | task :: rest, s, qs, hc, h, hz, hw, hne, hl => by
    obtain ⟨qs', ha, -⟩ := h.orderly.next hc
    by_cases hlossy : task.Lossy qs
    · exact h.drops cap user hz hw hc hne hlossy
    · have hrest : ¬ Lossless qs' rest := fun hr => hl ⟨hlossy, fun qs₁ hqs₁ => by
        obtain rfl := Option.some.inj (ha.symm.trans hqs₁)
        exact hr⟩
      obtain ⟨s₁, hrun, h₁, hw₁, hc₁, hz₁⟩ := h.head cap user hw hc ha (.inr hz)
      obtain ⟨s₂, qs₂, d₂, hrun₂, h₂, hd₂⟩ := Tracked.loses rest hc₁ h₁ (hz₁ hz) hw₁
        (after_bytes hne ha) hrest
      exact ⟨s₂, qs₂, d₂, hrun.trans hrun₂, h₂, hd₂⟩

theorem secure_init {reg : Registry} {t : Verbs} {code : List Task} (hl : Lossless [] code) :
    Secure ⟨reg, t, code, none⟩ [] where
  clear _ hw := by cases hw
  lossless := hl

/-- **A rank can always finish if and only if its tasks are lossless**: otherwise some run drops a
completion, and none that goes on from there finishes. -/
theorem finishes_iff (cap : Nat) (user : Nat → Nat) (reg : Registry) (maxInline : Nat → Nat)
    {code : List Task} (h : tasksAfter [] code = some []) :
    (∀ s, RReach cap user ⟨reg, .init maxInline, code, none⟩ s →
      ∃ s', RReach cap user s s' ∧ s'.Finished) ↔ Lossless [] code := by
  have hinit := kept_init reg maxInline h
  constructor
  · intro hfin
    by_contra hl
    have hlazy : Lazy (Verbs.init maxInline) none := ⟨fun _ => rfl, fun _ => Nat.le_refl 0⟩
    obtain ⟨s, qs, d, hrun, hk, p, hp⟩ := Tracked.loses cap user code rfl hinit
      hlazy rfl (fun q hq => absurd hq List.not_mem_nil) hl
    obtain ⟨s', hrun', hc, hw⟩ := hfin s hrun
    obtain ⟨qs', d', hk', hle, -⟩ := hk.run hrun'
    have := hk'.closed hc hw p
    have := hle p
    omega
  · intro hl s hrun
    obtain ⟨qs', d', hk, -, hsec⟩ := hinit.run hrun
    obtain ⟨hs, rfl⟩ := hsec (secure_init hl)
    exact hk.secure_finishes cap user hs

/-- **Lossless tasks lose nothing**: at every moment of a run the receives that are posted, reaped
and credited make up those that are pre-posted and needed, and the sends those that are needed. -/
theorem Lossless.counts (cap : Nat) (user : Nat → Nat) (reg : Registry) (maxInline : Nat → Nat)
    {code : List Task} (h : tasksAfter [] code = some []) (hl : Lossless [] code) {s : VRank}
    (hrun : RReach cap user ⟨reg, .init maxInline, code, none⟩ s) (p : Nat) :
    (s.tr.recvq p).length + s.tr.unreaped true p + s.tr.recvSurplus p +
        ofWait Wait.recvDone s.wait p =
      (s.tr.prePostedRecv p).sum + ofWait Wait.recvNeed s.wait p ∧
    (s.tr.sendq p).length + s.tr.unreaped false p + ofWait Wait.sendDone s.wait p =
      ofWait Wait.sendNeed s.wait p := by
  obtain ⟨qs', d', hk, -, hsec⟩ := (kept_init reg maxInline h).run hrun
  obtain ⟨-, rfl⟩ := hsec (secure_init hl)
  exact ⟨hk.balanced.recv p, hk.balanced.send p⟩

end Finish

end Vccl
