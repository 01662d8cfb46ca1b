import Vccl.Registry
import Vccl.Verbs

/-!
# Runs of a rank over the verbs transport

A rank works through a list of tasks: the calls of its collectives, the batches of its
point-to-point operations, and what changes its registrations. Meanwhile the NIC completes posted
work requests, in the order of each queue and at any time. `RStep` is one step of either; a call
that returns an error has none, so a run is one in which everything has succeeded so far.

Receives are pre-posted by `postRecvs` and claimed, oldest first, by the calls that wait for them.
`Task.after` is this discipline: which receives are pre-posted and not claimed after a task, if the
task claims the oldest one and neither registrations nor other posts come in between. Every
collective follows it (`orderly_calls`).

The count of work requests is an invariant of every run (`Counted`): what is posted on a receive
queue and what the transport has reaped of it together never exceed the receives that are pre-posted
and the ones the wait loop at work needs.
-/

namespace Vccl

/-! ## The machine -/

/-- What a rank has to do. -/
inductive Task where
  | call (c : Call)
  | batch (ops : List P2pOp)
  | reg (op : RegOp)

/-- The transport operation of a task. -/
def Task.verbs : Task → Option VerbsOp
  | .call (.send peer buf bytes) => some (.send peer buf bytes)
  | .call (.recv peer buf bytes) => some (.recv peer buf bytes)
  | .call (.sendRecv sp sb sn rp rb rn) => some (.sendRecv sp sb sn rp rb rn)
  | .call (.postRecvs reqs) => some (.postRecvs reqs)
  | .batch ops => some (.batch ops)
  | _ => none

/-- A call that touches neither the transport nor a registration. -/
def Task.isLocal : Task → Bool
  | .call (.memcpy ..) | .call (.cpuReduce ..) | .call (.cpuScale ..) | .call (.cpuScaleCopy ..)
  | .call (.cpuScaledAccumulate ..) => true
  | _ => false

/-- A rank: its registrations, its transport, the tasks left and the wait loop at work. -/
structure VRank where
  reg : Registry
  tr : Verbs
  code : List Task
  wait : Option Wait

/-- The address of a pointer; `user` is where the user's allocations are. -/
def Registry.loc (reg : Registry) (user : Nat → Nat) (p : Ptr) : Nat :=
  match p.obj with
  | .scratch => reg.scratchAddr + p.off
  | .user id => user id + p.off

/-- `VerbsTransport::covers`. -/
def Registry.covers (reg : Registry) (addr bytes : Nat) : Bool :=
  reg.regions.any fun r => r.covers addr bytes

/-- What a task does to the registrations. A failed `ScopedReg::add` ends the collective; the result
of `regMr` in `scratchAt` is ignored. -/
inductive Books (user : Nat → Nat) (reg : Registry) : Task → RegOp → Prop
  | reg (op : RegOp) : Books user reg (.reg op) op
  | add (p : Ptr) (bytes : Nat) : Books user reg (.call (.regAdd p bytes))
      (.add 0 (reg.loc user p) bytes (reg.covers (reg.loc user p) bytes) .success)
  | scratchAt (bytes addr : Nat) (answer : Result) :
      Books user reg (.call (.scratchAt bytes)) (.scratchAt bytes addr answer)

/-- A step of the rank or of its NIC. -/
inductive RStep (cap : Nat) (user : Nat → Nat) : VRank → VRank → Prop
  | sent (s : VRank) (p : Nat) {mr : Mr} {q : List Mr} (h : s.tr.sendq p = mr :: q) :
      RStep cap user s { s with tr := { s.tr with
        sendq := Function.update s.tr.sendq p q,
        cq := Function.update s.tr.cq p (s.tr.cq p ++ [⟨false, true⟩]) } }
  | received (s : VRank) (p : Nat) {mr : Mr} {q : List Mr} (h : s.tr.recvq p = mr :: q) :
      RStep cap user s { s with tr := { s.tr with
        recvq := Function.update s.tr.recvq p q,
        cq := Function.update s.tr.cq p (s.tr.cq p ++ [⟨true, true⟩]) } }
  | compute (s : VRank) {task : Task} {rest : List Task} (hw : s.wait = none)
      (hc : s.code = task :: rest) (hl : task.isLocal = true) :
      RStep cap user s { s with code := rest }
  | book (s : VRank) {task : Task} {rest : List Task} {op : RegOp} (hw : s.wait = none)
      (hc : s.code = task :: rest) (hb : Books user s.reg task op) :
      RStep cap user s { s with reg := regStep cap s.reg op, code := rest }
  | post (s : VRank) {task : Task} {rest : List Task} {op : VerbsOp} (hw : s.wait = none)
      (hc : s.code = task :: rest) (hv : task.verbs = some op) :
      RStep cap user s { s with
        tr := (op.start s.tr (s.reg.loc user) s.reg.regions).1,
        wait := (op.start s.tr (s.reg.loc user) s.reg.regions).2, code := rest }
  | poll (s : VRank) {w w' : Wait} {t' : Verbs} (o : Obs) (hw : s.wait = some w) (hl : w.looping)
      (hb : w.body o s.tr = .ok (t', w')) : RStep cap user s { s with tr := t', wait := some w' }
  | finish (s : VRank) {w : Wait} (hw : s.wait = some w) (hl : ¬ w.looping) :
      RStep cap user s { s with
        tr := (w.finish s.tr (s.reg.loc user) s.reg.regions).1,
        wait := (w.finish s.tr (s.reg.loc user) s.reg.regions).2 }

/-! ## The order of pre-posted receives -/

/-- The receives of a `postRecvs` that are posted. -/
def nonEmpty (reqs : List RecvReq) : List RecvReq := reqs.filter fun q => q.bytes ≠ 0

/-- A receive from `peer` claims the oldest pre-posted one, which is from that peer. -/
def claimed (peer bytes : Nat) (qs : List RecvReq) : Option (List RecvReq) :=
  if bytes = 0 then some qs
  else
    match qs with
    | [] => some []
    | q :: qs => if q.peer = peer then some qs else none

theorem claimed_nil (peer bytes : Nat) : claimed peer bytes [] = some [] := by
  unfold claimed
  split <;> rfl

theorem claimed_zero {peer bytes : Nat} {qs qs' : List RecvReq} (hb : bytes = 0)
    (h : claimed peer bytes qs = some qs') : qs = qs' := by
  unfold claimed at h
  rw [if_pos hb] at h
  exact Option.some.inj h

/-- The receives that are pre-posted and not claimed after a task. -/
def Task.after (qs : List RecvReq) : Task → Option (List RecvReq)
  | .reg _ | .batch _ | .call (.regAdd ..) | .call (.scratchAt _) => if qs = [] then some [] else none
  | .call (.postRecvs reqs) => if qs = [] then some (nonEmpty reqs) else none
  | .call (.recv peer _ bytes) => claimed peer bytes qs
  | .call (.sendRecv _ _ _ peer _ bytes) => claimed peer bytes qs
  | .call _ => some qs

theorem quiet_after {qs qs' qs₁ : List RecvReq} (h : (if qs = [] then some qs₁ else none) = some qs') :
    qs = [] ∧ qs' = qs₁ := by
  by_cases hq : qs = []
  · rw [if_pos hq] at h
    exact ⟨hq, (Option.some.inj h).symm⟩
  · rw [if_neg hq] at h
    cases h

/-- After a list of tasks. -/
def tasksAfter (qs : List RecvReq) : List Task → Option (List RecvReq)
  | [] => some qs
  | task :: rest => (task.after qs).bind fun qs => tasksAfter qs rest

theorem tasksAfter_append (qs : List RecvReq) (a b : List Task) :
    tasksAfter qs (a ++ b) = (tasksAfter qs a).bind fun qs => tasksAfter qs b := by
  induction a generalizing qs with
  | nil => rfl
  | cons task a ih =>
    simp only [List.cons_append, tasksAfter, Option.bind_assoc]
    congr 1
    funext qs
    exact ih qs

/-- Work requests pre-posted on the QP of `p`, receive by receive. -/
def preFifo (qs : List RecvReq) (p : Nat) : List Nat :=
  (qs.filter fun q => q.peer = p).map fun q => segments q.bytes

/-- Work requests pre-posted on the QP of `p`. -/
def preLoad (qs : List RecvReq) (p : Nat) : Nat := (preFifo qs p).sum

/-! ## Counting work requests -/

/-- A count of the wave at work, for one peer. -/
def postedSum (f : Posted → Nat) (posted : List Posted) (p : Nat) : Nat :=
  ((posted.filter fun e => e.peer = p).map f).sum

/-- The receives a loop needs from `p`. -/
def Wait.recvNeed : Wait → Nat → Nat
  | .pollPeer peer _ need _ _, p | .sendRecv _ peer _ need _ _, p => if p = peer then need else 0
  | .batch _ posted _, p => postedSum Posted.recvs posted p

/-- The receive completions of `p` a loop has counted. -/
def Wait.recvDone : Wait → Nat → Nat
  | .pollPeer peer _ _ _ done, p | .sendRecv _ peer _ _ _ done, p => if p = peer then done else 0
  | .batch _ posted _, p => postedSum Posted.recvDone posted p

/-- The sends to `p` a loop waits for. -/
def Wait.sendNeed : Wait → Nat → Nat
  | .pollPeer peer need _ _ _, p | .sendRecv peer _ need _ _ _, p => if p = peer then need else 0
  | .batch _ posted _, p => postedSum Posted.sends posted p

/-- The send completions of `p` a loop has counted. -/
def Wait.sendDone : Wait → Nat → Nat
  | .pollPeer peer _ _ done _, p | .sendRecv peer _ _ _ done _, p => if p = peer then done else 0
  | .batch _ posted _, p => postedSum Posted.sendDone posted p

/-- A count of the loop at work; none without one. -/
def ofWait (f : Wait → Nat → Nat) (w : Option Wait) (p : Nat) : Nat := w.elim 0 fun w => f w p

/-- Completions on the queue of `p` that no poll has reaped. -/
def Verbs.unreaped (t : Verbs) (recv : Bool) (p : Nat) : Nat := (t.cq p).countP fun w => w.isRecv = recv

/-- `k` at one peer. -/
def only (peer k p : Nat) : Nat := if p = peer then k else 0

/-- The count of work requests, peer by peer, with `qs` pre-posted and not claimed, and a loop that
has counted `rd` of the `rn` receives and `sd` of the `sn` sends it needs. A completion the loop for
two peers drops is missing on the left. -/
structure Tally (t : Verbs) (qs : List RecvReq) (rn rd sn sd : Nat → Nat) : Prop where
  recv : ∀ p, (t.recvq p).length + t.unreaped true p + t.recvSurplus p + rd p ≤
    preLoad qs p + rn p
  send : ∀ p, (t.sendq p).length + t.unreaped false p + sd p ≤ sn p
  fifo : ∀ p, t.prePostedRecv p = preFifo qs p

/-- The tally of a rank. -/
def Counted (t : Verbs) (w : Option Wait) (qs : List RecvReq) : Prop :=
  Tally t qs (ofWait Wait.recvNeed w) (ofWait Wait.recvDone w) (ofWait Wait.sendNeed w)
    (ofWait Wait.sendDone w)

section Posting

variable {t t' : Verbs} {regions : List Region} {p addr bytes : Nat}

theorem segments_pos (h : bytes ≠ 0) : 0 < segments bytes := by
  unfold segments kMaxSegBytes
  have : 1 <<< 30 = 1073741824 := rfl
  rw [this]
  omega

/-- `resolve` changes no queue. -/
theorem resolve_eq (t : Verbs) (regions : List Region) (addr bytes : Nat) :
    (t.resolve regions addr bytes).1 =
      { t with
        tempMrs := (t.resolve regions addr bytes).1.tempMrs,
        temps := (t.resolve regions addr bytes).1.temps } := by
  unfold Verbs.resolve
  split <;> rfl

/-- A queue that grows at one peer. -/
theorem length_update_append (q : Nat → List Mr) (p k : Nat) (l : List Mr) (hl : l.length = k)
    (x : Nat) : (Function.update q p (q p ++ l) x).length = (q x).length + only p k x := by
  unfold only
  by_cases hx : x = p
  · subst hx
    rw [Function.update_self, List.length_append, if_pos rfl, hl]
  · rw [Function.update_of_ne hx, if_neg hx, Nat.add_zero]

theorem postSend_le (t : Verbs) (regions : List Region) (p addr : Nat) (h : bytes ≠ 0) :
    (t.postSend regions p addr bytes).2 ≤ segments bytes := by
  unfold Verbs.postSend
  split
  · exact segments_pos h
  · exact Nat.le_refl _

end Posting

section Tallies

variable {t t' : Verbs} {qs : List RecvReq} {rn rd sn sd rn' rd' sn' sd' : Nat → Nat}
  {regions : List Region} {p addr bytes : Nat}

theorem Tally.mono (h : Tally t qs rn rd sn sd) (hr : ∀ p, rn p + rd' p ≤ rn' p + rd p)
    (hs : ∀ p, sn p + sd' p ≤ sn' p + sd p) : Tally t qs rn' rd' sn' sd' := by
  refine ⟨fun p => ?_, fun p => ?_, h.fifo⟩
  · have := h.recv p
    have := hr p
    omega
  · have := h.send p
    have := hs p
    omega

theorem Tally.postSend (h : Tally t qs rn rd sn sd) (regions : List Region) (p addr bytes : Nat) :
    Tally (t.postSend regions p addr bytes).1 qs rn rd
      (fun x => sn x + only p (t.postSend regions p addr bytes).2 x) sd := by
  unfold Verbs.postSend
  split
  · refine ⟨h.recv, fun x => ?_, h.fifo⟩
    have := h.send x
    have := length_update_append t.sendq p 1 [.inline] rfl x
    simp only [Verbs.unreaped] at *
    omega
  · simp only
    rw [resolve_eq]
    refine ⟨h.recv, fun x => ?_, h.fifo⟩
    have := h.send x
    have := length_update_append t.sendq p (segments bytes) (List.replicate (segments bytes)
      (t.resolve regions addr bytes).2) List.length_replicate x
    simp only [Verbs.unreaped] at *
    omega

theorem Tally.postRecv (h : Tally t qs rn rd sn sd) (regions : List Region) (p addr bytes : Nat) :
    Tally (t.postRecv regions p addr bytes).1 qs (fun x => rn x + only p (segments bytes) x) rd sn
      sd := by
  unfold Verbs.postRecv
  simp only
  rw [resolve_eq]
  refine ⟨fun x => ?_, h.send, h.fifo⟩
  have := h.recv x
  have := length_update_append t.recvq p (segments bytes) (List.replicate (segments bytes)
    (t.resolve regions addr bytes).2) List.length_replicate x
  simp only [Verbs.unreaped] at *
  omega

theorem preFifo_append (qs : List RecvReq) (q : RecvReq) (p : Nat) :
    preFifo (qs ++ [q]) p = preFifo qs p ++ if q.peer = p then [segments q.bytes] else [] := by
  unfold preFifo
  rw [List.filter_append, List.map_append]
  by_cases h : q.peer = p <;> simp [h]

theorem preLoad_append (qs : List RecvReq) (q : RecvReq) (p : Nat) :
    preLoad (qs ++ [q]) p = preLoad qs p + only q.peer (segments q.bytes) p := by
  unfold preLoad only
  rw [preFifo_append, List.sum_append]
  by_cases h : q.peer = p
  · rw [if_pos h, if_pos h.symm, List.sum_singleton]
  · rw [if_neg h, if_neg fun h' => h h'.symm, List.sum_nil]

theorem Tally.prePost (h : Tally t qs rn rd sn sd) (loc : Ptr → Nat) (regions : List Region)
    {q : RecvReq} (hq : q.bytes ≠ 0) :
    Tally (t.prePost loc regions q) (qs ++ [q]) rn rd sn sd := by
  have hp := h.postRecv regions q.peer (loc q.buf) q.bytes
  unfold Verbs.prePost
  rw [if_neg hq]
  refine ⟨fun x => ?_, hp.send, fun x => ?_⟩
  · have := hp.recv x
    rw [preLoad_append]
    simp only [Verbs.unreaped] at *
    omega
  · rw [preFifo_append]
    simp only
    by_cases hx : x = q.peer
    · subst hx
      rw [Function.update_self, if_pos rfl, hp.fifo]
      rfl
    · rw [Function.update_of_ne hx, if_neg fun h => hx h.symm, hp.fifo, List.append_nil]

theorem Tally.postRecvs (loc : Ptr → Nat) (regions : List Region) : ∀ (reqs : List RecvReq)
    {t : Verbs} {qs : List RecvReq}, Tally t qs rn rd sn sd →
    Tally (t.postRecvs loc regions reqs) (qs ++ nonEmpty reqs) rn rd sn sd
  | [], t, qs, h => by rwa [nonEmpty, List.filter_nil, List.append_nil]
  | q :: reqs, t, qs, h => by
    show Tally ((t.prePost loc regions q).postRecvs loc regions reqs) _ rn rd sn sd
    by_cases hq : q.bytes = 0
    · have hskip : t.prePost loc regions q = t := if_pos hq
      rw [hskip, show nonEmpty (q :: reqs) = nonEmpty reqs by simp [nonEmpty, hq]]
      exact Tally.postRecvs loc regions reqs h
    · have hcons : qs ++ nonEmpty (q :: reqs) = qs ++ [q] ++ nonEmpty reqs := by
        simp [nonEmpty, hq]
      rw [hcons]
      exact Tally.postRecvs loc regions reqs (h.prePost loc regions hq)

theorem preFifo_cons (q : RecvReq) (qs : List RecvReq) (p : Nat) :
    preFifo (q :: qs) p = if q.peer = p then segments q.bytes :: preFifo qs p else preFifo qs p := by
  unfold preFifo
  by_cases h : q.peer = p <;> simp [h]

theorem preLoad_cons (q : RecvReq) (qs : List RecvReq) (p : Nat) :
    preLoad (q :: qs) p = only q.peer (segments q.bytes) p + preLoad qs p := by
  unfold preLoad only
  rw [preFifo_cons]
  by_cases h : q.peer = p
  · rw [if_pos h, if_pos h.symm, List.sum_cons]
  · rw [if_neg h, if_neg fun h' => h h'.symm, Nat.zero_add]

/-- What a receive claims: the oldest pre-posted one, or a new one when there is none. -/
theorem Tally.claimRecv (h : Tally t qs rn rd sn sd) {qs' : List RecvReq} (regions : List Region)
    (addr : Nat) (hb : bytes ≠ 0) (hc : claimed p bytes qs = some qs') :
    Tally (t.claimRecv regions p addr bytes).1 qs'
      (fun x => rn x + only p (t.claimRecv regions p addr bytes).2 x) rd sn sd ∧
    ∀ x, preLoad qs' x + only p (t.claimRecv regions p addr bytes).2 x ≤
      max (preLoad qs x) (segments bytes) := by
  unfold claimed at hc
  rw [if_neg hb] at hc
  cases qs with
  | nil =>
    obtain rfl := Option.some.inj hc
    have hf : t.prePostedRecv p = [] := h.fifo p
    unfold Verbs.claimRecv
    rw [hf]
    refine ⟨h.postRecv regions p addr bytes, fun x => ?_⟩
    have h0 : preLoad [] x = 0 := rfl
    rw [h0, Nat.zero_add]
    simp only [Verbs.postRecv, only]
    split
    · exact Nat.le_max_right _ _
    · exact Nat.zero_le _
  | cons q qs =>
    simp only at hc
    by_cases hp : q.peer = p
    · rw [if_pos hp] at hc
      obtain rfl := Option.some.inj hc
      have hf : t.prePostedRecv p = segments q.bytes :: preFifo qs p := by
        rw [h.fifo, preFifo_cons, if_pos hp]
      unfold Verbs.claimRecv
      rw [hf]
      refine ⟨⟨fun x => ?_, h.send, fun x => ?_⟩, fun x => ?_⟩
      · have := h.recv x
        rw [preLoad_cons, hp] at this
        simp only [Verbs.unreaped] at *
        omega
      · simp only
        by_cases hx : x = p
        · rw [hx, Function.update_self]
        · rw [Function.update_of_ne hx, h.fifo, preFifo_cons,
            if_neg fun h' => hx (h'.symm.trans hp)]
      · rw [preLoad_cons, hp]
        simp only
        omega
    · rw [if_neg hp] at hc
      cases hc

theorem Tally.takeRecvSurplus {want : Nat} (h : Tally t qs (only p want) rd sn sd) :
    Tally (t.takeRecvSurplus p want).1 qs (only p (t.takeRecvSurplus p want).2) rd sn sd := by
  refine ⟨fun x => ?_, h.send, h.fifo⟩
  have := h.recv x
  simp only [Verbs.takeRecvSurplus, Verbs.unreaped, only] at *
  by_cases hx : x = p
  · subst hx
    rw [Function.update_self]
    simp only [if_true] at *
    omega
  · rw [Function.update_of_ne hx]
    simp only [if_neg hx] at *
    omega

/-- A finished loop: what it counted beyond its need is credited. -/
theorem Tally.giveRecvSurplus {need done : Nat} (h : Tally t qs (only p need) (only p done) sn sd)
    (hle : need ≤ done) :
    Tally (t.giveRecvSurplus p (done - need)) qs (fun _ => 0) (fun _ => 0) sn sd := by
  refine ⟨fun x => ?_, h.send, h.fifo⟩
  have := h.recv x
  simp only [Verbs.giveRecvSurplus, Verbs.unreaped, only] at *
  by_cases hx : x = p
  · subst hx
    rw [Function.update_self]
    simp only [if_true] at *
    omega
  · rw [Function.update_of_ne hx]
    simp only [if_neg hx] at *
    omega

theorem Tally.drainCompleted (h : Tally t qs rn rd sn sd) : Tally t.drainCompleted qs rn rd sn sd :=
  ⟨h.recv, h.send, h.fifo⟩

/-- A poll counts what it reaps; either count may be dropped. -/
theorem Tally.pollOnce (h : Tally t qs rn rd sn sd) {s r : Nat}
    (hp : t.pollOnce p = .ok (t', s, r)) :
    Tally t' qs rn (fun x => rd x + only p r x) sn fun x => sd x + only p s x := by
  obtain ⟨rfl, rfl, rfl⟩ := pollOnce_eq_ok hp
  have hsplit : ∀ recv, (t.cq p).countP (fun w => w.isRecv = recv) =
      ((t.cq p).take 16).countP (fun w => w.isRecv = recv) +
        ((t.cq p).drop 16).countP (fun w => w.isRecv = recv) := fun recv => by
    rw [← List.countP_append, List.take_append_drop]
  refine ⟨fun x => ?_, fun x => ?_, h.fifo⟩
  · have := h.recv x
    have := hsplit true
    simp only [Verbs.unreaped, only] at *
    by_cases hx : x = p
    · subst hx
      rw [Function.update_self, if_pos rfl]
      simp only [Bool.decide_eq_true] at *
      omega
    · rw [Function.update_of_ne hx, if_neg hx]
      omega
  · have := h.send x
    have := hsplit false
    simp only [Verbs.unreaped, only] at *
    by_cases hx : x = p
    · subst hx
      rw [Function.update_self, if_pos rfl]
      simp only [Bool.decide_eq_false] at *
      omega
    · rw [Function.update_of_ne hx, if_neg hx]
      omega

theorem only_le (peer k x : Nat) : only peer k x ≤ k := by
  unfold only
  split
  · exact Nat.le_refl k
  · exact Nat.zero_le k

theorem only_add (p a b x : Nat) : only p (a + b) x = only p a x + only p b x := by
  unfold only
  split <;> rfl

theorem only_zero (peer x : Nat) : only peer 0 x = 0 := by
  unfold only
  split <;> rfl

theorem postedSum_cons (f : Posted → Nat) (e : Posted) (es : List Posted) (p : Nat) :
    postedSum f (e :: es) p = only e.peer (f e) p + postedSum f es p := by
  unfold postedSum only
  by_cases h : e.peer = p
  · simp [h]
  · simp [h, show ¬ p = e.peer from fun h' => h h'.symm]

/-- The entry of an operation whose peer is new to the wave. -/
def Posted.fresh (peer : Nat) (isSend : Bool) (k : Nat) : Posted :=
  if isSend then ⟨peer, k, 0, 0, 0⟩ else ⟨peer, 0, k, 0, 0⟩

/-- An entry with one more operation. -/
def Posted.grow (isSend : Bool) (k : Nat) (e : Posted) : Posted :=
  if isSend then { e with sends := e.sends + k } else { e with recvs := e.recvs + k }

theorem postedSum_addPosted {f : Posted → Nat} {peer k d : Nat} {isSend : Bool}
    (hnew : f (Posted.fresh peer isSend k) = d) (hgrow : ∀ e, f (e.grow isSend k) = f e + d)
    (p : Nat) : ∀ es : List Posted,
    postedSum f (addPosted peer isSend k es) p = postedSum f es p + only peer d p
  | [] => by
    show postedSum f [Posted.fresh peer isSend k] p = _
    rw [postedSum_cons, hnew]
    have hpeer : (Posted.fresh peer isSend k).peer = peer := by
      unfold Posted.fresh
      split <;> rfl
    rw [hpeer, Nat.add_comm]
  | e :: es => by
    unfold addPosted
    split
    · rename_i hp
      show postedSum f (e.grow isSend k :: es) p = _
      have hpeer : (e.grow isSend k).peer = e.peer := by
        unfold Posted.grow
        split <;> rfl
      rw [postedSum_cons, postedSum_cons, hgrow, hpeer, ← hp]
      unfold only
      split <;> omega
    · split
      · show postedSum f (Posted.fresh peer isSend k :: e :: es) p = _
        have hpeer : (Posted.fresh peer isSend k).peer = peer := by
          unfold Posted.fresh
          split <;> rfl
        rw [postedSum_cons, hnew, hpeer, Nat.add_comm]
      · rw [postedSum_cons, postedSum_cons, postedSum_addPosted hnew hgrow p es, Nat.add_assoc]

theorem postedSum_addSend (p k : Nat) (es : List Posted) (x : Nat) :
    postedSum Posted.sends (addPosted p true k es) x = postedSum Posted.sends es x + only p k x ∧
      postedSum Posted.recvs (addPosted p true k es) x = postedSum Posted.recvs es x ∧
      postedSum Posted.sendDone (addPosted p true k es) x = postedSum Posted.sendDone es x ∧
      postedSum Posted.recvDone (addPosted p true k es) x = postedSum Posted.recvDone es x := by
  refine ⟨postedSum_addPosted rfl (fun _ => rfl) x es, ?_, ?_, ?_⟩
  · exact (postedSum_addPosted (d := 0) rfl (fun _ => rfl) x es).trans (by rw [only_zero]; rfl)
  · exact (postedSum_addPosted (d := 0) rfl (fun _ => rfl) x es).trans (by rw [only_zero]; rfl)
  · exact (postedSum_addPosted (d := 0) rfl (fun _ => rfl) x es).trans (by rw [only_zero]; rfl)

theorem postedSum_addRecv (p k : Nat) (es : List Posted) (x : Nat) :
    postedSum Posted.sends (addPosted p false k es) x = postedSum Posted.sends es x ∧
      postedSum Posted.recvs (addPosted p false k es) x = postedSum Posted.recvs es x + only p k x ∧
      postedSum Posted.sendDone (addPosted p false k es) x = postedSum Posted.sendDone es x ∧
      postedSum Posted.recvDone (addPosted p false k es) x = postedSum Posted.recvDone es x := by
  refine ⟨?_, postedSum_addPosted rfl (fun _ => rfl) x es, ?_, ?_⟩
  · exact (postedSum_addPosted (d := 0) rfl (fun _ => rfl) x es).trans (by rw [only_zero]; rfl)
  · exact (postedSum_addPosted (d := 0) rfl (fun _ => rfl) x es).trans (by rw [only_zero]; rfl)
  · exact (postedSum_addPosted (d := 0) rfl (fun _ => rfl) x es).trans (by rw [only_zero]; rfl)

/-- The work requests of one direction with one peer. -/
def waveLoad (isSend : Bool) (p : Nat) (ops : List P2pOp) : Nat :=
  ((sizesWith isSend p ops).map segments).sum

theorem waveLoad_cons (isSend : Bool) (p : Nat) (op : P2pOp) (ops : List P2pOp) :
    waveLoad isSend p (op :: ops) =
      (if op.isSend = isSend ∧ op.bytes ≠ 0 then only op.peer (segments op.bytes) p else 0) +
        waveLoad isSend p ops := by
  unfold waveLoad sizesWith only
  rw [List.filter_cons]
  by_cases hd : op.isSend = isSend ∧ op.bytes ≠ 0
  · rw [if_pos hd]
    by_cases hp : op.peer = p
    · simp [hd, hp]
    · simp [hd, hp, show ¬ p = op.peer from fun h => hp h.symm]
  · rw [if_neg hd, if_neg fun h => hd (by simp at h; exact ⟨h.1, h.2.2⟩), Nat.zero_add]

/-- The tally of a wave at work. -/
def WaveTally (t : Verbs) (qs : List RecvReq) (posted : List Posted) : Prop :=
  Tally t qs (postedSum Posted.recvs posted) (postedSum Posted.recvDone posted)
    (postedSum Posted.sends posted) (postedSum Posted.sendDone posted)

/-- Posting one operation of a wave. -/
theorem WaveTally.send {posted : List Posted} (h : WaveTally t qs posted) (regions : List Region)
    (p addr bytes : Nat) :
    WaveTally (t.postSend regions p addr bytes).1 qs
      (addPosted p true (t.postSend regions p addr bytes).2 posted) := by
  refine (h.postSend regions p addr bytes).mono (fun x => ?_) fun x => ?_
  all_goals
    obtain ⟨h1, h2, h3, h4⟩ := postedSum_addSend p (t.postSend regions p addr bytes).2 posted x
    omega

theorem WaveTally.recv {posted : List Posted} (h : WaveTally t qs posted) (regions : List Region)
    (p addr bytes : Nat) :
    WaveTally (t.postRecv regions p addr bytes).1 qs
      (addPosted p false (segments bytes) posted) := by
  refine (h.postRecv regions p addr bytes).mono (fun x => ?_) fun x => ?_
  all_goals
    obtain ⟨h1, h2, h3, h4⟩ := postedSum_addRecv p (segments bytes) posted x
    omega

theorem only_mono {k k' : Nat} (h : k ≤ k') (p x : Nat) : only p k x ≤ only p k' x := by
  unfold only
  split
  · exact h
  · exact Nat.le_refl 0

/-- Posting a wave: all of it is counted, and no more than its work requests. -/
theorem WaveTally.wave (loc : Ptr → Nat) (regions : List Region) : ∀ (ops : List P2pOp) {t : Verbs}
    {posted : List Posted}, WaveTally t qs posted →
    let r := postWave loc regions (t, posted) ops
    WaveTally r.1 qs r.2 ∧ ∀ p,
      postedSum Posted.recvs r.2 p ≤ postedSum Posted.recvs posted p + waveLoad false p ops ∧
        postedSum Posted.sends r.2 p ≤ postedSum Posted.sends posted p + waveLoad true p ops
  | [], t, posted, h => ⟨h, fun p => ⟨Nat.le_add_right _ _, Nat.le_add_right _ _⟩⟩
  | op :: ops, t, posted, h => by
    unfold postWave
    by_cases hb : op.bytes = 0
    · rw [if_pos hb]
      obtain ⟨h1, h2⟩ := WaveTally.wave loc regions ops h
      refine ⟨h1, fun p => ?_⟩
      rw [waveLoad_cons, waveLoad_cons, if_neg fun h => h.2 hb, if_neg fun h => h.2 hb]
      simpa only [Nat.zero_add] using h2 p
    · rw [if_neg hb]
      cases hd : op.isSend with
      | true =>
        simp only [if_true]
        obtain ⟨h1, h2⟩ :=
          WaveTally.wave loc regions ops (h.send regions op.peer (loc op.buf) op.bytes)
        refine ⟨h1, fun p => ?_⟩
        obtain ⟨hs, hr, -, -⟩ := postedSum_addSend op.peer
          (t.postSend regions op.peer (loc op.buf) op.bytes).2 posted p
        have hle := only_mono (postSend_le t regions op.peer (loc op.buf) hb) op.peer p
        have hp := h2 p
        rw [waveLoad_cons, waveLoad_cons, hd, if_neg fun h => Bool.noConfusion h.1,
          if_pos ⟨rfl, hb⟩]
        omega
      | false =>
        simp only [Bool.false_eq_true, if_false]
        obtain ⟨h1, h2⟩ :=
          WaveTally.wave loc regions ops (h.recv regions op.peer (loc op.buf) op.bytes)
        refine ⟨h1, fun p => ?_⟩
        obtain ⟨hs, hr, -, -⟩ := postedSum_addRecv op.peer (segments op.bytes) posted p
        have hp := h2 p
        rw [waveLoad_cons, waveLoad_cons, hd, if_pos ⟨rfl, hb⟩,
          if_neg fun h => Bool.noConfusion h.1]
        simp only [Verbs.postRecv] at hp ⊢
        omega

theorem pollPosted_cons {e : Posted} {es : List Posted} {es' : List Posted}
    (h : pollPosted t (e :: es) = .ok (t', es')) :
    (∃ t₁ s r es₁, t.pollOnce e.peer = .ok (t₁, s, r) ∧ pollPosted t₁ es = .ok (t', es₁) ∧
      es' = { e with sendDone := e.sendDone + s, recvDone := e.recvDone + r } :: es₁) ∨
    (¬ e.missing ∧ ∃ es₁, pollPosted t es = .ok (t', es₁) ∧ es' = e :: es₁) := by
  unfold pollPosted at h
  by_cases hm : e.missing
  · rw [if_pos hm] at h
    obtain ⟨⟨t₁, s, r⟩, hpoll, h⟩ := bind_eq_ok h
    obtain ⟨⟨t₂, es₁⟩, hes, h⟩ := bind_eq_ok h
    obtain ⟨rfl, rfl⟩ := Prod.mk.inj (Except.ok.inj h)
    exact .inl ⟨t₁, s, r, es₁, hpoll, hes, rfl⟩
  · rw [if_neg hm] at h
    obtain ⟨⟨t₂, es₁⟩, hes, h⟩ := bind_eq_ok h
    obtain ⟨rfl, rfl⟩ := Prod.mk.inj (Except.ok.inj h)
    exact .inr ⟨hm, es₁, hes, rfl⟩

/-- An iteration of `batch` counts what it reaps at the peers it polls; `rd` and `sd` are the counts
of the peers before those at hand. -/
theorem Tally.pollPosted : ∀ {es es' : List Posted} {t t' : Verbs} {rd sd : Nat → Nat},
    Tally t qs rn (fun x => rd x + postedSum Posted.recvDone es x) sn
      (fun x => sd x + postedSum Posted.sendDone es x) →
    pollPosted t es = .ok (t', es') →
    Tally t' qs rn (fun x => rd x + postedSum Posted.recvDone es' x) sn
      (fun x => sd x + postedSum Posted.sendDone es' x) ∧
      ∀ x, postedSum Posted.recvs es' x = postedSum Posted.recvs es x ∧
        postedSum Posted.sends es' x = postedSum Posted.sends es x
  | [], es', t, t', rd, sd, h, hp => by
    obtain ⟨rfl, rfl⟩ := Prod.mk.inj (Except.ok.inj hp)
    exact ⟨h, fun x => ⟨rfl, rfl⟩⟩
  | e :: es, es', t, t', rd, sd, h, hp => by
    obtain ⟨t₁, s, r, es₁, hpoll, hes, rfl⟩ | ⟨-, es₁, hes, rfl⟩ := pollPosted_cons hp
    · have h₁ : Tally t₁ qs rn
          (fun x => (rd x + only e.peer (e.recvDone + r) x) + postedSum Posted.recvDone es x) sn
          (fun x => (sd x + only e.peer (e.sendDone + s) x) + postedSum Posted.sendDone es x) := by
        refine (h.pollOnce hpoll).mono (fun x => ?_) fun x => ?_
        all_goals
          rw [postedSum_cons, only_add]
          omega
      obtain ⟨h₂, h₃⟩ := Tally.pollPosted h₁ hes
      refine ⟨h₂.mono (fun x => ?_) fun x => ?_, fun x => ?_⟩
      · rw [postedSum_cons]
        dsimp only
        omega
      · rw [postedSum_cons]
        dsimp only
        omega
      · rw [postedSum_cons, postedSum_cons, postedSum_cons, postedSum_cons, (h₃ x).1, (h₃ x).2]
        exact ⟨rfl, rfl⟩
    · have h₁ : Tally t qs rn
          (fun x => (rd x + only e.peer e.recvDone x) + postedSum Posted.recvDone es x) sn
          (fun x => (sd x + only e.peer e.sendDone x) + postedSum Posted.sendDone es x) := by
        refine h.mono (fun x => ?_) fun x => ?_
        all_goals
          rw [postedSum_cons]
          omega
      obtain ⟨h₂, h₃⟩ := Tally.pollPosted h₁ hes
      refine ⟨h₂.mono (fun x => ?_) fun x => ?_, fun x => ?_⟩
      · rw [postedSum_cons]
        omega
      · rw [postedSum_cons]
        omega
      · rw [postedSum_cons, postedSum_cons, postedSum_cons, postedSum_cons, (h₃ x).1, (h₃ x).2]
        exact ⟨rfl, rfl⟩

/-- An iteration keeps the count. -/
theorem Counted.body {w w' : Wait} {o : Obs} (h : Counted t (some w) qs)
    (hb : w.body o t = .ok (t', w')) :
    Counted t' (some w') qs ∧ w'.recvNeed = w.recvNeed ∧ w'.sendNeed = w.sendNeed := by
  cases w with
  | pollPeer peer sendWrs recvNeed sendDone recvDone =>
    obtain ⟨s, r, hp, -, rfl⟩ := body_pollPeer hb
    refine ⟨(Tally.pollOnce h hp).mono (fun x => ?_) fun x => ?_, rfl, rfl⟩
    all_goals
      simp only [ofWait, Option.elim, Wait.recvNeed, Wait.recvDone, Wait.sendNeed, Wait.sendDone, only]
      split <;> omega
  | sendRecv sendPeer recvPeer sendWrs recvNeed sendDone recvDone =>
    obtain ⟨t₁, s, r, hs, hr, rfl⟩ := body_sendRecv hb
    refine ⟨?_, rfl, rfl⟩
    have h₁ : Tally t₁ qs (only recvPeer recvNeed) (only recvPeer recvDone) (only sendPeer sendWrs)
        (only sendPeer (sendDone + s)) := by
      obtain ⟨-, r', hp⟩ | ⟨-, rfl, rfl⟩ := pollSends_eq_ok hs
      · refine (Tally.pollOnce h hp).mono (fun x => ?_) fun x => ?_
        all_goals
          simp only [ofWait, Option.elim, Wait.recvNeed, Wait.recvDone, Wait.sendNeed,
            Wait.sendDone, only]
          split <;> omega
      · exact h
    have h₂ : Tally t' qs (only recvPeer recvNeed) (only recvPeer (recvDone + r))
        (only sendPeer sendWrs) (only sendPeer (sendDone + s)) := by
      obtain ⟨-, s', hp⟩ | ⟨-, rfl, rfl⟩ := pollRecvs_eq_ok hr
      · refine (h₁.pollOnce hp).mono (fun x => ?_) fun x => ?_
        all_goals
          simp only [only_add]
          omega
      · exact h₁
    exact h₂
  | batch pending posted later =>
    obtain ⟨posted', hp, -, rfl⟩ := body_batch hb
    have h₀ : Tally t qs (postedSum Posted.recvs posted)
        (fun x => 0 + postedSum Posted.recvDone posted x) (postedSum Posted.sends posted)
        (fun x => 0 + postedSum Posted.sendDone posted x) := by
      have hw : WaveTally t qs posted := h
      exact hw.mono (fun x => by omega) fun x => by omega
    obtain ⟨h₁, h₂⟩ := h₀.pollPosted hp
    have hr : postedSum Posted.recvs posted' = postedSum Posted.recvs posted :=
      funext fun x => (h₂ x).1
    have hs : postedSum Posted.sends posted' = postedSum Posted.sends posted :=
      funext fun x => (h₂ x).2
    refine ⟨?_, hr, hs⟩
    show Tally t' qs (postedSum Posted.recvs posted') (postedSum Posted.recvDone posted')
      (postedSum Posted.sends posted') (postedSum Posted.sendDone posted')
    rw [hr, hs]
    simpa only [Nat.zero_add] using h₁

/-- A batch runs with nothing pre-posted, and its flag tells the truth once it is clear. -/
def Wait.Honest (qs : List RecvReq) : Wait → Prop
  | .batch pending posted _ => qs = [] ∧ (pending = false → ∀ e ∈ posted, ¬ e.missing)
  | _ => True

theorem honest_body {w w' : Wait} {o : Obs} (hw : w.Honest qs) (hb : w.body o t = .ok (t', w')) :
    w'.Honest qs := by
  cases w with
  | pollPeer peer sendWrs recvNeed sendDone recvDone =>
    obtain ⟨s, r, -, -, rfl⟩ := body_pollPeer hb
    trivial
  | sendRecv sendPeer recvPeer sendWrs recvNeed sendDone recvDone =>
    obtain ⟨t₁, s, r, -, -, rfl⟩ := body_sendRecv hb
    trivial
  | batch pending posted later =>
    obtain ⟨posted', -, -, rfl⟩ := body_batch hb
    exact ⟨hw.1, fun hf e he hm => (decide_eq_false_iff_not.mp hf) ⟨e, he, hm⟩⟩

theorem postedSum_le {f g : Posted → Nat} (p : Nat) : ∀ {es : List Posted},
    (∀ e ∈ es, f e ≤ g e) → postedSum f es p ≤ postedSum g es p
  | [], _ => Nat.le_refl 0
  | e :: es, h => by
    rw [postedSum_cons, postedSum_cons]
    exact Nat.add_le_add (only_mono (h e List.mem_cons_self) _ _)
      (postedSum_le p fun e' he => h e' (List.mem_cons_of_mem e he))

/-- A wave of a batch is posted. -/
theorem Counted.startWaves (h : Counted t none []) (loc : Ptr → Nat) (regions : List Region) :
    ∀ waves : List (List P2pOp),
    Counted (startWaves t loc regions waves).1 (startWaves t loc regions waves).2 [] ∧
      ∀ w, (startWaves t loc regions waves).2 = some w → w.Honest []
  | [] => ⟨h, fun w hw => by cases hw⟩
  | wave :: later => by
    have h₀ : WaveTally t [] [] := h
    refine ⟨(h₀.wave loc regions wave).1, fun w hw => ?_⟩
    obtain rfl := Option.some.inj hw
    exact ⟨rfl, fun hf => by cases hf⟩

/-- A loop that is done owes nothing. -/
theorem Counted.settled {w : Wait} (h : Counted t (some w) qs) (hw : w.Honest qs)
    (hl : ¬ w.looping) : Counted t none qs := by
  have hdone : ∀ x, w.recvNeed x ≤ w.recvDone x ∧ w.sendNeed x ≤ w.sendDone x := by
    intro x
    cases w with
    | pollPeer peer sendWrs recvNeed sendDone recvDone =>
      obtain ⟨hs, hr⟩ := not_or.mp hl
      exact ⟨only_mono (Nat.not_lt.mp hr) peer x, only_mono (Nat.not_lt.mp hs) peer x⟩
    | sendRecv sendPeer recvPeer sendWrs recvNeed sendDone recvDone =>
      obtain ⟨hs, hr⟩ := not_or.mp hl
      exact ⟨only_mono (Nat.not_lt.mp hr) recvPeer x, only_mono (Nat.not_lt.mp hs) sendPeer x⟩
    | batch pending posted later =>
      have hdone := hw.2 (Bool.eq_false_iff.mpr hl)
      exact ⟨postedSum_le x fun e he => Nat.not_lt.mp fun h => hdone e he (.inr h),
        postedSum_le x fun e he => Nat.not_lt.mp fun h => hdone e he (.inl h)⟩
  refine Tally.mono h (fun x => ?_) fun x => ?_
  · have := (hdone x).1
    simp only [ofWait, Option.elim]
    omega
  · have := (hdone x).2
    simp only [ofWait, Option.elim]
    omega

/-- What a loop that is done leaves behind. -/
theorem Counted.finish {w : Wait} (h : Counted t (some w) qs) (hw : w.Honest qs)
    (hl : ¬ w.looping) (loc : Ptr → Nat) (regions : List Region) :
    Counted (w.finish t loc regions).1 (w.finish t loc regions).2 qs ∧
      ∀ w', (w.finish t loc regions).2 = some w' → w'.Honest qs := by
  cases w with
  | pollPeer peer sendWrs recvNeed sendDone recvDone =>
    obtain ⟨hs, hr⟩ := not_or.mp hl
    have h₁ : Tally t qs (only peer recvNeed) (only peer recvDone) (only peer sendWrs)
      (only peer sendDone) := h
    refine ⟨(h₁.giveRecvSurplus (Nat.not_lt.mp hr)).drainCompleted.mono (fun x => ?_) fun x => ?_,
      fun w' hw' => by cases hw'⟩
    · exact Nat.le_refl _
    · have := only_mono (Nat.not_lt.mp hs) peer x
      simp only [Wait.finish, ofWait, Option.elim]
      omega
  | sendRecv sendPeer recvPeer sendWrs recvNeed sendDone recvDone =>
    obtain ⟨hs, hr⟩ := not_or.mp hl
    have h₁ : Tally t qs (only recvPeer recvNeed) (only recvPeer recvDone) (only sendPeer sendWrs)
      (only sendPeer sendDone) := h
    refine ⟨(h₁.giveRecvSurplus (Nat.not_lt.mp hr)).drainCompleted.mono (fun x => ?_) fun x => ?_,
      fun w' hw' => by cases hw'⟩
    · exact Nat.le_refl _
    · have := only_mono (Nat.not_lt.mp hs) sendPeer x
      simp only [Wait.finish, ofWait, Option.elim]
      omega
  | batch pending posted later =>
    have hc := h.settled hw hl
    obtain ⟨rfl, -⟩ := hw
    exact Counted.startWaves (Tally.drainCompleted hc) loc regions later

end Tallies

/-! ## The depth of a queue -/

/-- Every wave is within the depth of a queue, at every peer and in either direction. -/
def WavesFit (waves : List (List P2pOp)) : Prop :=
  ∀ wave ∈ waves, ∀ d p, waveLoad d p wave ≤ kQueueDepth

/-- The waves a loop has still to post. -/
def Wait.later : Wait → List (List P2pOp)
  | .batch _ _ later => later
  | _ => []

/-- The pre-posted receives and the loop at work are within the depth of a queue. -/
structure Room (qs : List RecvReq) (w : Option Wait) : Prop where
  recv : ∀ p, preLoad qs p + ofWait Wait.recvNeed w p ≤ kQueueDepth
  send : ∀ p, ofWait Wait.sendNeed w p ≤ kQueueDepth
  later : ∀ w', w = some w' → WavesFit w'.later

/-- Every message of a task is within the depth of a queue, and so are the receives a `postRecvs`
posts for one peer. -/
def Task.Fits : Task → Prop
  | .call (.send _ _ bytes) | .call (.recv _ _ bytes) => segments bytes ≤ kQueueDepth
  | .call (.sendRecv _ _ sbytes _ _ rbytes) =>
    segments sbytes ≤ kQueueDepth ∧ segments rbytes ≤ kQueueDepth
  | .call (.postRecvs reqs) => ∀ p, preLoad (nonEmpty reqs) p ≤ kQueueDepth
  | .batch ops => ∀ op ∈ ops, segments op.bytes ≤ kQueueDepth
  | _ => True

/-- The cut of a batch: a wave is filled as long as there is room. -/
theorem waveLoad_take : ∀ (ops : List P2pOp) (counts : Bool → Nat → Nat),
    (∀ d p, counts d p ≤ kQueueDepth) → ∀ d p,
    counts d p + waveLoad d p (ops.take (waveLen counts ops)) ≤ kQueueDepth
  | [], counts, h, d, p => h d p
  | op :: ops, counts, h, d, p => by
    unfold waveLen
    split
    · rename_i hb
      rw [List.take_succ_cons, waveLoad_cons, if_neg fun h => h.2 hb, Nat.zero_add]
      exact waveLoad_take ops counts h d p
    · rename_i hb
      split
      · exact h d p
      · rename_i hfit
        have ih := waveLoad_take ops (fun d p => if d = op.isSend ∧ p = op.peer
          then counts d p + segments op.bytes else counts d p) (fun d p => by
            split
            · rename_i heq
              obtain ⟨rfl, rfl⟩ := heq
              omega
            · exact h d p) d p
        rw [List.take_succ_cons, waveLoad_cons]
        unfold only
        by_cases hd : d = op.isSend
        · by_cases hp : p = op.peer
          · rw [if_pos ⟨hd, hp⟩] at ih
            rw [if_pos ⟨hd.symm, hb⟩, if_pos hp]
            omega
          · rw [if_neg fun h => hp h.2] at ih
            rw [if_pos ⟨hd.symm, hb⟩, if_neg hp]
            omega
        · rw [if_neg fun h => hd h.1] at ih
          rw [if_neg fun h => hd h.1.symm]
          omega

/-- A wave takes the first operation when it fits by itself. -/
theorem waveLen_pos {op : P2pOp} {ops : List P2pOp} (h : segments op.bytes ≤ kQueueDepth) :
    1 ≤ waveLen (fun _ _ => 0) (op :: ops) := by
  unfold waveLen
  split
  · omega
  · rw [if_neg (by omega)]
    omega

theorem wavesFit_cut : ∀ (fuel : Nat) {ops : List P2pOp},
    (∀ op ∈ ops, segments op.bytes ≤ kQueueDepth) → WavesFit (cutWaves fuel ops)
  | 0, ops, _ => fun wave hw => absurd hw (by simp [cutWaves])
  | fuel + 1, [], _ => fun wave hw => absurd hw (by simp [cutWaves])
  | fuel + 1, op :: ops, h => by
    intro wave hw d p
    unfold cutWaves at hw
    rcases List.mem_cons.mp hw with rfl | hw
    · rw [Nat.max_eq_right (waveLen_pos (h op List.mem_cons_self))]
      simpa only [Nat.zero_add] using
        waveLoad_take (op :: ops) (fun _ _ => 0) (fun _ _ => Nat.zero_le _) d p
    · exact wavesFit_cut fuel (fun op' hop => h op' (List.mem_of_mem_drop hop)) wave hw d p

theorem later_body {t t' : Verbs} {w w' : Wait} {o : Obs} (hb : w.body o t = .ok (t', w')) :
    w'.later = w.later := by
  cases w with
  | pollPeer peer sendWrs recvNeed sendDone recvDone =>
    obtain ⟨s, r, -, -, rfl⟩ := body_pollPeer hb
    rfl
  | sendRecv sendPeer recvPeer sendWrs recvNeed sendDone recvDone =>
    obtain ⟨t₁, s, r, -, -, rfl⟩ := body_sendRecv hb
    rfl
  | batch pending posted later =>
    obtain ⟨posted', -, -, rfl⟩ := body_batch hb
    rfl

section Start

variable {t : Verbs} {qs qs' : List RecvReq} {loc : Ptr → Nat} {regions : List Region}

/-- What the start of a call does: the count goes on, and a call that fits stays within the depth of
the queues. -/
structure Started (qs qs' : List RecvReq) (fits : Prop) (r : Verbs × Option Wait) : Prop where
  counted : Counted r.1 r.2 qs'
  honest : ∀ w, r.2 = some w → w.Honest qs'
  room : fits → (∀ p, preLoad qs p ≤ kQueueDepth) → Room qs' r.2

theorem started_none (h : Counted t none qs) (fits : Prop) : Started qs qs fits (t, none) where
  counted := h
  honest _ hw := nomatch hw
  room _ hq := ⟨hq, fun _ => Nat.zero_le _, fun _ hw => nomatch hw⟩

/-- The loops on one and on two peers. -/
theorem started_loop {w : Wait} {fits : Prop} {rp sp need wrs : Nat}
    (hw : w = .sendRecv sp rp wrs need 0 0 ∨ sp = rp ∧ w = .pollPeer sp wrs need 0 0)
    (h : Tally t qs' (only rp need) (fun _ => 0) (only sp wrs) fun _ => 0)
    (hr : fits → (∀ p, preLoad qs p ≤ kQueueDepth) → ∀ p, preLoad qs' p + only rp need p ≤ kQueueDepth)
    (hs : fits → wrs ≤ kQueueDepth) : Started qs qs' fits (t, some w) := by
  have hloop : w.recvNeed = only rp need ∧ w.recvDone = only rp 0 ∧ w.sendNeed = only sp wrs ∧
      w.sendDone = only sp 0 ∧ w.Honest qs' ∧ w.later = [] := by
    obtain rfl | ⟨rfl, rfl⟩ := hw
    · exact ⟨rfl, rfl, rfl, rfl, trivial, rfl⟩
    · exact ⟨rfl, rfl, rfl, rfl, trivial, rfl⟩
  obtain ⟨h1, h2, h3, h4, h5, h6⟩ := hloop
  refine ⟨h.mono (fun x => ?_) fun x => ?_, fun w' hw' => ?_, fun hf hq => ⟨fun p => ?_, fun p => ?_,
    fun w' hw' => ?_⟩⟩
  · simp only [ofWait, Option.elim, h1, h2, only_zero]
    exact Nat.le_refl _
  · simp only [ofWait, Option.elim, h3, h4, only_zero]
    exact Nat.le_refl _
  · rw [← Option.some.inj hw']
    exact h5
  · simp only [ofWait, Option.elim, h1]
    exact hr hf hq p
  · simp only [ofWait, Option.elim, h3]
    exact Nat.le_trans (only_le sp wrs p) (hs hf)
  · rw [← Option.some.inj hw', h6]
    exact fun wave hwave => absurd hwave List.not_mem_nil

/-- The receiving half of a call. -/
theorem Counted.recvHalf (h : Counted t none qs) (regions : List Region) (addr : Nat)
    {peer bytes : Nat} (hc : claimed peer bytes qs = some qs') :
    let r := if bytes = 0 then (t, 0) else t.claimRecv regions peer addr bytes
    Tally r.1 qs' (only peer r.2) (fun _ => 0) (fun _ => 0) (fun _ => 0) ∧
      ∀ x, preLoad qs' x + only peer r.2 x ≤ max (preLoad qs x) (segments bytes) := by
  intro r
  by_cases hb : bytes = 0
  · obtain rfl := claimed_zero hb hc
    have hr : r = (t, 0) := if_pos hb
    rw [hr]
    refine ⟨Tally.mono h (fun x => ?_) fun x => ?_, fun x => ?_⟩
    · exact Nat.zero_le _
    · exact Nat.le_refl _
    · rw [only_zero]
      exact Nat.le_max_left _ _
  · have hr : r = t.claimRecv regions peer addr bytes := if_neg hb
    obtain ⟨h1, h2⟩ := Tally.claimRecv h regions addr hb hc
    rw [hr]
    refine ⟨h1.mono (fun x => ?_) fun x => ?_, h2⟩
    · simp only [ofWait, Option.elim]
      omega
    · exact Nat.le_refl _

/-- The sending half of a call. -/
theorem Tally.sendHalf {rn rd : Nat → Nat} (h : Tally t qs rn rd (fun _ => 0) fun _ => 0)
    (regions : List Region) (peer addr bytes : Nat) :
    let s := if bytes = 0 then (t, 0) else t.postSend regions peer addr bytes
    Tally s.1 qs rn rd (only peer s.2) (fun _ => 0) ∧ s.2 ≤ segments bytes := by
  intro s
  by_cases hb : bytes = 0
  · have hs : s = (t, 0) := if_pos hb
    rw [hs]
    exact ⟨h.mono (fun x => Nat.le_refl _) fun x => Nat.zero_le _, Nat.zero_le _⟩
  · have hs : s = t.postSend regions peer addr bytes := if_neg hb
    rw [hs]
    refine ⟨(h.postSend regions peer addr bytes).mono (fun x => Nat.le_refl _) fun x => ?_,
      postSend_le t regions peer addr hb⟩
    omega

theorem started_send (h : Counted t none qs) (peer : Nat) (buf : Ptr) (bytes : Nat) :
    Started qs qs (segments bytes ≤ kQueueDepth)
      ((VerbsOp.send peer buf bytes).start t loc regions) := by
  show Started _ _ _ (if bytes = 0 then _ else _)
  by_cases hb : bytes = 0
  · rw [if_pos hb]
    exact started_none h _
  · rw [if_neg hb]
    obtain ⟨h1, h2⟩ := Tally.sendHalf h regions peer (loc buf) bytes
    rw [if_neg hb] at h1 h2
    refine started_loop (.inr ⟨rfl, rfl⟩) (h1.mono (fun x => ?_) fun x => ?_) (fun _ hq p => ?_)
      fun hf => Nat.le_trans h2 hf
    · exact Nat.zero_le _
    · exact Nat.le_refl _
    · rw [only_zero]
      exact hq p

theorem takeRecvSurplus_le (t : Verbs) (peer want : Nat) :
    (t.takeRecvSurplus peer want).2 ≤ want := Nat.sub_le _ _

theorem started_recv (h : Counted t none qs) (peer : Nat) (buf : Ptr) (bytes : Nat)
    (hc : claimed peer bytes qs = some qs') :
    Started qs qs' (segments bytes ≤ kQueueDepth)
      ((VerbsOp.recv peer buf bytes).start t loc regions) := by
  show Started _ _ _ (if bytes = 0 then _ else _)
  by_cases hb : bytes = 0
  · rw [if_pos hb]
    obtain rfl := claimed_zero hb hc
    exact started_none h _
  · rw [if_neg hb]
    obtain ⟨h1, h2⟩ := h.recvHalf regions (loc buf) hc
    rw [if_neg hb] at h1 h2
    refine started_loop (.inr ⟨rfl, rfl⟩)
      (h1.takeRecvSurplus.mono (fun x => Nat.le_refl _) fun x => Nat.zero_le _)
      (fun hf hq p => ?_) fun hf => Nat.zero_le _
    have := h2 p
    have := hq p
    have := only_mono (takeRecvSurplus_le (t.claimRecv regions peer (loc buf) bytes).1 peer
      (t.claimRecv regions peer (loc buf) bytes).2) peer p
    omega

theorem started_sendRecv (h : Counted t none qs) (sendPeer : Nat) (sbuf : Ptr)
    (sbytes recvPeer : Nat) (rbuf : Ptr) (rbytes : Nat) (hc : claimed recvPeer rbytes qs = some qs') :
    Started qs qs' (segments sbytes ≤ kQueueDepth ∧ segments rbytes ≤ kQueueDepth)
      ((VerbsOp.sendRecv sendPeer sbuf sbytes recvPeer rbuf rbytes).start t loc regions) := by
  obtain ⟨h1, h2⟩ := h.recvHalf regions (loc rbuf) hc
  simp only [VerbsOp.start]
  generalize (if rbytes = 0 then (t, 0) else t.claimRecv regions recvPeer (loc rbuf) rbytes) = r
    at h1 h2 ⊢
  obtain ⟨h3, h4⟩ := h1.sendHalf regions sendPeer (loc sbuf) sbytes
  generalize (if sbytes = 0 then (r.1, 0) else r.1.postSend regions sendPeer (loc sbuf) sbytes) = s
    at h3 h4 ⊢
  have h5 := h3.takeRecvSurplus
  have hroom : segments sbytes ≤ kQueueDepth ∧ segments rbytes ≤ kQueueDepth →
      (∀ p, preLoad qs p ≤ kQueueDepth) →
      ∀ p, preLoad qs' p + only recvPeer (s.1.takeRecvSurplus recvPeer r.2).2 p ≤ kQueueDepth := by
    intro hf hq p
    have := h2 p
    have := hq p
    have := only_mono (takeRecvSurplus_le s.1 recvPeer r.2) recvPeer p
    omega
  have hsend : segments sbytes ≤ kQueueDepth ∧ segments rbytes ≤ kQueueDepth → s.2 ≤ kQueueDepth :=
    fun hf => Nat.le_trans h4 hf.1
  by_cases hp : sendPeer = recvPeer
  · rw [if_pos hp]
    exact started_loop (.inr ⟨hp, rfl⟩) h5 hroom hsend
  · rw [if_neg hp]
    exact started_loop (.inl rfl) h5 hroom hsend

theorem started_waves (h : Counted t none []) {waves : List (List P2pOp)} {fits : Prop}
    (hw : fits → WavesFit waves) : Started [] [] fits (startWaves t loc regions waves) := by
  obtain ⟨h1, h2⟩ := Counted.startWaves h loc regions waves
  refine ⟨h1, h2, fun hf _ => ?_⟩
  cases waves with
  | nil => exact ⟨fun _ => Nat.zero_le _, fun _ => Nat.zero_le _, fun _ hw => nomatch hw⟩
  | cons wave later =>
    have h₀ : WaveTally t [] [] := h
    have hload := (h₀.wave loc regions wave).2
    have hfit := hw hf wave List.mem_cons_self
    refine ⟨fun p => ?_, fun p => ?_, fun w hw' => ?_⟩
    · exact Nat.le_trans (Nat.le_of_eq (Nat.zero_add _))
        (Nat.le_trans (hload p).1 (Nat.le_trans (Nat.le_of_eq (Nat.zero_add _)) (hfit false p)))
    · exact Nat.le_trans (hload p).2 (Nat.le_trans (Nat.le_of_eq (Nat.zero_add _)) (hfit true p))
    · rw [← Option.some.inj hw']
      exact fun wave' hm => hw hf wave' (List.mem_cons_of_mem wave hm)

theorem started_postRecvs (h : Counted t none []) (reqs : List RecvReq) :
    Started [] (nonEmpty reqs) (∀ p, preLoad (nonEmpty reqs) p ≤ kQueueDepth)
      ((VerbsOp.postRecvs reqs).start t loc regions) where
  counted := Tally.postRecvs loc regions reqs h
  honest _ hw := nomatch hw
  room hf _ := ⟨hf, fun _ => Nat.zero_le _, fun _ hw => nomatch hw⟩

/-- The end of a loop leaves room. -/
theorem Room.finish {w : Wait} (hr : Room qs (some w)) (hw : w.Honest qs)
    (h : Counted t (some w) qs) (hl : ¬ w.looping) :
    Room qs (w.finish t loc regions).2 := by
  have hnone : Room qs none :=
    ⟨fun p => Nat.le_trans (Nat.add_le_add_left (Nat.zero_le _) _) (hr.recv p),
      fun _ => Nat.zero_le _, fun _ hw => nomatch hw⟩
  cases w with
  | pollPeer => exact hnone
  | sendRecv => exact hnone
  | batch pending posted later =>
    have hc := h.settled hw hl
    obtain ⟨rfl, -⟩ := hw
    exact (started_waves (Tally.drainCompleted hc) fun hf => hf).room (hr.later _ rfl)
      fun _ => Nat.zero_le _

/-- **The start of a task.** -/
theorem started {task : Task} {op : VerbsOp} (h : Counted t none qs) (loc : Ptr → Nat)
    (regions : List Region) (hv : task.verbs = some op)
    (ha : task.after qs = some qs') : Started qs qs' task.Fits (op.start t loc regions) := by
  cases task with
  | reg r => cases hv
  | batch ops =>
    obtain rfl := Option.some.inj hv
    obtain ⟨rfl, rfl⟩ := quiet_after ha
    exact started_waves h fun hf => wavesFit_cut _ hf
  | call c =>
    cases c with
    | send peer buf bytes =>
      obtain rfl := Option.some.inj hv
      obtain rfl := Option.some.inj ha
      exact started_send h peer buf bytes
    | recv peer buf bytes =>
      obtain rfl := Option.some.inj hv
      exact started_recv h peer buf bytes ha
    | sendRecv sp sb sn rp rb rn =>
      obtain rfl := Option.some.inj hv
      exact started_sendRecv h sp sb sn rp rb rn ha
    | postRecvs reqs =>
      obtain rfl := Option.some.inj hv
      obtain ⟨rfl, rfl⟩ := quiet_after ha
      exact started_postRecvs h reqs
    | _ => cases hv

end Start

/-! ## Runs -/

section Runs

variable {cap : Nat} {user : Nat → Nat} {s s' : VRank} {qs : List RecvReq}

/-- The invariant of a run, with `qs` pre-posted and not claimed. -/
structure Orderly (s : VRank) (qs : List RecvReq) : Prop where
  counted : Counted s.tr s.wait qs
  honest : ∀ w, s.wait = some w → w.Honest qs
  after : tasksAfter qs s.code = some []

theorem Orderly.next {task : Task} {rest : List Task} (h : Orderly s qs)
    (hc : s.code = task :: rest) : ∃ qs', task.after qs = some qs' ∧ tasksAfter qs' rest = some [] := by
  have ha := h.after
  rw [hc] at ha
  exact Option.bind_eq_some_iff.mp ha

theorem unreaped_update (t : Verbs) (p : Nat) (c : Wc) (recv : Bool) (x : Nat) (sq rq : Nat → List Mr) :
    Verbs.unreaped { t with sendq := sq, recvq := rq, cq := Function.update t.cq p (t.cq p ++ [c]) }
      recv x = t.unreaped recv x + only p (if c.isRecv = recv then 1 else 0) x := by
  unfold Verbs.unreaped only
  by_cases hx : x = p
  · subst hx
    simp only [Function.update_self, List.countP_append, List.countP_singleton, if_true,
      decide_eq_true_eq]
  · simp only [Function.update_of_ne hx, if_neg hx, Nat.add_zero]

/-- The NIC completes a send. -/
theorem Tally.sent {t : Verbs} {rn rd sn sd : Nat → Nat} (h : Tally t qs rn rd sn sd) {p : Nat}
    {mr : Mr} {q : List Mr} (hq : t.sendq p = mr :: q) :
    Tally { t with
      sendq := Function.update t.sendq p q,
      cq := Function.update t.cq p (t.cq p ++ [⟨false, true⟩]) } qs rn rd sn sd := by
  refine ⟨fun x => ?_, fun x => ?_, h.fifo⟩
  · have := h.recv x
    rw [unreaped_update t p ⟨false, true⟩ true x]
    rw [if_neg (by decide), only_zero]
    exact this
  · have := h.send x
    rw [unreaped_update t p ⟨false, true⟩ false x, if_pos rfl]
    unfold only
    by_cases hx : x = p
    · subst hx
      rw [hq, List.length_cons] at this
      simp only [Function.update_self, if_true]
      omega
    · simp only [Function.update_of_ne hx, if_neg hx]
      omega

/-- The NIC completes a receive. -/
theorem Tally.received {t : Verbs} {rn rd sn sd : Nat → Nat} (h : Tally t qs rn rd sn sd) {p : Nat}
    {mr : Mr} {q : List Mr} (hq : t.recvq p = mr :: q) :
    Tally { t with
      recvq := Function.update t.recvq p q,
      cq := Function.update t.cq p (t.cq p ++ [⟨true, true⟩]) } qs rn rd sn sd := by
  refine ⟨fun x => ?_, fun x => ?_, h.fifo⟩
  · have := h.recv x
    rw [unreaped_update t p ⟨true, true⟩ true x, if_pos rfl]
    unfold only
    by_cases hx : x = p
    · subst hx
      rw [hq, List.length_cons] at this
      simp only [Function.update_self, if_true]
      omega
    · simp only [Function.update_of_ne hx, if_neg hx]
      omega
  · have := h.send x
    rw [unreaped_update t p ⟨true, true⟩ false x]
    rw [if_neg (by decide), only_zero]
    exact this

/-- A local call leaves the pre-posted receives alone. -/
theorem after_local {task : Task} {qs' : List RecvReq} (hl : task.isLocal = true)
    (ha : task.after qs = some qs') : qs' = qs := by
  cases task with
  | reg op => cases hl
  | batch ops => cases hl
  | call c =>
    cases c with
    | memcpy | cpuReduce | cpuScale | cpuScaleCopy | cpuScaledAccumulate =>
      exact (Option.some.inj ha).symm
    | _ => cases hl

/-- Registrations change only while nothing is pre-posted. -/
theorem after_book {reg : Registry} {task : Task} {op : RegOp} {qs' : List RecvReq}
    (hb : Books user reg task op) (ha : task.after qs = some qs') : qs = [] ∧ qs' = [] := by
  cases hb with
  | reg | add | scratchAt => exact quiet_after ha

theorem Orderly.compute {task : Task} {rest : List Task} (h : Orderly s qs)
    (hc : s.code = task :: rest) (hl : task.isLocal = true) :
    Orderly { s with code := rest } qs := by
  obtain ⟨qs', ha, hrest⟩ := h.next hc
  obtain rfl := after_local hl ha
  exact ⟨h.counted, h.honest, hrest⟩

theorem Orderly.book {task : Task} {rest : List Task} {op : RegOp} (h : Orderly s qs) (cap : Nat)
    (hc : s.code = task :: rest) (hb : Books user s.reg task op) :
    qs = [] ∧ Orderly { s with reg := regStep cap s.reg op, code := rest } [] := by
  obtain ⟨qs', ha, hrest⟩ := h.next hc
  obtain ⟨rfl, rfl⟩ := after_book hb ha
  exact ⟨rfl, h.counted, h.honest, hrest⟩

theorem Orderly.quiet (h : Orderly s qs) (hw : s.wait = none) : Counted s.tr none qs := by
  have hq := h.counted
  rwa [hw] at hq

theorem Orderly.waiting {w : Wait} (h : Orderly s qs) (hw : s.wait = some w) :
    Counted s.tr (some w) qs := by
  have hq := h.counted
  rwa [hw] at hq

theorem Orderly.post {task : Task} {rest : List Task} {op : VerbsOp} {qs' : List RecvReq}
    (h : Orderly s qs) (hw : s.wait = none) (hc : s.code = task :: rest)
    (hv : task.verbs = some op) (ha : task.after qs = some qs') :
    Orderly { s with
      tr := (op.start s.tr (s.reg.loc user) s.reg.regions).1,
      wait := (op.start s.tr (s.reg.loc user) s.reg.regions).2, code := rest } qs' := by
  obtain ⟨qs₁, ha₁, hrest⟩ := h.next hc
  obtain rfl := Option.some.inj (ha₁.symm.trans ha)
  have hst := started (h.quiet hw) (s.reg.loc user) s.reg.regions hv ha
  exact ⟨hst.counted, hst.honest, hrest⟩

theorem Orderly.poll {w w' : Wait} {t' : Verbs} {o : Obs} (h : Orderly s qs)
    (hw : s.wait = some w) (hb : w.body o s.tr = .ok (t', w')) :
    Orderly { s with tr := t', wait := some w' } qs :=
  ⟨((h.waiting hw).body hb).1, fun w₁ hw₁ => by
    rw [← Option.some.inj hw₁]
    exact honest_body (h.honest w hw) hb, h.after⟩

theorem Orderly.finish {w : Wait} (h : Orderly s qs) (hw : s.wait = some w) (hl : ¬ w.looping) :
    Orderly { s with
      tr := (w.finish s.tr (s.reg.loc user) s.reg.regions).1,
      wait := (w.finish s.tr (s.reg.loc user) s.reg.regions).2 } qs := by
  obtain ⟨h1, h2⟩ := (h.waiting hw).finish (h.honest w hw) hl (s.reg.loc user) s.reg.regions
  exact ⟨h1, h2, h.after⟩

/-- An iteration of a loop leaves the room as it is. -/
theorem Room.poll {w w' : Wait} {t t' : Verbs} {o : Obs} (hr : Room qs (some w))
    (h : Counted t (some w) qs) (hb : w.body o t = .ok (t', w')) : Room qs (some w') := by
  obtain ⟨-, h2, h3⟩ := h.body hb
  refine ⟨fun p => ?_, fun p => ?_, fun w₁ hw₁ => ?_⟩
  · have := hr.recv p
    simp only [ofWait, Option.elim, h2] at this ⊢
    exact this
  · have := hr.send p
    simp only [ofWait, Option.elim, h3] at this ⊢
    exact this
  · rw [← Option.some.inj hw₁, later_body hb]
    exact hr.later w rfl

/-- **One step keeps the count, and the room in the queues.** -/
theorem Orderly.step (h : Orderly s qs) (hstep : RStep cap user s s') :
    ∃ qs', Orderly s' qs' ∧ (∀ task ∈ s'.code, task ∈ s.code) ∧
      (Room qs s.wait → (∀ task ∈ s.code, task.Fits) → Room qs' s'.wait) := by
  have hrest : ∀ {task : Task} {rest : List Task}, s.code = task :: rest →
      ∀ x ∈ rest, x ∈ s.code := fun hc x hx => hc ▸ List.mem_cons_of_mem _ hx
  cases hstep with
  | sent p hq =>
    exact ⟨qs, ⟨Tally.sent h.counted hq, h.honest, h.after⟩, fun _ hm => hm, fun hr _ => hr⟩
  | received p hq =>
    exact ⟨qs, ⟨Tally.received h.counted hq, h.honest, h.after⟩, fun _ hm => hm, fun hr _ => hr⟩
  | compute hw hc hl => exact ⟨qs, h.compute hc hl, hrest hc, fun hr _ => hr⟩
  | book hw hc hb =>
    obtain ⟨rfl, h'⟩ := h.book cap hc hb
    exact ⟨[], h', hrest hc, fun hr _ => hr⟩
  | @post task rest op hw hc hv =>
    obtain ⟨qs', ha, -⟩ := h.next hc
    refine ⟨qs', h.post hw hc hv ha, hrest hc, fun hr hf => ?_⟩
    refine (started (h.quiet hw) (s.reg.loc user) s.reg.regions hv ha).room (hf task (hc ▸ List.mem_cons_self)) fun p => ?_
    exact Nat.le_trans (Nat.le_add_right _ _) (hr.recv p)
  | poll o hw hl hb =>
    refine ⟨qs, h.poll hw hb, fun _ hm => hm, fun hr _ => ?_⟩
    rw [hw] at hr
    exact hr.poll (h.waiting hw) hb
  | @finish w hw hl =>
    refine ⟨qs, h.finish hw hl, fun _ hm => hm, fun hr _ => ?_⟩
    rw [hw] at hr
    exact hr.finish (h.honest w hw) (h.waiting hw) hl

/-- The states of a rank that starts in `s₀`. -/
inductive RReach (cap : Nat) (user : Nat → Nat) (s₀ : VRank) : VRank → Prop
  | refl : RReach cap user s₀ s₀
  | step {s s' : VRank} : RReach cap user s₀ s → RStep cap user s s' → RReach cap user s₀ s'

/-- Runs keep the count, and the room in the queues when every task fits. -/
theorem Orderly.run {s₀ : VRank} (h : Orderly s₀ qs) (hrun : RReach cap user s₀ s) :
    ∃ qs', Orderly s qs' ∧ (∀ task ∈ s.code, task ∈ s₀.code) ∧
      (Room qs s₀.wait → (∀ task ∈ s₀.code, task.Fits) → Room qs' s.wait) := by
  induction hrun with
  | refl => exact ⟨qs, h, fun _ hm => hm, fun hr _ => hr⟩
  | step _ hstep ih =>
    obtain ⟨qs₁, h₁, hc₁, hr₁⟩ := ih
    obtain ⟨qs₂, h₂, hc₂, hr₂⟩ := h₁.step hstep
    exact ⟨qs₂, h₂, fun task hm => hc₁ task (hc₂ task hm),
      fun hr hf => hr₂ (hr₁ hr hf) fun task hm => hf task (hc₁ task hm)⟩

theorem orderly_init (reg : Registry) (maxInline : Nat → Nat) {code : List Task}
    (h : tasksAfter [] code = some []) : Orderly ⟨reg, .init maxInline, code, none⟩ [] where
  counted := ⟨fun _ => Nat.le_refl 0, fun _ => Nat.le_refl 0, fun _ => rfl⟩
  honest _ hw := nomatch hw
  after := h

end Runs

end Vccl
