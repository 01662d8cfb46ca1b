import Vccl.Batch
import Vccl.Collectives
import Vccl.Comm
import Vccl.MrCache

/-!
# The verbs transport of one rank (`verbs.cc`)

`Verbs` is the state of a `VerbsTransport` that its control flow depends on: for every peer the work
requests posted and not completed on either queue of its QP, the completions on its queue that no
poll has reaped, the counts of pre-posted receives not consumed yet (`prePostedRecv_`) and of reaped
ones nobody has waited for (`recvSurplus_`); and the temporary MRs. A work request carries the MR it
was posted with. The NIC completes the requests of a queue in order.

An operation posts its work requests (`VerbsOp.start`) and then waits in one of three loops:

* `pollPeer`, on one completion queue, for `send`, `recv` and a `sendRecv` with one peer;
* the loop in `sendRecv` for two peers, which polls both queues;
* the loop in `batch`, over all peers of a wave.

`Wait` is the state of such a loop and `Wait.body` one iteration; what it observes besides the
queues (the aborted flag, a fatal asynchronous event, the deadline) is an argument. Two of the loops
look at the aborted flag in every iteration. The one for two peers does not.
-/

namespace Vccl

/-- The MR of a work request; an inline send needs none. -/
inductive Mr where
  | region (handle : Nat)
  | temp (k : Nat)
  | inline
  deriving DecidableEq, Repr

/-- A work completion: `opcode & IBV_WC_RECV`, and `status == IBV_WC_SUCCESS`. -/
structure Wc where
  isRecv : Bool
  ok : Bool
  deriving DecidableEq, Repr

/-- `VerbsTransport`, as far as its control flow goes. -/
structure Verbs where
  maxInline : Nat → Nat
  sendq : Nat → List Mr
  recvq : Nat → List Mr
  cq : Nat → List Wc
  tempMrs : List Nat
  /-- Temporary MRs made so far. -/
  temps : Nat
  prePostedRecv : Nat → List Nat
  recvSurplus : Nat → Nat

namespace Verbs

/-- A transport with nothing posted. -/
def init (maxInline : Nat → Nat) : Verbs :=
  ⟨maxInline, fun _ => [], fun _ => [], fun _ => [], [], 0, fun _ => [], fun _ => 0⟩

/-! ## Posting -/

/-- `resolve`: the first region that covers the range, or a temporary MR. -/
def resolve (t : Verbs) (regions : List Region) (addr bytes : Nat) : Verbs × Mr :=
  match regions.find? fun r => r.covers addr bytes with
  | some r => (t, .region r.birth)
  | none => ({ t with tempMrs := t.tempMrs ++ [t.temps], temps := t.temps + 1 }, .temp t.temps)

/-- `postSend`, with the number of work requests. -/
def postSend (t : Verbs) (regions : List Region) (peer addr bytes : Nat) : Verbs × Nat :=
  if bytes ≤ t.maxInline peer then
    ({ t with sendq := Function.update t.sendq peer (t.sendq peer ++ [.inline]) }, 1)
  else
    let r := t.resolve regions addr bytes
    ({ r.1 with
      sendq := Function.update t.sendq peer
        (t.sendq peer ++ List.replicate (segments bytes) r.2) }, segments bytes)

/-- `postRecv`, with the number of work requests. -/
def postRecv (t : Verbs) (regions : List Region) (peer addr bytes : Nat) : Verbs × Nat :=
  let r := t.resolve regions addr bytes
  ({ r.1 with
    recvq := Function.update t.recvq peer
      (t.recvq peer ++ List.replicate (segments bytes) r.2) }, segments bytes)

/-- An iteration of `postRecvs`. -/
def prePost (loc : Ptr → Nat) (regions : List Region) (t : Verbs) (q : RecvReq) : Verbs :=
  if q.bytes = 0 then t
  else
    let r := t.postRecv regions q.peer (loc q.buf) q.bytes
    { r.1 with
      prePostedRecv := Function.update r.1.prePostedRecv q.peer
        (r.1.prePostedRecv q.peer ++ [r.2]) }

/-- `postRecvs`. -/
def postRecvs (t : Verbs) (loc : Ptr → Nat) (regions : List Region) (reqs : List RecvReq) : Verbs :=
  reqs.foldl (prePost loc regions) t

/-- The receiving half of `recv` and `sendRecv`: the oldest pre-posted receive from the peer, or a
new one. -/
def claimRecv (t : Verbs) (regions : List Region) (peer addr bytes : Nat) : Verbs × Nat :=
  match t.prePostedRecv peer with
  | wrs :: rest => ({ t with prePostedRecv := Function.update t.prePostedRecv peer rest }, wrs)
  | [] => t.postRecv regions peer addr bytes

/-- `takeRecvSurplus`. -/
def takeRecvSurplus (t : Verbs) (peer want : Nat) : Verbs × Nat :=
  let use := min want (t.recvSurplus peer)
  ({ t with recvSurplus := Function.update t.recvSurplus peer (t.recvSurplus peer - use) },
    want - use)

/-- Credit of what a wait reaped beyond its need. -/
def giveRecvSurplus (t : Verbs) (peer extra : Nat) : Verbs :=
  { t with recvSurplus := Function.update t.recvSurplus peer (t.recvSurplus peer + extra) }

/-- `drainCompleted`. -/
def drainCompleted (t : Verbs) : Verbs := { t with tempMrs := [] }

/-! ## Completions -/

/-- `pollOnce`: up to 16 completions, counted by direction. A caller that passes `nullptr` for a
count drops those completions. -/
def pollOnce (t : Verbs) (peer : Nat) : Except Result (Verbs × Nat × Nat) :=
  let wc := (t.cq peer).take 16
  let t := { t with cq := Function.update t.cq peer ((t.cq peer).drop 16) }
  if wc.all Wc.ok then
    .ok (t, wc.countP fun w => !w.isRecv, wc.countP fun w => w.isRecv)
  else .error .remoteError

end Verbs

/-! ## The wait loops -/

/-- What an iteration sees besides the queues: `isAborted()`, `drainAsyncFatal()` and
`deadline.expired()`. -/
structure Obs where
  aborted : Bool
  fatal : Bool
  expired : Bool
  deriving DecidableEq, Repr

/-- A peer in the loop of `batch`: what was posted to it and what is done. -/
structure Posted where
  peer : Nat
  sends : Nat
  recvs : Nat
  sendDone : Nat
  recvDone : Nat
  deriving DecidableEq, Repr

/-- Completions of the peer are missing. -/
def Posted.missing (e : Posted) : Prop := e.sendDone < e.sends ∨ e.recvDone < e.recvs

instance (e : Posted) : Decidable e.missing := inferInstanceAs (Decidable (_ ∨ _))

/-- The state of a wait loop. -/
inductive Wait where
  | pollPeer (peer sendWrs recvNeed sendDone recvDone : Nat)
  | sendRecv (sendPeer recvPeer sendWrs recvNeed sendDone recvDone : Nat)
  | batch (pending : Bool) (posted : List Posted) (later : List (List P2pOp))
  deriving DecidableEq, Repr

/-- The condition of the loop. `batch` sets `pending` at its start and then as long as a completion
is missing. -/
def Wait.looping : Wait → Prop
  | .pollPeer _ sendWrs recvNeed sendDone recvDone
  | .sendRecv _ _ sendWrs recvNeed sendDone recvDone => sendDone < sendWrs ∨ recvDone < recvNeed
  | .batch pending _ _ => pending = true

/-- Leave the loop with an error. -/
def stopIf (cond : Bool) (res : Result) : Except Result Unit := if cond then .error res else .ok ()

/-- The inner loop of `batch`. -/
def pollPosted (t : Verbs) : List Posted → Except Result (Verbs × List Posted)
  | [] => .ok (t, [])
  | e :: es =>
    if e.missing then do
      let (t, s, r) ← t.pollOnce e.peer
      let (t, es) ← pollPosted t es
      return (t, { e with sendDone := e.sendDone + s, recvDone := e.recvDone + r } :: es)
    else do
      let (t, es) ← pollPosted t es
      return (t, e :: es)

/-- `pollOnce(peer, &sendDone, nullptr)` while sends are missing: receive completions on the queue
are dropped. -/
def pollSends (t : Verbs) (peer sendWrs sendDone : Nat) : Except Result (Verbs × Nat) :=
  if sendDone < sendWrs then (t.pollOnce peer).map fun x => (x.1, x.2.1) else .ok (t, 0)

/-- `pollOnce(peer, nullptr, &recvDone)` while receives are missing. -/
def pollRecvs (t : Verbs) (peer recvNeed recvDone : Nat) : Except Result (Verbs × Nat) :=
  if recvDone < recvNeed then (t.pollOnce peer).map fun x => (x.1, x.2.2) else .ok (t, 0)

/-- One iteration of the wait loop. -/
def Wait.body (o : Obs) (t : Verbs) : Wait → Except Result (Verbs × Wait)
  | .pollPeer peer sendWrs recvNeed sendDone recvDone => do
    let (t, s, r) ← t.pollOnce peer
    stopIf o.aborted .systemError
    stopIf o.fatal .remoteError
    stopIf o.expired .systemError
    return (t, .pollPeer peer sendWrs recvNeed (sendDone + s) (recvDone + r))
  | .sendRecv sendPeer recvPeer sendWrs recvNeed sendDone recvDone => do
    let (t, s) ← pollSends t sendPeer sendWrs sendDone
    let (t, r) ← pollRecvs t recvPeer recvNeed recvDone
    stopIf o.fatal .remoteError
    stopIf o.expired .systemError
    return (t, .sendRecv sendPeer recvPeer sendWrs recvNeed (sendDone + s) (recvDone + r))
  | .batch _ posted later => do
    let (t, posted) ← pollPosted t posted
    let pending := decide (∃ e ∈ posted, e.missing)
    stopIf o.aborted .systemError
    stopIf o.fatal .remoteError
    stopIf (pending && o.expired) .systemError
    return (t, .batch pending posted later)

/-! ## Operations -/

/-- A call of the transport. -/
inductive VerbsOp where
  | send (peer : Nat) (buf : Ptr) (bytes : Nat)
  | recv (peer : Nat) (buf : Ptr) (bytes : Nat)
  | sendRecv (sendPeer : Nat) (sbuf : Ptr) (sbytes recvPeer : Nat) (rbuf : Ptr) (rbytes : Nat)
  | batch (ops : List P2pOp)
  | postRecvs (reqs : List RecvReq)
  deriving DecidableEq, Repr

/-- The count of an operation in the table of the wave. -/
def addPosted (peer : Nat) (isSend : Bool) (wrs : Nat) : List Posted → List Posted
  | [] => [if isSend then ⟨peer, wrs, 0, 0, 0⟩ else ⟨peer, 0, wrs, 0, 0⟩]
  | e :: es =>
    if peer = e.peer then
      (if isSend then { e with sends := e.sends + wrs } else { e with recvs := e.recvs + wrs }) :: es
    else if peer < e.peer then
      (if isSend then ⟨peer, wrs, 0, 0, 0⟩ else ⟨peer, 0, wrs, 0, 0⟩) :: e :: es
    else e :: addPosted peer isSend wrs es

/-- Post a wave of a batch. -/
def postWave (loc : Ptr → Nat) (regions : List Region) :
    Verbs × List Posted → List P2pOp → Verbs × List Posted
  | acc, [] => acc
  | (t, posted), op :: ops =>
    if op.bytes = 0 then postWave loc regions (t, posted) ops
    else
      let r := if op.isSend then t.postSend regions op.peer (loc op.buf) op.bytes
        else t.postRecv regions op.peer (loc op.buf) op.bytes
      postWave loc regions (r.1, addPosted op.peer op.isSend r.2 posted) ops

/-- The waves that are left: post the next one and wait for it. -/
def startWaves (t : Verbs) (loc : Ptr → Nat) (regions : List Region) :
    List (List P2pOp) → Verbs × Option Wait
  | [] => (t, none)
  | wave :: later =>
    let r := postWave loc regions (t, []) wave
    (r.1, some (.batch true r.2 later))

/-- Everything an operation does before its wait loop; no loop when it returns at once. -/
def VerbsOp.start (t : Verbs) (loc : Ptr → Nat) (regions : List Region) :
    VerbsOp → Verbs × Option Wait
  | .send peer buf bytes =>
    if bytes = 0 then (t, none)
    else
      let s := t.postSend regions peer (loc buf) bytes
      (s.1, some (.pollPeer peer s.2 0 0 0))
  | .recv peer buf bytes =>
    if bytes = 0 then (t, none)
    else
      let r := t.claimRecv regions peer (loc buf) bytes
      let need := r.1.takeRecvSurplus peer r.2
      (need.1, some (.pollPeer peer 0 need.2 0 0))
  | .sendRecv sendPeer sbuf sbytes recvPeer rbuf rbytes =>
    let r := if rbytes = 0 then (t, 0) else t.claimRecv regions recvPeer (loc rbuf) rbytes
    let s := if sbytes = 0 then (r.1, 0) else r.1.postSend regions sendPeer (loc sbuf) sbytes
    let need := s.1.takeRecvSurplus recvPeer r.2
    if sendPeer = recvPeer then (need.1, some (.pollPeer sendPeer s.2 need.2 0 0))
    else (need.1, some (.sendRecv sendPeer recvPeer s.2 need.2 0 0))
  | .batch ops => startWaves t loc regions (waves ops)
  | .postRecvs reqs => (t.postRecvs loc regions reqs, none)

/-- What follows a wait loop that has all its completions: the credit, `drainCompleted`, and the
next wave of a batch. -/
def Wait.finish (t : Verbs) (loc : Ptr → Nat) (regions : List Region) : Wait → Verbs × Option Wait
  | .pollPeer peer _ recvNeed _ recvDone =>
    ((t.giveRecvSurplus peer (recvDone - recvNeed)).drainCompleted, none)
  | .sendRecv _ recvPeer _ recvNeed _ recvDone =>
    ((t.giveRecvSurplus recvPeer (recvDone - recvNeed)).drainCompleted, none)
  | .batch _ _ later => startWaves t.drainCompleted loc regions later

/-! ## What an iteration can do -/

section Inversion

variable {t t' : Verbs} {o : Obs}

theorem stopIf_eq_ok {cond : Bool} {res : Result} {u : Unit} :
    stopIf cond res = .ok u ↔ cond = false := by
  cases cond with
  | false => exact ⟨fun _ => rfl, fun _ => rfl⟩
  | true => exact ⟨fun h => (by cases h), fun h => (by cases h)⟩

theorem pollOnce_eq_ok {peer s r : Nat} (h : t.pollOnce peer = .ok (t', s, r)) :
    t' = { t with cq := Function.update t.cq peer ((t.cq peer).drop 16) } ∧
      s = ((t.cq peer).take 16).countP (fun w => !w.isRecv) ∧
      r = ((t.cq peer).take 16).countP fun w => w.isRecv := by
  unfold Verbs.pollOnce at h
  simp only at h
  split at h
  · cases h
    exact ⟨rfl, rfl, rfl⟩
  · cases h

theorem body_pollPeer {peer sendWrs recvNeed sendDone recvDone : Nat} {w' : Wait}
    (h : (Wait.pollPeer peer sendWrs recvNeed sendDone recvDone).body o t = .ok (t', w')) :
    ∃ s r, t.pollOnce peer = .ok (t', s, r) ∧ o.aborted = false ∧
      w' = .pollPeer peer sendWrs recvNeed (sendDone + s) (recvDone + r) := by
  obtain ⟨⟨t₁, s, r⟩, hpoll, h⟩ := bind_eq_ok h
  obtain ⟨_, ha, h⟩ := bind_eq_ok h
  obtain ⟨_, -, h⟩ := bind_eq_ok h
  obtain ⟨_, -, h⟩ := bind_eq_ok h
  obtain ⟨rfl, rfl⟩ := Prod.mk.inj (Except.ok.inj h)
  exact ⟨s, r, hpoll, stopIf_eq_ok.mp ha, rfl⟩

theorem pollSends_eq_ok {peer sendWrs sendDone s : Nat}
    (h : pollSends t peer sendWrs sendDone = .ok (t', s)) :
    (sendDone < sendWrs ∧ ∃ r, t.pollOnce peer = .ok (t', s, r)) ∨
      (¬ sendDone < sendWrs ∧ t' = t ∧ s = 0) := by
  unfold pollSends at h
  by_cases hlt : sendDone < sendWrs
  · rw [if_pos hlt] at h
    cases hp : t.pollOnce peer with
    | error e => rw [hp] at h; cases h
    | ok x => rw [hp] at h; cases h; exact .inl ⟨hlt, _, rfl⟩
  · rw [if_neg hlt] at h
    cases h
    exact .inr ⟨hlt, rfl, rfl⟩

theorem pollRecvs_eq_ok {peer recvNeed recvDone r : Nat}
    (h : pollRecvs t peer recvNeed recvDone = .ok (t', r)) :
    (recvDone < recvNeed ∧ ∃ s, t.pollOnce peer = .ok (t', s, r)) ∨
      (¬ recvDone < recvNeed ∧ t' = t ∧ r = 0) := by
  unfold pollRecvs at h
  by_cases hlt : recvDone < recvNeed
  · rw [if_pos hlt] at h
    cases hp : t.pollOnce peer with
    | error e => rw [hp] at h; cases h
    | ok x => rw [hp] at h; cases h; exact .inl ⟨hlt, _, rfl⟩
  · rw [if_neg hlt] at h
    cases h
    exact .inr ⟨hlt, rfl, rfl⟩

theorem body_sendRecv {sendPeer recvPeer sendWrs recvNeed sendDone recvDone : Nat} {w' : Wait}
    (h : (Wait.sendRecv sendPeer recvPeer sendWrs recvNeed sendDone recvDone).body o t =
      .ok (t', w')) :
    ∃ t₁ s r, pollSends t sendPeer sendWrs sendDone = .ok (t₁, s) ∧
      pollRecvs t₁ recvPeer recvNeed recvDone = .ok (t', r) ∧
      w' = .sendRecv sendPeer recvPeer sendWrs recvNeed (sendDone + s) (recvDone + r) := by
  obtain ⟨⟨t₁, s⟩, hs, h⟩ := bind_eq_ok h
  obtain ⟨⟨t₂, r⟩, hr, h⟩ := bind_eq_ok h
  obtain ⟨_, -, h⟩ := bind_eq_ok h
  obtain ⟨_, -, h⟩ := bind_eq_ok h
  obtain ⟨rfl, rfl⟩ := Prod.mk.inj (Except.ok.inj h)
  exact ⟨t₁, s, r, hs, hr, rfl⟩

theorem body_batch {pending : Bool} {posted : List Posted} {later : List (List P2pOp)} {w' : Wait}
    (h : (Wait.batch pending posted later).body o t = .ok (t', w')) :
    ∃ posted', pollPosted t posted = .ok (t', posted') ∧ o.aborted = false ∧
      w' = .batch (decide (∃ e ∈ posted', e.missing)) posted' later := by
  obtain ⟨⟨t₁, posted'⟩, hpoll, h⟩ := bind_eq_ok h
  obtain ⟨_, ha, h⟩ := bind_eq_ok h
  obtain ⟨_, -, h⟩ := bind_eq_ok h
  obtain ⟨_, -, h⟩ := bind_eq_ok h
  obtain ⟨rfl, rfl⟩ := Prod.mk.inj (Except.ok.inj h)
  exact ⟨posted', hpoll, stopIf_eq_ok.mp ha, rfl⟩

end Inversion

/-! ## Abort -/

/-- A `sendRecv` with two peers. -/
def VerbsOp.TwoPeers : VerbsOp → Prop
  | .sendRecv sendPeer _ _ recvPeer _ _ => sendPeer ≠ recvPeer
  | _ => False

/-- The loop states an operation comes through, whatever was posted before and whatever completes
meanwhile. -/
inductive OnWait (loc : Ptr → Nat) (op : VerbsOp) : Wait → Prop
  | start {t t' : Verbs} {regions : List Region} {w : Wait} :
      op.start t loc regions = (t', some w) → OnWait loc op w
  | body {t t' : Verbs} {o : Obs} {w w' : Wait} : OnWait loc op w → w.looping →
      w.body o t = .ok (t', w') → OnWait loc op w'
  | next {t t' : Verbs} {regions : List Region} {w w' : Wait} : OnWait loc op w → ¬ w.looping →
      w.finish t loc regions = (t', some w') → OnWait loc op w'

/-- `k` iterations in a row with the aborted flag set. -/
inductive Spins : Wait → Nat → Prop
  | zero (w : Wait) : Spins w 0
  | succ {t t' : Verbs} {o : Obs} {w w' : Wait} {k : Nat} : w.looping → o.aborted = true →
      w.body o t = .ok (t', w') → Spins w' k → Spins w (k + 1)

/-- With the aborted flag set the next iteration returns an error, and so there is no unbounded
number of them. -/
def AbortEnds (w : Wait) : Prop :=
  (∀ (t : Verbs) (o : Obs), o.aborted = true → ∃ e, w.body o t = .error e) ∧
    ∃ N, ∀ k, Spins w k → k ≤ N

/-- The loop for two peers. -/
def Wait.TwoPeers : Wait → Prop
  | .sendRecv .. => True
  | _ => False

theorem Wait.TwoPeers.exists {w : Wait} (h : w.TwoPeers) : ∃ sendPeer recvPeer sendWrs recvNeed
    sendDone recvDone, w = .sendRecv sendPeer recvPeer sendWrs recvNeed sendDone recvDone := by
  cases w with
  | sendRecv => exact ⟨_, _, _, _, _, _, rfl⟩
  | pollPeer => exact h.elim
  | batch => exact h.elim

theorem body_twoPeers {o : Obs} {t t' : Verbs} {w w' : Wait} (h : w.body o t = .ok (t', w')) :
    w'.TwoPeers ↔ w.TwoPeers := by
  cases w with
  | pollPeer peer sendWrs recvNeed sendDone recvDone =>
    obtain ⟨s, r, -, -, rfl⟩ := body_pollPeer h
    exact Iff.rfl
  | sendRecv sendPeer recvPeer sendWrs recvNeed sendDone recvDone =>
    obtain ⟨t₁, s, r, -, -, rfl⟩ := body_sendRecv h
    exact Iff.rfl
  | batch pending posted later =>
    obtain ⟨posted', -, -, rfl⟩ := body_batch h
    exact Iff.rfl

theorem startWaves_not_twoPeers {t t' : Verbs} {loc : Ptr → Nat} {regions : List Region}
    {later : List (List P2pOp)} {w : Wait} (h : startWaves t loc regions later = (t', some w)) :
    ¬ w.TwoPeers := by
  cases later with
  | nil => cases h
  | cons wave later =>
    obtain ⟨-, h⟩ := Prod.mk.inj h
    rw [← Option.some.inj h]
    exact id

/-- Only a `sendRecv` with two peers enters the loop for two peers. -/
theorem OnWait.twoPeers {loc : Ptr → Nat} {op : VerbsOp} {w : Wait} (h : OnWait loc op w) :
    w.TwoPeers ↔ op.TwoPeers := by
  induction h with
  | @start t t' regions w h =>
    cases op with
    | send peer buf bytes =>
      simp only [VerbsOp.start] at h
      by_cases h0 : bytes = 0
      · rw [if_pos h0] at h
        cases (Prod.mk.inj h).2
      · rw [if_neg h0] at h
        rw [← Option.some.inj (Prod.mk.inj h).2]
        exact Iff.rfl
    | recv peer buf bytes =>
      simp only [VerbsOp.start] at h
      by_cases h0 : bytes = 0
      · rw [if_pos h0] at h
        cases (Prod.mk.inj h).2
      · rw [if_neg h0] at h
        rw [← Option.some.inj (Prod.mk.inj h).2]
        exact Iff.rfl
    | sendRecv sendPeer sbuf sbytes recvPeer rbuf rbytes =>
      simp only [VerbsOp.start] at h
      by_cases hp : sendPeer = recvPeer
      · rw [if_pos hp] at h
        rw [← Option.some.inj (Prod.mk.inj h).2]
        exact ⟨False.elim, fun h => h hp⟩
      · rw [if_neg hp] at h
        rw [← Option.some.inj (Prod.mk.inj h).2]
        exact ⟨fun _ => hp, fun _ => trivial⟩
    | batch ops => exact iff_of_false (startWaves_not_twoPeers h) id
    | postRecvs reqs => cases (Prod.mk.inj h).2
  | body _ _ hbody ih => exact (body_twoPeers hbody).trans ih
  | @next t t' regions w w' _ _ hfin ih =>
    refine Iff.trans ?_ ih
    cases w with
    | pollPeer => cases hfin
    | sendRecv => cases hfin
    | batch pending posted later => exact iff_of_false (startWaves_not_twoPeers hfin) id

/-- The loops that look at the flag. -/
theorem body_aborted {o : Obs} (ho : o.aborted = true) (t : Verbs) {w : Wait} (hw : ¬ w.TwoPeers) :
    ∃ e, w.body o t = .error e := by
  cases hb : w.body o t with
  | error e => exact ⟨e, rfl⟩
  | ok x =>
    obtain ⟨t', w'⟩ := x
    cases w with
    | pollPeer peer sendWrs recvNeed sendDone recvDone =>
      obtain ⟨s, r, -, h, -⟩ := body_pollPeer hb
      rw [ho] at h
      cases h
    | sendRecv => exact absurd trivial hw
    | batch pending posted later =>
      obtain ⟨posted', -, h, -⟩ := body_batch hb
      rw [ho] at h
      cases h

/-- The loop for two peers goes on over empty queues. -/
theorem body_idle (maxInline : Nat → Nat) {w : Wait} (hw : w.TwoPeers) :
    ∃ t', w.body ⟨true, false, false⟩ (Verbs.init maxInline) = .ok (t', w) := by
  obtain ⟨sendPeer, recvPeer, sendWrs, recvNeed, sendDone, recvDone, rfl⟩ := hw.exists
  simp only [Wait.body, pollSends, pollRecvs, Verbs.init, Verbs.pollOnce, bind, Except.bind,
    Except.map, stopIf, pure, Except.pure]
  by_cases hs : sendDone < sendWrs <;> by_cases hr : recvDone < recvNeed <;>
    simp [hs, hr]

theorem spins_idle {w : Wait} (hw : w.TwoPeers) (hl : w.looping) : ∀ k, Spins w k
  | 0 => .zero w
  | k + 1 => by
    obtain ⟨t', h⟩ := body_idle (fun _ => 0) hw
    exact .succ hl rfl h (spins_idle hw hl k)

/-- **Abort unblocks a verbs wait unless it is that of a `sendRecv` with two peers.** -/
theorem abort_unblocks_iff (loc : Ptr → Nat) (op : VerbsOp) (w : Wait) (h : OnWait loc op w)
    (hl : w.looping) : AbortEnds w ↔ ¬ op.TwoPeers := by
  rw [← h.twoPeers]
  constructor
  · rintro ⟨-, N, hN⟩ hw
    exact absurd (hN (N + 1) (spins_idle hw hl (N + 1))) (by omega)
  · intro hw
    refine ⟨fun t o ho => body_aborted ho t hw, 0, fun k hk => ?_⟩
    cases hk with
    | zero => exact Nat.le_refl 0
    | succ _ ho hb _ =>
      obtain ⟨e, he⟩ := body_aborted ho _ hw
      rw [he] at hb
      cases hb

/-- A send of eight bytes, waiting. -/
theorem abort_unblocks_iff_send : AbortEnds (.pollPeer 1 1 0 0 0) := by
  have hs : (VerbsOp.send 1 (Ptr.mk (.user 0) 64) 8).start (Verbs.init fun _ => 220)
      (fun p => p.off) [] = (_, some (.pollPeer 1 1 0 0 0)) := rfl
  exact (abort_unblocks_iff (fun p => p.off) (.send 1 (Ptr.mk (.user 0) 64) 8) _ (.start hs)
    (Or.inl Nat.one_pos)).mpr id

/-- **A ring step is not unblocked**: rank 0 of three, sending to rank 1 and receiving from rank 2,
goes on polling for as long as it likes. -/
theorem two_peer_wait_spins : ∃ w, OnWait (fun p => p.off)
    (.sendRecv 1 (Ptr.mk (.user 0) 64) 8 2 (Ptr.mk (.user 0) 128) 8) w ∧ w.looping ∧
    (∀ k, Spins w k) ∧ ¬ AbortEnds w := by
  have hs : (VerbsOp.sendRecv 1 (Ptr.mk (.user 0) 64) 8 2 (Ptr.mk (.user 0) 128) 8).start
      (Verbs.init fun _ => 220) (fun p => p.off) [] = (_, some (.sendRecv 1 2 1 1 0 0)) := rfl
  have hspin : ∀ k, Spins (.sendRecv 1 2 1 1 0 0) k := spins_idle trivial (Or.inl Nat.one_pos)
  refine ⟨_, .start hs, Or.inl Nat.one_pos, hspin, ?_⟩
  rintro ⟨-, N, hN⟩
  exact absurd (hN (N + 1) (hspin (N + 1))) (by omega)

end Vccl
