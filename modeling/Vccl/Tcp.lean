import Vccl.Batch
import Vccl.Net.Lane
import Mathlib.Data.List.Sort

/-!
# The TCP transport (`TcpTransport`, `sendAll`, `recvAll`, `duplexTransfer`)

Every pair of ranks shares a connection, and messages go over it without framing. The four calls of the
transport have four loops of their own, each with its own account of what has moved: `sendAll` and
`recvAll` count the bytes of one transfer, `duplexTransfer` polls and then tries to send and to receive,
and `batch` goes in passes over a map of queues, one for each peer and direction, and tries the head
of each.

`Loop` is where a call stands, `LoopStep` what it does: a system call moves any positive number of
bytes that the stream allows, or none (`EINTR`, `EAGAIN`). A rank makes its calls one after another;
between two of them the application may do anything to its memory. A call may fail, by its deadline or
because the transport is aborted; the rank then makes no further call. The streams are reliable.

Over the loops stands one machine, `Desk`: a queue of transfers for each peer and direction. Every step
of a loop is a step of it (`rank_refines`), and the rest is proved about it.

* `Loop.queue`: the transfers a loop has still to make.
* `DeskInv`: the queues stand beside the ledgers as lanes, with what the messages are.
-/

namespace Vccl.Tcp

open Net (Act Active Flow FlowStep FlowRun Lane load store enqueue advance)

/-! ## Calls and loops -/

/-- A call of the transport. -/
inductive Call where
  | send (peer : Nat) (buf : Ptr) (bytes : Nat)
  | recv (peer : Nat) (buf : Ptr) (bytes : Nat)
  | sendRecv (sendPeer : Nat) (sbuf : Ptr) (sbytes : Nat) (recvPeer : Nat) (rbuf : Ptr) (rbytes : Nat)
  | batch (ops : List P2pOp)
  deriving DecidableEq, Repr

/-- The transfers of a call. -/
def Call.ops : Call → List P2pOp
  | .send peer buf bytes => [⟨true, peer, buf, bytes⟩]
  | .recv peer buf bytes => [⟨false, peer, buf, bytes⟩]
  | .sendRecv sp sbuf sbytes rp rbuf rbytes => [⟨true, sp, sbuf, sbytes⟩, ⟨false, rp, rbuf, rbytes⟩]
  | .batch ops => ops

/-- Peer and direction: the keys of the queues of `batch`. -/
abbrev Key := Nat × Bool

abbrev Queues := Key → List (Active P2pOp)

def keyOf (op : P2pOp) : Key := (op.peer, op.isSend)

/-- The order of the map's keys. -/
def KeyLe (a b : Key) : Prop := a.1 < b.1 ∨ (a.1 = b.1 ∧ a.2 ≤ b.2)

instance : DecidableRel KeyLe := fun a b =>
  inferInstanceAs (Decidable (a.1 < b.1 ∨ (a.1 = b.1 ∧ a.2 ≤ b.2)))

/-- The keys of the map, in order, with one more. -/
def insertKey (key : Key) (keys : List Key) : List Key :=
  if key ∈ keys then keys else keys.orderedInsert KeyLe key

/-- The map of queues as `batch` builds it: queues, keys, and `remaining`. -/
structure Table where
  queues : Queues
  keys : List Key
  remaining : Nat

/-- `queues[{op.peer, op.isSend}].push_back({&op, 0}); remaining++`. -/
def Table.push (t : Table) (op : P2pOp) : Table :=
  if op.bytes = 0 then t
  else ⟨Function.update t.queues (keyOf op) (t.queues (keyOf op) ++ [⟨op, 0⟩]),
    insertKey (keyOf op) t.keys, t.remaining + 1⟩

def Table.build (ops : List P2pOp) : Table := ops.foldl Table.push ⟨fun _ => [], [], 0⟩

/-- Where a pass of `duplexTransfer` stands: before `poll`, or after it, with what is ready still to be
tried. -/
inductive Phase where
  | poll
  | ready (send recv : Bool)
  deriving DecidableEq, Repr

/-- Where a call stands. -/
inductive Loop where
  | sendAll (peer : Nat) (buf : Ptr) (bytes sent : Nat)
  | recvAll (peer : Nat) (buf : Ptr) (bytes got : Nat)
  | duplex (sendPeer : Nat) (sbuf : Ptr) (sbytes : Nat) (recvPeer : Nat) (rbuf : Ptr) (rbytes : Nat)
      (sent got : Nat) (phase : Phase)
  /-- `pass` are the keys that the pass at hand has still to come to. -/
  | batch (table : Table) (pass : List Key)

/-- A call begins. -/
def Call.start : Call → Loop
  | .send peer buf bytes => .sendAll peer buf bytes 0
  | .recv peer buf bytes => .recvAll peer buf bytes 0
  | .sendRecv sp sbuf sbytes rp rbuf rbytes => .duplex sp sbuf sbytes rp rbuf rbytes 0 0 .poll
  | .batch ops => .batch (.build ops) []

/-- The call returns success. -/
def Loop.Finished : Loop → Prop
  | .sendAll _ _ bytes sent => ¬ sent < bytes
  | .recvAll _ _ bytes got => ¬ got < bytes
  | .duplex _ _ sbytes _ _ rbytes sent got phase => phase = .poll ∧ ¬ (sent < sbytes ∨ got < rbytes)
  | .batch table pass => pass = [] ∧ ¬ 0 < table.remaining

/-- The head of queue `key` has moved `k` more bytes; at its end it is popped. -/
def Table.move (t : Table) (key : Key) (k : Nat) : Table :=
  match t.queues key with
  | [] => t
  | a :: rest =>
    if a.done + k = a.op.bytes then
      ⟨Function.update t.queues key rest, t.keys, t.remaining - 1⟩
    else ⟨Function.update t.queues key (⟨a.op, a.done + k⟩ :: rest), t.keys, t.remaining⟩

/-- What a call on rank `r` does. `fds_` has no socket for the rank itself. -/
inductive LoopStep (r : Nat) : Mem → Loop → Act Nat UInt8 → Mem → Loop → Prop
  /-- `sendAll`: `send` takes `k` bytes. -/
  | send {m : Mem} {peer : Nat} {buf : Ptr} {bytes sent k : Nat} (hp : peer ≠ r) (hk : 0 < k)
      (hle : sent + k ≤ bytes) :
      LoopStep r m (.sendAll peer buf bytes sent)
        (.put peer (load m (slice (buf + sent) k)) (decide (sent + k = bytes))) m
        (.sendAll peer buf bytes (sent + k))
  | sendAgain {m : Mem} {peer : Nat} {buf : Ptr} {bytes sent : Nat} (h : sent < bytes) :
      LoopStep r m (.sendAll peer buf bytes sent) .tau m (.sendAll peer buf bytes sent)
  /-- `recvAll`: `recv` returns the bytes `bs`. -/
  | recv {m : Mem} {peer : Nat} {buf : Ptr} {bytes got : Nat} {bs : List UInt8} (hp : peer ≠ r)
      (hk : 0 < bs.length) (hle : got + bs.length ≤ bytes) :
      LoopStep r m (.recvAll peer buf bytes got)
        (.take peer bs (decide (got + bs.length = bytes)))
        (store m (slice (buf + got) bs.length) bs) (.recvAll peer buf bytes (got + bs.length))
  | recvAgain {m : Mem} {peer : Nat} {buf : Ptr} {bytes got : Nat} (h : got < bytes) :
      LoopStep r m (.recvAll peer buf bytes got) .tau m (.recvAll peer buf bytes got)
  /-- `duplexTransfer`: `poll` says which of the directions that are not done are ready. -/
  | poll {m : Mem} {sp rp : Nat} {sbuf rbuf : Ptr} {sbytes rbytes sent got : Nat} {s t : Bool}
      (h : sent < sbytes ∨ got < rbytes) (hs : s = true → sent < sbytes)
      (ht : t = true → got < rbytes) :
      LoopStep r m (.duplex sp sbuf sbytes rp rbuf rbytes sent got .poll) .tau m
        (.duplex sp sbuf sbytes rp rbuf rbytes sent got (.ready s t))
  | duplexSend {m : Mem} {sp rp : Nat} {sbuf rbuf : Ptr} {sbytes rbytes sent got k : Nat} {t : Bool}
      (hp : sp ≠ r) (hk : 0 < k) (hle : sent + k ≤ sbytes) :
      LoopStep r m (.duplex sp sbuf sbytes rp rbuf rbytes sent got (.ready true t))
        (.put sp (load m (slice (sbuf + sent) k)) (decide (sent + k = sbytes))) m
        (.duplex sp sbuf sbytes rp rbuf rbytes (sent + k) got (.ready false t))
  | duplexSendAgain {m : Mem} {sp rp : Nat} {sbuf rbuf : Ptr} {sbytes rbytes sent got : Nat}
      {t : Bool} :
      LoopStep r m (.duplex sp sbuf sbytes rp rbuf rbytes sent got (.ready true t)) .tau m
        (.duplex sp sbuf sbytes rp rbuf rbytes sent got (.ready false t))
  | duplexRecv {m : Mem} {sp rp : Nat} {sbuf rbuf : Ptr} {sbytes rbytes sent got : Nat}
      {bs : List UInt8} (hp : rp ≠ r) (hk : 0 < bs.length) (hle : got + bs.length ≤ rbytes) :
      LoopStep r m (.duplex sp sbuf sbytes rp rbuf rbytes sent got (.ready false true))
        (.take rp bs (decide (got + bs.length = rbytes)))
        (store m (slice (rbuf + got) bs.length) bs)
        (.duplex sp sbuf sbytes rp rbuf rbytes sent (got + bs.length) .poll)
  | duplexRecvAgain {m : Mem} {sp rp : Nat} {sbuf rbuf : Ptr} {sbytes rbytes sent got : Nat}
      {t : Bool} :
      LoopStep r m (.duplex sp sbuf sbytes rp rbuf rbytes sent got (.ready false t)) .tau m
        (.duplex sp sbuf sbytes rp rbuf rbytes sent got .poll)
  /-- `batch`: the next pass begins, after a `poll` if the one before moved nothing. -/
  | pass {m : Mem} {t : Table} (h : 0 < t.remaining) :
      LoopStep r m (.batch t []) .tau m (.batch t t.keys)
  /-- The queue is empty, or its head's system call moves nothing. -/
  | skip {m : Mem} {t : Table} {key : Key} {pass : List Key} :
      LoopStep r m (.batch t (key :: pass)) .tau m (.batch t pass)
  | batchSend {m : Mem} {t : Table} {x : Nat} {pass : List Key} {a : Active P2pOp}
      {rest : List (Active P2pOp)} {k : Nat} (hp : x ≠ r) (hq : t.queues (x, true) = a :: rest)
      (hk : 0 < k) (hle : a.done + k ≤ a.op.bytes) :
      LoopStep r m (.batch t ((x, true) :: pass))
        (.put x (load m (slice (a.op.buf + a.done) k)) (decide (a.done + k = a.op.bytes))) m
        (.batch (t.move (x, true) k) pass)
  | batchRecv {m : Mem} {t : Table} {x : Nat} {pass : List Key} {a : Active P2pOp}
      {rest : List (Active P2pOp)} {bs : List UInt8} (hp : x ≠ r)
      (hq : t.queues (x, false) = a :: rest) (hk : 0 < bs.length)
      (hle : a.done + bs.length ≤ a.op.bytes) :
      LoopStep r m (.batch t ((x, false) :: pass))
        (.take x bs (decide (a.done + bs.length = a.op.bytes)))
        (store m (slice (a.op.buf + a.done) bs.length) bs) (.batch (t.move (x, false) bs.length) pass)

/-- A rank: its memory, the calls to come, the call at hand, and whether one has failed. The rest is
history that no step reads: the transfers of the calls before the last one begun, those of that one,
and the memory at its beginning. -/
structure Rank where
  mem : Mem
  calls : List Call
  loop : Option Loop
  failed : Bool
  past : List P2pOp
  cur : List P2pOp
  base : Mem

/-- What rank `r` does. -/
inductive RankStep (r : Nat) : Rank → Act Nat UInt8 → Rank → Prop
  /-- The next call, on the memory `m` as the application has left it. -/
  | call {s : Rank} {c : Call} {rest : List Call} {m : Mem} (hf : s.failed = false)
      (hl : s.loop = none) (hc : s.calls = c :: rest) :
      RankStep r s .tau ⟨m, rest, some c.start, false, s.past ++ s.cur, c.ops, m⟩
  | work {s : Rank} {l l' : Loop} {a : Act Nat UInt8} {m : Mem} (hf : s.failed = false)
      (hl : s.loop = some l) (hstep : LoopStep r s.mem l a m l') :
      RankStep r s a { s with mem := m, loop := some l' }
  /-- The call returns success. -/
  | ret {s : Rank} {l : Loop} (hf : s.failed = false) (hl : s.loop = some l) (hfin : l.Finished) :
      RankStep r s .tau { s with loop := none }

/-- A call of a rank fails: its deadline has passed, or the transport is aborted. -/
inductive RankFail : Rank → Act Nat UInt8 → Rank → Prop
  | fail {s : Rank} {l : Loop} (hl : s.loop = some l) : RankFail s .tau { s with failed := true }

/-! ## The machine of queues -/

/-- The non-empty transfers of one direction with one peer, in order. -/
def opsWith (key : Key) (ops : List P2pOp) : List P2pOp :=
  ops.filter fun op => op.isSend = key.2 ∧ op.peer = key.1 ∧ op.bytes ≠ 0

/-- A rank as queues of transfers, one for each peer and direction. -/
structure Desk where
  mem : Mem
  base : Mem
  past : List P2pOp
  cur : List P2pOp
  rest : List P2pOp
  queue : Queues

/-- Bytes of the head of a queue move. -/
inductive QueueStep (r : Nat) : Mem → Queues → Act Nat UInt8 → Mem → Queues → Prop
  | idle {m : Mem} {Q : Queues} : QueueStep r m Q .tau m Q
  | put {m : Mem} {Q : Queues} {x : Nat} {a : Active P2pOp} {rest : List (Active P2pOp)} {k : Nat}
      (hp : x ≠ r) (hq : Q (x, true) = a :: rest) (hk : 0 < k) (hle : a.done + k ≤ a.op.bytes) :
      QueueStep r m Q
        (.put x (load m (slice (a.op.buf + a.done) k)) (decide (a.done + k = a.op.bytes))) m
        (Function.update Q (x, true) (advance P2pOp.bytes k (a :: rest)))
  | take {m : Mem} {Q : Queues} {x : Nat} {a : Active P2pOp} {rest : List (Active P2pOp)}
      {bs : List UInt8} (hp : x ≠ r) (hq : Q (x, false) = a :: rest) (hk : 0 < bs.length)
      (hle : a.done + bs.length ≤ a.op.bytes) :
      QueueStep r m Q (.take x bs (decide (a.done + bs.length = a.op.bytes)))
        (store m (slice (a.op.buf + a.done) bs.length) bs)
        (Function.update Q (x, false) (advance P2pOp.bytes bs.length (a :: rest)))

/-- What a desk does: begin a round of transfers when all queues are empty, or move bytes. -/
inductive DeskStep (r : Nat) : Desk → Act Nat UInt8 → Desk → Prop
  | begin {s : Desk} {ops rest : List P2pOp} {m : Mem} (hq : ∀ key, s.queue key = [])
      (hr : s.rest = ops ++ rest) :
      DeskStep r s .tau ⟨m, m, s.past ++ s.cur, ops, rest, fun key => enqueue (opsWith key ops)⟩
  | move {s : Desk} {a : Act Nat UInt8} {m : Mem} {Q : Queues}
      (h : QueueStep r s.mem s.queue a m Q) : DeskStep r s a { s with mem := m, queue := Q }

/-- The queues of one transfer. -/
def single (op : P2pOp) (done : Nat) : Queues := fun key =>
  if key = keyOf op ∧ done < op.bytes then [⟨op, done⟩] else []

/-- The transfers a loop has still to make. -/
def Loop.queue : Loop → Queues
  | .sendAll peer buf bytes sent => single ⟨true, peer, buf, bytes⟩ sent
  | .recvAll peer buf bytes got => single ⟨false, peer, buf, bytes⟩ got
  | .duplex sp sbuf sbytes rp rbuf rbytes sent got _ => fun key =>
    if key.2 then single ⟨true, sp, sbuf, sbytes⟩ sent key
    else single ⟨false, rp, rbuf, rbytes⟩ got key
  | .batch table _ => table.queues

/-- A rank as queues. -/
def Rank.desk (s : Rank) : Desk :=
  ⟨s.mem, s.base, s.past, s.cur, s.calls.flatMap Call.ops,
    match s.loop with
    | none => fun _ => []
    | some l => l.queue⟩

theorem single_self (op : P2pOp) {done : Nat} (h : done < op.bytes) :
    single op done (keyOf op) = [⟨op, done⟩] := if_pos ⟨rfl, h⟩

theorem single_done (op : P2pOp) {done : Nat} (h : ¬ done < op.bytes) :
    single op done = fun _ => [] := by
  funext key
  exact if_neg fun hk => h hk.2

theorem single_advance (op : P2pOp) {done k : Nat} (h : done + k ≤ op.bytes) :
    single op (done + k) =
      Function.update (single op done) (keyOf op) (advance P2pOp.bytes k [⟨op, done⟩]) := by
  funext key
  by_cases hkey : key = keyOf op
  · subst hkey
    rw [Function.update_self, advance]
    by_cases hfin : done + k = op.bytes
    · rw [if_pos hfin, single_done op (by omega)]
    · rw [if_neg hfin, single_self op (by omega)]
  · rw [Function.update_of_ne hkey, single, single, if_neg fun hk => hkey hk.1,
      if_neg fun hk => hkey hk.1]

theorem single_start (op : P2pOp) (key : Key) : single op 0 key = enqueue (opsWith key [op]) := by
  unfold single opsWith
  rw [List.filter_singleton]
  by_cases h : key = keyOf op ∧ 0 < op.bytes
  · obtain ⟨rfl, hb⟩ := h
    simp [keyOf, hb, enqueue, Nat.pos_iff_ne_zero.mp hb]
  · have hnot : decide (op.isSend = key.2 ∧ op.peer = key.1 ∧ op.bytes ≠ 0) = false := by
      refine decide_eq_false ?_
      rintro ⟨h1, h2, h3⟩
      exact h ⟨by rw [keyOf, h1, h2], by omega⟩
    rw [if_neg h, hnot]
    rfl

/-! ## The count of `batch` -/

/-- `remaining` counts the entries of the queues, all of which are under the keys. -/
structure Table.Counted (t : Table) : Prop where
  nodup : t.keys.Nodup
  covers : ∀ key, t.queues key ≠ [] → key ∈ t.keys
  count : t.remaining = (t.keys.map fun key => (t.queues key).length).sum

theorem insertKey_perm {key : Key} {keys : List Key} (h : key ∉ keys) :
    (insertKey key keys).Perm (key :: keys) := by
  rw [insertKey, if_neg h]
  exact List.perm_orderedInsert _ _ _

theorem mem_insertKey {key x : Key} {keys : List Key} :
    x ∈ insertKey key keys ↔ x = key ∨ x ∈ keys := by
  by_cases h : key ∈ keys
  · rw [insertKey, if_pos h]
    constructor
    · exact Or.inr
    · rintro (rfl | hx)
      · exact h
      · exact hx
  · rw [(insertKey_perm h).mem_iff, List.mem_cons]

theorem nodup_insertKey {key : Key} {keys : List Key} (h : keys.Nodup) :
    (insertKey key keys).Nodup := by
  by_cases hk : key ∈ keys
  · rwa [insertKey, if_pos hk]
  · rw [(insertKey_perm hk).nodup_iff, List.nodup_cons]
    exact ⟨hk, h⟩

/-- One queue changes its length. -/
theorem sum_update {keys : List Key} (hnd : keys.Nodup) {key : Key} (hk : key ∈ keys) (Q : Queues)
    (q : List (Active P2pOp)) :
    (keys.map fun x => (Function.update Q key q x).length).sum + (Q key).length =
      (keys.map fun x => (Q x).length).sum + q.length := by
  induction keys with
  | nil => cases hk
  | cons y keys ih =>
    rw [List.nodup_cons] at hnd
    simp only [List.map_cons, List.sum_cons]
    by_cases hy : key = y
    · subst hy
      have hsame : (keys.map fun x => (Function.update Q key q x).length) =
          keys.map fun x => (Q x).length := by
        apply List.map_congr_left
        intro x hx
        rw [Function.update_of_ne]
        rintro rfl
        exact hnd.1 hx
      rw [hsame, Function.update_self]
      omega
    · have := ih hnd.2 ((List.mem_cons.mp hk).resolve_left hy)
      rw [Function.update_of_ne (Ne.symm hy)]
      omega

theorem Table.Counted.push {t : Table} (h : t.Counted) (op : P2pOp) : (t.push op).Counted := by
  unfold Table.push
  split
  · exact h
  · refine ⟨nodup_insertKey h.nodup, fun key hq => ?_, ?_⟩
    · rw [mem_insertKey]
      by_cases hkey : key = keyOf op
      · exact Or.inl hkey
      · refine Or.inr (h.covers key ?_)
        simpa only [Function.update_of_ne hkey] using hq
    · have hnd : (insertKey (keyOf op) t.keys).Nodup := nodup_insertKey h.nodup
      have hsum := sum_update hnd
        (mem_insertKey.mpr (Or.inl rfl)) t.queues (t.queues (keyOf op) ++ [⟨op, 0⟩])
      have hold : ((insertKey (keyOf op) t.keys).map fun x => (t.queues x).length).sum =
          t.remaining := by
        by_cases hk : keyOf op ∈ t.keys
        · rw [insertKey, if_pos hk, h.count]
        · rw [((insertKey_perm hk).map _).sum_nat, List.map_cons, List.sum_cons, h.count]
          have hnil : t.queues (keyOf op) = [] := by
            by_contra hne
            exact hk (h.covers _ hne)
          rw [hnil]
          simp
      simp only [List.length_append, List.length_singleton] at hsum
      simp only
      omega

theorem counted_build (ops : List P2pOp) : (Table.build ops).Counted := by
  have hfold : ∀ (t : Table), t.Counted → (ops.foldl Table.push t).Counted := by
    induction ops with
    | nil => exact fun t h => h
    | cons op ops ih => exact fun t h => ih _ (h.push op)
  exact hfold _ ⟨List.nodup_nil, fun _ h => absurd rfl h, rfl⟩

theorem Table.Counted.move {t : Table} (h : t.Counted) (key : Key) (k : Nat) :
    (t.move key k).Counted := by
  unfold Table.move
  split
  · exact h
  · rename_i a rest hq
    have hmem : key ∈ t.keys := h.covers key (by rw [hq]; exact List.cons_ne_nil _ _)
    split
    · refine ⟨h.nodup, fun x hx => ?_, ?_⟩
      · by_cases hkey : x = key
        · rw [hkey]
          exact hmem
        · exact h.covers x (by simpa only [Function.update_of_ne hkey] using hx)
      · have hsum := sum_update h.nodup hmem t.queues rest
        rw [hq, List.length_cons, ← h.count] at hsum
        simp only
        omega
    · refine ⟨h.nodup, fun x hx => ?_, ?_⟩
      · by_cases hkey : x = key
        · rw [hkey]
          exact hmem
        · exact h.covers x (by simpa only [Function.update_of_ne hkey] using hx)
      · have hsum := sum_update h.nodup hmem t.queues (⟨a.op, a.done + k⟩ :: rest)
        rw [hq, List.length_cons, List.length_cons, ← h.count] at hsum
        simp only
        omega

/-- When nothing remains, every queue is empty. -/
theorem Table.Counted.empty {t : Table} (h : t.Counted) (h0 : t.remaining = 0) (key : Key) :
    t.queues key = [] := by
  by_contra hne
  have hmem := h.covers key hne
  have hsum := h.count
  rw [h0] at hsum
  have hle := List.single_le_sum (l := t.keys.map fun key => (t.queues key).length)
    (fun _ _ => Nat.zero_le _) _ (List.mem_map.mpr ⟨key, hmem, rfl⟩)
  rw [← hsum] at hle
  exact hne (List.length_eq_zero_iff.mp (by omega))

theorem queues_build (ops : List P2pOp) (key : Key) :
    (Table.build ops).queues key = enqueue (opsWith key ops) := by
  have hfold : ∀ (t : Table), (ops.foldl Table.push t).queues key =
      t.queues key ++ enqueue (opsWith key ops) := by
    induction ops with
    | nil => exact fun t => (List.append_nil _).symm
    | cons op ops ih =>
      intro t
      rw [List.foldl_cons, ih]
      unfold opsWith
      rw [List.filter_cons]
      by_cases h : op.isSend = key.2 ∧ op.peer = key.1 ∧ op.bytes ≠ 0
      · have hkey : key = keyOf op := by
          rw [keyOf, h.1, h.2.1]
        rw [if_pos (by simpa using h), Table.push, if_neg h.2.2, hkey]
        simp [enqueue]
      · rw [if_neg (by simpa using h)]
        congr 1
        unfold Table.push
        split
        · rfl
        · rename_i hb
          simp only
          rw [Function.update_of_ne]
          rintro rfl
          exact h ⟨rfl, rfl, hb⟩
  exact hfold ⟨fun _ => [], [], 0⟩

theorem queues_move {t : Table} {key : Key} {k : Nat} {a : Active P2pOp} {rest : List (Active P2pOp)}
    (h : t.queues key = a :: rest) :
    (t.move key k).queues =
      Function.update t.queues key (advance P2pOp.bytes k (a :: rest)) := by
  simp only [Table.move, h, advance]
  split <;> rfl

/-! ## The loops are the machine -/

/-- What holds of a loop by itself. -/
def Loop.Ok : Loop → Prop
  | .batch table _ => table.Counted
  | _ => True

theorem start_ok (c : Call) : c.start.Ok := by
  cases c with
  | batch ops => exact counted_build ops
  | send | recv | sendRecv => exact trivial

theorem start_queue (c : Call) : c.start.queue = fun key => enqueue (opsWith key c.ops) := by
  funext key
  cases c with
  | send peer buf bytes => exact single_start _ key
  | recv peer buf bytes => exact single_start _ key
  | batch ops => exact queues_build ops key
  | sendRecv sp sbuf sbytes rp rbuf rbytes =>
    obtain ⟨x, d⟩ := key
    cases d with
    | true =>
      have hskip : opsWith (x, true) [⟨true, sp, sbuf, sbytes⟩, ⟨false, rp, rbuf, rbytes⟩] =
          opsWith (x, true) [⟨true, sp, sbuf, sbytes⟩] := by
        simp [opsWith, List.filter_cons]
      show single _ 0 (x, true) = enqueue (opsWith (x, true) [_, _])
      rw [hskip]
      exact single_start _ _
    | false =>
      have hskip : opsWith (x, false) [⟨true, sp, sbuf, sbytes⟩, ⟨false, rp, rbuf, rbytes⟩] =
          opsWith (x, false) [⟨false, rp, rbuf, rbytes⟩] := by
        simp [opsWith, List.filter_cons]
      show single _ 0 (x, false) = enqueue (opsWith (x, false) [_, _])
      rw [hskip]
      exact single_start _ _

/-- A loop that is finished has no transfer left. -/
theorem finished_queue {l : Loop} (hok : l.Ok) (h : l.Finished) : l.queue = fun _ => [] := by
  cases l with
  | sendAll peer buf bytes sent => exact single_done _ h
  | recvAll peer buf bytes got => exact single_done _ h
  | duplex sp sbuf sbytes rp rbuf rbytes sent got phase =>
    obtain ⟨-, hnot⟩ := h
    rw [not_or] at hnot
    funext key
    simp only [Loop.queue, single_done ⟨true, sp, sbuf, sbytes⟩ hnot.1,
      single_done ⟨false, rp, rbuf, rbytes⟩ hnot.2, ite_self]
  | batch table pass =>
    funext key
    exact Table.Counted.empty hok (by have := h.2; omega) key

theorem duplex_queue_send {sp rp : Nat} {sbuf rbuf : Ptr} {sbytes rbytes sent got k : Nat}
    {phase : Phase} (hle : sent + k ≤ sbytes) (phase' : Phase) :
    (Loop.duplex sp sbuf sbytes rp rbuf rbytes (sent + k) got phase).queue =
      Function.update (Loop.duplex sp sbuf sbytes rp rbuf rbytes sent got phase').queue
        (sp, true) (advance P2pOp.bytes k [⟨⟨true, sp, sbuf, sbytes⟩, sent⟩]) := by
  funext key
  have hsingle := congrFun (single_advance ⟨true, sp, sbuf, sbytes⟩ hle) key
  by_cases hkey : key = (sp, true)
  · subst hkey
    rw [Function.update_self]
    exact hsingle.trans (Function.update_self _ _ _)
  · rw [Function.update_of_ne hkey]
    have hsame : single ⟨true, sp, sbuf, sbytes⟩ (sent + k) key =
        single ⟨true, sp, sbuf, sbytes⟩ sent key :=
      hsingle.trans (Function.update_of_ne hkey _ _)
    simp only [Loop.queue, hsame]

theorem duplex_queue_recv {sp rp : Nat} {sbuf rbuf : Ptr} {sbytes rbytes sent got k : Nat}
    {phase : Phase} (hle : got + k ≤ rbytes) (phase' : Phase) :
    (Loop.duplex sp sbuf sbytes rp rbuf rbytes sent (got + k) phase).queue =
      Function.update (Loop.duplex sp sbuf sbytes rp rbuf rbytes sent got phase').queue
        (rp, false) (advance P2pOp.bytes k [⟨⟨false, rp, rbuf, rbytes⟩, got⟩]) := by
  funext key
  have hsingle := congrFun (single_advance ⟨false, rp, rbuf, rbytes⟩ hle) key
  by_cases hkey : key = (rp, false)
  · subst hkey
    rw [Function.update_self]
    exact hsingle.trans (Function.update_self _ _ _)
  · rw [Function.update_of_ne hkey]
    have hsame : single ⟨false, rp, rbuf, rbytes⟩ (got + k) key =
        single ⟨false, rp, rbuf, rbytes⟩ got key :=
      hsingle.trans (Function.update_of_ne hkey _ _)
    simp only [Loop.queue, hsame]

/-- **Every step of a loop is a step of the queues.** -/
theorem loop_refines {r : Nat} {m m' : Mem} {l l' : Loop} {a : Act Nat UInt8}
    (h : LoopStep r m l a m' l') (hok : l.Ok) : l'.Ok ∧ QueueStep r m l.queue a m' l'.queue := by
  cases h with
  | @send peer buf bytes sent k hp hk hle =>
    refine ⟨trivial, ?_⟩
    have hstep := QueueStep.put (r := r) (m := m) (Q := single ⟨true, peer, buf, bytes⟩ sent) hp
      (single_self ⟨true, peer, buf, bytes⟩ (by simp only; omega)) hk hle
    have hq := single_advance ⟨true, peer, buf, bytes⟩ hle
    rw [Loop.queue, Loop.queue, hq]
    exact hstep
  | @recv peer buf bytes got bs hp hk hle =>
    refine ⟨trivial, ?_⟩
    have hstep := QueueStep.take (r := r) (m := m) (Q := single ⟨false, peer, buf, bytes⟩ got) hp
      (single_self ⟨false, peer, buf, bytes⟩ (by simp only; omega)) hk hle
    have hq := single_advance ⟨false, peer, buf, bytes⟩ hle
    rw [Loop.queue, Loop.queue, hq]
    exact hstep
  | @duplexSend sp rp sbuf rbuf sbytes rbytes sent got k t hp hk hle =>
    refine ⟨trivial, ?_⟩
    have hstep := QueueStep.put (r := r) (m := m)
      (Q := (Loop.duplex sp sbuf sbytes rp rbuf rbytes sent got (.ready true t)).queue) hp
      (single_self ⟨true, sp, sbuf, sbytes⟩ (by simp only; omega)) hk hle
    rw [duplex_queue_send hle (.ready true t)]
    exact hstep
  | @duplexRecv sp rp sbuf rbuf sbytes rbytes sent got bs hp hk hle =>
    refine ⟨trivial, ?_⟩
    have hstep := QueueStep.take (r := r) (m := m)
      (Q := (Loop.duplex sp sbuf sbytes rp rbuf rbytes sent got (.ready false true)).queue) hp
      (single_self ⟨false, rp, rbuf, rbytes⟩ (by simp only; omega)) hk hle
    rw [duplex_queue_recv hle (.ready false true)]
    exact hstep
  | @batchSend t x pass a rest' k hp hq hk hle =>
    refine ⟨Table.Counted.move hok _ _, ?_⟩
    have hstep := QueueStep.put (r := r) (m := m) (Q := t.queues) hp hq hk hle
    rw [Loop.queue, Loop.queue, queues_move hq]
    exact hstep
  | @batchRecv t x pass a rest' bs hp hq hk hle =>
    refine ⟨Table.Counted.move hok _ _, ?_⟩
    have hstep := QueueStep.take (r := r) (m := m) (Q := t.queues) hp hq hk hle
    rw [Loop.queue, Loop.queue, queues_move hq]
    exact hstep
  | sendAgain => exact ⟨trivial, .idle⟩
  | recvAgain => exact ⟨trivial, .idle⟩
  | poll => exact ⟨trivial, .idle⟩
  | duplexSendAgain => exact ⟨trivial, .idle⟩
  | duplexRecvAgain => exact ⟨trivial, .idle⟩
  | pass => exact ⟨hok, .idle⟩
  | skip => exact ⟨hok, .idle⟩

/-- What holds of a rank by itself. -/
def Rank.Ok (s : Rank) : Prop := ∀ l, s.loop = some l → l.Ok

theorem desk_of_loop {s : Rank} {l : Loop} (h : s.loop = some l) :
    s.desk = ⟨s.mem, s.base, s.past, s.cur, s.calls.flatMap Call.ops, l.queue⟩ := by
  simp only [Rank.desk, h]

/-- **The ranks implement the machine of queues.** -/
theorem rank_refines {r : Nat} {s s' : Rank} {a : Act Nat UInt8} (hok : s.Ok)
    (h : RankStep r s a s' ∨ RankFail s a s') : s'.Ok ∧ DeskStep r s.desk a s'.desk := by
  rcases h with h | h
  · cases h with
    | @call c rest m hf hl hc =>
      refine ⟨fun l heq => ?_, ?_⟩
      · cases heq
        exact start_ok c
      · have hq : ∀ key, s.desk.queue key = [] := by
          intro key
          simp only [Rank.desk, hl]
        have hrest : s.desk.rest = c.ops ++ rest.flatMap Call.ops := by
          simp only [Rank.desk, hc, List.flatMap_cons]
        have hstep := DeskStep.begin (r := r) (m := m) hq hrest
        rw [desk_of_loop (s := ⟨m, rest, some c.start, false, s.past ++ s.cur, c.ops, m⟩) rfl,
          start_queue]
        exact hstep
    | @work l l' _ m hf hl hstep =>
      obtain ⟨hok', hmove⟩ := loop_refines hstep (hok l hl)
      refine ⟨fun l'' heq => ?_, ?_⟩
      · cases heq
        exact hok'
      · rw [desk_of_loop hl]
        exact .move hmove
    | @ret l hf hl hfin =>
      refine ⟨nofun, ?_⟩
      have hdesk : Rank.desk { s with loop := none } = s.desk := by
        rw [desk_of_loop hl, finished_queue (hok l hl) hfin]
        rfl
      rw [hdesk]
      exact .move .idle
  · cases h with
    | fail hl => exact ⟨fun l heq => hok l heq, .move .idle⟩

/-! ## The invariant -/

/-- The ledger of a key. -/
def ledgerOf (out inn : Nat → Net.Ledger UInt8) (key : Key) : Net.Ledger UInt8 :=
  if key.2 then out key.1 else inn key.1

/-- The buffer of `op` meets no receive buffer of the call. -/
def ApartFromRecvs (cur : List P2pOp) (op : P2pOp) : Prop :=
  ∀ o ∈ cur, o.isSend = false → Apart op.buf op.bytes o.buf o.bytes

/-- The receive buffers of the call do not meet. -/
def RecvsApart (cur : List P2pOp) : Prop :=
  (cur.filter fun op => op.isSend = false ∧ op.bytes ≠ 0).Pairwise fun a b =>
    Apart a.buf a.bytes b.buf b.bytes

/-- The transfers whose messages can be found in memory: sends that no receive of the call writes
over, and receives of a call whose receives do not write over each other. -/
def Desk.good (s : Desk) (d : Bool) (op : P2pOp) : Prop :=
  if d then ApartFromRecvs s.cur op else RecvsApart s.cur

/-- Where they are found: what is sent, in the memory at the beginning of the call. -/
def Desk.read (s : Desk) (d : Bool) (op : P2pOp) (k : Nat) : List UInt8 :=
  load (if d then s.base else s.mem) (slice op.buf k)

/-- The queues beside the ledgers; `all` are the transfers of all calls of the rank. -/
structure DeskInv (all : List P2pOp) (s : Desk) (out inn : Nat → Net.Ledger UInt8) : Prop where
  total : s.past ++ s.cur ++ s.rest = all
  lane : ∀ key, ∃ gone, opsWith key s.cur = gone ++ (s.queue key).map Active.op ∧
    Lane P2pOp.bytes (opsWith key s.past) gone (s.queue key) (ledgerOf out inn key) ∧
    Net.Holds (s.good key.2) (s.read key.2) P2pOp.bytes (opsWith key s.past) gone (s.queue key)
      (ledgerOf out inn key)
  frame : ∀ a, (∀ o ∈ s.cur, o.isSend = false → ¬ InRange o.buf o.bytes a) → s.mem a = s.base a

theorem mem_opsWith {key : Key} {ops : List P2pOp} {o : P2pOp} (h : o ∈ opsWith key ops) :
    o ∈ ops ∧ o.isSend = key.2 ∧ o.peer = key.1 ∧ o.bytes ≠ 0 := by
  obtain ⟨hmem, hp⟩ := List.mem_filter.mp h
  exact ⟨hmem, by simpa using hp⟩

theorem map_op_enqueue (ops : List P2pOp) : (enqueue ops).map Active.op = ops := by
  simp [enqueue, Function.comp_def]

theorem opsWith_append (key : Key) (a b : List P2pOp) :
    opsWith key (a ++ b) = opsWith key a ++ opsWith key b := List.filter_append ..

/-- Receives with different peers have buffers of their own. -/
theorem RecvsApart.of_ne {cur : List P2pOp} (h : RecvsApart cur) {x y : Nat} {o a : P2pOp}
    (ho : o ∈ opsWith (x, false) cur) (ha : a ∈ opsWith (y, false) cur) (hne : o ≠ a) :
    Apart o.buf o.bytes a.buf a.bytes := by
  obtain ⟨homem, hod, -, hob⟩ := mem_opsWith ho
  obtain ⟨hamem, had, -, hab⟩ := mem_opsWith ha
  have hsymm : Std.Symm fun a b : P2pOp => Apart a.buf a.bytes b.buf b.bytes :=
    ⟨fun _ _ h => h.symm⟩
  exact List.Pairwise.forall h (List.mem_filter.mpr ⟨homem, by simp [hod, hob]⟩)
    (List.mem_filter.mpr ⟨hamem, by simp [had, hab]⟩) hne

/-- And so do receives from one peer. -/
theorem RecvsApart.of_order {cur gone rest : List P2pOp} (h : RecvsApart cur) {x : Nat} {o a : P2pOp}
    (hcur : opsWith (x, false) cur = gone ++ a :: rest) (ho : o ∈ gone) :
    Apart o.buf o.bytes a.buf a.bytes := by
  have hsub : (opsWith (x, false) cur).Sublist
      (cur.filter fun op => op.isSend = false ∧ op.bytes ≠ 0) := by
    refine List.monotone_filter_right cur fun op => ?_
    simp only [decide_eq_true_eq]
    exact fun hop => ⟨hop.1, hop.2.2⟩
  have hpair := List.Pairwise.sublist hsub h
  rw [hcur, List.pairwise_append] at hpair
  exact hpair.2.2 o ho a List.mem_cons_self

theorem inRange_sub {p a : Ptr} {j k b : Nat} (h : InRange (p + j) k a) (hle : j + k ≤ b) :
    InRange p b a := by
  obtain ⟨hobj, h1, h2⟩ := h
  simp only [Ptr.add_obj, Ptr.add_off] at hobj h1 h2
  exact ⟨hobj, by omega, by omega⟩

theorem ledgerOf_put_self {out inn : Nat → Net.Ledger UInt8} {x : Nat} {l : Net.Ledger UInt8} :
    ledgerOf (Function.update out x l) inn (x, true) = l := by simp [ledgerOf]

theorem ledgerOf_put_ne {out inn : Nat → Net.Ledger UInt8} {x : Nat} {l : Net.Ledger UInt8} {key : Key}
    (h : key ≠ (x, true)) : ledgerOf (Function.update out x l) inn key = ledgerOf out inn key := by
  obtain ⟨y, d⟩ := key
  cases d with
  | false => rfl
  | true =>
    have hy : y ≠ x := fun heq => h (by rw [heq])
    simp [ledgerOf, hy]

theorem ledgerOf_take_self {out inn : Nat → Net.Ledger UInt8} {x : Nat} {l : Net.Ledger UInt8} :
    ledgerOf out (Function.update inn x l) (x, false) = l := by simp [ledgerOf]

theorem ledgerOf_take_ne {out inn : Nat → Net.Ledger UInt8} {x : Nat} {l : Net.Ledger UInt8} {key : Key}
    (h : key ≠ (x, false)) : ledgerOf out (Function.update inn x l) key = ledgerOf out inn key := by
  obtain ⟨y, d⟩ := key
  cases d with
  | true => rfl
  | false =>
    have hy : y ≠ x := fun heq => h (by rw [heq])
    simp [ledgerOf, hy]

section Invariant

variable {all : List P2pOp} {s : Desk} {out inn : Nat → Net.Ledger UInt8}

/-- The transfers of the call are those that have left the queue and those in it. -/
theorem split_advance {cur gone : List P2pOp} {a : Active P2pOp} {rest : List (Active P2pOp)} {k : Nat}
    (h : cur = gone ++ (a :: rest).map Active.op) :
    cur = (if a.done + k = a.op.bytes then gone ++ [a.op] else gone) ++
      (advance P2pOp.bytes k (a :: rest)).map Active.op := by
  rw [h, advance]
  split
  · simp
  · simp

theorem DeskInv.begin (h : DeskInv all s out inn) (ops rest : List P2pOp) (m : Mem)
    (hq : ∀ key, s.queue key = []) (hr : s.rest = ops ++ rest) :
    DeskInv all ⟨m, m, s.past ++ s.cur, ops, rest, fun key => enqueue (opsWith key ops)⟩ out inn := by
  refine ⟨?_, fun key => ?_, fun _ _ => rfl⟩
  · rw [← h.total, hr, List.append_assoc]
  · obtain ⟨gone, hcur, hl, -⟩ := h.lane key
    rw [hq key] at hcur hl
    rw [List.map_nil, List.append_nil] at hcur
    refine ⟨[], (map_op_enqueue _).symm, ?_, ?_⟩
    · rw [opsWith_append, hcur]
      exact hl.next fun o ho => Nat.pos_of_ne_zero (mem_opsWith ho).2.2.2
    · rw [opsWith_append, hcur]
      exact Net.holds_next hl fun _ => rfl

theorem DeskInv.put (h : DeskInv all s out inn) {x : Nat} {a : Active P2pOp}
    {rest : List (Active P2pOp)} {k : Nat} (hq : s.queue (x, true) = a :: rest)
    (hle : a.done + k ≤ a.op.bytes) :
    DeskInv all
      { s with queue := Function.update s.queue (x, true) (advance P2pOp.bytes k (a :: rest)) }
      (Function.update out x ((out x).add (load s.mem (slice (a.op.buf + a.done) k))
        (decide (a.done + k = a.op.bytes)))) inn := by
  refine ⟨h.total, fun key => ?_, h.frame⟩
  obtain ⟨gone, hcur, hl, hh⟩ := h.lane key
  by_cases hkey : key = (x, true)
  · subst hkey
    have hlen := load_slice_length s.mem (a.op.buf + a.done) k
    rw [hq] at hcur hl hh
    refine ⟨_, by simpa only [Function.update_self] using split_advance hcur, ?_, ?_⟩
    · have hadv := hl.advance (load s.mem (slice (a.op.buf + a.done) k)) (by rw [hlen]; exact hle)
      rw [hlen] at hadv
      simp only [Function.update_self, ledgerOf_put_self]
      exact hadv
    · have hadv := hh.advance hl (load s.mem (slice (a.op.buf + a.done) k)) (s.read true)
        (fun _ _ _ => rfl) (fun hgood => ?_)
        fun _ => rfl
      · rw [hlen] at hadv
        simp only [Function.update_self, ledgerOf_put_self]
        exact hadv
      · -- no receive of the call has touched the buffer
        rw [hlen, Desk.read, Desk.read, load_slice_append]
        congr 1
        refine Net.load_congr fun b hb => (h.frame b fun o ho hd hin => ?_).symm
        have hin' := inRange_sub (mem_slice.mp hb) hle
        exact (hgood o ho hd).not_mem (mem_slice.mpr hin') (mem_slice.mpr hin)
  · refine ⟨gone, ?_, ?_, ?_⟩
    · simpa only [Function.update_of_ne hkey] using hcur
    · simpa only [Function.update_of_ne hkey, ledgerOf_put_ne hkey] using hl
    · simp only [Function.update_of_ne hkey, ledgerOf_put_ne hkey]
      exact hh

theorem DeskInv.take (h : DeskInv all s out inn) {x : Nat} {a : Active P2pOp}
    {rest : List (Active P2pOp)} {bs : List UInt8} (hq : s.queue (x, false) = a :: rest)
    (hle : a.done + bs.length ≤ a.op.bytes) :
    DeskInv all
      { s with mem := store s.mem (slice (a.op.buf + a.done) bs.length) bs,
               queue := Function.update s.queue (x, false)
                 (advance P2pOp.bytes bs.length (a :: rest)) }
      out (Function.update inn x ((inn x).add bs (decide (a.done + bs.length = a.op.bytes)))) := by
  obtain ⟨gone₀, hcur₀, hl₀, -⟩ := h.lane (x, false)
  rw [hq] at hcur₀
  have ha : a.op ∈ opsWith (x, false) s.cur := by
    rw [hcur₀]
    simp
  obtain ⟨hamem, had, -, -⟩ := mem_opsWith ha
  -- what is written lies in the buffer at hand
  have hkeep : ∀ (o : P2pOp) (b : Nat), b ≤ o.bytes → Apart o.buf o.bytes a.op.buf a.op.bytes →
      load (store s.mem (slice (a.op.buf + a.done) bs.length) bs) (slice o.buf b) =
        load s.mem (slice o.buf b) := by
    intro o b hb hapart
    exact load_store_apart (hapart.mono (j := 0) (by omega) hle)
  refine ⟨h.total, fun key => ?_, fun b hb => ?_⟩
  · obtain ⟨gone, hcur, hl, hh⟩ := h.lane key
    by_cases hkey : key = (x, false)
    · subst hkey
      rw [hq] at hcur hl hh
      refine ⟨_, by simpa only [Function.update_self] using split_advance hcur, ?_, ?_⟩
      · have hadv := hl.advance bs hle
        simp only [Function.update_self, ledgerOf_take_self]
        exact hadv
      · have hadv := hh.advance hl bs
          (fun op k => load (store s.mem (slice (a.op.buf + a.done) bs.length) bs)
            (slice op.buf k))
          (fun o ho hgood => hkeep o o.bytes (Nat.le_refl _) (RecvsApart.of_order hgood hcur ho))
          (fun _ => ?_) fun _ => rfl
        · simp only [Function.update_self, ledgerOf_take_self]
          exact hadv
        · simp only [Desk.read, Bool.false_eq_true, if_false]
          rw [load_slice_append, load_store_slice]
          congr 1
          exact load_store_apart (apart_add (p := a.op.buf) (j := 0) (Or.inl (by omega)))
    · refine ⟨gone, ?_, ?_, ?_⟩
      · simpa only [Function.update_of_ne hkey] using hcur
      · simpa only [Function.update_of_ne hkey, ledgerOf_take_ne hkey] using hl
      · obtain ⟨y, d⟩ := key
        simp only [Function.update_of_ne hkey, ledgerOf_take_ne hkey]
        cases d with
        | true => exact hh
        | false =>
          have hyx : y ≠ x := fun heq => hkey (by rw [heq])
          have hne : ∀ o ∈ opsWith (y, false) s.cur, o ≠ a.op := by
            rintro o ho rfl
            exact hyx ((mem_opsWith ho).2.2.1.symm.trans (mem_opsWith ha).2.2.1)
          refine hh.keep (fun o ho hgood => ?_) fun b rest' hb hgood => ?_
          · have hmem : o ∈ opsWith (y, false) s.cur := by
              rw [hcur]
              exact List.mem_append_left _ ho
            exact hkeep o o.bytes (Nat.le_refl _) (RecvsApart.of_ne hgood hmem ha (hne o hmem))
          · have hmem : b.op ∈ opsWith (y, false) s.cur := by
              rw [hcur, hb]
              simp
            have hlt := (hl.first b rest' hb).1
            exact hkeep b.op b.done (Nat.le_of_lt hlt)
              (RecvsApart.of_ne hgood hmem ha (hne b.op hmem))
  · rw [← h.frame b hb]
    exact store_slice_miss fun hin => hb a.op hamem had (inRange_sub hin hle)

/-- A step of the queues keeps the invariant. -/
theorem DeskInv.step {r : Nat} {s' : Desk} {a : Act Nat UInt8} (h : DeskInv all s out inn)
    (hs : DeskStep r s a s') : DeskInv all s' (a.out out) (a.inn inn) := by
  cases hs with
  | begin hq hr => exact h.begin _ _ _ hq hr
  | move hmove =>
    cases hmove with
    | idle => exact h
    | put hp hq hk hle => exact h.put hq hle
    | take hp hq hk hle => exact h.take hq hle

end Invariant

/-! ## Delivery -/

/-- A rank before its calls. -/
def Rank.init (m : Mem) (calls : List Call) : Rank := ⟨m, calls, none, false, [], [], m⟩

/-- The transfers of all calls of a rank. -/
def opsOf (prog : Nat → List Call) (r : Nat) : List P2pOp := (prog r).flatMap Call.ops

/-- The runs of `n` ranks that make the calls `prog`. -/
def TcpRun (n : Nat) (cap : Nat → Nat → Nat) (mem : Nat → Mem) (prog : Nat → List Call)
    (c : Flow Nat UInt8 Rank) : Prop :=
  FlowRun cap (fun r s a s' => r < n ∧ (RankStep r s a s' ∨ RankFail s a s'))
    (Flow.start fun r => Rank.init (mem r) (prog r)) c

/-- A rank's calls stay within their messages and buffers, and in order. -/
structure InBounds (prog : Nat → List Call) (c : Flow Nat UInt8 Rank) (r : Nat) : Prop where
  /-- The transfers of a call with one peer in one direction are complete in the order of issue: what
  is left of them is the end of the list. -/
  order : ∀ key, ∃ gone, opsWith key (c.st r).cur = gone ++ ((c.st r).desk.queue key).map Active.op ∧
    (ledgerOf (c.out r) (c.inn r) key).done.length =
      (opsWith key (c.st r).past).length + gone.length
  /-- A call writes into its receive buffers only. -/
  writes : ∀ l a m l', (c.st r).loop = some l → LoopStep r (c.st r).mem l a m l' →
    ∀ b, m b ≠ (c.st r).mem b → ∃ o ∈ (c.st r).cur, o.isSend = false ∧ InRange o.buf o.bytes b
  /-- A call reads no byte past the message it is at. -/
  reads : ∀ l x bs fin m l', (c.st r).loop = some l →
    LoopStep r (c.st r).mem l (.take x bs fin) m l' →
    ∃ o, (opsWith (x, false) (opsOf prog r))[(c.inn r x).done.length]? = some o ∧
      (c.inn r x).part.length + bs.length ≤ o.bytes

section Delivery

variable {n : Nat} {cap : Nat → Nat → Nat} {mem : Nat → Mem} {prog : Nat → List Call}
  {c : Flow Nat UInt8 Rank}

theorem init_ok (m : Mem) (calls : List Call) : (Rank.init m calls).Ok := by
  intro l hl
  cases hl

theorem deskInv_init (m : Mem) (calls : List Call) :
    DeskInv (calls.flatMap Call.ops) (Rank.init m calls).desk (fun _ => ⟨[], []⟩) fun _ => ⟨[], []⟩ := by
  refine ⟨rfl, fun key => ⟨[], rfl, ?_, ?_⟩, fun _ _ => rfl⟩
  · rw [ledgerOf, ite_self]
    exact Net.lane_empty _
  · exact ⟨nofun, nofun⟩

/-- The invariant of every rank, in every run. -/
theorem TcpRun.inv (h : TcpRun n cap mem prog c) (r : Nat) :
    (c.st r).Ok ∧ DeskInv (opsOf prog r) (c.st r).desk (c.out r) (c.inn r) := by
  obtain ⟨hok, hrun⟩ := Net.flow_map (I := fun _ s => s.Ok) (f := Rank.desk)
    (K := fun r => DeskStep r) (fun _ => init_ok _ _)
    (fun p s a s' hI hL => rank_refines hI hL.2) h
  refine ⟨hok r, ?_⟩
  exact Net.flow_local (I := fun r s out inn => DeskInv (opsOf prog r) s out inn)
    (fun r => deskInv_init _ _) (fun p s a s' out inn hI hL => hI.step hL) hrun r

theorem DeskInv.whole {all : List P2pOp} {s : Desk} {out inn : Nat → Net.Ledger UInt8}
    (h : DeskInv all s out inn) (key : Key) {i : Nat} {o : P2pOp}
    (ho : (opsWith key s.cur)[i]? = some o) (hgood : s.good key.2 o)
    (hlt : (opsWith key s.past).length + i < (ledgerOf out inn key).done.length) :
    (ledgerOf out inn key).done[(opsWith key s.past).length + i]? =
      some (s.read key.2 o o.bytes) := by
  obtain ⟨gone, hcur, hl, hh⟩ := h.lane key
  have hcount := hl.count
  rw [List.length_append] at hcount
  refine hh.whole i o ?_ hgood
  rw [hcur, List.getElem?_append_left (by omega)] at ho
  exact ho

theorem desk_queue_none {s : Rank} (h : s.loop = none) (key : Key) : s.desk.queue key = [] := by
  simp only [Rank.desk, h]

end Delivery

def pairMem (r : Nat) : Mem := fun a => if r = 0 then UInt8.ofNat (a.off + 5) else 0

theorem TcpRun.snoc {n : Nat} {cap : Nat → Nat → Nat} {mem : Nat → Mem} {prog : Nat → List Call}
    {c : Flow Nat UInt8 Rank} (h : TcpRun n cap mem prog c) {p : Nat} (hp : p < n)
    {a : Act Nat UInt8} {s : Rank} (hs : RankStep p (c.st p) a s) (ha : c.Allows cap p a) :
    TcpRun n cap mem prog (c.act p a s) := h.tail ⟨p, a, s, ⟨hp, Or.inl hs⟩, ha, rfl⟩

end Vccl.Tcp
