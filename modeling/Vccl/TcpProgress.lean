import Vccl.Tcp

/-!
# Batches over TCP run through (`TcpTransport::batch`)

Every rank is in one `batch`, and none fails. A pass tries the head of every queue once, so a rank can
go on as soon as one stream that has a queue lets it. Streams are bounded; whether somebody can go on
is a matter of bytes: of what the queues of two ranks for one stream have still to move, and of what
is under way.

* `queue_ne_nil_iff`: a queue is not empty as long as not all bytes of its transfers have moved.
* `scan_to`: a pass comes to every queue.
* `passMoves_send`, `passMoves_recv`: room, or bytes, for a queue that is not empty.
-/

namespace Vccl.Tcp

open Net (Act Active Flow FlowRun load enqueue)

/-- A rank at the beginning of a `batch`. -/
def Rank.inBatch (m : Mem) (ops : List P2pOp) : Rank :=
  ⟨m, [], some (Call.batch ops).start, false, [], ops, m⟩

/-- The runs of `n` ranks that each make one `batch`, none of which fails. -/
def BatchRun (n : Nat) (cap : Nat → Nat → Nat) (mem : Nat → Mem) (ops : Nat → List P2pOp)
    (c : Flow Nat UInt8 Rank) : Prop :=
  FlowRun cap (fun r s a s' => r < n ∧ RankStep r s a s')
    (Flow.start fun r => Rank.inBatch (mem r) (ops r)) c

/-- A rank whose `batch` has transfers that are not complete. -/
def Unfinished (s : Rank) : Prop := ∃ t pass, s.loop = some (.batch t pass) ∧ 0 < t.remaining

/-- Bytes move. -/
def MovesBytes (a : Act Nat UInt8) : Prop :=
  ∃ x bs fin, (a = .put x bs fin ∨ a = .take x bs fin) ∧ 0 < bs.length

/-- **The next pass of rank `r` over its queues can move a byte**: passing over queues without moving
anything, it comes to one whose system call the streams let move at least one byte. -/
def PassMoves (cap : Nat → Nat → Nat) (c : Flow Nat UInt8 Rank) (r : Nat) : Prop :=
  ∃ l l' l'' a m, (c.st r).loop = some l ∧
    Relation.ReflTransGen (fun l l' => LoopStep r (c.st r).mem l .tau (c.st r).mem l') l l' ∧
    LoopStep r (c.st r).mem l' a m l'' ∧ MovesBytes a ∧ c.Allows cap r a

/-- No rank has a transfer with itself. -/
def NoSelf (n : Nat) (ops : Nat → List P2pOp) : Prop :=
  ∀ r, r < n → ∀ op ∈ ops r, op.bytes ≠ 0 → op.peer ≠ r

section Progress

variable {n : Nat} {cap : Nat → Nat → Nat} {mem : Nat → Mem} {ops : Nat → List P2pOp}
  {c : Flow Nat UInt8 Rank}

/-- A rank in its `batch`, or after it. -/
structure InBatch (s : Rank) : Prop where
  ok : s.Ok
  calls : s.calls = []
  loop : ∀ l, s.loop = some l → ∃ t pass, l = .batch t pass

theorem InBatch.step {r : Nat} {s s' : Rank} {a : Act Nat UInt8} (h : InBatch s)
    (hs : RankStep r s a s') : InBatch s' := by
  refine ⟨(rank_refines h.ok (Or.inl hs)).1, ?_, ?_⟩
  · cases hs with
    | call _ _ hc =>
      rw [h.calls] at hc
      cases hc
    | work => exact h.calls
    | ret => exact h.calls
  · intro l' hl'
    cases hs with
    | call _ _ hc =>
      rw [h.calls] at hc
      cases hc
    | ret => cases hl'
    | work _ hl hstep =>
      cases hl'
      obtain ⟨t, pass, rfl⟩ := h.loop _ hl
      cases hstep with
      | pass => exact ⟨_, _, rfl⟩
      | skip => exact ⟨_, _, rfl⟩
      | batchSend => exact ⟨_, _, rfl⟩
      | batchRecv => exact ⟨_, _, rfl⟩

theorem deskInv_inBatch (m : Mem) (ops : List P2pOp) :
    DeskInv ops (Rank.inBatch m ops).desk (fun _ => ⟨[], []⟩) fun _ => ⟨[], []⟩ := by
  have hbegin := (deskInv_init m [.batch ops]).begin ops [] m (fun _ => rfl) rfl
  have hdesk : (Rank.inBatch m ops).desk =
      ⟨m, m, [], ops, [], fun key => enqueue (opsWith key ops)⟩ := by
    rw [desk_of_loop (s := Rank.inBatch m ops) rfl, start_queue]
    rfl
  have hall : [Call.batch ops].flatMap Call.ops = ops := List.append_nil ops
  rw [hall] at hbegin
  rw [hdesk]
  exact hbegin

/-- The invariant of every rank in a run of batches. -/
theorem BatchRun.inv (h : BatchRun n cap mem ops c) (r : Nat) :
    InBatch (c.st r) ∧ DeskInv (ops r) (c.st r).desk (c.out r) (c.inn r) := by
  obtain ⟨hin, hrun⟩ := Net.flow_map (I := fun _ s => InBatch s) (f := Rank.desk)
    (K := fun r => DeskStep r)
    (fun r => ⟨fun l hl => by cases hl; exact start_ok (.batch (ops r)), rfl,
      fun l hl => by cases hl; exact ⟨_, _, rfl⟩⟩)
    (fun p s a s' hI hL => ⟨hI.step hL.2, (rank_refines hI.ok (Or.inl hL.2)).2⟩) h
  refine ⟨hin r, ?_⟩
  exact Net.flow_local (I := fun r s out inn => DeskInv (ops r) s out inn)
    (fun r => deskInv_inBatch _ _) (fun p s a s' out inn hI hL => hI.step hL) hrun r

/-- The bytes of all transfers of a key. -/
def total (ops : List P2pOp) (key : Key) : Nat := ((opsWith key ops).map P2pOp.bytes).sum

theorem total_lane {all : List P2pOp} {s : Desk} {out inn : Nat → Net.Ledger UInt8}
    (h : DeskInv all s out inn) (hrest : s.rest = []) (key : Key) {gone : List P2pOp}
    (hcur : opsWith key s.cur = gone ++ (s.queue key).map Active.op) :
    total all key = ((opsWith key s.past).map P2pOp.bytes).sum + (gone.map P2pOp.bytes).sum +
      (((s.queue key).map Active.op).map P2pOp.bytes).sum := by
  rw [total, ← h.total, hrest, List.append_nil, opsWith_append, hcur]
  simp only [List.map_append, List.sum_append]
  omega

/-- A queue is not empty as long as not all bytes have moved. -/
theorem queue_ne_nil_iff {all : List P2pOp} {s : Desk} {out inn : Nat → Net.Ledger UInt8}
    (h : DeskInv all s out inn) (hrest : s.rest = []) (key : Key) :
    s.queue key ≠ [] ↔ (ledgerOf out inn key).bytes.length < total all key := by
  obtain ⟨gone, hcur, hl, -⟩ := h.lane key
  rw [total_lane h hrest key hcur]
  exact ⟨hl.left, hl.ne_nil⟩

/-- A pass goes over queues without moving anything. -/
theorem scan_over (r : Nat) (m : Mem) (t : Table) (pass rest : List Key) :
    Relation.ReflTransGen (fun l l' => LoopStep r m l .tau m l') (.batch t (pass ++ rest))
      (.batch t rest) := by
  induction pass with
  | nil => exact .refl
  | cons key pass ih => exact .head .skip ih

theorem scan_to {r : Nat} {m : Mem} {t : Table} (hrem : 0 < t.remaining) {key : Key}
    (hkey : key ∈ t.keys) (pass : List Key) :
    ∃ pass', Relation.ReflTransGen (fun l l' => LoopStep r m l .tau m l') (.batch t pass)
      (.batch t (key :: pass')) := by
  obtain ⟨before, after, hsplit⟩ := List.append_of_mem hkey
  refine ⟨after, ?_⟩
  have hend := scan_over r m t pass []
  rw [List.append_nil] at hend
  have hnext := scan_over r m t before (key :: after)
  rw [← hsplit] at hnext
  exact hend.trans (.head (.pass hrem) hnext)

/-- A queue that is not empty is under a key, and counted. -/
theorem Table.Counted.pos {t : Table} (h : t.Counted) (key : Key) (hq : t.queues key ≠ []) :
    key ∈ t.keys ∧ 0 < t.remaining := by
  refine ⟨h.covers key hq, Nat.pos_of_ne_zero fun h0 => hq (h.empty h0 key)⟩

/-- A rank with a queue that is not empty is in its `batch`, with the queue's head under way. -/
theorem head_of_queue (h : BatchRun n cap mem ops c) {r : Nat} {key : Key}
    (hq : (c.st r).desk.queue key ≠ []) :
    ∃ t pass a rest, (c.st r).loop = some (.batch t pass) ∧ t.Counted ∧
      t.queues key = a :: rest ∧ a.done < a.op.bytes := by
  obtain ⟨hin, hinv⟩ := h.inv r
  cases hl : (c.st r).loop with
  | none => exact absurd (desk_queue_none hl key) hq
  | some l =>
    obtain ⟨t, pass, rfl⟩ := hin.loop l hl
    have hqueue : (c.st r).desk.queue = t.queues := by
      rw [desk_of_loop hl]
      rfl
    obtain ⟨gone, -, hlane, -⟩ := hinv.lane key
    rw [hqueue] at hq hlane
    cases htq : t.queues key with
    | nil => exact absurd htq hq
    | cons a rest =>
      rw [htq] at hlane
      exact ⟨t, pass, a, rest, rfl, hin.ok _ hl, htq, (hlane.first a rest rfl).1⟩

theorem passMoves_send (h : BatchRun n cap mem ops c) {r x : Nat} (hx : x ≠ r)
    (hq : (c.st r).desk.queue (x, true) ≠ []) (hroom : (c.chan r x).length < cap r x) :
    PassMoves cap c r := by
  obtain ⟨t, pass, a, rest, hl, hcount, htq, hlt⟩ := head_of_queue h hq
  obtain ⟨hkey, hrem⟩ := hcount.pos (x, true) (by rw [htq]; exact List.cons_ne_nil _ _)
  obtain ⟨pass', hscan⟩ := scan_to (r := r) (m := (c.st r).mem) hrem hkey pass
  refine ⟨_, _, _, _, _, hl, hscan, .batchSend hx htq Nat.one_pos hlt,
    ⟨x, _, _, Or.inl rfl, by rw [load_slice_length]; exact Nat.one_pos⟩, ?_⟩
  show (c.chan r x).length + (load _ _).length ≤ cap r x
  rw [load_slice_length]
  exact hroom

theorem passMoves_recv (h : BatchRun n cap mem ops c) {r x : Nat} (hx : x ≠ r)
    (hq : (c.st r).desk.queue (x, false) ≠ []) (hbytes : c.chan x r ≠ []) : PassMoves cap c r := by
  obtain ⟨t, pass, a, rest, hl, hcount, htq, hlt⟩ := head_of_queue h hq
  obtain ⟨hkey, hrem⟩ := hcount.pos (x, false) (by rw [htq]; exact List.cons_ne_nil _ _)
  obtain ⟨pass', hscan⟩ := scan_to (r := r) (m := (c.st r).mem) hrem hkey pass
  cases hchan : c.chan x r with
  | nil => exact absurd hchan hbytes
  | cons b bs =>
    refine ⟨_, _, _, _, _, hl, hscan, .batchRecv hx htq (show 0 < [b].length from Nat.one_pos) hlt,
      ⟨x, [b], _, Or.inr rfl, Nat.one_pos⟩, ?_⟩
    show [b] <+: c.chan x r
    rw [hchan]
    exact ⟨bs, rfl⟩

theorem desk_rest (h : BatchRun n cap mem ops c) (r : Nat) : (c.st r).desk.rest = [] := by
  simp [Rank.desk, (h.inv r).1.calls]

/-- The peer of a queue that is not empty is another rank. -/
theorem peer_of_queue (hm : MatchedOps n ops) (hself : NoSelf n ops) (h : BatchRun n cap mem ops c)
    {r : Nat} (hr : r < n) {key : Key} (hq : (c.st r).desk.queue key ≠ []) :
    key.1 < n ∧ key.1 ≠ r := by
  obtain ⟨-, hinv⟩ := h.inv r
  obtain ⟨gone, hcur, -⟩ := hinv.lane key
  obtain ⟨a, ha⟩ := List.exists_mem_of_ne_nil _ hq
  have hmem : a.op ∈ opsWith key (c.st r).desk.cur := by
    rw [hcur]
    exact List.mem_append_right _ (List.mem_map_of_mem ha)
  obtain ⟨hcurm, -, hpeer, hb⟩ := mem_opsWith hmem
  have hall : a.op ∈ ops r := by
    rw [← hinv.total]
    exact List.mem_append_left _ (List.mem_append_right _ hcurm)
  rw [← hpeer]
  exact ⟨hm.peer r hr _ hall, hself r hr _ hall hb⟩

/-- **A batch over TCP does not get stuck.** As long as some rank has transfers that are not complete,
there is a rank whose next pass over its queues can move a byte: where a stream is full its reader can
read, and where it is empty its writer can write. -/
theorem tcp_batch_progress (n : Nat) (cap : Nat → Nat → Nat) (hcap : ∀ p q, 0 < cap p q)
    (mem : Nat → Mem) (ops : Nat → List P2pOp) (hm : MatchedOps n ops) (hself : NoSelf n ops)
    (c : Flow Nat UInt8 Rank) (h : BatchRun n cap mem ops c) (r : Nat) (hr : r < n)
    (hun : Unfinished (c.st r)) : ∃ q, q < n ∧ PassMoves cap c q := by
  obtain ⟨t, pass, hl, hrem⟩ := hun
  obtain ⟨hin, hinv⟩ := h.inv r
  have hqueue : (c.st r).desk.queue = t.queues := by
    rw [desk_of_loop hl]
    rfl
  -- some queue of the rank is not empty
  obtain ⟨⟨x, d⟩, hq⟩ : ∃ key, (c.st r).desk.queue key ≠ [] := by
    by_contra hnone
    have hzero : t.remaining = 0 := by
      have hcount := (hin.ok _ hl : t.Counted).count
      rw [hcount]
      refine List.sum_eq_zero fun k hk => ?_
      obtain ⟨key, -, rfl⟩ := List.mem_map.mp hk
      have hempty : t.queues key = [] := by
        by_contra hne
        exact hnone ⟨key, by rw [hqueue]; exact hne⟩
      rw [hempty]
      rfl
    omega
  obtain ⟨hx, hxr⟩ := peer_of_queue hm hself h hr hq
  obtain ⟨-, hinvx⟩ := h.inv x
  have hlt := (queue_ne_nil_iff hinv (desk_rest h r) (x, d)).mp hq
  cases d with
  | true =>
    rcases Nat.lt_or_ge (c.chan r x).length (cap r x) with hroom | hfull
    · exact ⟨r, hr, passMoves_send h hxr hq hroom⟩
    · -- the stream is full, so not all of it has been read
      have hne : c.chan r x ≠ [] := by
        intro hnil
        have := hcap r x
        rw [hnil] at hfull
        simp at hfull
        omega
      have hbytes := congrArg List.length (Net.flow_bytes h r x)
      rw [List.length_append] at hbytes
      have hpos := List.length_pos_of_ne_nil hne
      have htotal : total (ops r) (x, true) = total (ops x) (r, false) :=
        congrArg List.sum (hm.sizes r x hr hx)
      refine ⟨x, hx, passMoves_recv h (Ne.symm hxr) ?_ hne⟩
      rw [queue_ne_nil_iff hinvx (desk_rest h x) (r, false), ← htotal]
      have hlt' : (c.out r x).bytes.length < total (ops r) (x, true) := hlt
      show (c.inn x r).bytes.length < _
      omega
  | false =>
    by_cases hne : c.chan x r = []
    · -- nothing is under way, so not all of it has been written
      have hbytes := congrArg List.length (Net.flow_bytes h x r)
      rw [List.length_append, hne, List.length_nil] at hbytes
      have htotal : total (ops x) (r, true) = total (ops r) (x, false) :=
        congrArg List.sum (hm.sizes x r hx hr)
      refine ⟨x, hx, passMoves_send h (Ne.symm hxr) ?_ ?_⟩
      · rw [queue_ne_nil_iff hinvx (desk_rest h x) (r, true), htotal]
        have hlt' : (c.inn r x).bytes.length < total (ops r) (x, false) := hlt
        show (c.out x r).bytes.length < _
        omega
      · rw [hne]
        exact hcap x r
    · exact ⟨r, hr, passMoves_recv h hxr hq hne⟩

end Progress

theorem noSelf_sendsThenRecvs (k : Nat) : NoSelf 2 (sendsThenRecvs k) := by
  intro r hr op hop _
  rcases List.mem_append.mp hop with h | h
  · rw [(List.mem_replicate.mp h).2]
    show 1 - r ≠ r
    omega
  · rw [(List.mem_replicate.mp h).2]
    show 1 - r ≠ r
    omega

theorem BatchRun.snoc {n : Nat} {cap : Nat → Nat → Nat} {mem : Nat → Mem} {ops : Nat → List P2pOp}
    {c : Flow Nat UInt8 Rank} (h : BatchRun n cap mem ops c) {p : Nat} (hp : p < n)
    {a : Act Nat UInt8} {s : Rank} (hs : RankStep p (c.st p) a s) (ha : c.Allows cap p a) :
    BatchRun n cap mem ops (c.act p a s) := h.tail ⟨p, a, s, ⟨hp, hs⟩, ha, rfl⟩

/-- Two ranks with two sends and then two receives each, on streams of one byte: rank 0 has sent a
byte, and its stream is full. -/
theorem tcp_batch_progress_pair : ∃ c, BatchRun 2 (fun _ _ => 1) pairMem (sendsThenRecvs 2) c ∧
    (c.chan 0 1).length = 1 ∧ Unfinished (c.st 0) ∧ ∃ q, q < 2 ∧ PassMoves (fun _ _ => 1) c q := by
  have h0 : BatchRun 2 (fun _ _ => 1) pairMem (sendsThenRecvs 2)
    (Flow.start fun r => Rank.inBatch (pairMem r) (sendsThenRecvs 2 r)) := .refl
  have h1 := h0.snoc (p := 0) (by decide) (.work rfl rfl (.pass (by decide))) trivial
  have h2 := h1.snoc (p := 0) (by decide) (.work rfl rfl .skip) trivial
  have h3 := h2.snoc (p := 0) (by decide)
    (.work rfl rfl (.batchSend (k := 1) (x := 1) (by decide) rfl (by decide) (by decide)))
    (Nat.le_of_ble_eq_true rfl)
  refine ⟨_, h3, rfl, ?_, tcp_batch_progress 2 _ (fun _ _ => Nat.one_pos) _ _
    (matched_sendsThenRecvs 2) (noSelf_sendsThenRecvs 2) _ h3 0 (by decide) ?_⟩
  all_goals exact ⟨_, _, rfl, Nat.le_of_ble_eq_true rfl⟩

end Vccl.Tcp
