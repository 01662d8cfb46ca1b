import Vccl.Ahead
import Vccl.Net.Pieces
import Vccl.PinnedBuffers
import Vccl.TcpProgress

/-!
# Collectives over TCP (`collectives.cc` over `TcpTransport`)

A collective makes its transport calls one after another, and computes between them. Over TCP a call is
one of the loops of `Vccl.Tcp`: `send` and `recv` are `sendAll` and `recvAll`, `sendRecv` is
`duplexTransfer`; `postRecvs` and the registrations are the no-ops of `Transport`. A `Party` is a rank
that runs collectives so. Its calls may fail, and then it makes no further one.

Every step of a party is a step of the processes of `Vccl.Net.Pieces`, or none (`party_pieces`), and the
other way round a step of a process can be made by its party in a few steps of its loop
(`party_follows`): `duplexTransfer` comes back to its `poll`, and `poll` may find the one direction ready
that can move.

* `not_toSelf`: no collective has a transfer of a rank with itself. `fds_` has no socket for it.
* `SeqRun`: the runs of ranks, whatever the streams hold and however they cut the messages.
-/

namespace Vccl

/-! ## Nobody sends to itself -/

/-- A transfer with rank `r`. -/
def Call.toSelf (r : Nat) : Call → Bool
  | .send peer _ _ => decide (peer = r)
  | .recv peer _ _ => decide (peer = r)
  | .sendRecv sp _ _ rp _ _ => decide (sp = r ∨ rp = r)
  | _ => false

section NotSelf

variable {n r : Nat}

theorem toSelf_sendRecv {sp rp sn rn : Nat} {sb rb : Ptr} (hs : sp ≠ r) (hr : rp ≠ r) :
    Call.toSelf r (.sendRecv sp sb sn rp rb rn) = false := decide_eq_false (not_or.mpr ⟨hs, hr⟩)

theorem add_mod_ne_self {d : Nat} (hr : r < n) (h0 : 0 < d) (hd : d < n) : (r + d) % n ≠ r := by
  have h := add_mod_ne (x := r) h0 hd
  rwa [Nat.mod_eq_of_lt hr] at h

theorem sub_mod_ne_self {d : Nat} (hr : r < n) (h0 : 0 < d) (hd : d < n) : (r + n - d) % n ≠ r := by
  rw [Nat.add_sub_assoc (Nat.le_of_lt hd)]
  exact add_mod_ne_self hr (Nat.sub_pos_of_lt hd) (Nat.sub_lt (Nat.lt_trans h0 hd) h0)

theorem next_ne (hr : r < n) (hn : 1 < n) : next n r ≠ r := add_mod_ne_self hr Nat.one_pos hn

theorem prev_ne (hr : r < n) (hn : 1 < n) : prev n r ≠ r := sub_mod_ne_self hr Nat.one_pos hn

theorem ring_ne (hr : r < n) {s : Nat} (hs : s ∈ List.range (n - 1)) : next n r ≠ r ∧ prev n r ≠ r := by
  have hn : 1 < n := by
    have := List.mem_range.mp hs
    omega
  exact ⟨next_ne hr hn, prev_ne hr hn⟩

theorem notSelf_ringReduceScatter (hr : r < n) {data : Ptr} {chunks : Nat → Chunk} {dt : DataType}
    {op : RedOp} : Lacks (Call.toSelf r) (ringReduceScatter n r data chunks dt op) :=
  lacks_cons rfl (lacks_flatMap fun _ hs => lacks_cons
    (toSelf_sendRecv (ring_ne hr hs).1 (ring_ne hr hs).2) (lacks_ite (lacks_cons rfl lacks_nil) lacks_nil))

theorem notSelf_ringAllGather (hr : r < n) {data : Ptr} {chunks : Nat → Chunk} {shift : Nat} :
    Lacks (Call.toSelf r) (ringAllGather n r data chunks shift) :=
  lacks_cons rfl (lacks_flatMap fun _ hs =>
    lacks_cons (toSelf_sendRecv (ring_ne hr hs).1 (ring_ne hr hs).2) lacks_nil)

theorem notSelf_recursiveDoublingAllGather {data : Ptr} {chunkBytes : Nat} :
    Lacks (Call.toSelf r) (recursiveDoublingAllGather n r data chunkBytes) :=
  lacks_cons rfl (lacks_flatMap fun i _ =>
    lacks_cons (toSelf_sendRecv (Net.xor_ne_self r i) (Net.xor_ne_self r i)) lacks_nil)

theorem notSelf_bruckAllGather (hr : r < n) {recv : Ptr} {chunkBytes : Nat} :
    Lacks (Call.toSelf r) (bruckAllGather n r recv chunkBytes) := by
  unfold bruckAllGather
  refine Lacks.append (Lacks.append (Lacks.append (lacks_ite (lacks_cons rfl lacks_nil) lacks_nil)
    (lacks_cons rfl lacks_nil)) ?_) (lacks_ite ?_ lacks_nil)
  · rw [bruckSteps_eq, List.flatMap_map]
    refine lacks_flatMap fun i hi => lacks_cons ?_ lacks_nil
    have hlt := lt_steps_iff.mp (List.mem_range.mp hi)
    exact toSelf_sendRecv (sub_mod_ne_self hr (Nat.two_pow_pos i) hlt)
      (add_mod_ne_self hr (Nat.two_pow_pos i) hlt)
  · exact (lacks_cons rfl (lacks_map fun _ _ => rfl)).append (lacks_cons rfl lacks_nil)

theorem notSelf_recursiveDoublingAllReduce {recv : Ptr} {count : Nat} {dt : DataType} {op : RedOp} :
    Lacks (Call.toSelf r) (recursiveDoublingAllReduce n r recv count dt op) :=
  lacks_cons rfl (lacks_cons rfl (lacks_flatMap fun i _ => lacks_cons
    (toSelf_sendRecv (Net.xor_ne_self r i) (Net.xor_ne_self r i)) (lacks_cons rfl lacks_nil)))

/-- The partner of an active rank in the core is another rank. -/
theorem corePeers_ne {extra bytes : Nat} {cp : Nat × Ptr}
    (h : cp ∈ corePeers n extra bytes (newRank extra r)) : cp.1 ≠ r := by
  cases hnew : newRank extra r with
  | none =>
    rw [hnew] at h
    exact absurd h List.not_mem_nil
  | some j =>
    rw [hnew] at h
    obtain ⟨i, -, rfl⟩ := List.mem_map.mp h
    intro heq
    have hback : newRank extra (oldRank extra (j ^^^ (1 <<< i))) = some j := by
      rw [show oldRank extra (j ^^^ (1 <<< i)) = r from heq, hnew]
    rw [newRank_oldRank] at hback
    exact Net.xor_ne_self j i (Option.some.inj hback)

theorem notSelf_pow2ElimAllReduce {recv : Ptr} {count : Nat} {dt : DataType} {op : RedOp} :
    Lacks (Call.toSelf r) (pow2ElimAllReduce n r recv count dt op) := by
  have hsucc : decide (r + 1 = r) = false := decide_eq_false (Nat.succ_ne_self r)
  have hpred : r &&& 1 = 1 → decide (r - 1 = r) = false := fun h => decide_eq_false fun he => by
    have h0 : r = 0 := by omega
    rw [h0] at h
    cases h
  unfold pow2ElimAllReduce
  refine Lacks.append (Lacks.append (Lacks.append (lacks_cons rfl (lacks_cons rfl lacks_nil)) ?_)
    (lacks_flatMap fun cp h => lacks_cons (toSelf_sendRecv (corePeers_ne h) (corePeers_ne h))
      (lacks_cons rfl lacks_nil))) ?_
  · split
    · exact lacks_cons hsucc (lacks_cons rfl lacks_nil)
    · split
      · rename_i h
        exact lacks_cons (hpred h.2) lacks_nil
      · exact lacks_nil
  · split
    · exact lacks_cons hsucc lacks_nil
    · split
      · rename_i h
        exact lacks_cons (hpred h.2) lacks_nil
      · exact lacks_nil

theorem notSelf_doReduceScatter (hr : r < n) {s d : Ptr} {count : Nat} {dt : DataType} {op : RedOp}
    {premul : Option Factor} : Lacks (Call.toSelf r) (doReduceScatter n r s d count dt op premul) := by
  have hcopy : Lacks (Call.toSelf r) (if count > 0 ∧ s ≠ d then
      [Call.memcpy d s (count * typeSize dt)] else []) :=
    lacks_ite (lacks_cons rfl lacks_nil) lacks_nil
  have havg : Lacks (Call.toSelf r) (if op = .avg then [Call.cpuScale dt d count (.recip n)] else []) :=
    lacks_ite (lacks_cons rfl lacks_nil) lacks_nil
  unfold doReduceScatter
  refine lacks_cons rfl (lacks_ite (hcopy.append ?_) (Lacks.append (Lacks.append (Lacks.append
    (lacks_cons rfl lacks_nil) ?_) (lacks_flatMap fun i hi => lacks_cons
      (toSelf_sendRecv (ring_ne hr hi).1 (ring_ne hr hi).2) (lacks_ite
        (Lacks.append ?_ (lacks_cons rfl lacks_nil)) ?_))) havg))
  all_goals cases premul with
    | some k => exact lacks_cons rfl lacks_nil
    | none => first
      | exact lacks_nil
      | exact lacks_cons rfl lacks_nil
      | exact lacks_ite (lacks_cons rfl lacks_nil) lacks_nil

theorem notSelf_doAllReduce (hr : r < n) {env : AlgoEnv} {s d : Ptr} {count : Nat} {dt : DataType}
    {op : RedOp} {premul : Option Factor} :
    Lacks (Call.toSelf r) (doAllReduce env n r s d count dt op premul) := by
  simp only [doAllReduce, List.append_assoc, List.cons_append, List.nil_append]
  refine lacks_cons rfl (Lacks.append (lacks_ite (lacks_cons rfl lacks_nil) lacks_nil)
    (Lacks.append ?_ ?_))
  · cases premul with
    | none => exact lacks_nil
    | some k => exact lacks_cons rfl lacks_nil
  · refine lacks_ite lacks_nil (lacks_ite (Lacks.append
      (lacks_ite notSelf_recursiveDoublingAllReduce notSelf_pow2ElimAllReduce)
      (lacks_ite (lacks_cons rfl lacks_nil) lacks_nil)) ?_)
    exact (notSelf_ringReduceScatter hr).append
      (Lacks.append (lacks_ite (lacks_cons rfl lacks_nil) lacks_nil) (notSelf_ringAllGather hr))

theorem notSelf_doReduce (hr : r < n) {s d : Ptr} {count : Nat} {dt : DataType} {op : RedOp}
    {premul : Option Factor} {root : Nat} :
    Lacks (Call.toSelf r) (doReduce n r s d count dt op premul root) := by
  unfold doReduce
  by_cases h1 : n = 1
  · rw [if_pos h1]
    refine (lacks_ite (lacks_cons rfl lacks_nil) lacks_nil).append ?_
    cases premul with
    | none => exact lacks_nil
    | some k => exact lacks_cons rfl lacks_nil
  have hnext : decide (next n r = r) = false := decide_eq_false (next_ne hr (by omega))
  have hprev : decide (prev n r = r) = false := decide_eq_false (prev_ne hr (by omega))
  rw [if_neg h1]
  refine lacks_ite lacks_nil (Lacks.append ((lacks_cons rfl lacks_nil).append
    (lacks_ite (lacks_cons rfl lacks_nil) lacks_nil)) (lacks_flatMap fun j _ => ?_))
  have hcopy : Lacks (Call.toSelf r) (if d + j * kPipeBytes ≠ s + j * kPipeBytes then
      [Call.memcpy (d + j * kPipeBytes) (s + j * kPipeBytes)
        (min kPipeBytes (count * typeSize dt - j * kPipeBytes))] else []) :=
    lacks_ite (lacks_cons rfl lacks_nil) lacks_nil
  cases premul with
  | none =>
    refine lacks_ite (lacks_cons hnext lacks_nil) (lacks_ite ?_ ?_)
    · exact lacks_cons hprev ((hcopy.append (lacks_cons rfl lacks_nil)).append
        (lacks_ite (lacks_cons rfl lacks_nil) lacks_nil))
    · exact lacks_cons hprev (lacks_cons rfl (lacks_cons hnext lacks_nil))
  | some k =>
    refine lacks_ite (lacks_cons rfl (lacks_cons hnext lacks_nil)) (lacks_ite ?_ ?_)
    · exact lacks_cons hprev (lacks_cons rfl (lacks_cons rfl
        (lacks_ite (lacks_cons rfl lacks_nil) lacks_nil)))
    · exact lacks_cons hprev (lacks_cons rfl (lacks_cons hnext lacks_nil))

theorem notSelf_doBroadcast (hr : r < n) {s d : Ptr} {count : Nat} {dt : DataType} {root : Nat} :
    Lacks (Call.toSelf r) (doBroadcast n r s d count dt root) := by
  unfold doBroadcast
  refine Lacks.append (lacks_ite (lacks_cons rfl lacks_nil) lacks_nil) ?_
  split
  · exact lacks_nil
  · rename_i h0
    have hn : 1 < n := by omega
    have hnext : decide (next n r = r) = false := decide_eq_false (next_ne hr hn)
    have hprev : decide (prev n r = r) = false := decide_eq_false (prev_ne hr hn)
    refine (lacks_cons rfl lacks_nil).append (lacks_flatMap fun j _ => ?_)
    refine lacks_ite (lacks_cons hnext lacks_nil) ((lacks_cons hprev lacks_nil).append ?_)
    exact lacks_ite lacks_nil (lacks_cons hnext lacks_nil)

theorem star_ne {s : Nat} (hr : r < n) (hs : s ∈ List.range' 1 (n - 1)) :
    (r + s) % n ≠ r ∧ (r + n - s) % n ≠ r := by
  obtain ⟨h1, h2⟩ := List.mem_range'_1.mp hs
  exact ⟨add_mod_ne_self hr h1 (by omega), sub_mod_ne_self hr h1 (by omega)⟩

theorem notSelf_doGather (hr : r < n) {s d : Ptr} {count : Nat} {dt : DataType} {root : Nat} :
    Lacks (Call.toSelf r) (doGather n r s d count dt root) := by
  unfold doGather
  refine lacks_ite (lacks_ite (lacks_cons rfl lacks_nil) lacks_nil) ?_
  split
  · rename_i hroot
    exact lacks_cons rfl (lacks_cons (decide_eq_false fun h => hroot h.symm) lacks_nil)
  · rename_i hroot
    obtain rfl : r = root := not_not.mp hroot
    refine lacks_cons rfl (Lacks.append (lacks_ite (lacks_cons rfl lacks_nil) lacks_nil)
      (lacks_flatMap fun i hi => lacks_cons (decide_eq_false (star_ne hr hi).1) lacks_nil))

theorem notSelf_doScatter (hr : r < n) {s d : Ptr} {count : Nat} {dt : DataType} {root : Nat} :
    Lacks (Call.toSelf r) (doScatter n r s d count dt root) := by
  unfold doScatter
  refine lacks_ite (lacks_ite (lacks_cons rfl lacks_nil) lacks_nil) ?_
  split
  · rename_i hroot
    exact lacks_cons rfl (lacks_cons (decide_eq_false fun h => hroot h.symm) lacks_nil)
  · rename_i hroot
    obtain rfl : r = root := not_not.mp hroot
    refine lacks_cons rfl (Lacks.append (lacks_ite (lacks_cons rfl lacks_nil) lacks_nil)
      (lacks_flatMap fun i hi => lacks_cons (decide_eq_false (star_ne hr hi).1) lacks_nil))

/-- **No collective has a transfer of a rank with itself.** -/
theorem not_toSelf (hr : r < n) (c : Collective) : Lacks (Call.toSelf r) (c.calls n r) := by
  cases c with
  | allGather =>
    refine Lacks.append ((lacks_cons rfl lacks_nil).append
      (lacks_ite (lacks_cons rfl lacks_nil) lacks_nil)) ?_
    exact lacks_ite lacks_nil (lacks_ite (lacks_ite notSelf_recursiveDoublingAllGather
      (notSelf_bruckAllGather hr)) (notSelf_ringAllGather hr))
  | reduceScatter => exact notSelf_doReduceScatter hr
  | allReduce => exact notSelf_doAllReduce hr
  | reduce => exact notSelf_doReduce hr
  | broadcast => exact notSelf_doBroadcast hr
  | gather => exact notSelf_doGather hr
  | scatter => exact notSelf_doScatter hr
  | allToAllv =>
    refine lacks_cons rfl (lacks_cons rfl (Lacks.append (lacks_ite (lacks_cons rfl lacks_nil) lacks_nil)
      (lacks_flatMap fun i hi => ?_)))
    exact lacks_cons (toSelf_sendRecv (star_ne hr hi).1 (star_ne hr hi).2) lacks_nil

end NotSelf

namespace Tcp

open Net (Flow FlowStep FlowRun Instr PCfg PStep left load store)

/-! ## A rank that runs collectives -/

/-- The transport call of a call; none for what a rank does by itself. -/
def callOf : Vccl.Call → Option Call
  | .send peer buf bytes => some (.send peer buf bytes)
  | .recv peer buf bytes => some (.recv peer buf bytes)
  | .sendRecv sp sb sn rp rb rn => some (.sendRecv sp sb sn rp rb rn)
  | _ => none

/-- A rank that runs collectives: its memory, the calls to come, the transport call at hand, and whether
one has failed. -/
structure Party where
  mem : Mem
  todo : List Vccl.Call
  loop : Option Loop
  failed : Bool

/-- What rank `r` does. -/
inductive PartyStep (K : Kernels) (r : Nat) : Party → Net.Act Nat UInt8 → Party → Prop
  | compute {s : Party} {c : Vccl.Call} {rest : List Vccl.Call} {m : Mem} (hf : s.failed = false)
      (hl : s.loop = none) (hc : s.todo = c :: rest) (hn : callOf c = none)
      (hm : (c.instr K).run s.mem = some m) : PartyStep K r s .tau ⟨m, rest, none, false⟩
  | call {s : Party} {c : Vccl.Call} {rest : List Vccl.Call} {tc : Call} (hf : s.failed = false)
      (hl : s.loop = none) (hc : s.todo = c :: rest) (ht : callOf c = some tc) :
      PartyStep K r s .tau ⟨s.mem, rest, some tc.start, false⟩
  | work {s : Party} {l l' : Loop} {a : Net.Act Nat UInt8} {m : Mem} (hf : s.failed = false)
      (hl : s.loop = some l) (hstep : LoopStep r s.mem l a m l') :
      PartyStep K r s a { s with mem := m, loop := some l' }
  /-- The call returns success. -/
  | ret {s : Party} {l : Loop} (hf : s.failed = false) (hl : s.loop = some l) (hfin : l.Finished) :
      PartyStep K r s .tau { s with loop := none }

/-- The call at hand fails: its deadline has passed, or the transport is aborted. -/
inductive PartyFail : Party → Net.Act Nat UInt8 → Party → Prop
  | fail {s : Party} {l : Loop} (hl : s.loop = some l) : PartyFail s .tau { s with failed := true }

/-- All collectives of the rank have returned success. -/
def Party.Done (s : Party) : Prop := s.todo = [] ∧ s.loop = none ∧ s.failed = false

/-- The ranks at the beginning of a sequence of collectives. -/
def parties (n : Nat) (cs : List Collective) (m : Nat → Mem) (r : Nat) : Party :=
  ⟨m r, if r < n then seqCalls n r cs else [], none, false⟩

/-- The runs of `n` ranks through a sequence of collectives, of which any may fail. -/
def SeqRun (K : Kernels) (cap : Nat → Nat → Nat) (n : Nat) (cs : List Collective) (m : Nat → Mem)
    (c : Flow Nat UInt8 Party) : Prop :=
  FlowRun cap (fun r s a s' => PartyStep K r s a s' ∨ PartyFail s a s') (Flow.start (parties n cs m)) c

/-! ## Its code -/

/-- What is left of a call. A call that moves no byte is no exchange. -/
def Loop.instr : Loop → Instr Nat Ptr UInt8
  | .sendAll peer buf bytes sent =>
    if bytes = 0 then .cpu id else .xchg (half peer (buf + sent) (bytes - sent)) none
  | .recvAll peer buf bytes got =>
    if bytes = 0 then .cpu id else .xchg none (half peer (buf + got) (bytes - got))
  | .duplex sp sbuf sbytes rp rbuf rbytes sent got _ =>
    .xchg (half sp (sbuf + sent) (sbytes - sent)) (half rp (rbuf + got) (rbytes - got))
  | .batch _ _ => .cpu id

/-- What is left of a rank's code. -/
def Party.code (K : Kernels) (s : Party) : List (Instr Nat Ptr UInt8) :=
  (s.loop.map Loop.instr).toList ++ Vccl.code K s.todo

/-- The ranks as processes whose messages move in pieces. -/
def processes (K : Kernels) (c : Flow Nat UInt8 Party) : PCfg Nat Ptr UInt8 :=
  ⟨fun r => (c.st r).code K, fun r => (c.st r).mem, c.chan⟩

/-- The loops that collectives run, between ranks that are not the same. -/
def Loop.Single (r : Nat) : Loop → Prop
  | .sendAll peer _ _ _ => peer ≠ r
  | .recvAll peer _ _ _ => peer ≠ r
  | .duplex sp _ _ rp _ _ _ _ _ => sp ≠ r ∧ rp ≠ r
  | .batch _ _ => False

/-- What holds of a rank by itself. -/
structure Party.Ok (r : Nat) (s : Party) : Prop where
  todo : Lacks (Call.toSelf r) s.todo
  loop : ∀ l, s.loop = some l → l.Single r

theorem half_zero (peer : Nat) (buf : Ptr) : half peer buf 0 = none := rfl

theorem half_pos (peer : Nat) (buf : Ptr) {bytes : Nat} (h : 0 < bytes) :
    half peer buf bytes = some (peer, slice buf bytes) := if_neg (Nat.pos_iff_ne_zero.mp h)

theorem take_slice (p : Ptr) {k b : Nat} (h : k ≤ b) : (slice p b).take k = slice p k := by
  unfold slice
  rw [← List.map_take, List.take_range, Nat.min_eq_left h]

theorem drop_slice (p : Ptr) (k b : Nat) : (slice p b).drop k = slice (p + k) (b - k) := by
  refine List.ext_getElem (by simp [slice_length]) fun i h1 h2 => ?_
  rw [List.getElem_drop, getElem_slice, getElem_slice, Ptr.add_add]

/-- What is left of a half of a call. -/
theorem left_half (peer : Nat) (p : Ptr) {moved k b : Nat} (h : moved + k ≤ b) :
    left peer (slice (p + moved) (b - moved)) k = half peer (p + (moved + k)) (b - (moved + k)) := by
  unfold left
  rw [slice_length]
  by_cases hfin : k = b - moved
  · rw [if_pos hfin, show b - (moved + k) = 0 by omega, half_zero]
  · rw [if_neg hfin, half_pos _ _ (by omega), drop_slice, Ptr.add_add, Nat.sub_sub]

/-- A call that begins. -/
theorem start_instr {c : Vccl.Call} {tc : Call} (K : Kernels) (h : callOf c = some tc) :
    tc.start.instr = c.instr K := by
  cases c with
  | send peer buf bytes =>
    obtain rfl := Option.some.inj h
    by_cases h0 : bytes = 0
    · simp [Call.start, Loop.instr, Call.instr, half, h0]
    · simp [Call.start, Loop.instr, Call.instr, half, h0, Ptr.add_zero]
  | recv peer buf bytes =>
    obtain rfl := Option.some.inj h
    by_cases h0 : bytes = 0
    · simp [Call.start, Loop.instr, Call.instr, half, h0]
    · simp [Call.start, Loop.instr, Call.instr, half, h0, Ptr.add_zero]
  | sendRecv sp sb sn rp rb rn =>
    obtain rfl := Option.some.inj h
    simp [Call.start, Loop.instr, Call.instr, Ptr.add_zero]
  | _ => cases h

/-- What a rank does by itself is no exchange. -/
theorem instr_of_local {c : Vccl.Call} {K : Kernels} (h : callOf c = none)
    {out inn : Option (Nat × List Ptr)} : c.instr K ≠ .xchg out inn := by
  cases c with
  | send => cases h
  | recv => cases h
  | sendRecv => cases h
  | _ => exact fun he => absurd he (by simp [Call.instr])

theorem start_single {c : Vccl.Call} {tc : Call} {r : Nat} (h : callOf c = some tc)
    (hc : c.toSelf r = false) : tc.start.Single r := by
  cases c with
  | send peer buf bytes =>
    obtain rfl := Option.some.inj h
    exact of_decide_eq_false hc
  | recv peer buf bytes =>
    obtain rfl := Option.some.inj h
    exact of_decide_eq_false hc
  | sendRecv sp sb sn rp rb rn =>
    obtain rfl := Option.some.inj h
    exact not_or.mp (of_decide_eq_false hc)
  | _ => cases h

/-- A call that is finished has nothing left to move. -/
theorem finished_run {l : Loop} (h : l.Finished) (m : Mem) : l.instr.run m = some m := by
  cases l with
  | sendAll peer buf bytes sent =>
    simp only [Loop.Finished, Nat.not_lt, Loop.instr] at h ⊢
    split
    · rfl
    · rw [Nat.sub_eq_zero_of_le h]
      rfl
  | recvAll peer buf bytes got =>
    simp only [Loop.Finished, Nat.not_lt, Loop.instr] at h ⊢
    split
    · rfl
    · rw [Nat.sub_eq_zero_of_le h]
      rfl
  | duplex sp sbuf sbytes rp rbuf rbytes sent got phase =>
    simp only [Loop.Finished, not_or, Nat.not_lt, Loop.instr] at h ⊢
    rw [Nat.sub_eq_zero_of_le h.2.1, Nat.sub_eq_zero_of_le h.2.2]
    rfl
  | batch t pass => rfl

/-! ## Every step is one of the processes, or none -/

/-- What a step of a loop is to a process at `i`, with memory `m`: afterwards it is at `i'`, with `m'`. -/
def Mirrors (m : Mem) (i : Instr Nat Ptr UInt8) (m' : Mem) (i' : Instr Nat Ptr UInt8) :
    Net.Act Nat UInt8 → Prop
  | .tau => m' = m ∧ i' = i
  | .put q bs _ => ∃ s inn k, i = .xchg (some (q, s)) inn ∧ 0 < k ∧ k ≤ s.length ∧
      bs = load m (s.take k) ∧ m' = m ∧ i' = .xchg (left q s k) inn
  | .take p bs _ => ∃ s out, i = .xchg out (some (p, s)) ∧ 0 < bs.length ∧ bs.length ≤ s.length ∧
      m' = store m (s.take bs.length) bs ∧ i' = .xchg out (left p s bs.length)

theorem mirrors_put (m : Mem) (q : Nat) (buf : Ptr) {bytes sent k : Nat} (hk : 0 < k)
    (hle : sent + k ≤ bytes) (inn : Option (Nat × List Ptr)) (fin : Bool) :
    Mirrors m (.xchg (half q (buf + sent) (bytes - sent)) inn) m
      (.xchg (half q (buf + (sent + k)) (bytes - (sent + k))) inn)
      (.put q (load m (slice (buf + sent) k)) fin) := by
  refine ⟨slice (buf + sent) (bytes - sent), inn, k, ?_, hk, ?_, ?_, rfl, ?_⟩
  · rw [half_pos _ _ (by omega)]
  · rw [slice_length]
    omega
  · rw [take_slice _ (by omega)]
  · rw [left_half q buf hle]

theorem mirrors_take (m : Mem) (p : Nat) (buf : Ptr) {bytes got : Nat} {bs : List UInt8}
    (hk : 0 < bs.length) (hle : got + bs.length ≤ bytes) (out : Option (Nat × List Ptr)) (fin : Bool) :
    Mirrors m (.xchg out (half p (buf + got) (bytes - got))) (store m (slice (buf + got) bs.length) bs)
      (.xchg out (half p (buf + (got + bs.length)) (bytes - (got + bs.length)))) (.take p bs fin) := by
  refine ⟨slice (buf + got) (bytes - got), out, ?_, hk, ?_, ?_, ?_⟩
  · rw [half_pos _ _ (by omega)]
  · rw [slice_length]
    omega
  · rw [take_slice _ (by omega)]
  · rw [left_half p buf hle]

theorem loop_mirrors {r : Nat} {m m' : Mem} {l l' : Loop} {a : Net.Act Nat UInt8}
    (h : LoopStep r m l a m' l') (hl : l.Single r) : l'.Single r ∧ Mirrors m l.instr m' l'.instr a := by
  cases h with
  | @send peer buf bytes sent k hp hk hle =>
    refine ⟨hl, ?_⟩
    simp only [Loop.instr, if_neg (show ¬ bytes = 0 by omega)]
    exact mirrors_put m peer buf hk hle none _
  | @recv peer buf bytes got bs hp hk hle =>
    refine ⟨hl, ?_⟩
    simp only [Loop.instr, if_neg (show ¬ bytes = 0 by omega)]
    exact mirrors_take m peer buf hk hle none _
  | duplexSend hp hk hle => exact ⟨hl, mirrors_put m _ _ hk hle _ _⟩
  | duplexRecv hp hk hle => exact ⟨hl, mirrors_take m _ _ hk hle _ _⟩
  | sendAgain => exact ⟨hl, rfl, rfl⟩
  | recvAgain => exact ⟨hl, rfl, rfl⟩
  | poll => exact ⟨hl, rfl, rfl⟩
  | duplexSendAgain => exact ⟨hl, rfl, rfl⟩
  | duplexRecvAgain => exact ⟨hl, rfl, rfl⟩
  | pass => exact hl.elim
  | skip => exact hl.elim
  | batchSend => exact hl.elim
  | batchRecv => exact hl.elim

theorem Party.code_loop (K : Kernels) {s : Party} {l : Loop} (h : s.loop = some l) :
    s.code K = l.instr :: Vccl.code K s.todo := by
  rw [Party.code, h]
  rfl

theorem Party.code_idle (K : Kernels) {s : Party} (h : s.loop = none) :
    s.code K = Vccl.code K s.todo := by
  rw [Party.code, h]
  rfl

theorem Party.Ok.step {K : Kernels} {r : Nat} {s s' : Party} {a : Net.Act Nat UInt8} (h : s.Ok r)
    (hs : PartyStep K r s a s' ∨ PartyFail s a s') : s'.Ok r := by
  rcases hs with hs | hs
  · cases hs with
    | compute hf hl hc hn hm =>
      refine ⟨fun c hmem => h.todo c ?_, fun l he => absurd he (by simp)⟩
      rw [hc]
      exact List.mem_cons_of_mem _ hmem
    | call hf hl hc ht =>
      refine ⟨fun c hmem => h.todo c ?_, fun l he => ?_⟩
      · rw [hc]
        exact List.mem_cons_of_mem _ hmem
      · obtain rfl := Option.some.inj he
        refine start_single ht (h.todo _ ?_)
        rw [hc]
        exact List.mem_cons_self
    | work hf hl hstep =>
      refine ⟨h.todo, fun l he => ?_⟩
      obtain rfl := Option.some.inj he
      exact (loop_mirrors hstep (h.loop _ hl)).1
    | ret hf hl hfin => exact ⟨h.todo, fun l he => absurd he (by simp)⟩
  · cases hs with
    | fail hl => exact ⟨h.todo, fun l he => h.loop l he⟩

/-- A step of a rank, as its process sees it. -/
inductive ProcStep (k : List (Instr Nat Ptr UInt8)) (m : Mem) :
    Net.Act Nat UInt8 → List (Instr Nat Ptr UInt8) → Mem → Prop
  | stay : ProcStep k m .tau k m
  | loc {i : Instr Nat Ptr UInt8} {k' : List (Instr Nat Ptr UInt8)} {m' : Mem} (hk : k = i :: k')
      (hm : i.run m = some m') : ProcStep k m .tau k' m'
  | put {q : Nat} {s : List Ptr} {inn : Option (Nat × List Ptr)} {k' : List (Instr Nat Ptr UInt8)}
      {j : Nat} {fin : Bool} (hk : k = .xchg (some (q, s)) inn :: k') (hj : 0 < j) (hle : j ≤ s.length) :
      ProcStep k m (.put q (load m (s.take j)) fin) (.xchg (left q s j) inn :: k') m
  | take {p : Nat} {s : List Ptr} {out : Option (Nat × List Ptr)} {k' : List (Instr Nat Ptr UInt8)}
      {bs : List UInt8} {fin : Bool} (hk : k = .xchg out (some (p, s)) :: k') (hj : 0 < bs.length)
      (hle : bs.length ≤ s.length) :
      ProcStep k m (.take p bs fin) (.xchg out (left p s bs.length) :: k')
        (store m (s.take bs.length) bs)

/-- **A step of a rank is one of its process, or none.** -/
theorem party_pieces {K : Kernels} {r : Nat} {s s' : Party} {a : Net.Act Nat UInt8} (h : s.Ok r)
    (hs : PartyStep K r s a s' ∨ PartyFail s a s') :
    ProcStep (s.code K) s.mem a (s'.code K) s'.mem := by
  rcases hs with hs | hs
  · cases hs with
    | @compute c rest m hf hl hc hn hm =>
      refine .loc (i := c.instr K) ?_ hm
      rw [Party.code_idle K hl, hc]
      rfl
    | @call c rest tc hf hl hc ht =>
      have hcode : Party.code K ⟨s.mem, rest, some tc.start, false⟩ = s.code K := by
        rw [Party.code_loop K rfl, Party.code_idle K hl, hc, start_instr K ht]
        rfl
      rw [hcode]
      exact .stay
    | @work l l' _ m hf hl hstep =>
      obtain ⟨-, hmir⟩ := loop_mirrors hstep (h.loop l hl)
      rw [Party.code_loop K hl, Party.code_loop K (s := { s with mem := m, loop := some l' }) rfl]
      cases a with
      | tau =>
        obtain ⟨rfl, hi⟩ := hmir
        rw [hi]
        exact .stay
      | put q bs fin =>
        obtain ⟨u, inn, k, hi, hk, hle, rfl, rfl, hi'⟩ := hmir
        rw [hi, hi']
        exact .put rfl hk hle
      | take p bs fin =>
        obtain ⟨u, out, hi, hk, hle, rfl, hi'⟩ := hmir
        rw [hi, hi']
        exact .take rfl hk hle
    | @ret l hf hl hfin =>
      refine .loc (i := l.instr) ?_ (finished_run hfin s.mem)
      rw [Party.code_loop K hl, Party.code_idle K (s := { s with loop := none }) rfl]
  · cases hs with
    | fail hl => exact .stay

/-- The streams, entry by entry. -/
theorem update₂_eq_setPair {β : Type} (f : Nat → Nat → β) (p q : Nat) (v : β) :
    Function.update f p (Function.update (f p) q v) = Net.setPair f p q v := by
  funext x y
  by_cases hxy : x = p ∧ y = q
  · obtain ⟨rfl, rfl⟩ := hxy
    rw [Net.update₂_self, Net.setPair_same]
  · rw [Net.update₂_ne _ _ hxy, Net.setPair_other hxy]

section Runs

variable {K : Kernels} {cap : Nat → Nat → Nat} {n : Nat} {cs : List Collective} {m : Nat → Mem}
  {c c' : Flow Nat UInt8 Party}

theorem processes_act (K : Kernels) (c : Flow Nat UInt8 Party) (r : Nat) (a : Net.Act Nat UInt8) (s : Party) :
    processes K (c.act r a s) = ⟨Function.update (processes K c).code r (s.code K),
      Function.update (processes K c).mem r s.mem, c.carry r a⟩ := by
  have hcode : (fun x => (Function.update c.st r s x).code K) =
      Function.update (fun x => (c.st x).code K) r (s.code K) := by
    funext x
    exact Function.apply_update (fun _ => Party.code K) c.st r s x
  have hmem : (fun x => (Function.update c.st r s x).mem) =
      Function.update (fun x => (c.st x).mem) r s.mem := by
    funext x
    exact Function.apply_update (fun _ => Party.mem) c.st r s x
  simp only [processes, Flow.act, hcode, hmem]

/-- A step of a process that the streams allow its rank. -/
theorem ProcStep.pieces {r : Nat} {a : Net.Act Nat UInt8} {s : Party}
    (h : ProcStep ((processes K c).code r) ((processes K c).mem r) a (s.code K) s.mem)
    (hallow : c.Allows cap r a) : processes K (c.act r a s) = processes K c ∨
      PStep cap (processes K c) (processes K (c.act r a s)) := by
  rw [processes_act]
  generalize s.code K = k at h ⊢
  generalize s.mem = m at h ⊢
  cases h with
  | stay =>
    rw [Function.update_eq_self, Function.update_eq_self]
    exact Or.inl rfl
  | loc hk hm => exact Or.inr (.loc hk hm)
  | put hk hj hle =>
    have hroom : (c.chan r _).length + (load _ _).length ≤ cap r _ := hallow
    rw [Net.load_length, List.length_take, Nat.min_eq_left hle] at hroom
    have hstep := PStep.put (e := processes K c) hk hj hle hroom
    rw [Function.update_eq_self, Flow.carry, update₂_eq_setPair]
    exact Or.inr hstep
  | take hk hj hle =>
    obtain ⟨rest, hrest⟩ := hallow
    have hstep : PStep cap (processes K c) _ := .take hk hj hle hrest.symm
    rw [Flow.carry, update₂_eq_setPair, ← hrest, List.drop_left]
    exact Or.inr hstep

theorem ok_parties (r : Nat) : (parties n cs m r).Ok r := by
  refine ⟨?_, fun l he => absurd he (by simp [parties])⟩
  unfold parties
  split
  · rename_i hr
    exact lacks_flatMap fun c _ => not_toSelf hr c
  · exact lacks_nil

theorem processes_start (K : Kernels) (n : Nat) (cs : List Collective) (m : Nat → Mem) :
    processes K (Flow.start (parties n cs m)) = Net.pstart (seqProg K n cs) m := by
  have hcode : (fun r => (parties n cs m r).code K) = seqProg K n cs := by
    funext r
    rw [Party.code_idle K rfl]
    unfold parties seqProg
    split
    · rfl
    · rfl
  simp only [processes, Flow.start, hcode]
  rfl

/-- Every run of the ranks is one of their processes. -/
theorem SeqRun.pieces (h : SeqRun K cap n cs m c) :
    (∀ r, (c.st r).Ok r) ∧
      Relation.ReflTransGen (PStep cap) (Net.pstart (seqProg K n cs) m) (processes K c) := by
  induction h with
  | refl => exact ⟨ok_parties, by rw [processes_start]⟩
  | tail _ hs ih =>
    obtain ⟨hok, hrun⟩ := ih
    obtain ⟨r, a, s, hL, hallow, rfl⟩ := hs
    refine ⟨fun x => ?_, ?_⟩
    · by_cases hx : x = r
      · subst hx
        simpa [Flow.act] using (hok x).step hL
      · simpa [Flow.act, hx] using hok x
    · rcases (party_pieces (hok r) hL).pieces hallow with heq | hstep
      · rw [heq]
        exact hrun
      · exact hrun.tail hstep

/-! ## Every step of the processes can be made -/

/-- A loop makes steps that move nothing. -/
abbrev Idles (r : Nat) (m : Mem) : Loop → Loop → Prop :=
  Relation.ReflTransGen fun l l' => LoopStep r m l .tau m l'

/-- A rank makes steps that move nothing. -/
abbrev Quiet (K : Kernels) (r : Nat) : Party → Party → Prop :=
  Relation.ReflTransGen fun s s' => PartyStep K r s .tau s'

/-- `duplexTransfer` is at its `poll`. -/
def Loop.AtPoll : Loop → Prop
  | .duplex _ _ _ _ _ _ _ _ phase => phase = .poll
  | _ => True

/-- `duplexTransfer` comes back to its `poll`. -/
theorem comes_to_poll (r : Nat) (m : Mem) {l : Loop} (hl : l.Single r) :
    ∃ l', Idles r m l l' ∧ l'.AtPoll ∧ l'.Single r ∧ l'.instr = l.instr := by
  cases l with
  | sendAll => exact ⟨_, .refl, trivial, hl, rfl⟩
  | recvAll => exact ⟨_, .refl, trivial, hl, rfl⟩
  | batch => exact hl.elim
  | duplex sp sbuf sbytes rp rbuf rbytes sent got phase =>
    refine ⟨.duplex sp sbuf sbytes rp rbuf rbytes sent got .poll, ?_, rfl, hl, rfl⟩
    cases phase with
    | poll => exact .refl
    | ready s t =>
      cases s with
      | false => exact .single .duplexRecvAgain
      | true => exact .head .duplexSendAgain (.single .duplexRecvAgain)

/-- A half that is there has bytes to move. -/
theorem half_some {peer q : Nat} {buf : Ptr} {bytes : Nat} {s : List Ptr}
    (h : half peer buf bytes = some (q, s)) : q = peer ∧ s = slice buf bytes ∧ 0 < bytes := by
  obtain ⟨rfl, rfl⟩ := half_eq_some h
  refine ⟨rfl, rfl, Nat.pos_of_ne_zero fun h0 => ?_⟩
  rw [h0, half_zero] at h
  cases h

section Loops

variable {r : Nat} {μ : Mem} {l : Loop} {s : List Ptr}

/-- What is left of an outgoing half can be sent, in pieces of any length. -/
theorem can_put (hl : l.Single r) (hp : l.AtPoll) {q j : Nat} {inn : Option (Nat × List Ptr)}
    (hi : l.instr = .xchg (some (q, s)) inn) (hj : 0 < j) (hle : j ≤ s.length) :
    ∃ l₁ l₂ fin, Idles r μ l l₁ ∧ LoopStep r μ l₁ (.put q (load μ (s.take j)) fin) μ l₂ ∧
      l₂.instr = .xchg (left q s j) inn := by
  cases l with
  | sendAll peer buf bytes sent =>
    simp only [Loop.instr] at hi
    split at hi
    · cases hi
    · rename_i h0
      obtain ⟨ho, rfl⟩ := Instr.xchg.inj hi
      obtain ⟨rfl, rfl, hpos⟩ := half_some ho
      rw [slice_length] at hle
      refine ⟨_, .sendAll q buf bytes (sent + j), decide (sent + j = bytes), .refl, ?_, ?_⟩
      · rw [take_slice _ hle]
        exact .send hl hj (by omega)
      · simp only [Loop.instr, if_neg h0]
        rw [left_half _ _ (by omega)]
  | recvAll peer buf bytes got =>
    simp only [Loop.instr] at hi
    split at hi
    · cases hi
    · cases hi
  | batch => exact hl.elim
  | duplex sp sbuf sbytes rp rbuf rbytes sent got phase =>
    obtain rfl : phase = .poll := hp
    obtain ⟨ho, rfl⟩ := Instr.xchg.inj hi
    obtain ⟨rfl, rfl, hpos⟩ := half_some ho
    rw [slice_length] at hle
    refine ⟨_, .duplex q sbuf sbytes rp rbuf rbytes (sent + j) got (.ready false false),
      decide (sent + j = sbytes), .single (.poll (s := true) (t := false) (Or.inl (by omega))
      (fun _ => by omega) fun h => absurd h Bool.false_ne_true), ?_, ?_⟩
    · rw [take_slice _ hle]
      exact .duplexSend hl.1 hj (by omega)
    · simp only [Loop.instr]
      rw [left_half _ _ (by omega)]

/-- What is left of an incoming half can be received, in pieces of any length. -/
theorem can_take (hl : l.Single r) (hp : l.AtPoll) {p : Nat} {bs : List UInt8}
    {out : Option (Nat × List Ptr)} (hi : l.instr = .xchg out (some (p, s))) (hj : 0 < bs.length)
    (hle : bs.length ≤ s.length) :
    ∃ l₁ l₂ fin, Idles r μ l l₁ ∧
      LoopStep r μ l₁ (.take p bs fin) (store μ (s.take bs.length) bs) l₂ ∧
      l₂.instr = .xchg out (left p s bs.length) := by
  cases l with
  | sendAll peer buf bytes sent =>
    simp only [Loop.instr] at hi
    split at hi
    · cases hi
    · cases hi
  | recvAll peer buf bytes got =>
    simp only [Loop.instr] at hi
    split at hi
    · cases hi
    · rename_i h0
      obtain ⟨rfl, hin⟩ := Instr.xchg.inj hi
      obtain ⟨rfl, rfl, hpos⟩ := half_some hin
      rw [slice_length] at hle
      refine ⟨_, .recvAll p buf bytes (got + bs.length), decide (got + bs.length = bytes), .refl, ?_, ?_⟩
      · rw [take_slice _ hle]
        exact .recv hl hj (by omega)
      · simp only [Loop.instr, if_neg h0]
        rw [left_half _ _ (by omega)]
  | batch => exact hl.elim
  | duplex sp sbuf sbytes rp rbuf rbytes sent got phase =>
    obtain rfl : phase = .poll := hp
    obtain ⟨rfl, hin⟩ := Instr.xchg.inj hi
    obtain ⟨rfl, rfl, hpos⟩ := half_some hin
    rw [slice_length] at hle
    refine ⟨_, .duplex sp sbuf sbytes p rbuf rbytes sent (got + bs.length) .poll,
      decide (got + bs.length = rbytes), .single (.poll (s := false) (t := true) (Or.inr (by omega))
      (fun h => absurd h Bool.false_ne_true) fun _ => by omega), ?_, ?_⟩
    · rw [take_slice _ hle]
      exact .duplexRecv hl.2 hj (by omega)
    · simp only [Loop.instr]
      rw [left_half _ _ (by omega)]

/-- A call with nothing left to move returns. -/
theorem can_finish (hl : l.Single r) (hp : l.AtPoll) {μ' : Mem} (hrun : l.instr.run μ = some μ') :
    l.Finished ∧ μ' = μ := by
  have hxchg : ∀ {out inn : Option (Nat × List Ptr)},
      (Instr.xchg out inn : Instr Nat Ptr UInt8).run μ = some μ' → out = none ∧ inn = none ∧ μ' = μ := by
    intro out inn h
    rcases Net.run_cases h with ⟨f, hf, -⟩ | ⟨q, hq, -⟩ | ⟨he, rfl⟩
    · cases hf
    · cases hq
    · obtain ⟨rfl, rfl⟩ := Instr.xchg.inj he
      exact ⟨rfl, rfl, rfl⟩
  cases l with
  | sendAll peer buf bytes sent =>
    simp only [Loop.instr] at hrun
    split at hrun
    · rename_i h0
      exact ⟨by simp [Loop.Finished, h0], (Option.some.inj hrun).symm⟩
    · obtain ⟨ho, -, rfl⟩ := hxchg hrun
      have := half_eq_none ho
      exact ⟨by simp only [Loop.Finished]; omega, rfl⟩
  | recvAll peer buf bytes got =>
    simp only [Loop.instr] at hrun
    split at hrun
    · rename_i h0
      exact ⟨by simp [Loop.Finished, h0], (Option.some.inj hrun).symm⟩
    · obtain ⟨-, hi, rfl⟩ := hxchg hrun
      have := half_eq_none hi
      exact ⟨by simp only [Loop.Finished]; omega, rfl⟩
  | batch => exact hl.elim
  | duplex sp sbuf sbytes rp rbuf rbytes sent got phase =>
    obtain ⟨ho, hi, rfl⟩ := hxchg hrun
    have h1 := half_eq_none ho
    have h2 := half_eq_none hi
    exact ⟨⟨hp, by omega⟩, rfl⟩

end Loops

/-- A rank idles along with its loop. -/
theorem quiet_of_idles {r : Nat} {s : Party} (hf : s.failed = false) {l l' : Loop}
    (h : Idles r s.mem l l') (hl : s.loop = some l) : Quiet K r s { s with loop := some l' } := by
  induction h with
  | refl =>
    rw [← hl]
  | tail _ hstep ih => exact ih.tail (.work (s := { s with loop := some _ }) hf rfl hstep)

/-- A rank with code to run computes by itself, or comes to a loop that is ready to move. -/
theorem comes_to_loop {r : Nat} {s : Party} (hok : s.Ok r) (hf : s.failed = false)
    {i : Instr Nat Ptr UInt8} {k : List (Instr Nat Ptr UInt8)} (hk : s.code K = i :: k) :
    (∃ c rest, s.loop = none ∧ s.todo = c :: rest ∧ callOf c = none ∧ c.instr K = i ∧
      Vccl.code K rest = k) ∨
    ∃ l rest, Quiet K r s ⟨s.mem, rest, some l, false⟩ ∧ l.Single r ∧ l.AtPoll ∧ l.instr = i ∧
      Vccl.code K rest = k := by
  obtain ⟨mem, todo, loop, failed⟩ := s
  obtain rfl : failed = false := hf
  cases loop with
  | some l =>
    rw [Party.code_loop K rfl] at hk
    obtain ⟨rfl, rfl⟩ := List.cons.inj hk
    obtain ⟨l', hidle, hpoll, hl', hi⟩ := comes_to_poll r mem (hok.loop l rfl)
    exact Or.inr ⟨l', todo, quiet_of_idles rfl hidle rfl, hl', hpoll, hi, rfl⟩
  | none =>
    rw [Party.code_idle K rfl] at hk
    cases todo with
    | nil => cases hk
    | cons c rest =>
      obtain ⟨rfl, rfl⟩ := List.cons.inj hk
      cases ht : callOf c with
      | none => exact Or.inl ⟨c, rest, rfl, rfl, ht, rfl, rfl⟩
      | some tc =>
        have hsingle : tc.start.Single r := start_single ht (hok.todo c List.mem_cons_self)
        obtain ⟨l', hidle, hpoll, hl', hi⟩ := comes_to_poll r mem hsingle
        have hcall : PartyStep K r ⟨mem, c :: rest, none, false⟩ .tau ⟨mem, rest, some tc.start, false⟩ :=
          .call rfl rfl rfl ht
        refine Or.inr ⟨l', rest, .head hcall (quiet_of_idles rfl hidle rfl), hl', hpoll, ?_, rfl⟩
        rw [hi, start_instr K ht]

/-- The rank after steps that move nothing. -/
def settled (c : Flow Nat UInt8 Party) (r : Nat) (s : Party) : Flow Nat UInt8 Party :=
  { c with st := Function.update c.st r s }

theorem settled_st (c : Flow Nat UInt8 Party) (r : Nat) (s : Party) : (settled c r s).st r = s :=
  Function.update_self _ _ _

theorem act_tau (c : Flow Nat UInt8 Party) (r : Nat) (s : Party) : c.act r .tau s = settled c r s := by
  simp only [Flow.act, settled, Net.Act.out, Net.Act.inn, Flow.carry, Function.update_eq_self]

theorem settled_settled (c : Flow Nat UInt8 Party) (r : Nat) (s s' : Party) :
    settled (settled c r s) r s' = settled c r s' := by
  simp only [settled, Function.update_idem]

theorem flow_quiet {r : Nat} {s : Party} (h : Quiet K r (c.st r) s) :
    FlowRun cap (PartyStep K) c (settled c r s) := by
  induction h with
  | refl =>
    rw [settled, Function.update_eq_self]
  | @tail s₁ s₂ _ hstep ih =>
    refine ih.tail ⟨r, .tau, s₂, ?_, trivial, ?_⟩
    · rw [settled_st]
      exact hstep
    · rw [act_tau, settled_settled]

theorem processes_settled (K : Kernels) (c : Flow Nat UInt8 Party) (r : Nat) (s : Party) :
    processes K (settled c r s) = ⟨Function.update (processes K c).code r (s.code K),
      Function.update (processes K c).mem r s.mem, c.chan⟩ := by
  rw [← act_tau, processes_act]
  rfl

/-- A step that moves bytes, after some that do not. -/
theorem processes_settled_act (K : Kernels) (c : Flow Nat UInt8 Party) (r : Nat) (s s' : Party)
    (a : Net.Act Nat UInt8) : processes K ((settled c r s).act r a s') =
      ⟨Function.update (processes K c).code r (s'.code K), Function.update (processes K c).mem r s'.mem,
        c.carry r a⟩ := by
  rw [processes_act, processes_settled]
  simp only [Function.update_idem]
  cases a <;> rfl

/-- **A step of a process can be made by its rank**, in a few steps of its loop. -/
theorem party_follows (hok : ∀ r, (c.st r).Ok r) (hf : ∀ r, (c.st r).failed = false)
    {e : PCfg Nat Ptr UInt8} (hs : PStep cap (processes K c) e) :
    ∃ c', FlowRun cap (PartyStep K) c c' ∧ processes K c' = e := by
  cases hs with
  | @loc r i k μ hk hm =>
    rcases comes_to_loop (hok r) (hf r) hk with ⟨x, rest, hl, hc, hn, rfl, rfl⟩ |
      ⟨l, rest, hquiet, hl, hpoll, rfl, rfl⟩
    · have hstep : PartyStep K r (c.st r) .tau ⟨μ, rest, none, false⟩ := .compute (hf r) hl hc hn hm
      refine ⟨_, flow_quiet (.single hstep), ?_⟩
      rw [processes_settled, Party.code_idle K rfl]
      rfl
    · obtain ⟨hfin, rfl⟩ := can_finish hl hpoll hm
      have hret : PartyStep K r ⟨(c.st r).mem, rest, some l, false⟩ .tau ⟨(c.st r).mem, rest, none, false⟩ :=
        .ret rfl rfl hfin
      refine ⟨_, flow_quiet (hquiet.tail hret), ?_⟩
      rw [processes_settled, Party.code_idle K rfl]
      rfl
  | @put r q s inn k j hk hj hle hroom =>
    rcases comes_to_loop (hok r) (hf r) hk with ⟨x, rest, -, -, hn, hx, -⟩ |
      ⟨l, rest, hquiet, hl, hpoll, hi, rfl⟩
    · exact absurd hx (instr_of_local hn)
    · obtain ⟨l₁, l₂, fin, hidle, hstep, hi₂⟩ := can_put (μ := (c.st r).mem) hl hpoll hi hj hle
      have hready := hquiet.trans (quiet_of_idles (s := ⟨(c.st r).mem, rest, some l, false⟩) rfl hidle rfl)
      have hmove : PartyStep K r ⟨(c.st r).mem, rest, some l₁, false⟩
          (.put q (load (c.st r).mem (s.take j)) fin) ⟨(c.st r).mem, rest, some l₂, false⟩ :=
        .work rfl rfl hstep
      refine ⟨(settled c r ⟨(c.st r).mem, rest, some l₁, false⟩).act r
        (.put q (load (c.st r).mem (s.take j)) fin) ⟨(c.st r).mem, rest, some l₂, false⟩,
        (flow_quiet hready).tail ⟨r, _, _, ?_, ?_, rfl⟩, ?_⟩
      · rw [settled_st]
        exact hmove
      · show (c.chan r q).length + (load _ _).length ≤ cap r q
        rw [Net.load_length, List.length_take, Nat.min_eq_left hle]
        exact hroom
      · have hmem : Function.update (processes K c).mem r (c.st r).mem = (processes K c).mem :=
          Function.update_eq_self r _
        rw [processes_settled_act, Party.code_loop K rfl, hi₂, Flow.carry, update₂_eq_setPair]
        simp only [hmem]
        rfl
  | @take r p s out k bs rest hk hj hle hbs =>
    rcases comes_to_loop (hok r) (hf r) hk with ⟨x, rest', -, -, hn, hx, -⟩ |
      ⟨l, rest', hquiet, hl, hpoll, hi, rfl⟩
    · exact absurd hx (instr_of_local hn)
    · obtain ⟨l₁, l₂, fin, hidle, hstep, hi₂⟩ := can_take (μ := (c.st r).mem) hl hpoll hi hj hle
      have hready := hquiet.trans (quiet_of_idles (s := ⟨(c.st r).mem, rest', some l, false⟩) rfl hidle rfl)
      have hmove : PartyStep K r ⟨(c.st r).mem, rest', some l₁, false⟩ (.take p bs fin)
          ⟨store (c.st r).mem (s.take bs.length) bs, rest', some l₂, false⟩ := .work rfl rfl hstep
      have hchan : c.chan p r = bs ++ rest := hbs
      refine ⟨(settled c r ⟨(c.st r).mem, rest', some l₁, false⟩).act r (.take p bs fin)
        ⟨store (c.st r).mem (s.take bs.length) bs, rest', some l₂, false⟩,
        (flow_quiet hready).tail ⟨r, _, _, ?_, ?_, rfl⟩, ?_⟩
      · rw [settled_st]
        exact hmove
      · exact ⟨rest, hchan.symm⟩
      · rw [processes_settled_act, Party.code_loop K rfl, hi₂, Flow.carry, update₂_eq_setPair, hchan,
          List.drop_left]
        rfl

/-! ## The result -/

/-- A process that has finished keeps its memory. -/
theorem finished_stays {x y : Net.Cfg Nat Ptr UInt8} (h : Relation.ReflTransGen Net.Step x y) {r : Nat}
    (hr : x.code r = []) : y.mem r = x.mem r := by
  have hinv : y.code r = [] ∧ y.mem r = x.mem r := by
    induction h with
    | refl => exact ⟨hr, rfl⟩
    | tail _ hs ih =>
      obtain ⟨a, ha⟩ := hs
      have hne : ∀ {q : Nat} {i : Instr Nat Ptr UInt8} {k : List (Instr Nat Ptr UInt8)} {z : Net.Cfg Nat Ptr UInt8},
          z.code r = [] → z.code q = i :: k → r ≠ q := by
        rintro q i k z h0 hq rfl
        rw [h0] at hq
        cases hq
      cases a with
      | loc q =>
        obtain ⟨i, k, μ, hc, -, rfl⟩ := Net.loc_cases ha
        simpa [Net.Cfg.next, hne ih.1 hc] using ih
      | snd q =>
        obtain ⟨p, s, inn, k, hc, rfl⟩ := Net.snd_cases ha
        simpa [hne ih.1 hc] using ih
      | rcv q =>
        obtain ⟨p, s, out, k, d, ds, hc, -, rfl⟩ := Net.rcv_cases ha
        simpa [hne ih.1 hc] using ih
  exact hinv.2

/-- The slices of exchanges of byte ranges have places, and different ones. -/
theorem solid_code (K : Kernels) (calls : List Vccl.Call) : Net.Solid (Vccl.code K calls) := by
  have hhalf : ∀ {peer : Nat} {buf : Ptr} {bytes q : Nat} {s : List Ptr},
      half peer buf bytes = some (q, s) → s ≠ [] ∧ s.Nodup := by
    intro peer buf bytes q s h
    obtain ⟨-, rfl, hpos⟩ := half_some h
    refine ⟨fun hnil => ?_, nodup_slice _ _⟩
    have hlen := slice_length buf bytes
    rw [hnil, List.length_nil] at hlen
    omega
  intro out inn hm
  obtain ⟨c, -, hc⟩ := List.mem_map.mp hm
  cases c with
  | send peer buf bytes =>
    simp only [Call.instr] at hc
    split at hc
    · rename_i x hx
      obtain ⟨rfl, rfl⟩ := Instr.xchg.inj hc
      refine ⟨fun q s he => ?_, fun p s he => absurd he (by simp)⟩
      obtain rfl := Option.some.inj he
      exact (hhalf hx).1
    · cases hc
  | recv peer buf bytes =>
    simp only [Call.instr] at hc
    split at hc
    · rename_i x hx
      obtain ⟨rfl, rfl⟩ := Instr.xchg.inj hc
      refine ⟨fun q s he => absurd he (by simp), fun p s he => ?_⟩
      obtain rfl := Option.some.inj he
      exact hhalf hx
    · cases hc
  | sendRecv sp sb sn rp rb rn =>
    obtain ⟨rfl, rfl⟩ := Instr.xchg.inj hc
    exact ⟨fun q s he => (hhalf he).1, fun p s he => hhalf he⟩
  | _ => exact absurd hc (instr_of_local rfl)

theorem solid_prog (K : Kernels) (n : Nat) (cs : List Collective) (r : Nat) :
    Net.Solid (seqProg K n cs r) := by
  unfold seqProg
  split
  · exact solid_code K _
  · exact fun _ _ h => absurd h List.not_mem_nil

/-- A rank whose process has no code left, and that has not failed, is done. -/
theorem done_iff (K : Kernels) {s : Party} (hf : s.failed = false) : s.code K = [] ↔ s.Done := by
  constructor
  · intro h
    obtain ⟨h1, h2⟩ := List.append_eq_nil_iff.mp h
    refine ⟨List.map_eq_nil_iff.mp h2, ?_, hf⟩
    cases hl : s.loop with
    | none => rfl
    | some l =>
      rw [hl] at h1
      cases h1
  · rintro ⟨h1, h2, -⟩
    rw [Party.code_idle K h2, h1]
    rfl

/-- Runs in which nobody fails. -/
theorem unfailed_run (h : FlowRun cap (PartyStep K) c c') (hf : ∀ r, (c.st r).failed = false) (r : Nat) :
    (c'.st r).failed = false := by
  induction h generalizing r with
  | refl => exact hf r
  | tail _ hs ih =>
    obtain ⟨x, a, s, hL, -, rfl⟩ := hs
    by_cases hx : r = x
    · subst hx
      simp only [Flow.act, Function.update_self]
      cases hL with
      | compute => rfl
      | call => rfl
      | work hf' => exact hf'
      | ret hf' => exact hf'
    · simp only [Flow.act, Function.update_of_ne hx]
      exact ih r

/-- What the processes can do the ranks can. -/
theorem parties_follow (hrun : SeqRun K cap n cs m c) (hf : ∀ r, (c.st r).failed = false)
    {e : PCfg Nat Ptr UInt8} (hs : Relation.ReflTransGen (PStep cap) (processes K c) e) :
    ∃ c', FlowRun cap (PartyStep K) c c' ∧ processes K c' = e := by
  induction hs with
  | refl => exact ⟨c, .refl, rfl⟩
  | tail _ hstep ih =>
    obtain ⟨c₁, hc₁, rfl⟩ := ih
    have hrun₁ : SeqRun K cap n cs m c₁ := by
      refine hrun.trans (Relation.ReflTransGen.mono (fun x y hxy => ?_) _ _ hc₁)
      obtain ⟨p, a, s, hL, hallow, rfl⟩ := hxy
      exact ⟨p, a, s, Or.inl hL, hallow, rfl⟩
    obtain ⟨c₂, hc₂, he⟩ := party_follows hrun₁.pieces.1 (unfailed_run hc₁ hf) hstep
    exact ⟨c₂, hc₁.trans hc₂, he⟩

end Runs

/-- **Collectives over TCP.** Whatever the streams hold, however they cut the messages, and whichever
ranks fail: a rank that has got through a sequence of collectives has the memory that the runs by whole
messages all end with, and as long as nobody has failed, all ranks can still get through. -/
theorem tcp_same_bytes (K : Kernels) {n : Nat} (hn : 1 ≤ n) {cap : Nat → Nat → Nat}
    (hcap : ∀ p q, 0 < cap p q) {cs : List Collective} (h : Stageable n (fun _ _ => false) cs)
    (m : Nat → Mem) : ∃ m' : Nat → Mem,
      Net.Ends Net.Step (system K n (fun r => seqCalls n r cs) m) (fun c =>
        (∀ r, c.code r = []) ∧ c.mem = m') ∧
      ∀ c, SeqRun K cap n cs m c → (∀ r, (c.st r).Done → (c.st r).mem = m' r) ∧
        ((∀ r, (c.st r).failed = false) →
          ∃ c', FlowRun cap (PartyStep K) c c' ∧ ∀ r, (c'.st r).Done) := by
  obtain ⟨plan, hmeet, hord, hwp, hsize⟩ := stageable_facts K hn h m
  have hfin : ∀ r, r ∉ Finset.range n → seqProg K n cs r = [] := fun r hr =>
    if_neg fun hlt => hr (Finset.mem_range.mpr hlt)
  have hsep : ∀ r, Net.Separated (seqProg K n cs r) := fun r => (careful_prog h r).separated
  have hsolid : ∀ r, Net.Solid (seqProg K n cs r) := solid_prog K n cs
  have hwhole := Net.ends_of_wp hfin hmeet hord hwp
  have hpieces := Net.pieces_ends hcap hfin hmeet hord hwp hsize hsep hsolid
  -- the memories in which some run by messages, and then every one, ends
  obtain ⟨x₀, hx₀, hstop₀⟩ := Net.exists_terminal hwhole.1
  have hunique : ∀ x, Relation.ReflTransGen Net.Step (Net.start (seqProg K n cs) m) x →
      ∃ y, Relation.ReflTransGen Net.Step x y ∧ y.mem = x₀.mem := by
    intro x hx
    obtain ⟨y, hxy, hstop⟩ := Net.exists_terminal (Net.acc_of_reach hwhole.1 hx)
    exact ⟨y, hxy, by rw [Net.normal_unique hsep (hx.trans hxy) hx₀ hstop hstop₀]⟩
  refine ⟨x₀.mem, ⟨hwhole.1, fun x hx hstop => ⟨(hwhole.2 x hx hstop).1, ?_⟩⟩, fun c hc => ?_⟩
  · rw [Net.normal_unique hsep hx hx₀ hstop hstop₀]
  obtain ⟨-, hrun⟩ := hc.pieces
  constructor
  · intro r hr
    obtain ⟨x, i, got, hx, hpieced⟩ := Net.pieces_reach hsep hsolid hsize hrun
    obtain ⟨y, hxy, hy⟩ := hunique x hx
    have hcode : (processes K c).code r = [] := (done_iff K hr.2.2).mpr hr
    obtain ⟨hxr, hmem⟩ := (hpieced.node r).at_end hcode
    have hmem' : (c.st r).mem = x.mem r := hmem
    rw [hmem', ← finished_stays hxy hxr, hy]
  · intro hf
    obtain ⟨e, he, hstop⟩ := Net.exists_terminal (Net.acc_of_reach hpieces.1 hrun)
    obtain ⟨c', hc', rfl⟩ := parties_follow hc hf he
    obtain ⟨x, -, -, hdone, -⟩ := hpieces.2 _ (hrun.trans he) hstop
    exact ⟨c', hc', fun r => (done_iff K (unfailed_run hc' hf r)).mp (hdone r).1⟩

/-- The ring of three ranks, on streams of one byte. -/
theorem tcp_same_bytes_three : ∃ m' : Nat → Mem,
    Net.Ends Net.Step (system (cpuKernels .idle) 3 (fun r => seqCalls 3 r ringOfThree)
      fun r p => UInt8.ofNat (r + p.off)) (fun c => (∀ r, c.code r = []) ∧ c.mem = m') ∧
    ∀ c, SeqRun (cpuKernels .idle) (fun _ _ => 1) 3 ringOfThree (fun r p => UInt8.ofNat (r + p.off)) c →
      (∀ r, (c.st r).Done → (c.st r).mem = m' r) ∧ ((∀ r, (c.st r).failed = false) →
        ∃ c', FlowRun (fun _ _ => 1) (PartyStep (cpuKernels .idle)) c c' ∧ ∀ r, (c'.st r).Done) :=
  tcp_same_bytes (cpuKernels .idle) (by decide) (fun _ _ => Nat.one_pos) stageable_ringOfThree
    fun r p => UInt8.ofNat (r + p.off)

end Tcp

end Vccl
