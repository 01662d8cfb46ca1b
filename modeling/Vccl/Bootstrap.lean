import Vccl.Net.Stream

/-!
# The bootstrap exchange (`Bootstrap::allGather`, `Bootstrap::barrier`)

Every rank has one connection with rank 0, the root. In `allGather` the root reads a slice from each
rank in turn and then sends the table to each in turn; the other ranks send their slice and read the
table. The streams carry no framing: what a byte belongs to is known from the order of the calls.

The caller is a function of the tables its rank has received so far: `call r held` is the buffer and
the slice size of the next `allGather` of rank `r`, or none if it makes no further call. A round is
a list of `Xfer`s, the `sendAll`s and `recvAll`s of `allGather` in order, and any number of bytes may
go in one step. No call fails.

* `tables n call k`: the tables of the first `k` rounds, every one the ranks' slices in rank order.
* `Sized`: all ranks call with the same sequence of sizes.
* `MemberInv`, `RootInv`: where the messages of a rank's ledgers stand against its rounds.
* `held_eq_tables`: what the ranks hold. `entered_of_held`: a round in which bytes move is a barrier.
-/

namespace Vccl

open Net (Act Ledger Flow FlowStep FlowRun)

variable {B : Type}

/-! ## Buffers -/

/-- The bytes `[off, off + len)` of a buffer. -/
def chunk (buf : List B) (off len : Nat) : List B := (buf.drop off).take len

/-- The buffer with `bs` written at `off`. -/
def patch (buf : List B) (off : Nat) (bs : List B) : List B :=
  buf.take off ++ bs ++ buf.drop (off + bs.length)

theorem chunk_getElem? (buf : List B) (off len i : Nat) :
    (chunk buf off len)[i]? = if i < len then buf[off + i]? else none := by
  unfold chunk
  rw [List.getElem?_take]
  split
  · rw [List.getElem?_drop]
  · rfl

theorem length_chunk {buf : List B} {off len : Nat} (h : off + len ≤ buf.length) :
    (chunk buf off len).length = len := by
  simp only [chunk, List.length_take, List.length_drop]
  omega

theorem length_patch {buf bs : List B} {off : Nat} (h : off + bs.length ≤ buf.length) :
    (patch buf off bs).length = buf.length := by
  simp only [patch, List.length_append, List.length_take, List.length_drop]
  omega

theorem patch_getElem? {buf bs : List B} {off : Nat} (h : off + bs.length ≤ buf.length) (i : Nat) :
    (patch buf off bs)[i]? =
      if off ≤ i ∧ i < off + bs.length then bs[i - off]? else buf[i]? := by
  have hoff : (buf.take off).length = off := by
    rw [List.length_take]
    omega
  unfold patch
  rw [List.append_assoc]
  rcases Nat.lt_or_ge i off with hlt | hge
  · rw [List.getElem?_append_left (by omega), List.getElem?_take, if_pos hlt, if_neg (by omega)]
  · rw [List.getElem?_append_right (by omega), hoff]
    rcases Nat.lt_or_ge (i - off) bs.length with hlt | hge'
    · rw [List.getElem?_append_left hlt, if_pos ⟨hge, by omega⟩]
    · rw [List.getElem?_append_right hge', List.getElem?_drop, if_neg (by omega)]
      congr 1
      omega

/-- A write elsewhere leaves a chunk as it is. -/
theorem chunk_patch_of_disjoint {buf bs : List B} {off a len : Nat}
    (h : off + bs.length ≤ buf.length) (hd : a + len ≤ off ∨ off + bs.length ≤ a) :
    chunk (patch buf off bs) a len = chunk buf a len := by
  apply List.ext_getElem?
  intro i
  rw [chunk_getElem?, chunk_getElem?]
  split
  · rw [patch_getElem? h, if_neg (by omega)]
  · rfl

/-- A chunk grows by what is written at its end. -/
theorem chunk_patch_grow {buf bs : List B} {a pos : Nat} (h : a + pos + bs.length ≤ buf.length) :
    chunk (patch buf (a + pos) bs) a (pos + bs.length) = chunk buf a pos ++ bs := by
  apply List.ext_getElem?
  intro i
  have hlen : (chunk buf a pos).length = pos := length_chunk (by omega)
  rw [chunk_getElem?]
  rcases Nat.lt_or_ge i pos with hlt | hge
  · rw [if_pos (by omega), patch_getElem? h, if_neg (by omega), List.getElem?_append_left (by omega),
      chunk_getElem?, if_pos hlt]
  · rw [List.getElem?_append_right (by omega), hlen]
    split
    · rw [patch_getElem? h, if_pos (by omega)]
      congr 1
      omega
    · rw [List.getElem?_eq_none (by omega)]

theorem chunk_append_chunk (buf : List B) (a pos len : Nat) :
    chunk buf a pos ++ chunk buf (a + pos) len = chunk buf a (pos + len) := by
  unfold chunk
  rw [List.take_add, List.drop_drop]

@[simp] theorem chunk_zero (buf : List B) (a : Nat) : chunk buf a 0 = [] := by simp [chunk]

theorem chunk_all {buf : List B} {len : Nat} (h : buf.length = len) : chunk buf 0 len = buf := by
  simp [chunk, ← h]

/-- A buffer is its slices. -/
theorem flatten_slices (buf : List B) (n s : Nat) (h : buf.length = n * s) :
    ((List.range n).map fun r => chunk buf (r * s) s).flatten = buf := by
  induction n generalizing buf with
  | zero =>
    rw [Nat.zero_mul] at h
    rw [List.length_eq_zero_iff.mp h]
    rfl
  | succ n ih =>
    have hsplit : buf = chunk buf 0 (n * s) ++ chunk buf (n * s) s := by
      have hjoin := chunk_append_chunk buf 0 (n * s) s
      rw [Nat.zero_add, ← Nat.succ_mul, chunk_all h] at hjoin
      exact hjoin.symm
    have hle : n * s ≤ buf.length := by
      rw [h, Nat.succ_mul]
      omega
    have hinit : (chunk buf 0 (n * s)).length = n * s := length_chunk (by omega)
    have hslices : ∀ r ∈ List.range n, chunk buf (r * s) s =
        chunk (chunk buf 0 (n * s)) (r * s) s := by
      intro r hr
      have hr : r + 1 ≤ n := List.mem_range.mp hr
      have hrs : r * s + s ≤ n * s := by
        rw [← Nat.succ_mul]
        exact Nat.mul_le_mul_right s hr
      apply List.ext_getElem?
      intro i
      rw [chunk_getElem?, chunk_getElem?]
      split
      · rw [chunk_getElem?, if_pos (by omega), Nat.zero_add]
      · rfl
    rw [List.range_succ, List.map_append, List.flatten_append, List.map_congr_left hslices,
      ih _ hinit]
    simp only [List.map_cons, List.map_nil, List.flatten_cons, List.flatten_nil, List.append_nil]
    exact hsplit.symm

/-! ## The calls of a rank -/

/-- A `sendAll` or `recvAll` of `bytes` bytes at `off` of the buffer. -/
structure Xfer where
  isSend : Bool
  peer : Nat
  off : Nat
  bytes : Nat
  deriving DecidableEq, Repr

/-- The root's reads from the ranks `j, …, n-1`. -/
def gathers (n slice j : Nat) : List Xfer :=
  (List.range' j (n - j)).map fun r => ⟨false, r, r * slice, slice⟩

/-- The root's writes to the ranks `j, …, n-1`. -/
def spreads (n slice j : Nat) : List Xfer :=
  (List.range' j (n - j)).map fun r => ⟨true, r, 0, slice * n⟩

/-- `Bootstrap::allGather`. -/
def allGather (n rank slice : Nat) : List Xfer :=
  if rank = 0 then gathers n slice 1 ++ spreads n slice 1
  else [⟨true, 0, rank * slice, slice⟩, ⟨false, 0, 0, slice * n⟩]

/-- A rank: the tables its calls have returned with, and the call it is in. -/
structure Boot (B : Type) where
  held : List (List B)
  active : Bool
  buf : List B
  script : List Xfer
  pos : Nat

/-- A rank at its start. -/
def Boot.init : Boot B := ⟨[], false, [], [], 0⟩

/-- The transfer at hand, `x`, has moved `k` more bytes. -/
def Boot.advance (s : Boot B) (x : Xfer) (rest : List Xfer) (k : Nat) : Boot B :=
  if s.pos + k = x.bytes then { s with script := rest, pos := 0 } else { s with pos := s.pos + k }

/-- `k` bytes go: at least one, unless there is none to move, and no more than are left. -/
def Boot.Moves (s : Boot B) (x : Xfer) (k : Nat) : Prop :=
  (0 < k ∨ x.bytes = 0) ∧ s.pos + k ≤ x.bytes

/-- What rank `r` does. -/
inductive BootStep (n : Nat) (call : Nat → List (List B) → Option (Nat × List B)) (r : Nat) :
    Boot B → Act Nat B → Boot B → Prop
  /-- The next call of `allGather`. -/
  | enter {s : Boot B} {slice : Nat} {buf : List B} (hr : r < n) (ha : s.active = false)
      (hc : call r s.held = some (slice, buf)) :
      BootStep n call r s .tau ⟨s.held, true, buf, allGather n r slice, 0⟩
  /-- `send` takes `k` bytes. -/
  | send {s : Boot B} {x : Xfer} {rest : List Xfer} {k : Nat} (ha : s.active = true)
      (hs : s.script = x :: rest) (hx : x.isSend = true) (hk : s.Moves x k) :
      BootStep n call r s
        (.put x.peer (chunk s.buf (x.off + s.pos) k) (decide (s.pos + k = x.bytes)))
        (s.advance x rest k)
  /-- `recv` returns the bytes `bs`. -/
  | recv {s : Boot B} {x : Xfer} {rest : List Xfer} {bs : List B} (ha : s.active = true)
      (hs : s.script = x :: rest) (hx : x.isSend = false) (hk : s.Moves x bs.length) :
      BootStep n call r s (.take x.peer bs (decide (s.pos + bs.length = x.bytes)))
        ({ s with buf := patch s.buf (x.off + s.pos) bs }.advance x rest bs.length)
  /-- A call that is interrupted is made again. -/
  | retry {s : Boot B} (ha : s.active = true) : BootStep n call r s .tau s
  /-- `allGather` returns. -/
  | ret {s : Boot B} (ha : s.active = true) (hs : s.script = []) :
      BootStep n call r s .tau { s with held := s.held ++ [s.buf], active := false }

/-! ## What the ranks should hold -/

section Rounds

variable (n : Nat) (call : Nat → List (List B) → Option (Nat × List B))

/-- What rank `r` contributes to the round after the tables `h`. -/
def contrib (r : Nat) (h : List (List B)) : List B :=
  match call r h with
  | some (slice, buf) => chunk buf (r * slice) slice
  | none => []

/-- The tables of the first `k` rounds. -/
def tables : Nat → List (List B)
  | 0 => []
  | k + 1 => tables k ++ [((List.range n).map fun r => contrib call r (tables k)).flatten]

/-- All ranks call with the sizes `sz`, round by round, on buffers of `n` slices. -/
def Sized (sz : Nat → Nat) : Prop :=
  ∀ r h slice buf, call r h = some (slice, buf) → slice = sz h.length ∧ buf.length = n * slice

/-- What a rank has sent in its rounds so far. -/
def sentBy (r : Nat) (held : List (List B)) : List (List B) :=
  (List.range held.length).map fun i => contrib call r (held.take i)

/-- Rank `q`'s slices of the tables `held`. -/
def slicesOf (sz : Nat → Nat) (q : Nat) (held : List (List B)) : List (List B) :=
  held.mapIdx fun i t => chunk t (q * sz i) (sz i)

end Rounds

section Local

variable {n : Nat} {call : Nat → List (List B) → Option (Nat × List B)} {sz : Nat → Nat}

theorem length_tables (k : Nat) : (tables n call k).length = k := by
  induction k with
  | zero => rfl
  | succ k ih => simp [tables, ih]

theorem take_tables {i k : Nat} (h : i ≤ k) : (tables n call k).take i = tables n call i := by
  induction k with
  | zero =>
    obtain rfl := Nat.le_zero.mp h
    rfl
  | succ k ih =>
    rcases Nat.lt_or_ge i (k + 1) with hlt | hge
    · simp only [tables]
      rw [List.take_append_of_le_length (by rw [length_tables]; omega)]
      exact ih (by omega)
    · obtain rfl : i = k + 1 := by omega
      exact List.take_of_length_le (Nat.le_of_eq (length_tables _))

theorem sentBy_snoc (r : Nat) (held : List (List B)) (t : List B) :
    sentBy call r (held ++ [t]) = sentBy call r held ++ [contrib call r held] := by
  unfold sentBy
  rw [List.length_append, List.length_singleton, List.range_succ, List.map_append]
  congr 1
  · apply List.map_congr_left
    intro i hi
    rw [List.take_append_of_le_length (Nat.le_of_lt (List.mem_range.mp hi))]
  · simp

theorem slicesOf_snoc (q : Nat) (held : List (List B)) (t : List B) :
    slicesOf sz q (held ++ [t]) =
      slicesOf sz q held ++ [chunk t (q * sz held.length) (sz held.length)] := by
  unfold slicesOf
  rw [List.mapIdx_append]
  simp

/-- A contribution is the slice of the buffer the call was made with. -/
theorem contrib_of_call {r slice : Nat} {h : List (List B)} {buf : List B}
    (hc : call r h = some (slice, buf)) : contrib call r h = chunk buf (r * slice) slice := by
  simp [contrib, hc]

theorem slice_le {r n k : Nat} (hr : r < n) : r * k + k ≤ n * k := by
  rw [← Nat.succ_mul]
  exact Nat.mul_le_mul_right k hr

theorem length_contrib (hz : Sized n call sz) {r : Nat} (hr : r < n) {h : List (List B)}
    (hc : (call r h).isSome) : (contrib call r h).length = sz h.length := by
  obtain ⟨⟨slice, buf⟩, hc⟩ := Option.isSome_iff_exists.mp hc
  obtain ⟨hslice, hbuf⟩ := hz r h slice buf hc
  rw [contrib_of_call hc, length_chunk (by rw [hbuf]; exact slice_le hr), hslice]

/-! ## A rank that is not the root -/

/-- The rounds behind a rank: tables of `n` slices, each after a call. -/
structure Past (n : Nat) (call : Nat → List (List B) → Option (Nat × List B)) (sz : Nat → Nat)
    (r : Nat) (held : List (List B)) : Prop where
  size : ∀ i t, held[i]? = some t → t.length = n * sz i
  called : ∀ i, i < held.length → (call r (held.take i)).isSome

theorem Past.nil (r : Nat) : Past n call sz r [] := ⟨by simp, by simp⟩

theorem Past.snoc {r : Nat} {held : List (List B)} (h : Past n call sz r held) {t : List B}
    (ht : t.length = n * sz held.length) (hc : (call r held).isSome) :
    Past n call sz r (held ++ [t]) := by
  constructor
  · intro i x hx
    rcases Net.getElem?_snoc hx with hold | ⟨rfl, rfl⟩
    · exact h.size i x hold
    · exact ht
  · intro i hi
    rw [List.length_append, List.length_singleton] at hi
    rcases Nat.lt_or_ge i held.length with hlt | hge
    · rw [List.take_append_of_le_length (Nat.le_of_lt hlt)]
      exact h.called i hlt
    · obtain rfl : i = held.length := by omega
      rwa [List.take_left]

/-- Where the ledgers of rank `r` with the root stand. -/
inductive MemberInv (n : Nat) (call : Nat → List (List B) → Option (Nat × List B)) (sz : Nat → Nat)
    (r : Nat) (s : Boot B) (out inn : Ledger B) : Prop
  | idle (ha : s.active = false) (hpast : Past n call sz r s.held)
      (hout : out = ⟨sentBy call r s.held, []⟩) (hinn : inn = ⟨s.held, []⟩)
  | sending {slice : Nat} {buf : List B} (ha : s.active = true) (hpast : Past n call sz r s.held)
      (hc : call r s.held = some (slice, buf)) (hs : s.script = allGather n r slice)
      (hbuf : s.buf = buf) (hpos : s.pos = 0 ∨ s.pos < slice)
      (hout : out = ⟨sentBy call r s.held, chunk buf (r * slice) s.pos⟩)
      (hinn : inn = ⟨s.held, []⟩)
  | receiving {slice : Nat} {buf : List B} (ha : s.active = true) (hpast : Past n call sz r s.held)
      (hc : call r s.held = some (slice, buf)) (hs : s.script = [⟨false, 0, 0, slice * n⟩])
      (hlen : s.buf.length = n * slice) (hpos : s.pos = 0 ∨ s.pos < slice * n)
      (hout : out = ⟨sentBy call r s.held ++ [contrib call r s.held], []⟩)
      (hinn : inn = ⟨s.held, chunk s.buf 0 s.pos⟩)
  | returning {slice : Nat} {buf : List B} (ha : s.active = true) (hpast : Past n call sz r s.held)
      (hc : call r s.held = some (slice, buf)) (hs : s.script = [])
      (hlen : s.buf.length = n * slice)
      (hout : out = ⟨sentBy call r s.held ++ [contrib call r s.held], []⟩)
      (hinn : inn = ⟨s.held ++ [s.buf], []⟩)

theorem memberInv_init (r : Nat) :
    MemberInv n call sz r (Boot.init : Boot B) ⟨[], []⟩ ⟨[], []⟩ :=
  .idle rfl (Past.nil r) rfl rfl

theorem allGather_member {r slice : Nat} (hr : r ≠ 0) :
    allGather n r slice = [⟨true, 0, r * slice, slice⟩, ⟨false, 0, 0, slice * n⟩] := if_neg hr

theorem MemberInv.step (hz : Sized n call sz) {r : Nat} (hr : r ≠ 0) {s s' : Boot B}
    {a : Act Nat B} {out inn : Nat → Ledger B} (h : MemberInv n call sz r s (out 0) (inn 0))
    (hstep : BootStep n call r s a s') :
    MemberInv n call sz r s' (a.out out 0) (a.inn inn 0) := by
  cases hstep with
  | enter hrn ha hc =>
    cases h with
    | idle _ hpast hout hinn =>
      exact .sending rfl hpast hc rfl rfl (Or.inl rfl) (by simpa [Act.out] using hout) hinn
    | sending ha' => rw [ha] at ha'; cases ha'
    | receiving ha' => rw [ha] at ha'; cases ha'
    | returning ha' => rw [ha] at ha'; cases ha'
  | retry ha => exact h
  | ret ha hs =>
    cases h with
    | idle ha' => rw [ha] at ha'; cases ha'
    | sending _ _ _ hs' => rw [hs, allGather_member hr] at hs'; cases hs'
    | receiving _ _ _ hs' => rw [hs] at hs'; cases hs'
    | returning _ hpast hc _ hlen hout hinn =>
      have hslice := (hz _ _ _ _ hc).1
      refine .idle rfl (hpast.snoc (by rw [hlen, hslice]) (by rw [hc]; rfl)) ?_ hinn
      show out 0 = _
      rw [sentBy_snoc, hout]
  | @send x rest k ha hs hx hk =>
    cases h with
    | idle ha' => rw [ha] at ha'; cases ha'
    | receiving _ _ _ hs' =>
      rw [hs] at hs'
      cases hs'
      cases hx
    | returning _ _ _ hs' => rw [hs] at hs'; cases hs'
    | @sending slice buf _ hpast hc hs' hbuf hpos hout hinn =>
      rw [hs, allGather_member hr] at hs'
      cases hs'
      obtain ⟨hslice, hlen⟩ := hz _ _ _ _ hc
      have hjoin := chunk_append_chunk buf (r * slice) s.pos k
      simp only [Boot.advance, Act.out, Act.inn, Function.update_self, hout, hbuf]
      by_cases hfin : s.pos + k = slice
      · rw [if_pos hfin]
        refine .receiving ha hpast hc rfl hlen (Or.inl rfl) ?_ (by simpa using hinn)
        simp only [Ledger.add, hfin, decide_true, if_true]
        rw [hjoin, hfin, contrib_of_call hc]
      · rw [if_neg hfin]
        have hlt : s.pos + k < slice := Nat.lt_of_le_of_ne hk.2 hfin
        refine .sending ha hpast hc (by rw [hs, allGather_member hr]) rfl (Or.inr hlt) ?_ hinn
        simp only [Ledger.add, hfin, decide_false, Bool.false_eq_true, if_false]
        rw [hjoin]
  | @recv x rest bs ha hs hx hk =>
    cases h with
    | idle ha' => rw [ha] at ha'; cases ha'
    | sending _ _ _ hs' =>
      rw [hs, allGather_member hr] at hs'
      cases hs'
      cases hx
    | returning _ _ _ hs' => rw [hs] at hs'; cases hs'
    | @receiving slice buf _ hpast hc hs' hlen hpos hout hinn =>
      rw [hs] at hs'
      cases hs'
      have hk2 : s.pos + bs.length ≤ slice * n := hk.2
      have hle : 0 + s.pos + bs.length ≤ s.buf.length := by
        rw [hlen, Nat.mul_comm n]
        omega
      have hgrow := chunk_patch_grow hle
      have hlen' : (patch s.buf (0 + s.pos) bs).length = n * slice := by
        rw [length_patch hle, hlen]
      simp only [Boot.advance, Act.out, Act.inn, Function.update_self, hinn]
      by_cases hfin : s.pos + bs.length = slice * n
      · rw [if_pos hfin]
        refine .returning ha hpast hc rfl hlen' hout ?_
        simp only [Ledger.add, hfin, decide_true, if_true]
        rw [← hgrow, hfin, chunk_all (by rw [hlen', Nat.mul_comm])]
      · rw [if_neg hfin]
        have hlt : s.pos + bs.length < slice * n := Nat.lt_of_le_of_ne hk.2 hfin
        refine .receiving ha hpast hc hs hlen' (Or.inr hlt) hout ?_
        simp only [Ledger.add, hfin, decide_false, Bool.false_eq_true, if_false]
        rw [← hgrow]

/-! ## The root -/

/-- Where the ledgers of the root stand. -/
inductive RootInv (n : Nat) (call : Nat → List (List B) → Option (Nat × List B)) (sz : Nat → Nat)
    (s : Boot B) (out inn : Nat → Ledger B) : Prop
  | idle (ha : s.active = false) (hpast : Past n call sz 0 s.held)
      (hown : slicesOf sz 0 s.held = sentBy call 0 s.held)
      (hout : ∀ q, 0 < q → q < n → out q = ⟨s.held, []⟩)
      (hinn : ∀ q, 0 < q → q < n → inn q = ⟨slicesOf sz q s.held, []⟩)
  /-- Reading from rank `j`. -/
  | gathering {slice j : Nat} {buf : List B} (ha : s.active = true)
      (hpast : Past n call sz 0 s.held) (hold : slicesOf sz 0 s.held = sentBy call 0 s.held)
      (hc : call 0 s.held = some (slice, buf)) (hj : 0 < j) (hjn : j < n)
      (hs : s.script = gathers n slice j ++ spreads n slice 1) (hlen : s.buf.length = n * slice)
      (hpos : s.pos = 0 ∨ s.pos < slice) (hown : chunk s.buf 0 slice = contrib call 0 s.held)
      (hout : ∀ q, 0 < q → q < n → out q = ⟨s.held, []⟩)
      (hbefore : ∀ q, 0 < q → q < j →
        inn q = ⟨slicesOf sz q s.held ++ [chunk s.buf (q * slice) slice], []⟩)
      (hat : inn j = ⟨slicesOf sz j s.held, chunk s.buf (j * slice) s.pos⟩)
      (hafter : ∀ q, j < q → q < n → inn q = ⟨slicesOf sz q s.held, []⟩)
  /-- Writing to rank `j`; all is written at `j = n`. -/
  | spreading {slice j : Nat} {buf : List B} (ha : s.active = true)
      (hpast : Past n call sz 0 s.held) (hold : slicesOf sz 0 s.held = sentBy call 0 s.held)
      (hc : call 0 s.held = some (slice, buf)) (hj : 0 < j) (hjn : j ≤ n)
      (hs : s.script = spreads n slice j) (hlen : s.buf.length = n * slice)
      (hpos : s.pos = 0 ∨ s.pos < slice * n) (hown : chunk s.buf 0 slice = contrib call 0 s.held)
      (hinn : ∀ q, 0 < q → q < n →
        inn q = ⟨slicesOf sz q s.held ++ [chunk s.buf (q * slice) slice], []⟩)
      (hbefore : ∀ q, 0 < q → q < j → out q = ⟨s.held ++ [s.buf], []⟩)
      (hat : j < n → out j = ⟨s.held, chunk s.buf 0 s.pos⟩)
      (hafter : ∀ q, j < q → q < n → out q = ⟨s.held, []⟩)

theorem rootInv_init : RootInv n call sz (Boot.init : Boot B) (fun _ => ⟨[], []⟩) fun _ => ⟨[], []⟩ :=
  .idle rfl (Past.nil 0) rfl (fun _ _ _ => rfl) fun _ _ _ => rfl

theorem gathers_cons {slice j : Nat} (h : j < n) :
    gathers n slice j = ⟨false, j, j * slice, slice⟩ :: gathers n slice (j + 1) := by
  unfold gathers
  rw [show n - j = (n - (j + 1)) + 1 by omega, List.range'_succ, List.map_cons]

theorem gathers_nil {slice j : Nat} (h : n ≤ j) : gathers n slice j = [] := by
  unfold gathers
  rw [Nat.sub_eq_zero_of_le h]
  rfl

theorem spreads_cons {slice j : Nat} (h : j < n) :
    spreads n slice j = ⟨true, j, 0, slice * n⟩ :: spreads n slice (j + 1) := by
  unfold spreads
  rw [show n - j = (n - (j + 1)) + 1 by omega, List.range'_succ, List.map_cons]

theorem spreads_nil {slice j : Nat} (h : n ≤ j) : spreads n slice j = [] := by
  unfold spreads
  rw [Nat.sub_eq_zero_of_le h]
  rfl

/-- A call of the root starts with the read from rank 1, or has nothing to do. -/
theorem RootInv.enter (hz : Sized n call sz) (hn : 0 < n) {s : Boot B} {slice : Nat} {buf : List B}
    {out inn : Nat → Ledger B} (h : RootInv n call sz s out inn) (ha : s.active = false)
    (hc : call 0 s.held = some (slice, buf)) :
    RootInv n call sz ⟨s.held, true, buf, allGather n 0 slice, 0⟩ out inn := by
  cases h with
  | gathering ha' => rw [ha] at ha'; cases ha'
  | spreading ha' => rw [ha] at ha'; cases ha'
  | idle _ hpast hown hout hinn =>
    have hlen := (hz _ _ _ _ hc).2
    have hcon : chunk buf 0 slice = contrib call 0 s.held := by
      rw [contrib_of_call hc, Nat.zero_mul]
    have hscript : allGather n 0 slice = gathers n slice 1 ++ spreads n slice 1 := if_pos rfl
    rcases Nat.lt_or_ge 1 n with h1 | h1
    · exact .gathering rfl hpast hown hc Nat.one_pos h1 hscript hlen (Or.inl rfl) hcon hout
        (fun q h0 hq => by omega) (by simpa using hinn 1 Nat.one_pos h1)
        (fun q hq hqn => hinn q (by omega) hqn)
    · refine .spreading rfl hpast hown hc Nat.one_pos hn ?_ hlen (Or.inl rfl) hcon
        (fun q h0 hq => by omega) (fun q h0 hq => by omega) (fun h => by omega)
        (fun q hq hqn => by omega)
      rw [hscript, gathers_nil h1, List.nil_append]

/-- The root reads on. -/
theorem RootInv.recv {s : Boot B} {x : Xfer} {rest : List Xfer} {bs : List B}
    {out inn : Nat → Ledger B} (h : RootInv n call sz s out inn) (ha : s.active = true)
    (hs : s.script = x :: rest) (hx : x.isSend = false) (hk : s.Moves x bs.length) :
    RootInv n call sz ({ s with buf := patch s.buf (x.off + s.pos) bs }.advance x rest bs.length) out
      (Function.update inn x.peer
        ((inn x.peer).add bs (decide (s.pos + bs.length = x.bytes)))) := by
  cases h with
  | idle ha' => rw [ha] at ha'; cases ha'
  | @spreading slice j buf _ _ _ _ hj hjn hs' =>
    rcases Nat.lt_or_ge j n with hlt | hge
    · rw [hs, spreads_cons hlt] at hs'
      cases hs'
      cases hx
    · rw [hs, spreads_nil hge] at hs'
      cases hs'
  | @gathering slice j buf _ hpast hold hc hj hjn hs' hlen hpos hown hout hbefore hat hafter =>
    rw [hs, gathers_cons hjn, List.cons_append] at hs'
    cases hs'
    have hk2 : s.pos + bs.length ≤ slice := hk.2
    have hroom := slice_le (k := slice) hjn
    have hle : j * slice + s.pos + bs.length ≤ s.buf.length := by omega
    have hgrow := chunk_patch_grow hle
    have hlen' : (patch s.buf (j * slice + s.pos) bs).length = n * slice := by
      rw [length_patch hle, hlen]
    -- the slices before rank `j`'s stay as they are
    have hkeep : ∀ q, q < j → chunk (patch s.buf (j * slice + s.pos) bs) (q * slice) slice =
        chunk s.buf (q * slice) slice := by
      intro q hq
      have := slice_le (k := slice) hq
      exact chunk_patch_of_disjoint hle (Or.inl (by omega))
    have hown' : chunk (patch s.buf (j * slice + s.pos) bs) 0 slice = contrib call 0 s.held := by
      have := hkeep 0 hj
      rw [Nat.zero_mul] at this
      rw [this, hown]
    simp only [Boot.advance, hat]
    by_cases hfin : s.pos + bs.length = slice
    · rw [if_pos hfin]
      have hadd : Ledger.add ⟨slicesOf sz j s.held, chunk s.buf (j * slice) s.pos⟩ bs
          (decide (s.pos + bs.length = slice)) = ⟨slicesOf sz j s.held ++
            [chunk (patch s.buf (j * slice + s.pos) bs) (j * slice) slice], []⟩ := by
        simp only [Ledger.add, hfin, decide_true, if_true]
        rw [← hgrow, hfin]
      rw [hadd]
      have hdone : ∀ q, 0 < q → q < j + 1 → Function.update inn j
          ⟨slicesOf sz j s.held ++
            [chunk (patch s.buf (j * slice + s.pos) bs) (j * slice) slice], []⟩ q =
          ⟨slicesOf sz q s.held ++
            [chunk (patch s.buf (j * slice + s.pos) bs) (q * slice) slice], []⟩ := by
        intro q h0 hq
        by_cases hqj : q = j
        · subst hqj
          rw [Function.update_self]
        · rw [Function.update_of_ne hqj, hbefore q h0 (by omega), hkeep q (by omega)]
      rcases Nat.lt_or_ge (j + 1) n with hlt | hge
      · refine .gathering ha hpast hold hc (Nat.succ_pos j) hlt rfl hlen' (Or.inl rfl) hown' hout
          hdone ?_ fun q hq hqn => ?_
        · rw [Function.update_of_ne (by omega), hafter (j + 1) (by omega) hlt, chunk_zero]
        · rw [Function.update_of_ne (by omega)]
          exact hafter q (by omega) hqn
      · refine .spreading ha hpast hold hc Nat.one_pos (by omega) ?_ hlen' (Or.inl rfl) hown'
          (fun q h0 hq => hdone q h0 (by omega)) (fun q h0 hq => by omega) (fun h1 => ?_)
          fun q hq hqn => hout q (by omega) hqn
        · simp only [gathers_nil hge, List.nil_append]
        · simpa using hout 1 Nat.one_pos h1
    · rw [if_neg hfin]
      have hlt : s.pos + bs.length < slice := by omega
      have hadd : Ledger.add ⟨slicesOf sz j s.held, chunk s.buf (j * slice) s.pos⟩ bs
          (decide (s.pos + bs.length = slice)) = ⟨slicesOf sz j s.held,
            chunk (patch s.buf (j * slice + s.pos) bs) (j * slice) (s.pos + bs.length)⟩ := by
        simp only [Ledger.add, hfin, decide_false, Bool.false_eq_true, if_false]
        rw [hgrow]
      rw [hadd]
      refine .gathering ha hpast hold hc hj hjn ?_ hlen' (Or.inr hlt) hown' hout ?_
        (Function.update_self _ _ _) fun q hq hqn => ?_
      · rw [hs, gathers_cons hjn, List.cons_append]
      · intro q h0 hq
        rw [Function.update_of_ne (by omega), hbefore q h0 hq, hkeep q hq]
      · rw [Function.update_of_ne (by omega)]
        exact hafter q hq hqn

/-- The root writes on. -/
theorem RootInv.send {s : Boot B} {x : Xfer} {rest : List Xfer} {k : Nat}
    {out inn : Nat → Ledger B} (h : RootInv n call sz s out inn) (ha : s.active = true)
    (hs : s.script = x :: rest) (hx : x.isSend = true) (hk : s.Moves x k) :
    RootInv n call sz (s.advance x rest k) (Function.update out x.peer
      ((out x.peer).add (chunk s.buf (x.off + s.pos) k) (decide (s.pos + k = x.bytes)))) inn := by
  cases h with
  | idle ha' => rw [ha] at ha'; cases ha'
  | @gathering slice j buf _ _ _ _ hj hjn hs' =>
    rw [hs, gathers_cons hjn, List.cons_append] at hs'
    cases hs'
    cases hx
  | @spreading slice j buf _ hpast hold hc hj hjn hs' hlen hpos hown hinn hbefore hat hafter =>
    rcases Nat.lt_or_ge j n with hlt | hge
    swap
    · rw [hs, spreads_nil hge] at hs'
      cases hs'
    rw [hs, spreads_cons hlt] at hs'
    cases hs'
    have hjoin := chunk_append_chunk s.buf 0 s.pos k
    have hjk : s.pos + k ≤ slice * n := hk.2
    simp only [Boot.advance, hat hlt]
    by_cases hfin : s.pos + k = slice * n
    · rw [if_pos hfin]
      have hadd : Ledger.add ⟨s.held, chunk s.buf 0 s.pos⟩ (chunk s.buf (0 + s.pos) k)
          (decide (s.pos + k = slice * n)) = ⟨s.held ++ [s.buf], []⟩ := by
        simp only [Ledger.add, hfin, decide_true, if_true]
        rw [hjoin, hfin, chunk_all (by rw [hlen, Nat.mul_comm])]
      rw [hadd]
      refine .spreading ha hpast hold hc (Nat.succ_pos j) hlt rfl hlen (Or.inl rfl) hown hinn ?_ ?_ ?_
      · intro q h0 hq
        by_cases hqj : q = j
        · rw [hqj, Function.update_self]
        · rw [Function.update_of_ne hqj]
          exact hbefore q h0 (by omega)
      · intro hjn'
        rw [Function.update_of_ne (by omega), hafter (j + 1) (by omega) hjn', chunk_zero]
      · intro q hq hqn
        rw [Function.update_of_ne (by omega)]
        exact hafter q (by omega) hqn
    · rw [if_neg hfin]
      have hadd : Ledger.add ⟨s.held, chunk s.buf 0 s.pos⟩ (chunk s.buf (0 + s.pos) k)
          (decide (s.pos + k = slice * n)) = ⟨s.held, chunk s.buf 0 (s.pos + k)⟩ := by
        simp only [Ledger.add, hfin, decide_false, Bool.false_eq_true, if_false]
        rw [hjoin]
      rw [hadd]
      have hmore : s.pos + k < slice * n := by omega
      refine .spreading ha hpast hold hc hj hjn ?_ hlen (Or.inr hmore) hown hinn ?_
        (fun _ => Function.update_self _ _ _) ?_
      · rw [hs, spreads_cons hlt]
      · intro q h0 hq
        rw [Function.update_of_ne (by omega)]
        exact hbefore q h0 hq
      · intro q hq hqn
        rw [Function.update_of_ne (by omega)]
        exact hafter q hq hqn

/-- The root's call returns. -/
theorem RootInv.ret (hz : Sized n call sz) {s : Boot B} {out inn : Nat → Ledger B}
    (h : RootInv n call sz s out inn) (ha : s.active = true) (hs : s.script = []) :
    RootInv n call sz { s with held := s.held ++ [s.buf], active := false } out inn := by
  cases h with
  | idle ha' => rw [ha] at ha'; cases ha'
  | @gathering slice j buf _ _ _ _ hj hjn hs' =>
    rw [hs, gathers_cons hjn] at hs'
    cases hs'
  | @spreading slice j buf _ hpast hold hc hj hjn hs' hlen hpos hown hinn hbefore hat hafter =>
    have hslice := (hz _ _ _ _ hc).1
    rcases Nat.lt_or_ge j n with hlt | hge
    · rw [hs, spreads_cons hlt] at hs'
      cases hs'
    refine .idle rfl (hpast.snoc (by rw [hlen, hslice]) (by rw [hc]; rfl)) ?_
      (fun q h0 hq => hbefore q h0 (by omega)) fun q h0 hq => ?_
    · rw [slicesOf_snoc, sentBy_snoc, hold, ← hslice, Nat.zero_mul, hown]
    · rw [slicesOf_snoc, hinn q h0 hq, ← hslice]

theorem RootInv.step (hz : Sized n call sz) (hn : 0 < n) {s s' : Boot B} {a : Act Nat B}
    {out inn : Nat → Ledger B} (h : RootInv n call sz s out inn) (hstep : BootStep n call 0 s a s') :
    RootInv n call sz s' (a.out out) (a.inn inn) := by
  cases hstep with
  | enter _ ha hc => exact h.enter hz hn ha hc
  | send ha hs hx hk => exact h.send ha hs hx hk
  | recv ha hs hx hk => exact h.recv ha hs hx hk
  | retry ha => exact h
  | ret ha hs => exact h.ret hz ha hs

/-! ## The ledgers against the tables -/

/-- What the ledgers of a rank say of its rounds. -/
structure MemberView (call : Nat → List (List B) → Option (Nat × List B)) (sz : Nat → Nat) (n r : Nat)
    (s : Boot B) (out inn : Ledger B) : Prop where
  size : ∀ (i : Nat) (t : List B), s.held[i]? = some t → t.length = n * sz i
  got : ∀ (i : Nat) (t : List B), s.held[i]? = some t → inn.done[i]? = some t
  sent : ∀ (i : Nat) (m : List B), out.done[i]? = some m →
    (i < s.held.length ∨ i = s.held.length ∧ s.active = true) ∧ m = contrib call r (s.held.take i)
  cutOut : out.Cut sz
  cutInn : inn.Cut fun i => n * sz i

theorem sentBy_getElem? {r i : Nat} {held : List (List B)} {m : List B}
    (h : (sentBy call r held)[i]? = some m) :
    i < held.length ∧ m = contrib call r (held.take i) := by
  have hi : i < held.length := by
    have := (List.getElem?_eq_some_iff.mp h).1
    simpa [sentBy] using this
  refine ⟨hi, ?_⟩
  rw [sentBy, List.getElem?_map, List.getElem?_range hi] at h
  exact (Option.some.inj h).symm

theorem Past.length_sent (hz : Sized n call sz) {r : Nat} (hr : r < n) {held : List (List B)}
    (hpast : Past n call sz r held) {i : Nat} {m : List B}
    (h : (sentBy call r held)[i]? = some m) : m.length = sz i := by
  obtain ⟨hi, rfl⟩ := sentBy_getElem? h
  rw [length_contrib hz hr (hpast.called i hi), List.length_take, Nat.min_eq_left (Nat.le_of_lt hi)]

theorem MemberInv.view (hz : Sized n call sz) {r : Nat} (hr : r < n) {s : Boot B}
    {out inn : Ledger B} (h : MemberInv n call sz r s out inn) :
    MemberView call sz n r s out inn := by
  have hsentLen : (sentBy call r s.held).length = s.held.length := by simp [sentBy]
  cases h with
  | idle ha hpast hout hinn =>
    subst hout hinn
    exact ⟨hpast.size, fun i t h => h, fun i m h =>
      ⟨Or.inl (sentBy_getElem? h).1, (sentBy_getElem? h).2⟩,
      ⟨fun i m h => hpast.length_sent hz hr h, Or.inl rfl⟩, ⟨hpast.size, Or.inl rfl⟩⟩
  | @sending slice buf ha hpast hc hs hbuf hpos hout hinn =>
    subst hout hinn
    obtain ⟨hslice, hlen⟩ := hz _ _ _ _ hc
    refine ⟨hpast.size, fun i t h => h, fun i m h =>
      ⟨Or.inl (sentBy_getElem? h).1, (sentBy_getElem? h).2⟩,
      ⟨fun i m h => hpast.length_sent hz hr h, ?_⟩, ⟨hpast.size, Or.inl rfl⟩⟩
    rcases hpos with h0 | hlt
    · exact Or.inl (by rw [h0, chunk_zero])
    · have := slice_le (k := slice) hr
      refine Or.inr ?_
      rw [length_chunk (by omega), hsentLen, ← hslice]
      exact hlt
  | @receiving slice buf ha hpast hc hs hlen hpos hout hinn =>
    subst hout hinn
    have hslice := (hz _ _ _ _ hc).1
    refine ⟨hpast.size, fun i t h => h, fun i m h => ?_, ⟨fun i m h => ?_, Or.inl rfl⟩,
      ⟨hpast.size, ?_⟩⟩
    · rcases Net.getElem?_snoc h with hold | ⟨rfl, rfl⟩
      · exact ⟨Or.inl (sentBy_getElem? hold).1, (sentBy_getElem? hold).2⟩
      · rw [hsentLen, List.take_length]
        exact ⟨Or.inr ⟨rfl, ha⟩, rfl⟩
    · rcases Net.getElem?_snoc h with hold | ⟨rfl, rfl⟩
      · exact hpast.length_sent hz hr hold
      · rw [length_contrib hz hr (by rw [hc]; rfl), hsentLen]
    · rcases hpos with h0 | hlt
      · exact Or.inl (by rw [h0, chunk_zero])
      · refine Or.inr ?_
        rw [Nat.mul_comm] at hlt
        rw [length_chunk (by omega), ← hslice]
        exact hlt
  | @returning slice buf ha hpast hc hs hlen hout hinn =>
    subst hout hinn
    have hslice := (hz _ _ _ _ hc).1
    refine ⟨hpast.size, fun i t h => ?_, fun i m h => ?_, ⟨fun i m h => ?_, Or.inl rfl⟩,
      ⟨fun i t h => ?_, Or.inl rfl⟩⟩
    · rw [List.getElem?_append_left (List.getElem?_eq_some_iff.mp h).1]
      exact h
    · rcases Net.getElem?_snoc h with hold | ⟨rfl, rfl⟩
      · exact ⟨Or.inl (sentBy_getElem? hold).1, (sentBy_getElem? hold).2⟩
      · rw [hsentLen, List.take_length]
        exact ⟨Or.inr ⟨rfl, ha⟩, rfl⟩
    · rcases Net.getElem?_snoc h with hold | ⟨rfl, rfl⟩
      · exact hpast.length_sent hz hr hold
      · rw [length_contrib hz hr (by rw [hc]; rfl), hsentLen]
    · rcases Net.getElem?_snoc h with hold | ⟨rfl, rfl⟩
      · exact hpast.size i t hold
      · rw [hlen, hslice]

/-- What the ledgers of the root say of its rounds: `T` are the tables it has put together, of which
it has handed out those of the rounds it has returned from, and at most one more. -/
structure RootView (call : Nat → List (List B) → Option (Nat × List B)) (sz : Nat → Nat) (n : Nat)
    (s : Boot B) (out inn : Nat → Ledger B) (T : List (List B)) : Prop where
  held : s.held <+: T
  entered : ∀ i, i < T.length → i < s.held.length ∨ i = s.held.length ∧ s.active = true
  size : ∀ (i : Nat) (t : List B), T[i]? = some t → t.length = n * sz i
  own : ∀ (i : Nat) (t : List B), T[i]? = some t → chunk t 0 (sz i) = contrib call 0 (s.held.take i)
  sent : ∀ q, 0 < q → q < n → (out q).done <+: T
  got : ∀ q, 0 < q → q < n → ∀ (i : Nat) (t : List B), T[i]? = some t →
    (inn q).done[i]? = some (chunk t (q * sz i) (sz i))
  cutOut : ∀ q, 0 < q → q < n → (out q).Cut fun i => n * sz i
  cutInn : ∀ q, 0 < q → q < n → (inn q).Cut sz

theorem slicesOf_getElem? (sz : Nat → Nat) (q : Nat) {i : Nat} {held : List (List B)} {t : List B}
    (h : held[i]? = some t) : (slicesOf sz q held)[i]? = some (chunk t (q * sz i) (sz i)) := by
  simp [slicesOf, List.getElem?_mapIdx, h]

theorem Past.length_slice {r q : Nat} (hq : q < n) {held : List (List B)}
    (hpast : Past n call sz r held) {i : Nat} {m : List B}
    (h : (slicesOf sz q held)[i]? = some m) : m.length = sz i := by
  simp only [slicesOf, List.getElem?_mapIdx, Option.map_eq_some_iff] at h
  obtain ⟨t, ht, rfl⟩ := h
  rw [length_chunk (by rw [hpast.size i t ht]; exact slice_le hq)]

/-- The root's own slices are its contributions. -/
theorem own_of_slices {held : List (List B)} (h : slicesOf sz 0 held = sentBy call 0 held) {i : Nat}
    {t : List B} (ht : held[i]? = some t) : chunk t 0 (sz i) = contrib call 0 (held.take i) := by
  have hs := slicesOf_getElem? sz 0 ht
  rw [h, Nat.zero_mul] at hs
  exact (sentBy_getElem? hs).2

/-- A root that has put no table together since its last round. -/
theorem Past.rootView {s : Boot B} {out inn : Nat → Ledger B}
    (hpast : Past n call sz 0 s.held) (hold : slicesOf sz 0 s.held = sentBy call 0 s.held)
    (hout : ∀ q, 0 < q → q < n → out q = ⟨s.held, []⟩)
    (hinn : ∀ q, 0 < q → q < n → slicesOf sz q s.held <+: (inn q).done)
    (hcut : ∀ q, 0 < q → q < n → (inn q).Cut sz) : RootView call sz n s out inn s.held := by
  refine ⟨List.prefix_rfl, fun i hi => Or.inl hi, hpast.size, fun i t ht => own_of_slices hold ht,
    fun q h0 hq => ?_, fun q h0 hq i t ht => ?_, fun q h0 hq => ?_, hcut⟩
  · rw [hout q h0 hq]
  · have hs := slicesOf_getElem? sz q ht
    obtain ⟨rest, hrest⟩ := hinn q h0 hq
    rw [← hrest, List.getElem?_append_left (List.getElem?_eq_some_iff.mp hs).1]
    exact hs
  · rw [hout q h0 hq]
    exact ⟨hpast.size, Or.inl rfl⟩

theorem cut_slices_snoc {r q slice : Nat} (hq : q < n) {held : List (List B)}
    (hpast : Past n call sz r held) {buf : List B} (hlen : buf.length = n * slice)
    (hslice : slice = sz held.length) :
    Ledger.Cut sz ⟨slicesOf sz q held ++ [chunk buf (q * slice) slice], []⟩ := by
  refine ⟨fun i m h => ?_, Or.inl rfl⟩
  rcases Net.getElem?_snoc h with hold | ⟨rfl, rfl⟩
  · exact hpast.length_slice hq hold
  · rw [length_chunk (by rw [hlen]; exact slice_le hq), hslice]
    simp [slicesOf]

theorem RootInv.view (hz : Sized n call sz) {s : Boot B} {out inn : Nat → Ledger B}
    (h : RootInv n call sz s out inn) : ∃ T, RootView call sz n s out inn T := by
  cases h with
  | idle ha hpast hold hout hinn =>
    refine ⟨_, hpast.rootView hold hout (fun q h0 hq => ?_) fun q h0 hq => ?_⟩
    · rw [hinn q h0 hq]
    · rw [hinn q h0 hq]
      exact ⟨fun i m h => hpast.length_slice hq h, Or.inl rfl⟩
  | @gathering slice j buf ha hpast hold hc hj hjn hs hlen hpos hown hout hbefore hat hafter =>
    have hslice := (hz _ _ _ _ hc).1
    refine ⟨_, hpast.rootView hold hout (fun q h0 hq => ?_) fun q h0 hq => ?_⟩
    · rcases Nat.lt_trichotomy q j with hlt | rfl | hgt
      · rw [hbefore q h0 hlt]
        exact List.prefix_append _ _
      · rw [hat]
      · rw [hafter q hgt hq]
    · rcases Nat.lt_trichotomy q j with hlt | rfl | hgt
      · rw [hbefore q h0 hlt]
        exact cut_slices_snoc hq hpast hlen hslice
      · rw [hat]
        refine ⟨fun i m h => hpast.length_slice hq h, ?_⟩
        rcases hpos with hp | hp
        · exact Or.inl (by rw [hp, chunk_zero])
        · have := slice_le (k := slice) hq
          refine Or.inr ?_
          rw [length_chunk (by omega)]
          simpa [slicesOf, ← hslice] using hp
      · rw [hafter q hgt hq]
        exact ⟨fun i m h => hpast.length_slice hq h, Or.inl rfl⟩
  | @spreading slice j buf ha hpast hold hc hj hjn hs hlen hpos hown hinn hbefore hat hafter =>
    have hslice := (hz _ _ _ _ hc).1
    have hsize : ∀ i t, (s.held ++ [s.buf])[i]? = some t → t.length = n * sz i := by
      intro i t ht
      rcases Net.getElem?_snoc ht with hold | ⟨rfl, rfl⟩
      · exact hpast.size i t hold
      · rw [hlen, hslice]
    refine ⟨s.held ++ [s.buf], List.prefix_append _ _, fun i hi => ?_, hsize, fun i t ht => ?_,
      fun q h0 hq => ?_, fun q h0 hq i t ht => ?_, fun q h0 hq => ?_, fun q h0 hq => ?_⟩
    · rw [List.length_append, List.length_singleton] at hi
      rcases Nat.lt_or_ge i s.held.length with hlt | hge
      · exact Or.inl hlt
      · exact Or.inr ⟨by omega, ha⟩
    · rcases Net.getElem?_snoc ht with hmem | ⟨rfl, rfl⟩
      · exact own_of_slices hold hmem
      · rw [List.take_length, ← hslice, hown]
    · rcases Nat.lt_trichotomy q j with hlt | rfl | hgt
      · rw [hbefore q h0 hlt]
      · rw [hat hq]
        exact List.prefix_append _ _
      · rw [hafter q hgt hq]
        exact List.prefix_append _ _
    · rw [hinn q h0 hq]
      have hs := slicesOf_getElem? sz q ht
      rwa [slicesOf_snoc, ← hslice] at hs
    · rcases Nat.lt_trichotomy q j with hlt | rfl | hgt
      · rw [hbefore q h0 hlt]
        exact ⟨hsize, Or.inl rfl⟩
      · rw [hat hq]
        refine ⟨hpast.size, ?_⟩
        rcases hpos with hp | hp
        · exact Or.inl (by rw [hp, chunk_zero])
        · refine Or.inr ?_
          rw [Nat.mul_comm] at hp
          rw [length_chunk (by omega), ← hslice]
          exact hp
      · rw [hafter q hgt hq]
        exact ⟨hpast.size, Or.inl rfl⟩
    · rw [hinn q h0 hq]
      exact cut_slices_snoc hq hpast hlen hslice

end Local

/-! ## The rounds of all ranks -/

section Global

variable {n : Nat} {call : Nat → List (List B) → Option (Nat × List B)} {sz : Nat → Nat}
  {cap : Nat → Nat → Nat}

/-- A state of the ranks after any interleaving of their steps. -/
def BootRun (n : Nat) (cap : Nat → Nat → Nat) (call : Nat → List (List B) → Option (Nat × List B))
    (c : Flow Nat B (Boot B)) : Prop :=
  FlowRun cap (BootStep n call) (Flow.start fun _ => Boot.init) c

theorem bootRun_local (hz : Sized n call sz) (hn : 0 < n) {c : Flow Nat B (Boot B)}
    (h : BootRun n cap call c) :
    RootInv n call sz (c.st 0) (c.out 0) (c.inn 0) ∧
      ∀ r, r ≠ 0 → MemberInv n call sz r (c.st r) (c.out r 0) (c.inn r 0) := by
  have hinv := Net.flow_local
    (I := fun p s out inn => (p = 0 → RootInv n call sz s out inn) ∧
      (p ≠ 0 → MemberInv n call sz p s (out 0) (inn 0)))
    (fun p => ⟨fun _ => rootInv_init, fun _ => memberInv_init p⟩)
    (fun p s a s' out inn hI hstep => ⟨fun hp => by
      subst hp
      exact (hI.1 rfl).step hz hn hstep, fun hp => (hI.2 hp).step hz hp hstep⟩) h
  exact ⟨(hinv 0).1 rfl, fun r hr => (hinv r).2 hr⟩

/-- The table of round `i`. -/
def tableAt (n : Nat) (call : Nat → List (List B) → Option (Nat × List B)) (i : Nat) : List B :=
  ((List.range n).map fun r => contrib call r (tables n call i)).flatten

/-- Tables that are right up to `i` are the first `i` tables. -/
theorem take_eq_tables {held : List (List B)} {i : Nat} (hi : i ≤ held.length)
    (h : ∀ j, j < i → ∀ t, held[j]? = some t → t = tableAt n call j) :
    held.take i = tables n call i := by
  induction i with
  | zero => rfl
  | succ i ih =>
    have hlt : i < held.length := hi
    rw [List.take_add_one, ih (by omega) fun j hj => h j (by omega), List.getElem?_eq_getElem hlt,
      h i (Nat.lt_succ_self i) _ (List.getElem?_eq_getElem hlt)]
    rfl

/-- A round without bytes has an empty table. -/
theorem tableAt_eq_nil (hz : Sized n call sz) {i : Nat} (h0 : sz i = 0) : tableAt n call i = [] := by
  unfold tableAt
  rw [List.flatten_eq_nil_iff]
  intro m hm
  obtain ⟨r, hr, rfl⟩ := List.mem_map.mp hm
  have hr : r < n := List.mem_range.mp hr
  cases hc : call r (tables n call i) with
  | none => simp [contrib, hc]
  | some x =>
    have hlen := length_contrib hz hr (h := tables n call i) (by rw [hc]; rfl)
    rw [length_tables, h0] at hlen
    exact List.length_eq_zero_iff.mp hlen

/-- All that the ledgers of the ranks say, taken together: the tables the root has put together, and
the ranks' rounds. -/
structure Rounds (n : Nat) (call : Nat → List (List B) → Option (Nat × List B)) (sz : Nat → Nat)
    (c : Flow Nat B (Boot B)) (T : List (List B)) : Prop where
  root : RootView call sz n (c.st 0) (c.out 0) (c.inn 0) T
  member : ∀ r, 0 < r → r < n → MemberView call sz n r (c.st r) (c.out r 0) (c.inn r 0)
  up : ∀ r, (c.out r 0).bytes = (c.inn 0 r).bytes ++ c.chan r 0
  down : ∀ r, (c.out 0 r).bytes = (c.inn r 0).bytes ++ c.chan 0 r

theorem BootRun.rounds (hz : Sized n call sz) (hn : 0 < n) {c : Flow Nat B (Boot B)}
    (h : BootRun n cap call c) : ∃ T, Rounds n call sz c T := by
  obtain ⟨hroot, hmember⟩ := bootRun_local hz hn h
  obtain ⟨T, hT⟩ := hroot.view hz
  exact ⟨T, hT, fun r h0 hr => (hmember r (by omega)).view hz hr, fun r => Net.flow_bytes h r 0,
    fun r => Net.flow_bytes h 0 r⟩

/-- A slice the root has read is one the rank has sent. -/
theorem Rounds.slice_sent {c : Flow Nat B (Boot B)} {T : List (List B)} (h : Rounds n call sz c T)
    {q i : Nat} (h0 : 0 < q) (hq : q < n) {t : List B} (ht : T[i]? = some t) (hi : 0 < sz i) :
    (c.out q 0).done[i]? = some (chunk t (q * sz i) (sz i)) := by
  refine (h.member q h0 hq).cutOut.agree (h.root.cutInn q h0 hq) (h.up q)
    (h.root.got q h0 hq i t ht) fun hnil => ?_
  have hlen : (chunk t (q * sz i) (sz i)).length = sz i :=
    length_chunk (by rw [h.root.size i t ht]; exact slice_le hq)
  rw [hnil] at hlen
  simp at hlen
  omega

/-- A table a rank has read is one the root has put together. -/
theorem Rounds.table_sent {c : Flow Nat B (Boot B)} {T : List (List B)} (h : Rounds n call sz c T)
    {r i : Nat} (h0 : 0 < r) (hr : r < n) {t : List B} (ht : (c.st r).held[i]? = some t)
    (hne : t ≠ []) : T[i]? = some t := by
  have hout := (h.root.cutOut r h0 hr).agree (h.member r h0 hr).cutInn (h.down r)
    ((h.member r h0 hr).got i t ht) hne
  obtain ⟨rest, hrest⟩ := h.root.sent r h0 hr
  rw [← hrest, List.getElem?_append_left (List.getElem?_eq_some_iff.mp hout).1]
  exact hout

/-- The tables of the root, and then those of the ranks, are right, round by round. -/
theorem Rounds.tables_eq (hz : Sized n call sz) (hn : 0 < n) {c : Flow Nat B (Boot B)}
    {T : List (List B)} (h : Rounds n call sz c T) (i : Nat) :
    (∀ t, T[i]? = some t → t = tableAt n call i) ∧
      ∀ r, 0 < r → r < n → ∀ t, (c.st r).held[i]? = some t → t = tableAt n call i := by
  induction i using Nat.strongRecOn with
  | _ i ih =>
    have hroot : ∀ t, T[i]? = some t → t = tableAt n call i := by
      intro t ht
      have hlen := h.root.size i t ht
      rcases Nat.eq_zero_or_pos (sz i) with hzero | hpos
      · rw [tableAt_eq_nil hz hzero]
        rw [hzero, Nat.mul_zero] at hlen
        exact List.length_eq_zero_iff.mp hlen
      -- every slice of the table is what its rank contributed
      rw [← flatten_slices t n (sz i) hlen, tableAt]
      congr 1
      apply List.map_congr_left
      intro q hq
      have hq : q < n := List.mem_range.mp hq
      rcases Nat.eq_zero_or_pos q with rfl | h0
      · rw [Nat.zero_mul, h.root.own i t ht]
        have hle : i ≤ (c.st 0).held.length := by
          have := h.root.entered i (List.getElem?_eq_some_iff.mp ht).1
          omega
        congr 1
        refine take_eq_tables hle fun j hj x hx => (ih j hj).1 x ?_
        obtain ⟨rest, hrest⟩ := h.root.held
        rw [← hrest, List.getElem?_append_left (List.getElem?_eq_some_iff.mp hx).1]
        exact hx
      · obtain ⟨hle, heq⟩ := (h.member q h0 hq).sent i _ (h.slice_sent h0 hq ht hpos)
        rw [heq]
        congr 1
        exact take_eq_tables (by omega) fun j hj x hx => (ih j hj).2 q h0 hq x hx
    refine ⟨hroot, fun r h0 hr t ht => ?_⟩
    by_cases hne : t = []
    · have hlen := (h.member r h0 hr).size i t ht
      rw [hne, List.length_nil] at hlen
      have hzero : sz i = 0 := by
        rcases Nat.mul_eq_zero.mp hlen.symm with h | h
        · omega
        · exact h
      rw [hne, tableAt_eq_nil hz hzero]
    · exact hroot t (h.table_sent h0 hr ht hne)

/-- **What the ranks hold**: every rank's tables are those of the rounds it has returned from. -/
theorem held_eq_tables (hz : Sized n call sz) (hn : 0 < n) {c : Flow Nat B (Boot B)}
    (h : BootRun n cap call c) {r : Nat} (hr : r < n) :
    (c.st r).held = tables n call (c.st r).held.length := by
  obtain ⟨T, hT⟩ := h.rounds hz hn
  suffices h : ∀ j, j < (c.st r).held.length → ∀ t, (c.st r).held[j]? = some t →
      t = tableAt n call j by
    have htake := take_eq_tables (Nat.le_refl (c.st r).held.length) h
    rwa [List.take_length] at htake
  intro j hj t ht
  rcases Nat.eq_zero_or_pos r with rfl | h0
  · refine (hT.tables_eq hz hn j).1 t ?_
    obtain ⟨rest, hrest⟩ := hT.root.held
    rw [← hrest, List.getElem?_append_left (List.getElem?_eq_some_iff.mp ht).1]
    exact ht
  · exact (hT.tables_eq hz hn j).2 r h0 hr t ht

/-- **A round in which bytes move is a barrier**: a rank that has returned from it has seen every
rank enter it. -/
theorem entered_of_held (hz : Sized n call sz) (hn : 0 < n) {c : Flow Nat B (Boot B)}
    (h : BootRun n cap call c) {r k : Nat} (hr : r < n) (hk : k < (c.st r).held.length)
    (hpos : 0 < sz k) {q : Nat} (hq : q < n) :
    k < (c.st q).held.length ∨ (k = (c.st q).held.length ∧ (c.st q).active = true) := by
  obtain ⟨T, hT⟩ := h.rounds hz hn
  -- the root has put the table of the round together
  have htable : ∃ t, T[k]? = some t := by
    have hget := List.getElem?_eq_getElem hk
    rcases Nat.eq_zero_or_pos r with rfl | h0
    · obtain ⟨rest, hrest⟩ := hT.root.held
      refine ⟨(c.st 0).held[k], ?_⟩
      rw [← hrest, List.getElem?_append_left hk]
      exact hget
    · refine ⟨_, hT.table_sent h0 hr hget fun hnil => ?_⟩
      have hlen := (hT.member r h0 hr).size k _ hget
      rw [hnil, List.length_nil] at hlen
      rcases Nat.mul_eq_zero.mp hlen.symm with h | h
      · omega
      · omega
  obtain ⟨t, ht⟩ := htable
  rcases Nat.eq_zero_or_pos q with rfl | h0
  · exact hT.root.entered k (List.getElem?_eq_some_iff.mp ht).1
  · exact ((hT.member q h0 hq).sent k _ (hT.slice_sent h0 hq ht hpos)).1

theorem BootRun.snoc {c : Flow Nat B (Boot B)} (h : BootRun n cap call c) {p : Nat} {a : Act Nat B}
    {s : Boot B} (hs : BootStep n call p (c.st p) a s) (ha : c.Allows cap p a) :
    BootRun n cap call (c.act p a s) := h.tail ⟨p, a, s, hs, ha, rfl⟩

/-- The rounds before round `k` take place: every rank comes to call in them. -/
def Live (n : Nat) (call : Nat → List (List B) → Option (Nat × List B)) (k : Nat) : Prop :=
  ∀ i, i < k → ∀ q, q < n → (call q (tables n call i)).isSome

/-- The ranks call with the sizes `sz` in the rounds that can take place. -/
def SizedOn (n : Nat) (call : Nat → List (List B) → Option (Nat × List B)) (sz : Nat → Nat) : Prop :=
  ∀ k, Live n call k → ∀ r slice buf, r < n → call r (tables n call k) = some (slice, buf) →
    slice = sz k ∧ buf.length = n * slice

open Classical in
/-- The caller, silent on histories that do not occur. -/
noncomputable def onTrack (n : Nat) (call : Nat → List (List B) → Option (Nat × List B)) (r : Nat)
    (h : List (List B)) : Option (Nat × List B) :=
  if r < n ∧ h = tables n call h.length ∧ Live n call h.length then call r h else none

theorem onTrack_eq_some {r : Nat} {h : List (List B)} {x : Nat × List B}
    (hx : onTrack n call r h = some x) :
    r < n ∧ h = tables n call h.length ∧ Live n call h.length ∧ call r h = some x := by
  unfold onTrack at hx
  split at hx
  · rename_i hcond
    exact ⟨hcond.1, hcond.2.1, hcond.2.2, hx⟩
  · cases hx

theorem onTrack_tables {r k : Nat} (hr : r < n) (hl : Live n call k) :
    onTrack n call r (tables n call k) = call r (tables n call k) := by
  unfold onTrack
  rw [if_pos]
  rw [length_tables]
  exact ⟨hr, rfl, hl⟩

theorem Live.mono {i k : Nat} (h : Live n call k) (hi : i ≤ k) : Live n call i :=
  fun j hj => h j (by omega)

theorem tables_onTrack {k : Nat} (hl : Live n call k) :
    tables n (onTrack n call) k = tables n call k := by
  induction k with
  | zero => rfl
  | succ k ih =>
    have hk := hl.mono (Nat.le_succ k)
    simp only [tables]
    rw [ih hk]
    congr 3
    apply List.map_congr_left
    intro r hr
    simp only [contrib, onTrack_tables (List.mem_range.mp hr) hk]

theorem sized_onTrack (hz : SizedOn n call sz) : Sized n (onTrack n call) sz := by
  intro r h slice buf hc
  obtain ⟨hr, hh, hl, hc⟩ := onTrack_eq_some hc
  rw [hh] at hc
  exact hz h.length hl r slice buf hr hc

/-- A rank that has come to a round has called in it. -/
theorem BootRun.called {c : Flow Nat B (Boot B)} (h : BootRun n cap call c) {q k : Nat}
    (hk : k < (c.st q).held.length ∨ (k = (c.st q).held.length ∧ (c.st q).active = true)) :
    (call q ((c.st q).held.take k)).isSome := by
  have hinv := Net.flow_local (L := BootStep n call) (f := fun _ => Boot.init)
    (I := fun p s _ _ => (∀ i, i < s.held.length → (call p (s.held.take i)).isSome) ∧
      (s.active = true → (call p s.held).isSome)) (fun p => ⟨nofun, nofun⟩)
    (fun p s a s' out inn hI hs => ?_) h q
  · rcases hk with hk | ⟨rfl, ha⟩
    · exact hinv.1 k hk
    · rw [List.take_length]
      exact hinv.2 ha
  · cases hs with
    | enter _ ha hc => exact ⟨hI.1, fun _ => by rw [hc]; rfl⟩
    | send ha =>
      unfold Boot.advance
      split <;> exact hI
    | recv ha =>
      unfold Boot.advance
      split <;> exact hI
    | retry => exact hI
    | ret ha hs =>
      refine ⟨fun i hi => ?_, nofun⟩
      simp only [List.length_append, List.length_singleton] at hi
      rcases Nat.lt_or_ge i s.held.length with hlt | hge
      · simp only
        rw [List.take_append_of_le_length (Nat.le_of_lt hlt)]
        exact hI.1 i hlt
      · obtain rfl : i = s.held.length := by omega
        simp only
        rw [List.take_left]
        exact hI.2 ha

/-- The rounds a rank has returned from have taken place. -/
theorem live_of_onTrack (hz : SizedOn n call sz) (hpos : ∀ k, 0 < sz k) (hn : 0 < n)
    {c : Flow Nat B (Boot B)} (h : BootRun n cap (onTrack n call) c) {r : Nat} (hr : r < n) :
    Live n call (c.st r).held.length := by
  intro i hi q hq
  have hent := entered_of_held (sized_onTrack hz) hn h hr hi (hpos i) hq
  obtain ⟨x, hx⟩ := Option.isSome_iff_exists.mp (h.called hent)
  have hlen : ((c.st q).held.take i).length = i := by
    rw [List.length_take]
    omega
  obtain ⟨-, htab, -, hc⟩ := onTrack_eq_some hx
  rw [htab, hlen] at hc
  rw [hc]
  rfl

/-- A run makes calls on histories that occur, and no others. -/
theorem BootRun.onTrack (hz : SizedOn n call sz) (hpos : ∀ k, 0 < sz k) (hn : 0 < n)
    {c : Flow Nat B (Boot B)} (h : BootRun n cap call c) : BootRun n cap (onTrack n call) c := by
  induction h with
  | refl => exact .refl
  | tail _ hs ih =>
    obtain ⟨p, a, s, hL, hallow, rfl⟩ := hs
    refine ih.snoc ?_ hallow
    cases hL with
    | enter hr ha hc =>
      have hl := live_of_onTrack hz hpos hn ih hr
      have htab := held_eq_tables (sized_onTrack hz) hn ih hr
      rw [tables_onTrack hl] at htab
      refine .enter hr ha ?_
      rw [htab, onTrack_tables hr hl, ← htab]
      exact hc
    | send ha hs hx hk => exact .send ha hs hx hk
    | recv ha hs hx hk => exact .recv ha hs hx hk
    | retry ha => exact .retry ha
    | ret ha hs => exact .ret ha hs

/-- `held_eq_tables` where the sizes agree on what occurs. -/
theorem held_of_sizedOn (hz : SizedOn n call sz) (hpos : ∀ k, 0 < sz k) (hn : 0 < n)
    {c : Flow Nat B (Boot B)} (h : BootRun n cap call c) {r : Nat} (hr : r < n) :
    Live n call (c.st r).held.length ∧ (c.st r).held = tables n call (c.st r).held.length := by
  have ht := h.onTrack hz hpos hn
  have hl := live_of_onTrack hz hpos hn ht hr
  have htab := held_eq_tables (sized_onTrack hz) hn ht hr
  rw [tables_onTrack hl] at htab
  exact ⟨hl, htab⟩

/-- **Bootstrap exchanges are round-consistent.** Whatever the interleaving of the ranks and the
pieces in which the bytes move: what a rank returns with from round `k` is every rank's contribution
to round `k`, in rank order, where all ranks that come to round `k` have returned with the same
tables before it; and no rank returns from a round with a slice size above 0 before every rank has
entered it. -/
theorem allGather_round_consistent (n : Nat) (hn : 0 < n) (cap : Nat → Nat → Nat)
    (call : Nat → List (List B) → Option (Nat × List B)) (sz : Nat → Nat) (hz : Sized n call sz)
    (c : Flow Nat B (Boot B)) (h : BootRun n cap call c) :
    (∀ r k t, r < n → (c.st r).held[k]? = some t →
      t = ((List.range n).map fun q => contrib call q ((c.st r).held.take k)).flatten ∧
      ∀ q, q < n → k ≤ (c.st q).held.length → (c.st q).held.take k = (c.st r).held.take k) ∧
    ∀ r k q, r < n → q < n → k < (c.st r).held.length → 0 < sz k →
      k < (c.st q).held.length ∨ (k = (c.st q).held.length ∧ (c.st q).active = true) := by
  refine ⟨fun r k t hr ht => ?_, fun r k q hr hq hk hpos => entered_of_held hz hn h hr hk hpos hq⟩
  have hk := (List.getElem?_eq_some_iff.mp ht).1
  have htake : ∀ q, q < n → k ≤ (c.st q).held.length → (c.st q).held.take k = tables n call k := by
    intro q hq hle
    rw [held_eq_tables hz hn h hq, take_tables hle]
  refine ⟨?_, fun q hq hle => by rw [htake q hq hle, htake r hr (Nat.le_of_lt hk)]⟩
  have hnext : (c.st r).held.take (k + 1) = tables n call (k + 1) := by
    rw [held_eq_tables hz hn h hr, take_tables hk]
  rw [List.take_add_one, ht, htake r hr (Nat.le_of_lt hk)] at hnext
  rw [htake r hr (Nat.le_of_lt hk)]
  exact List.singleton_inj.mp (List.append_cancel_left hnext)

end Global

/-- Two ranks that call `allGather` once, with slices of one byte. -/
def pairCall (r : Nat) : List (List Nat) → Option (Nat × List Nat)
  | [] => some (1, if r = 0 then [7, 0] else [0, 9])
  | _ => none

theorem pairCall_sized : Sized 2 pairCall fun _ => 1 := by
  intro r h slice buf hc
  cases h with
  | nil =>
    cases hc
    refine ⟨rfl, ?_⟩
    split <;> rfl
  | cons t h => cases hc

theorem allGather_round_consistent_pair :
    ∃ c, BootRun 2 (fun _ _ => 4) pairCall c ∧ (c.st 1).held = [[7, 9]] ∧
      (0 < (c.st 0).held.length ∨ (0 = (c.st 0).held.length ∧ (c.st 0).active = true)) := by
  have h0 : BootRun 2 (fun _ _ => 4) pairCall (Flow.start fun _ => Boot.init) := .refl
  have h1 := h0.snoc (p := 1) (.enter (by decide) rfl rfl) trivial
  have h2 := h1.snoc (p := 1) (.send (k := 1) rfl rfl rfl ⟨by decide, by decide⟩)
    (Nat.le_of_ble_eq_true rfl)
  have h3 := h2.snoc (p := 0) (.enter (by decide) rfl rfl) trivial
  have h4 := h3.snoc (p := 0) (@BootStep.recv _ _ _ _ _ _ _ [9] rfl rfl rfl ⟨by decide, by decide⟩) ⟨[], rfl⟩
  have h5 := h4.snoc (p := 0) (.send (k := 2) rfl rfl rfl ⟨by decide, by decide⟩)
    (Nat.le_of_ble_eq_true rfl)
  have h6 := h5.snoc (p := 1) (@BootStep.recv _ _ _ _ _ _ _ [7, 9] rfl rfl rfl ⟨by decide, by decide⟩) ⟨[], rfl⟩
  have h7 := h6.snoc (p := 1) (.ret rfl rfl) trivial
  exact ⟨_, h7, rfl, (allGather_round_consistent 2 (by decide) _ _ _ pairCall_sized _ h7).2 1 0 0
    (by decide) (by decide) (by decide) (by decide)⟩

/-- Two ranks that call `allGather` once, with empty slices. -/
def emptyCall (_ : Nat) : List (List Nat) → Option (Nat × List Nat)
  | [] => some (0, [])
  | _ => none

/-- **A round of empty slices is no barrier**: rank 0 returns from it, and rank 1 has not entered. -/
theorem empty_round_no_barrier :
    Sized 2 emptyCall (fun _ => 0) ∧ ∃ c, BootRun 2 (fun _ _ => 4) emptyCall c ∧
      0 < (c.st 0).held.length ∧
      ¬ (0 < (c.st 1).held.length ∨ (0 = (c.st 1).held.length ∧ (c.st 1).active = true)) := by
  refine ⟨fun r h slice buf hc => ?_, ?_⟩
  · cases h with
    | nil =>
      cases hc
      exact ⟨rfl, rfl⟩
    | cons t h => cases hc
  · have h0 : BootRun 2 (fun _ _ => 4) emptyCall (Flow.start fun _ => Boot.init) := .refl
    have h1 := h0.snoc (p := 0) (.enter (by decide) rfl rfl) trivial
    have h2 := h1.snoc (p := 0) (@BootStep.recv _ _ _ _ _ _ _ [] rfl rfl rfl ⟨Or.inr rfl, by decide⟩) ⟨[], rfl⟩
    have h3 := h2.snoc (p := 0) (.send (k := 0) rfl rfl rfl ⟨Or.inr rfl, by decide⟩)
      (Nat.le_of_ble_eq_true rfl)
    have h4 := h3.snoc (p := 0) (.ret rfl rfl) trivial
    exact ⟨_, h4, by decide, by decide⟩

end Vccl
