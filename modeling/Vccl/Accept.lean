import Vccl.Wire
import Mathlib.Data.Finset.Card
import Mathlib.Data.Fintype.Card

/-!
# Rendezvous (`Bootstrap::init`)

The root accepts connections one at a time: it reads a `Hello` of 32 bytes, answers 1 or 0, and
stores an accepted connection in the slot of its rank. A rank connects, sends its `Hello` and
returns with what the root answers.

Connections are numbered, a number is not used again; `Conn` is what has happened on one. A
connection belongs to a rank that runs `Bootstrap::init` with the root's id and size (`role`), or to
anyone else, who writes what it likes. Everyone may close at any time. The root's `recvAll` takes any
number of bytes at a time and fails once the client has closed; its `sendAll` of the one-byte answer
never waits, as nothing has been sent on the connection before.

* `RootStep`, `ClientStep`: the root, and everyone else. `RootFail`: `accept` itself fails.
* `RdvInv`: the slots hold authenticated connections and are counted.
* The accepted sockets are blocking, so the deadline of `recvAll`, which is looked at only after
  `EAGAIN`, never ends the wait for a client that is silent.
-/

namespace Vccl

/-- What has happened on a connection. -/
structure Conn where
  /-- The rank whose `Bootstrap::init` made the connection; `none` for anyone else. -/
  role : Option Nat
  /-- All that the client has written. -/
  wrote : List UInt8
  /-- How much of it the root has read. -/
  read : Nat
  closed : Bool
  /-- The root's answer. -/
  reply : Option UInt8
  /-- Whether the client's `Bootstrap::init` has returned success. -/
  ok : Option Bool
  deriving DecidableEq, Repr

/-- Where the root is in its loop. -/
inductive Pc where
  | loop
  | reading (fd : Nat)
  | settle (fd : Nat) (ok : Bool) (rank : Nat)
  | returned (ok : Bool)
  deriving DecidableEq, Repr

/-- The rendezvous: the connections, those not yet accepted in their order, and the root. -/
structure Rdv where
  conn : Nat → Option Conn
  queue : List Nat
  peerFds : Nat → Option Nat
  connected : Nat
  pc : Pc

def Rdv.start : Rdv := ⟨fun _ => none, [], fun _ => none, 0, .loop⟩

def Rdv.goto (s : Rdv) (pc : Pc) : Rdv := { s with pc := pc }

def Rdv.setConn (s : Rdv) (fd : Nat) (c : Conn) : Rdv :=
  { s with conn := Function.update s.conn fd (some c) }

/-- The `Hello` of rank `rank`. -/
def helloOf (id : UniqueId) (n rank : Nat) : Hello :=
  ⟨id.magic, id.salt, versionCode, BitVec.ofNat 32 n, BitVec.ofNat 32 rank, hostEndiannessMarker⟩

/-- The root's check of a `Hello`, but for the slot: it is of this job, and its rank is `rank`. -/
def Matches (id : UniqueId) (n : Nat) (h : Hello) (rank : Nat) : Prop :=
  h.magic = id.magic ∧ h.salt = id.salt ∧ h.version = versionCode ∧ h.nranks.toInt = n ∧
    0 < h.rank.toInt ∧ h.rank.toInt < n ∧ h.rank.toInt = rank ∧ h.pad = hostEndiannessMarker

instance (id : UniqueId) (n : Nat) (h : Hello) (rank : Nat) : Decidable (Matches id n h rank) :=
  inferInstanceAs (Decidable (_ ∧ _ ∧ _ ∧ _ ∧ _ ∧ _ ∧ _ ∧ _))

/-- `ok`: the `Hello` is of this job and its slot is free. -/
def helloOk (id : UniqueId) (n : Nat) (peerFds : Nat → Option Nat) (h : Hello) : Bool :=
  decide (Matches id n h h.rank.toInt.toNat) && (peerFds h.rank.toInt.toNat).isNone

/-- The `Hello` the root has read on a connection. -/
def Conn.hello (c : Conn) : Hello := .ofBytes (c.wrote.take helloBytes)

/-- The root answers connection `fd`, whose `Hello` it has read. -/
def Rdv.answer (s : Rdv) (id : UniqueId) (n fd : Nat) (c : Conn) : Rdv :=
  (s.setConn fd { c with reply := some (if helloOk id n s.peerFds c.hello then 1 else 0) }).goto
    (.settle fd (helloOk id n s.peerFds c.hello) c.hello.rank.toInt.toNat)

/-- A new connection. -/
def Rdv.arrive (s : Rdv) (fd : Nat) (role : Option Nat) : Rdv :=
  { s with conn := Function.update s.conn fd (some ⟨role, [], 0, false, none, none⟩),
           queue := s.queue ++ [fd] }

/-- The root's steps. -/
inductive RootStep (id : UniqueId) (n : Nat) : Rdv → Rdv → Prop
  /-- `acceptOne`. -/
  | accept {s : Rdv} {fd : Nat} {rest : List Nat} (hpc : s.pc = .loop) (hn : s.connected < n - 1)
      (hq : s.queue = fd :: rest) : RootStep id n s { s with queue := rest, pc := .reading fd }
  /-- `recv` returns `k` bytes of the `Hello`. -/
  | read {s : Rdv} {fd k : Nat} {c : Conn} (hpc : s.pc = .reading fd) (hc : s.conn fd = some c)
      (hk : 0 < k) (hw : c.read + k ≤ c.wrote.length) (hh : c.read + k ≤ helloBytes) :
      RootStep id n s (s.setConn fd { c with read := c.read + k })
  /-- The `Hello` is there: answer. -/
  | answer {s : Rdv} {fd : Nat} {c : Conn} (hpc : s.pc = .reading fd) (hc : s.conn fd = some c)
      (hr : c.read = helloBytes) :
      RootStep id n s (s.answer id n fd c)
  /-- `recvAll` fails: the client has closed before its `Hello` was complete. -/
  | dropped {s : Rdv} {fd : Nat} {c : Conn} (hpc : s.pc = .reading fd) (hc : s.conn fd = some c)
      (hr : c.read < helloBytes) (hclosed : c.closed = true) :
      RootStep id n s
        ((s.setConn fd { c with reply := some 0 }).goto (.settle fd false 0))
  /-- `peerFds_[hello.rank] = fd; connected++`. -/
  | store {s : Rdv} {fd rank : Nat} (hpc : s.pc = .settle fd true rank) :
      RootStep id n s
        { s with peerFds := Function.update s.peerFds rank (some fd), connected := s.connected + 1,
                 pc := .loop }
  /-- Reject this client only, and keep listening. -/
  | reject {s : Rdv} {fd rank : Nat} (hpc : s.pc = .settle fd false rank) :
      RootStep id n s (s.goto .loop)
  /-- All ranks are there. -/
  | finish {s : Rdv} (hpc : s.pc = .loop) (hn : ¬ s.connected < n - 1) :
      RootStep id n s (s.goto (.returned true))

/-- `acceptOne` fails: the root gives up. -/
inductive RootFail (n : Nat) : Rdv → Rdv → Prop
  | acceptFails {s : Rdv} (hpc : s.pc = .loop) (hn : s.connected < n - 1) :
      RootFail n s (s.goto (.returned false))

/-- What clients do. -/
inductive ClientStep (id : UniqueId) (n : Nat) : Rdv → Rdv → Prop
  | connect {s : Rdv} {fd : Nat} {role : Option Nat} (hfd : s.conn fd = none)
      (hrole : ∀ r, role = some r → 0 < r ∧ r < n) :
      ClientStep id n s (s.arrive fd role)
  /-- A rank writes its `Hello`, anyone else what it likes. -/
  | write {s : Rdv} {fd : Nat} {c : Conn} {bs : List UInt8} (hc : s.conn fd = some c)
      (hopen : c.closed = false)
      (hrole : ∀ r, c.role = some r → c.wrote ++ bs <+: (helloOf id n r).toBytes) :
      ClientStep id n s (s.setConn fd { c with wrote := c.wrote ++ bs })
  | close {s : Rdv} {fd : Nat} {c : Conn} (hc : s.conn fd = some c) :
      ClientStep id n s (s.setConn fd { c with closed := true })
  /-- A rank that has sent its `Hello` reads the answer and returns. -/
  | ret {s : Rdv} {fd r : Nat} {c : Conn} {b : UInt8} (hc : s.conn fd = some c)
      (hrole : c.role = some r) (hw : c.wrote = (helloOf id n r).toBytes) (hb : c.reply = some b)
      (hok : c.ok = none) :
      ClientStep id n s (s.setConn fd { c with ok := some (decide (b = 1)) })
  /-- A rank's `sendAll` or `recvAll` fails. -/
  | giveUp {s : Rdv} {fd : Nat} {c : Conn} (hc : s.conn fd = some c) (hok : c.ok = none) :
      ClientStep id n s (s.setConn fd { c with ok := some false })

/-- One step of anyone. -/
def RdvStep (id : UniqueId) (n : Nat) (s s' : Rdv) : Prop :=
  RootStep id n s s' ∨ RootFail n s s' ∨ ClientStep id n s s'

/-- The client has sent the `Hello` of rank `rank` of this job. -/
def Valid (id : UniqueId) (n : Nat) (c : Conn) (rank : Nat) : Prop :=
  helloBytes ≤ c.wrote.length ∧ Matches id n c.hello rank

/-! ## The invariant -/

/-- What holds of the rendezvous in every state. -/
structure RdvInv (id : UniqueId) (n : Nat) (s : Rdv) : Prop where
  queued : ∀ fd ∈ s.queue, ∃ c, s.conn fd = some c ∧ c.reply = none
  nodup : s.queue.Nodup
  /-- The root does not read more than there is. -/
  bounds : ∀ fd c, s.conn fd = some c → c.read ≤ c.wrote.length ∧ c.read ≤ helloBytes
  reading : ∀ fd, s.pc = .reading fd → fd ∉ s.queue ∧ ∃ c, s.conn fd = some c ∧ c.reply = none
  settling : ∀ fd r, s.pc = .settle fd true r →
    fd ∉ s.queue ∧ s.peerFds r = none ∧ ∃ c, s.conn fd = some c ∧ c.reply = some 1 ∧ Valid id n c r
  /-- Who has been answered 1 is stored, or about to be. -/
  answered : ∀ fd c, s.conn fd = some c → c.reply = some 1 →
    ∃ r, Valid id n c r ∧ (s.peerFds r = some fd ∨ s.pc = .settle fd true r)
  stored : ∀ r fd, s.peerFds r = some fd →
    ∃ c, s.conn fd = some c ∧ c.reply = some 1 ∧ Valid id n c r
  count : s.connected = ((Finset.range n).filter fun r => (s.peerFds r).isSome).card
  role : ∀ fd c r, s.conn fd = some c → c.role = some r →
    0 < r ∧ r < n ∧ c.wrote <+: (helloOf id n r).toBytes
  success : ∀ fd c, s.conn fd = some c → c.ok = some true →
    c.reply = some 1 ∧ ∃ r, c.role = some r ∧ c.wrote = (helloOf id n r).toBytes
  finished : s.pc = .returned true → n - 1 ≤ s.connected

theorem rdvInv_start (id : UniqueId) (n : Nat) : RdvInv id n Rdv.start := by
  refine ⟨by simp [Rdv.start], by simp [Rdv.start], by simp [Rdv.start], by simp [Rdv.start],
    by simp [Rdv.start], by simp [Rdv.start], by simp [Rdv.start], by simp [Rdv.start],
    by simp [Rdv.start], by simp [Rdv.start], by simp [Rdv.start]⟩

section Steps

variable {id : UniqueId} {n : Nat} {s : Rdv}

theorem conn_update {conn : Nat → Option Conn} {fd fd' : Nat} {c x : Conn}
    (h : Function.update conn fd (some c) fd' = some x) :
    (fd' = fd ∧ x = c) ∨ (fd' ≠ fd ∧ conn fd' = some x) := by
  by_cases heq : fd' = fd
  · subst heq
    rw [Function.update_self] at h
    exact Or.inl ⟨rfl, (Option.some.inj h).symm⟩
  · rw [Function.update_of_ne heq] at h
    exact Or.inr ⟨heq, h⟩

/-- More bytes do not change the `Hello`. -/
theorem Valid.mono {c c' : Conn} {r : Nat} (h : Valid id n c r) (hw : c.wrote <+: c'.wrote) :
    Valid id n c' r := by
  obtain ⟨hlen, hm⟩ := h
  have htake : c'.wrote.take helloBytes = c.wrote.take helloBytes := by
    obtain ⟨rest, hrest⟩ := hw
    rw [← hrest, List.take_append_of_le_length hlen]
  refine ⟨Nat.le_trans hlen hw.length_le, ?_⟩
  rw [Conn.hello, htake]
  exact hm

/-- A change of a connection that neither end's answer is concerned with. -/
structure Quiet (id : UniqueId) (n : Nat) (c c' : Conn) : Prop where
  role : c'.role = c.role
  reply : c'.reply = c.reply
  ok : c'.ok = some true → c.ok = some true ∨
    c.reply = some 1 ∧ ∃ r, c.role = some r ∧ c.wrote = (helloOf id n r).toBytes
  wrote : c.wrote <+: c'.wrote
  bounds : c'.read ≤ c'.wrote.length ∧ c'.read ≤ helloBytes
  hello : ∀ r, c'.role = some r → c'.wrote <+: (helloOf id n r).toBytes

theorem RdvInv.quiet (h : RdvInv id n s) {fd : Nat} {c c' : Conn} (hc : s.conn fd = some c)
    (hq : Quiet id n c c') : RdvInv id n (s.setConn fd c') := by
  -- where `fd` was on record, it still is
  have hkeep : ∀ {fd' : Nat} {P : Conn → Prop}, (∀ x, P x → fd' = fd → x = c → P c') →
      (∃ x, s.conn fd' = some x ∧ P x) → ∃ x, (s.setConn fd c').conn fd' = some x ∧ P x := by
    intro fd' P hP ⟨x, hx, hPx⟩
    by_cases heq : fd' = fd
    · subst heq
      rw [hc] at hx
      obtain rfl := Option.some.inj hx
      exact ⟨c', Function.update_self _ _ _, hP c hPx rfl rfl⟩
    · exact ⟨x, (Function.update_of_ne heq _ _).trans hx, hPx⟩
  refine ⟨fun fd' hfd' => hkeep (fun x hx _ heq => ?_) (h.queued fd' hfd'), h.nodup,
    fun fd' x hx => ?_, fun fd' hpc => ?_, fun fd' r hpc => ?_, fun fd' x hx hr => ?_,
    fun r fd' hr => hkeep (fun x hx _ heq => ?_) (h.stored r fd' hr), h.count,
    fun fd' x r hx hr => ?_, fun fd' x hx hok => ?_, h.finished⟩
  · rw [hq.reply, ← heq]
    exact hx
  · rcases conn_update hx with ⟨rfl, rfl⟩ | ⟨-, hx⟩
    · exact hq.bounds
    · exact h.bounds fd' x hx
  · obtain ⟨hqueue, hconn⟩ := h.reading fd' hpc
    exact ⟨hqueue, hkeep (fun x hx _ heq => by rw [hq.reply, ← heq]; exact hx) hconn⟩
  · obtain ⟨hqueue, hfree, hconn⟩ := h.settling fd' r hpc
    refine ⟨hqueue, hfree, hkeep (fun x hx _ heq => ?_) hconn⟩
    subst heq
    exact ⟨hq.reply.trans hx.1, hx.2.mono hq.wrote⟩
  · rcases conn_update hx with ⟨rfl, rfl⟩ | ⟨-, hx⟩
    · obtain ⟨r, hv, hs⟩ := h.answered fd' c hc (hq.reply ▸ hr)
      exact ⟨r, hv.mono hq.wrote, hs⟩
    · exact h.answered fd' x hx hr
  · subst heq
    exact ⟨hq.reply.trans hx.1, hx.2.mono hq.wrote⟩
  · rcases conn_update hx with ⟨rfl, rfl⟩ | ⟨-, hx⟩
    · obtain ⟨h0, hn, -⟩ := h.role fd' c r hc (hq.role ▸ hr)
      exact ⟨h0, hn, hq.hello r hr⟩
    · exact h.role fd' x r hx hr
  · rcases conn_update hx with ⟨rfl, rfl⟩ | ⟨-, hx⟩
    · obtain ⟨hreply, r, hrole, hw⟩ : c.reply = some 1 ∧ ∃ r, c.role = some r ∧
          c.wrote = (helloOf id n r).toBytes := by
        rcases hq.ok hok with hold | hnew
        · exact h.success fd' c hc hold
        · exact hnew
      refine ⟨hq.reply.trans hreply, r, hq.role.trans hrole, ?_⟩
      have h1 := hq.hello r (hq.role.trans hrole)
      have h2 := hq.wrote
      rw [hw] at h2
      exact h1.eq_of_length (Nat.le_antisymm h1.length_le h2.length_le)
    · exact h.success fd' x hx hok

/-- The root comes to a point of its loop where it serves nobody. -/
theorem RdvInv.goto (h : RdvInv id n s) {pc : Pc} (hold : ∀ fd r, s.pc ≠ .settle fd true r)
    (hread : ∀ fd, pc ≠ .reading fd) (hset : ∀ fd r, pc ≠ .settle fd true r)
    (hfin : pc = .returned true → n - 1 ≤ s.connected) : RdvInv id n (s.goto pc) := by
  refine ⟨h.queued, h.nodup, h.bounds, fun fd hpc => absurd hpc (hread fd),
    fun fd r hpc => absurd hpc (hset fd r), fun fd c hc hr => ?_, h.stored, h.count, h.role,
    h.success, hfin⟩
  obtain ⟨r, hv, hs | hs⟩ := h.answered fd c hc hr
  · exact ⟨r, hv, Or.inl hs⟩
  · exact absurd hs (hold fd r)

/-- The root answers `b` on connection `fd`, which it has been reading, and goes on to settle. -/
theorem RdvInv.replied (h : RdvInv id n s) (ok : Bool) (r : Nat) {fd : Nat} {c : Conn}
    (hpc : s.pc = .reading fd) (hc : s.conn fd = some c)
    (hok : ok = true → s.peerFds r = none ∧ Valid id n c r) :
    RdvInv id n ((s.setConn fd { c with reply := some (if ok then 1 else 0) }).goto
      (.settle fd ok r)) := by
  obtain ⟨hqueue, x, hx, hreply⟩ := h.reading fd hpc
  rw [hc] at hx
  obtain rfl := Option.some.inj hx
  have hother : ∀ {fd' : Nat} {P : Conn → Prop}, (∀ y, s.conn fd' = some y → P y → fd' ≠ fd) →
      (∃ y, s.conn fd' = some y ∧ P y) →
      ∃ y, (s.setConn fd { c with reply := some (if ok then 1 else 0) }).conn fd' = some y ∧ P y := by
    intro fd' P hne ⟨y, hy, hP⟩
    exact ⟨y, (Function.update_of_ne (hne y hy hP) _ _).trans hy, hP⟩
  refine ⟨fun fd' hfd' => hother (fun _ _ _ heq => hqueue (heq ▸ hfd')) (h.queued fd' hfd'), h.nodup,
    fun fd' y hy => ?_, fun fd' hp => ?_, fun fd' r' hp => ?_, fun fd' y hy hr => ?_,
    fun r' fd' hr' => hother (fun y hy hP heq => ?_) (h.stored r' fd' hr'), h.count,
    fun fd' y r' hy hr => ?_, fun fd' y hy hsucc => ?_, fun hp => ?_⟩
  · rcases conn_update hy with ⟨rfl, rfl⟩ | ⟨-, hy⟩
    · exact h.bounds fd' c hc
    · exact h.bounds fd' y hy
  · cases hp
  · cases hp
    obtain ⟨hfree, hv⟩ := hok rfl
    exact ⟨hqueue, hfree, _, Function.update_self _ _ _, rfl, hv⟩
  · rcases conn_update hy with ⟨rfl, rfl⟩ | ⟨-, hy⟩
    · cases ok with
      | false => cases hr
      | true => exact ⟨r, (hok rfl).2, Or.inr rfl⟩
    · obtain ⟨r', hv, hs | hs⟩ := h.answered fd' y hy hr
      · exact ⟨r', hv, Or.inl hs⟩
      · rw [hpc] at hs
        cases hs
  · subst heq
    rw [hc] at hy
    obtain rfl := Option.some.inj hy
    rw [hreply] at hP
    exact absurd hP.1 (by simp)
  · rcases conn_update hy with ⟨rfl, rfl⟩ | ⟨-, hy⟩
    · exact h.role fd' c r' hc hr
    · exact h.role fd' y r' hy hr
  · rcases conn_update hy with ⟨rfl, rfl⟩ | ⟨-, hy⟩
    · have := (h.success fd' c hc hsucc).1
      rw [hreply] at this
      cases this
    · exact h.success fd' y hy hsucc
  · cases hp

theorem RdvInv.stepStore (h : RdvInv id n s) {fd r : Nat} (hpc : s.pc = .settle fd true r) :
    RdvInv id n { s with peerFds := Function.update s.peerFds r (some fd),
                         connected := s.connected + 1, pc := .loop } := by
  obtain ⟨hqueue, hfree, c, hc, hreply, hv⟩ := h.settling fd r hpc
  have hrn : r < n := by
    obtain ⟨-, -, -, -, -, -, hlt, heq, -⟩ := hv
    omega
  refine ⟨h.queued, h.nodup, h.bounds, nofun, nofun, fun fd' y hy hr => ?_, fun r' fd' hr' => ?_, ?_,
    h.role, h.success, nofun⟩
  · obtain ⟨r', hv', hs | hs⟩ := h.answered fd' y hy hr
    · refine ⟨r', hv', Or.inl ?_⟩
      have hne : r' ≠ r := by
        rintro rfl
        rw [hfree] at hs
        cases hs
      exact (Function.update_of_ne hne _ _).trans hs
    · rw [hpc] at hs
      cases hs
      exact ⟨r, hv', Or.inl (Function.update_self _ _ _)⟩
  · by_cases heq : r' = r
    · subst heq
      simp only [Function.update_self] at hr'
      cases hr'
      exact ⟨c, hc, hreply, hv⟩
    · simp only [Function.update_of_ne heq] at hr'
      exact h.stored r' fd' hr'
  · -- the new slot was free, so it is counted once
    have hset : (Finset.range n).filter (fun x => (Function.update s.peerFds r (some fd) x).isSome) =
        insert r ((Finset.range n).filter fun x => (s.peerFds x).isSome) := by
      ext x
      simp only [Finset.mem_filter, Finset.mem_range, Finset.mem_insert]
      by_cases heq : x = r
      · subst heq
        simp [hrn]
      · simp [heq]
    have hnew : r ∉ (Finset.range n).filter fun x => (s.peerFds x).isSome := by
      simp [hfree]
    show s.connected + 1 = _
    rw [hset, Finset.card_insert_of_notMem hnew, ← h.count]

theorem RdvInv.stepRoot (h : RdvInv id n s) {s' : Rdv} (hs : RootStep id n s s') : RdvInv id n s' := by
  cases hs with
  | @accept fd rest hpc hn hq =>
    have hmem : fd ∈ s.queue := by rw [hq]; exact List.mem_cons_self
    have hnodup := h.nodup
    rw [hq, List.nodup_cons] at hnodup
    refine ⟨fun fd' hfd' => h.queued fd' (by rw [hq]; exact List.mem_cons_of_mem _ hfd'), hnodup.2,
      h.bounds, fun fd' hp => ?_, nofun, fun fd' y hy hr => ?_, h.stored, h.count, h.role, h.success,
      nofun⟩
    · cases hp
      exact ⟨hnodup.1, h.queued fd hmem⟩
    · obtain ⟨r', hv, hs | hs⟩ := h.answered fd' y hy hr
      · exact ⟨r', hv, Or.inl hs⟩
      · rw [hpc] at hs
        cases hs
  | @read fd k c hpc hc hk hw hh =>
    exact h.quiet hc ⟨rfl, rfl, Or.inl, List.prefix_rfl, ⟨hw, hh⟩, fun r hr => (h.role fd c r hc hr).2.2⟩
  | @answer fd c hpc hc hr =>
    refine h.replied _ _ hpc hc fun hok => ?_
    simp only [helloOk, Bool.and_eq_true, decide_eq_true_eq, Option.isNone_iff_eq_none] at hok
    exact ⟨hok.2, hr ▸ (h.bounds fd c hc).1, hok.1⟩
  | @dropped fd c hpc hc hr hclosed =>
    exact h.replied false 0 hpc hc nofun
  | @store fd r hpc => exact h.stepStore hpc
  | @reject fd r hpc =>
    refine h.goto (fun fd' r' hp => ?_) nofun nofun nofun
    rw [hpc] at hp
    cases hp
  | finish hpc hn =>
    refine h.goto (fun fd' r' hp => ?_) nofun nofun fun _ => by omega
    rw [hpc] at hp
    cases hp

theorem RdvInv.stepClient (h : RdvInv id n s) {s' : Rdv} (hs : ClientStep id n s s') :
    RdvInv id n s' := by
  cases hs with
  | @connect fd role hfd hrole =>
    have hnot : fd ∉ s.queue := by
      intro hmem
      obtain ⟨c, hc, -⟩ := h.queued fd hmem
      rw [hfd] at hc
      cases hc
    have hkeep : ∀ {fd' : Nat} {P : Conn → Prop}, (∃ x, s.conn fd' = some x ∧ P x) →
        ∃ x, (s.arrive fd role).conn fd' = some x ∧ P x := by
      intro fd' P ⟨x, hx, hP⟩
      have hne : fd' ≠ fd := by
        rintro rfl
        rw [hfd] at hx
        cases hx
      exact ⟨x, (Function.update_of_ne hne _ _).trans hx, hP⟩
    refine ⟨fun fd' hfd' => ?_, ?_, fun fd' y hy => ?_, fun fd' hp => ?_, fun fd' r hp => ?_,
      fun fd' y hy hr => ?_, fun r fd' hr => hkeep (h.stored r fd' hr), h.count,
      fun fd' y r hy hr => ?_, fun fd' y hy hsucc => ?_, h.finished⟩
    · rcases List.mem_append.mp hfd' with hmem | hmem
      · exact hkeep (h.queued fd' hmem)
      · rw [List.mem_singleton.mp hmem]
        exact ⟨_, Function.update_self _ _ _, rfl⟩
    · exact List.nodup_append.mpr ⟨h.nodup, List.nodup_singleton fd, fun a ha b hb => by
        rw [List.mem_singleton.mp hb]
        exact fun heq => hnot (heq ▸ ha)⟩
    · rcases conn_update hy with ⟨rfl, rfl⟩ | ⟨-, hy⟩
      · exact ⟨Nat.le_refl 0, Nat.zero_le _⟩
      · exact h.bounds fd' y hy
    · obtain ⟨hqueue, hconn⟩ := h.reading fd' hp
      refine ⟨fun hmem => ?_, hkeep hconn⟩
      rcases List.mem_append.mp hmem with hmem | hmem
      · exact hqueue hmem
      · obtain ⟨x, hx, -⟩ := hconn
        rw [List.mem_singleton.mp hmem, hfd] at hx
        cases hx
    · obtain ⟨hqueue, hfree, hconn⟩ := h.settling fd' r hp
      refine ⟨fun hmem => ?_, hfree, hkeep hconn⟩
      rcases List.mem_append.mp hmem with hmem | hmem
      · exact hqueue hmem
      · obtain ⟨x, hx, -⟩ := hconn
        rw [List.mem_singleton.mp hmem, hfd] at hx
        cases hx
    · rcases conn_update hy with ⟨rfl, rfl⟩ | ⟨-, hy⟩
      · cases hr
      · exact h.answered fd' y hy hr
    · rcases conn_update hy with ⟨rfl, rfl⟩ | ⟨-, hy⟩
      · obtain ⟨h0, hn⟩ := hrole r hr
        exact ⟨h0, hn, List.nil_prefix⟩
      · exact h.role fd' y r hy hr
    · rcases conn_update hy with ⟨rfl, rfl⟩ | ⟨-, hy⟩
      · cases hsucc
      · exact h.success fd' y hy hsucc
  | @write fd c bs hc hopen hrole =>
    refine h.quiet hc ⟨rfl, rfl, Or.inl, List.prefix_append _ _, ?_, hrole⟩
    have := h.bounds fd c hc
    simp only [List.length_append]
    exact ⟨by omega, this.2⟩
  | @close fd c hc =>
    exact h.quiet hc ⟨rfl, rfl, Or.inl, List.prefix_rfl, h.bounds fd c hc,
      fun r hr => (h.role fd c r hc hr).2.2⟩
  | @giveUp fd c hc hok =>
    exact h.quiet hc ⟨rfl, rfl, nofun, List.prefix_rfl, h.bounds fd c hc,
      fun r hr => (h.role fd c r hc hr).2.2⟩
  | @ret fd r c b hc hrole hw hb hok =>
    refine h.quiet hc ⟨rfl, rfl, fun htrue => Or.inr ?_, List.prefix_rfl, h.bounds fd c hc,
      fun r hr => (h.role fd c r hc hr).2.2⟩
    have h1 : b = 1 := by simpa using htrue
    exact ⟨by rw [hb, h1], r, hrole, hw⟩

end Steps

/-! ## Safety -/

section Safety

variable {id : UniqueId} {n : Nat} {s : Rdv}

/-- The states of the rendezvous. -/
def RdvReach (id : UniqueId) (n : Nat) (s : Rdv) : Prop :=
  Relation.ReflTransGen (RdvStep id n) Rdv.start s

theorem RdvInv.step (h : RdvInv id n s) {s' : Rdv} (hs : RdvStep id n s s') : RdvInv id n s' := by
  rcases hs with hs | hs | hs
  · exact h.stepRoot hs
  · cases hs with
    | acceptFails hpc hn =>
      refine h.goto (fun fd r hp => ?_) nofun nofun nofun
      rw [hpc] at hp
      cases hp
  · exact h.stepClient hs

theorem RdvReach.inv (h : RdvReach id n s) : RdvInv id n s := by
  induction h with
  | refl => exact rdvInv_start id n
  | tail _ hs ih => exact ih.step hs

/-- A connection is of one rank. -/
theorem Valid.unique {c : Conn} {r r' : Nat} (h : Valid id n c r) (h' : Valid id n c r') : r = r' := by
  obtain ⟨-, -, -, -, -, -, -, hr, -⟩ := h
  obtain ⟨-, -, -, -, -, -, -, hr', -⟩ := h'
  omega

/-- The `Hello` of a rank is of that rank. -/
theorem Valid.rank_of_role {c : Conn} {r r' : Nat} (hn : n < 2 ^ 31) (hr : r < n)
    (hw : c.wrote = (helloOf id n r).toBytes) (h : Valid id n c r') : r' = r := by
  obtain ⟨-, -, -, -, -, -, -, hrank, -⟩ := h
  rw [Conn.hello, hw, List.take_of_length_le (Nat.le_of_eq (Hello.length_toBytes _)),
    Hello.ofBytes_toBytes] at hrank
  have hint : (BitVec.ofNat 32 r).toInt = r := by
    rw [BitVec.toInt_eq_toNat_of_lt (by rw [BitVec.toNat_ofNat]; omega), BitVec.toNat_ofNat]
    omega
  simp only [helloOf, hint] at hrank
  omega

/-- A full table: `n - 1` of the slots above 0 are all of them. -/
theorem RdvInv.full (h : RdvInv id n s) (hc : n - 1 ≤ s.connected) {r : Nat} (h0 : 0 < r)
    (hr : r < n) : ∃ fd, s.peerFds r = some fd := by
  have hsub : (Finset.range n).filter (fun x => (s.peerFds x).isSome) ⊆ (Finset.range n).erase 0 := by
    intro x hx
    obtain ⟨hxn, hsome⟩ := Finset.mem_filter.mp hx
    obtain ⟨fd, hfd⟩ := Option.isSome_iff_exists.mp hsome
    obtain ⟨c, -, -, hv⟩ := h.stored x fd hfd
    obtain ⟨-, -, -, -, -, hpos, -, heq, -⟩ := hv
    exact Finset.mem_erase.mpr ⟨by omega, hxn⟩
  have hcard : ((Finset.range n).erase 0).card = n - 1 := by
    rw [Finset.card_erase_of_mem (Finset.mem_range.mpr (by omega)), Finset.card_range]
  have heq := Finset.eq_of_subset_of_card_le hsub (by rw [hcard, ← h.count]; exact hc)
  have hmem : r ∈ (Finset.range n).erase 0 :=
    Finset.mem_erase.mpr ⟨by omega, Finset.mem_range.mpr hr⟩
  rw [← heq] at hmem
  exact Option.isSome_iff_exists.mp (Finset.mem_filter.mp hmem).2

/-- Only a connection that has been answered 1 changes the slots. -/
theorem step_slots {s' : Rdv} (hs : RdvStep id n s s') (hpc : ∀ fd r, s.pc ≠ .settle fd true r) :
    s'.peerFds = s.peerFds ∧ s'.connected = s.connected := by
  rcases hs with hs | hs | hs
  · cases hs with
    | store hstore => exact absurd hstore (hpc _ _)
    | accept | read | answer | dropped | reject | finish => exact ⟨rfl, rfl⟩
  · cases hs
    exact ⟨rfl, rfl⟩
  · cases hs <;> exact ⟨rfl, rfl⟩

/-- What a rendezvous guarantees in the state `s`. -/
structure Rendezvous (id : UniqueId) (n : Nat) (s : Rdv) : Prop where
  /-- When the root's `init` has succeeded, every slot holds a connection of its rank. -/
  full : s.pc = .returned true → ∀ r, 0 < r → r < n →
    ∃ fd c, s.peerFds r = some fd ∧ s.conn fd = some c ∧ Valid id n c r
  distinct : ∀ r r' fd, s.peerFds r = some fd → s.peerFds r' = some fd → r = r'
  /-- At most one client of a rank has been answered 1. -/
  once : ∀ fd fd' c c' r, s.conn fd = some c → s.conn fd' = some c' → c.reply = some 1 →
    c'.reply = some 1 → Valid id n c r → Valid id n c' r → fd = fd'
  /-- Slots and count change for a connection that has been answered 1 only. -/
  steady : ∀ s', RdvStep id n s s' → (∀ fd r, s.pc ≠ .settle fd true r) →
    s'.peerFds = s.peerFds ∧ s'.connected = s.connected
  rejected : ∀ fd c r, s.conn fd = some c → c.reply ≠ some 1 → s.peerFds r ≠ some fd
  /-- A rank returns success when the root has answered 1 on its connection, which is in the slot of
  the rank, or the root's next step puts it there. -/
  success : ∀ fd c, s.conn fd = some c → c.ok = some true → c.reply = some 1 ∧
    ∃ r, c.role = some r ∧ (s.peerFds r = some fd ∨ s.pc = .settle fd true r)

/-- **Rendezvous safety**: it holds in every state, whoever connects, in whatever order, and
whatever they send. The number of ranks is an `int`. -/
theorem rendezvous_safe (id : UniqueId) (n : Nat) (hn : n < 2 ^ 31) (s : Rdv)
    (h : RdvReach id n s) : Rendezvous id n s := by
  have hinv := h.inv
  refine ⟨fun hpc r h0 hr => ?_, fun r r' fd hr hr' => ?_, fun fd fd' c c' r hc hc' h1 h1' hv hv' => ?_,
    fun s' hs hpc => step_slots hs hpc, fun fd c r hc hne hr => ?_, fun fd c hc hok => ?_⟩
  · obtain ⟨fd, hfd⟩ := hinv.full (hinv.finished hpc) h0 hr
    obtain ⟨c, hc, -, hv⟩ := hinv.stored r fd hfd
    exact ⟨fd, c, hfd, hc, hv⟩
  · obtain ⟨c, hc, -, hv⟩ := hinv.stored r fd hr
    obtain ⟨c', hc', -, hv'⟩ := hinv.stored r' fd hr'
    rw [hc] at hc'
    cases hc'
    exact hv.unique hv'
  · obtain ⟨q, hq, hs⟩ := hinv.answered fd c hc h1
    obtain ⟨q', hq', hs'⟩ := hinv.answered fd' c' hc' h1'
    obtain rfl := hv.unique hq
    obtain rfl := hv'.unique hq'
    rcases hs with hs | hs
    · rcases hs' with hs' | hs'
      · rw [hs] at hs'
        exact Option.some.inj hs'
      · rw [(hinv.settling fd' r hs').2.1] at hs
        cases hs
    · rcases hs' with hs' | hs'
      · rw [(hinv.settling fd r hs).2.1] at hs'
        cases hs'
      · rw [hs] at hs'
        cases hs'
        rfl
  · obtain ⟨c', hc', h1, -⟩ := hinv.stored r fd hr
    rw [hc] at hc'
    cases hc'
    exact hne h1
  · obtain ⟨h1, r, hrole, hw⟩ := hinv.success fd c hc hok
    obtain ⟨r', hv, hs⟩ := hinv.answered fd c hc h1
    obtain rfl := hv.rank_of_role hn (hinv.role fd c r hc hrole).2.1 hw
    exact ⟨h1, r', hrole, hs⟩

/-- A job's id. -/
def jobId : UniqueId := ⟨kVcclMagic, 7, 2, 0x901f, 0x0100007f⟩

/-- Two ranks meet. -/
theorem rendezvous_safe_pair : ∃ s c, RdvReach jobId 2 s ∧ s.pc = .returned true ∧
    s.peerFds 1 = some 0 ∧ s.conn 0 = some c ∧ c.ok = some true ∧ Rendezvous jobId 2 s := by
  have hanswer : helloOk jobId 2 (fun _ => none)
      (Conn.hello ⟨some 1, (helloOf jobId 2 1).toBytes, 32, false, none, none⟩) = true := by
    decide +kernel
  have hrank : (Conn.hello ⟨some 1, (helloOf jobId 2 1).toBytes, 32, false, none, none⟩).rank.toInt.toNat
      = 1 := by
    decide +kernel
  have h1 : RdvReach jobId 2 (Rdv.start.arrive 0 (some 1)) :=
    .single (Or.inr (Or.inr (.connect rfl fun r hr => by cases hr; decide)))
  have h2 := h1.tail (Or.inr (Or.inr (@ClientStep.write _ _ _ 0 _ (helloOf jobId 2 1).toBytes rfl rfl
    fun r hr => by cases hr; exact List.prefix_rfl)))
  have h3 := h2.tail (Or.inl (@RootStep.accept _ _ _ 0 [] rfl (by decide) rfl))
  have h4 := h3.tail (Or.inl (@RootStep.read _ _ _ 0 32 _ rfl rfl (by decide)
    (Nat.le_of_eq (Hello.length_toBytes _).symm) (by decide)))
  have h5 := h4.tail (Or.inl (@RootStep.answer _ _ _ 0 _ rfl rfl rfl))
  have h6 := h5.tail (Or.inl (@RootStep.store _ _ _ 0 1 (congrArg₂ (Pc.settle 0) hanswer hrank)))
  have h7 := h6.tail (Or.inl (.finish rfl (by decide)))
  have h8 := h7.tail (Or.inr (Or.inr (@ClientStep.ret _ _ _ 0 1 _ 1 rfl rfl rfl
    (congrArg (fun ok : Bool => some (if ok then 1 else 0)) hanswer) rfl)))
  exact ⟨_, _, h8, rfl, rfl, rfl, rfl, rendezvous_safe jobId 2 (by decide) _ h8⟩

end Safety

/-! ## Progress -/

section Progress

variable {id : UniqueId} {n : Nat} {s : Rdv}

/-- The client has sent a whole `Hello`, or has closed. -/
def Spoken (s : Rdv) (fd : Nat) : Prop :=
  ∃ c, s.conn fd = some c ∧ (helloBytes ≤ c.wrote.length ∨ c.closed = true)

/-- A step in which the root accepts only a connection that has `Spoken`. -/
def PromptStep (id : UniqueId) (n : Nat) (s s' : Rdv) : Prop :=
  RdvStep id n s s' ∧ ∀ fd, s.pc = .loop → s'.pc = .reading fd → Spoken s fd

/-- A rank that the root has not accepted has connected, and its whole `Hello` is there. -/
def Pending (id : UniqueId) (n : Nat) (s : Rdv) : Prop :=
  ∃ r fd c, fd ∈ s.queue ∧ s.conn fd = some c ∧ c.role = some r ∧
    c.wrote = (helloOf id n r).toBytes ∧ s.peerFds r = none

theorem Spoken.update {fd fd' : Nat} {c c' : Conn} (h : Spoken s fd) (hc : s.conn fd' = some c)
    (hw : c.wrote <+: c'.wrote) (hcl : c.closed = true → c'.closed = true) :
    Spoken (s.setConn fd' c') fd := by
  obtain ⟨x, hx, hx'⟩ := h
  by_cases heq : fd = fd'
  · subst heq
    rw [hc] at hx
    cases hx
    refine ⟨c', Function.update_self _ _ _, ?_⟩
    rcases hx' with hlen | hclosed
    · exact Or.inl (Nat.le_trans hlen hw.length_le)
    · exact Or.inr (hcl hclosed)
  · exact ⟨x, (Function.update_of_ne heq _ _).trans hx, hx'⟩

/-- A connection that has spoken has spoken for good. -/
theorem Spoken.step {fd : Nat} (h : Spoken s fd) {s' : Rdv} (hs : RdvStep id n s s') :
    Spoken s' fd := by
  rcases hs with hs | hs | hs
  · cases hs with
    | read hpc hc => exact h.update hc List.prefix_rfl fun h => h
    | answer hpc hc => exact h.update hc List.prefix_rfl fun h => h
    | dropped hpc hc => exact h.update hc List.prefix_rfl fun h => h
    | accept | store | reject | finish => exact h
  · cases hs
    exact h
  · cases hs with
    | @connect fd' role hfd =>
      obtain ⟨x, hx, hx'⟩ := h
      have hne : fd ≠ fd' := by
        rintro rfl
        rw [hfd] at hx
        cases hx
      exact ⟨x, (Function.update_of_ne hne _ _).trans hx, hx'⟩
    | write hc => exact h.update hc (List.prefix_append _ _) fun h => h
    | close hc => exact h.update hc List.prefix_rfl fun _ => rfl
    | ret hc => exact h.update hc List.prefix_rfl fun h => h
    | giveUp hc => exact h.update hc List.prefix_rfl fun h => h

/-- The root comes to read a connection by accepting it. -/
theorem reading_step {s' : Rdv} (hs : RdvStep id n s s') {fd : Nat} (h : s'.pc = .reading fd) :
    s.pc = .loop ∨ s.pc = .reading fd := by
  rcases hs with hs | hs | hs
  · cases hs with
    | accept hpc => exact Or.inl hpc
    | read => exact Or.inr h
    | answer => cases h
    | dropped => cases h
    | store => cases h
    | reject => cases h
    | finish => cases h
  · cases hs
    cases h
  · cases hs <;> exact Or.inr h

theorem spoken_of_reading (h : Relation.ReflTransGen (PromptStep id n) Rdv.start s) :
    ∀ fd, s.pc = .reading fd → Spoken s fd := by
  induction h with
  | refl => exact nofun
  | tail _ hs ih =>
    intro fd hpc
    rcases reading_step hs.1 hpc with hloop | hread
    · exact (hs.2 fd hloop hpc).step hs.1
    · exact (ih fd hread).step hs.1

theorem prompt_reach (h : Relation.ReflTransGen (PromptStep id n) Rdv.start s) : RdvReach id n s :=
  Relation.ReflTransGen.mono (fun _ _ hs => hs.1) _ _ h

/-- **The root is never blocked while it accepts spoken connections only**: as long as its `init` has
not returned, and a rank waits with its whole `Hello`, the root has a step of its own. -/
theorem root_not_blocked (id : UniqueId) (n : Nat) (s : Rdv)
    (h : Relation.ReflTransGen (PromptStep id n) Rdv.start s) (hrun : ∀ ok, s.pc ≠ .returned ok)
    (hp : Pending id n s) : ∃ s', RootStep id n s s' := by
  have hinv := (prompt_reach h).inv
  cases hpc : s.pc with
  | loop =>
    by_cases hn : s.connected < n - 1
    · obtain ⟨r, fd, c, hmem, -⟩ := hp
      cases hq : s.queue with
      | nil =>
        rw [hq] at hmem
        cases hmem
      | cons fd' rest => exact ⟨_, .accept hpc hn hq⟩
    · exact ⟨_, .finish hpc hn⟩
  | reading fd =>
    obtain ⟨c, hc, hspoken⟩ := spoken_of_reading h fd hpc
    obtain ⟨-, hle⟩ := hinv.bounds fd c hc
    rcases Nat.lt_or_ge c.read helloBytes with hlt | hge
    · rcases hspoken with hlen | hclosed
      · exact ⟨_, .read hpc hc Nat.one_pos (by omega) hlt⟩
      · exact ⟨_, .dropped hpc hc hlt hclosed⟩
    · exact ⟨_, .answer hpc hc (by omega)⟩
  | settle fd ok r =>
    cases ok with
    | true => exact ⟨_, .store hpc⟩
    | false => exact ⟨_, .reject hpc⟩
  | returned ok => exact absurd hpc (hrun ok)

/-- Rank 1 waits with its `Hello`, which the root accepts. -/
theorem root_not_blocked_pair : ∃ s, Pending jobId 2 s ∧ (∃ s', RootStep jobId 2 s s') := by
  have h1 : Relation.ReflTransGen (PromptStep jobId 2) Rdv.start (Rdv.start.arrive 0 (some 1)) :=
    .single ⟨Or.inr (Or.inr (.connect rfl fun r hr => by cases hr; decide)), fun _ _ hpc => nomatch hpc⟩
  have h2 := h1.tail ⟨Or.inr (Or.inr (@ClientStep.write _ _ _ 0 _ (helloOf jobId 2 1).toBytes rfl rfl
    fun r hr => by cases hr; exact List.prefix_rfl)), fun _ _ hpc => nomatch hpc⟩
  refine ⟨_, ?_, root_not_blocked jobId 2 _ h2 nofun ?_⟩
  all_goals exact ⟨1, 0, _, List.mem_singleton_self 0, rfl, rfl, rfl, rfl⟩

/-- A stray client connects first and is silent: the root reads from it, and does not come to the
`Hello` of rank 1. -/
theorem silent_client_blocks : ∃ s, RdvReach jobId 2 s ∧ (∀ ok, s.pc ≠ .returned ok) ∧
    Pending jobId 2 s ∧ ¬ ∃ s', RootStep jobId 2 s s' := by
  have h1 : RdvReach jobId 2 (Rdv.start.arrive 0 none) :=
    .single (Or.inr (Or.inr (.connect rfl nofun)))
  have h2 := h1.tail (Or.inr (Or.inr (@ClientStep.connect _ _ _ 1 (some 1) rfl fun r hr => by
    cases hr; decide)))
  have h3 := h2.tail (Or.inr (Or.inr (@ClientStep.write _ _ _ 1 _ (helloOf jobId 2 1).toBytes rfl rfl
    fun r hr => by cases hr; exact List.prefix_rfl)))
  have h4 := h3.tail (Or.inl (@RootStep.accept _ _ _ 0 [1] rfl (by decide) rfl))
  refine ⟨_, h4, nofun, ⟨1, 1, _, List.mem_singleton_self 1, rfl, rfl, rfl, rfl⟩, ?_⟩
  rintro ⟨s', hs⟩
  cases hs with
  | accept hpc => cases hpc
  | read hpc hc hk hw =>
    cases hpc
    cases hc
    simp only [List.length_nil] at hw
    omega
  | answer hpc hc hr =>
    cases hpc
    cases hc
    cases hr
  | dropped hpc hc hr hclosed =>
    cases hpc
    cases hc
    cases hclosed
  | store hpc => cases hpc
  | reject hpc => cases hpc
  | finish hpc => cases hpc

end Progress

end Vccl
