import Vccl.Accept
import Vccl.Comm
import Vccl.Split

/-!
# The ids of subgroups (`uniqueIdCreate` in a split)

The first member of a subgroup creates its id with `vcclGetUniqueId`, and every member calls
`vcclCommInitRank` with that id. `uniqueIdCreate` has two branches. Where `VCCL_COMM_ID` is set, the
id is made of its address and a fixed salt, so it is the same in every process with that environment,
and nothing listens. Otherwise the process opens a listening socket, draws a salt, and leaves the
socket in a registry, under the id, for `Bootstrap::init` to claim.

C strings are lists of characters, one for each byte. What comes from the kernel and from
`std::random_device` is `Answers`; what a process sees of its host is `Host`, with `inet_pton` for
IPv6 as a parameter.

* `uniqueIdCreate_cases`: the two branches.
* `joins_eq`: a rank that reaches the root of an id and passes its check has that very id.
* `OwnRendezvous`: every subgroup has an id of its own, for a listening socket of its first member.
-/

namespace Vccl

/-! ## Addresses -/

/-- `SocketAddr`: port and address as they lie in memory, in network byte order. -/
inductive SockAddr where
  | v4 (port : BitVec 16) (addr : BitVec 32)
  | v6 (port : BitVec 16) (addr : BitVec 128)
  deriving DecidableEq, Repr

/-- `htons`, on a little-endian host. -/
def htons (port : BitVec 16) : BitVec 16 := (port <<< 8) ||| (port >>> 8)

/-- `SocketAddr::setPort`. -/
def SockAddr.setPort (port : BitVec 16) : SockAddr → SockAddr
  | .v4 _ addr => .v4 (htons port) addr
  | .v6 _ addr => .v6 (htons port) addr

def afInet : BitVec 16 := 2

def afInet6 : BitVec 16 := 10

/-- An id with an address (`UniqueIdInternal::setAddr`). -/
def UniqueId.make (salt : BitVec 64) : SockAddr → UniqueId
  | .v4 port addr => ⟨kVcclMagic, salt, afInet, port, addr.setWidth 128⟩
  | .v6 port addr => ⟨kVcclMagic, salt, afInet6, port, addr⟩

/-- `UniqueIdInternal::getAddr`. -/
def UniqueId.getAddr (u : UniqueId) : SockAddr :=
  if u.family = afInet then .v4 u.port (u.addr.setWidth 32) else .v6 u.port u.addr

theorem UniqueId.getAddr_make (salt : BitVec 64) (a : SockAddr) : (make salt a).getAddr = a := by
  cases a with
  | v4 port addr =>
    rw [make, getAddr, if_pos rfl]
    simp
  | v6 port addr => exact if_neg (show afInet6 ≠ afInet by decide)

theorem UniqueId.salt_make (salt : BitVec 64) (a : SockAddr) : (make salt a).salt = salt := by
  cases a <;> rfl

/-! ## Environment and host -/

/-- The value of decimal digits. -/
def decimal (s : List Char) : Nat := s.foldl (fun v c => v * 10 + (c.toNat - 48)) 0

/-- `inet_pton(AF_INET)` of one number: no sign, no leading zero, at most 255. -/
def octet (s : List Char) : Option Nat :=
  if s ≠ [] ∧ s.all Char.isDigit ∧ (s.length = 1 ∨ s.head? ≠ some '0') ∧ decimal s ≤ 255 then
    some (decimal s)
  else none

/-- `inet_pton(AF_INET)`: the four bytes of the address in their order. -/
def inetPton (s : List Char) : Option (BitVec 32) :=
  match (s.splitOn '.').map octet with
  | [some a, some b, some c, some d] => some (BitVec.ofNat 32 (a + b * 2 ^ 8 + c * 2 ^ 16 + d * 2 ^ 24))
  | _ => none

/-- `isspace`. -/
def isSpace (c : Char) : Bool := c = ' ' || (9 ≤ c.toNat && c.toNat ≤ 13)

/-- `strtol` of digits after a sign: clamped to 64 bits. -/
def strtolDigits (neg : Bool) (s : List Char) : Int :=
  if neg then max (-(decimal (s.takeWhile Char.isDigit) : Int)) (-2 ^ 63)
  else min (decimal (s.takeWhile Char.isDigit) : Int) (2 ^ 63 - 1)

/-- `atoi`: `strtol`, cut to an `int`. -/
def atoi (s : List Char) : Int :=
  (BitVec.ofInt 32 (match s.dropWhile isSpace with
    | '-' :: rest => strtolDigits true rest
    | '+' :: rest => strtolDigits false rest
    | rest => strtolDigits false rest)).toInt

/-- `strrchr(env, ':')`: what stands before the last colon, and after it. -/
def splitLastColon (env : List Char) : Option (List Char × List Char) :=
  match env.reverse.dropWhile (· ≠ ':') with
  | [] => none
  | _ :: before => some (before.reverse, (env.reverse.takeWhile (· ≠ ':')).reverse)

/-- What a process sees of its environment and its host: `getifaddrs` gives the interfaces with
their IPv4 addresses. -/
structure Host where
  commId : Option (List Char)
  socketAddr : Option (List Char)
  ifname : Option (List Char)
  ifaddrs : Option (List (List Char × Option (BitVec 32)))
  pton6 : List Char → Option (BitVec 128)

/-- Whether the address is of the loopback network. -/
def isLoopback (addr : BitVec 32) : Bool := addr.toNat % 256 = 127

/-- The interface that `getAdvertisedAddr` chooses: that of the name asked for, or the first that is
not loopback, or loopback. -/
def chooseIface (ifname : Option (List Char)) (ifas : List (List Char × Option (BitVec 32))) :
    Option (BitVec 32) :=
  match ifname with
  | some name => ifas.findSome? fun i => if i.1 = name then i.2 else none
  | none =>
    (ifas.findSome? fun i => i.2.filter fun a => !isLoopback a).or
      (ifas.findSome? fun i => i.2.filter fun a => isLoopback a)

/-- `getAdvertisedAddr`. -/
def getAdvertisedAddr (h : Host) : Except Result SockAddr :=
  match h.socketAddr with
  | some env =>
    match inetPton env, h.pton6 env with
    | some addr, _ => .ok (.v4 0 addr)
    | none, some addr => .ok (.v6 0 addr)
    | none, none => .error .invalidArgument
  | none =>
    match h.ifaddrs with
    | none => .error .systemError
    | some ifas =>
      match chooseIface h.ifname ifas with
      | some addr => .ok (.v4 0 addr)
      | none => .error .systemError

/-- What the kernel and the random device answer: descriptor and port of `createListenSocket`, which
listens on IPv4, and the salt. -/
structure Answers where
  listen : Option (Nat × BitVec 16)
  salt : BitVec 64

/-- The address in `VCCL_COMM_ID`. -/
def commIdAddr (env : List Char) : Except Result SockAddr :=
  match splitLastColon env with
  | none => .error .invalidArgument
  | some (host, rest) =>
    if host = [] ∨ 64 ≤ host.length then .error .invalidArgument
    else
      match inetPton host with
      | none => .error .invalidArgument
      | some addr =>
        if atoi rest ≤ 0 ∨ 65535 < atoi rest then .error .invalidArgument
        else .ok (.v4 (htons (BitVec.ofInt 16 (atoi rest))) addr)

/-- `uniqueIdCreate`: the id, and the registry of listening sockets after it. -/
def uniqueIdCreate (h : Host) (ans : Answers) (registry : UniqueId → Option Nat) :
    Except Result (UniqueId × (UniqueId → Option Nat)) :=
  match h.commId with
  | some env =>
    match commIdAddr env with
    | .error e => .error e
    | .ok addr => .ok (.make kCommIdEnvSalt addr, registry)
  | none =>
    match getAdvertisedAddr h with
    | .error e => .error e
    | .ok addr =>
      match ans.listen with
      | none => .error .systemError
      | some (fd, port) =>
        .ok (.make ans.salt (addr.setPort port),
          Function.update registry (.make ans.salt (addr.setPort port)) (some fd))

section Create

variable {h : Host} {ans : Answers} {registry reg' : UniqueId → Option Nat} {u : UniqueId}

/-- The two branches of `uniqueIdCreate`. -/
theorem uniqueIdCreate_cases (hc : uniqueIdCreate h ans registry = .ok (u, reg')) :
    (h.commId.isSome ∧ (∃ addr, u = .make kCommIdEnvSalt addr) ∧ reg' = registry) ∨
    (h.commId = none ∧ ∃ addr fd port, getAdvertisedAddr h = .ok addr ∧
      ans.listen = some (fd, port) ∧ u = .make ans.salt (addr.setPort port) ∧
      reg' = Function.update registry u (some fd)) := by
  unfold uniqueIdCreate at hc
  cases henv : h.commId with
  | some env =>
    rw [henv] at hc
    simp only at hc
    split at hc
    · cases hc
    · cases hc
      exact Or.inl ⟨rfl, ⟨_, rfl⟩, rfl⟩
  | none =>
    rw [henv] at hc
    simp only at hc
    split at hc
    · cases hc
    · rename_i addr haddr
      split at hc
      · cases hc
      · rename_i fd port hlisten
        cases hc
        exact Or.inr ⟨rfl, addr, fd, port, haddr, hlisten, rfl, rfl⟩

theorem uniqueIdCreate_make (hc : uniqueIdCreate h ans registry = .ok (u, reg')) :
    ∃ salt addr, u = .make salt addr := by
  rcases uniqueIdCreate_cases hc with ⟨-, ⟨addr, hu⟩, -⟩ | ⟨-, addr, fd, port, -, -, hu, -⟩
  · exact ⟨_, _, hu⟩
  · exact ⟨_, _, hu⟩

end Create

/-! ## The ids of a split -/

namespace Split

open Net (Flow)

/-- The ranks, their calls, and where they run: the host of a rank in a call, what it is answered
there if it creates an id, and the registry of its process at that time. -/
structure Site where
  args : Nat → Nat → Option SplitInfo
  host : Nat → Nat → Host
  answers : Nat → Nat → Answers
  registry : Nat → Nat → UniqueId → Option Nat

/-- `vcclGetUniqueId` on rank `r` in its `j`-th call. -/
def Site.create (w : Site) (r j : Nat) : Except Result (UniqueId × (UniqueId → Option Nat)) :=
  uniqueIdCreate (w.host r j) (w.answers r j) (w.registry r j)

def Site.splits (w : Site) : Splits :=
  ⟨w.args, fun r j => (w.create r j).toOption.map Prod.fst⟩

/-- Rank `r` has created the id `u`, which designates a listening socket of its own: the socket stands
in its registry under `u`, and the address in `u` is the rank's, on IPv4, with the socket's port. -/
def Designates (w : Site) (r j : Nat) (u : UniqueId) : Prop :=
  ∃ reg' fd port addr p, w.create r j = .ok (u, reg') ∧ reg' u = some fd ∧
    (w.answers r j).listen = some (fd, port) ∧ getAdvertisedAddr (w.host r j) = .ok (.v4 p addr) ∧
    u.getAddr = .v4 (htons port) addr

/-- The first of the members of a color in the `j`-th calls. -/
def Leader (n : Nat) (w : Site) (j : Nat) (color : BitVec 32) (lead : Nat) : Prop :=
  ∃ key, (members (w.splits.info n j) color)[0]? = some (key, lead)

/-- A rank that initialises its communicator with the id `u'`, as rank `r` of `m'`, reaches the root
that holds the id `u` for `m` ranks, and passes its check. -/
def Joins (u u' : UniqueId) (m m' r : Nat) (peerFds : Nat → Option Nat) : Prop :=
  u'.getAddr = u.getAddr ∧ helloOk u m peerFds (helloOf u' m' r) = true

/-- **The subgroups of the `j`-th calls have their own rendezvous.** -/
structure OwnRendezvous (n : Nat) (w : Site) (j : Nat) : Prop where
  created : ∀ color lead, Leader n w j color lead → ∃ u, Designates w lead j u
  distinct : ∀ color color' lead lead' u u', color ≠ color' → Leader n w j color lead →
    Leader n w j color' lead' → w.splits.newId lead j = some u → w.splits.newId lead' j = some u' →
    u ≠ u'
  apart : ∀ color color' lead lead' u u', color ≠ color' → Leader n w j color lead →
    Leader n w j color' lead' → w.splits.newId lead j = some u → w.splits.newId lead' j = some u' →
    ∀ m m' r peerFds, ¬ Joins u u' m m' r peerFds

/-- Ids that two ranks create in the `j`-th calls without `VCCL_COMM_ID` differ. -/
def Fresh (n : Nat) (w : Site) (j : Nat) : Prop :=
  ∀ q q' u u', q < n → q' < n → q ≠ q' → (w.host q j).commId = none → (w.host q' j).commId = none →
    w.splits.newId q j = some u → w.splits.newId q' j = some u' → u ≠ u'

/-- Ids that are registered carry a drawn salt, which is not the mark of `VCCL_COMM_ID`. -/
def Drawn (w : Site) (j : Nat) : Prop :=
  ∀ q u, (w.registry q j u).isSome → u.salt ≠ kCommIdEnvSalt

/-- The leaders of the `j`-th calls have `VCCL_COMM_ID` unset, and advertise an IPv4 address. -/
def LeadersListen (n : Nat) (w : Site) (j : Nat) : Prop :=
  ∀ color lead, Leader n w j color lead → (w.host lead j).commId = none ∧
    ∃ p addr, getAdvertisedAddr (w.host lead j) = .ok (.v4 p addr)

section Ids

variable {n : Nat} {w : Site} {j : Nat}

/-- A rank that passes a root's check, at the root's address, has the root's id. -/
theorem joins_eq {s s' : BitVec 64} {a a' : SockAddr} {m m' r : Nat} {peerFds : Nat → Option Nat}
    (h : Joins (.make s a) (.make s' a') m m' r peerFds) :
    UniqueId.make s a = UniqueId.make s' a' := by
  obtain ⟨haddr, hok⟩ := h
  rw [UniqueId.getAddr_make, UniqueId.getAddr_make] at haddr
  simp only [helloOk, Bool.and_eq_true, decide_eq_true_eq] at hok
  obtain ⟨⟨-, hsalt, -⟩, -⟩ := hok
  simp only [helloOf, UniqueId.salt_make] at hsalt
  rw [haddr, hsalt]

theorem newId_eq_some {q : Nat} {u : UniqueId} (h : w.splits.newId q j = some u) :
    ∃ reg', w.create q j = .ok (u, reg') := by
  simp only [Site.splits] at h
  cases hc : w.create q j with
  | error e =>
    rw [hc] at h
    cases h
  | ok x =>
    rw [hc] at h
    cases h
    exact ⟨x.2, rfl⟩

/-- A rank leads one color. -/
theorem leader_color (hall : ∀ q, q < n → (w.args q j).isSome) {color color' : BitVec 32} {lead : Nat}
    (h : Leader n w j color lead) (h' : Leader n w j color' lead) : color = color' := by
  obtain ⟨key, hk⟩ := h
  obtain ⟨key', hk'⟩ := h'
  have hm := List.mem_of_getElem? hk
  have hm' := List.mem_of_getElem? hk'
  obtain ⟨-, a, ha, hcolor, -⟩ := (members_mem_iff hall (color_of_mem hm) key lead).mp hm
  obtain ⟨-, a', ha', hcolor', -⟩ := (members_mem_iff hall (color_of_mem hm') key' lead).mp hm'
  rw [ha] at ha'
  cases ha'
  rw [← hcolor, hcolor']

theorem leader_lt (hall : ∀ q, q < n → (w.args q j).isSome) {color : BitVec 32} {lead : Nat}
    (h : Leader n w j color lead) : lead < n := by
  obtain ⟨key, hk⟩ := h
  have hm := List.mem_of_getElem? hk
  exact ((members_mem_iff hall (color_of_mem hm) key lead).mp hm).1

/-- An id from `VCCL_COMM_ID` designates no socket. -/
theorem designates_commId (hd : Drawn w j) {q : Nat} {u : UniqueId} (h : Designates w q j u) :
    (w.host q j).commId = none := by
  obtain ⟨reg', fd, port, addr, p, hc, hreg, -⟩ := h
  rcases uniqueIdCreate_cases hc with ⟨-, ⟨a, rfl⟩, rfl⟩ | ⟨hnone, -⟩
  · exact absurd (UniqueId.salt_make _ _) (hd q _ (by rw [hreg]; rfl))
  · exact hnone

theorem designates_of_listen {q : Nat} {u : UniqueId} (hu : w.splits.newId q j = some u)
    (henv : (w.host q j).commId = none) {p : BitVec 16} {addr : BitVec 32}
    (hv4 : getAdvertisedAddr (w.host q j) = .ok (.v4 p addr)) : Designates w q j u := by
  obtain ⟨reg', hc⟩ := newId_eq_some hu
  rcases uniqueIdCreate_cases hc with ⟨hsome, -⟩ | ⟨-, a, fd, port, ha, hl, hmake, hreg⟩
  · rw [henv] at hsome
    cases hsome
  · rw [hv4] at ha
    cases ha
    refine ⟨reg', fd, port, addr, p, hc, ?_, hl, hv4, ?_⟩
    · rw [hreg, Function.update_self]
    · rw [hmake, UniqueId.getAddr_make]
      rfl

/-- **When the subgroups have their own rendezvous**, in calls whose leaders have all created an id. -/
theorem ownRendezvous_iff (hall : ∀ q, q < n → (w.args q j).isSome) (hfresh : Fresh n w j)
    (hdrawn : Drawn w j)
    (hids : ∀ color lead, Leader n w j color lead → (w.splits.newId lead j).isSome) :
    OwnRendezvous n w j ↔ LeadersListen n w j := by
  constructor
  · intro h color lead hlead
    obtain ⟨u, hu⟩ := h.created color lead hlead
    refine ⟨designates_commId hdrawn hu, ?_⟩
    obtain ⟨_, _, _, addr, p, -, -, -, hv4, -⟩ := hu
    exact ⟨p, addr, hv4⟩
  · intro h
    have hne : ∀ color color' lead lead' u u', color ≠ color' → Leader n w j color lead →
        Leader n w j color' lead' → w.splits.newId lead j = some u →
        w.splits.newId lead' j = some u' → u ≠ u' := by
      intro color color' lead lead' u u' hcolor hl hl' hu hu'
      refine hfresh lead lead' u u' (leader_lt hall hl) (leader_lt hall hl') ?_ (h color lead hl).1
        (h color' lead' hl').1 hu hu'
      rintro rfl
      exact hcolor (leader_color hall hl hl')
    refine ⟨fun color lead hl => ?_, hne, fun color color' lead lead' u u' hcolor hl hl' hu hu' => ?_⟩
    · obtain ⟨u, hu⟩ := Option.isSome_iff_exists.mp (hids color lead hl)
      obtain ⟨henv, p, addr, hv4⟩ := h color lead hl
      exact ⟨u, designates_of_listen hu henv hv4⟩
    · intro m m' r peerFds hjoin
      obtain ⟨reg, hc⟩ := newId_eq_some hu
      obtain ⟨reg', hc'⟩ := newId_eq_some hu'
      obtain ⟨s, a, rfl⟩ := uniqueIdCreate_make hc
      obtain ⟨s', a', rfl⟩ := uniqueIdCreate_make hc'
      exact hne color color' lead lead' _ _ hcolor hl hl' hu hu' (joins_eq hjoin)

/-- **The ids of the subgroups of a split.** A rank of a non-negative color that has come through both
exchanges of its `j`-th call initialises its new communicator with the id that the first member of its
color has created; and the subgroups of that call have their own rendezvous if and only if the leaders
have `VCCL_COMM_ID` unset and advertise an IPv4 address. -/
theorem split_ids_own_iff (n : Nat) (hn : 0 < n) (w : Site) (hs : InSync n w.splits)
    (cap : Nat → Nat → Nat) (c : Flow Nat UInt8 (Boot UInt8))
    (h : BootRun n cap (splitCall n w.splits) c) (r j k : Nat) (hr : r < n)
    (hk : k < (c.st r).held.length)
    (hx : exchange n w.splits r ((c.st r).held.take k) = (j, true)) (hfresh : Fresh n w j)
    (hdrawn : Drawn w j) :
    (∀ a, w.args r j = some a → 0 ≤ a.color.toInt → ∃ lead u m i, Leader n w j a.color lead ∧
      w.splits.newId lead j = some u ∧
      (splitting n w.splits r ((c.st r).held.take (k + 1))).done[j]? = some (.init m u.toBytes i)) ∧
    (OwnRendezvous n w j ↔ LeadersListen n w j) := by
  obtain ⟨-, hall, hids, a, ha, hdone⟩ := both_exchanges hs hn h hr hk hx
  have hpart := partition_of_calls hall hids
  refine ⟨fun a' ha' hc => ?_, ownRendezvous_iff hall hfresh hdrawn fun color lead hlead => ?_⟩
  · obtain rfl : a = a' := Option.some.inj (ha.symm.trans ha')
    have hends := finish_endsWith hall hr ha
    rw [EndsWith, if_neg (by omega)] at hends
    obtain ⟨i, key, lead, -, hlead, hinit⟩ := hends
    obtain ⟨u, hu, hslot⟩ := hpart.leader a.color 0 key lead hlead
    refine ⟨lead, u, (members (w.splits.info n j) a.color).length, i, ⟨key, hlead⟩, hu, ?_⟩
    rw [hdone, hinit, hslot]
  · obtain ⟨key, hkey⟩ := hlead
    obtain ⟨u, hu, -⟩ := hpart.leader color 0 key lead hkey
    rw [hu]
    rfl

end Ids

/-- Two ranks on hosts of their own, which split by rank. -/
def apartSite : Site where
  args r j := if j < 1 then some ⟨BitVec.ofNat 32 r, 0⟩ else none
  host r _ := ⟨none, none, none, some [(['l', 'o'], some 0x0100007f),
    (['e', 't', 'h', '0'], some (BitVec.ofNat 32 (10 + (r + 1) * 2 ^ 24)))], fun _ => none⟩
  answers r _ := ⟨some (5, 40000), BitVec.ofNat 64 (7 + r)⟩
  registry _ _ _ := none

/-- The id that rank `r` creates there. -/
def apartId (r : Nat) : UniqueId :=
  .make (BitVec.ofNat 64 (7 + r)) (.v4 (htons 40000) (BitVec.ofNat 32 (10 + (r + 1) * 2 ^ 24)))

theorem apartSite_newId (r j : Nat) (hr : r < 2) : apartSite.splits.newId r j = some (apartId r) := by
  rcases (by omega : r = 0 ∨ r = 1) with rfl | rfl <;> rfl

theorem apartSite_inSync : InSync 2 apartSite.splits := by
  intro j r q hr _ _ hf _
  have hid := hf.2
  rw [apartSite_newId r j hr] at hid
  cases hid

theorem apartSite_fresh : Fresh 2 apartSite 0 := by
  intro q q' u u' hq hq' hne _ _ hu hu'
  rw [apartSite_newId q 0 hq] at hu
  rw [apartSite_newId q' 0 hq'] at hu'
  cases hu
  cases hu'
  rcases (by omega : (q = 0 ∧ q' = 1) ∨ (q = 1 ∧ q' = 0)) with ⟨rfl, rfl⟩ | ⟨rfl, rfl⟩ <;> decide

theorem apartSite_listen : LeadersListen 2 apartSite 0 := by
  intro color lead hl
  have hlt := leader_lt (w := apartSite) (j := 0) (fun _ _ => rfl) hl
  rcases (by omega : lead = 0 ∨ lead = 1) with rfl | rfl
  · exact ⟨rfl, 0, _, rfl⟩
  · exact ⟨rfl, 0, _, rfl⟩

/-- The colors and keys of the two ranks. -/
def apartInfo : List UInt8 := [0, 0, 0, 0, 0, 0, 0, 0, 1, 0, 0, 0, 0, 0, 0, 0]

set_option maxRecDepth 2000 in
/-- The two subgroups of one rank each have their own rendezvous. -/
theorem split_ids_own_apart : OwnRendezvous 2 apartSite 0 := by
  have hroot : splitCall 2 apartSite.splits 0 [apartInfo] =
      some (128, (apartId 0).toBytes ++ List.replicate 128 0) := by
    decide +kernel
  have hmember : splitCall 2 apartSite.splits 1 [apartInfo] =
      some (128, List.replicate 128 0 ++ (apartId 1).toBytes) := by
    decide +kernel
  have hx : exchange 2 apartSite.splits 0 [apartInfo] = (0, true) := by decide +kernel
  have h0 : BootRun 2 (fun _ _ => 256) (splitCall 2 apartSite.splits)
    (Flow.start fun _ => Boot.init) := .refl
  have h1 := h0.snoc (p := 1) (.enter (by decide) rfl rfl) trivial
  have h2 := h1.snoc (p := 1) (.send (k := 8) rfl rfl rfl ⟨by decide, by decide⟩)
    (Nat.le_of_ble_eq_true rfl)
  have h3 := h2.snoc (p := 0) (.enter (by decide) rfl rfl) trivial
  have h4 := h3.snoc (p := 0) (@BootStep.recv _ _ _ _ _ _ _ [1, 0, 0, 0, 0, 0, 0, 0] rfl rfl rfl
    ⟨by decide, by decide⟩) ⟨[], rfl⟩
  have h5 := h4.snoc (p := 0) (.send (k := 16) rfl rfl rfl ⟨by decide, by decide⟩)
    (Nat.le_of_ble_eq_true rfl)
  have h6 := h5.snoc (p := 0) (.ret rfl rfl) trivial
  have h7 := h6.snoc (p := 1) (@BootStep.recv _ _ _ _ _ _ _ apartInfo rfl rfl rfl ⟨by decide, by decide⟩) ⟨[], rfl⟩
  have h8 := h7.snoc (p := 1) (.ret rfl rfl) trivial
  have h9 := h8.snoc (p := 1) (.enter (by decide) rfl hmember) trivial
  have h10 := h9.snoc (p := 1) (.send (k := 128) rfl rfl rfl ⟨by decide, by decide⟩)
    (Nat.le_of_ble_eq_true (by decide +kernel))
  have h11 := h10.snoc (p := 0) (.enter (by decide) rfl hroot) trivial
  have h12 := h11.snoc (p := 0) (@BootStep.recv _ _ _ _ _ _ _ ((apartId 1).toBytes) rfl rfl rfl
    ⟨by decide, by decide⟩) ⟨[], by decide +kernel⟩
  have h13 := h12.snoc (p := 0) (.send (k := 256) rfl rfl rfl ⟨by decide, by decide⟩)
    (Nat.le_of_ble_eq_true (by decide +kernel))
  have h14 := h13.snoc (p := 0) (.ret rfl rfl) trivial
  exact (split_ids_own_iff 2 (by decide) apartSite apartSite_inSync _ _ h14 0 0 1 (by decide)
    (Nat.le_of_ble_eq_true rfl) hx apartSite_fresh nofun).2.mpr apartSite_listen

/-- Four ranks that split by the parity of their ranks, with `VCCL_COMM_ID` set. -/
def commIdSite : Site where
  args r j := if j < 1 then some ⟨BitVec.ofNat 32 (r % 2), 0⟩ else none
  host _ _ := ⟨some ['1', '0', '.', '0', '.', '0', '.', '1', ':', '7', '0', '0', '0'], none, none,
    none, fun _ => none⟩
  answers _ _ := ⟨none, 0⟩
  registry _ _ _ := none

/-- The id of that environment. -/
def commIdEnv : UniqueId := .make kCommIdEnvSalt (.v4 (htons 7000) 0x0100000a)

/-- **With `VCCL_COMM_ID` the subgroups share one id**, no leader of them has a socket for it, and the
second member of the one passes the check of the root of the other. -/
theorem commId_subgroups_shared : Leader 4 commIdSite 0 0 0 ∧ Leader 4 commIdSite 0 1 1 ∧
    commIdSite.splits.newId 0 0 = some commIdEnv ∧ commIdSite.splits.newId 1 0 = some commIdEnv ∧
    Joins commIdEnv commIdEnv 2 2 1 (fun _ => none) ∧ ¬ OwnRendezvous 4 commIdSite 0 := by
  have hlead : Leader 4 commIdSite 0 0 0 := ⟨0, by decide +kernel⟩
  have hlead' : Leader 4 commIdSite 0 1 1 := ⟨0, by decide +kernel⟩
  have hid : commIdSite.splits.newId 0 0 = some commIdEnv := by decide +kernel
  have hid' : commIdSite.splits.newId 1 0 = some commIdEnv := by decide +kernel
  refine ⟨hlead, hlead', hid, hid', ⟨rfl, by decide +kernel⟩, fun h => ?_⟩
  exact h.distinct 0 1 0 1 _ _ (by decide) hlead hlead' hid hid' rfl

end Split

end Vccl
