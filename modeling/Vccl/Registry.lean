import Vccl.Comm
import Vccl.MrCache

/-!
# Who owns a registration (`comm.h`, `comm.cc`)

A transport handle has one of four owners: an entry of the MR cache, a `MemReg` the user made, the
scratch buffer, or a `ScopedReg` at work (`handles_`, when the cache is off). `Registry` is a
communicator's side of this, with the transport's ledger beside it: the regions that are live, how
many handles were given out, and every `deregMr` call so far. A handle is the number of its
registration, so a fresh one is the next number.

What the transport, `mmap` and the heap answer are arguments of the operations, and so is what
`covers` says, which the transports answer differently. `scratchAt` ignores the result of `regMr`.

`Ledger` and `Owned` are the invariant: a handle is live or was deregistered once, and the live
handles are those of the owners, each at one place. Every operation moves handles between the two
sides by `ledger_regMr` and `ledger_deregAll` alone.
-/

namespace Vccl

/-- `MemReg`, with its heap address; the transport's handle is null without a transport. -/
structure MemReg where
  self : Nat
  transportHandle : Option Nat
  bytes : Nat
  mapped : Option Nat
  deriving DecidableEq, Repr

/-- What a communicator has registered, and the transport's ledger. -/
structure Registry where
  /-- `transport != nullptr` -/
  transport : Bool
  regions : List Region
  issued : Nat
  deregs : List Nat
  mrCache : List MrCacheEntry
  mrClock : Nat
  registrations : List MemReg
  scratchAddr : Nat
  scratchSize : Nat
  scratchRegHandle : Option Nat
  /-- `handles_` of every live `ScopedReg`. -/
  scopes : List (List Nat)
  deriving DecidableEq, Repr

namespace Registry

/-- A new communicator. -/
def init (transport : Bool) : Registry := ⟨transport, [], 0, [], [], 0, [], 0, 0, none, []⟩

/-- The handles the transport has live. -/
def live (s : Registry) : List Nat := s.regions.map Region.birth

/-! ## The transport -/

/-- A successful `regMr` or `regDmaBuf`; the handle is `s.issued`. -/
def regMr (s : Registry) (buf bytes : Nat) : Registry :=
  { s with regions := s.regions ++ [⟨buf, bytes, s.issued⟩], issued := s.issued + 1 }

/-- `deregMr`. -/
def deregMr (s : Registry) (handle : Nat) : Registry :=
  { s with
    regions := s.regions.eraseP fun r => r.birth = handle, deregs := s.deregs ++ [handle] }

/-- `deregMr` of some handles in turn. -/
def deregAll (s : Registry) (handles : List Nat) : Registry := handles.foldl deregMr s

/-! ## The cache -/

/-- `mrCacheGet`. -/
def mrCacheGet (s : Registry) (addr len : Nat) : Option Registry :=
  (World.hit addr len (s.mrClock + 1) s.mrCache).map fun es =>
    { s with mrCache := es, mrClock := s.mrClock + 1 }

/-- The eviction of `mrCachePut`. -/
def evict (s : Registry) : Registry :=
  match s.mrCache[World.victim s.mrCache]? with
  | some e => { s.deregMr e.handle with mrCache := s.mrCache.eraseIdx (World.victim s.mrCache) }
  | none => s

/-- `mrCachePut`, for a handle that is not null. -/
def mrCachePut (cap : Nat) (s : Registry) (addr len handle : Nat) : Registry :=
  if cap = 0 then s
  else
    let s := if cap ≤ s.mrCache.length then s.evict else s
    { s with
      mrCache := s.mrCache ++ [⟨addr, len, handle, s.mrClock + 1⟩], mrClock := s.mrClock + 1 }

/-- `flushMrCache`; without a transport nothing is cached. -/
def flushMrCache (s : Registry) : Registry :=
  { s.deregAll (s.mrCache.map MrCacheEntry.handle) with mrCache := [] }

/-! ## `ScopedReg` and scratch -/

/-- `ScopedReg::add` of the live `ScopedReg` number `scope`; `answer` is what `regMr` returns if it
is called. -/
def add (cap : Nat) (s : Registry) (scope ptr bytes : Nat) (covered : Bool) (answer : Result) :
    Result × Registry :=
  if s.transport = false ∨ ptr = 0 ∨ bytes = 0 then (.success, s)
  else if covered then (.success, s)
  else if 0 < cap then
    match s.mrCacheGet ptr bytes with
    | some s' => (.success, s')
    | none =>
      if answer = .success then (.success, mrCachePut cap (s.regMr ptr bytes) ptr bytes s.issued)
      else (answer, s)
  else if answer = .success then
    (.success, { s.regMr ptr bytes with scopes := s.scopes.modify scope (· ++ [s.issued]) })
  else (answer, s)

/-- The destructor of the `ScopedReg` number `scope`. -/
def leave (s : Registry) (scope : Nat) : Registry :=
  { s.deregAll (s.scopes[scope]?.getD []) with scopes := s.scopes.eraseIdx scope }

/-- `scratchAt`; a buffer that has to grow goes to `addr`. -/
def scratchAt (s : Registry) (bytes addr : Nat) (answer : Result) : Registry :=
  if s.scratchSize < bytes then
    let s := { s.deregAll s.scratchRegHandle.toList with
      scratchRegHandle := none, scratchAddr := addr, scratchSize := bytes }
    if s.transport ∧ answer = .success then
      { s.regMr addr bytes with scratchRegHandle := some s.issued }
    else s
  else s

/-! ## The user's registrations -/

/-- The end of `vcclCommRegister` and `vcclCommRegisterDmaBuf`: the `MemReg` at `self` is kept. -/
def keep (s : Registry) (self addr bytes : Nat) (mapped : Option Nat) : Registry :=
  if s.transport then
    { s.regMr addr bytes with
      registrations := s.registrations ++ [⟨self, some s.issued, bytes, mapped⟩] }
  else { s with registrations := s.registrations ++ [⟨self, none, bytes, mapped⟩] }

/-- `vcclCommRegister`; `out` says whether the caller's `handle` pointer is valid. -/
def commRegister (s : Registry) (buff bytes : Nat) (out : Bool) (self : Nat) (answer : Result) :
    Result × Registry :=
  if buff = 0 ∨ bytes = 0 ∨ out = false then (.invalidArgument, s)
  else if s.transport ∧ answer ≠ .success then (answer, s)
  else (.success, s.keep self buff bytes none)

/-- `vcclCommRegisterDmaBuf`; `mapped` is what `mmap` returns, `none` for `MAP_FAILED`. -/
def commRegisterDmaBuf (s : Registry) (fd : Int) (bytes : Nat) (out : Bool) (mapped : Option Nat)
    (self : Nat) (answer : Result) : Result × Registry :=
  if fd < 0 ∨ bytes = 0 ∨ out = false then (.invalidArgument, s)
  else
    match mapped with
    | none => (.systemError, s)
    | some addr =>
      if s.transport ∧ answer ≠ .success then (answer, s)
      else (.success, s.keep self addr bytes (some addr))

/-- `vcclCommDeregister` of the `MemReg` at `handle`. -/
def commDeregister (s : Registry) (handle : Nat) : Result × Registry :=
  if handle = 0 then (.invalidArgument, s)
  else
    match s.registrations.find? fun reg => reg.self = handle with
    | none => (.invalidArgument, s)
    | some reg =>
      let s := s.flushMrCache
      (.success, { s.deregAll reg.transportHandle.toList with
        registrations := s.registrations.eraseP fun reg => reg.self = handle })

/-- `vcclCommDestroy`, up to the transport's destructor. -/
def commDestroy (s : Registry) : Registry :=
  let s := s.flushMrCache
  { s.deregAll (s.registrations.filterMap MemReg.transportHandle) with registrations := [] }

end Registry

/-! ## Runs -/

/-- What can happen to a registry. -/
inductive RegOp where
  | enter
  | add (scope ptr bytes : Nat) (covered : Bool) (answer : Result)
  | leave (scope : Nat)
  | scratchAt (bytes addr : Nat) (answer : Result)
  | commRegister (buff bytes : Nat) (out : Bool) (self : Nat) (answer : Result)
  | commRegisterDmaBuf (fd : Int) (bytes : Nat) (out : Bool) (mapped : Option Nat) (self : Nat)
      (answer : Result)
  | commDeregister (handle : Nat)
  deriving DecidableEq, Repr

/-- One operation. -/
def regStep (cap : Nat) (s : Registry) : RegOp → Registry
  | .enter => { s with scopes := s.scopes ++ [[]] }
  | .add scope ptr bytes covered answer => (s.add cap scope ptr bytes covered answer).2
  | .leave scope => s.leave scope
  | .scratchAt bytes addr answer => s.scratchAt bytes addr answer
  | .commRegister buff bytes out self answer => (s.commRegister buff bytes out self answer).2
  | .commRegisterDmaBuf fd bytes out mapped self answer =>
    (s.commRegisterDmaBuf fd bytes out mapped self answer).2
  | .commDeregister handle => (s.commDeregister handle).2

/-- The `ScopedReg` of the operation is alive. -/
def Alive (s : Registry) : RegOp → Prop
  | .add scope _ _ _ _ | .leave scope => scope < s.scopes.length
  | _ => True

instance (s : Registry) : (op : RegOp) → Decidable (Alive s op)
  | .add _ _ _ _ _ | .leave _ => inferInstanceAs (Decidable (_ < _))
  | .commRegister _ _ _ _ _ | .commRegisterDmaBuf _ _ _ _ _ _ | .enter | .scratchAt _ _ _
  | .commDeregister _ => .isTrue trivial

/-- The registries of a communicator, from its creation on. -/
inductive RegReach (transport : Bool) (cap : Nat) : Registry → Prop
  | init : RegReach transport cap (Registry.init transport)
  | step {s : Registry} (op : RegOp) : RegReach transport cap s → Alive s op →
      RegReach transport cap (regStep cap s op)

/-! ## The ledger -/

/-- The live handles are `held`, and every handle that was given out is live or was deregistered,
once. -/
structure Ledger (s : Registry) (held : List Nat) : Prop where
  live : s.live.Perm held
  issued : (s.live ++ s.deregs).Perm (List.range s.issued)

section Ledger

variable {s : Registry} {held rest : List Nat}

theorem Ledger.perm {held' : List Nat} (h : Ledger s held) (hp : held.Perm held') :
    Ledger s held' := ⟨h.live.trans hp, h.issued⟩

theorem live_regMr (s : Registry) (buf bytes : Nat) :
    (s.regMr buf bytes).live = s.live ++ [s.issued] := by
  simp [Registry.live, Registry.regMr]

theorem live_deregMr (s : Registry) (h : Nat) : (s.deregMr h).live = s.live.erase h := by
  unfold Registry.live Registry.deregMr
  rw [List.erase_eq_eraseP', List.eraseP_map]
  rfl

theorem ledger_regMr (h : Ledger s held) (buf bytes : Nat) :
    Ledger (s.regMr buf bytes) (held ++ [s.issued]) := by
  refine ⟨?_, ?_⟩
  · rw [live_regMr]
    exact h.live.append_right _
  · rw [live_regMr]
    show ((s.live ++ [s.issued]) ++ s.deregs).Perm (List.range (s.issued + 1))
    rw [List.range_succ, List.append_assoc]
    exact ((List.perm_append_comm.append_left s.live).trans
      (by rw [← List.append_assoc])).trans (h.issued.append_right _)

theorem ledger_deregMr {handle : Nat} (h : Ledger s (handle :: rest)) :
    Ledger (s.deregMr handle) rest := by
  have hmem : handle ∈ s.live := h.live.symm.subset List.mem_cons_self
  refine ⟨?_, ?_⟩
  · rw [live_deregMr]
    have := h.live.erase handle
    rwa [List.erase_cons_head] at this
  · rw [live_deregMr]
    show (s.live.erase handle ++ (s.deregs ++ [handle])).Perm (List.range s.issued)
    refine List.Perm.trans ?_ h.issued
    rw [← List.append_assoc]
    refine (List.perm_append_singleton handle _).trans ?_
    exact (List.perm_cons_erase hmem).symm.append_right s.deregs

theorem ledger_deregAll : ∀ {handles : List Nat} {s : Registry}, Ledger s (handles ++ rest) →
    Ledger (s.deregAll handles) rest
  | [], _, h => h
  | handle :: handles, s, h => by
    show Ledger ((s.deregMr handle).deregAll handles) rest
    exact ledger_deregAll (ledger_deregMr h)

/-- Deregistering changes the transport's side alone. -/
theorem deregAll_eq : ∀ (handles : List Nat) (s : Registry), s.deregAll handles =
    { s with regions := (s.deregAll handles).regions, deregs := (s.deregAll handles).deregs }
  | [], _ => rfl
  | h :: handles, s => by
    have := deregAll_eq handles (s.deregMr h)
    rw [show s.deregAll (h :: handles) = (s.deregMr h).deregAll handles from rfl, this]
    rfl

end Ledger

/-! ## The cache -/

/-- The cache by itself: it is bounded, no range stands twice in it, and the stamps order its
entries. -/
structure CacheOk (cap clock : Nat) (es : List MrCacheEntry) : Prop where
  size : es.length ≤ cap
  keys : (es.map fun e => (e.addr, e.len)).Nodup
  stamps : (es.map MrCacheEntry.seq).Nodup
  clock : ∀ e ∈ es, e.seq ≤ clock

section Cache

variable {cap clock addr len stamp : Nat} {es es' : List MrCacheEntry}

/-- `mrCacheGet` finds the range and stamps its entry. -/
theorem hit_some : ∀ {es es' : List MrCacheEntry}, World.hit addr len stamp es = some es' →
    ∃ a e b, es = a ++ e :: b ∧ es' = a ++ { e with seq := stamp } :: b
  | [], _, h => by cases h
  | e :: es, es', h => by
    unfold World.hit at h
    split at h
    · exact ⟨[], e, es, rfl, (Option.some.inj h).symm⟩
    · obtain ⟨es₁, h₁, rfl⟩ := Option.map_eq_some_iff.mp h
      obtain ⟨a, e₁, b, rfl, rfl⟩ := hit_some h₁
      exact ⟨e :: a, e₁, b, rfl, rfl⟩

theorem hit_none : ∀ {es : List MrCacheEntry}, World.hit addr len stamp es = none →
    (addr, len) ∉ es.map fun e => (e.addr, e.len)
  | [], _ => List.not_mem_nil
  | e :: es, h => by
    unfold World.hit at h
    split at h
    · cases h
    · rename_i hne
      rw [List.map_cons, List.mem_cons, not_or]
      refine ⟨fun heq => hne ?_, hit_none (Option.map_eq_none_iff.mp h)⟩
      obtain ⟨h1, h2⟩ := Prod.mk.inj heq
      exact ⟨h1.symm, h2.symm⟩

/-- A reuse keeps the cache in order. -/
theorem CacheOk.hit (h : CacheOk cap clock es) (hh : World.hit addr len (clock + 1) es = some es') :
    CacheOk cap (clock + 1) es' ∧ es'.map MrCacheEntry.handle = es.map MrCacheEntry.handle := by
  obtain ⟨a, e, b, rfl, rfl⟩ := hit_some hh
  refine ⟨⟨?_, ?_, ?_, ?_⟩, ?_⟩
  · have := h.size
    simp only [List.length_append, List.length_cons] at this ⊢
    exact this
  · have := h.keys
    simp only [List.map_append, List.map_cons] at this ⊢
    exact this
  · have hs := h.stamps
    rw [List.map_append, List.map_cons] at hs ⊢
    rw [List.nodup_middle, List.nodup_cons] at hs ⊢
    refine ⟨fun hmem => ?_, hs.2⟩
    -- the new stamp is beyond the clock
    rw [← List.map_append] at hmem
    obtain ⟨e', he', heq⟩ := List.mem_map.mp hmem
    have hle := h.clock e' (by
      rcases List.mem_append.mp he' with h' | h'
      · exact List.mem_append_left _ h'
      · exact List.mem_append_right _ (List.mem_cons_of_mem _ h'))
    simp only at heq
    omega
  · intro e' he'
    rcases List.mem_append.mp he' with h' | h'
    · exact Nat.le_succ_of_le (h.clock e' (List.mem_append_left _ h'))
    · rcases List.mem_cons.mp h' with rfl | h'
      · exact Nat.le_refl _
      · exact Nat.le_succ_of_le
          (h.clock e' (List.mem_append_right _ (List.mem_cons_of_mem _ h')))
  · simp only [List.map_append, List.map_cons]

/-- A cache with a free place takes a new range. -/
theorem CacheOk.push (h : CacheOk cap clock es) (hlt : es.length < cap)
    (hkey : (addr, len) ∉ es.map fun e => (e.addr, e.len)) (handle : Nat) :
    CacheOk cap (clock + 1) (es ++ [⟨addr, len, handle, clock + 1⟩]) := by
  refine ⟨?_, ?_, ?_, ?_⟩
  · rw [List.length_append]
    exact hlt
  · rw [List.map_append, List.map_singleton, List.nodup_append]
    refine ⟨h.keys, List.nodup_singleton _, fun k hk k' hk' heq => hkey ?_⟩
    rw [List.mem_singleton] at hk'
    rwa [← hk', ← heq]
  · rw [List.map_append, List.map_singleton, List.nodup_append]
    refine ⟨h.stamps, List.nodup_singleton _, fun k hk k' hk' heq => ?_⟩
    obtain ⟨e, he, rfl⟩ := List.mem_map.mp hk
    have hle := h.clock e he
    rw [List.mem_singleton] at hk'
    simp only at hk'
    omega
  · intro e he
    rcases List.mem_append.mp he with he | he
    · exact Nat.le_succ_of_le (h.clock e he)
    · rw [List.mem_singleton.mp he]

theorem CacheOk.sublist {es' : List MrCacheEntry} (h : CacheOk cap clock es)
    (hsub : es'.Sublist es) : CacheOk cap clock es' :=
  ⟨hsub.length_le.trans h.size, h.keys.sublist (hsub.map _), h.stamps.sublist (hsub.map _),
    fun e he => h.clock e (hsub.subset he)⟩

/-- The victim is an entry of the cache. -/
theorem victim_lt (h : 0 < es.length) : World.victim es < es.length := by
  unfold World.victim
  suffices key : ∀ (f : Nat → Nat) (l : List Nat), (∀ i ∈ l, i < es.length) → ∀ v, v < es.length →
      l.foldl (fun v i => if f i < f v then i else v) v < es.length by
    refine key _ _ (fun i hi => ?_) 0 h
    have := List.mem_range'_1.mp hi
    omega
  intro f l
  induction l with
  | nil => intro _ v hv; exact hv
  | cons i l ih =>
    intro hl v hv
    rw [List.foldl_cons]
    refine ih (fun j hj => hl j (List.mem_cons_of_mem _ hj)) _ ?_
    split
    · exact hl i List.mem_cons_self
    · exact hv

end Cache

/-! ## The invariant -/

namespace Registry

/-- The handles of the owners, place by place. -/
def owned (s : Registry) : List Nat :=
  s.mrCache.map MrCacheEntry.handle ++ s.registrations.filterMap MemReg.transportHandle ++
    s.scratchRegHandle.toList ++ s.scopes.flatten

end Registry

/-- The ledger holds what the owners have, and the cache is in order. -/
structure Owned (cap : Nat) (s : Registry) : Prop where
  ledger : Ledger s s.owned
  cache : CacheOk cap s.mrClock s.mrCache

section Steps

variable {cap : Nat} {s : Registry}

theorem owned_init (transport : Bool) (cap : Nat) : Owned cap (Registry.init transport) :=
  ⟨⟨.refl _, .refl _⟩, ⟨Nat.zero_le _, .nil, .nil, fun _ he => absurd he List.not_mem_nil⟩⟩

/-- A reuse moves no handle. -/
theorem Owned.mrCacheGet {s' : Registry} {addr len : Nat} (h : Owned cap s)
    (hget : s.mrCacheGet addr len = some s') : Owned cap s' := by
  obtain ⟨es, hes, rfl⟩ := Option.map_eq_some_iff.mp hget
  obtain ⟨hcache, hhandles⟩ := h.cache.hit hes
  refine ⟨⟨h.ledger.live.trans ?_, h.ledger.issued⟩, hcache⟩
  unfold Registry.owned
  rw [hhandles]

/-- What an eviction leaves: one place free, and the victim's handle gone from both sides. -/
theorem evict_spec {rest : List Nat} (hcache : CacheOk cap s.mrClock s.mrCache) (hcap : 0 < cap)
    (hfull : cap ≤ s.mrCache.length)
    (h : Ledger s (s.mrCache.map MrCacheEntry.handle ++ rest)) :
    ∃ es, es.Sublist s.mrCache ∧ es.length < cap ∧
      s.evict = { s with
        regions := s.evict.regions, deregs := s.evict.deregs, mrCache := es } ∧
      Ledger s.evict (es.map MrCacheEntry.handle ++ rest) := by
  have hlt : World.victim s.mrCache < s.mrCache.length := victim_lt (by omega)
  have hget := List.getElem?_eq_getElem hlt
  refine ⟨s.mrCache.eraseIdx (World.victim s.mrCache), List.eraseIdx_sublist _ _, ?_, ?_, ?_⟩
  · rw [List.length_eraseIdx_of_lt hlt]
    have := hcache.size
    omega
  · unfold Registry.evict
    rw [hget]
    rfl
  · unfold Registry.evict
    rw [hget]
    have hperm := (List.getElem_cons_eraseIdx_perm hlt).map MrCacheEntry.handle
    have hd := ledger_deregMr (h.perm ((hperm.symm.append_right rest).trans
      (by rw [List.map_cons, List.cons_append])))
    exact ⟨hd.live, hd.issued⟩

/-- The handles outside the cache. -/
def Registry.others (s : Registry) : List Nat :=
  s.registrations.filterMap MemReg.transportHandle ++ (s.scratchRegHandle.toList ++ s.scopes.flatten)

theorem owned_eq (s : Registry) :
    s.owned = s.mrCache.map MrCacheEntry.handle ++ s.others := by
  unfold Registry.owned Registry.others
  rw [List.append_assoc, List.append_assoc]

/-- An entry is put where there is room; `handle` was held outside. -/
theorem Owned.push {addr len handle : Nat} (hcache : CacheOk cap s.mrClock s.mrCache)
    (hlt : s.mrCache.length < cap) (hkey : (addr, len) ∉ s.mrCache.map fun e => (e.addr, e.len))
    (h : Ledger s (s.mrCache.map MrCacheEntry.handle ++ (s.others ++ [handle]))) :
    Owned cap { s with
      mrCache := s.mrCache ++ [⟨addr, len, handle, s.mrClock + 1⟩], mrClock := s.mrClock + 1 } := by
  refine ⟨⟨h.live.trans ?_, h.issued⟩, hcache.push hlt hkey handle⟩
  rw [owned_eq, List.map_append, List.append_assoc]
  exact List.perm_append_comm.append_left _

/-- A new range goes into the cache, if need be in place of the oldest. -/
theorem Owned.mrCachePut {addr len : Nat} (h : Owned cap s) (hcap : 0 < cap)
    (hkey : (addr, len) ∉ s.mrCache.map fun e => (e.addr, e.len)) :
    Owned cap ((s.regMr addr len).mrCachePut cap addr len s.issued) := by
  have hreg : Ledger (s.regMr addr len)
      (s.mrCache.map MrCacheEntry.handle ++ (s.others ++ [s.issued])) := by
    have := ledger_regMr h.ledger addr len
    rwa [owned_eq, List.append_assoc] at this
  unfold Registry.mrCachePut
  rw [if_neg (by omega)]
  by_cases hfull : cap ≤ s.mrCache.length
  · obtain ⟨es, hsub, hlt, heq, hled⟩ :=
      evict_spec (s := s.regMr addr len) h.cache hcap hfull hreg
    simp only [show (s.regMr addr len).mrCache = s.mrCache from rfl, if_pos hfull]
    rw [heq]
    exact Owned.push (s := { s.regMr addr len with
        regions := (s.regMr addr len).evict.regions, deregs := (s.regMr addr len).evict.deregs,
        mrCache := es })
      (h.cache.sublist hsub) hlt (fun hmem => hkey ((hsub.map _).subset hmem))
      (by rw [heq] at hled; exact hled)
  · simp only [show (s.regMr addr len).mrCache = s.mrCache from rfl, if_neg hfull]
    exact Owned.push (s := s.regMr addr len) h.cache (Nat.lt_of_not_le hfull) hkey hreg

/-- A handle joins the `ScopedReg` it was made for. -/
theorem flatten_modify_perm (handle : Nat) : ∀ (scopes : List (List Nat)) (i : Nat),
    i < scopes.length → (scopes.modify i (· ++ [handle])).flatten.Perm (scopes.flatten ++ [handle])
  | [], _, h => absurd h (Nat.not_lt_zero _)
  | l :: scopes, 0, _ => by
    rw [List.modify_zero_cons, List.flatten_cons, List.flatten_cons, List.append_assoc,
      List.append_assoc]
    exact List.perm_append_comm.append_left l
  | l :: scopes, i + 1, h => by
    rw [List.modify_succ_cons, List.flatten_cons, List.flatten_cons, List.append_assoc]
    exact (flatten_modify_perm handle scopes i (Nat.lt_of_succ_lt_succ h)).append_left l

theorem Owned.add (h : Owned cap s) {scope : Nat} (hscope : scope < s.scopes.length)
    (ptr bytes : Nat) (covered : Bool) (answer : Result) :
    Owned cap (s.add cap scope ptr bytes covered answer).2 := by
  unfold Registry.add
  split
  · exact h
  split
  · exact h
  split
  · rename_i hcap
    split
    · rename_i s' hget
      exact h.mrCacheGet hget
    · rename_i hget
      split
      · exact h.mrCachePut hcap (hit_none (Option.map_eq_none_iff.mp hget))
      · exact h
  split
  · refine ⟨?_, h.cache⟩
    have hreg := ledger_regMr h.ledger ptr bytes
    refine ⟨hreg.live.trans ?_, hreg.issued⟩
    unfold Registry.owned
    rw [List.append_assoc]
    exact (flatten_modify_perm s.issued s.scopes scope hscope).symm.append_left _
  · exact h

theorem flatten_eraseIdx_perm : ∀ (scopes : List (List Nat)) (i : Nat),
    scopes.flatten.Perm (scopes[i]?.getD [] ++ (scopes.eraseIdx i).flatten)
  | [], _ => .refl _
  | l :: scopes, 0 => by simp
  | l :: scopes, i + 1 => by
    rw [List.getElem?_cons_succ, List.eraseIdx_cons_succ, List.flatten_cons, List.flatten_cons]
    refine ((flatten_eraseIdx_perm scopes i).append_left l).trans ?_
    rw [← List.append_assoc, ← List.append_assoc]
    exact List.perm_append_comm.append_right _

theorem Owned.leave (h : Owned cap s) (scope : Nat) : Owned cap (s.leave scope) := by
  have hled : Ledger s (s.scopes[scope]?.getD [] ++ (s.mrCache.map MrCacheEntry.handle ++
      s.registrations.filterMap MemReg.transportHandle ++ s.scratchRegHandle.toList ++
      (s.scopes.eraseIdx scope).flatten)) := by
    refine h.ledger.perm (((flatten_eraseIdx_perm s.scopes scope).append_left _).trans ?_)
    rw [← List.append_assoc]
    refine (List.perm_append_comm.append_right _).trans ?_
    rw [List.append_assoc]
  have hd := ledger_deregAll hled
  unfold Registry.leave
  rw [deregAll_eq] at hd ⊢
  exact ⟨⟨hd.live, hd.issued⟩, h.cache⟩

/-- Deregistering the scratch handle, if there is one. -/
theorem Owned.dropScratch (h : Owned cap s) (addr bytes : Nat) :
    Owned cap { s.deregAll s.scratchRegHandle.toList with
      scratchRegHandle := none, scratchAddr := addr, scratchSize := bytes } := by
  have hled : Ledger s (s.scratchRegHandle.toList ++ (s.mrCache.map MrCacheEntry.handle ++
      s.registrations.filterMap MemReg.transportHandle ++ [] ++ s.scopes.flatten)) := by
    refine h.ledger.perm ?_
    unfold Registry.owned
    rw [List.append_nil, ← List.append_assoc]
    exact List.perm_append_comm.append_right _
  have hd := ledger_deregAll hled
  rw [deregAll_eq] at hd ⊢
  exact ⟨⟨hd.live, hd.issued⟩, h.cache⟩

theorem Owned.scratchAt (h : Owned cap s) (bytes addr : Nat) (answer : Result) :
    Owned cap (s.scratchAt bytes addr answer) := by
  have hdrop := h.dropScratch addr bytes
  have hnone : ∀ {t : Registry}, Owned cap t → t.scratchRegHandle = none →
      Owned cap { t.regMr addr bytes with scratchRegHandle := some t.issued } := by
    intro t ht hn
    have hreg := ledger_regMr ht.ledger addr bytes
    refine ⟨⟨hreg.live.trans ?_, hreg.issued⟩, ht.cache⟩
    unfold Registry.owned
    rw [hn, Option.toList_none, List.append_nil]
    show (_ ++ _ ++ _ ++ [t.issued]).Perm (_ ++ _ ++ [t.issued] ++ _)
    rw [List.append_assoc, List.append_assoc (_ ++ _)]
    exact List.perm_append_comm.append_left _
  unfold Registry.scratchAt
  split
  · simp only
    split
    · exact hnone hdrop rfl
    · exact hdrop
  · exact h

/-- A registration of the user's is kept. -/
theorem Owned.keep (h : Owned cap s) (self addr bytes : Nat) (mapped : Option Nat) :
    Owned cap (s.keep self addr bytes mapped) := by
  have hadd : ∀ (regs : List MemReg) (held handles : List Nat),
      (s.mrCache.map MrCacheEntry.handle ++ regs.filterMap MemReg.transportHandle ++
        held ++ s.scopes.flatten ++ handles).Perm
      (s.mrCache.map MrCacheEntry.handle ++ (regs.filterMap MemReg.transportHandle ++ handles) ++
        held ++ s.scopes.flatten) := fun regs held handles => by
    simp only [List.append_assoc]
    refine List.Perm.append_left _ (List.Perm.append_left _ ?_)
    rw [← List.append_assoc]
    exact List.perm_append_comm
  unfold Registry.keep
  split
  · have hreg := ledger_regMr h.ledger addr bytes
    refine ⟨⟨hreg.live.trans ?_, hreg.issued⟩, h.cache⟩
    unfold Registry.owned
    rw [List.filterMap_append]
    exact hadd s.registrations s.scratchRegHandle.toList [s.issued]
  · refine ⟨⟨h.ledger.live.trans ?_, h.ledger.issued⟩, h.cache⟩
    unfold Registry.owned
    rw [List.filterMap_append]
    simp

theorem Owned.flushMrCache (h : Owned cap s) : Owned cap s.flushMrCache := by
  have hd := ledger_deregAll (h.ledger.perm (.of_eq (owned_eq s)))
  unfold Registry.flushMrCache
  rw [deregAll_eq] at hd ⊢
  refine ⟨⟨?_, hd.issued⟩, ⟨Nat.zero_le _, .nil, .nil, fun _ he => absurd he List.not_mem_nil⟩⟩
  rw [owned_eq]
  exact hd.live

/-- The registration found is the one that is erased. -/
theorem find?_perm_eraseP {α : Type} {p : α → Bool} {a : α} : ∀ {l : List α},
    l.find? p = some a → l.Perm (a :: l.eraseP p)
  | [], h => by cases h
  | b :: l, h => by
    cases hb : p b with
    | true =>
      rw [List.find?_cons_of_pos hb] at h
      rw [List.eraseP_cons_of_pos hb, Option.some.inj h]
    | false =>
      rw [List.find?_cons_of_neg (by simp [hb])] at h
      rw [List.eraseP_cons_of_neg (by simp [hb])]
      exact ((find?_perm_eraseP h).cons b).trans (.swap a b _)

theorem Owned.commDeregister (h : Owned cap s) (handle : Nat) :
    Owned cap (s.commDeregister handle).2 := by
  unfold Registry.commDeregister
  split
  · exact h
  split
  · exact h
  · rename_i reg hfind
    have hf := h.flushMrCache
    have hfind' : s.flushMrCache.registrations.find? (fun reg => reg.self = handle) = some reg := by
      unfold Registry.flushMrCache
      rw [deregAll_eq]
      exact hfind
    have hled : Ledger s.flushMrCache (reg.transportHandle.toList ++
        (s.flushMrCache.mrCache.map MrCacheEntry.handle ++
        (s.flushMrCache.registrations.eraseP fun reg => reg.self = handle).filterMap
          MemReg.transportHandle ++ s.flushMrCache.scratchRegHandle.toList ++
        s.flushMrCache.scopes.flatten)) := by
      refine hf.ledger.perm ?_
      have hp := (find?_perm_eraseP hfind').filterMap MemReg.transportHandle
      have hcons : (reg :: s.flushMrCache.registrations.eraseP fun reg => reg.self = handle).filterMap
          MemReg.transportHandle = reg.transportHandle.toList ++
          (s.flushMrCache.registrations.eraseP fun reg => reg.self = handle).filterMap
            MemReg.transportHandle := by
        cases hth : reg.transportHandle with
        | none => rw [List.filterMap_cons_none hth]; rfl
        | some x => rw [List.filterMap_cons_some hth]; rfl
      rw [hcons] at hp
      unfold Registry.owned
      refine (((hp.append_left _).append_right _).append_right _).trans ?_
      simp only [← List.append_assoc]
      exact (((List.perm_append_comm.append_right _).append_right _).append_right _)
    have hd := ledger_deregAll hled
    simp only
    rw [deregAll_eq] at hd ⊢
    exact ⟨⟨hd.live, hd.issued⟩, hf.cache⟩

/-- **Every operation keeps the books.** -/
theorem Owned.step (h : Owned cap s) {op : RegOp} (hop : Alive s op) : Owned cap (regStep cap s op) := by
  cases op with
  | enter =>
    refine ⟨⟨h.ledger.live.trans ?_, h.ledger.issued⟩, h.cache⟩
    unfold Registry.owned regStep
    simp
  | add scope ptr bytes covered answer => exact h.add hop ptr bytes covered answer
  | leave scope => exact h.leave scope
  | scratchAt bytes addr answer => exact h.scratchAt bytes addr answer
  | commRegister buff bytes out self answer =>
    simp only [regStep, Registry.commRegister]
    split
    · exact h
    split
    · exact h
    · exact h.keep self buff bytes none
  | commRegisterDmaBuf fd bytes out mapped self answer =>
    simp only [regStep, Registry.commRegisterDmaBuf]
    split
    · exact h
    split
    · exact h
    split
    · exact h
    · exact h.keep self _ bytes _
  | commDeregister handle => exact h.commDeregister handle

/-- Destruction leaves the scratch handle to the transport. -/
theorem destroy_ledger (h : Owned cap s) (hidle : s.scopes = []) :
    Ledger s.commDestroy s.scratchRegHandle.toList := by
  have hf := h.flushMrCache
  have hregs : s.flushMrCache.mrCache = [] ∧ s.flushMrCache.scopes = s.scopes ∧
      s.flushMrCache.scratchRegHandle = s.scratchRegHandle := by
    unfold Registry.flushMrCache
    rw [deregAll_eq]
    exact ⟨rfl, rfl, rfl⟩
  have hall : s.flushMrCache.owned = s.flushMrCache.registrations.filterMap MemReg.transportHandle ++
      s.scratchRegHandle.toList := by
    unfold Registry.owned
    rw [hregs.1, hregs.2.1, hregs.2.2, hidle, List.map_nil, List.nil_append, List.flatten_nil,
      List.append_nil]
  have hd := ledger_deregAll (hf.ledger.perm (.of_eq hall))
  exact ⟨hd.live, hd.issued⟩

theorem RegReach.owned {transport : Bool} (h : RegReach transport cap s) : Owned cap s := by
  induction h with
  | init => exact owned_init transport cap
  | step op _ hop ih => exact ih.step hop

theorem Ledger.nodup {held : List Nat} (h : Ledger s held) : (s.live ++ s.deregs).Nodup :=
  h.issued.nodup_iff.mpr List.nodup_range

end Steps

/-- **Registration ownership is exact.** At every moment of every run the live handles are those of
the owners, each at one place; a handle is deregistered at most once, and never while an owner has
it; the cache is bounded, with distinct ranges and distinct stamps; and `vcclCommDestroy` leaves the
scratch handle alone to the transport. -/
theorem registrations_owned (transport : Bool) (cap : Nat) (s : Registry)
    (h : RegReach transport cap s) :
    (s.live.Perm s.owned ∧ s.owned.Nodup) ∧
    (s.deregs.Nodup ∧ (∀ x ∈ s.deregs, x ∉ s.live) ∧
      (s.live ++ s.deregs).Perm (List.range s.issued)) ∧
    (s.mrCache.length ≤ cap ∧ (s.mrCache.map fun e => (e.addr, e.len)).Nodup ∧
      (s.mrCache.map MrCacheEntry.seq).Nodup ∧ ∀ e ∈ s.mrCache, e.seq ≤ s.mrClock) ∧
    (s.scopes = [] →
      s.commDestroy.live = s.scratchRegHandle.toList ∧ s.commDestroy.deregs.Nodup) := by
  obtain ⟨hled, hcache⟩ := h.owned
  have hnd := List.nodup_append.mp hled.nodup
  refine ⟨⟨hled.live, hled.live.nodup_iff.mp hnd.1⟩,
    ⟨hnd.2.1, fun x hx hlive => hnd.2.2 x hlive x hx rfl, hled.issued⟩,
    ⟨hcache.size, hcache.keys, hcache.stamps, hcache.clock⟩, fun hidle => ?_⟩
  have hdes := destroy_ledger h.owned hidle
  refine ⟨?_, (List.nodup_append.mp hdes.nodup).2.1⟩
  have hlive := hdes.live
  cases hs : s.scratchRegHandle with
  | none =>
    rw [hs] at hlive
    exact hlive.eq_nil
  | some x =>
    rw [hs] at hlive
    exact List.perm_singleton.mp hlive

/-- Two ranges through a cache of one place, a growing scratch buffer and a registration of the
user's; then the communicator is destroyed. -/
def ownedRun : Registry :=
  [RegOp.enter, .add 0 4096 64 false .success, .scratchAt 128 65536 .success,
    .add 0 8192 64 false .success, .leave 0, .commRegister 12288 32 true 7 .success,
    .scratchAt 256 131072 .success, .commDeregister 7].foldl (regStep 1) (Registry.init true)

theorem registrations_owned_run :
    ownedRun.live.Perm ownedRun.owned ∧ ownedRun.deregs = [0, 1, 2, 3] ∧
      ownedRun.commDestroy.live = [4] := by
  have hreach : RegReach true 1 ownedRun :=
    ((((((((RegReach.init.step .enter trivial).step (.add 0 4096 64 false .success) (by decide)).step
      (.scratchAt 128 65536 .success) trivial).step
      (.add 0 8192 64 false .success) (by decide)).step (.leave 0) (by decide)).step
      (.commRegister 12288 32 true 7 .success) trivial).step
      (.scratchAt 256 131072 .success) trivial).step (.commDeregister 7) trivial)
  have h := registrations_owned true 1 ownedRun hreach
  exact ⟨h.1.1, by decide, h.2.2.2 (by decide) |>.1⟩

end Vccl
