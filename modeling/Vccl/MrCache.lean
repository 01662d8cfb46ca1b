import Mathlib.Data.List.Basic

/-!
# Memory registrations (`ScopedReg`, the MR cache, `vcclMemAlloc`, `vcclMemFree`)

`World` is what one communicator over verbs and the allocator share: the blocks of memory that are
mapped (`vcclMemAlloc` and the scratch buffer), the transport's list of registered regions, the
cache of transient registrations and the user's own registrations. Time is a counter: every block
and every registration carries the time it was made, and a registration pins the pages its range had
then. A region's handle is its time of creation, so no two regions share one.

A collective is a sequence of operations here: `add` for each buffer it pins (`ScopedReg::add`),
`scratchAt`, a `use` for each range a work request is posted for, and `finish`, the destructor of
`ScopedReg`. Addresses that `mmap` and the heap hand out, and whether `ibv_reg_mr` succeeds, are
arguments of the operations.

`vcclCommDeregister` flushes the cache and `vcclMemFree` does not, so a cached registration outlives
the memory it pins. The registrations in use are never older than the memory behind them as long as
no memory is handed out over a live registration.
-/

namespace Vccl

/-- A mapped block of memory and the time it was mapped. -/
structure Block where
  start : Nat
  len : Nat
  birth : Nat
  deriving DecidableEq, Repr

/-- `Region`, with the time of its registration, which is also its handle. -/
structure Region where
  start : Nat
  len : Nat
  birth : Nat
  deriving DecidableEq, Repr

/-- `MrCacheEntry`. -/
structure MrCacheEntry where
  addr : Nat
  len : Nat
  handle : Nat
  seq : Nat
  deriving DecidableEq, Repr

/-- A range for which work was posted, the time of the registration that served it and that of the
memory behind it. -/
structure Use where
  addr : Nat
  bytes : Nat
  mr : Nat
  mem : Nat
  deriving DecidableEq, Repr

/-- A communicator, its transport and the allocator's table. -/
structure World where
  now : Nat
  allocs : List Block
  scratch : Option Block
  scratchReg : Option Nat
  regions : List Region
  mrCache : List MrCacheEntry
  mrClock : Nat
  registrations : List Nat
  /-- `handles_` of the `ScopedReg` at work. -/
  handles : List Nat
  uses : List Use
  deriving DecidableEq, Repr

/-- The test of `covers` and `resolve`. -/
def Region.covers (r : Region) (addr bytes : Nat) : Bool :=
  r.start ≤ addr ∧ addr + bytes ≤ r.start + r.len

/-- The two ranges have a byte in common. -/
def Meets (a b c d : Nat) : Prop := a < c + d ∧ c < a + b

instance (a b c d : Nat) : Decidable (Meets a b c d) := inferInstanceAs (Decidable (_ ∧ _))

/-- The block backs every byte of the range. -/
def Block.backs (b : Block) (addr bytes : Nat) : Bool :=
  b.start ≤ addr ∧ addr + bytes ≤ b.start + b.len

namespace World

/-- A new communicator; nothing is mapped or registered. -/
def init : World := ⟨1, [], none, none, [], [], 0, [], [], []⟩

/-- All mapped blocks. -/
def blocks (w : World) : List Block := w.allocs ++ w.scratch.toList

/-! ## The transport -/

/-- `regMr`, when `ibv_reg_mr` succeeds. The new handle is `w.now`. -/
def regMr (w : World) (buf bytes : Nat) : World :=
  { w with regions := w.regions ++ [⟨buf, bytes, w.now⟩], now := w.now + 1 }

/-- `deregMr`. -/
def deregMr (w : World) (handle : Nat) : World :=
  { w with regions := w.regions.eraseP fun r => r.birth = handle }

/-- `covers`. -/
def covers (w : World) (addr bytes : Nat) : Bool := w.regions.any fun r => r.covers addr bytes

/-- `resolve` and the work posted with its result: the first region that covers the range serves
it, and otherwise a registration made for this use alone. -/
def use (w : World) (addr bytes : Nat) : World :=
  let mem := ((w.blocks.find? fun b => b.backs addr bytes).map Block.birth).getD w.now
  match w.regions.find? fun r => r.covers addr bytes with
  | some r => { w with uses := w.uses ++ [⟨addr, bytes, r.birth, mem⟩] }
  | none => { w with uses := w.uses ++ [⟨addr, bytes, w.now, mem⟩], now := w.now + 1 }

/-! ## The cache -/

/-- The loop of `mrCacheGet`: the first exact repeat is stamped. -/
def hit (addr len stamp : Nat) : List MrCacheEntry → Option (List MrCacheEntry)
  | [] => none
  | e :: es =>
    if e.addr = addr ∧ e.len = len then some ({ e with seq := stamp } :: es)
    else (hit addr len stamp es).map (e :: ·)

/-- `mrCacheGet`. -/
def mrCacheGet (w : World) (addr len : Nat) : Option World :=
  (hit addr len (w.mrClock + 1) w.mrCache).map fun es =>
    { w with mrCache := es, mrClock := w.mrClock + 1 }

/-- The loop that finds the victim of an eviction: the first entry with the oldest stamp. -/
def victim (es : List MrCacheEntry) : Nat :=
  let seq (i : Nat) : Nat := (es[i]?.map MrCacheEntry.seq).getD 0
  (List.range' 1 (es.length - 1)).foldl (fun v i => if seq i < seq v then i else v) 0

/-- The eviction of `mrCachePut`. -/
def evict (w : World) : World :=
  match w.mrCache[victim w.mrCache]? with
  | some e => { w.deregMr e.handle with mrCache := w.mrCache.eraseIdx (victim w.mrCache) }
  | none => w

/-- `mrCachePut`. -/
def mrCachePut (cap : Nat) (w : World) (addr len handle : Nat) : World :=
  if cap = 0 then w
  else
    let w := if cap ≤ w.mrCache.length then w.evict else w
    { w with
      mrCache := w.mrCache ++ [⟨addr, len, handle, w.mrClock + 1⟩], mrClock := w.mrClock + 1 }

/-- Deregister a list of handles. -/
def deregAll (w : World) (handles : List Nat) : World := handles.foldl deregMr w

/-- `flushMrCache`. -/
def flushMrCache (w : World) : World :=
  { w.deregAll (w.mrCache.map MrCacheEntry.handle) with mrCache := [] }

/-- `ScopedReg::add`; `ok` is what `ibv_reg_mr` answers if it is asked. -/
def add (cap : Nat) (w : World) (ptr bytes : Nat) (ok : Bool) : World :=
  if ptr = 0 ∨ bytes = 0 then w
  else if w.covers ptr bytes then w
  else if cap = 0 then
    if ok then { w.regMr ptr bytes with handles := w.handles ++ [w.now] } else w
  else
    match w.mrCacheGet ptr bytes with
    | some w' => w'
    | none => if ok then mrCachePut cap (w.regMr ptr bytes) ptr bytes w.now else w

/-- The destructor of `ScopedReg`. -/
def finish (w : World) : World := { w.deregAll w.handles with handles := [] }

/-- `scratch.size() < bytes`. -/
def grows (w : World) (bytes : Nat) : Prop := (w.scratch.map Block.len).getD 0 < bytes

instance (w : World) (bytes : Nat) : Decidable (w.grows bytes) :=
  inferInstanceAs (Decidable (_ < _))

/-- `scratchAt`; `addr` is where the heap puts a buffer that has to grow. -/
def scratchAt (w : World) (bytes addr : Nat) (ok : Bool) : World :=
  if w.grows bytes then
    let w := { w.deregAll w.scratchReg.toList with
      scratchReg := none, scratch := some ⟨addr, bytes, w.now⟩, now := w.now + 1 }
    if ok then { w.regMr addr bytes with scratchReg := some w.now } else w
  else w

end World

/-! ## The library's calls -/

/-- What can happen to a world. -/
inductive MemOp where
  | memAlloc (size addr : Nat)
  | memFree (ptr : Nat)
  | commRegister (buff bytes : Nat) (ok : Bool)
  | commDeregister (handle : Nat)
  | add (ptr bytes : Nat) (ok : Bool)
  | scratchAt (bytes addr : Nat) (ok : Bool)
  | use (addr bytes : Nat)
  | finish
  deriving DecidableEq, Repr

/-- `(size + page - 1) / page * page`. -/
def pageAligned (page size : Nat) : Nat := (size + page - 1) / page * page

/-- One operation. A call with invalid arguments changes nothing. -/
def memStep (page cap : Nat) (w : World) : MemOp → World
  | .memAlloc size addr =>
    if size = 0 then w
    else { w with allocs := w.allocs ++ [⟨addr, pageAligned page size, w.now⟩], now := w.now + 1 }
  | .memFree ptr => { w with allocs := w.allocs.eraseP fun b => b.start = ptr }
  | .commRegister buff bytes ok =>
    if buff = 0 ∨ bytes = 0 ∨ ok = false then w
    else { w.regMr buff bytes with registrations := w.registrations ++ [w.now] }
  | .commDeregister handle =>
    if handle ∈ w.registrations then
      let w := w.flushMrCache
      { w.deregMr handle with registrations := w.registrations.erase handle }
    else w
  | .add ptr bytes ok => w.add cap ptr bytes ok
  | .scratchAt bytes addr ok => w.scratchAt bytes addr ok
  | .use addr bytes => w.use addr bytes
  | .finish => w.finish

/-- What the kernel, the heap and the caller promise: new memory overlaps no mapped memory, and
collectives work on mapped memory. -/
def Mapped (page : Nat) (w : World) : MemOp → Prop
  | .memAlloc size addr => ∀ b ∈ w.blocks, ¬ Meets addr (pageAligned page size) b.start b.len
  | .scratchAt bytes addr _ => w.grows bytes → ∀ b ∈ w.blocks, ¬ Meets addr bytes b.start b.len
  | .use addr bytes => 0 < bytes ∧ ∃ b ∈ w.blocks, b.backs addr bytes = true
  | _ => True

/-- No memory is handed out over a live registration. -/
def Unpinned (page : Nat) (w : World) : MemOp → Prop
  | .memAlloc size addr => ∀ r ∈ w.regions, ¬ Meets addr (pageAligned page size) r.start r.len
  | .scratchAt bytes addr _ => w.grows bytes → ∀ r ∈ w.regions, ¬ Meets addr bytes r.start r.len
  | _ => True

instance (page : Nat) (w : World) : (op : MemOp) → Decidable (Mapped page w op)
  | .memAlloc _ _ => inferInstanceAs (Decidable (∀ b ∈ _, _))
  | .scratchAt _ _ _ => inferInstanceAs (Decidable (_ → ∀ b ∈ _, _))
  | .use _ _ => inferInstanceAs (Decidable (_ ∧ ∃ b ∈ _, _))
  | .memFree _ | .commRegister _ _ _ | .commDeregister _ | .add _ _ _ | .finish => .isTrue trivial

instance (page : Nat) (w : World) : (op : MemOp) → Decidable (Unpinned page w op)
  | .memAlloc _ _ => inferInstanceAs (Decidable (∀ r ∈ _, _))
  | .scratchAt _ _ _ => inferInstanceAs (Decidable (_ → ∀ r ∈ _, _))
  | .use _ _ | .memFree _ | .commRegister _ _ _ | .commDeregister _ | .add _ _ _ | .finish =>
    .isTrue trivial

/-- The worlds that runs of operations which all meet `C` lead to. -/
inductive MemReach (page cap : Nat) (C : World → MemOp → Prop) : World → Prop
  | init : MemReach page cap C World.init
  | step {w : World} (op : MemOp) : MemReach page cap C w → C w op →
      MemReach page cap C (memStep page cap w op)

/-- Every operation of a list meets `C` when its turn comes. -/
def Along (page cap : Nat) (C : World → MemOp → Prop) : World → List MemOp → Prop
  | _, [] => True
  | w, op :: ops => C w op ∧ Along page cap C (memStep page cap w op) ops

instance instDecidableAlong (page cap : Nat) (C : World → MemOp → Prop)
    [∀ w op, Decidable (C w op)] :
    (w : World) → (ops : List MemOp) → Decidable (Along page cap C w ops)
  | _, [] => .isTrue trivial
  | w, op :: ops =>
    have := instDecidableAlong page cap C (memStep page cap w op) ops
    inferInstanceAs (Decidable (_ ∧ _))

theorem MemReach.run {page cap : Nat} {C : World → MemOp → Prop} : ∀ {ops : List MemOp} {w : World},
    MemReach page cap C w → Along page cap C w ops →
      MemReach page cap C (ops.foldl (memStep page cap) w)
  | [], _, h, _ => h
  | op :: _, w, h, ha =>
    MemReach.run (w := memStep page cap w op) (h.step op ha.1) ha.2

/-- Every use was served by a registration younger than the memory behind it. -/
def FreshUses (w : World) : Prop := ∀ u ∈ w.uses, u.mem < u.mr

instance (w : World) : Decidable (FreshUses w) := inferInstanceAs (Decidable (∀ u ∈ _, _))

/-! ## Registrations are younger than the memory they pin -/

/-- The invariant: nothing is younger than now, and a live registration is younger than every block
it meets. -/
structure Pinned (w : World) : Prop where
  block : ∀ b ∈ w.blocks, b.birth < w.now
  region : ∀ r ∈ w.regions, r.birth < w.now
  younger : ∀ r ∈ w.regions, ∀ b ∈ w.blocks, Meets b.start b.len r.start r.len → b.birth < r.birth
  uses : FreshUses w

/-- `w'` has lost registrations and nothing else of what `Pinned` looks at. -/
structure Sheds (w w' : World) : Prop where
  regions : w'.regions ⊆ w.regions
  allocs : w'.allocs = w.allocs
  scratch : w'.scratch = w.scratch
  now : w'.now = w.now
  uses : w'.uses = w.uses

theorem Sheds.refl (w : World) : Sheds w w := ⟨fun _ h => h, rfl, rfl, rfl, rfl⟩

theorem Sheds.trans {a b c : World} (h : Sheds a b) (k : Sheds b c) : Sheds a c :=
  ⟨fun _ hx => h.regions (k.regions hx), k.allocs.trans h.allocs, k.scratch.trans h.scratch,
    k.now.trans h.now, k.uses.trans h.uses⟩

theorem Pinned.sheds {w w' : World} (h : Pinned w) (k : Sheds w w') : Pinned w' := by
  have hb : w'.blocks = w.blocks := by rw [World.blocks, World.blocks, k.allocs, k.scratch]
  refine ⟨?_, ?_, ?_, ?_⟩
  · rw [hb, k.now]; exact h.block
  · rw [k.now]; exact fun r hr => h.region r (k.regions hr)
  · rw [hb]; exact fun r hr => h.younger r (k.regions hr)
  · unfold FreshUses; rw [k.uses]; exact h.uses

theorem sheds_deregMr (w : World) (handle : Nat) : Sheds w (w.deregMr handle) :=
  ⟨List.eraseP_subset, rfl, rfl, rfl, rfl⟩

theorem sheds_deregAll : ∀ (handles : List Nat) (w : World), Sheds w (w.deregAll handles)
  | [], w => Sheds.refl w
  | h :: hs, w => (sheds_deregMr w h).trans (sheds_deregAll hs (w.deregMr h))

theorem sheds_flushMrCache (w : World) : Sheds w w.flushMrCache :=
  (sheds_deregAll _ w).trans ⟨fun _ h => h, rfl, rfl, rfl, rfl⟩

theorem sheds_mrCachePut (cap : Nat) (w : World) (addr len handle : Nat) :
    Sheds w (w.mrCachePut cap addr len handle) := by
  have hev : Sheds w w.evict := by
    unfold World.evict
    split
    · exact (sheds_deregMr w _).trans ⟨fun _ h => h, rfl, rfl, rfl, rfl⟩
    · exact Sheds.refl w
  unfold World.mrCachePut
  split
  · exact Sheds.refl w
  · split
    · exact hev.trans ⟨fun _ h => h, rfl, rfl, rfl, rfl⟩
    · exact ⟨fun _ h => h, rfl, rfl, rfl, rfl⟩

/-- A new registration is younger than everything. -/
theorem Pinned.regMr {w : World} (h : Pinned w) (buf bytes : Nat) : Pinned (w.regMr buf bytes) := by
  refine ⟨fun b hb => Nat.lt_succ_of_lt (h.block b hb), fun r hr => ?_, fun r hr b hb hm => ?_,
    h.uses⟩
  · rcases List.mem_append.mp hr with hr | hr
    · exact Nat.lt_succ_of_lt (h.region r hr)
    · rw [List.mem_singleton.mp hr]
      exact Nat.lt_succ_self _
  · rcases List.mem_append.mp hr with hr | hr
    · exact h.younger r hr b hb hm
    · rw [List.mem_singleton.mp hr]
      exact h.block b hb

theorem Pinned.add {w : World} (h : Pinned w) (cap ptr bytes : Nat) (ok : Bool) :
    Pinned (w.add cap ptr bytes ok) := by
  unfold World.add
  split
  · exact h
  split
  · exact h
  split
  · split
    · exact (h.regMr ptr bytes).sheds ⟨fun _ h => h, rfl, rfl, rfl, rfl⟩
    · exact h
  split
  · rename_i w' hw
    obtain ⟨es, -, rfl⟩ := Option.map_eq_some_iff.mp hw
    exact h.sheds ⟨fun _ h => h, rfl, rfl, rfl, rfl⟩
  · split
    · exact (h.regMr ptr bytes).sheds (sheds_mrCachePut cap _ ptr bytes w.now)
    · exact h

/-- New memory that meets no registration. -/
theorem Pinned.map {w w' : World} (h : Pinned w) (addr len : Nat)
    (hblocks : ∀ b ∈ w'.blocks, b ∈ w.blocks ∨ b = ⟨addr, len, w.now⟩)
    (hregions : w'.regions ⊆ w.regions) (hnow : w'.now = w.now + 1) (huses : w'.uses = w.uses)
    (hfree : ∀ r ∈ w.regions, ¬ Meets addr len r.start r.len) : Pinned w' := by
  refine ⟨fun b hb => ?_, fun r hr => ?_, fun r hr b hb hm => ?_, ?_⟩
  · rw [hnow]
    rcases hblocks b hb with hb | rfl
    · exact Nat.lt_succ_of_lt (h.block b hb)
    · exact Nat.lt_succ_self _
  · rw [hnow]
    exact Nat.lt_succ_of_lt (h.region r (hregions hr))
  · rcases hblocks b hb with hb | rfl
    · exact h.younger r (hregions hr) b hb hm
    · exact absurd hm (hfree r (hregions hr))
  · unfold FreshUses
    rw [huses]
    exact h.uses

theorem Pinned.scratchAt {w : World} (h : Pinned w) {bytes addr : Nat} (ok : Bool)
    (hfree : w.grows bytes → ∀ r ∈ w.regions, ¬ Meets addr bytes r.start r.len) :
    Pinned (w.scratchAt bytes addr ok) := by
  unfold World.scratchAt
  split
  · rename_i hg
    have hs := sheds_deregAll w.scratchReg.toList w
    have hmap : Pinned { w.deregAll w.scratchReg.toList with
        scratchReg := none, scratch := some ⟨addr, bytes, w.now⟩, now := w.now + 1 } := by
      refine h.map addr bytes (fun b hb => ?_) hs.regions rfl hs.uses (hfree hg)
      rcases List.mem_append.mp hb with hb | hb
      · refine .inl (List.mem_append.mpr (.inl ?_))
        rwa [← hs.allocs]
      · exact .inr (by simpa using hb)
    split
    · exact (hmap.regMr addr bytes).sheds ⟨fun _ h => h, rfl, rfl, rfl, rfl⟩
    · exact hmap
  · exact h

/-- A range that a block backs and a region covers has bytes of both. -/
theorem meets_of_covers {b : Block} {r : Region} {addr bytes : Nat} (h0 : 0 < bytes)
    (hb : b.backs addr bytes = true) (hr : r.covers addr bytes = true) :
    Meets b.start b.len r.start r.len := by
  simp only [Block.backs, Region.covers, decide_eq_true_eq] at hb hr
  exact ⟨by omega, by omega⟩

theorem Pinned.use {w : World} (h : Pinned w) {addr bytes : Nat} (h0 : 0 < bytes)
    (hmem : ∃ b ∈ w.blocks, b.backs addr bytes = true) : Pinned (w.use addr bytes) := by
  obtain ⟨b, hb⟩ : ∃ b, w.blocks.find? (fun b => b.backs addr bytes) = some b := by
    obtain ⟨b, hb, hbk⟩ := hmem
    exact Option.isSome_iff_exists.mp (List.find?_isSome.mpr ⟨b, hb, hbk⟩)
  have hin := List.mem_of_find?_eq_some hb
  have hbk := List.find?_some hb
  have hfresh : ∀ mr, b.birth < mr →
      ∀ u ∈ w.uses ++ [⟨addr, bytes, mr, b.birth⟩], u.mem < u.mr := by
    intro mr hlt u hu
    rcases List.mem_append.mp hu with hu | hu
    · exact h.uses u hu
    · rw [List.mem_singleton.mp hu]
      exact hlt
  unfold World.use
  rw [hb]
  simp only [Option.map_some, Option.getD_some]
  split
  · rename_i r hr
    have hcov := List.find?_some hr
    exact ⟨h.block, h.region, h.younger, hfresh r.birth
      (h.younger r (List.mem_of_find?_eq_some hr) b hin (meets_of_covers h0 hbk hcov))⟩
  · exact ⟨fun b hb => Nat.lt_succ_of_lt (h.block b hb),
      fun r hr => Nat.lt_succ_of_lt (h.region r hr), h.younger, hfresh w.now (h.block b hin)⟩

/-- One step keeps the invariant. -/
theorem Pinned.step {page cap : Nat} {w : World} (h : Pinned w) {op : MemOp}
    (hmap : Mapped page w op) (hun : Unpinned page w op) : Pinned (memStep page cap w op) := by
  cases op with
  | memAlloc size addr =>
    simp only [memStep]
    split
    · exact h
    · refine h.map addr (pageAligned page size) (fun b hb => ?_) (fun _ h => h) rfl
        rfl hun
      simp only [World.blocks, List.mem_append, List.mem_singleton] at hb ⊢
      rcases hb with (hb | hb) | hb
      · exact .inl (.inl hb)
      · exact .inr hb
      · exact .inl (.inr hb)
  | memFree ptr =>
    have hsub : ∀ b ∈ (memStep page cap w (.memFree ptr)).blocks, b ∈ w.blocks := by
      intro b hb
      rcases List.mem_append.mp hb with hb | hb
      · exact List.mem_append.mpr (.inl (List.eraseP_subset hb))
      · exact List.mem_append.mpr (.inr hb)
    exact ⟨fun b hb => h.block b (hsub b hb), h.region,
      fun r hr b hb => h.younger r hr b (hsub b hb), h.uses⟩
  | commRegister buff bytes ok =>
    simp only [memStep]
    split
    · exact h
    · exact (h.regMr buff bytes).sheds ⟨fun _ h => h, rfl, rfl, rfl, rfl⟩
  | commDeregister handle =>
    simp only [memStep]
    split
    · exact h.sheds ((sheds_flushMrCache w).trans ((sheds_deregMr _ handle).trans
        ⟨fun _ h => h, rfl, rfl, rfl, rfl⟩))
    · exact h
  | add ptr bytes ok => exact h.add cap ptr bytes ok
  | scratchAt bytes addr ok => exact h.scratchAt ok hun
  | use addr bytes => exact h.use hmap.1 hmap.2
  | finish => exact h.sheds ((sheds_deregAll _ w).trans ⟨fun _ h => h, rfl, rfl, rfl, rfl⟩)

theorem pinned_init : Pinned World.init :=
  ⟨by decide, by decide, by decide, by decide⟩

/-- **No stale registration is used** in a run in which no memory is handed out over a live
registration. -/
theorem registrations_fresh (page cap : Nat) (w : World)
    (h : MemReach page cap (fun w op => Mapped page w op ∧ Unpinned page w op) w) :
    FreshUses w := by
  have hp : Pinned w := by
    induction h with
    | init => exact pinned_init
    | step op _ hop ih => exact ih.step hop.1 hop.2
  exact hp.uses

/-- Allocate a page at `addr` and run a collective on it. -/
def allocAndUse (addr : Nat) : List MemOp :=
  [.memAlloc 4096 addr, .add addr 4096 true, .use addr 4096, .finish]

/-- A page at 65536, freed before a page at `addr` is allocated and used. -/
def freeAndReuse (addr : Nat) : World :=
  (allocAndUse 65536 ++ MemOp.memFree 65536 :: allocAndUse addr).foldl (memStep 4096 16) World.init

/-- Two different pages. -/
theorem registrations_fresh_two_pages : FreshUses (freeAndReuse 131072) :=
  registrations_fresh 4096 16 (freeAndReuse 131072) (MemReach.init.run (by decide))

/-- **The same page again**: `vcclMemFree` leaves the cached registration in place, so `covers`
answers yes and the second collective runs on the pages of the first allocation. -/
theorem freed_page_stale :
    MemReach 4096 16 (Mapped 4096) (freeAndReuse 65536) ∧ ¬ FreshUses (freeAndReuse 65536) :=
  ⟨MemReach.init.run (by decide), by decide⟩

end Vccl
