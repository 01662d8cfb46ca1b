import Vccl.VerbsRun

/-!
# What the MR cache evicts (`mrCachePut`, `ScopedReg::add` over verbs)

`ScopedReg::add` asks `covers` before it asks the cache. Over verbs a cached range is a live region,
so `covers` answers for every repeat and `mrCacheGet`, which would stamp the entry, is never reached
with a hit (`mrCacheGet_uncovered`). The stamps are those of the insertions, and the victim is the
entry inserted first (`victim_eq_zero`).

`Ordered` is the invariant of every run in which `covers` tells the truth: each entry has its region,
and the entries stand in the order of their stamps. `Traced` runs also keep the ranges that adds have
used, newest first.

* The oldest entry is the least recently used one as long as only the newest is added again.
* The range of a collective's first `add` can be the one that its second `add` evicts.
-/

namespace Vccl

/-! ## Runs -/

/-- `covers` answers for every live registration. -/
def Candid (s : Registry) : RegOp → Prop
  | .add _ ptr bytes covered _ => covered = s.covers ptr bytes
  | _ => True

instance (s : Registry) : (op : RegOp) → Decidable (Candid s op)
  | .add _ _ _ _ _ => inferInstanceAs (Decidable (_ = _))
  | .commRegister _ _ _ _ _ | .commRegisterDmaBuf _ _ _ _ _ _ | .enter | .leave _
  | .scratchAt _ _ _ | .commDeregister _ => .isTrue trivial

/-- The ranges that adds have used after an operation. -/
def usesAfter (cap : Nat) (s : Registry) (past : List (Nat × Nat)) : RegOp → List (Nat × Nat)
  | .add scope ptr bytes covered answer =>
    if ptr ≠ 0 ∧ bytes ≠ 0 ∧ (s.add cap scope ptr bytes covered answer).1 = .success then
      (ptr, bytes) :: past
    else past
  | _ => past

/-- A communicator over verbs, whose operations all meet `C`, and the ranges used by adds. -/
inductive Traced (cap : Nat) (C : Registry → RegOp → Prop) : Registry → List (Nat × Nat) → Prop
  | init : Traced cap C (Registry.init true) []
  | step {s : Registry} {past : List (Nat × Nat)} (op : RegOp) : Traced cap C s past → Alive s op →
      Candid s op → C s op → Traced cap C (regStep cap s op) (usesAfter cap s past op)

/-- The range of an entry. -/
def MrCacheEntry.range (e : MrCacheEntry) : Nat × Nat := (e.addr, e.len)

/-- The cached ranges. -/
def Registry.cached (s : Registry) : List (Nat × Nat) := s.mrCache.map MrCacheEntry.range

/-- Every entry has its region, and the entries stand in the order of their stamps. -/
structure Ordered (cap : Nat) (s : Registry) : Prop where
  owned : Owned cap s
  transport : s.transport = true
  backed : ∀ e ∈ s.mrCache, ⟨e.addr, e.len, e.handle⟩ ∈ s.regions
  inserted : s.mrCache.Pairwise fun a b => a.seq < b.seq

/-! ## Regions -/

section Regions

variable {cap : Nat} {s : Registry}

/-- `deregMr` takes the region with its handle and no other. -/
theorem mem_eraseP_birth {h : Nat} {r : Region} : ∀ {l : List Region},
    (l.map Region.birth).Nodup → (r ∈ (l.eraseP fun r => r.birth = h) ↔ r ∈ l ∧ r.birth ≠ h)
  | [], _ => by simp
  | x :: l, hnd => by
    rw [List.map_cons, List.nodup_cons] at hnd
    by_cases hx : x.birth = h
    · rw [List.eraseP_cons_of_pos (by simp [hx]), List.mem_cons]
      constructor
      · intro hr
        refine ⟨.inr hr, fun hb => hnd.1 ?_⟩
        rw [hx, ← hb]
        exact List.mem_map_of_mem hr
      · rintro ⟨rfl | hr, hb⟩
        · exact absurd hx hb
        · exact hr
    · rw [List.eraseP_cons_of_neg (by simp [hx]), List.mem_cons, mem_eraseP_birth hnd.2,
        List.mem_cons]
      constructor
      · rintro (rfl | ⟨hr, hb⟩)
        · exact ⟨.inl rfl, hx⟩
        · exact ⟨.inr hr, hb⟩
      · rintro ⟨rfl | hr, hb⟩
        · exact .inl rfl
        · exact .inr ⟨hr, hb⟩

theorem mem_deregMr (hnd : s.live.Nodup) {h : Nat} {r : Region} :
    r ∈ (s.deregMr h).regions ↔ r ∈ s.regions ∧ r.birth ≠ h := mem_eraseP_birth hnd

theorem mem_deregAll : ∀ {handles : List Nat} {s : Registry}, s.live.Nodup → ∀ {r : Region},
    r ∈ (s.deregAll handles).regions ↔ r ∈ s.regions ∧ r.birth ∉ handles
  | [], _, _, r => by simp [Registry.deregAll]
  | h :: hs, s, hnd, r => by
    have hnd' : (s.deregMr h).live.Nodup := by
      rw [live_deregMr]
      exact hnd.erase h
    show r ∈ ((s.deregMr h).deregAll hs).regions ↔ _
    rw [mem_deregAll hnd', mem_deregMr hnd, List.mem_cons, not_or, and_assoc]

theorem mem_regMr {buf bytes : Nat} {r : Region} :
    r ∈ (s.regMr buf bytes).regions ↔ r ∈ s.regions ∨ r = ⟨buf, bytes, s.issued⟩ := by
  show r ∈ s.regions ++ [_] ↔ _
  rw [List.mem_append, List.mem_singleton]

theorem covers_iff {addr bytes : Nat} :
    s.covers addr bytes = true ↔ ∃ r ∈ s.regions, r.covers addr bytes = true := List.any_eq_true

theorem region_covers_iff {r : Region} {addr bytes : Nat} :
    r.covers addr bytes = true ↔ r.start ≤ addr ∧ addr + bytes ≤ r.start + r.len := by
  rw [Region.covers, decide_eq_true_eq]

namespace Owned

variable (h : Owned cap s)
include h

theorem live_nodup : s.live.Nodup := (List.nodup_append.mp h.ledger.nodup).1

theorem owned_nodup : s.owned.Nodup := h.ledger.live.nodup_iff.mp h.live_nodup

/-- A handle that some owner has was given out. -/
theorem lt_issued {x : Nat} (hx : x ∈ s.owned) : x < s.issued :=
  List.mem_range.mp (h.ledger.issued.subset (List.mem_append_left _ (h.ledger.live.symm.subset hx)))

theorem birth_lt {r : Region} (hr : r ∈ s.regions) : r.birth < s.issued :=
  h.lt_issued (h.ledger.live.subset (List.mem_map_of_mem hr))

/-- A cached handle has no other owner. -/
theorem cached_not_other {e : MrCacheEntry} (he : e ∈ s.mrCache) : e.handle ∉ s.others := by
  have hnd := h.owned_nodup
  rw [owned_eq, List.nodup_append] at hnd
  exact fun ho => hnd.2.2 _ (List.mem_map_of_mem he) _ ho rfl

theorem handles_nodup : (s.mrCache.map MrCacheEntry.handle).Nodup := by
  have hnd := h.owned_nodup
  rw [owned_eq, List.nodup_append] at hnd
  exact hnd.1

end Owned

end Regions

/-! ## The victim -/

/-- In the order of their stamps the first entry is the oldest. -/
theorem victim_eq_zero {es : List MrCacheEntry} (h : es.Pairwise fun a b => a.seq < b.seq) :
    World.victim es = 0 := by
  cases es with
  | nil => rfl
  | cons e es =>
    unfold World.victim
    suffices key : ∀ (f : Nat → Nat) (l : List Nat), (∀ i ∈ l, f 0 ≤ f i) →
        l.foldl (fun v i => if f i < f v then i else v) 0 = 0 by
      refine key _ _ fun i hi => ?_
      have hlt := List.mem_range'_1.mp hi
      rw [List.length_cons, Nat.add_sub_cancel] at hlt
      obtain ⟨j, rfl⟩ : ∃ j, i = j + 1 := ⟨i - 1, by omega⟩
      have hj : j < es.length := by omega
      simp only [List.getElem?_cons_zero, List.getElem?_cons_succ, Option.map_some, Option.getD_some,
        List.getElem?_eq_getElem hj]
      exact Nat.le_of_lt ((List.pairwise_cons.mp h).1 _ (List.getElem_mem hj))
    intro f l
    induction l with
    | nil => intro _; rfl
    | cons i l ih =>
      intro hl
      rw [List.foldl_cons, if_neg (Nat.not_lt.mpr (hl i List.mem_cons_self))]
      exact ih fun j hj => hl j (List.mem_cons_of_mem _ hj)

/-- A hit is of the very range. -/
theorem hit_mem {addr len stamp : Nat} : ∀ {es es' : List MrCacheEntry},
    World.hit addr len stamp es = some es' → (addr, len) ∈ es.map MrCacheEntry.range
  | [], _, h => by cases h
  | e :: es, es', h => by
    unfold World.hit at h
    split at h
    · rename_i he
      rw [List.map_cons, MrCacheEntry.range, he.1, he.2]
      exact List.mem_cons_self
    · obtain ⟨es₁, h₁, -⟩ := Option.map_eq_some_iff.mp h
      exact List.mem_cons_of_mem _ (hit_mem h₁)

/-! ## What one operation does -/

section Steps

variable {cap : Nat} {s : Registry}

/-- A cached range is covered by its own region. -/
theorem Ordered.covers_cached (h : Ordered cap s) {ptr bytes : Nat} (hc : (ptr, bytes) ∈ s.cached) :
    s.covers ptr bytes = true := by
  obtain ⟨e, he, heq⟩ := List.mem_map.mp hc
  obtain ⟨rfl, rfl⟩ := Prod.mk.inj heq
  exact covers_iff.mpr ⟨_, h.backed e he, region_covers_iff.mpr ⟨Nat.le_refl _, Nat.le_refl _⟩⟩

/-- What `covers` does not answer for is not in the cache. -/
theorem mrCacheGet_uncovered (h : Ordered cap s) {ptr bytes : Nat}
    (hcov : s.covers ptr bytes = false) : s.mrCacheGet ptr bytes = none := by
  refine Option.map_eq_none_iff.mpr ?_
  cases hhit : World.hit ptr bytes (s.mrClock + 1) s.mrCache with
  | none => rfl
  | some es =>
    rw [h.covers_cached (hit_mem hhit)] at hcov
    cases hcov

/-- The cache after room was made for an entry. -/
def Registry.kept (cap : Nat) (s : Registry) : List MrCacheEntry :=
  if cap ≤ s.mrCache.length then s.mrCache.tail else s.mrCache

/-- The handle that makes room. -/
def Registry.evicted (cap : Nat) (s : Registry) : List Nat :=
  if cap ≤ s.mrCache.length then (s.mrCache.head?.map MrCacheEntry.handle).toList else []

/-- **A new range.** The entry inserted first goes if the cache is full, with its region. -/
theorem mrCachePut_spec (h : Ordered cap s) (hcap : 0 < cap) (ptr bytes : Nat) :
    ∃ regions deregs, (s.regMr ptr bytes).mrCachePut cap ptr bytes s.issued =
      { s with
        regions := regions, issued := s.issued + 1, deregs := deregs,
        mrCache := s.kept cap ++ [⟨ptr, bytes, s.issued, s.mrClock + 1⟩], mrClock := s.mrClock + 1 } ∧
      ∀ r, r ∈ regions ↔ r = ⟨ptr, bytes, s.issued⟩ ∨ r ∈ s.regions ∧ r.birth ∉ s.evicted cap := by
  have hcache : (s.regMr ptr bytes).mrCache = s.mrCache := rfl
  unfold Registry.mrCachePut Registry.kept Registry.evicted
  rw [if_neg (by omega), hcache]
  by_cases hfull : cap ≤ s.mrCache.length
  · simp only [if_pos hfull]
    cases hes : s.mrCache with
    | nil => rw [hes] at hfull; exact absurd hfull (by simp; omega)
    | cons e es =>
      have hvictim : World.victim s.mrCache = 0 := victim_eq_zero h.inserted
      have hnew : e.handle ≠ s.issued := by
        have := h.owned.lt_issued (x := e.handle) (by
          rw [owned_eq, hes]
          exact List.mem_append_left _ List.mem_cons_self)
        omega
      have hnd : (s.regMr ptr bytes).live.Nodup := by
        rw [live_regMr]
        refine List.nodup_append.mpr ⟨h.owned.live_nodup, List.nodup_singleton _, ?_⟩
        intro x hx y hy heq
        have := h.owned.lt_issued (h.owned.ledger.live.subset hx)
        rw [List.mem_singleton] at hy
        omega
      have hev : (s.regMr ptr bytes).evict =
          { (s.regMr ptr bytes).deregMr e.handle with mrCache := es } := by
        unfold Registry.evict
        rw [hcache, hvictim, hes]
        rfl
      rw [hev]
      refine ⟨_, _, rfl, fun r => ?_⟩
      rw [mem_deregMr hnd, mem_regMr]
      simp only [List.head?_cons, Option.map_some, Option.toList_some, List.mem_singleton]
      constructor
      · rintro ⟨hr | rfl, hb⟩
        · exact .inr ⟨hr, hb⟩
        · exact .inl rfl
      · rintro (rfl | ⟨hr, hb⟩)
        · exact ⟨.inr rfl, fun heq => hnew heq.symm⟩
        · exact ⟨.inl hr, hb⟩
  · simp only [if_neg hfull]
    refine ⟨_, _, rfl, fun r => ?_⟩
    rw [mem_regMr]
    simp only [List.not_mem_nil, not_false_eq_true, and_true]
    exact or_comm

/-- Over verbs, with a cache. -/
theorem add_eq (h : Ordered cap s) (hcap : 0 < cap) (scope ptr bytes : Nat) (answer : Result) :
    s.add cap scope ptr bytes (s.covers ptr bytes) answer =
      if ptr = 0 ∨ bytes = 0 ∨ s.covers ptr bytes = true then (.success, s)
      else if answer = .success then
        (.success, (s.regMr ptr bytes).mrCachePut cap ptr bytes s.issued)
      else (answer, s) := by
  unfold Registry.add
  rw [h.transport]
  by_cases hnull : ptr = 0 ∨ bytes = 0
  · rw [if_pos (.inr hnull), if_pos (hnull.imp_right .inl)]
  rw [if_neg (by simpa using hnull)]
  by_cases hcov : s.covers ptr bytes = true
  · rw [if_pos hcov, if_pos (.inr (.inr hcov))]
  · have hnew : ¬ (ptr = 0 ∨ bytes = 0 ∨ s.covers ptr bytes = true) := by
      rintro (hp | hb | hc)
      · exact hnull (.inl hp)
      · exact hnull (.inr hb)
      · exact hcov hc
    rw [if_neg hcov, if_pos hcap, mrCacheGet_uncovered h (Bool.eq_false_iff.mpr hcov), if_neg hnew]

/-- An operation that leaves the cache and the cached regions alone. -/
theorem Ordered.frame (h : Ordered cap s) {t : Registry} (ht : Owned cap t)
    (htransport : t.transport = true) (hcache : t.mrCache = s.mrCache)
    (hregions : ∀ r ∈ s.regions, r.birth ∉ s.others → r ∈ t.regions) : Ordered cap t := by
  refine ⟨ht, htransport, ?_, ?_⟩
  · rw [hcache]
    exact fun e he => hregions _ (h.backed e he) (h.owned.cached_not_other he)
  · rw [hcache]
    exact h.inserted

theorem Ordered.put (h : Ordered cap s) (hcap : 0 < cap) {ptr bytes : Nat}
    (hcov : s.covers ptr bytes = false) :
    Ordered cap ((s.regMr ptr bytes).mrCachePut cap ptr bytes s.issued) := by
  have howned : Owned cap ((s.regMr ptr bytes).mrCachePut cap ptr bytes s.issued) :=
    h.owned.mrCachePut hcap
    (hit_none (Option.map_eq_none_iff.mp (mrCacheGet_uncovered h hcov)))
  obtain ⟨regions, deregs, heq, hmem⟩ := mrCachePut_spec h hcap ptr bytes
  rw [heq] at howned ⊢
  have hkept : ∀ e ∈ s.kept cap, e ∈ s.mrCache ∧ e.handle ∉ s.evicted cap := by
    have hnd := h.owned.handles_nodup
    unfold Registry.kept Registry.evicted
    intro e he
    split at he
    · rename_i hfull
      rw [if_pos hfull]
      cases hes : s.mrCache with
      | nil => rw [hes] at he; exact absurd he List.not_mem_nil
      | cons e₀ es =>
        rw [hes] at he hnd
        rw [List.map_cons, List.nodup_cons] at hnd
        simp only [List.head?_cons, Option.map_some, Option.toList_some, List.mem_singleton]
        refine ⟨List.mem_cons_of_mem _ he, fun heq => hnd.1 ?_⟩
        rw [← heq]
        exact List.mem_map_of_mem he
    · rename_i hfull
      rw [if_neg hfull]
      exact ⟨he, List.not_mem_nil⟩
  refine ⟨howned, h.transport, fun e he => ?_, ?_⟩
  · rcases List.mem_append.mp he with he | he
    · obtain ⟨hc, hh⟩ := hkept e he
      exact (hmem _).mpr (.inr ⟨h.backed e hc, hh⟩)
    · rw [List.mem_singleton.mp he]
      exact (hmem _).mpr (.inl rfl)
  · have hsub : (s.kept cap).Sublist s.mrCache := by
      unfold Registry.kept
      split
      · exact List.tail_sublist _
      · exact List.Sublist.refl _
    refine List.pairwise_append.mpr ⟨h.inserted.sublist hsub, List.pairwise_singleton _ _, ?_⟩
    intro e he e' he'
    rw [List.mem_singleton.mp he']
    exact Nat.lt_succ_of_le (h.owned.cache.clock e (hkept e he).1)

theorem Ordered.addCached (h : Ordered cap s) (hcap : 0 < cap) (scope ptr bytes : Nat)
    (answer : Result) : Ordered cap (s.add cap scope ptr bytes (s.covers ptr bytes) answer).2 := by
  rw [add_eq h hcap]
  split
  · exact h
  · rename_i hnew
    split
    · exact h.put hcap (Bool.eq_false_iff.mpr fun hc => hnew (.inr (.inr hc)))
    · exact h

theorem Ordered.add (h : Ordered cap s) {scope : Nat} (hscope : scope < s.scopes.length)
    (ptr bytes : Nat) (answer : Result) :
    Ordered cap (s.add cap scope ptr bytes (s.covers ptr bytes) answer).2 := by
  rcases Nat.eq_zero_or_pos cap with rfl | hcap
  · -- nothing is ever cached
    have howned := h.owned.add hscope ptr bytes (s.covers ptr bytes) answer
    revert howned
    unfold Registry.add
    rw [if_neg (Nat.lt_irrefl 0)]
    split
    · exact fun _ => h
    split
    · exact fun _ => h
    split
    · exact fun howned => h.frame howned h.transport rfl fun r hr _ => mem_regMr.mpr (.inl hr)
    · exact fun _ => h
  · exact h.addCached hcap scope ptr bytes answer

theorem Ordered.leave (h : Ordered cap s) (scope : Nat) : Ordered cap (s.leave scope) := by
  refine h.frame (h.owned.leave scope) ?_ ?_ fun r hr ho => ?_
  · unfold Registry.leave
    rw [deregAll_eq]
    exact h.transport
  · unfold Registry.leave
    rw [deregAll_eq]
  · refine (mem_deregAll h.owned.live_nodup).mpr ⟨hr, fun hm => ho ?_⟩
    cases hs : s.scopes[scope]? with
    | none => rw [hs] at hm; exact absurd hm List.not_mem_nil
    | some l =>
      rw [hs] at hm
      exact List.mem_append_right _ (List.mem_append_right _
        (List.mem_flatten.mpr ⟨l, List.mem_of_getElem? hs, hm⟩))

/-- Growing scratch takes the region of the old one and no other. -/
theorem scratchAt_regions (h : Ordered cap s) {bytes addr : Nat} {answer : Result} {r : Region}
    (hr : r ∈ s.regions) (hb : s.scratchRegHandle ≠ some r.birth) :
    r ∈ (s.scratchAt bytes addr answer).regions := by
  have hkeep : r ∈ (s.deregAll s.scratchRegHandle.toList).regions := by
    refine (mem_deregAll h.owned.live_nodup).mpr ⟨hr, fun hm => hb ?_⟩
    exact Option.mem_toList.mp hm
  unfold Registry.scratchAt
  split
  · simp only
    split
    · exact List.mem_append_left _ hkeep
    · exact hkeep
  · exact hr

theorem Ordered.scratchAt (h : Ordered cap s) (bytes addr : Nat) (answer : Result) :
    Ordered cap (s.scratchAt bytes addr answer) := by
  refine h.frame (h.owned.scratchAt bytes addr answer) ?_ ?_ fun r hr ho => ?_
  · unfold Registry.scratchAt
    rw [deregAll_eq]
    split
    · simp only
      split
      · exact h.transport
      · exact h.transport
    · exact h.transport
  · unfold Registry.scratchAt
    rw [deregAll_eq]
    split
    · simp only
      split
      · rfl
      · rfl
    · rfl
  · refine scratchAt_regions h hr fun hb => ho ?_
    refine List.mem_append_right _ (List.mem_append_left _ ?_)
    rw [hb]
    exact List.mem_singleton_self _

theorem Ordered.keep (h : Ordered cap s) (self addr bytes : Nat) (mapped : Option Nat) :
    Ordered cap (s.keep self addr bytes mapped) := by
  refine h.frame (h.owned.keep self addr bytes mapped) ?_ ?_ fun r hr _ => ?_
  all_goals unfold Registry.keep; rw [if_pos h.transport]
  · exact h.transport
  · rfl
  · exact mem_regMr.mpr (.inl hr)

theorem Ordered.commDeregister (h : Ordered cap s) (handle : Nat) :
    Ordered cap (s.commDeregister handle).2 := by
  have howned := h.owned.commDeregister handle
  revert howned
  unfold Registry.commDeregister
  split
  · exact fun _ => h
  split
  · exact fun _ => h
  · intro howned
    unfold Registry.flushMrCache at howned ⊢
    simp only at howned ⊢
    rw [deregAll_eq, deregAll_eq] at howned ⊢
    exact ⟨howned, h.transport, fun e he => absurd he List.not_mem_nil, .nil⟩

/-- **Every operation keeps the entries backed and in order.** -/
theorem Ordered.step (h : Ordered cap s) {op : RegOp} (hop : Alive s op) (hc : Candid s op) :
    Ordered cap (regStep cap s op) := by
  cases op with
  | enter =>
    exact h.frame (h.owned.step (show Alive s .enter from trivial)) h.transport rfl fun r hr _ => hr
  | add scope ptr bytes covered answer =>
    obtain rfl : covered = s.covers ptr bytes := hc
    exact h.add hop ptr bytes answer
  | leave scope => exact h.leave scope
  | scratchAt bytes addr answer => exact h.scratchAt bytes addr answer
  | commRegister buff bytes out self answer =>
    simp only [regStep, Registry.commRegister]
    split
    · exact h
    split
    · exact h
    · exact h.keep self buff bytes none
  | commRegisterDmaBuf fd bytes out mapped self answer =>
    simp only [regStep, Registry.commRegisterDmaBuf]
    split
    · exact h
    split
    · exact h
    split
    · exact h
    · exact h.keep self _ bytes _
  | commDeregister handle => exact h.commDeregister handle

end Steps

theorem ordered_init (cap : Nat) : Ordered cap (Registry.init true) :=
  ⟨owned_init true cap, rfl, fun _ he => absurd he List.not_mem_nil, .nil⟩

theorem Traced.ordered {cap : Nat} {C : Registry → RegOp → Prop} {s : Registry}
    {past : List (Nat × Nat)} (h : Traced cap C s past) : Ordered cap s := by
  induction h with
  | init => exact ordered_init cap
  | step op _ hop hc _ ih => exact ih.step hop hc

/-! ## Recency -/

/-- The ranges stand in the order of their last use, the least recent first. -/
def Recent (past keys : List (Nat × Nat)) : Prop :=
  keys.Pairwise fun a b => past.idxOf b < past.idxOf a

section Recent

variable {past keys : List (Nat × Nat)} {k : Nat × Nat}

theorem idxOf_cons_succ {a : Nat × Nat} (h : k ≠ a) : (k :: past).idxOf a = past.idxOf a + 1 :=
  List.idxOf_cons_ne _ h

/-- The use of some other range changes no order. -/
theorem Recent.other (h : Recent past keys) (hk : k ∉ keys) : Recent (k :: past) keys := by
  refine List.Pairwise.imp_of_mem (fun {a b} ha hb hab => ?_) h
  have hka : k ≠ a := fun heq => hk (heq ▸ ha)
  have hkb : k ≠ b := fun heq => hk (heq ▸ hb)
  rw [idxOf_cons_succ hka, idxOf_cons_succ hkb]
  exact Nat.succ_lt_succ hab

/-- The range used last stands last. -/
theorem Recent.push (h : Recent past keys) (hk : k ∉ keys) : Recent (k :: past) (keys ++ [k]) := by
  refine List.pairwise_append.mpr ⟨h.other hk, List.pairwise_singleton _ _, fun a ha b hb => ?_⟩
  have hka : k ≠ a := fun heq => hk (heq ▸ ha)
  rw [List.mem_singleton.mp hb, List.idxOf_cons_self, idxOf_cons_succ hka]
  exact Nat.succ_pos _

/-- To use the last one again changes no order. -/
theorem Recent.again (h : Recent past keys) (hnd : keys.Nodup) (hlast : keys.getLast? = some k) :
    Recent (k :: past) keys := by
  obtain ⟨rest, rfl⟩ := List.getLast?_eq_some_iff.mp hlast
  have hk : k ∉ rest := fun hm => (List.nodup_append.mp hnd).2.2 k hm k (List.mem_singleton_self k) rfl
  exact Recent.push (List.pairwise_append.mp h).1 hk

end Recent

/-- An add of a cached range is of the one that was inserted last. -/
def RepeatsNewest (s : Registry) : RegOp → Prop
  | .add _ ptr bytes _ _ => (ptr, bytes) ∈ s.cached → s.cached.getLast? = some (ptr, bytes)
  | _ => True

instance (s : Registry) : (op : RegOp) → Decidable (RepeatsNewest s op)
  | .add _ _ _ _ _ => inferInstanceAs (Decidable (_ → _))
  | .commRegister _ _ _ _ _ | .commRegisterDmaBuf _ _ _ _ _ _ | .enter | .leave _
  | .scratchAt _ _ _ | .commDeregister _ => .isTrue trivial

/-- Whatever a step drops from the cache is the range whose last use is the oldest. -/
def EvictsOldest (past : List (Nat × Nat)) (s t : Registry) : Prop :=
  ∀ v ∈ s.cached, v ∉ t.cached → ∀ k ∈ s.cached, past.idxOf k ≤ past.idxOf v

instance (past : List (Nat × Nat)) (s t : Registry) : Decidable (EvictsOldest past s t) :=
  inferInstanceAs (Decidable (∀ v ∈ _, _ → ∀ k ∈ _, _))

section Evictions

variable {cap : Nat} {s : Registry} {past : List (Nat × Nat)}

/-- The cache after an add of a new range. -/
theorem cached_put (h : Ordered cap s) (hcap : 0 < cap) (ptr bytes : Nat) :
    ((s.regMr ptr bytes).mrCachePut cap ptr bytes s.issued).cached =
      (if cap ≤ s.mrCache.length then s.cached.tail else s.cached) ++ [(ptr, bytes)] := by
  obtain ⟨regions, deregs, heq, -⟩ := mrCachePut_spec h hcap ptr bytes
  rw [heq]
  show (s.kept cap ++ [_]).map MrCacheEntry.range = _
  rw [List.map_append]
  unfold Registry.kept Registry.cached
  split
  · rw [List.map_tail]
    rfl
  · rfl

theorem Ordered.no_cache (h : Ordered 0 s) : s.cached = [] := by
  have := h.owned.cache.size
  rw [Registry.cached, List.eq_nil_of_length_eq_zero (by omega : s.mrCache.length = 0)]
  rfl

/-- An add of a range that is not null has used it, if it succeeds. -/
theorem usesAfter_add {scope ptr bytes : Nat} {covered : Bool} {answer : Result}
    (hptr : ptr ≠ 0) (hbytes : bytes ≠ 0)
    (hok : (s.add cap scope ptr bytes covered answer).1 = .success) :
    usesAfter cap s past (.add scope ptr bytes covered answer) = (ptr, bytes) :: past :=
  if_pos ⟨hptr, hbytes, hok⟩

/-- **One step keeps the order of the entries that of their last uses.** -/
theorem recent_step (h : Ordered cap s) (hr : Recent past s.cached) {op : RegOp} (hc : Candid s op)
    (hn : RepeatsNewest s op) (hop : Alive s op) :
    Recent (usesAfter cap s past op) (regStep cap s op).cached := by
  have hnd : s.cached.Nodup := h.owned.cache.keys
  have hsame : ∀ t : Registry, t.mrCache = s.mrCache → Recent past t.cached := by
    intro t ht
    rwa [Registry.cached, ht]
  cases op with
  | enter => exact hsame _ rfl
  | leave scope =>
    refine hsame _ ?_
    simp only [regStep, Registry.leave]
    rw [deregAll_eq]
  | scratchAt bytes addr answer =>
    refine hsame _ ?_
    simp only [regStep, Registry.scratchAt]
    rw [deregAll_eq]
    split
    · split
      · rfl
      · rfl
    · rfl
  | commRegister buff bytes out self answer =>
    refine hsame _ ?_
    simp only [regStep, Registry.commRegister, Registry.keep]
    split
    · rfl
    split
    · rfl
    split
    · rfl
    · rfl
  | commRegisterDmaBuf fd bytes out mapped self answer =>
    refine hsame _ ?_
    simp only [regStep, Registry.commRegisterDmaBuf, Registry.keep]
    split
    · rfl
    split
    · rfl
    split
    · rfl
    split
    · rfl
    · rfl
  | commDeregister handle =>
    simp only [regStep, Registry.commDeregister]
    split
    · exact hr
    split
    · exact hr
    · unfold Registry.flushMrCache
      simp only
      rw [deregAll_eq]
      exact .nil
  | add scope ptr bytes covered answer =>
    obtain rfl : covered = s.covers ptr bytes := hc
    rcases Nat.eq_zero_or_pos cap with rfl | hcap
    · have hempty : Ordered 0 (regStep 0 s (.add scope ptr bytes (s.covers ptr bytes) answer)) :=
        h.step hop rfl
      rw [hempty.no_cache]
      exact .nil
    by_cases hnull : ptr = 0 ∨ bytes = 0
    · have hadd := add_eq h hcap scope ptr bytes answer
      rw [if_pos (hnull.imp_right .inl)] at hadd
      have huse : usesAfter cap s past (.add scope ptr bytes (s.covers ptr bytes) answer) = past := by
        refine if_neg ?_
        rintro ⟨hp, hb, -⟩
        exact hnull.elim hp hb
      rw [huse]
      simp only [regStep, hadd]
      exact hr
    obtain ⟨hptr, hbytes⟩ := not_or.mp hnull
    have hadd := add_eq h hcap scope ptr bytes answer
    by_cases hcov : s.covers ptr bytes = true
    · -- a reuse is not stamped
      rw [if_pos (.inr (.inr hcov))] at hadd
      rw [usesAfter_add hptr hbytes (by rw [hadd])]
      simp only [regStep, hadd]
      by_cases hmem : (ptr, bytes) ∈ s.cached
      · exact hr.again hnd (hn hmem)
      · exact hr.other hmem
    · have hnew : ¬ (ptr = 0 ∨ bytes = 0 ∨ s.covers ptr bytes = true) := by
        rintro (hp | hb | hc)
        · exact hptr hp
        · exact hbytes hb
        · exact hcov hc
      have hkey : (ptr, bytes) ∉ s.cached := fun hm => hcov (h.covers_cached hm)
      rw [if_neg hnew] at hadd
      by_cases hok : answer = .success
      · rw [if_pos hok] at hadd
        rw [usesAfter_add hptr hbytes (by rw [hadd])]
        simp only [regStep, hadd]
        rw [cached_put h hcap]
        split
        · exact Recent.push (List.Pairwise.sublist (List.tail_sublist _) hr)
            fun hm => hkey (List.mem_of_mem_tail hm)
        · exact hr.push hkey
      · rw [if_neg hok] at hadd
        have huse : usesAfter cap s past (.add scope ptr bytes (s.covers ptr bytes) answer) = past := by
          refine if_neg ?_
          rintro ⟨-, -, hs⟩
          rw [hadd] at hs
          exact hok hs
        rw [huse]
        simp only [regStep, hadd]
        exact hr

theorem Traced.recent (h : Traced cap RepeatsNewest s past) : Recent past s.cached := by
  induction h with
  | init => exact .nil
  | step op hs hop hc hn ih => exact recent_step hs.ordered ih hc hn hop

/-- An add drops the entry inserted first or none. -/
theorem dropped_eq_head (h : Ordered cap s) {scope ptr bytes : Nat} {answer : Result} {v : Nat × Nat} (hv : v ∈ s.cached)
    (hdrop : v ∉ (s.add cap scope ptr bytes (s.covers ptr bytes) answer).2.cached) :
    s.cached.head? = some v := by
  rcases Nat.eq_zero_or_pos cap with rfl | hcap
  · rw [h.no_cache] at hv
    exact absurd hv List.not_mem_nil
  rw [add_eq h hcap] at hdrop
  split at hdrop
  · exact absurd hv hdrop
  split at hdrop
  · simp only at hdrop
    rw [cached_put h hcap, List.mem_append, not_or] at hdrop
    have hout := hdrop.1
    split at hout
    · cases hes : s.cached with
      | nil => rw [hes] at hv; exact absurd hv List.not_mem_nil
      | cons k keys =>
        rw [hes] at hv hout
        rcases List.mem_cons.mp hv with rfl | hv
        · rfl
        · exact absurd hv hout
    · exact absurd hv hout
  · exact absurd hv hdrop

end Evictions

/-- **Least recently used, as long as only the newest range is added again.** The stamps are those of
the insertions; they are those of the last uses while no add repeats a cached range other than the
one inserted last. -/
theorem evicts_least_recent (cap : Nat) (s : Registry) (past : List (Nat × Nat))
    (h : Traced cap RepeatsNewest s past) (scope ptr bytes : Nat) (answer : Result) :
    EvictsOldest past s (regStep cap s (.add scope ptr bytes (s.covers ptr bytes) answer)) := by
  intro v hv hdrop k hk
  have hhead := dropped_eq_head h.ordered hv hdrop
  have hrec := h.recent
  cases hes : s.cached with
  | nil => rw [hes] at hv; exact absurd hv List.not_mem_nil
  | cons v' keys =>
    rw [hes] at hhead hk hrec
    obtain rfl : v' = v := Option.some.inj hhead
    rcases List.mem_cons.mp hk with rfl | hk
    · exact Nat.le_refl _
    · exact Nat.le_of_lt ((List.pairwise_cons.mp hrec).1 k hk)

/-- The registry and the ranges used after some adds through one `ScopedReg`, of 64 bytes each. -/
def addRun (cap : Nat) (addrs : List Nat) : Registry × List (Nat × Nat) :=
  addrs.foldl (fun sp addr =>
    let op := RegOp.add 0 addr 64 (sp.1.covers addr 64) .success
    (regStep cap sp.1 op, usesAfter cap sp.1 sp.2 op)) (regStep cap (Registry.init true) .enter, [])

theorem evicts_least_recent_newest :
    EvictsOldest (addRun 2 [4096, 8192, 8192]).2 (addRun 2 [4096, 8192, 8192]).1
      (regStep 2 (addRun 2 [4096, 8192, 8192]).1
        (.add 0 12288 64 ((addRun 2 [4096, 8192, 8192]).1.covers 12288 64) .success)) ∧
    (addRun 2 [4096, 8192, 8192, 12288]).1.cached = [(8192, 64), (12288, 64)] :=
  ⟨evicts_least_recent 2 _ _
    ((((Traced.init.step .enter trivial trivial trivial).step (.add 0 4096 64 false .success)
      (by decide) (by decide) (by decide)).step (.add 0 8192 64 false .success) (by decide) (by decide)
      (by decide)).step (.add 0 8192 64 true .success) (by decide) (by decide) (by decide))
    0 12288 64 .success, by decide⟩

/-- **The first range is used again and evicted all the same**: the third add stops at `covers`. -/
theorem reused_range_evicted :
    Traced 2 (fun _ _ => True) (addRun 2 [4096, 8192, 4096]).1 (addRun 2 [4096, 8192, 4096]).2 ∧
    ¬ EvictsOldest (addRun 2 [4096, 8192, 4096]).2 (addRun 2 [4096, 8192, 4096]).1
      (regStep 2 (addRun 2 [4096, 8192, 4096]).1
        (.add 0 12288 64 ((addRun 2 [4096, 8192, 4096]).1.covers 12288 64) .success)) :=
  ⟨(((Traced.init.step .enter trivial trivial trivial).step (.add 0 4096 64 false .success)
      (by decide) (by decide) trivial).step (.add 0 8192 64 false .success) (by decide) (by decide)
      trivial).step (.add 0 4096 64 true .success) (by decide) (by decide) trivial, by decide⟩

end Vccl
