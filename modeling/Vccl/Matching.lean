import Vccl.AllReduce
import Vccl.Net.Rendezvous

/-!
# Collectives match and do not deadlock

`Collective` is a call of one of the collectives with the arguments of all ranks; `Collective.calls`
is what a rank does (`collectives.cc`). Every collective has a schedule (`Collective.plan`,
`schedule_collective`), its exchanges are the slots of the schedule (`exchanges_calls`), and
schedules of successive collectives are joined (`seqPlan`). From that:

* the non-empty messages `p` sends to `q` and those `q` receives from `p` have the same sizes, in
  order;
* under rendezvous some rank can always move until all have finished.
-/

namespace Vccl

open Net (wp)

/-! ## The exchanges of a list of calls -/

/-- The halves of a call that waits for messages. An empty `send` or `recv` returns at once. -/
def Call.halves : Call → Option (Option (Nat × Nat) × Option (Nat × Nat))
  | .send peer _ bytes => if bytes = 0 then none else some (part peer bytes, none)
  | .recv peer _ bytes => if bytes = 0 then none else some (none, part peer bytes)
  | .sendRecv sp _ sn rp _ rn => some (part sp sn, part rp rn)
  | _ => none

/-- The exchanges of a list of calls. -/
def exchanges (calls : List Call) : List (Option (Nat × Nat) × Option (Nat × Nat)) :=
  calls.filterMap Call.halves

/-- The halves of a slot. -/
def Slot.halves (s : Slot) : Option (Nat × Nat) × Option (Nat × Nat) := (s.out, s.inn)

@[simp] theorem exchanges_nil : exchanges [] = [] := rfl

@[simp] theorem exchanges_append (a b : List Call) : exchanges (a ++ b) = exchanges a ++ exchanges b :=
  List.filterMap_append

@[simp] theorem exchanges_cons (c : Call) (k : List Call) :
    exchanges (c :: k) = c.halves.toList ++ exchanges k := by
  unfold exchanges
  rw [List.filterMap_cons]
  cases c.halves <;> rfl

@[simp] theorem exchanges_ite {p : Prop} [Decidable p] (a b : List Call) :
    exchanges (if p then a else b) = if p then exchanges a else exchanges b := by
  split <;> rfl

theorem rounds_halves (t N : Nat) (f : Round) :
    (rounds t N f).map Slot.halves = (List.range N).filterMap f := by
  unfold rounds
  rw [List.map_filterMap]
  congr 1
  funext s
  cases f s <;> rfl

/-- A loop of calls makes the exchanges of its rounds. -/
theorem exchanges_loop {t N : Nat} {body : Nat → List Call} {f : Round}
    (h : ∀ s, s < N → exchanges (body s) = (f s).toList) :
    exchanges ((List.range N).flatMap body) = (rounds t N f).map Slot.halves := by
  rw [rounds_halves, List.filterMap_eq_flatMap_toList, exchanges, List.filterMap_flatMap]
  exact List.flatMap_congr fun s hs => h s (List.mem_range.mp hs)

/-- An exchange whose peers are those of its entry, with no demand on the data. -/
theorem wp_true_xchg {r : Nat} {out inn : Option (Nat × List Ptr)} {e : Net.Entry Nat}
    {k : List (Net.Instr Nat Ptr UInt8)} {pl : List (Net.Entry Nat)} {m : Mem}
    (hout : e.out = out.map Prod.fst) (hinn : e.inn = inn.map Prod.fst)
    (hk : ∀ m, wp (fun _ _ _ _ => True) r k pl (fun _ => True) m) :
    wp (fun _ _ _ _ => True) r (.xchg out inn :: k) (e :: pl) (fun _ => True) m := by
  have ho : ∀ m : Mem, Net.OutOk (fun _ _ _ _ => True) r e.time m out e.out := fun m => by
    rw [hout]
    cases out with
    | none => trivial
    | some _ => exact ⟨rfl, trivial⟩
  cases inn with
  | none => exact ⟨hinn, ho m, hk m⟩
  | some _ => exact ⟨hinn, ho m, fun d _ => ⟨ho _, hk _⟩⟩

theorem half_peer (peer : Nat) (buf : Ptr) (bytes : Nat) :
    (half peer buf bytes).map Prod.fst = (part peer bytes).map Prod.fst := by
  unfold half part
  split <;> rfl

/-- Calls that make the exchanges of their slots follow them. -/
theorem wp_of_exchanges (K : Kernels) (r : Nat) : ∀ (calls : List Call) (pl : List Slot) (m : Mem),
    exchanges calls = pl.map Slot.halves →
    wp (fun _ _ _ _ => True) r (code K calls) (pl.map Slot.entry) (fun _ => True) m
  | [], pl, m, h => by
    cases pl with
    | nil => trivial
    | cons _ _ => exact absurd h (by simp)
  | c :: calls, pl, m, h => by
    rw [exchanges_cons] at h
    -- a call without halves is local; one with halves uses the first slot up
    have hlocal : ∀ f, c.instr K = .cpu f → c.halves = none →
        wp (fun _ _ _ _ => True) r (code K (c :: calls)) (pl.map Slot.entry) (fun _ => True) m := by
      intro f hc hh
      rw [hh] at h
      unfold code
      rw [List.map_cons, hc]
      exact wp_of_exchanges K r calls pl (f m) h
    have hxchg : ∀ o i out inn, c.halves = some (o, i) → c.instr K = .xchg out inn →
        out.map Prod.fst = o.map Prod.fst → inn.map Prod.fst = i.map Prod.fst →
        wp (fun _ _ _ _ => True) r (code K (c :: calls)) (pl.map Slot.entry) (fun _ => True) m := by
      intro o i out inn hh hc ho hi
      rw [hh] at h
      cases pl with
      | nil => exact absurd h (by simp)
      | cons s pl =>
        obtain ⟨hs, hrest⟩ := List.cons.inj h
        obtain ⟨rfl, rfl⟩ := Prod.mk.inj hs
        unfold code
        rw [List.map_cons, hc]
        exact wp_true_xchg ho.symm hi.symm fun m => wp_of_exchanges K r calls pl m hrest
    cases c with
    | regAdd b n => exact hlocal _ rfl rfl
    | scratchAt n => exact hlocal _ rfl rfl
    | memcpy d s n => exact hlocal _ rfl rfl
    | cpuReduce dt op d s n => exact hlocal _ rfl rfl
    | cpuScale dt d n k => exact hlocal _ rfl rfl
    | cpuScaleCopy dt d s n k => exact hlocal _ rfl rfl
    | cpuScaledAccumulate dt d s n k => exact hlocal _ rfl rfl
    | postRecvs reqs => exact wp_of_exchanges K r calls pl m h
    | send peer buf bytes =>
      by_cases h0 : bytes = 0
      · exact hlocal id (by simp [Call.instr, half, h0]) (by simp [Call.halves, h0])
      · exact hxchg _ none (half peer buf bytes) none (by simp only [Call.halves, if_neg h0])
          (by simp [Call.instr, half, h0]) (half_peer peer buf bytes) rfl
    | recv peer buf bytes =>
      by_cases h0 : bytes = 0
      · exact hlocal id (by simp [Call.instr, half, h0]) (by simp [Call.halves, h0])
      · exact hxchg none _ none (half peer buf bytes) (by simp only [Call.halves, if_neg h0])
          (by simp [Call.instr, half, h0]) rfl (half_peer peer buf bytes)
    | sendRecv sp sb sn rp rb rn =>
      exact hxchg _ _ _ _ rfl rfl (half_peer sp sb sn) (half_peer rp rb rn)

/-! ## The exchanges of the algorithms -/

section Exchanges

variable {t n r : Nat}

theorem exchanges_ringReduceScatter {data : Ptr} {chunks : Nat → Chunk} {dt : DataType} {op : RedOp} :
    exchanges (ringReduceScatter n r data chunks dt op) =
      (ringPlan t n r (fun s => (chunks ((r + n - s) % n)).bytes)
        fun s => (chunks ((r + 2 * n - s - 1) % n)).bytes).map Slot.halves := by
  unfold ringReduceScatter ringPlan
  rw [← exchanges_loop fun s _ => ?_]
  · rfl
  · simp [Call.halves]

theorem exchanges_ringAllGather (data : Ptr) (chunks : Nat → Chunk) (shift : Nat) :
    exchanges (ringAllGather n r data chunks shift) =
      (ringPlan t n r (fun s => (chunks ((r + shift + 2 * n - s) % n)).bytes)
        fun s => (chunks ((r + shift + 2 * n - s - 1) % n)).bytes).map Slot.halves := by
  unfold ringAllGather ringPlan
  rw [← exchanges_loop fun s _ => ?_]
  · rfl
  · simp [Call.halves]

theorem exchanges_gather {algo : GatherAlgo} {recv : Ptr} {e : Nat} :
    exchanges (algo.calls n r recv e) = (algo.plan t n r e).map Slot.halves := by
  cases algo with
  | ring =>
    exact exchanges_ringAllGather recv (fun i => ⟨i * e, e⟩) 0
  | recdouble =>
    simp only [GatherAlgo.calls, GatherAlgo.plan, recursiveDoublingAllGather, doublingPlan]
    rw [← exchanges_loop fun s _ => ?_]
    · rfl
    · simp [Call.halves]
  | bruck =>
    have hloop : exchanges ((List.range (steps n)).flatMap fun i =>
          [Call.sendRecv ((r + n - 2 ^ i) % n) recv (bruckWidth n i * e) ((r + 2 ^ i) % n)
            (recv + 2 ^ i * e) (bruckWidth n i * e)]) =
        (bruckPlan t n r e).map Slot.halves := exchanges_loop fun s _ => rfl
    have hrot : exchanges ((List.range n).map fun i =>
        Call.memcpy (scratch + (r + i) % n * e) (recv + i * e) e) = [] := by
      rw [exchanges, List.filterMap_map]
      exact List.filterMap_eq_nil_iff.mpr fun i _ => rfl
    simp [GatherAlgo.calls, GatherAlgo.plan, bruckAllGather, bruckSteps_eq, List.flatMap_map,
      hloop, hrot, Call.halves]

theorem exchanges_recursiveDoublingAllReduce {recv : Ptr} {count : Nat} {dt : DataType} {op : RedOp} :
    exchanges (recursiveDoublingAllReduce n r recv count dt op) =
      (doublingPlan t n r fun _ => count * typeSize dt).map Slot.halves := by
  unfold recursiveDoublingAllReduce doublingPlan
  rw [← exchanges_loop fun s _ => ?_]
  · rfl
  · simp [Call.halves]

theorem exchanges_pow2ElimAllReduce {recv : Ptr} {count : Nat} {dt : DataType} {op : RedOp}
    (hc : count ≠ 0) :
    exchanges (pow2ElimAllReduce n r recv count dt op) =
      (elimPlan t n r (count * typeSize dt)).map Slot.halves := by
  have hb : count * typeSize dt ≠ 0 := Nat.mul_ne_zero hc (Nat.pos_iff_ne_zero.mp (typeSize_pos dt))
  have hcore : exchanges ((corePeers n (n - elimP2 n) (count * typeSize dt)
        (newRank (n - elimP2 n) r)).flatMap fun cp =>
        [Call.sendRecv cp.1 recv (count * typeSize dt) cp.1 cp.2 (count * typeSize dt),
         Call.cpuReduce dt op recv cp.2 count]) =
      (corePlan (t + 1) n (n - elimP2 n) r (count * typeSize dt)).map Slot.halves := by
    unfold corePlan
    cases hnew : newRank (n - elimP2 n) r with
    | none => simp [corePeers, rounds]
    | some j =>
      simp only [corePeers, List.flatMap_map, Option.map_some]
      rw [← exchanges_loop fun s _ => ?_]
      simp [Call.halves]
  unfold pow2ElimAllReduce elimPlan
  simp only [exchanges_append, exchanges_ite, exchanges_cons, exchanges_nil, List.append_nil,
    List.map_append, hcore, Call.halves, if_neg hb, Nat.and_one_is_mod]
  by_cases hpre : r < 2 * (n - elimP2 n)
  · rcases Nat.mod_two_eq_zero_or_one r with h2 | h2
    · simp [pairPlan, rounds, hpre, h2, pairOf, Slot.halves]
    · simp [pairPlan, rounds, hpre, h2, pairOf, Slot.halves]
  · simp [pairPlan, rounds, hpre]

theorem exchanges_doReduceScatter {sendbuff recvbuff : Ptr} {recvcount : Nat} {dt : DataType}
    {op : RedOp} {premul : Option Factor} :
    exchanges (doReduceScatter n r sendbuff recvbuff recvcount dt op premul) =
      (if n = 1 ∨ recvcount = 0 then [] else
        ringPlan t n r (fun _ => recvcount * typeSize dt) fun _ => recvcount * typeSize dt).map
        Slot.halves := by
  by_cases h0 : n = 1 ∨ recvcount = 0
  · cases premul <;> simp [doReduceScatter, h0, Call.halves]
  · rw [if_neg h0]
    simp only [doReduceScatter, if_neg h0, exchanges_append]
    rw [exchanges_loop (t := t) (f := fun _ => some (part (next n r) (recvcount * typeSize dt),
      part (prev n r) (recvcount * typeSize dt))) fun s _ => ?_]
    · cases premul <;> simp [ringPlan, Call.halves]
    · cases premul <;> simp [Call.halves]

/-- Every piece of the pipeline has bytes. -/
theorem piece_ne_zero {pipe bytes j : Nat} (hk : 0 < pipe) (hj : j < (bytes + pipe - 1) / pipe) :
    min pipe (bytes - j * pipe) ≠ 0 := by
  have : j * pipe < bytes := by
    have h := (Nat.le_div_iff_mul_le hk).mp (Nat.succ_le_of_lt hj)
    rw [Nat.succ_mul] at h
    omega
  omega

/-- The calls of a chain, piece by piece, make its exchanges. -/
theorem exchanges_chain (head : Nat) (piece : Nat → Nat) {N : Nat} {body : Nat → List Call}
    (hpiece : ∀ j, j < N → piece j ≠ 0)
    (h : ∀ j, j < N → exchanges (body j) =
      (if dist n head r = 0 then [] else [(none, some (prev n r, piece j))]) ++
      if dist n head r + 1 = n then [] else [(some (next n r, piece j), none)]) :
    exchanges ((List.range N).flatMap body) = (chain t n head r N piece).map Slot.halves := by
  unfold chain
  rw [exchanges, List.filterMap_flatMap, List.map_flatMap]
  refine List.flatMap_congr fun j hj => ?_
  have hj := List.mem_range.mp hj
  have hp : ∀ q, part q (piece j) = some (q, piece j) := fun q => if_neg (hpiece j hj)
  refine (h j hj).trans ?_
  split <;> split <;> simp [Slot.halves, hp]

theorem dist_eq_zero_iff {head : Nat} (hh : head < n) (hr : r < n) :
    dist n head r = 0 ↔ r = head := by
  rw [dist_eq_iff hr hh (by omega), Nat.sub_zero, Nat.add_mod_right, Nat.mod_eq_of_lt hr]
  exact eq_comm

theorem dist_last_iff {head : Nat} (hh : head < n) (hr : r < n) :
    dist n head r + 1 = n ↔ next n r = head := by
  have h := dist_next hh hr
  rw [← dist_eq_zero_iff hh (next_lt r (by omega)), h]
  split <;> simp_all

theorem exchanges_doBroadcast {sendbuff recv : Ptr} {count : Nat} {dt : DataType} {root : Nat}
    (hroot : root < n) (hr : r < n) :
    exchanges (doBroadcast n r sendbuff recv count dt root) =
      (if n = 1 ∨ count = 0 then [] else
        chain t n root r (pieces (count * typeSize dt)) fun j =>
          min kPipeBytes (count * typeSize dt - j * kPipeBytes)).map Slot.halves := by
  have hpipe : 0 < kPipeBytes := by decide
  unfold doBroadcast pieces
  -- the size of a piece does not matter, and as a number it would be computed with
  generalize kPipeBytes = pipe at hpipe ⊢
  by_cases h0 : n = 1 ∨ count = 0
  · simp [h0, Call.halves]
  · rw [if_neg h0]
    simp only [if_neg h0, exchanges_append]
    rw [exchanges_chain root (fun j => min pipe (count * typeSize dt - j * pipe)) (t := t) (n := n) (r := r)
      (fun j hj => piece_ne_zero hpipe hj) fun j hj => ?_]
    · have hcopy : exchanges (if r = root ∧ sendbuff ≠ recv then
          [Call.memcpy recv sendbuff (count * typeSize dt)] else []) = [] := by
        split <;> rfl
      have hreg : exchanges [Call.regAdd recv (count * typeSize dt)] = [] := rfl
      rw [hcopy, hreg, List.nil_append, List.nil_append]
    · have hp : ∀ q, part q (min pipe (count * typeSize dt - j * pipe)) =
          some (q, min pipe (count * typeSize dt - j * pipe)) :=
        fun q => if_neg (piece_ne_zero hpipe hj)
      have hz := piece_ne_zero hpipe hj
      simp only [dist_eq_zero_iff hroot hr, dist_last_iff hroot hr]
      by_cases hrr : r = root
      · have hnext : next n r ≠ root := by
          rw [hrr]
          have := add_mod_ne (x := root) (d := 1) (n := n) Nat.one_pos (by omega)
          rwa [Nat.mod_eq_of_lt hroot] at this
        subst hrr
        simp [hnext, Call.halves, hz, hp]
      · by_cases hnext : next n r = root
        · simp [hrr, hnext, Call.halves, hz, hp]
        · simp [hrr, hnext, Call.halves, hz, hp]

theorem exchanges_doReduce {send recv : Ptr} {count : Nat} {dt : DataType} {op : RedOp}
    {premul : Option Factor} {root : Nat} (hroot : root < n) (hr : r < n) :
    exchanges (doReduce n r send recv count dt op premul root) =
      (if n = 1 ∨ count = 0 then [] else
        chain t n ((root + 1) % n) r (pieces (count * typeSize dt)) fun j =>
          min kPipeBytes (count * typeSize dt - j * kPipeBytes)).map Slot.halves := by
  have hpipe : 0 < kPipeBytes := by decide
  unfold doReduce pieces
  generalize kPipeBytes = pipe at hpipe ⊢
  by_cases hn : n = 1
  · cases premul <;> simp [hn, Call.halves]
  by_cases hc : count = 0
  · simp [hn, hc]
  have hhead : (root + 1) % n < n := Nat.mod_lt _ (by omega)
  rw [if_neg (show ¬ (n = 1 ∨ count = 0) by omega)]
  simp only [if_neg hn, if_neg hc, exchanges_append]
  rw [exchanges_chain ((root + 1) % n) (fun j => min pipe (count * typeSize dt - j * pipe)) (t := t)
    (n := n) (r := r)
    (fun j hj => piece_ne_zero hpipe hj) fun j hj => ?_]
  · have hscratch : exchanges [Call.scratchAt pipe] = [] := rfl
    have hreg : exchanges (if r = (root + 1) % n ∧ premul.isNone = true then
        [Call.regAdd send (count * typeSize dt)] else []) = [] := by
      split <;> rfl
    rw [hscratch, hreg, List.nil_append, List.nil_append]
  · have hp : ∀ q, part q (min pipe (count * typeSize dt - j * pipe)) =
        some (q, min pipe (count * typeSize dt - j * pipe)) :=
      fun q => if_neg (piece_ne_zero hpipe hj)
    have hz := piece_ne_zero hpipe hj
    have hne : (root + 1) % n ≠ root := by
      have := add_mod_ne (x := root) (d := 1) (n := n) Nat.one_pos (by omega)
      rwa [Nat.mod_eq_of_lt hroot] at this
    have hlast : next n r = (root + 1) % n ↔ r = root := by
      have h1 : next n root = (root + 1) % n := rfl
      rw [← h1]
      exact ⟨fun h => by rw [← prev_next hr, h, prev_next hroot], fun h => by rw [h]⟩
    simp only [dist_eq_zero_iff hhead hr, dist_last_iff hhead hr, hlast]
    by_cases hh : r = (root + 1) % n
    · have hrr : r ≠ root := fun h => hne (hh.symm.trans h)
      cases premul <;> simp [← hh, hrr, Call.halves, hz, hp]
    · by_cases hrr : r = root
      · subst hrr
        cases premul <;> simp [hh, Call.halves, hz, hp]
      · cases premul <;> simp [hh, hrr, Call.halves, hz, hp]

/-- A filter that keeps one round only. -/
theorem filterMap_range_single {β : Type} {f : Nat → Option β} (s0 : Nat) {x : β}
    (hf : f s0 = some x) : ∀ N, s0 < N → (∀ s, s < N → s ≠ s0 → f s = none) →
    (List.range N).filterMap f = [x]
  | 0, h, _ => absurd h (Nat.not_lt_zero s0)
  | N + 1, h, hother => by
    rw [List.range_succ, List.filterMap_append]
    by_cases hN : s0 = N
    · subst hN
      have h0 : (List.range s0).filterMap f = [] :=
        List.filterMap_eq_nil_iff.mpr fun s hs => by
          have hs := List.mem_range.mp hs
          exact hother s (by omega) (by omega)
      rw [h0]
      simp [hf]
    · rw [filterMap_range_single s0 hf N (by omega) fun s hs => hother s (by omega)]
      simp [hother N (by omega) fun e => hN e.symm]

/-- The rounds of a star: in round `s` the root sends to rank `root + s + 1`. -/
def star (n root bytes r : Nat) : Round := fun s =>
  if r = root then some (part ((root + (s + 1)) % n) bytes, none)
  else if r = (root + (s + 1)) % n then some (none, part root bytes) else none

/-- The slots of `doScatter`; those of `doGather` go the other way. -/
def starPlan (t n root r bytes : Nat) : List Slot := rounds t (n - 1) (star n root bytes r)

/-- A rank other than the root has one round of a star. -/
theorem starPlan_other {root bytes : Nat} (hroot : root < n) (hr : r < n) (hne : r ≠ root) :
    (starPlan t n root r bytes).map Slot.halves = [(none, part root bytes)] := by
  have hd : dist n root r ≠ 0 := fun h => hne ((dist_eq_zero_iff hroot hr).mp h)
  have hlt : dist n root r < n := dist_lt (by omega)
  have hround : ∀ s, s < n - 1 → (r = (root + (s + 1)) % n ↔ s + 1 = dist n root r) := by
    intro s hs
    rw [eq_comm (a := s + 1), dist_eq_iff hr hroot (by omega), eq_comm,
      eq_comm (a := root) (b := (r + n - (s + 1)) % n), add_sub_mod_iff hr hroot (by omega)]
  rw [starPlan, rounds_halves]
  refine filterMap_range_single (dist n root r - 1) ?_ (n - 1) (by omega) fun s hs hs0 => ?_
  · rw [star, if_neg hne, if_pos ((hround _ (by omega)).mpr (by omega))]
  · rw [star, if_neg hne, if_neg fun h => hs0 (by have := (hround s hs).mp h; omega)]

theorem starPlan_root {root bytes : Nat} :
    (starPlan t n root root bytes).map Slot.halves =
      (List.range' 1 (n - 1)).map fun s => (part ((root + s) % n) bytes, none) := by
  have hf : star n root bytes root = fun s => some (part ((root + (s + 1)) % n) bytes, none) := by
    funext s
    exact if_pos rfl
  rw [starPlan, rounds_halves, List.range'_eq_map_range, List.map_map, hf, List.filterMap_eq_map']
  exact List.map_congr_left fun s _ => by simp [Nat.add_comm]

/-- **A star is a schedule.** -/
theorem schedule_star {root bytes : Nat} (hroot : root < n) :
    Schedule n t (t + (n - 1)) fun r => starPlan t n root r bytes := by
  have hn : 0 < n := by omega
  have hne : ∀ s, s < n - 1 → (root + (s + 1)) % n ≠ root := fun s hs => by
    have := add_mod_ne (x := root) (d := s + 1) (n := n) (by omega) (by omega)
    rwa [Nat.mod_eq_of_lt hroot] at this
  -- the only message of round `s` goes from the root to rank `root + s + 1`
  have hsend : ∀ p q s b, s < n - 1 → (Sends (star n root bytes) p q s b ↔
      p = root ∧ q = (root + (s + 1)) % n ∧ bytes ≠ 0 ∧ b = bytes) := by
    intro p q s b _
    simp only [Sends, star]
    by_cases hp : p = root
    · simp [hp, part_eq_some]
      tauto
    · rw [if_neg hp]
      split <;> simp [hp]
  have hrecv : ∀ q p s b, s < n - 1 → (Receives (star n root bytes) q p s b ↔
      p = root ∧ q = (root + (s + 1)) % n ∧ bytes ≠ 0 ∧ b = bytes) := by
    intro q p s b hs
    simp only [Receives, star]
    by_cases hq : q = root
    · simp [hq, (hne s hs).symm]
    · by_cases hx : q = (root + (s + 1)) % n
      · simp [← hx, hq, part_eq_some]
        tauto
      · simp [hq, hx]
  refine schedule_rounds (fun p q s b _ _ hs => (hrecv q p s b hs).trans (hsend p q s b hs).symm)
    (fun r s q b _ hs h => ?_) fun r s p b _ hs h => ?_
  · rw [((hsend r q s b hs).mp h).2.1]; exact Nat.mod_lt _ hn
  · rw [((hrecv r p s b hs).mp h).1]; exact hroot

theorem exchanges_range' {f : Nat → Call} {N : Nat}
    {g : Nat → Option (Nat × Nat) × Option (Nat × Nat)} (h : ∀ s, (f s).halves = some (g s)) :
    exchanges ((List.range' 1 N).flatMap fun s => [f s]) = (List.range' 1 N).map g := by
  rw [← List.map_eq_flatMap, exchanges, List.filterMap_map]
  have hf : Call.halves ∘ f = fun s => some (g s) := funext h
  rw [hf, List.filterMap_eq_map']

theorem exchanges_doScatter {send recvbuff : Ptr} {recvcount : Nat} {dt : DataType} {root : Nat}
    (hroot : root < n) (hr : r < n) :
    exchanges (doScatter n r send recvbuff recvcount dt root) =
      (if n = 1 ∨ recvcount = 0 then [] else
        starPlan t n root r (recvcount * typeSize dt)).map Slot.halves := by
  by_cases h0 : n = 1 ∨ recvcount = 0
  · simp [doScatter, h0, Call.halves]
  · have hb : recvcount * typeSize dt ≠ 0 :=
      Nat.mul_ne_zero (fun h => h0 (Or.inr h)) (Nat.pos_iff_ne_zero.mp (typeSize_pos dt))
    simp only [doScatter, if_neg h0]
    by_cases hrr : r = root
    · subst hrr
      rw [starPlan_root, if_neg (by simp), exchanges_append, exchanges_range'
        (g := fun s => (part ((r + s) % n) (recvcount * typeSize dt), none)) fun s => ?_]
      · simp [Call.halves]
      · simp only [Call.halves, if_neg hb]
    · rw [starPlan_other hroot hr hrr, if_pos hrr]
      simp [Call.halves, hb]

theorem exchanges_doGather {sendbuff recv : Ptr} {sendcount : Nat} {dt : DataType} {root : Nat}
    (hroot : root < n) (hr : r < n) :
    exchanges (doGather n r sendbuff recv sendcount dt root) =
      ((if n = 1 ∨ sendcount = 0 then [] else
        starPlan t n root r (sendcount * typeSize dt)).map Slot.swap).map Slot.halves := by
  -- the halves of the scatter, exchanged
  have hswap : ∀ pl : List Slot, (pl.map Slot.swap).map Slot.halves = (pl.map Slot.halves).map
      Prod.swap := fun pl => by rw [List.map_map, List.map_map]; rfl
  rw [hswap]
  by_cases h0 : n = 1 ∨ sendcount = 0
  · simp [doGather, h0, Call.halves]
  · have hb : sendcount * typeSize dt ≠ 0 :=
      Nat.mul_ne_zero (fun h => h0 (Or.inr h)) (Nat.pos_iff_ne_zero.mp (typeSize_pos dt))
    simp only [doGather, if_neg h0]
    by_cases hrr : r = root
    · subst hrr
      rw [starPlan_root, if_neg (by simp), exchanges_append, exchanges_range'
        (g := fun s => (none, part ((r + s) % n) (sendcount * typeSize dt))) fun s => ?_]
      · simp [Call.halves]
      · simp only [Call.halves, if_neg hb]
    · rw [starPlan_other hroot hr hrr, if_pos hrr]
      simp [Call.halves, hb]

/-- The slots of `doAllToAllv`: `cnt p q` elements of `e` bytes go from `p` to `q`. -/
def pairwisePlan (t n r e : Nat) (cnt : Nat → Nat → Nat) : List Slot :=
  rounds t (n - 1) fun s => some
    (part ((r + (s + 1)) % n) (cnt r ((r + (s + 1)) % n) * e),
     part ((r + n - (s + 1)) % n) (cnt ((r + n - (s + 1)) % n) r * e))

theorem schedule_pairwise {e : Nat} {cnt : Nat → Nat → Nat} :
    Schedule n t (t + (n - 1)) fun r => pairwisePlan t n r e cnt := by
  have hback : ∀ p q s, p < n → q < n → s < n - 1 →
      ((p + (s + 1)) % n = q ↔ (q + n - (s + 1)) % n = p) := fun p q s hp hq hs =>
    (add_sub_mod_iff hq hp (by omega)).symm
  refine schedule_exchange (fun r s => (r + (s + 1)) % n)
    (fun r s => (r + n - (s + 1)) % n) hback (fun q s hq hs => ?_)
    (fun r s hr _ => Nat.mod_lt _ (by omega)) fun r s hr _ => Nat.mod_lt _ (by omega)
  have hq' : (q + n - (s + 1)) % n < n := Nat.mod_lt _ (by omega)
  rw [(hback _ q s hq' hq hs).mpr rfl]

theorem exchanges_doAllToAllv {send recv : Ptr} {cnt : Nat → Nat → Nat} {sdispls rdispls : Nat → Nat}
    {dt : DataType} :
    exchanges (doAllToAllv n r send (cnt r) sdispls recv (fun p => cnt p r) rdispls dt) =
      (pairwisePlan t n r (typeSize dt) cnt).map Slot.halves := by
  have hf : (fun s => some
      (part ((r + (s + 1)) % n) (cnt r ((r + (s + 1)) % n) * typeSize dt),
       part ((r + n - (s + 1)) % n) (cnt ((r + n - (s + 1)) % n) r * typeSize dt))) =
      fun s => some ((fun s => (part ((r + s) % n) (cnt r ((r + s) % n) * typeSize dt),
        part ((r + n - s) % n) (cnt ((r + n - s) % n) r * typeSize dt))) (1 + s)) := by
    funext s
    rw [Nat.add_comm 1 s]
  rw [pairwisePlan, rounds_halves, hf, List.filterMap_eq_map']
  unfold doAllToAllv
  simp only [exchanges_append]
  rw [exchanges_range' (g := fun s => (part ((r + s) % n) (cnt r ((r + s) % n) * typeSize dt),
      part ((r + n - s) % n) (cnt ((r + n - s) % n) r * typeSize dt))) fun s => rfl,
    List.range'_eq_map_range, List.map_map]
  simp [Call.halves]

end Exchanges

/-! ## The collectives -/

/-- A collective, with the arguments of every rank: buffers and PreMulSum scalars may differ from
rank to rank, the rest is the same on all. `cnt p q` of `allToAllv` is `sendcounts[q]` on `p` and
`recvcounts[p]` on `q`. -/
inductive Collective where
  | allGather (env : AlgoEnv) (sendbuff recvbuff : Nat → Ptr) (sendcount : Nat) (dt : DataType)
  | reduceScatter (sendbuff recvbuff : Nat → Ptr) (recvcount : Nat) (dt : DataType) (op : RedOp)
      (premul : Nat → Option Factor)
  | allReduce (env : AlgoEnv) (sendbuff recvbuff : Nat → Ptr) (count : Nat) (dt : DataType)
      (op : RedOp) (premul : Nat → Option Factor)
  | reduce (sendbuff recvbuff : Nat → Ptr) (count : Nat) (dt : DataType) (op : RedOp)
      (premul : Nat → Option Factor) (root : Nat)
  | broadcast (sendbuff recvbuff : Nat → Ptr) (count : Nat) (dt : DataType) (root : Nat)
  | gather (sendbuff recvbuff : Nat → Ptr) (sendcount : Nat) (dt : DataType) (root : Nat)
  | scatter (sendbuff recvbuff : Nat → Ptr) (recvcount : Nat) (dt : DataType) (root : Nat)
  | allToAllv (sendbuff recvbuff : Nat → Ptr) (cnt sdispls rdispls : Nat → Nat → Nat)
      (dt : DataType)

/-- `vcclAllToAll`: equal counts, blocks in rank order. -/
def Collective.allToAll (sendbuff recvbuff : Nat → Ptr) (count : Nat) (dt : DataType) : Collective :=
  .allToAllv sendbuff recvbuff (fun _ _ => count) (fun _ i => i * count) (fun _ i => i * count) dt

/-- What rank `r` of `n` does. -/
def Collective.calls (n r : Nat) : Collective → List Call
  | .allGather env s d count dt => doAllGather env n r (s r) (d r) count dt
  | .reduceScatter s d count dt op premul => doReduceScatter n r (s r) (d r) count dt op (premul r)
  | .allReduce env s d count dt op premul => doAllReduce env n r (s r) (d r) count dt op (premul r)
  | .reduce s d count dt op premul root => doReduce n r (s r) (d r) count dt op (premul r) root
  | .broadcast s d count dt root => doBroadcast n r (s r) (d r) count dt root
  | .gather s d count dt root => doGather n r (s r) (d r) count dt root
  | .scatter s d count dt root => doScatter n r (s r) (d r) count dt root
  | .allToAllv s d cnt sdispls rdispls dt =>
    doAllToAllv n r (s r) (cnt r) (sdispls r) (d r) (fun p => cnt p r) (rdispls r) dt

/-- The check `root < nranks` of the rooted collectives. -/
def Collective.RootOk (n : Nat) : Collective → Prop
  | .reduce _ _ _ _ _ _ root | .broadcast _ _ _ _ root | .gather _ _ _ _ root
  | .scatter _ _ _ _ root => root < n
  | _ => True

/-- The slots of rank `r`, from time `t` on. -/
def Collective.plan (t n r : Nat) : Collective → List Slot
  | .allGather env _ _ count dt =>
    if n = 1 ∨ count = 0 then []
    else (gatherChoice (env.logPath 65536 (count * typeSize dt)) n).plan t n r (count * typeSize dt)
  | .reduceScatter _ _ count dt _ _ =>
    if n = 1 ∨ count = 0 then []
    else ringPlan t n r (fun _ => count * typeSize dt) fun _ => count * typeSize dt
  | .allReduce env _ _ count dt _ _ =>
    reducePlan (env.logPath 262144 (count * typeSize dt)) t n r count (typeSize dt)
  | .reduce _ _ count dt _ _ root =>
    if n = 1 ∨ count = 0 then []
    else chain t n ((root + 1) % n) r (pieces (count * typeSize dt)) fun j =>
      min kPipeBytes (count * typeSize dt - j * kPipeBytes)
  | .broadcast _ _ count dt root =>
    if n = 1 ∨ count = 0 then []
    else chain t n root r (pieces (count * typeSize dt)) fun j =>
      min kPipeBytes (count * typeSize dt - j * kPipeBytes)
  | .gather _ _ count dt root =>
    (if n = 1 ∨ count = 0 then [] else starPlan t n root r (count * typeSize dt)).map Slot.swap
  | .scatter _ _ count dt root =>
    if n = 1 ∨ count = 0 then [] else starPlan t n root r (count * typeSize dt)
  | .allToAllv _ _ cnt _ _ dt => pairwisePlan t n r (typeSize dt) cnt

/-- The times a collective takes. -/
def Collective.span (n : Nat) : Collective → Nat
  | .allGather env _ _ count dt =>
    (gatherChoice (env.logPath 65536 (count * typeSize dt)) n).span n
  | .allReduce env _ _ count dt _ _ => reduceSpan (env.logPath 262144 (count * typeSize dt)) n
  | .reduce _ _ count dt _ _ _ | .broadcast _ _ count dt _ => 2 * pieces (count * typeSize dt) + n
  | _ => n - 1

theorem Schedule.unless {n a b : Nat} {p : Prop} [Decidable p] {P : Nat → List Slot}
    (h : Schedule n a b P) : Schedule n a b fun r => if p then [] else P r := by
  by_cases hp : p
  · simp only [if_pos hp]; exact Schedule.nil
  · simp only [if_neg hp]; exact h

/-- **Every collective has a schedule.** -/
theorem schedule_collective {t n : Nat} (hn : 0 < n) {c : Collective} (hc : c.RootOk n) :
    Schedule n t (t + c.span n) fun r => c.plan t n r := by
  cases c with
  | allGather env s d count dt => exact (schedule_gather hn (gatherChoice_fits _ n)).unless
  | reduceScatter s d count dt op premul => exact (schedule_ring fun _ _ _ _ => rfl).unless
  | allReduce env s d count dt op premul => exact schedule_reduce _ hn
  | reduce s d count dt op premul root => exact (schedule_chain (Nat.mod_lt _ hn)).unless
  | broadcast s d count dt root => exact (schedule_chain hc).unless
  | gather s d count dt root => exact ((schedule_star hc).unless).swap
  | scatter s d count dt root => exact (schedule_star hc).unless
  | allToAllv s d cnt sdispls rdispls dt => exact schedule_pairwise

theorem exchanges_doAllReduce {t n r : Nat} {env : AlgoEnv} {sendbuff recv : Ptr} {count : Nat}
    {dt : DataType} {op : RedOp} {premul : Option Factor} :
    exchanges (doAllReduce env n r sendbuff recv count dt op premul) =
      (reducePlan (env.logPath 262144 (count * typeSize dt)) t n r count (typeSize dt)).map
        Slot.halves := by
  unfold doAllReduce reducePlan
  simp only [exchanges_append, exchanges_ite]
  by_cases h0 : n = 1 ∨ count = 0
  · cases premul <;> simp [h0, Call.halves]
  · rw [if_neg h0, if_neg h0]
    cases env.logPath 262144 (count * typeSize dt) with
    | true =>
      simp only [if_true]
      cases pow2 n with
      | true =>
        cases premul <;> simp [exchanges_recursiveDoublingAllReduce (t := t), Call.halves]
      | false =>
        cases premul <;>
          simp [exchanges_pow2ElimAllReduce (t := t) (fun h => h0 (Or.inr h)), Call.halves]
    | false =>
      cases premul <;> simp [exchanges_ringReduceScatter (t := t), exchanges_ringAllGather (t := t + (n - 1)),
        Call.halves, ringReducePlan, makeChunks_eq]

/-- **The transport calls of a collective are the slots of its schedule.** -/
theorem exchanges_calls {t n r : Nat} (hr : r < n) {c : Collective} (hc : c.RootOk n) :
    exchanges (c.calls n r) = (c.plan t n r).map Slot.halves := by
  cases c with
  | allGather env s d count dt =>
    simp only [Collective.calls, Collective.plan, doAllGather_eq, allGatherBy, exchanges_append,
      exchanges_ite, exchanges_gather (t := t)]
    split_ifs <;> simp [Call.halves]
  | reduceScatter s d count dt op premul => exact exchanges_doReduceScatter
  | allReduce env s d count dt op premul => exact exchanges_doAllReduce
  | reduce s d count dt op premul root => exact exchanges_doReduce hc hr
  | broadcast s d count dt root => exact exchanges_doBroadcast hc hr
  | gather s d count dt root => exact exchanges_doGather hc hr
  | scatter s d count dt root => exact exchanges_doScatter hc hr
  | allToAllv s d cnt sdispls rdispls dt => exact exchanges_doAllToAllv

/-! ## Sequences of collectives -/

/-- What rank `r` does for a sequence of collectives. -/
def seqCalls (n r : Nat) (cs : List Collective) : List Call := cs.flatMap (Collective.calls n r)

/-- Its slots, one collective after the other. -/
def seqPlan (n r : Nat) : Nat → List Collective → List Slot
  | _, [] => []
  | t, c :: cs => c.plan t n r ++ seqPlan n r (t + c.span n) cs

theorem schedule_seq {n : Nat} (hn : 0 < n) : ∀ (cs : List Collective) (t : Nat),
    (∀ c ∈ cs, c.RootOk n) → ∃ b, t ≤ b ∧ Schedule n t b fun r => seqPlan n r t cs
  | [], t, _ => ⟨t, Nat.le_refl t, Schedule.nil⟩
  | c :: cs, t, h => by
    obtain ⟨b, hb, hs⟩ := schedule_seq hn cs (t + c.span n) fun c' h' =>
      h c' (List.mem_cons_of_mem c h')
    exact ⟨b, by omega, (schedule_collective hn (h c List.mem_cons_self)).append hs (by omega) hb⟩

theorem exchanges_seq {n r : Nat} (hr : r < n) : ∀ (cs : List Collective) (t : Nat),
    (∀ c ∈ cs, c.RootOk n) → exchanges (seqCalls n r cs) = (seqPlan n r t cs).map Slot.halves
  | [], _, _ => rfl
  | c :: cs, t, h => by
    rw [seqCalls, List.flatMap_cons, exchanges_append, seqPlan, List.map_append,
      exchanges_calls hr (h c List.mem_cons_self)]
    congr 1
    exact exchanges_seq hr cs _ fun c' h' => h c' (List.mem_cons_of_mem c h')

/-- The sizes of the non-empty messages sent to `q`. -/
def sentSizes (q : Nat) (calls : List Call) : List Nat :=
  calls.filterMap fun
    | .send peer _ bytes => if peer = q ∧ bytes ≠ 0 then some bytes else none
    | .sendRecv sp _ sn _ _ _ => if sp = q ∧ sn ≠ 0 then some sn else none
    | _ => none

/-- The sizes of the non-empty messages received from `p`. -/
def receivedSizes (p : Nat) (calls : List Call) : List Nat :=
  calls.filterMap fun
    | .recv peer _ bytes => if peer = p ∧ bytes ≠ 0 then some bytes else none
    | .sendRecv _ _ _ rp _ rn => if rp = p ∧ rn ≠ 0 then some rn else none
    | _ => none

/-- The size of a half with peer `q`. -/
def sizeFor (q : Nat) (h : Option (Nat × Nat)) : Option Nat := (tagged q 0 h).map Prod.snd

theorem sizeFor_part (q peer bytes : Nat) :
    sizeFor q (part peer bytes) = if peer = q ∧ bytes ≠ 0 then some bytes else none := by
  rw [sizeFor, tagged_part]
  split <;> rfl

theorem sizeFor_tagged (q t : Nat) (h : Option (Nat × Nat)) :
    (tagged q t h).map Prod.snd = sizeFor q h := by
  unfold sizeFor
  cases h with
  | none => rfl
  | some x => rw [tagged_some, tagged_some]; split <;> rfl

theorem sentSizes_eq (q : Nat) (calls : List Call) :
    sentSizes q calls = (exchanges calls).filterMap fun x => sizeFor q x.1 := by
  unfold sentSizes exchanges
  rw [List.filterMap_filterMap]
  congr 1
  funext c
  cases c with
  | send peer buf bytes =>
    by_cases h : bytes = 0
    · simp [Call.halves, h]
    · simp [Call.halves, h, sizeFor_part]
  | recv peer buf bytes =>
    by_cases h : bytes = 0 <;> simp [Call.halves, h, sizeFor, tagged]
  | sendRecv sp sb sn rp rb rn => simp [Call.halves, sizeFor_part]
  | _ => rfl

theorem receivedSizes_eq (p : Nat) (calls : List Call) :
    receivedSizes p calls = (exchanges calls).filterMap fun x => sizeFor p x.2 := by
  unfold receivedSizes exchanges
  rw [List.filterMap_filterMap]
  congr 1
  funext c
  cases c with
  | send peer buf bytes =>
    by_cases h : bytes = 0 <;> simp [Call.halves, h, sizeFor, tagged]
  | recv peer buf bytes =>
    by_cases h : bytes = 0
    · simp [Call.halves, h]
    · simp [Call.halves, h, sizeFor_part]
  | sendRecv sp sb sn rp rb rn => simp [Call.halves, sizeFor_part]
  | _ => rfl

/-- Calls that follow a schedule have matching sizes. -/
theorem sizes_match {n a b p q : Nat} {calls : Nat → List Call} {plan : Nat → List Slot}
    (hplan : Schedule n a b plan)
    (hcalls : ∀ r, r < n → exchanges (calls r) = (plan r).map Slot.halves) (hp : p < n) (hq : q < n) :
    sentSizes q (calls p) = receivedSizes p (calls q) := by
  have hmeet := congrArg (List.map Prod.snd) (hplan.meet p q hp hq)
  unfold received sent at hmeet
  rw [List.map_filterMap, List.map_filterMap] at hmeet
  simp only [sizeFor_tagged] at hmeet
  rw [sentSizes_eq, receivedSizes_eq, hcalls p hp, hcalls q hq, List.filterMap_map,
    List.filterMap_map]
  exact hmeet.symm

/-- **Collectives match and never deadlock.** For every sequence of collectives: (a) `p` sends to
`q` messages of the sizes `q` receives from `p`, in order; (b) under rendezvous, whether or not the
transport posts receives ahead, every reachable configuration with an unfinished rank has a
step. -/
theorem collectives_never_deadlock (K : Kernels) (n : Nat) (hn : 1 ≤ n) (cs : List Collective)
    (hroot : ∀ c ∈ cs, c.RootOk n) (m : Nat → Mem) :
    (∀ p q, p < n → q < n →
      sentSizes q (seqCalls n p cs) = receivedSizes p (seqCalls n q cs)) ∧
    ∀ (pre : Bool) (c : Net.Posted Nat Ptr UInt8),
      Relation.ReflTransGen (Net.RStep pre)
        (Net.rstart (fun r => if r < n then code K (seqCalls n r cs) else []) m) c →
      (∃ r, c.cfg.code r ≠ []) → ∃ c', Net.RStep pre c c' := by
  obtain ⟨b, -, hplan⟩ := schedule_seq hn cs 0 hroot
  refine ⟨fun p q hp hq => sizes_match hplan (fun r hr => exchanges_seq hr cs 0 hroot) hp hq,
    fun pre c hc hun => ?_⟩
  have hwp : ∀ r, wp (fun _ _ _ _ => True) r (if r < n then code K (seqCalls n r cs) else [])
      (ranksOnly n (fun r => seqPlan n r 0 cs) r) (fun _ => True) (m r) := by
    intro r
    unfold ranksOnly
    split
    · rename_i hr
      exact wp_of_exchanges K r _ _ _ (exchanges_seq hr cs 0 hroot)
    · trivial
  have hstart := Net.ready_start (ranksOnly_meet hplan) (ranksOnly_ordered hplan) hwp
  obtain ⟨_, _, hready⟩ := Net.ready_reach hstart hc
  obtain ⟨r, hr⟩ := hun
  exact Net.rendezvous_progress hready hr

/-- A broadcast, then a gather. -/
def bcastThenGather : List Collective :=
  [.broadcast (fun _ => Ptr.mk (.user 0) 0) (fun _ => Ptr.mk (.user 0) 0) 5 .int32 1,
   .gather (fun _ => Ptr.mk (.user 0) 0) (fun _ => Ptr.mk (.user 1) 0) 2 .int8 2]

/-- On three ranks. -/
theorem collectives_never_deadlock_three :
    (∀ p q, p < 3 → q < 3 →
      sentSizes q (seqCalls 3 p bcastThenGather) = receivedSizes p (seqCalls 3 q bcastThenGather)) ∧
    ∀ (pre : Bool) (c : Net.Posted Nat Ptr UInt8),
      Relation.ReflTransGen (Net.RStep pre)
        (Net.rstart (fun r => if r < 3 then code (cpuKernels .idle) (seqCalls 3 r bcastThenGather)
          else []) fun r _ => UInt8.ofNat r) c →
      (∃ r, c.cfg.code r ≠ []) → ∃ c', Net.RStep pre c c' :=
  collectives_never_deadlock (cpuKernels .idle) 3 (by decide) bcastThenGather (by
    intro c hc
    rcases List.mem_cons.mp hc with rfl | hc
    · exact (by decide : 1 < 3)
    · rw [List.mem_singleton.mp hc]
      exact (by decide : 2 < 3)) fun r _ => UInt8.ofNat r

end Vccl
