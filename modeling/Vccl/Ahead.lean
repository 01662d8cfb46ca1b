import Vccl.Footprint
import Vccl.InPlace
import Vccl.Net.Early

/-!
# Receives posted ahead and staged buffers (`collectives.cc` over the queue pairs of `verbs.cc`)

The all-gathers and the logarithmic all-reduces announce the receives of their loop with one
`postRecvs`, and the network card writes a message to its buffer when it arrives, long before the
rank takes part in that step. A buffer that the card cannot reach is staged (`Region::staging`): what
is sent is copied there first, and `drainCompleted`, at the end of every transport call, copies all
staged receives back and forgets them.

`careful_calls` goes through the calls of every collective and shows that a rank does not notice:

* the ring: chunks of different steps are apart (`careful_ringAllGather`);
* recursive doubling: the group received at step `j` is apart from all groups sent or received
  before (`groups_apart`, `careful_recursiveDoublingAllGather`), or is a scratch region of its own
  (`careful_recursiveDoublingAllReduce`);
* Bruck: a step receives behind the prefix the steps before it filled (`careful_bruckAllGather`);
* an eliminated rank announces a receive into the accumulator it has yet to send, and to the very
  rank it sends it to (`careful_pow2ElimAllReduce`).

With staged user buffers this needs one restriction (`Collective.Stacks`): a receive must not be
pending while another transport call ends, for that call's `drainCompleted` would drop it.
-/

namespace Vccl

open Net (Careful Turn OwnSep)

variable {K : Kernels} {B : List Ptr → Bool}

/-! ## Exchanges of byte ranges -/

theorem sep_halves {sp sn rp rn q p : Nat} {sb rb : Ptr} {u s : List Ptr}
    (h : Apart sb sn rb rn) (hu : half sp sb sn = some (q, u)) (hs : half rp rb rn = some (p, s)) :
    Net.Sep u s := by
  rw [(half_eq_some hu).2, (half_eq_some hs).2]
  exact sep_slice h

theorem ownSep_halves {sp sn rp rn : Nat} {sb rb : Ptr} (h : Apart sb sn rb rn) :
    OwnSep (half sp sb sn) (half rp rb rn) := fun _ _ _ _ hu hs => sep_halves h hu hs

/-- `Turn.Before` on byte ranges. -/
theorem before_halves {sp sn rp rn rp' rn' : Nat} {sb rb rb' : Ptr} {x y : Turn Nat Ptr UInt8}
    (hxo : x.out = half sp sb sn) (hxi : x.inn = half rp rb rn) (hy : y.inn = half rp' rb' rn')
    (hinner : Apart rb rn rb' rn') (houter : rp' ≠ sp → Apart sb sn rb' rn')
    (hB : B (slice rb' rn') = false) (hsteps : ∀ f ∈ x.steps, Net.Ignores f (slice rb' rn')) :
    x.Before B y := by
  constructor
  · intro p s q u hs hu
    exact sep_halves hinner (hxi.symm.trans hs) (hy.symm.trans hu)
  · intro p s q u hs hu hne
    have hs := hxo.symm.trans hs
    have hu := hy.symm.trans hu
    refine sep_halves (houter fun he => hne ?_) hs hu
    rw [(half_eq_some hs).1, (half_eq_some hu).1, he]
  · intro q u hu
    rw [(half_eq_some (hy.symm.trans hu)).2]
    exact hB
  · intro q u hu
    rw [(half_eq_some (hy.symm.trans hu)).2]
    exact hsteps

/-! ## Loops that announce their receives -/

/-- The receives of the turns are announced, then the turns run. -/
theorem careful_turns (turns : List (Turn Nat Ptr UInt8)) {reqs : List RecvReq} {calls : List Call}
    (hreqs : postSlices reqs = turns.filterMap Turn.inn)
    (hcode : code K calls = turns.flatMap Turn.code) (hown : ∀ x ∈ turns, OwnSep x.out x.inn)
    (hpair : turns.Pairwise (Turn.Before B)) :
    Net.Along (Careful B) [] (code K (Call.postRecvs reqs :: calls)) := by
  have h : Net.Along (Careful B) [] (.post (postSlices reqs) :: code K calls) := by
    rw [hreqs, hcode]
    exact Net.along_post (Net.along_turns hown hpair)
  exact h

/-- A loop that announces its receives. -/
theorem careful_loop (turn : Nat → Turn Nat Ptr UInt8) {N : Nat} {req : Nat → RecvReq}
    {body : Nat → List Call}
    (hreq : ∀ i, half (req i).peer (req i).buf (req i).bytes = (turn i).inn)
    (hbody : ∀ i, code K (body i) = (turn i).code)
    (hown : ∀ i, i < N → OwnSep (turn i).out (turn i).inn)
    (hpair : ∀ i j, i < j → j < N → (turn i).Before B (turn j)) :
    Net.Along (Careful B) [] (code K (Call.postRecvs ((List.range N).map req) ::
      (List.range N).flatMap body)) := by
  refine careful_turns ((List.range N).map turn) ?_ ?_ ?_ ?_
  · rw [postSlices, List.filterMap_map, List.filterMap_map]
    exact List.filterMap_congr fun i _ => hreq i
  · rw [code, List.map_flatMap, List.flatMap_map]
    exact List.flatMap_congr fun i _ => hbody i
  · intro x hx
    obtain ⟨i, hi, rfl⟩ := List.mem_map.mp hx
    exact hown i (List.mem_range.mp hi)
  · rw [List.pairwise_map]
    refine List.pairwise_lt_range.imp_of_mem fun _ hj hij => ?_
    exact hpair _ _ hij (List.mem_range.mp hj)

theorem code_append (K : Kernels) (a b : List Call) : code K (a ++ b) = code K a ++ code K b :=
  List.map_append

theorem postSlices_append (a b : List RecvReq) :
    postSlices (a ++ b) = postSlices a ++ postSlices b := List.filterMap_append

/-! ## Calls that announce nothing -/

/-- A call that announces nothing and does not send what it receives into. -/
def Call.Calm : Call → Prop
  | .postRecvs _ => False
  | .sendRecv _ sb sn _ rb rn => Apart sb sn rb rn
  | _ => True

theorem quiet_call {c : Call} (h : c.Calm) : Net.Quiet (c.instr K) := by
  cases c with
  | postRecvs reqs => exact h.elim
  | sendRecv sp sb sn rp rb rn => exact ownSep_halves h
  | send peer buf bytes =>
    simp only [Call.instr]
    split
    · intro q u p s _ hi
      cases hi
    · trivial
  | recv peer buf bytes =>
    simp only [Call.instr]
    split
    · intro q u p s ho _
      cases ho
    · trivial
  | _ => trivial

theorem careful_calm {calls : List Call} (h : ∀ c ∈ calls, c.Calm) :
    Net.Along (Careful B) [] (code K calls) := by
  refine Net.along_quiet fun i hi => ?_
  obtain ⟨c, hc, rfl⟩ := List.mem_map.mp hi
  exact quiet_call (h c hc)

theorem careful_append {a b : List Call} (ha : Net.Along (Careful B) [] (code K a))
    (hb : Net.Along (Careful B) [] (code K b)) : Net.Along (Careful B) [] (code K (a ++ b)) := by
  rw [code_append]
  exact Net.Along.append hb ha

/-! ## The all-gathers -/

theorem blocks_apart {p : Ptr} {i j b : Nat} (h : i ≠ j) : Apart (p + i * b) b (p + j * b) b := by
  have hle : ∀ {x y : Nat}, x < y → x * b + b ≤ y * b := fun hxy => by
    rw [← Nat.succ_mul]
    exact Nat.mul_le_mul_right b hxy
  rcases Nat.lt_or_gt_of_ne h with h | h
  · exact apart_add (.inl (hle h))
  · exact apart_add (.inr (hle h))

theorem careful_ringAllGather {n r shift : Nat} {data : Ptr} {chunks : Nat → Chunk}
    (hc : ∀ i j, i ≠ j → Apart (data + (chunks i).offset) (chunks i).bytes
      (data + (chunks j).offset) (chunks j).bytes)
    (hB : 3 ≤ n → ∀ s, B s = false) :
    Net.Along (Careful B) [] (code K (ringAllGather n r data chunks shift)) := by
  have hne : ∀ i j, i < j → j < n → (r + shift + 2 * n - i) % n ≠ (r + shift + 2 * n - j) % n :=
    fun i j hij hj => sub_mod_ne hij (by omega) (by omega)
  refine careful_loop (fun s => ⟨_, _, []⟩) (fun _ => rfl) (fun _ => rfl) ?_ ?_
  · intro i hi
    refine ownSep_halves (hc _ _ ?_)
    rw [Nat.sub_sub]
    exact hne i (i + 1) (Nat.lt_succ_self i) (by omega)
  · intro i j hij hj
    refine before_halves rfl rfl rfl (hc _ _ ?_) (fun _ => hc _ _ ?_) (hB (by omega) _)
      fun f hf => absurd hf List.not_mem_nil
    · rw [Nat.sub_sub, Nat.sub_sub]
      exact hne (i + 1) (j + 1) (by omega) (by omega)
    · rw [Nat.sub_sub]
      exact hne i (j + 1) (by omega) (by omega)

/-- Aligned groups without a common member are apart. -/
theorem groups_apart {x y i j cb : Nat} {data : Ptr} (h : ∀ b, b >>> i = x >>> i → b >>> j ≠ y >>> j) :
    Apart (data + ((x >>> i) <<< i) * cb) (cb * 2 ^ i) (data + ((y >>> j) <<< j) * cb)
      (cb * 2 ^ j) := by
  have hsep : (x >>> i) <<< i + 2 ^ i ≤ (y >>> j) <<< j ∨ (y >>> j) <<< j + 2 ^ j ≤ (x >>> i) <<< i := by
    by_contra hmeet
    -- the later of the two first members is in both groups
    have hx : max ((x >>> i) <<< i) ((y >>> j) <<< j) >>> i = x >>> i :=
      Net.shiftRight_eq_iff.mpr (by have := Nat.two_pow_pos i; omega)
    have hy : max ((x >>> i) <<< i) ((y >>> j) <<< j) >>> j = y >>> j :=
      Net.shiftRight_eq_iff.mpr (by have := Nat.two_pow_pos j; omega)
    exact h _ hx hy
  have hmul : ∀ {a l b : Nat}, a + l ≤ b → a * cb + cb * l ≤ b * cb := fun hab => by
    rw [Nat.mul_comm cb, ← Nat.add_mul]
    exact Nat.mul_le_mul_right cb hab
  exact apart_add (hsep.imp hmul hmul)

/-- Members of a group are together in all larger groups. -/
theorem shiftRight_mono {b x i j : Nat} (hij : i ≤ j) (h : b >>> i = x >>> i) : b >>> j = x >>> j := by
  obtain ⟨d, rfl⟩ := Nat.exists_eq_add_of_le hij
  rw [Nat.shiftRight_add, Nat.shiftRight_add, h]

theorem xor_shiftRight_ne (r i : Nat) : r >>> i ≠ (r ^^^ (1 <<< i)) >>> i := by
  rw [Net.xor_shiftRight]
  exact (Net.xor_ne_self (r >>> i) 0).symm

theorem careful_recursiveDoublingAllGather {n r cb : Nat} {data : Ptr}
    (hB : 3 ≤ n → ∀ s, B s = false) :
    Net.Along (Careful B) [] (code K (recursiveDoublingAllGather n r data cb)) := by
  -- the own group of a step is in that of every later step
  have hsent : ∀ i j b, i ≤ j → b >>> i = r >>> i → b >>> j ≠ (r ^^^ (1 <<< j)) >>> j :=
    fun i j b hij hb h => xor_shiftRight_ne r j ((shiftRight_mono hij hb).symm.trans h)
  refine careful_loop (fun i => ⟨_, _, []⟩) (fun _ => rfl) (fun _ => rfl) ?_ ?_
  · intro i _
    exact ownSep_halves (groups_apart fun b hb => hsent i i b (Nat.le_refl i) hb)
  · intro i j hij hj
    refine before_halves rfl rfl rfl (groups_apart fun b hb => ?_)
      (fun _ => groups_apart fun b hb => hsent i j b (Nat.le_of_lt hij) hb) (hB ?_ _)
      fun f hf => absurd hf List.not_mem_nil
    · -- what step `i` receives is in the own group of step `i + 1`
      have hnext : b >>> (i + 1) = r >>> (i + 1) :=
        (shiftRight_mono (Nat.le_succ i) hb).trans (Net.xor_shiftRight_succ r i)
      exact hsent (i + 1) j b hij hnext
    · have h2 := lt_steps_iff.mp hj
      have h1 : 2 ^ 1 ≤ 2 ^ j := Nat.pow_le_pow_right Nat.two_pos (by omega)
      omega

theorem careful_bruckAllGather {n r cb : Nat} {recv : Ptr} (hB : 3 ≤ n → ∀ s, B s = false) :
    Net.Along (Careful B) [] (code K (bruckAllGather n r recv cb)) := by
  have hle : ∀ {a l b : Nat}, a + l ≤ b → a * cb + l * cb ≤ b * cb := fun h => by
    rw [← Nat.add_mul]
    exact Nat.mul_le_mul_right cb h
  have hwidth : ∀ i, bruckWidth n i ≤ 2 ^ i := fun i => Nat.min_le_left _ _
  have hloop : Net.Along (Careful B) [] (code K ([Call.postRecvs ((List.range (steps n)).map fun i =>
        RecvReq.mk ((r + 2 ^ i) % n) (recv + 2 ^ i * cb) (bruckWidth n i * cb))] ++
      (List.range (steps n)).flatMap fun i =>
        [Call.sendRecv ((r + n - 2 ^ i) % n) recv (bruckWidth n i * cb) ((r + 2 ^ i) % n)
          (recv + 2 ^ i * cb) (bruckWidth n i * cb)])) := by
    -- the prefix sent at a step ends before what that step or a later one receives
    have hbefore : ∀ i j, i ≤ j → Apart recv (bruckWidth n i * cb) (recv + 2 ^ j * cb)
        (bruckWidth n j * cb) := by
      intro i j hij
      have hpow : 2 ^ i ≤ 2 ^ j := Nat.pow_le_pow_right Nat.two_pos hij
      have h := hle (a := 0) (l := bruckWidth n i) (b := 2 ^ j) (by have := hwidth i; omega)
      exact apart_add (j := 0) (.inl (by omega))
    refine careful_loop (fun i => ⟨_, _, []⟩) (fun _ => rfl) (fun _ => rfl) ?_ ?_
    · exact fun i _ => ownSep_halves (hbefore i i (Nat.le_refl i))
    · intro i j hij hj
      refine before_halves rfl rfl rfl (apart_add (.inl (hle ?_)))
        (fun _ => hbefore i j (Nat.le_of_lt hij)) (hB ?_ _) fun f hf => absurd hf List.not_mem_nil
      · have h2 : 2 ^ (i + 1) ≤ 2 ^ j := Nat.pow_le_pow_right Nat.two_pos hij
        have := hwidth i
        rw [Nat.pow_succ] at h2
        omega
      · have h2 := lt_steps_iff.mp hj
        have h1 : 2 ^ 1 ≤ 2 ^ j := Nat.pow_le_pow_right Nat.two_pos (by omega)
        omega
  unfold bruckAllGather
  rw [bruckSteps_eq, List.flatMap_map, List.map_map, List.append_assoc _ [_] _]
  refine careful_append (careful_append (careful_calm ?_) hloop) (careful_calm ?_)
  · split
    · exact List.forall_mem_singleton.mpr trivial
    · exact fun c hc => absurd hc List.not_mem_nil
  · split
    · intro c hc
      simp only [List.mem_append, List.mem_singleton, List.mem_map] at hc
      rcases hc with (rfl | ⟨i, -, rfl⟩) | rfl
      · trivial
      · trivial
      · trivial
    · exact fun c hc => absurd hc List.not_mem_nil

/-! ## The all-reduces -/

/-- An exchange of the accumulator that receives into region `i` of scratch, and the reduction of
what came. -/
def regionTurn (K : Kernels) (dt : DataType) (op : RedOp) (recv : Ptr) (count : Nat)
    (out : Option (Nat × List Ptr)) (peer i : Nat) : Turn Nat Ptr UInt8 where
  out := out
  inn := half peer (scratch + i * (count * typeSize dt)) (count * typeSize dt)
  steps := [cpuReduce K dt op recv (scratch + i * (count * typeSize dt)) count]

section Regions

variable {dt : DataType} {op : RedOp} {recv : Ptr} {count : Nat}

theorem regionTurn_code (sp peer i : Nat) :
    code K [Call.sendRecv sp recv (count * typeSize dt) peer
        (scratch + i * (count * typeSize dt)) (count * typeSize dt),
      Call.cpuReduce dt op recv (scratch + i * (count * typeSize dt)) count] =
    (regionTurn K dt op recv count (half sp recv (count * typeSize dt)) peer i).code := rfl

theorem regionTurn_own {peer i sp b : Nat} (hobj : recv.obj ≠ .scratch) :
    OwnSep (regionTurn K dt op recv count (half sp recv b) peer i).out
      (regionTurn K dt op recv count (half sp recv b) peer i).inn :=
  ownSep_halves (apart_of_obj hobj)

/-- A turn on another region does not disturb a pending region. -/
theorem regionTurn_before {peer i sp b peer' j : Nat} {out : Option (Nat × List Ptr)}
    (hobj : recv.obj ≠ .scratch) (hij : i ≠ j)
    (hB : ∀ p b, p.obj = .scratch → B (slice p b) = false) :
    (regionTurn K dt op recv count (half sp recv b) peer i).Before B
      (regionTurn K dt op recv count out peer' j) := by
  refine before_halves rfl rfl rfl (blocks_apart hij) (fun _ => apart_of_obj hobj) (hB _ _ rfl) ?_
  intro f hf
  obtain rfl := List.mem_singleton.mp hf
  have huser : Apart (scratch + j * (count * typeSize dt)) (count * typeSize dt) recv
      (count * typeSize dt) := apart_of_obj hobj.symm
  refine ignores_call K (c := .cpuReduce dt op recv (scratch + i * (count * typeSize dt)) count) rfl ?_ ?_
  · exact List.forall_mem_cons.mpr ⟨huser, List.forall_mem_singleton.mpr (blocks_apart hij.symm)⟩
  · exact List.forall_mem_singleton.mpr huser

theorem careful_recursiveDoublingAllReduce {n r : Nat} (hobj : recv.obj ≠ .scratch)
    (hB : ∀ p b, p.obj = .scratch → B (slice p b) = false) :
    Net.Along (Careful B) [] (code K (recursiveDoublingAllReduce n r recv count dt op)) := by
  refine careful_append (a := [_]) (careful_calm (List.forall_mem_singleton.mpr trivial))
    (careful_loop (fun i => regionTurn K dt op recv count
      (half (r ^^^ (1 <<< i)) recv (count * typeSize dt)) (r ^^^ (1 <<< i)) i) (fun _ => rfl)
      (fun i => regionTurn_code (r ^^^ (1 <<< i)) (r ^^^ (1 <<< i)) i)
      (fun _ _ => regionTurn_own hobj) fun i j hij _ =>
        regionTurn_before hobj (Nat.ne_of_lt hij) hB)

/-- The core turns of an active rank. -/
def coreTurns (K : Kernels) (n extra : Nat) (dt : DataType) (op : RedOp) (recv : Ptr) (count : Nat) :
    Option Nat → List (Turn Nat Ptr UInt8)
  | some newRank => (List.range (steps (elimP2 n))).map fun i =>
      regionTurn K dt op recv count
        (half (oldRank extra (newRank ^^^ (1 <<< i))) recv (count * typeSize dt))
        (oldRank extra (newRank ^^^ (1 <<< i))) (1 + i)
  | none => []

theorem mem_coreTurns {n extra : Nat} {new : Option Nat} {x : Turn Nat Ptr UInt8}
    (hx : x ∈ coreTurns K n extra dt op recv count new) :
    ∃ peer i, x = regionTurn K dt op recv count (half peer recv (count * typeSize dt)) peer (1 + i) := by
  cases new with
  | none => exact absurd hx List.not_mem_nil
  | some j =>
    obtain ⟨i, -, rfl⟩ := List.mem_map.mp hx
    exact ⟨_, i, rfl⟩

theorem coreTurns_post (n extra : Nat) (new : Option Nat) :
    postSlices ((corePeers n extra (count * typeSize dt) new).map fun cp =>
        RecvReq.mk cp.1 cp.2 (count * typeSize dt)) =
      (coreTurns K n extra dt op recv count new).filterMap Turn.inn := by
  cases new with
  | none => rfl
  | some j =>
    rw [postSlices, corePeers, coreTurns, List.map_map, List.filterMap_map, List.filterMap_map]
    rfl

theorem coreTurns_code (n extra : Nat) (new : Option Nat) :
    code K ((corePeers n extra (count * typeSize dt) new).flatMap fun cp =>
        [Call.sendRecv cp.1 recv (count * typeSize dt) cp.1 cp.2 (count * typeSize dt),
         Call.cpuReduce dt op recv cp.2 count]) =
      (coreTurns K n extra dt op recv count new).flatMap Turn.code := by
  cases new with
  | none => rfl
  | some j =>
    rw [code, corePeers, coreTurns, List.map_flatMap, List.flatMap_map, List.flatMap_map]
    rfl

theorem coreTurns_pairwise {n extra : Nat} {new : Option Nat} (hobj : recv.obj ≠ .scratch)
    (hB : ∀ p b, p.obj = .scratch → B (slice p b) = false) :
    (coreTurns K n extra dt op recv count new).Pairwise (Turn.Before B) := by
  cases new with
  | none => exact List.Pairwise.nil
  | some j =>
    rw [coreTurns, List.pairwise_map]
    exact List.pairwise_lt_range.imp fun hij => regionTurn_before hobj (by omega) hB

/-- A turn that receives nothing is never pending. -/
theorem before_of_none {x y : Turn Nat Ptr UInt8} (h : y.inn = none) : x.Before B y := by
  constructor
  · exact fun _ _ _ _ _ hu => absurd (h.symm.trans hu) (by simp)
  · exact fun _ _ _ _ _ hu => absurd (h.symm.trans hu) (by simp)
  · exact fun _ _ hu => absurd (h.symm.trans hu) (by simp)
  · exact fun _ _ hu => absurd (h.symm.trans hu) (by simp)

theorem careful_pow2ElimAllReduce {n r : Nat} (hc : count ≠ 0) (hobj : recv.obj ≠ .scratch)
    (hB : ∀ s, B s = false) :
    Net.Along (Careful B) [] (code K (pow2ElimAllReduce n r recv count dt op)) := by
  have hb : count * typeSize dt ≠ 0 := Nat.mul_ne_zero hc (Nat.pos_iff_ne_zero.mp (typeSize_pos dt))
  let core := coreTurns K n (n - elimP2 n) dt op recv count (newRank (n - elimP2 n) r)
  have hcoreOwn : ∀ x ∈ core, OwnSep x.out x.inn := by
    intro x hx
    obtain ⟨peer, i, rfl⟩ := mem_coreTurns hx
    exact regionTurn_own hobj
  have hcorePair : core.Pairwise (Turn.Before B) := coreTurns_pairwise hobj fun p b _ => hB (slice p b)
  have hcorePost : _ = core.filterMap Turn.inn := coreTurns_post n (n - elimP2 n) _
  have hcoreCode : _ = core.flatMap Turn.code := coreTurns_code n (n - elimP2 n) _
  unfold pow2ElimAllReduce
  simp only [List.append_assoc, List.cons_append, List.nil_append]
  refine careful_append (a := [_]) (careful_calm (List.forall_mem_singleton.mpr trivial)) ?_
  by_cases hpre : r < 2 * (n - elimP2 n)
  · rcases Nat.mod_two_eq_zero_or_one r with h2 | h2
    · -- an even survivor takes its neighbour in, runs the core, and sends the result back
      let first := regionTurn K dt op recv count (half (r + 1) recv 0) (r + 1) 0
      let last : Turn Nat Ptr UInt8 := ⟨half (r + 1) recv (count * typeSize dt), none, []⟩
      refine careful_turns (first :: (core ++ [last])) ?_ ?_ ?_ ?_
      · simp only [hpre, h2, Nat.and_one_is_mod, and_self, if_true, and_false, if_false,
          List.nil_append, Nat.zero_ne_one]
        rw [postSlices_append, hcorePost, List.filterMap_cons, List.filterMap_append]
        simp [postSlices, half, hb, first, last, core, regionTurn, Ptr.add_zero]
      · simp only [hpre, h2, Nat.and_one_is_mod, and_self, if_true]
        rw [code_append, code_append, hcoreCode, List.flatMap_cons, List.flatMap_append]
        simp [code, Call.instr, half, hb, first, last, core, regionTurn, Turn.code, Ptr.add_zero]
      · intro x hx
        rcases List.mem_cons.mp hx with rfl | hx
        · exact regionTurn_own hobj
        rcases List.mem_append.mp hx with hx | hx
        · exact hcoreOwn x hx
        · obtain rfl := List.mem_singleton.mp hx
          intro q u p s _ hi
          cases hi
      · refine List.pairwise_cons.mpr ⟨fun y hy => ?_, List.pairwise_append.mpr
          ⟨hcorePair, List.pairwise_singleton _ _, fun x _ y hy => ?_⟩⟩
        · rcases List.mem_append.mp hy with hy | hy
          · obtain ⟨peer, i, rfl⟩ := mem_coreTurns hy
            exact regionTurn_before hobj (by omega) fun p b _ => hB (slice p b)
          · exact before_of_none (by rw [List.mem_singleton.mp hy])
        · exact before_of_none (by rw [List.mem_singleton.mp hy])
    · -- an eliminated rank announces the receive of the result before it sends its share
      let share : Turn Nat Ptr UInt8 := ⟨half (r - 1) recv (count * typeSize dt), none, []⟩
      let result : Turn Nat Ptr UInt8 := ⟨none, half (r - 1) recv (count * typeSize dt), []⟩
      have hnew : newRank (n - elimP2 n) r = none := by
        simp [newRank, hpre, h2, Nat.and_one_is_mod]
      refine careful_turns [share, result] ?_ ?_ ?_ ?_
      · simp [hpre, h2, Nat.and_one_is_mod, hnew, corePeers, share, result, postSlices, half, hb]
      · simp [hpre, h2, Nat.and_one_is_mod, hnew, corePeers, share, result, code, Call.instr, half, hb,
          Turn.code]
      · intro x hx
        rcases List.mem_pair.mp hx with rfl | rfl
        · intro q u p s _ hi
          cases hi
        · intro q u p s ho _
          cases ho
      · refine List.pairwise_pair.mpr (before_halves rfl (show _ = half 0 recv 0 from rfl) rfl
          (apart_add (p := recv) (j := 0) (k := 0) (.inl (Nat.le_refl 0))) (fun hne => absurd rfl hne)
          (hB _) fun f hf => absurd hf List.not_mem_nil)
  · refine careful_turns core ?_ ?_ hcoreOwn hcorePair
    · simpa [hpre] using hcorePost
    · simpa [hpre] using hcoreCode

end Regions

/-! ## The collectives -/

section Collectives

variable {n r count root : Nat} {s d : Ptr} {dt : DataType} {op : RedOp} {premul : Option Factor}

theorem calm_doReduce : ∀ c ∈ doReduce n r s d count dt op premul root, c.Calm := by
  unfold doReduce
  generalize kPipeBytes = pipe
  cases premul <;> grind [Call.Calm]

theorem calm_doBroadcast : ∀ c ∈ doBroadcast n r s d count dt root, c.Calm := by
  unfold doBroadcast
  generalize kPipeBytes = pipe
  grind [Call.Calm]

theorem calm_doGather : ∀ c ∈ doGather n r s d count dt root, c.Calm := by
  unfold doGather
  grind [Call.Calm]

theorem calm_doScatter : ∀ c ∈ doScatter n r s d count dt root, c.Calm := by
  unfold doScatter
  grind [Call.Calm]

theorem calm_doAllToAllv {sc sd rc rd : Nat → Nat}
    (h : ∀ p q, p < n → q < n → Apart (s + sd p * typeSize dt) (sc p * typeSize dt)
      (d + rd q * typeSize dt) (rc q * typeSize dt)) :
    ∀ c ∈ doAllToAllv n r s sc sd d rc rd dt, c.Calm := by
  have hmod : ∀ a i, i ∈ List.range' 1 (n - 1) → a % n < n := fun a i hi => by
    have := List.mem_range'_1.mp hi
    exact Nat.mod_lt _ (by omega)
  unfold doAllToAllv
  grind [Call.Calm]

theorem calm_ringReduceScatter {chunks : Nat → Chunk} (hobj : d.obj ≠ .scratch) :
    ∀ c ∈ ringReduceScatter n r d chunks dt op, c.Calm := by
  have hapart : ∀ j b c : Nat, Apart (d + j) b scratch c := fun _ _ _ => apart_of_obj hobj
  unfold ringReduceScatter
  grind [Call.Calm]

theorem calm_gain {p q : Ptr} : ∀ c ∈ gainCalls dt op p q count premul, c.Calm := by
  cases premul <;> grind [gainCalls, Call.Calm]

theorem calm_finish {p q w : Ptr} : ∀ c ∈ finishCalls n dt op p q w count premul, c.Calm := by
  cases premul <;> grind [finishCalls, enterCalls, Call.Calm]

theorem calm_doReduceScatter (hn : 0 < n) (hobj : s.obj ≠ .scratch) :
    ∀ c ∈ doReduceScatter n r s d count dt op premul, c.Calm := by
  by_cases h0 : n = 1 ∨ count = 0
  · unfold doReduceScatter
    cases premul <;> grind [Call.Calm]
  · -- what a step sends is the buffer the step before received into
    have hfirst : (s + (r + n - 1) % n * (count * typeSize dt)).obj ≠ .scratch := hobj
    have hapart := fun t => (recvBuf_apart (count * typeSize dt) t premul hfirst).symm
    rw [doReduceScatter_eq h0 hn]
    simp only [List.forall_mem_append, List.forall_mem_cons, List.forall_mem_flatMap]
    refine ⟨⟨⟨trivial, trivial, ?_⟩, ?_⟩, fun t _ => ⟨hapart t, calm_gain⟩, hapart (n - 2), calm_finish⟩
    · exact fun c hc => absurd hc List.not_mem_nil
    · cases premul <;> simp [Call.Calm]

end Collectives

/-- Receives are pending in the user's buffers while another transport call ends: an all-gather of
three ranks or more announces several, and so does the ring of an all-reduce; a rank that
`pow2ElimAllReduce` eliminates announces the result before it sends its share. -/
def Collective.Stacks (n : Nat) : Collective → Prop
  | .allGather _ _ _ _ _ => 3 ≤ n
  | .allReduce env _ _ count dt _ _ =>
    3 ≤ n ∧ ¬ (env.logPath 262144 (count * typeSize dt) = true ∧ pow2 n = true)
  | _ => False

/-- What `vcclAllToAllv` sends and receives is apart. -/
def Collective.NotInPlace (n r : Nat) : Collective → Prop
  | .allToAllv s d cnt sdispls rdispls dt =>
    (Collective.allToAllv s d cnt sdispls rdispls dt).OutOfPlace n r
  | _ => True

/-- The chunks of the ring are apart. -/
theorem chunks_apart {n count e : Nat} {p : Ptr} {i j : Nat} (h : i ≠ j) :
    Apart (p + (makeChunks count n e i).offset) (makeChunks count n e i).bytes
      (p + (makeChunks count n e j).offset) (makeChunks count n e j).bytes := by
  -- a chunk ends where the next begins, or later chunks are empty
  have hlt : ∀ {a b : Nat}, a < b →
      (makeChunks count n e a).offset + (makeChunks count n e a).bytes ≤
        (makeChunks count n e b).offset := by
    intro a b hab
    simp only [makeChunks]
    rw [← Nat.add_mul]
    refine Nat.mul_le_mul_right e ?_
    have h1 : (count + n - 1) / n * (a + 1) ≤ (count + n - 1) / n * b := Nat.mul_le_mul_left _ hab
    have h2 : (count + n - 1) / n * a ≤ (count + n - 1) / n * (a + 1) :=
      Nat.mul_le_mul_left _ (Nat.le_succ a)
    omega
  rcases Nat.lt_or_gt_of_ne h with h | h
  · exact apart_add (.inl (hlt h))
  · exact apart_add (.inr (hlt h))

/-- **No rank notices when a message is written.** The calls of every collective keep to `Careful`:
a rank neither reads nor writes a slice it has announced, and what it sends never overlaps a slice
that another rank may be writing. -/
theorem careful_calls {n r : Nat} {c : Collective} (hr : r < n) (huser : c.UserOnly n r)
    (hplace : c.NotInPlace n r) (hscratch : ∀ p b, p.obj = .scratch → B (slice p b) = false)
    (hB : c.Stacks n → ∀ s, B s = false) : Net.Along (Careful B) [] (code K (c.calls n r)) := by
  unfold Collective.calls
  cases c with
  | allGather env s d count dt =>
    simp only [doAllGather_eq, allGatherBy]
    refine careful_append (careful_calm (by grind [Call.Calm])) ?_
    split
    · exact careful_calm fun c hc => absurd hc List.not_mem_nil
    · cases gatherChoice (env.logPath 65536 (count * typeSize dt)) n with
      | ring =>
        unfold GatherAlgo.calls
        refine careful_ringAllGather (fun i j hij => ?_) hB
        exact blocks_apart hij
      | recdouble => exact careful_recursiveDoublingAllGather hB
      | bruck => exact careful_bruckAllGather hB
  | reduceScatter s d count dt op premul =>
    exact careful_calm (calm_doReduceScatter (by omega) (huser.input List.mem_cons_self))
  | allReduce env s d count dt op premul =>
    have hobj : (d r).obj ≠ .scratch := huser.output List.mem_cons_self
    simp only [doAllReduce]
    refine careful_append (careful_calm (by cases premul r <;> grind [Call.Calm])) ?_
    split
    · exact careful_calm fun c hc => absurd hc List.not_mem_nil
    rename_i h0
    split
    · rename_i hlog
      refine careful_append ?_ (careful_calm (by grind [Call.Calm]))
      split
      · exact careful_recursiveDoublingAllReduce hobj hscratch
      · rename_i hpow
        have hthree : 3 ≤ n := by
          by_contra hn
          obtain rfl : n = 2 := by omega
          exact hpow rfl
        exact careful_pow2ElimAllReduce (fun h => h0 (Or.inr h)) hobj
          (hB ⟨hthree, fun h => hpow h.2⟩)
    · rename_i hlog
      refine careful_append (careful_append (careful_calm (calm_ringReduceScatter hobj))
        (careful_calm (by grind [Call.Calm]))) (careful_ringAllGather (fun i j hij => ?_) fun hn =>
          hB ⟨hn, fun h => hlog h.1⟩)
      exact chunks_apart hij
  | reduce s d count dt op premul root => exact careful_calm calm_doReduce
  | broadcast s d count dt root => exact careful_calm calm_doBroadcast
  | gather s d count dt root => exact careful_calm calm_doGather
  | scatter s d count dt root => exact careful_calm calm_doScatter
  | allToAllv s d cnt sdispls rdispls dt =>
    refine careful_calm (calm_doAllToAllv fun p q hp hq => ?_)
    have hin : (s r + sdispls r p * typeSize dt, cnt r p * typeSize dt) ∈
        (Collective.allToAllv s d cnt sdispls rdispls dt).inputs n r :=
      List.mem_map.mpr ⟨p, List.mem_range.mpr hp, rfl⟩
    have hout : (d r + rdispls r q * typeSize dt, cnt q r * typeSize dt) ∈
        (Collective.allToAllv s d cnt sdispls rdispls dt).outputs n r :=
      List.mem_map.mpr ⟨q, List.mem_range.mpr hq, rfl⟩
    exact (hplace _ hin _ hout).symm

/-! ## Runs -/

/-- What the ranks run for a sequence of collectives. -/
def seqProg (K : Kernels) (n : Nat) (cs : List Collective) (r : Nat) : List (Net.Instr Nat Ptr UInt8) :=
  if r < n then code K (seqCalls n r cs) else []

/-- The collectives may run over staged buffers: user buffers are not scratch, what an all-to-all-v
sends is apart from what it receives, scratch is never staged, and nothing is staged if a collective
stacks its receives. -/
structure Stageable (n : Nat) (staged : Nat → List Ptr → Bool) (cs : List Collective) : Prop where
  root : ∀ c ∈ cs, c.RootOk n
  user : ∀ c ∈ cs, ∀ r, r < n → c.UserOnly n r
  place : ∀ c ∈ cs, ∀ r, r < n → c.NotInPlace n r
  scratch : ∀ r p b, p.obj = .scratch → staged r (slice p b) = false
  unstacked : ∀ c ∈ cs, c.Stacks n → ∀ r s, staged r s = false

section Runs

variable {n : Nat} {staged : Nat → List Ptr → Bool} {cs : List Collective}

theorem careful_prog (h : Stageable n staged cs) (r : Nat) :
    Net.Along (Careful (staged r)) [] (seqProg K n cs r) := by
  unfold seqProg
  split
  · rename_i hr
    have hall : ∀ l : List Collective, l ⊆ cs →
        Net.Along (Careful (staged r)) [] (code K (seqCalls n r l)) := by
      intro l
      induction l with
      | nil => exact fun _ => rfl
      | cons c l ih =>
        intro hl
        have hc : c ∈ cs := hl List.mem_cons_self
        exact careful_append (careful_calls hr (h.user c hc r hr) (h.place c hc r hr)
          (h.scratch r) fun hst => h.unstacked c hc hst r) (ih (List.subset_of_cons_subset hl))
    exact hall cs (List.Subset.refl cs)
  · rfl

theorem inSlices_code (p : Nat) (calls : List Call) :
    (Net.inSlices p (code K calls)).map List.length = receivedSizes p calls := by
  rw [Net.inSlices, code, List.filterMap_map, List.map_filterMap, receivedSizes]
  congr 1
  funext c
  cases c with
  | send peer buf bytes => by_cases h0 : bytes = 0 <;> simp [Call.instr, half, h0]
  | recv peer buf bytes =>
    by_cases h0 : bytes = 0
    · simp [Call.instr, half, h0]
    · by_cases hp : peer = p <;> simp [Call.instr, half, h0, hp, slice_length]
  | sendRecv sp sb sn rp rb rn =>
    by_cases h0 : rn = 0
    · simp [Call.instr, half, h0]
    · by_cases hp : rp = p <;> simp [Call.instr, half, h0, hp, slice_length]
  | _ => rfl

theorem outSlices_code (q : Nat) (calls : List Call) :
    (Net.outSlices q (code K calls)).map List.length = sentSizes q calls := by
  rw [Net.outSlices, code, List.filterMap_map, List.map_filterMap, sentSizes]
  congr 1
  funext c
  cases c with
  | send peer buf bytes =>
    by_cases h0 : bytes = 0
    · simp [Call.instr, half, h0]
    · by_cases hp : peer = q <;> simp [Call.instr, half, h0, hp, slice_length]
  | recv peer buf bytes => by_cases h0 : bytes = 0 <;> simp [Call.instr, half, h0]
  | sendRecv sp sb sn rp rb rn =>
    by_cases h0 : sn = 0
    · simp [Call.instr, half, h0]
    · by_cases hp : sp = q <;> simp [Call.instr, half, h0, hp, slice_length]
  | _ => rfl

/-- The sizes of calls that follow their slots are those of the slots. -/
theorem receivedSizes_plan {calls : List Call} {pl : List Slot} (p : Nat)
    (h : exchanges calls = pl.map Slot.halves) :
    receivedSizes p calls = (received p pl).map Prod.snd := by
  rw [receivedSizes_eq, h, List.filterMap_map, received, List.map_filterMap]
  simp only [sizeFor_tagged]
  rfl

theorem sentSizes_plan {calls : List Call} {pl : List Slot} (q : Nat)
    (h : exchanges calls = pl.map Slot.halves) : sentSizes q calls = (sent q pl).map Prod.snd := by
  rw [sentSizes_eq, h, List.filterMap_map, sent, List.map_filterMap]
  simp only [sizeFor_tagged]
  rfl

/-- What the results below need of a sequence of collectives. -/
theorem stageable_facts (K : Kernels) (hn : 0 < n) (h : Stageable n staged cs) (m : Nat → Mem) :
    ∃ plan : Nat → List (Net.Entry Nat),
      (∀ p q, Net.inTimes p (plan q) = Net.outTimes q (plan p)) ∧ (∀ r, Net.Ordered (plan r)) ∧
      (∀ r, Net.wp (fun _ _ _ _ => True) r (seqProg K n cs r) (plan r) (fun _ => True) (m r)) ∧
      ∀ p r, (Net.inSlices p (seqProg K n cs r)).map List.length =
        (Net.outSlices r (seqProg K n cs p)).map List.length := by
  obtain ⟨b, -, hplan⟩ := schedule_seq hn cs 0 h.root
  have hex : ∀ r, r < n → exchanges (seqCalls n r cs) = (seqPlan n r 0 cs).map Slot.halves :=
    fun r hr => exchanges_seq hr cs 0 h.root
  refine ⟨ranksOnly n fun r => seqPlan n r 0 cs, ranksOnly_meet hplan, ranksOnly_ordered hplan,
    fun r => ?_, fun p r => ?_⟩
  · unfold ranksOnly seqProg
    split
    · rename_i hr
      exact wp_of_exchanges K r _ _ _ (hex r hr)
    · trivial
  · unfold seqProg
    by_cases hp : p < n <;> by_cases hr : r < n
    · rw [if_pos hp, if_pos hr, inSlices_code, outSlices_code]
      exact (sizes_match hplan hex hp hr).symm
    · rw [if_pos hp, if_neg hr, outSlices_code, sentSizes_plan r (hex p hp),
        (not_mem_peers hplan hp hr).1]
      rfl
    · rw [if_neg hp, if_pos hr, inSlices_code, receivedSizes_plan p (hex r hr),
        (not_mem_peers hplan hr hp).2]
      rfl
    · rw [if_neg hp, if_neg hr]
      rfl

/-- An all-gather of three ranks around the ring. -/
def ringOfThree : List Collective :=
  [.allGather ⟨some "ring", none⟩ (fun _ => ⟨.user 0, 0⟩) (fun _ => ⟨.user 1, 0⟩) 1 .int8]

theorem stageable_ringOfThree : Stageable 3 (fun _ _ => false) ringOfThree := by
  refine ⟨fun c hc => ?_, fun c hc => ?_, fun c hc => ?_, fun _ _ _ _ => rfl, fun _ _ _ _ _ => rfl⟩
  · obtain rfl := List.mem_singleton.mp hc
    trivial
  · obtain rfl := List.mem_singleton.mp hc
    intro r _ x hx
    rcases List.mem_pair.mp hx with rfl | rfl <;> simp
  · obtain rfl := List.mem_singleton.mp hc
    exact fun _ _ => trivial

end Runs

end Vccl
