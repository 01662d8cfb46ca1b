import Vccl.Wire
import Mathlib.Data.List.Sort
import Mathlib.Data.List.Nodup

/-!
# Splitting a communicator (`vcclCommSplit`)

A split is two exchanges on the parent's bootstrap network: 8 bytes of color and key from every rank,
and then 128 bytes of id, which only the ranks that lead a subgroup fill in. Between the two every
rank works out for itself who the members of its color are, in which order, and whether it leads. A
leader whose `vcclGetUniqueId` fails returns before the second exchange.

`Splits` says what the ranks do: the arguments of their calls, one after another, and what
`vcclGetUniqueId` gives them. `splitCall` is the caller that this makes for the bootstrap network, so a
run is a run of `Vccl.Bootstrap`, with every interleaving and every cut of the bytes.

* `members`, `newRank`: the local computation. `mem_members`, `members_pairwise`, `newRank_getElem?`.
* `splitting`: where a rank is after the tables it has received.
* `InSync`: no rank goes on to another call alone. `schedule`: which exchange round `k` is then.
* `onCourse`: in every round that takes place, all ranks are in the exchange of the schedule.
-/

namespace Vccl.Split

open Net (Flow)

/-! ## Members and ranks -/

/-- The order of `std::pair`. -/
def PairLe (a b : Int × Nat) : Prop := a.1 < b.1 ∨ (a.1 = b.1 ∧ a.2 ≤ b.2)

instance : DecidableRel PairLe := fun a b =>
  inferInstanceAs (Decidable (a.1 < b.1 ∨ (a.1 = b.1 ∧ a.2 ≤ b.2)))

/-- Key and rank of the ranks of a color. -/
def collect (info : List SplitInfo) (color : BitVec 32) : List (Int × Nat) :=
  (info.zipIdx.filter fun e => e.1.color = color).map fun e => (e.1.key.toInt, e.2)

/-- `members`: key and parent rank of the ranks of a color, sorted; none for a negative color. -/
def members (info : List SplitInfo) (color : BitVec 32) : List (Int × Nat) :=
  if 0 ≤ color.toInt then (collect info color).insertionSort PairLe else []

/-- `newRank`: the loop over the members keeps the last index that matches. -/
def newRank (ms : List (Int × Nat)) (rank : Nat) : Int :=
  ms.zipIdx.foldl (fun acc e => if e.1.2 = rank then (e.2 : Int) else acc) (-1)

instance : Std.Total PairLe := ⟨fun a b => by unfold PairLe; omega⟩

instance : IsTrans (Int × Nat) PairLe := ⟨fun a b c => by unfold PairLe; omega⟩

theorem mem_collect {info : List SplitInfo} {color : BitVec 32} {e : Int × Nat} :
    e ∈ collect info color ↔ ∃ a, info[e.2]? = some a ∧ a.color = color ∧ e.1 = a.key.toInt := by
  simp only [collect, List.mem_map, List.mem_filter, decide_eq_true_eq, Prod.exists,
    List.mem_zipIdx_iff_getElem?]
  constructor
  · rintro ⟨a, i, ⟨hget, hcolor⟩, rfl⟩
    exact ⟨a, hget, hcolor, rfl⟩
  · rintro ⟨a, hget, hcolor, hkey⟩
    exact ⟨a, e.2, ⟨hget, hcolor⟩, Prod.ext hkey.symm rfl⟩

theorem collect_nodup (info : List SplitInfo) (color : BitVec 32) :
    ((collect info color).map Prod.snd).Nodup := by
  have hmap : (collect info color).map Prod.snd =
      (info.zipIdx.filter fun e => e.1.color = color).map Prod.snd := by
    simp [collect, Function.comp_def]
  rw [hmap]
  refine List.Nodup.sublist (List.Sublist.map _ List.filter_sublist) ?_
  rw [List.zipIdx_map_snd]
  exact List.nodup_range'

theorem members_of_nonneg {info : List SplitInfo} {color : BitVec 32} (h : 0 ≤ color.toInt) :
    members info color = (collect info color).insertionSort PairLe := if_pos h

theorem members_perm {info : List SplitInfo} {color : BitVec 32} (h : 0 ≤ color.toInt) :
    (members info color).Perm (collect info color) := by
  rw [members_of_nonneg h]
  exact List.perm_insertionSort _ _

/-- The members of a color are the ranks that gave it. -/
theorem mem_members {info : List SplitInfo} {color : BitVec 32} (h : 0 ≤ color.toInt)
    {e : Int × Nat} :
    e ∈ members info color ↔ ∃ a, info[e.2]? = some a ∧ a.color = color ∧ e.1 = a.key.toInt := by
  rw [(members_perm h).mem_iff, mem_collect]

theorem members_nodup (info : List SplitInfo) (color : BitVec 32) :
    ((members info color).map Prod.snd).Nodup := by
  by_cases h : 0 ≤ color.toInt
  · exact ((members_perm h).map _).nodup_iff.mpr (collect_nodup info color)
  · rw [members, if_neg h]
    exact List.nodup_nil

theorem length_members {info : List SplitInfo} {color : BitVec 32} (h : 0 ≤ color.toInt) :
    (members info color).length = info.countP fun a => a.color = color := by
  rw [(members_perm h).length_eq, collect, List.length_map, ← List.countP_eq_length_filter]
  have hcount := List.countP_map (p := fun a : SplitInfo => decide (a.color = color))
    (f := Prod.fst) (l := info.zipIdx)
  rw [List.zipIdx_map_fst] at hcount
  exact hcount.symm

/-- They are in the order of key and parent rank. -/
theorem members_pairwise (info : List SplitInfo) (color : BitVec 32) :
    (members info color).Pairwise fun a b => a.1 < b.1 ∨ (a.1 = b.1 ∧ a.2 < b.2) := by
  by_cases h : 0 ≤ color.toInt
  · have hsort : (members info color).Pairwise PairLe := by
      rw [members_of_nonneg h]
      exact List.pairwise_insertionSort _ _
    have hne : (members info color).Pairwise fun a b => a.2 ≠ b.2 :=
      List.pairwise_map.mp (members_nodup info color)
    refine (hsort.and hne).imp fun {a b} hab => ?_
    unfold PairLe at hab
    omega
  · rw [members, if_neg h]
    exact List.Pairwise.nil

/-- The loop of `newRank` from index `off` on, when `rank` is not among the rest. -/
theorem newRank_loop_absent {ms : List (Int × Nat)} {rank : Nat} (h : rank ∉ ms.map Prod.snd)
    (off : Nat) (acc : Int) :
    (ms.zipIdx off).foldl (fun acc e => if e.1.2 = rank then (e.2 : Int) else acc) acc = acc := by
  induction ms generalizing off with
  | nil => rfl
  | cons m ms ih =>
    rw [List.map_cons, List.mem_cons, not_or] at h
    rw [List.zipIdx_cons, List.foldl_cons, if_neg (fun heq => h.1 heq.symm)]
    exact ih h.2 (off + 1)

theorem newRank_loop {ms : List (Int × Nat)} (hnd : (ms.map Prod.snd).Nodup) {i : Nat} {key : Int}
    {rank : Nat} (h : ms[i]? = some (key, rank)) (off : Nat) (acc : Int) :
    (ms.zipIdx off).foldl (fun acc e => if e.1.2 = rank then (e.2 : Int) else acc) acc =
      (off + i : Nat) := by
  induction ms generalizing i off acc with
  | nil => cases h
  | cons m ms ih =>
    rw [List.map_cons, List.nodup_cons] at hnd
    rw [List.zipIdx_cons, List.foldl_cons]
    cases i with
    | zero =>
      obtain rfl : m = (key, rank) := by simpa using h
      rw [if_pos rfl, newRank_loop_absent hnd.1]
      rfl
    | succ i =>
      rw [List.getElem?_cons_succ] at h
      rw [ih hnd.2 h]
      congr 1
      omega

/-- **The new rank of a member is its place among the members.** -/
theorem newRank_getElem? {ms : List (Int × Nat)} (hnd : (ms.map Prod.snd).Nodup) {i : Nat}
    {key : Int} {rank : Nat} (h : ms[i]? = some (key, rank)) : newRank ms rank = i := by
  rw [newRank, newRank_loop hnd h, Nat.zero_add]

theorem newRank_absent {ms : List (Int × Nat)} {rank : Nat} (h : rank ∉ ms.map Prod.snd) :
    newRank ms rank = -1 := newRank_loop_absent h 0 (-1)

/-- The leader is the first member. -/
theorem newRank_eq_zero {ms : List (Int × Nat)} (hnd : (ms.map Prod.snd).Nodup) {rank : Nat} :
    newRank ms rank = 0 ↔ ∃ key, ms[0]? = some (key, rank) := by
  constructor
  · intro h
    by_cases hmem : rank ∈ ms.map Prod.snd
    · obtain ⟨⟨key, q⟩, hm, rfl⟩ := List.mem_map.mp hmem
      obtain ⟨i, hi⟩ := List.mem_iff_getElem?.mp hm
      rw [newRank_getElem? hnd hi] at h
      obtain rfl : i = 0 := by omega
      exact ⟨key, hi⟩
    · rw [newRank_absent hmem] at h
      omega
  · rintro ⟨key, h⟩
    rw [newRank_getElem? hnd h]
    rfl

/-! ## The calls -/

/-- What the ranks do: color and key of the `j`-th split of a rank, if it makes one, and the id that
`vcclGetUniqueId` would give it there, if that does not fail. -/
structure Splits where
  args : Nat → Nat → Option SplitInfo
  newId : Nat → Nat → Option UniqueId

/-- What a call ends with: the failure of `vcclGetUniqueId`, `*newcomm == NULL` for a rank that opts
out, or a call of `vcclCommInitRank`. -/
inductive Outcome where
  | failed
  | null
  | init (nranks : Nat) (id : List UInt8) (rank : Int)
  deriving DecidableEq, Repr

/-- A rank between two exchanges: its calls so far, and after the first exchange of a call the
`members` it has worked out. -/
structure Splitting where
  done : List Outcome
  members : Option (List (Int × Nat))

/-- The table of colors and keys in the buffer of the first exchange. -/
def infoOf (n : Nat) (t : List UInt8) : List SplitInfo :=
  (List.range n).map fun q => .ofBytes (chunk t (q * splitInfoBytes) splitInfoBytes)

/-- The end of a call, after the second exchange. The members are not empty: the rank is one. -/
def finish (ms : List (Int × Nat)) (a : SplitInfo) (r : Nat) (ids : List UInt8) : Outcome :=
  if a.color.toInt < 0 then .null
  else .init ms.length (chunk ids ((ms.headD (0, 0)).2 * uniqueIdBytes) uniqueIdBytes) (newRank ms r)

/-- What rank `r` does with the table it has received. -/
def Splitting.next (n : Nat) (sp : Splits) (r : Nat) (s : Splitting) (t : List UInt8) : Splitting :=
  match sp.args r s.done.length, s.members with
  | none, _ => s
  | some a, none =>
    if newRank (Split.members (infoOf n t) a.color) r = 0 ∧ sp.newId r s.done.length = none then
      ⟨s.done ++ [.failed], none⟩
    else ⟨s.done, some (Split.members (infoOf n t) a.color)⟩
  | some a, some ms => ⟨s.done ++ [finish ms a r t], none⟩

/-- Rank `r` after the tables `held`. -/
def splitting (n : Nat) (sp : Splits) (r : Nat) (held : List (List UInt8)) : Splitting :=
  held.foldl (Splitting.next n sp r) ⟨[], none⟩

/-- `info`, with the rank's own color and key. -/
def infoBuf (n r : Nat) (a : SplitInfo) : List UInt8 :=
  patch (List.replicate (n * splitInfoBytes) 0) (r * splitInfoBytes) a.toBytes

/-- `ids`, with the id of a rank that leads. -/
def idsBuf (n r : Nat) (ms : List (Int × Nat)) (id : Option UniqueId) : List UInt8 :=
  match id with
  | some u =>
    if newRank ms r = 0 then
      patch (List.replicate (n * uniqueIdBytes) 0) (r * uniqueIdBytes) u.toBytes
    else List.replicate (n * uniqueIdBytes) 0
  | none => List.replicate (n * uniqueIdBytes) 0

/-- The next exchange of a rank. -/
def Splitting.call (n : Nat) (sp : Splits) (r : Nat) (s : Splitting) : Option (Nat × List UInt8) :=
  match sp.args r s.done.length, s.members with
  | none, _ => none
  | some a, none => some (splitInfoBytes, infoBuf n r a)
  | some _, some ms => some (uniqueIdBytes, idsBuf n r ms (sp.newId r s.done.length))

/-- The caller of the bootstrap network that the ranks' splits are. -/
def splitCall (n : Nat) (sp : Splits) (r : Nat) (held : List (List UInt8)) :
    Option (Nat × List UInt8) := (splitting n sp r held).call n sp r

/-- Which exchange a rank is at: of which of its calls, and whether the second. -/
def exchange (n : Nat) (sp : Splits) (r : Nat) (held : List (List UInt8)) : Nat × Bool :=
  ((splitting n sp r held).done.length, (splitting n sp r held).members.isSome)

/-! ## What the calls should come to -/

section Spec

variable (n : Nat) (sp : Splits)

/-- The colors and keys of the `j`-th calls. -/
def Splits.info (j : Nat) : List SplitInfo :=
  (List.range n).map fun q => (sp.args q j).getD ⟨0, 0⟩

/-- The members that rank `q` should find in its `j`-th call. -/
def Splits.group (q j : Nat) : List (Int × Nat) :=
  match sp.args q j with
  | some a => members (sp.info n j) a.color
  | none => []

/-- Rank `q` leads a subgroup in its `j`-th call, and `vcclGetUniqueId` fails there. -/
def Splits.Fails (q j : Nat) : Prop := newRank (sp.group n q j) q = 0 ∧ sp.newId q j = none

instance (q j : Nat) : Decidable (sp.Fails n q j) := inferInstanceAs (Decidable (_ ∧ _))

/-- What rank `q` contributes to the second exchange of the `j`-th calls. -/
def Splits.slot (q j : Nat) : List UInt8 :=
  match sp.newId q j with
  | some u => if newRank (sp.group n q j) q = 0 then u.toBytes else List.replicate uniqueIdBytes 0
  | none => List.replicate uniqueIdBytes 0

/-- The table of the second exchange of the `j`-th calls. -/
def Splits.ids (j : Nat) : List UInt8 := ((List.range n).map fun q => sp.slot n q j).flatten

/-- What the `j`-th call of rank `q` ends with. -/
def Splits.outcome (q j : Nat) : Outcome :=
  if sp.Fails n q j then .failed
  else
    match sp.args q j with
    | some a => finish (sp.group n q j) a q (sp.ids n j)
    | none => .failed

/-- **No rank goes on alone**: a rank that fails in a call which all ranks make, and calls again, has
failed there together with all the others. -/
def InSync : Prop :=
  ∀ j r q, r < n → q < n → (∀ p, p < n → (sp.args p j).isSome) → sp.Fails n r j →
    (sp.args r (j + 1)).isSome → sp.Fails n q j

/-- Which exchange round `k` is. -/
def schedule : Nat → Nat × Bool
  | 0 => (0, false)
  | k + 1 =>
    if (schedule k).2 = false ∧ ¬ ∀ q, q < n → sp.Fails n q (schedule k).1 then
      ((schedule k).1, true)
    else ((schedule k).1 + 1, false)

/-- The sizes of the rounds. -/
def sizes (k : Nat) : Nat := if (schedule n sp k).2 then uniqueIdBytes else splitInfoBytes

end Spec

/-! ## The tables of a round -/

theorem length_flatten_range {f : Nat → List UInt8} {n s : Nat}
    (h : ∀ q, q < n → (f q).length = s) : (((List.range n).map f).flatten).length = n * s := by
  induction n with
  | zero => simp
  | succ n ih =>
    rw [List.range_succ, List.map_append, List.flatten_append, List.length_append,
      ih fun q hq => h q (by omega)]
    simp [h n (Nat.lt_succ_self n), Nat.succ_mul]

/-- The slices of a table are what it was put together from. -/
theorem chunk_flatten_range {f : Nat → List UInt8} {n s : Nat}
    (h : ∀ q, q < n → (f q).length = s) {q : Nat} (hq : q < n) :
    chunk ((List.range n).map f).flatten (q * s) s = f q := by
  induction n with
  | zero => omega
  | succ n ih =>
    have hlen := length_flatten_range (n := n) fun q hq => h q (by omega)
    rw [List.range_succ, List.map_append, List.flatten_append]
    rcases Nat.lt_or_ge q n with hlt | hge
    · have hle := slice_le (k := s) hlt
      rw [chunk, List.drop_append_of_le_length (by omega),
        List.take_append_of_le_length (by rw [List.length_drop]; omega)]
      exact ih (fun q hq => h q (by omega)) hlt
    · obtain rfl : q = n := by omega
      rw [chunk_append_skip (by omega), hlen, Nat.sub_self]
      simp [chunk, ← h q (Nat.lt_succ_self q)]

theorem chunk_patch_self (buf bs : List UInt8) (off : Nat) (h : off + bs.length ≤ buf.length) :
    chunk (patch buf off bs) off bs.length = bs := by
  have hgrow : chunk (patch buf (off + 0) bs) off (0 + bs.length) = chunk buf off 0 ++ bs :=
    chunk_patch_grow (by omega)
  simpa using hgrow

theorem length_infoBuf {n r : Nat} (hr : r < n) (a : SplitInfo) :
    (infoBuf n r a).length = n * splitInfoBytes := by
  have hle := slice_le (k := splitInfoBytes) hr
  rw [infoBuf, length_patch, List.length_replicate]
  rw [SplitInfo.length_toBytes, List.length_replicate]
  exact hle

theorem chunk_infoBuf {n r : Nat} (hr : r < n) (a : SplitInfo) :
    chunk (infoBuf n r a) (r * splitInfoBytes) splitInfoBytes = a.toBytes := by
  have hle := slice_le (k := splitInfoBytes) hr
  have hself := chunk_patch_self (List.replicate (n * splitInfoBytes) 0) a.toBytes
    (r * splitInfoBytes) (by rw [SplitInfo.length_toBytes, List.length_replicate]; exact hle)
  rwa [SplitInfo.length_toBytes] at hself

theorem chunk_replicate {n off len : Nat} (h : off + len ≤ n) (x : UInt8) :
    chunk (List.replicate n x) off len = List.replicate len x := by
  rw [chunk, List.drop_replicate, List.take_replicate, Nat.min_eq_left (by omega)]

theorem length_idsBuf {n r : Nat} (hr : r < n) (ms : List (Int × Nat)) (id : Option UniqueId) :
    (idsBuf n r ms id).length = n * uniqueIdBytes := by
  have hle := slice_le (k := uniqueIdBytes) hr
  unfold idsBuf
  split
  · split
    · rw [length_patch, List.length_replicate]
      rw [UniqueId.length_toBytes, List.length_replicate]
      exact hle
    · rw [List.length_replicate]
  · rw [List.length_replicate]

theorem length_slot {n : Nat} {sp : Splits} (q j : Nat) : (sp.slot n q j).length = uniqueIdBytes := by
  unfold Splits.slot
  split
  · split
    · exact UniqueId.length_toBytes _
    · rw [List.length_replicate]
  · rw [List.length_replicate]

theorem chunk_idsBuf {n : Nat} {sp : Splits} {r : Nat} (hr : r < n) (j : Nat) :
    chunk (idsBuf n r (sp.group n r j) (sp.newId r j)) (r * uniqueIdBytes) uniqueIdBytes =
      sp.slot n r j := by
  have hle := slice_le (k := uniqueIdBytes) hr
  unfold idsBuf Splits.slot
  split
  · rename_i u _
    split
    · have hself := chunk_patch_self (List.replicate (n * uniqueIdBytes) 0) u.toBytes
        (r * uniqueIdBytes)
        (by rw [UniqueId.length_toBytes, List.length_replicate]; exact hle)
      rwa [UniqueId.length_toBytes] at hself
    · exact chunk_replicate hle 0
  · exact chunk_replicate hle 0

/-- Every rank's slice of the second table. -/
theorem chunk_ids {n : Nat} {sp : Splits} {q : Nat} (hq : q < n) (j : Nat) :
    chunk (sp.ids n j) (q * uniqueIdBytes) uniqueIdBytes = sp.slot n q j :=
  chunk_flatten_range (fun _ _ => length_slot _ _) hq

/-- The table of the first exchange gives back the arguments. -/
theorem infoOf_flatten {n : Nat} {sp : Splits} {j : Nat} :
    infoOf n ((List.range n).map fun q => ((sp.args q j).getD ⟨0, 0⟩).toBytes).flatten =
      sp.info n j := by
  unfold infoOf Splits.info
  apply List.map_congr_left
  intro q hq
  rw [chunk_flatten_range (fun _ _ => SplitInfo.length_toBytes _) (List.mem_range.mp hq),
    SplitInfo.ofBytes_toBytes]

/-! ## In step -/

/-- Rank `r`, after the rounds before one that the schedule says is exchange `x`: it has ended its
calls as it should, and if it goes on, it is at exchange `x`. -/
structure OnCourse (n : Nat) (sp : Splits) (r : Nat) (s : Splitting) (x : Nat × Bool) : Prop where
  done : s.done = (List.range s.done.length).map (sp.outcome n r)
  here : (sp.args r s.done.length).isSome → s.done.length = x.1 ∧
    s.members = (if x.2 then some (sp.group n r x.1) else none) ∧ (x.2 = true → ¬ sp.Fails n r x.1)

section Course

variable {n : Nat} {sp : Splits}

theorem args_of_call {r : Nat} {s : Splitting} (h : (s.call n sp r).isSome) :
    ∃ a, sp.args r s.done.length = some a := by
  unfold Splitting.call at h
  split at h
  · cases h
  · exact ⟨_, by assumption⟩
  · exact ⟨_, by assumption⟩

theorem done_snoc {r : Nat} {done : List Outcome} {o : Outcome}
    (h : done = (List.range done.length).map (sp.outcome n r))
    (ho : o = sp.outcome n r done.length) :
    done ++ [o] = (List.range (done ++ [o]).length).map (sp.outcome n r) := by
  rw [List.length_append, List.length_singleton, List.range_succ, List.map_append, ← h, ho]
  rfl

/-- What a rank on course calls with. -/
theorem OnCourse.call {r : Nat} {s : Splitting} {x : Nat × Bool} (h : OnCourse n sp r s x)
    {a : SplitInfo} (ha : sp.args r s.done.length = some a) :
    sp.args r x.1 = some a ∧ s.call n sp r =
      if x.2 then some (uniqueIdBytes, idsBuf n r (sp.group n r x.1) (sp.newId r x.1))
      else some (splitInfoBytes, infoBuf n r a) := by
  obtain ⟨hlen, hms, -⟩ := h.here (by rw [ha]; rfl)
  rw [hlen] at ha
  refine ⟨ha, ?_⟩
  unfold Splitting.call
  rw [hlen, ha, hms]
  cases x.2 <;> rfl

/-- What a rank on course contributes. -/
theorem OnCourse.contrib {r : Nat} (hr : r < n) {held : List (List UInt8)} {x : Nat × Bool}
    (h : OnCourse n sp r (splitting n sp r held) x) (hc : (splitCall n sp r held).isSome) :
    contrib (splitCall n sp) r held =
      if x.2 then sp.slot n r x.1 else ((sp.args r x.1).getD ⟨0, 0⟩).toBytes := by
  obtain ⟨a, ha⟩ := args_of_call hc
  obtain ⟨hax, hcall⟩ := h.call ha
  cases hx : x.2 with
  | true =>
    rw [hx, if_pos rfl] at hcall
    rw [contrib_of_call hcall, if_pos rfl, chunk_idsBuf hr]
  | false =>
    rw [hx, if_neg Bool.false_ne_true] at hcall
    rw [contrib_of_call hcall, if_neg Bool.false_ne_true, hax]
    exact chunk_infoBuf hr a

/-- The table of exchange `x`. -/
def tableOf (n : Nat) (sp : Splits) (x : Nat × Bool) : List UInt8 :=
  if x.2 then sp.ids n x.1
  else ((List.range n).map fun q => ((sp.args q x.1).getD ⟨0, 0⟩).toBytes).flatten

theorem table_of_course {held : List (List UInt8)} {x : Nat × Bool}
    (h : ∀ q, q < n → OnCourse n sp q (splitting n sp q held) x)
    (hc : ∀ q, q < n → (splitCall n sp q held).isSome) :
    ((List.range n).map fun q => contrib (splitCall n sp) q held).flatten = tableOf n sp x := by
  have hmap : ((List.range n).map fun q => contrib (splitCall n sp) q held) =
      (List.range n).map fun q =>
        if x.2 then sp.slot n q x.1 else ((sp.args q x.1).getD ⟨0, 0⟩).toBytes := by
    apply List.map_congr_left
    intro q hq
    exact (h q (List.mem_range.mp hq)).contrib (List.mem_range.mp hq) (hc q (List.mem_range.mp hq))
  rw [hmap, tableOf]
  cases x.2 <;> rfl

theorem schedule_succ_all {k : Nat} (h : ∀ q, q < n → sp.Fails n q (schedule n sp k).1) :
    schedule n sp (k + 1) = ((schedule n sp k).1 + 1, false) :=
  if_neg fun hx => hx.2 h

theorem schedule_succ_ids {k : Nat} (h : (schedule n sp k).2 = true) :
    schedule n sp (k + 1) = ((schedule n sp k).1 + 1, false) := by
  refine if_neg fun hx => ?_
  rw [h] at hx
  cases hx.1

theorem schedule_succ_info {k q : Nat} (h : (schedule n sp k).2 = false) (hq : q < n)
    (hf : ¬ sp.Fails n q (schedule n sp k).1) :
    schedule n sp (k + 1) = ((schedule n sp k).1, true) :=
  if_pos ⟨h, fun hall => hf (hall q hq)⟩

/-- A rank stays on course through a round that all take part in. -/
theorem OnCourse.next (hs : InSync n sp) {r k : Nat} (hr : r < n) {s : Splitting}
    (h : OnCourse n sp r s (schedule n sp k))
    (hall : ∀ p, p < n → (sp.args p (schedule n sp k).1).isSome) {a : SplitInfo}
    (ha : sp.args r s.done.length = some a) :
    OnCourse n sp r (s.next n sp r (tableOf n sp (schedule n sp k))) (schedule n sp (k + 1)) := by
  obtain ⟨hlen, hms, hlive⟩ := h.here (by rw [ha]; rfl)
  have hax := (h.call ha).1
  have hgroup : sp.group n r (schedule n sp k).1 = members (sp.info n (schedule n sp k).1) a.color := by
    simp only [Splits.group, hax]
  cases hx : (schedule n sp k).2 with
  | true =>
    rw [hx, if_pos rfl] at hms
    have hnext : s.next n sp r (tableOf n sp (schedule n sp k)) =
        ⟨s.done ++ [finish (sp.group n r (schedule n sp k).1) a r (sp.ids n (schedule n sp k).1)],
          none⟩ := by
      simp only [Splitting.next, ha, hms, tableOf, hx, if_true]
    rw [hnext, schedule_succ_ids hx]
    refine ⟨done_snoc h.done ?_, fun _ => ⟨by simp [hlen], rfl, nofun⟩⟩
    rw [hlen, Splits.outcome, if_neg (hlive hx), hax]
  | false =>
    rw [hx, if_neg Bool.false_ne_true] at hms
    have hinfo : infoOf n (tableOf n sp (schedule n sp k)) = sp.info n (schedule n sp k).1 := by
      rw [tableOf, hx, if_neg Bool.false_ne_true, infoOf_flatten]
    by_cases hf : sp.Fails n r (schedule n sp k).1
    · have hnext : s.next n sp r (tableOf n sp (schedule n sp k)) = ⟨s.done ++ [.failed], none⟩ := by
        obtain ⟨hzero, hid⟩ := hf
        rw [hgroup] at hzero
        simp only [Splitting.next, hlen, hax, hms, hinfo, hid, hzero, and_self, if_true]
      rw [hnext]
      refine ⟨done_snoc h.done ?_, fun hagain => ?_⟩
      · rw [hlen, Splits.outcome, if_pos hf]
      · simp only [List.length_append, List.length_singleton, hlen] at hagain ⊢
        rw [schedule_succ_all fun q hq => hs _ r q hr hq hall hf hagain]
        exact ⟨rfl, rfl, nofun⟩
    · have hnext : s.next n sp r (tableOf n sp (schedule n sp k)) =
          ⟨s.done, some (sp.group n r (schedule n sp k).1)⟩ := by
        have hcond := hf
        rw [Splits.Fails, hgroup] at hcond
        simp only [Splitting.next, hlen, hax, hms, hinfo, if_neg hcond, hgroup]
      rw [hnext, schedule_succ_info hx hr hf]
      exact ⟨h.done, fun _ => ⟨hlen, rfl, fun _ => hf⟩⟩

/-- **All ranks stay in step**: in every round that takes place, they are in the same exchange of the
same call. -/
theorem onCourse (hs : InSync n sp) {k : Nat} (hl : Live n (splitCall n sp) k) (r : Nat)
    (hr : r < n) :
    OnCourse n sp r (splitting n sp r (tables n (splitCall n sp) k)) (schedule n sp k) := by
  induction k generalizing r with
  | zero => exact ⟨rfl, fun _ => ⟨rfl, rfl, nofun⟩⟩
  | succ k ih =>
    have ih := ih (hl.mono (Nat.le_succ k))
    have hcall := hl k (Nat.lt_succ_self k)
    have hall : ∀ p, p < n → (sp.args p (schedule n sp k).1).isSome := by
      intro p hp
      obtain ⟨a, ha⟩ := args_of_call (hcall p hp)
      rw [((ih p hp).call ha).1]
      rfl
    obtain ⟨a, ha⟩ := args_of_call (hcall r hr)
    have hfold : splitting n sp r (tables n (splitCall n sp) (k + 1)) =
        (splitting n sp r (tables n (splitCall n sp) k)).next n sp r
          (tableOf n sp (schedule n sp k)) := by
      rw [tables, table_of_course ih hcall, splitting, List.foldl_append]
      rfl
    rw [hfold]
    exact (ih r hr).next hs hr hall ha

theorem sizedOn_splitCall (hs : InSync n sp) : SizedOn n (splitCall n sp) (sizes n sp) := by
  intro k hl r slice buf hr hc
  have hon := onCourse hs hl r hr
  obtain ⟨a, ha⟩ := args_of_call (n := n) (by
    show (splitCall n sp r (tables n (splitCall n sp) k)).isSome
    rw [hc]
    rfl)
  have hcall := (hon.call ha).2
  rw [show (splitting n sp r (tables n (splitCall n sp) k)).call n sp r = some (slice, buf) from hc]
    at hcall
  unfold sizes
  cases hx : (schedule n sp k).2 with
  | true =>
    rw [hx, if_pos rfl] at hcall
    cases hcall
    exact ⟨rfl, length_idsBuf hr _ _⟩
  | false =>
    rw [hx, if_neg Bool.false_ne_true] at hcall
    cases hcall
    exact ⟨rfl, length_infoBuf hr a⟩

theorem sizes_pos (k : Nat) : 0 < sizes n sp k := by
  unfold sizes
  split <;> decide

end Course

/-! ## Runs -/

/-- A rank has entered round `k`. -/
def Entered (s : Boot UInt8) (k : Nat) : Prop :=
  k < s.held.length ∨ (k = s.held.length ∧ s.active = true)

/-- **The exchanges of the ranks are in step.** -/
structure InStep (n : Nat) (sp : Splits) (c : Flow Nat UInt8 (Boot UInt8)) : Prop where
  /-- The `k`-th exchanges of any two ranks are the same exchange of the same call. -/
  same : ∀ r q k, r < n → q < n → Entered (c.st r) k → Entered (c.st q) k →
    exchange n sp r ((c.st r).held.take k) = exchange n sp q ((c.st q).held.take k)
  /-- What a rank reads as colors and keys of a call is every rank's color and key of that call. -/
  info : ∀ r k t j, r < n → (c.st r).held[k]? = some t →
    exchange n sp r ((c.st r).held.take k) = (j, false) → t.length = n * splitInfoBytes ∧
      ∀ q, q < n → ∃ a, sp.args q j = some a ∧
        chunk t (q * splitInfoBytes) splitInfoBytes = a.toBytes
  /-- What a rank reads as ids of a call is what the ranks contributed to that call. -/
  ids : ∀ r k t j, r < n → (c.st r).held[k]? = some t →
    exchange n sp r ((c.st r).held.take k) = (j, true) → t.length = n * uniqueIdBytes ∧
      ∀ q, q < n → chunk t (q * uniqueIdBytes) uniqueIdBytes = sp.slot n q j
  /-- Every call works out the membership of its own arguments. -/
  members : ∀ r k j, r < n → Entered (c.st r) k →
    exchange n sp r ((c.st r).held.take k) = (j, true) →
    (splitting n sp r ((c.st r).held.take k)).members = some (sp.group n r j)

section Runs

variable {n : Nat} {sp : Splits} {cap : Nat → Nat → Nat} {c : Flow Nat UInt8 (Boot UInt8)}

/-- A rank that has entered round `k` is at the exchange of the schedule. -/
theorem at_schedule (hs : InSync n sp) (hn : 0 < n) (h : BootRun n cap (splitCall n sp) c) {r k : Nat}
    (hr : r < n) (he : Entered (c.st r) k) :
    (c.st r).held.take k = tables n (splitCall n sp) k ∧ Live n (splitCall n sp) k ∧
      (sp.args r (schedule n sp k).1).isSome ∧
      exchange n sp r ((c.st r).held.take k) = schedule n sp k ∧
      (splitting n sp r ((c.st r).held.take k)).members =
        if (schedule n sp k).2 then some (sp.group n r (schedule n sp k).1) else none := by
  obtain ⟨hl, hheld⟩ := held_of_sizedOn (sizedOn_splitCall hs) sizes_pos hn h hr
  have hk : k ≤ (c.st r).held.length := by
    rcases he with hlt | ⟨heq, -⟩ <;> omega
  have htake : (c.st r).held.take k = tables n (splitCall n sp) k := by
    rw [hheld, take_tables hk]
  have hlk := hl.mono hk
  have hcall := h.called he
  have hon := onCourse hs hlk r hr
  rw [← htake] at hon
  obtain ⟨a, ha⟩ := args_of_call hcall
  obtain ⟨hlen, hms, -⟩ := hon.here (by rw [ha]; rfl)
  refine ⟨htake, hlk, ?_, ?_, hms⟩
  · rw [(hon.call ha).1]
    rfl
  · refine Prod.ext hlen ?_
    simp only [exchange, hms]
    cases (schedule n sp k).2 <;> rfl

/-- The rounds a rank has returned from have had every rank take part. -/
theorem all_called (hs : InSync n sp) (hn : 0 < n) (h : BootRun n cap (splitCall n sp) c) {r k : Nat}
    (hr : r < n) (hk : k < (c.st r).held.length) (q : Nat) (hq : q < n) :
    (splitCall n sp q (tables n (splitCall n sp) k)).isSome :=
  (held_of_sizedOn (sizedOn_splitCall hs) sizes_pos hn h hr).1 k hk q hq

theorem all_args (hs : InSync n sp) (hn : 0 < n) (h : BootRun n cap (splitCall n sp) c) {r k : Nat}
    (hr : r < n) (hk : k < (c.st r).held.length) (q : Nat) (hq : q < n) :
    (sp.args q (schedule n sp k).1).isSome := by
  have hl := (at_schedule hs hn h hr (Or.inl hk)).2.1
  obtain ⟨a, ha⟩ := args_of_call (all_called hs hn h hr hk q hq)
  rw [((onCourse hs hl q hq).call ha).1]
  rfl

/-- The table a rank has received in round `k`. -/
theorem held_table (hs : InSync n sp) (hn : 0 < n) (h : BootRun n cap (splitCall n sp) c) {r k : Nat}
    (hr : r < n) {t : List UInt8} (ht : (c.st r).held[k]? = some t) :
    t = tableOf n sp (schedule n sp k) := by
  have hk := (List.getElem?_eq_some_iff.mp ht).1
  obtain ⟨hl, hheld⟩ := held_of_sizedOn (sizedOn_splitCall hs) sizes_pos hn h hr
  have htake : (c.st r).held.take (k + 1) = tables n (splitCall n sp) (k + 1) := by
    rw [hheld, take_tables hk]
  have hbefore := (at_schedule hs hn h hr (Or.inl hk)).1
  have hlk := hl.mono (Nat.le_of_lt hk)
  rw [List.take_add_one, ht, hbefore, tables,
    table_of_course (fun q hq => onCourse hs hlk q hq) (fun q hq => hl k hk q hq)] at htake
  exact List.singleton_inj.mp (List.append_cancel_left htake)

/-- **Splits stay in step** in every run in which no rank goes on alone after a failure. -/
theorem split_in_step (n : Nat) (hn : 0 < n) (sp : Splits) (hs : InSync n sp) (cap : Nat → Nat → Nat)
    (c : Flow Nat UInt8 (Boot UInt8)) (h : BootRun n cap (splitCall n sp) c) : InStep n sp c := by
  refine ⟨fun r q k hr hq her heq => ?_, fun r k t j hr ht hx => ?_, fun r k t j hr ht hx => ?_,
    fun r k j hr he hx => ?_⟩
  · rw [(at_schedule hs hn h hr her).2.2.2.1, (at_schedule hs hn h hq heq).2.2.2.1]
  · have hk := (List.getElem?_eq_some_iff.mp ht).1
    have hsched := (at_schedule hs hn h hr (Or.inl hk)).2.2.2.1.symm.trans hx
    have htab := held_table hs hn h hr ht
    rw [hsched] at htab
    subst htab
    refine ⟨length_flatten_range fun _ _ => SplitInfo.length_toBytes _, fun q hq => ?_⟩
    have hq' := all_args hs hn h hr hk q hq
    rw [hsched] at hq'
    obtain ⟨a, ha⟩ := Option.isSome_iff_exists.mp hq'
    refine ⟨a, ha, ?_⟩
    have hchunk := chunk_flatten_range (f := fun q => ((sp.args q j).getD ⟨0, 0⟩).toBytes) (n := n)
      (fun _ _ => SplitInfo.length_toBytes _) hq
    simp only [ha, Option.getD_some] at hchunk
    exact hchunk
  · have hk := (List.getElem?_eq_some_iff.mp ht).1
    have hsched := (at_schedule hs hn h hr (Or.inl hk)).2.2.2.1.symm.trans hx
    have htab := held_table hs hn h hr ht
    rw [hsched] at htab
    subst htab
    exact ⟨length_flatten_range fun _ _ => length_slot _ _, fun q hq => chunk_ids hq j⟩
  · obtain ⟨-, -, -, hsched, hms⟩ := at_schedule hs hn h hr he
    rw [hsched] at hx
    rwa [hx, if_pos rfl] at hms

end Runs

/-- Two ranks of one color that split twice; the first creation of an id fails on rank 0. -/
def failing : Splits :=
  ⟨fun r j => if j < 2 then some ⟨0, if r = 0 then 0 else 5⟩ else none,
   fun r j => if r = 0 ∧ j = 0 then none else some ⟨kVcclMagic, 7, 2, 0x901f, 0x0100007f⟩⟩

/-- The colors and keys of the two ranks. -/
def failingInfo : List UInt8 := [0, 0, 0, 0, 0, 0, 0, 0, 0, 0, 0, 0, 5, 0, 0, 0]

/-- Two ranks of one color that split once. -/
def once : Splits :=
  ⟨fun r j => if j < 1 then some ⟨0, if r = 0 then 0 else 5⟩ else none,
   fun _ _ => some ⟨kVcclMagic, 7, 2, 0x901f, 0x0100007f⟩⟩

theorem once_inSync : InSync 2 once := by
  intro j r q _ _ _ hf _
  cases hf.2

/-- One split of two ranks is in step. -/
theorem split_in_step_pair : ∃ c, BootRun 2 (fun _ _ => 256) (splitCall 2 once) c ∧
    (c.st 0).held = [failingInfo] ∧ InStep 2 once c := by
  have h0 : BootRun 2 (fun _ _ => 256) (splitCall 2 once) (Flow.start fun _ => Boot.init) := .refl
  have h1 := h0.snoc (p := 1) (.enter (by decide) rfl rfl) trivial
  have h2 := h1.snoc (p := 1) (.send (k := 8) rfl rfl rfl ⟨by decide, by decide⟩)
    (Nat.le_of_ble_eq_true rfl)
  have h3 := h2.snoc (p := 0) (.enter (by decide) rfl rfl) trivial
  have h4 := h3.snoc (p := 0) (@BootStep.recv _ _ _ _ _ _ _ [0, 0, 0, 0, 5, 0, 0, 0] rfl rfl rfl
    ⟨by decide, by decide⟩) ⟨[], rfl⟩
  have h5 := h4.snoc (p := 0) (.send (k := 16) rfl rfl rfl ⟨by decide, by decide⟩)
    (Nat.le_of_ble_eq_true rfl)
  have h6 := h5.snoc (p := 0) (.ret rfl rfl) trivial
  exact ⟨_, h6, rfl, split_in_step 2 (by decide) once once_inSync _ _ h6⟩

/-- **A leader that fails and calls again is out of step.** Rank 0 fails in its first call and makes
its second one; rank 1 is in the second exchange of its first call. What rank 0 reads as the color and
key of rank 1 is the beginning of rank 1's slice of ids. -/
theorem failed_leader_out_of_step : ∃ c, BootRun 2 (fun _ _ => 256) (splitCall 2 failing) c ∧
    exchange 2 failing 0 ((c.st 0).held.take 1) = (1, false) ∧
    exchange 2 failing 1 ((c.st 1).held.take 1) = (0, true) ∧
    (c.st 0).held[1]? = some (List.replicate 16 0) ∧ failing.args 1 1 = some ⟨0, 5⟩ ∧
    ¬ InStep 2 failing c := by
  have hroot : splitCall 2 failing 0 [failingInfo] = some (8, infoBuf 2 0 ⟨0, 0⟩) := by
    decide +kernel
  have hmember : splitCall 2 failing 1 [failingInfo] = some (128, List.replicate 256 0) := by
    decide +kernel
  have hx0 : exchange 2 failing 0 [failingInfo] = (1, false) := by decide +kernel
  have hx1 : exchange 2 failing 1 [failingInfo] = (0, true) := by decide +kernel
  have h0 : BootRun 2 (fun _ _ => 256) (splitCall 2 failing) (Flow.start fun _ => Boot.init) := .refl
  have h1 := h0.snoc (p := 1) (.enter (by decide) rfl rfl) trivial
  have h2 := h1.snoc (p := 1) (.send (k := 8) rfl rfl rfl ⟨by decide, by decide⟩)
    (Nat.le_of_ble_eq_true rfl)
  have h3 := h2.snoc (p := 0) (.enter (by decide) rfl rfl) trivial
  have h4 := h3.snoc (p := 0) (@BootStep.recv _ _ _ _ _ _ _ [0, 0, 0, 0, 5, 0, 0, 0] rfl rfl rfl
    ⟨by decide, by decide⟩) ⟨[], rfl⟩
  have h5 := h4.snoc (p := 0) (.send (k := 16) rfl rfl rfl ⟨by decide, by decide⟩)
    (Nat.le_of_ble_eq_true rfl)
  have h6 := h5.snoc (p := 0) (.ret rfl rfl) trivial
  have h7 := h6.snoc (p := 1) (@BootStep.recv _ _ _ _ _ _ _ failingInfo rfl rfl rfl ⟨by decide, by decide⟩) ⟨[], rfl⟩
  have h8 := h7.snoc (p := 1) (.ret rfl rfl) trivial
  -- the first exchange is over, and the ranks part
  have h9 := h8.snoc (p := 0) (.enter (by decide) rfl hroot) trivial
  have h10 := h9.snoc (p := 1) (.enter (by decide) rfl hmember) trivial
  have h11 := h10.snoc (p := 1) (.send (k := 8) rfl rfl rfl ⟨by decide, by decide⟩)
    (Nat.le_of_ble_eq_true rfl)
  have h12 := h11.snoc (p := 0) (@BootStep.recv _ _ _ _ _ _ _ (List.replicate 8 0) rfl rfl rfl
    ⟨by decide, by decide⟩) ⟨[], rfl⟩
  have h13 := h12.snoc (p := 0) (.send (k := 16) rfl rfl rfl ⟨by decide, by decide⟩)
    (Nat.le_of_ble_eq_true rfl)
  have h14 := h13.snoc (p := 0) (.ret rfl rfl) trivial
  refine ⟨_, h14, hx0, hx1, rfl, rfl, fun hstep => ?_⟩
  have hsame := hstep.same 0 1 1 (by decide) (by decide) (Or.inl (Nat.le_of_ble_eq_true rfl))
    (Or.inr ⟨rfl, rfl⟩)
  have hfalse : (1, false) = (0, true) := hx0.symm.trans (hsame.trans hx1)
  cases hfalse

/-! ## The partition -/

/-- The `j`-th calls of the ranks split them by color. -/
structure Partition (n : Nat) (sp : Splits) (j : Nat) : Prop where
  called : ∀ q, q < n → (sp.args q j).isSome
  /-- The members of a color are the ranks that gave it. -/
  mem : ∀ color : BitVec 32, 0 ≤ color.toInt → ∀ key q, (key, q) ∈ members (sp.info n j) color ↔
    q < n ∧ ∃ a, sp.args q j = some a ∧ a.color = color ∧ key = a.key.toInt
  ordered : ∀ color, (members (sp.info n j) color).Pairwise fun a b =>
    a.1 < b.1 ∨ (a.1 = b.1 ∧ a.2 < b.2)
  count : ∀ color : BitVec 32, 0 ≤ color.toInt → (members (sp.info n j) color).length =
    (List.range n).countP fun q => (sp.args q j).any fun a => a.color = color
  /-- The new ranks number the members. -/
  ranks : ∀ color (i : Nat) key q, (members (sp.info n j) color)[i]? = some (key, q) →
    newRank (members (sp.info n j) color) q = i
  /-- The first member contributes an id to the second exchange, the others none. -/
  leader : ∀ color (i : Nat) key q, (members (sp.info n j) color)[i]? = some (key, q) →
    if i = 0 then ∃ u, sp.newId q j = some u ∧ sp.slot n q j = u.toBytes
    else sp.slot n q j = List.replicate uniqueIdBytes 0
  /-- A rank that opts out contributes none. -/
  optOut : ∀ q a, sp.args q j = some a → a.color.toInt < 0 →
    sp.slot n q j = List.replicate uniqueIdBytes 0

/-- What the `j`-th call of a rank with the arguments `a` ends with: a rank that opts out has no new
communicator; any other initialises one with its place among the members of its color, and with what
the first of them has contributed. -/
def EndsWith (n : Nat) (sp : Splits) (r j : Nat) (a : SplitInfo) (o : Outcome) : Prop :=
  if a.color.toInt < 0 then o = .null
  else ∃ (i : Nat) (key₀ : Int) (lead : Nat), (members (sp.info n j) a.color)[i]? = some (a.key.toInt, r) ∧
    (members (sp.info n j) a.color)[0]? = some (key₀, lead) ∧
    o = .init (members (sp.info n j) a.color).length (sp.slot n lead j) i

section Partition

variable {n : Nat} {sp : Splits} {cap : Nat → Nat → Nat} {c : Flow Nat UInt8 (Boot UInt8)}

theorem info_getElem? {q j : Nat} {a : SplitInfo} (h : (sp.args q j) = some a) (hq : q < n) :
    (sp.info n j)[q]? = some a := by
  rw [Splits.info, List.getElem?_map, List.getElem?_range hq]
  simp [h]

theorem lt_of_info {q j : Nat} {a : SplitInfo} (h : (sp.info n j)[q]? = some a) : q < n := by
  have := (List.getElem?_eq_some_iff.mp h).1
  simpa [Splits.info] using this

theorem group_of_args {q j : Nat} {a : SplitInfo} (h : sp.args q j = some a) :
    sp.group n q j = members (sp.info n j) a.color := by simp only [Splits.group, h]

theorem slot_of_not_leader {q j : Nat} (h : newRank (sp.group n q j) q ≠ 0) :
    sp.slot n q j = List.replicate uniqueIdBytes 0 := by
  unfold Splits.slot
  split
  · rw [if_neg h]
  · rfl

theorem slot_of_leader {q j : Nat} {u : UniqueId} (h : newRank (sp.group n q j) q = 0)
    (hu : sp.newId q j = some u) : sp.slot n q j = u.toBytes := by
  simp only [Splits.slot, hu, if_pos h]

theorem members_mem_iff {j : Nat} (hall : ∀ q, q < n → (sp.args q j).isSome) {color : BitVec 32}
    (hc : 0 ≤ color.toInt) (key : Int) (q : Nat) : (key, q) ∈ members (sp.info n j) color ↔
      q < n ∧ ∃ a, sp.args q j = some a ∧ a.color = color ∧ key = a.key.toInt := by
  rw [mem_members hc]
  constructor
  · rintro ⟨a, hget, hcolor, hkey⟩
    have hq := lt_of_info hget
    obtain ⟨b, hb⟩ := Option.isSome_iff_exists.mp (hall q hq)
    rw [info_getElem? hb hq] at hget
    cases hget
    exact ⟨hq, a, hb, hcolor, hkey⟩
  · rintro ⟨hq, a, ha, hcolor, hkey⟩
    exact ⟨a, info_getElem? ha hq, hcolor, hkey⟩

theorem color_of_mem {j : Nat} {color : BitVec 32} {e : Int × Nat}
    (h : e ∈ members (sp.info n j) color) : 0 ≤ color.toInt := by
  unfold members at h
  split at h
  · assumption
  · cases h

/-- The calls partition the ranks, if all make them and no leader fails. -/
theorem partition_of_calls {j : Nat} (hall : ∀ q, q < n → (sp.args q j).isSome)
    (hids : ∀ q, q < n → ¬ sp.Fails n q j) : Partition n sp j := by
  refine ⟨hall, fun color hc => members_mem_iff hall hc, fun color => members_pairwise _ _,
    fun color hc => ?_, fun color i key q h => newRank_getElem? (members_nodup _ _) h,
    fun color i key q h => ?_, fun q a ha hneg => ?_⟩
  · rw [length_members hc, Splits.info, List.countP_map]
    apply List.countP_congr
    intro q hq
    obtain ⟨a, ha⟩ := Option.isSome_iff_exists.mp (hall q (List.mem_range.mp hq))
    simp [ha]
  · have hmem := List.mem_of_getElem? h
    obtain ⟨hq, a, ha, hcolor, -⟩ := (members_mem_iff hall (color_of_mem hmem) key q).mp hmem
    have hrank := newRank_getElem? (members_nodup _ _) h
    have hgroup := group_of_args (n := n) ha
    rw [hcolor] at hgroup
    rw [← hgroup] at hrank
    split
    · rename_i h0
      rw [h0] at hrank
      cases hu : sp.newId q j with
      | none => exact absurd ⟨hrank, hu⟩ (hids q hq)
      | some u => exact ⟨u, rfl, slot_of_leader hrank hu⟩
    · refine slot_of_not_leader ?_
      rw [hrank]
      omega
  · refine slot_of_not_leader ?_
    rw [group_of_args ha, members, if_neg (by omega), newRank_absent List.not_mem_nil]
    decide

theorem finish_endsWith {j : Nat} (hall : ∀ q, q < n → (sp.args q j).isSome) {r : Nat} (hr : r < n)
    {a : SplitInfo} (ha : sp.args r j = some a) :
    EndsWith n sp r j a (finish (sp.group n r j) a r (sp.ids n j)) := by
  unfold EndsWith finish
  split
  · rfl
  · rename_i hneg
    have hc : 0 ≤ a.color.toInt := by omega
    have hmem := (members_mem_iff hall hc a.key.toInt r).mpr ⟨hr, a, ha, rfl, rfl⟩
    obtain ⟨i, hi⟩ := List.mem_iff_getElem?.mp hmem
    rw [group_of_args ha, newRank_getElem? (members_nodup _ _) hi]
    cases hms : members (sp.info n j) a.color with
    | nil =>
      rw [hms] at hmem
      cases hmem
    | cons m ms =>
      have hm : (m.1, m.2) ∈ members (sp.info n j) a.color := by
        rw [hms]
        exact List.mem_cons_self
      have hlt := ((members_mem_iff hall hc m.1 m.2).mp hm).1
      refine ⟨i, m.1, m.2, by rw [← hms]; exact hi, rfl, ?_⟩
      rw [List.headD_cons, chunk_ids hlt]

/-- The second exchange of a call follows the first. -/
theorem schedule_before {k j : Nat} (h : schedule n sp k = (j, true)) :
    ∃ k', k = k' + 1 ∧ schedule n sp k' = (j, false) := by
  cases k with
  | zero => cases h
  | succ k =>
    refine ⟨k, rfl, ?_⟩
    simp only [schedule] at h
    split at h
    · rename_i hcond
      cases h
      exact Prod.ext rfl hcond.1
    · cases h

/-- A rank that has come through both exchanges of its `j`-th call: all ranks make that call, no
leader has failed in it, and the call ends with what the rank reads in the tables. -/
theorem both_exchanges (hs : InSync n sp) (hn : 0 < n) (h : BootRun n cap (splitCall n sp) c)
    {r j k : Nat} (hr : r < n) (hk : k < (c.st r).held.length)
    (hx : exchange n sp r ((c.st r).held.take k) = (j, true)) :
    schedule n sp k = (j, true) ∧ (∀ q, q < n → (sp.args q j).isSome) ∧
    (∀ q, q < n → ¬ sp.Fails n q j) ∧ ∃ a, sp.args r j = some a ∧
      (splitting n sp r ((c.st r).held.take (k + 1))).done[j]? =
        some (finish (sp.group n r j) a r (sp.ids n j)) := by
  have hsched := (at_schedule hs hn h hr (Or.inl hk)).2.2.2.1.symm.trans hx
  have hall := all_args hs hn h hr hk
  obtain ⟨hl, hheld⟩ := held_of_sizedOn (sizedOn_splitCall hs) sizes_pos hn h hr
  have hlk := hl.mono (Nat.le_of_lt hk)
  rw [hsched] at hall
  refine ⟨hsched, hall, fun q hq => ?_, ?_⟩
  · -- every rank has come to the second exchange, so no leader has failed
    obtain ⟨a, ha⟩ := args_of_call (hl k hk q hq)
    have hfails := ((onCourse hs hlk q hq).here (by rw [ha]; rfl)).2.2
    rw [hsched] at hfails
    exact hfails rfl
  · obtain ⟨a, ha⟩ := Option.isSome_iff_exists.mp (hall r hr)
    obtain ⟨htake, -, -, -, hms⟩ := at_schedule hs hn h hr (Or.inl hk)
    have hlen : (splitting n sp r ((c.st r).held.take k)).done.length = j := congrArg Prod.fst hx
    refine ⟨a, ha, ?_⟩
    have htab := held_table hs hn h hr (List.getElem?_eq_getElem hk)
    rw [hsched] at htab hms
    rw [List.take_add_one, List.getElem?_eq_getElem hk, htab, splitting, List.foldl_append]
    show (Splitting.next n sp r (splitting n sp r ((c.st r).held.take k)) _).done[j]? = _
    simp only [Splitting.next, hlen, ha, hms, if_true]
    rw [← hlen, List.getElem?_concat_length, hlen]
    rfl

/-- **`vcclCommSplit` computes an agreed partition.** A rank that has come through both exchanges of
its `j`-th call: the `j`-th calls of all ranks partition them by color; all ranks that have come
through the first exchange have found the members of their color; and the call ends as the partition
says. The rank has taken part in both exchanges, whatever its color. -/
theorem split_partition (n : Nat) (hn : 0 < n) (sp : Splits) (hs : InSync n sp)
    (cap : Nat → Nat → Nat) (c : Flow Nat UInt8 (Boot UInt8)) (h : BootRun n cap (splitCall n sp) c)
    (r j k : Nat) (hr : r < n) (hk : k < (c.st r).held.length)
    (hx : exchange n sp r ((c.st r).held.take k) = (j, true)) :
    Partition n sp j ∧
    (∃ k', k = k' + 1 ∧ exchange n sp r ((c.st r).held.take k') = (j, false)) ∧
    (∀ q k' a, q < n → Entered (c.st q) k' → exchange n sp q ((c.st q).held.take k') = (j, true) →
      sp.args q j = some a → (splitting n sp q ((c.st q).held.take k')).members =
        some (members (sp.info n j) a.color)) ∧
    ∃ a o, sp.args r j = some a ∧ EndsWith n sp r j a o ∧
      (splitting n sp r ((c.st r).held.take (k + 1))).done[j]? = some o := by
  obtain ⟨hsched, hall, hids, a, ha, hdone⟩ := both_exchanges hs hn h hr hk hx
  refine ⟨partition_of_calls hall hids, ?_, fun q k' a hq he hxq ha => ?_,
    a, _, ha, finish_endsWith hall hr ha, hdone⟩
  · obtain ⟨k', rfl, hk'⟩ := schedule_before hsched
    refine ⟨k', rfl, ?_⟩
    rw [(at_schedule hs hn h hr (Or.inl (Nat.lt_of_succ_lt hk))).2.2.2.1, hk']
  · obtain ⟨-, -, -, hsq, hms⟩ := at_schedule hs hn h hq he
    rw [hsq] at hxq
    rw [hms, hxq, if_pos rfl, group_of_args ha]

end Partition

/-- The second table of two ranks that split once: the id of rank 0, and nothing. -/
def onceIds : List UInt8 := once.ids 2 0

set_option maxRecDepth 2000 in
/-- Two ranks of one color come through both exchanges. -/
theorem split_partition_pair : ∃ c, BootRun 2 (fun _ _ => 256) (splitCall 2 once) c ∧
    (c.st 0).held = [failingInfo, onceIds] ∧ Partition 2 once 0 := by
  have hroot : splitCall 2 once 0 [failingInfo] =
      some (128, UniqueId.toBytes ⟨kVcclMagic, 7, 2, 0x901f, 0x0100007f⟩ ++ List.replicate 128 0) := by
    decide +kernel
  have hmember : splitCall 2 once 1 [failingInfo] = some (128, List.replicate 256 0) := by
    decide +kernel
  have hx : exchange 2 once 0 [failingInfo] = (0, true) := by decide +kernel
  have h0 : BootRun 2 (fun _ _ => 256) (splitCall 2 once) (Flow.start fun _ => Boot.init) := .refl
  have h1 := h0.snoc (p := 1) (.enter (by decide) rfl rfl) trivial
  have h2 := h1.snoc (p := 1) (.send (k := 8) rfl rfl rfl ⟨by decide, by decide⟩)
    (Nat.le_of_ble_eq_true rfl)
  have h3 := h2.snoc (p := 0) (.enter (by decide) rfl rfl) trivial
  have h4 := h3.snoc (p := 0) (@BootStep.recv _ _ _ _ _ _ _ [0, 0, 0, 0, 5, 0, 0, 0] rfl rfl rfl
    ⟨by decide, by decide⟩) ⟨[], rfl⟩
  have h5 := h4.snoc (p := 0) (.send (k := 16) rfl rfl rfl ⟨by decide, by decide⟩)
    (Nat.le_of_ble_eq_true rfl)
  have h6 := h5.snoc (p := 0) (.ret rfl rfl) trivial
  have h7 := h6.snoc (p := 1) (@BootStep.recv _ _ _ _ _ _ _ failingInfo rfl rfl rfl ⟨by decide, by decide⟩) ⟨[], rfl⟩
  have h8 := h7.snoc (p := 1) (.ret rfl rfl) trivial
  have h9 := h8.snoc (p := 1) (.enter (by decide) rfl hmember) trivial
  have h10 := h9.snoc (p := 1) (.send (k := 128) rfl rfl rfl ⟨by decide, by decide⟩)
    (Nat.le_of_ble_eq_true (by decide +kernel))
  have h11 := h10.snoc (p := 0) (.enter (by decide) rfl hroot) trivial
  have h12 := h11.snoc (p := 0) (@BootStep.recv _ _ _ _ _ _ _ (List.replicate 128 0) rfl rfl rfl
    ⟨by decide, by decide⟩) ⟨[], by decide +kernel⟩
  have h13 := h12.snoc (p := 0) (.send (k := 256) rfl rfl rfl ⟨by decide, by decide⟩)
    (Nat.le_of_ble_eq_true (by decide +kernel))
  have h14 := h13.snoc (p := 0) (.ret rfl rfl) trivial
  refine ⟨_, h14, ?_, (split_partition 2 (by decide) once once_inSync _ _ h14 0 0 1 (by decide)
    (Nat.le_of_ble_eq_true rfl) hx).1⟩
  decide +kernel

end Vccl.Split
