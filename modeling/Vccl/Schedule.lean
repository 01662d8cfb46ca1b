import Vccl.Index

/-!
# Schedules

A schedule gives every transport call of every rank a time (`Slot`), such that

* time increases along each rank,
* the messages from `p` to `q` are, in order, the messages `q` receives from `p`: the same times
  and the same numbers of bytes.

`Schedule n a b plan` says this of the ranks below `n`, with all times in `[a, b)`. Schedules in
succession are appended (`Schedule.append`); a loop in which all ranks move in step is `rounds`,
and the pipelined chain of `doReduce` and `doBroadcast`, in which a rank runs one hop behind its
predecessor, is `chain`.

`ends_of_schedule` is `Net.ends_of_wp` at the ranks of a communicator.
-/

namespace Vccl

/-- One transport call: its time, the peer and size of the message it sends, and those of the
message it receives. -/
structure Slot where
  time : Nat
  out : Option (Nat × Nat)
  inn : Option (Nat × Nat)

/-- The peer and size of a message; none when it has no byte. -/
def part (peer bytes : Nat) : Option (Nat × Nat) := if bytes = 0 then none else some (peer, bytes)

theorem part_eq_some {peer bytes : Nat} {x : Nat × Nat} :
    part peer bytes = some x ↔ bytes ≠ 0 ∧ x = (peer, bytes) := by
  unfold part
  split
  · rename_i h; simp [h]
  · rename_i h; simp [h, eq_comm]

/-- The entry of a slot in a plan of `Net`. -/
def Slot.entry (s : Slot) : Net.Entry Nat := ⟨s.time, s.out.map Prod.fst, s.inn.map Prod.fst⟩

/-- The message of a half to or from `q`, with its time. -/
def tagged (q time : Nat) (h : Option (Nat × Nat)) : Option (Nat × Nat) :=
  (h.filter fun x => x.1 = q).map fun x => (time, x.2)

theorem tagged_eq_some {q t : Nat} {h : Option (Nat × Nat)} {x : Nat × Nat} :
    tagged q t h = some x ↔ h = some (q, x.2) ∧ t = x.1 := by
  obtain ⟨a, b⟩ := x
  cases h with
  | none => simp [tagged]
  | some y =>
    obtain ⟨c, d⟩ := y
    by_cases hc : c = q
    · simp [tagged, hc, and_comm]
    · simp [tagged, hc]

theorem tagged_some (q t : Nat) (x : Nat × Nat) :
    tagged q t (some x) = if x.1 = q then some (t, x.2) else none := by
  refine Option.ext fun y => ?_
  rw [tagged_eq_some]
  obtain ⟨a, b⟩ := x
  obtain ⟨c, d⟩ := y
  by_cases h : a = q <;> simp [h, and_comm]

theorem tagged_part (q t peer bytes : Nat) :
    tagged q t (part peer bytes) = if peer = q ∧ bytes ≠ 0 then some (t, bytes) else none := by
  refine Option.ext fun x => ?_
  rw [tagged_eq_some, part_eq_some]
  obtain ⟨a, b⟩ := x
  simp only [Prod.mk.injEq]
  split
  · rename_i h; simp only [Option.some.injEq, Prod.mk.injEq]; omega
  · rename_i h; simp only [reduceCtorEq, iff_false]; omega

/-- Times and sizes of the messages sent to `q`. -/
def sent (q : Nat) (pl : List Slot) : List (Nat × Nat) :=
  pl.filterMap fun s => tagged q s.time s.out

/-- Times and sizes of the messages received from `p`. -/
def received (p : Nat) (pl : List Slot) : List (Nat × Nat) :=
  pl.filterMap fun s => tagged p s.time s.inn

theorem sent_append (q : Nat) (a b : List Slot) : sent q (a ++ b) = sent q a ++ sent q b :=
  List.filterMap_append

theorem received_append (p : Nat) (a b : List Slot) :
    received p (a ++ b) = received p a ++ received p b :=
  List.filterMap_append

/-- The ranks below `n` agree on their messages, within the times `[a, b)`. -/
structure Schedule (n a b : Nat) (plan : Nat → List Slot) : Prop where
  meet : ∀ p q, p < n → q < n → received p (plan q) = sent q (plan p)
  peer : ∀ r, r < n → ∀ s ∈ plan r, ∀ x, s.out = some x ∨ s.inn = some x → x.1 < n
  ordered : ∀ r, r < n → (plan r).Pairwise fun s s' => s.time < s'.time
  within : ∀ r, r < n → ∀ s ∈ plan r, a ≤ s.time ∧ s.time < b

theorem Schedule.nil {n a b : Nat} : Schedule n a b fun _ => [] :=
  ⟨fun _ _ _ _ => rfl, fun _ _ _ h => absurd h List.not_mem_nil, fun _ _ => List.Pairwise.nil,
    fun _ _ _ h => absurd h List.not_mem_nil⟩

/-- One schedule after another. -/
theorem Schedule.append {n a b c : Nat} {P Q : Nat → List Slot} (hP : Schedule n a b P)
    (hQ : Schedule n b c Q) (hab : a ≤ b) (hbc : b ≤ c) : Schedule n a c fun r => P r ++ Q r where
  meet p q hp hq := by
    rw [received_append, sent_append, hP.meet p q hp hq, hQ.meet p q hp hq]
  peer r hr s hs := by
    rcases List.mem_append.mp hs with h | h
    · exact hP.peer r hr s h
    · exact hQ.peer r hr s h
  ordered r hr := by
    refine List.pairwise_append.mpr ⟨hP.ordered r hr, hQ.ordered r hr, fun s hs s' hs' => ?_⟩
    exact Nat.lt_of_lt_of_le (hP.within r hr s hs).2 (hQ.within r hr s' hs').1
  within r hr s hs := by
    rcases List.mem_append.mp hs with h | h
    · have := hP.within r hr s h; omega
    · have := hQ.within r hr s h; omega

theorem Schedule.congr {n a b : Nat} {P Q : Nat → List Slot} (hP : Schedule n a b P)
    (h : ∀ r, r < n → Q r = P r) : Schedule n a b Q where
  meet p q hp hq := by rw [h q hq, h p hp]; exact hP.meet p q hp hq
  peer r hr := by rw [h r hr]; exact hP.peer r hr
  ordered r hr := by rw [h r hr]; exact hP.ordered r hr
  within r hr := by rw [h r hr]; exact hP.within r hr

/-- The slot of the opposite transfer. -/
def Slot.swap (s : Slot) : Slot := ⟨s.time, s.inn, s.out⟩

/-- A schedule run the other way round: every message goes back. -/
theorem Schedule.swap {n a b : Nat} {P : Nat → List Slot} (hP : Schedule n a b P) :
    Schedule n a b fun r => (P r).map Slot.swap where
  meet p q hp hq := by
    have h := (hP.meet q p hq hp).symm
    unfold received sent at h ⊢
    rw [List.filterMap_map, List.filterMap_map]
    exact h
  peer r hr s hs x hx := by
    obtain ⟨s', hs', rfl⟩ := List.mem_map.mp hs
    exact hP.peer r hr s' hs' x hx.symm
  ordered r hr := List.pairwise_map.mpr (hP.ordered r hr)
  within r hr s hs := by
    obtain ⟨s', hs', rfl⟩ := List.mem_map.mp hs
    exact hP.within r hr s' hs'

/-! ## Rounds -/

/-- The halves of a rank's call in every round; `none` for a rank that makes no call. -/
abbrev Round := Nat → Option (Option (Nat × Nat) × Option (Nat × Nat))

/-- Rounds `0, …, N-1` at the times from `t` on. -/
def rounds (t N : Nat) (f : Round) : List Slot :=
  (List.range N).filterMap fun s => (f s).map fun x => ⟨t + s, x.1, x.2⟩

theorem filterMap_rounds {t N : Nat} {f : Round} {g : Slot → Option (Nat × Nat)} :
    (rounds t N f).filterMap g =
      (List.range N).filterMap fun s => (f s).bind fun x => g ⟨t + s, x.1, x.2⟩ := by
  rw [rounds, List.filterMap_filterMap]
  congr 1
  funext s
  cases f s <;> rfl

theorem mem_rounds {t N : Nat} {f : Round} {s : Slot} (h : s ∈ rounds t N f) :
    ∃ i x, i < N ∧ f i = some x ∧ s = ⟨t + i, x.1, x.2⟩ := by
  obtain ⟨i, hi, hx⟩ := List.mem_filterMap.mp h
  obtain ⟨x, hf, rfl⟩ := Option.map_eq_some_iff.mp hx
  exact ⟨i, x, List.mem_range.mp hi, hf, rfl⟩

theorem pairwise_rounds (t N : Nat) (f : Round) :
    (rounds t N f).Pairwise fun s s' => s.time < s'.time := by
  unfold rounds
  rw [List.pairwise_filterMap]
  refine List.pairwise_lt_range.imp ?_
  intro i j hij s hs s' hs'
  obtain ⟨x, -, rfl⟩ := Option.map_eq_some_iff.mp hs
  obtain ⟨y, -, rfl⟩ := Option.map_eq_some_iff.mp hs'
  exact Nat.add_lt_add_left hij t

/-- The message rank `r` sends to `q` in round `s`, or receives from it. -/
def Sends (f : Nat → Round) (p q s b : Nat) : Prop := ∃ inn, f p s = some (some (q, b), inn)

def Receives (f : Nat → Round) (q p s b : Nat) : Prop := ∃ out, f q s = some (out, some (p, b))

/-- **Rounds are a schedule** when in each round every message has both its ends. -/
theorem schedule_rounds {n t N : Nat} {f : Nat → Round}
    (hmeet : ∀ p q s b, p < n → q < n → s < N → (Receives f q p s b ↔ Sends f p q s b))
    (hout : ∀ r s q b, r < n → s < N → Sends f r q s b → q < n)
    (hinn : ∀ r s p b, r < n → s < N → Receives f r p s b → p < n) :
    Schedule n t (t + N) fun r => rounds t N (f r) where
  meet p q hp hq := by
    unfold received sent
    rw [filterMap_rounds, filterMap_rounds]
    refine List.filterMap_congr fun s hs => ?_
    have hs : s < N := List.mem_range.mp hs
    refine Option.ext fun x => ?_
    have key := hmeet p q s x.2 hp hq hs
    have hr : ((f q s).bind fun y => tagged p (t + s) y.2) = some x ↔
        Receives f q p s x.2 ∧ t + s = x.1 := by
      simp only [Option.bind_eq_some_iff, tagged_eq_some, Receives, Prod.exists]
      constructor
      · rintro ⟨a, b, h1, rfl, h3⟩; exact ⟨⟨a, h1⟩, h3⟩
      · rintro ⟨⟨a, h1⟩, h3⟩; exact ⟨a, _, h1, rfl, h3⟩
    have ho : ((f p s).bind fun y => tagged q (t + s) y.1) = some x ↔
        Sends f p q s x.2 ∧ t + s = x.1 := by
      simp only [Option.bind_eq_some_iff, tagged_eq_some, Sends, Prod.exists]
      constructor
      · rintro ⟨a, b, h1, rfl, h3⟩; exact ⟨⟨b, h1⟩, h3⟩
      · rintro ⟨⟨b, h1⟩, h3⟩; exact ⟨_, b, h1, rfl, h3⟩
    rw [hr, ho, key]
  peer r hr s hs x hx := by
    obtain ⟨i, y, hi, hf, rfl⟩ := mem_rounds hs
    obtain ⟨o, k⟩ := y
    obtain ⟨q, b⟩ := x
    rcases hx with rfl | rfl
    · exact hout r i q b hr hi ⟨k, hf⟩
    · exact hinn r i q b hr hi ⟨o, hf⟩
  ordered r _ := pairwise_rounds t N (f r)
  within r _ s hs := by
    obtain ⟨i, y, hi, -, rfl⟩ := mem_rounds hs
    simp only
    omega

/-- Rounds in which every rank makes a call: it sends `sz r s` bytes to `dst r s` and receives
`rz r s` from `src r s`. -/
theorem schedule_exchange {n t N : Nat} {sz rz : Nat → Nat → Nat} (dst src : Nat → Nat → Nat)
    (hpeer : ∀ p q s, p < n → q < n → s < N → (dst p s = q ↔ src q s = p))
    (hsize : ∀ q s, q < n → s < N → rz q s = sz (src q s) s)
    (hdst : ∀ r s, r < n → s < N → dst r s < n) (hsrc : ∀ r s, r < n → s < N → src r s < n) :
    Schedule n t (t + N) fun r => rounds t N fun s =>
      some (part (dst r s) (sz r s), part (src r s) (rz r s)) := by
  refine schedule_rounds (fun p q s b hp hq hs => ?_) (fun r s q b hr hs h => ?_)
    (fun r s p b hr hs h => ?_)
  · simp only [Receives, Sends, Option.some.injEq, Prod.mk.injEq, part_eq_some]
    constructor
    · rintro ⟨out, -, h0, rfl, rfl⟩
      have hd := (hpeer _ q s (hsrc q s hq hs) hq hs).mpr rfl
      rw [hsize q s hq hs] at h0 ⊢
      exact ⟨_, ⟨h0, hd.symm, rfl⟩, rfl⟩
    · rintro ⟨inn, ⟨h0, rfl, rfl⟩, -⟩
      have hs' := (hpeer p _ s hp (hdst p s hp hs) hs).mp rfl
      exact ⟨_, rfl, by rw [hsize _ s hq hs, hs']; exact h0, hs'.symm,
        by rw [hsize _ s hq hs, hs']⟩
  · obtain ⟨inn, h⟩ := h
    simp only [Option.some.injEq, Prod.mk.injEq, part_eq_some] at h
    rw [h.1.2.1]
    exact hdst r s hr hs
  · obtain ⟨out, h⟩ := h
    simp only [Option.some.injEq, Prod.mk.injEq, part_eq_some] at h
    rw [h.2.2.1]
    exact hsrc r s hr hs

/-! ## The chain -/

/-- The distance of rank `r` from `head` along the ring. -/
def dist (n head r : Nat) : Nat := (r + n - head) % n

/-- The pipeline that starts at `head`: piece `j` leaves the rank at distance `d` at time
`2 * j + d`. -/
def chain (t n head r N : Nat) (piece : Nat → Nat) : List Slot :=
  (List.range N).flatMap fun j =>
    (if dist n head r = 0 then [] else
      [Slot.mk (t + 2 * j + (dist n head r - 1)) none (part (prev n r) (piece j))]) ++
    if dist n head r + 1 = n then [] else
      [Slot.mk (t + 2 * j + dist n head r) (part (next n r) (piece j)) none]

theorem dist_lt {n head r : Nat} (hn : 0 < n) : dist n head r < n := Nat.mod_lt _ hn

/-- The successor is one further from the head, or is the head. -/
theorem dist_next {n head r : Nat} (hh : head < n) (hr : r < n) :
    dist n head (next n r) = if dist n head r + 1 = n then 0 else dist n head r + 1 := by
  have hn : 0 < n := by omega
  have h1 : dist n head (next n r) = (dist n head r + 1) % n := by
    unfold dist next
    rw [show (r + 1) % n + n - head = (r + 1) % n + (n - head) by omega, Nat.mod_add_mod,
      Nat.mod_add_mod, show r + 1 + (n - head) = r + n - head + 1 by omega]
  have : dist n head r < n := dist_lt hn
  rw [h1]
  split
  · rename_i h; rw [h, Nat.mod_self]
  · exact Nat.mod_eq_of_lt (by omega)

theorem mem_chain {t n head r N : Nat} {piece : Nat → Nat} {s : Slot}
    (h : s ∈ chain t n head r N piece) : ∃ j, j < N ∧
      ((dist n head r ≠ 0 ∧ s = ⟨t + 2 * j + (dist n head r - 1), none, part (prev n r) (piece j)⟩) ∨
       (dist n head r + 1 ≠ n ∧ s = ⟨t + 2 * j + dist n head r, part (next n r) (piece j), none⟩)) := by
  obtain ⟨j, hj, hs⟩ := List.mem_flatMap.mp h
  refine ⟨j, List.mem_range.mp hj, ?_⟩
  rcases List.mem_append.mp hs with hs | hs
  · left
    split at hs
    · exact absurd hs List.not_mem_nil
    · rename_i h0; exact ⟨h0, List.mem_singleton.mp hs⟩
  · right
    split at hs
    · exact absurd hs List.not_mem_nil
    · rename_i h0; exact ⟨h0, List.mem_singleton.mp hs⟩

theorem filterMap_chain {t n head r N : Nat} {piece : Nat → Nat} {g : Slot → Option (Nat × Nat)} :
    (chain t n head r N piece).filterMap g = (List.range N).flatMap fun j =>
      (if dist n head r = 0 then [] else
        (g ⟨t + 2 * j + (dist n head r - 1), none, part (prev n r) (piece j)⟩).toList) ++
      if dist n head r + 1 = n then [] else
        (g ⟨t + 2 * j + dist n head r, part (next n r) (piece j), none⟩).toList := by
  unfold chain
  rw [List.filterMap_flatMap]
  refine List.flatMap_congr fun j _ => ?_
  rw [List.filterMap_append]
  congr 1
  · split
    · rfl
    · rw [List.filterMap_cons, List.filterMap_nil]; cases g _ <;> rfl
  · split
    · rfl
    · rw [List.filterMap_cons, List.filterMap_nil]; cases g _ <;> rfl

/-- **The chain is a schedule.** -/
theorem schedule_chain {n t head N : Nat} {piece : Nat → Nat} (hh : head < n) :
    Schedule n t (t + (2 * N + n)) fun r => chain t n head r N piece where
  meet p q hp hq := by
    unfold received sent
    rw [filterMap_chain, filterMap_chain]
    refine List.flatMap_congr fun j _ => ?_
    have hnone : ∀ a t, tagged a t none = none := fun _ _ => rfl
    simp only [hnone, Option.toList_none, ite_self, List.append_nil, List.nil_append]
    by_cases hpq : next n p = q
    · have hprev := (next_eq_iff hp hq).mp hpq
      have hd := dist_next hh hp
      rw [hpq] at hd
      by_cases hlast : dist n head p + 1 = n
      · rw [if_pos hlast] at hd
        rw [if_pos hd, if_pos hlast]
      · rw [if_neg hlast] at hd
        rw [if_neg (by omega), if_neg hlast, hd, hprev, hpq, Nat.add_sub_cancel]
        rw [tagged_part, tagged_part]
        simp
    · have hprev : prev n q ≠ p := fun h => hpq ((next_eq_iff hp hq).mpr h)
      have h1 : ∀ t b, tagged p t (part (prev n q) b) = none := fun t b => by
        rw [tagged_part, if_neg fun h => hprev h.1]
      have h2 : ∀ t b, tagged q t (part (next n p) b) = none := fun t b => by
        rw [tagged_part, if_neg fun h => hpq h.1]
      simp only [h1, h2, Option.toList_none, ite_self]
  peer r hr s hs x hx := by
    obtain ⟨j, -, ⟨-, rfl⟩ | ⟨-, rfl⟩⟩ := mem_chain hs
    · rcases hx with hx | hx
      · exact absurd hx (by simp)
      · rw [(part_eq_some.mp hx).2]; exact prev_lt r (by omega)
    · rcases hx with hx | hx
      · rw [(part_eq_some.mp hx).2]; exact next_lt r (by omega)
      · exact absurd hx (by simp)
  ordered r hr := by
    have hd : dist n head r < n := dist_lt (by omega)
    unfold chain
    rw [List.pairwise_flatMap]
    constructor
    · intro j _
      split <;> split <;> simp
      omega
    · refine List.pairwise_lt_range.imp fun {i j} hij s hs s' hs' => ?_
      rcases List.mem_append.mp hs with hs | hs <;> rcases List.mem_append.mp hs' with hs' | hs' <;>
        split at hs <;> split at hs' <;> simp_all <;> omega
  within r hr s hs := by
    have hd : dist n head r < n := dist_lt (by omega)
    obtain ⟨j, hj, ⟨h0, rfl⟩ | ⟨h0, rfl⟩⟩ := mem_chain hs
    · simp only; omega
    · simp only; omega

end Vccl
