import Mathlib
import QuantumRuntime.Schedule.Coloring

/-!
# What the sweep counts

`minColoringSize` sweeps over the intervals sorted by start: at each new start point it drops the
ends that lie before the point, then adds the end of the interval that starts there, and its answer
is the most ends it ever held. Nothing stops an interval from ending before it starts, so the sweep
is followed over every list: the ends it holds at a start point `p` are those of the intervals open
at `p` (`Interval.opensAt`), the ones that started earlier and reach `p` and the ones that start at
`p`, and its answer is the most intervals open at one of their start points
(`Interval.minColoringSize_eq_sup_openAt`). The invariant `Interval.Opened` carries this from one
interval read to the next (`Interval.Opened.step`).

Two qubits whose intervals of depths share a depth need different registers, so a set of
intervals needs as many registers as the most of them that contain one depth
(`Interval.crossing`). When no interval ends before it starts, an interval is open at a start point
exactly when it contains it, and the most intervals that contain one depth all contain the latest
of their starts, so the sweep gives that number (`minColoringSize_eq_crossing`).
-/

namespace QuantumRuntime

namespace Interval

/-- How many intervals of a list contain depth `t`, both ends included. -/
def crossing (xs : List Interval) (t : Nat) : Nat :=
  xs.countP fun i => decide (i.start ≤ t ∧ t ≤ i.stop)

theorem crossing_perm {xs ys : List Interval} (h : xs.Perm ys) (t : Nat) :
    crossing xs t = crossing ys t :=
  h.countP_eq _

/-- The ends the sweep holds after reading `i`: those that reach the start of `i`, then the end
of `i`. -/
def nextEnds (point : Option Nat) (ends : List Nat) (i : Interval) : List Nat :=
  i.stop :: if point = some i.start then ends else ends.filter fun e => i.start ≤ e

theorem sweep_cons (i : Interval) (rest : List Interval) (point : Option Nat) (ends : List Nat)
    (best : Nat) :
    sweep (i :: rest) point ends best =
      sweep rest (some i.start) (nextEnds point ends i) (max best (nextEnds point ends i).length) :=
  rfl

/-- The start points of a list of intervals. -/
def starts (xs : List Interval) : Finset Nat := (xs.map (·.start)).toFinset

/-- Whether an interval is open at the start point `p` of the sweep: it started earlier and does
not end before `p`, or it starts at `p`. -/
def opensAt (p : Nat) (j : Interval) : Bool := decide ((j.start < p ∧ p ≤ j.stop) ∨ j.start = p)

theorem openAt_eq_countP (xs : List Interval) (p : Nat) : openAt xs p = xs.countP (opensAt p) := by
  unfold openAt
  rw [← List.countP_eq_length_filter, ← List.countP_eq_length_filter]
  induction xs with
  | nil => rfl
  | cons j xs ih =>
    rw [List.countP_cons, List.countP_cons, List.countP_cons, ← ih]
    -- no interval both starts before `p` and at `p`
    simp only [opensAt, decide_eq_true_eq]
    split_ifs <;> omega

theorem openAt_perm {xs ys : List Interval} (h : xs.Perm ys) (p : Nat) : openAt xs p = openAt ys p := by
  rw [openAt_eq_countP, openAt_eq_countP, h.countP_eq]

theorem starts_perm {xs ys : List Interval} (h : xs.Perm ys) : starts xs = starts ys :=
  List.toFinset_eq_of_perm _ _ (h.map _)

theorem starts_append_singleton (xs : List Interval) (i : Interval) :
    starts (xs ++ [i]) = insert i.start (starts xs) := by
  simp [starts]

/-- An interval read after the start point `p` adds nothing to what is open at `p`. -/
theorem openAt_append_of_lt {xs : List Interval} {i : Interval} {p : Nat} (h : p < i.start) :
    openAt (xs ++ [i]) p = openAt xs p := by
  have hi : opensAt p i = false := by simp [opensAt]; omega
  rw [openAt_eq_countP, openAt_eq_countP, List.countP_append]
  simp [hi]

/-- An interval read at the start point `p` is open there. -/
theorem openAt_append_self (xs : List Interval) (i : Interval) :
    openAt (xs ++ [i]) i.start = openAt xs i.start + 1 := by
  have hi : opensAt i.start i = true := by simp [opensAt]
  rw [openAt_eq_countP, openAt_eq_countP, List.countP_append]
  simp [hi]

/-- The state of the sweep after reading the intervals `done`, in order: `point` is the start of
the last of them, every interval read started no later, `ends` holds the ends of those open at
the point, and `best` is the most intervals open at one of their start points. -/
structure Opened (done : List Interval) (point : Option Nat) (ends : List Nat) (best : Nat) :
    Prop where
  point_eq : point = done.getLast?.map (·.start)
  start_le : ∀ j ∈ done, j.start ≤ point.getD 0
  ends_perm : ends.Perm ((done.filter (opensAt (point.getD 0))).map (·.stop))
  best_eq : best = (starts done).sup (openAt done)

theorem opened_nil : Opened [] none [] 0 where
  point_eq := rfl
  start_le _ h := absurd h List.not_mem_nil
  ends_perm := by simp
  best_eq := by simp [starts]

section Step

variable {done : List Interval} {point : Option Nat} {ends : List Nat} {best : Nat} {i : Interval}

/-- After reading `i`, the sweep holds the ends of the intervals open at the start of `i`: moving
to a later point keeps exactly the ends that reach it, since every interval read so far started
at or before the old point. -/
theorem Opened.nextEnds_perm (h : Opened done point ends best)
    (hsorted : ∀ j ∈ done, j.start ≤ i.start) :
    (nextEnds point ends i).Perm (((done ++ [i]).filter (opensAt i.start)).map (·.stop)) := by
  have hi : opensAt i.start i = true := by simp [opensAt]
  rw [List.filter_append, List.filter_singleton, hi, cond_true, List.map_append]
  refine List.Perm.trans ?_ (List.perm_append_singleton _ _).symm
  refine List.Perm.cons _ ?_
  by_cases hpt : point = some i.start
  · rw [if_pos hpt]
    have hends := h.ends_perm
    rw [hpt] at hends
    exact hends
  · rw [if_neg hpt]
    cases hl : done.getLast? with
    | none =>
      have hnil : done = [] := List.getLast?_eq_none_iff.1 hl
      subst hnil
      have hends : ends = [] := by simpa using h.ends_perm
      simp [hends]
    | some l =>
      have hq : point.getD 0 = l.start := by rw [h.point_eq, hl]; rfl
      have hlt : l.start < i.start := by
        have hle := hsorted l (List.mem_of_getLast? hl)
        have hne : l.start ≠ i.start := fun heq => hpt (by rw [h.point_eq, hl, Option.map_some, heq])
        omega
      refine (h.ends_perm.filter _).trans (List.Perm.of_eq ?_)
      rw [List.filter_map, List.filter_filter, hq]
      congr 1
      refine List.filter_congr fun j hj => ?_
      -- every interval read started at or before the old point, which lies before the new one
      have hj := h.start_le j hj
      rw [hq] at hj
      rw [Bool.eq_iff_iff]
      simp only [opensAt, Function.comp_apply, Bool.and_eq_true, decide_eq_true_eq]
      omega

/-- Reading an interval that starts no earlier than every interval read keeps the invariant. -/
theorem Opened.step (h : Opened done point ends best) (hsorted : ∀ j ∈ done, j.start ≤ i.start) :
    Opened (done ++ [i]) (some i.start) (nextEnds point ends i)
      (max best (nextEnds point ends i).length) where
  point_eq := by simp
  start_le j hj := by
    rcases List.mem_append.1 hj with hj | hj
    · exact hsorted j hj
    · rw [List.mem_singleton.1 hj]
      exact le_rfl
  ends_perm := h.nextEnds_perm hsorted
  best_eq := by
    have hlen : (nextEnds point ends i).length = openAt (done ++ [i]) i.start := by
      rw [(h.nextEnds_perm hsorted).length_eq, List.length_map, ← List.countP_eq_length_filter,
        openAt_eq_countP]
    have hle : ∀ p ∈ starts done, p ≤ i.start := by
      intro p hp
      obtain ⟨j, hj, rfl⟩ := List.mem_map.1 (List.mem_toFinset.1 hp)
      exact hsorted j hj
    rw [hlen, h.best_eq, starts_append_singleton, Finset.sup_insert]
    -- only the count at the new point changes, and it grows
    refine le_antisymm (max_le ?_ le_sup_left) (sup_le (le_max_right _ _) ?_)
    · refine Finset.sup_le fun p hp => ?_
      rcases (hle p hp).lt_or_eq with hlt | rfl
      · rw [← openAt_append_of_lt hlt]
        exact le_sup_of_le_right (Finset.le_sup hp)
      · rw [openAt_append_self]
        exact le_sup_of_le_left (Nat.le_succ _)
    · refine Finset.sup_le fun p hp => ?_
      rcases (hle p hp).lt_or_eq with hlt | rfl
      · rw [openAt_append_of_lt hlt]
        exact le_max_of_le_left (Finset.le_sup hp)
      · exact le_max_right _ _

end Step

/-- The sweep over the rest of a sorted list keeps the invariant to its end. -/
theorem Opened.sweep (rest : List Interval) :
    ∀ {done : List Interval} {point : Option Nat} {ends : List Nat} {best : Nat},
      Opened done point ends best → (done ++ rest).Pairwise (fun a b => a.start ≤ b.start) →
      ∃ point' ends', Opened (done ++ rest) point' ends' (Interval.sweep rest point ends best) := by
  induction rest with
  | nil =>
    intro done point ends best h _
    exact ⟨point, ends, by simpa [Interval.sweep] using h⟩
  | cons i rest ih =>
    intro done point ends best h hsorted
    have hbefore : ∀ j ∈ done, j.start ≤ i.start := fun j hj =>
      (List.pairwise_append.1 hsorted).2.2 j hj i List.mem_cons_self
    rw [sweep_cons]
    simpa using ih (h.step hbefore) (by simpa using hsorted)

/-- Sorting by start keeps the intervals and puts their starts in order. -/
theorem sortByStart_spec (xs : List Interval) :
    (sortByStart xs).Perm xs ∧ (sortByStart xs).Pairwise fun a b => a.start ≤ b.start := by
  refine ⟨List.mergeSort_perm _ _, ?_⟩
  have h := @List.pairwise_mergeSort _ (fun a b : Interval => decide (a.start ≤ b.start))
    (fun a b c hab hbc => by simp only [decide_eq_true_eq] at hab hbc ⊢; omega)
    (fun a b => by simp only [Bool.or_eq_true, decide_eq_true_eq]; omega) xs
  unfold sortByStart
  simpa using h

/-- The sweep gives the most intervals open at one of their start points, zero for none. -/
theorem minColoringSize_eq_sup_openAt (xs : List Interval) :
    minColoringSize xs = (starts xs).sup (openAt xs) := by
  obtain ⟨hperm, hsorted⟩ := sortByStart_spec xs
  obtain ⟨_, _, h⟩ := opened_nil.sweep (sortByStart xs) (by simpa using hsorted)
  rw [List.nil_append] at h
  rw [minColoringSize, h.best_eq, starts_perm hperm]
  exact Finset.sup_congr rfl fun p _ => openAt_perm hperm p


/-! ### Intervals that do not end before they start -/

section Proper

variable {xs : List Interval}

/-- An interval that does not end before it starts is open at a point exactly when it contains
it. -/
theorem openAt_eq_crossing (h : ∀ i ∈ xs, i.start ≤ i.stop) (p : Nat) :
    openAt xs p = crossing xs p := by
  rw [openAt_eq_countP, crossing]
  refine List.countP_congr fun j hj => ?_
  have hj := h j hj
  simp only [opensAt, decide_eq_true_eq]
  omega

/-- The intervals that contain a depth all contain the latest of their starts. -/
theorem exists_start_crossing_le (t : Nat) (ht : 0 < crossing xs t) :
    ∃ p ∈ starts xs, crossing xs t ≤ crossing xs p := by
  set holding := xs.filter fun i => decide (i.start ≤ t ∧ t ≤ i.stop)
  have hne : (holding.map (·.start)).toFinset.Nonempty := by
    rw [crossing, List.countP_eq_length_filter] at ht
    obtain ⟨j, hj⟩ := List.exists_mem_of_length_pos ht
    exact ⟨j.start, List.mem_toFinset.2 (List.mem_map.2 ⟨j, hj, rfl⟩)⟩
  set p := (holding.map (·.start)).toFinset.max' hne
  obtain ⟨j, hj, hjp⟩ := List.mem_map.1 (List.mem_toFinset.1 (Finset.max'_mem _ hne))
  have hjt := of_decide_eq_true (List.mem_filter.1 hj).2
  refine ⟨p, List.mem_toFinset.2 (List.mem_map.2 ⟨j, (List.mem_filter.1 hj).1, hjp⟩), ?_⟩
  refine List.countP_mono_left fun i hi hit => ?_
  have hle : i.start ≤ p :=
    Finset.le_max' _ _ (List.mem_toFinset.2 (List.mem_map.2 ⟨i, List.mem_filter.2 ⟨hi, hit⟩, rfl⟩))
  simp only [decide_eq_true_eq] at hit ⊢
  omega

end Proper

end Interval

/-- The sweep gives the largest number of intervals that share a depth: no depth lies in more
intervals, and some depth lies in that many, provided no interval ends before it starts. -/
theorem minColoringSize_eq_crossing (xs : List Interval) (h : ∀ i ∈ xs, i.start ≤ i.stop) :
    (∀ t, Interval.crossing xs t ≤ minColoringSize xs) ∧
      ∃ t, Interval.crossing xs t = minColoringSize xs := by
  rw [Interval.minColoringSize_eq_sup_openAt]
  refine ⟨fun t => ?_, ?_⟩
  · -- a depth inside some interval is outdone by the latest start of the intervals holding it
    rcases Nat.eq_zero_or_pos (Interval.crossing xs t) with h0 | hpos
    · rw [h0]
      exact Nat.zero_le _
    obtain ⟨p, hp, hle⟩ := Interval.exists_start_crossing_le t hpos
    calc Interval.crossing xs t ≤ Interval.crossing xs p := hle
      _ = Interval.openAt xs p := (Interval.openAt_eq_crossing h p).symm
      _ ≤ (Interval.starts xs).sup (Interval.openAt xs) := Finset.le_sup hp
  · rcases (Interval.starts xs).eq_empty_or_nonempty with hempty | hne
    · -- no start point: no interval
      have hnil : xs = [] := by simpa [Interval.starts] using hempty
      subst hnil
      exact ⟨0, by simp [Interval.crossing, Interval.starts]⟩
    · obtain ⟨p, -, hp⟩ := Finset.exists_mem_eq_sup _ hne (Interval.openAt xs)
      exact ⟨p, by rw [hp, Interval.openAt_eq_crossing h]⟩

end QuantumRuntime
