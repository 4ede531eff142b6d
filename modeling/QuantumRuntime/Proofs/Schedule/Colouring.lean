import Mathlib
import QuantumRuntime.Proofs.Schedule.Sweep

/-!
# The sweep gives the number of registers

The sweep answers with the most intervals open at one of their start points
(`Interval.minColoringSize_eq_sup_openAt`), whatever the intervals. For intervals that do not end
before they start, that is also the least number of registers with which qubits whose intervals
share a depth get different registers: the chromatic number of the conflict graph
(`Interval.chromaticNumber_conflictGraph`). The intervals containing the widest depth need that
many; and colouring the intervals one by one, the latest start first to be left out, never needs
more, since an interval's neighbours that start no later all contain its start.

The main statement is `Interval.sweep_counts_open_intervals`.
-/

namespace QuantumRuntime

namespace Interval

/-- Two intervals share a depth, ends included. -/
def Meets (a b : Interval) : Prop := ∃ t, (a.start ≤ t ∧ t ≤ a.stop) ∧ (b.start ≤ t ∧ t ≤ b.stop)

/-- Two intervals share a depth when neither ends before the other starts and neither ends
before it starts itself. -/
theorem meets_iff {a b : Interval} :
    Meets a b ↔ a.start ≤ a.stop ∧ b.start ≤ b.stop ∧ a.start ≤ b.stop ∧ b.start ≤ a.stop := by
  constructor
  · rintro ⟨t, ⟨ha₁, ha₂⟩, hb₁, hb₂⟩
    omega
  · intro h
    exact ⟨max a.start b.start, by omega, by omega⟩

instance (a b : Interval) : Decidable (Meets a b) := decidable_of_iff _ meets_iff.symm

theorem meets_comm {a b : Interval} (h : Meets a b) : Meets b a := by
  obtain ⟨t, ha, hb⟩ := h
  exact ⟨t, hb, ha⟩

/-- The conflict graph of a list of intervals: two positions are adjacent when their intervals
share a depth, so that the qubits they stand for need different registers. -/
def conflictGraph (xs : List Interval) : SimpleGraph (Fin xs.length) :=
  SimpleGraph.fromRel fun a b => Meets xs[a] xs[b]

theorem conflictGraph_adj {xs : List Interval} {a b : Fin xs.length} :
    (conflictGraph xs).Adj a b ↔ a ≠ b ∧ Meets xs[a] xs[b] := by
  rw [conflictGraph, SimpleGraph.fromRel_adj]
  exact and_congr_right fun _ => ⟨fun h => h.elim id meets_comm, Or.inl⟩

instance (xs : List Interval) : DecidableRel (conflictGraph xs).Adj :=
  fun _ _ => decidable_of_iff _ conflictGraph_adj.symm

/-- The positions of a list whose entries satisfy a predicate are as many as the entries. -/
theorem card_filter_getElem {α : Type} (xs : List α) (P : α → Prop) [DecidablePred P] :
    (Finset.univ.filter fun w : Fin xs.length => P xs[w]).card = xs.countP fun a => decide (P a) := by
  rw [Finset.card_filter, ← List.sum_ofFn]
  simp only [Fin.getElem_fin]
  rw [List.ofFn_getElem_eq_map xs fun a => if P a then 1 else 0]
  induction xs with
  | nil => rfl
  | cons a xs ih =>
    by_cases h : P a
    · simp [h, ih]
      omega
    · simp [h, ih]

/-- The positions whose intervals contain depth `t`. -/
def containing (xs : List Interval) (t : Nat) : Finset (Fin xs.length) :=
  Finset.univ.filter fun w => xs[w].start ≤ t ∧ t ≤ xs[w].stop

theorem card_containing (xs : List Interval) (t : Nat) : (containing xs t).card = crossing xs t :=
  card_filter_getElem xs fun i => i.start ≤ t ∧ t ≤ i.stop

theorem mem_containing {xs : List Interval} {t : Nat} {w : Fin xs.length} :
    w ∈ containing xs t ↔ xs[w].start ≤ t ∧ t ≤ xs[w].stop := by
  simp [containing]

/-- The intervals containing one depth pairwise conflict. -/
theorem isClique_containing (xs : List Interval) (t : Nat) :
    (conflictGraph xs).IsClique (containing xs t : Set (Fin xs.length)) := by
  intro a ha b hb hab
  exact conflictGraph_adj.2 ⟨hab, t, mem_containing.1 ha, mem_containing.1 hb⟩

section Colouring

variable {xs : List Interval} {k : Nat}

/-- The neighbours within a set of the interval of the set that starts last all contain its
start, as it does itself. -/
theorem neighbours_subset_containing (hproper : ∀ i ∈ xs, i.start ≤ i.stop)
    {S : Finset (Fin xs.length)} {v : Fin xs.length}
    (hlast : ∀ u ∈ S, xs[u].start ≤ xs[v].start) :
    insert v ((S.erase v).filter fun u => (conflictGraph xs).Adj v u) ⊆
      containing xs xs[v].start := by
  intro u hu
  rw [mem_containing]
  rcases Finset.mem_insert.1 hu with rfl | hu
  · exact ⟨le_rfl, hproper _ (List.getElem_mem _)⟩
  · obtain ⟨huS, hadj⟩ := Finset.mem_filter.1 hu
    obtain ⟨-, t, hv', hu'⟩ := conflictGraph_adj.1 hadj
    have hstart := hlast u (Finset.mem_of_mem_erase huS)
    exact ⟨hstart, by omega⟩

/-- Intervals no depth of which lies in more than `k` of them colour with `k` registers, apart
when they conflict: colour all but the interval of a set that starts last, which conflicts only
with intervals that contain its start, fewer than `k` others, and give it a colour they leave
free. -/
theorem exists_colouring (hproper : ∀ i ∈ xs, i.start ≤ i.stop) (hk : ∀ t, crossing xs t ≤ k) :
    ∀ S : Finset (Fin xs.length), ∃ col : Fin xs.length → Nat, (∀ v ∈ S, col v < k) ∧
      ∀ a ∈ S, ∀ b ∈ S, (conflictGraph xs).Adj a b → col a ≠ col b := by
  intro S
  induction S using Finset.strongInduction with
  | H S ih =>
    rcases S.eq_empty_or_nonempty with rfl | hne
    · exact ⟨fun _ => 0, fun v hv => absurd hv (Finset.notMem_empty v),
        fun a ha => absurd ha (Finset.notMem_empty a)⟩
    obtain ⟨v, hv, hlast⟩ := S.exists_max_image (fun w => xs[w].start) hne
    obtain ⟨col, hcol, hsep⟩ := ih (S.erase v) (Finset.erase_ssubset hv)
    have hcard : ((S.erase v).filter fun u => (conflictGraph xs).Adj v u).card < k := by
      have h1 := Finset.card_le_card (neighbours_subset_containing hproper hlast)
      rw [Finset.card_insert_of_notMem (fun h => (Finset.mem_erase.1 (Finset.mem_filter.1 h).1).1 rfl),
        card_containing] at h1
      have h2 := hk xs[v].start
      omega
    -- the neighbours take fewer than `k` colours, so one below `k` is free
    obtain ⟨c, hck, hc⟩ := Finset.exists_mem_notMem_of_card_lt_card
      (s := ((S.erase v).filter fun u => (conflictGraph xs).Adj v u).image col)
      (t := Finset.range k) (by
        rw [Finset.card_range]
        exact lt_of_le_of_lt Finset.card_image_le hcard)
    rw [Finset.mem_range] at hck
    have hfree : ∀ u ∈ S, u ≠ v → (conflictGraph xs).Adj v u → col u ≠ c := fun u hu huv hadj hcu =>
      hc (Finset.mem_image.2 ⟨u, Finset.mem_filter.2 ⟨Finset.mem_erase.2 ⟨huv, hu⟩, hadj⟩, hcu⟩)
    refine ⟨Function.update col v c, fun u hu => ?_, fun a ha b hb hab => ?_⟩
    · by_cases huv : u = v
      · rw [huv, Function.update_self]
        exact hck
      · rw [Function.update_of_ne huv]
        exact hcol u (Finset.mem_erase.2 ⟨huv, hu⟩)
    · have hne := (conflictGraph_adj.1 hab).1
      by_cases hav : a = v
      · subst hav
        rw [Function.update_self, Function.update_of_ne hne.symm]
        exact fun h => hfree b hb hne.symm hab h.symm
      · by_cases hbv : b = v
        · subst hbv
          rw [Function.update_self, Function.update_of_ne hav]
          exact hfree a ha hav hab.symm
        · rw [Function.update_of_ne hav, Function.update_of_ne hbv]
          exact hsep a (Finset.mem_erase.2 ⟨hav, ha⟩) b (Finset.mem_erase.2 ⟨hbv, hb⟩) hab

end Colouring

/-- For intervals that do not end before they start, the sweep gives the chromatic number of the
conflict graph: the intervals containing the widest depth need that many registers, and that many
suffice. -/
theorem chromaticNumber_conflictGraph (xs : List Interval) (hproper : ∀ i ∈ xs, i.start ≤ i.stop) :
    (conflictGraph xs).chromaticNumber = minColoringSize xs := by
  obtain ⟨hle, t, ht⟩ := minColoringSize_eq_crossing xs hproper
  refine le_antisymm ?_ ?_
  · obtain ⟨col, hcol, hsep⟩ := exists_colouring hproper hle Finset.univ
    refine SimpleGraph.Colorable.chromaticNumber_le ⟨SimpleGraph.Coloring.mk
      (fun a => ⟨col a, hcol a (Finset.mem_univ a)⟩) fun hadj heq => ?_⟩
    exact hsep _ (Finset.mem_univ _) _ (Finset.mem_univ _) hadj (Fin.mk.inj_iff.1 heq)
  · have h := (isClique_containing xs t).card_le_chromaticNumber
    rwa [card_containing, ht] at h

/-- What the sweep computes. For every list of intervals, ends before starts allowed, it gives
the most intervals open at one of their start points, where at a point `p` the intervals that
started before `p` and do not end before it count, and those that start at `p`; zero for no
interval. For intervals that do not end before they start, that is the largest number of intervals
that share a depth, and the chromatic number of the conflict graph. The order of the list does not
matter. -/
theorem sweep_counts_open_intervals (xs : List Interval) :
    minColoringSize xs = (starts xs).sup (openAt xs) ∧
    ((∀ i ∈ xs, i.start ≤ i.stop) →
      (∀ t, crossing xs t ≤ minColoringSize xs) ∧ (∃ t, crossing xs t = minColoringSize xs) ∧
      (conflictGraph xs).chromaticNumber = minColoringSize xs) ∧
    ∀ ys, ys.Perm xs → minColoringSize ys = minColoringSize xs := by
  refine ⟨minColoringSize_eq_sup_openAt xs, fun hproper => ?_, fun ys hperm => ?_⟩
  · obtain ⟨hle, hat⟩ := minColoringSize_eq_crossing xs hproper
    exact ⟨hle, hat, chromaticNumber_conflictGraph xs hproper⟩
  · rw [minColoringSize_eq_sup_openAt, minColoringSize_eq_sup_openAt, starts_perm hperm]
    exact Finset.sup_congr rfl fun p _ => openAt_perm hperm p

end Interval

end QuantumRuntime
