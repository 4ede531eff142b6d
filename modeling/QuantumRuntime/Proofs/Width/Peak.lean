import Mathlib
import QuantumRuntime.Proofs.Width.Report

/-!
# The peak number of live qubits

The width estimator keeps no set of live qubits, only a counter: an allocation adds one, and an
accepted release takes one away (never below zero) whatever qubit it names. Its peak is the
largest value the counter took.

The qubits that are really live along a run, allocated and not released since, are
`WidthEstimator.liveAfter`. The counter is their number as long as no qubit is released a second
time (`WidthEstimator.ReleasesOnce`), and then the peak is the most qubits live at any point of the
run, its start included (`WidthEstimator.peak_counts_live_qubits`). A second release of a qubit is
accepted and counted off once more, so the peak can fall short of the qubits live at the end
(`WidthEstimator.second_release_hides_live_qubit`).
-/

namespace QuantumRuntime

namespace WidthEstimator

/-- The qubits live after a request, given those live before it: an allocation adds the qubit
it hands out and a release removes the qubit it names. -/
def liveStep (w : WidthEstimator) (live : Finset Nat) : WidthRequest → Finset Nat
  | .allocate => insert w.allocate.1.index live
  | .release q => live.erase q.index
  | _ => live

/-- The qubits live after a run from `w`, given those live at its start. -/
def liveAfter (w : WidthEstimator) (live : Finset Nat) : List WidthRequest → Finset Nat
  | [] => live
  | r :: rs => (w.serve r).liveAfter (w.liveStep live r) rs

/-- Whether a request releases a qubit that is allocated but not live, that is, a second time. -/
def ReleasesAgain (w : WidthEstimator) (live : Finset Nat) : WidthRequest → Prop
  | .release q => q.index ∉ live ∧ q.index < w.qubits.length
  | _ => False

/-- Whether no request of a run releases a qubit a second time. -/
def ReleasesOnce (w : WidthEstimator) (live : Finset Nat) : List WidthRequest → Prop
  | [] => True
  | r :: rs => ¬w.ReleasesAgain live r ∧ (w.serve r).ReleasesOnce (w.liveStep live r) rs

/-- The counter agrees with a set of live qubits: they are all allocated, the counter is their
number, and the peak is at least the counter. -/
structure Counts (w : WidthEstimator) (live : Finset Nat) : Prop where
  allocated : ∀ i ∈ live, i < w.qubits.length
  live_eq : w.live = live.card
  live_le_peak : w.live ≤ w.peak

/-! ### What one request does to the counter -/

section Step

variable {w w' : WidthEstimator} {live : Finset Nat}

theorem record_counter {name : String} {cs ts : List Qubit} (h : w.record name cs ts = .ok w') :
    w'.live = w.live ∧ w'.peak = w.peak ∧ w'.qubits.length = w.qubits.length := by
  obtain ⟨-, -, -, -, -, -, hlen, -⟩ := record_ok_deepest h
  unfold record at h
  simp only [bind, Except.bind, pure, Except.pure] at h
  split at h
  · cases h
  · cases h
    exact ⟨rfl, rfl, hlen⟩

/-- An accepted release names an allocated qubit and lowers the counter by one. -/
theorem release_eq_ok {q : Qubit} (h : w.release q = .ok w') :
    q.index < w.qubits.length ∧ w' = { w with live := w.live - 1 } := by
  unfold release qubit? at h
  split at h
  · cases h
  · next d hd =>
    cases h
    exact ⟨(List.getElem?_eq_some_iff.1 hd).1, rfl⟩

/-- A refused release names a qubit that was never allocated. -/
theorem release_eq_error {q : Qubit} {e : BackendError} (h : w.release q = .error e) :
    w.qubits.length ≤ q.index := by
  unfold release qubit? at h
  split at h
  · next hnone => exact List.getElem?_eq_none_iff.1 hnone
  · cases h

/-- A gate or a measurement leaves the counter, the peak and the number of qubits alone, whether
it is recorded or refused. -/
theorem serve_counter (r : WidthRequest) (ha : r ≠ .allocate) (hr : ∀ q, r ≠ .release q) :
    (w.serve r).live = w.live ∧ (w.serve r).peak = w.peak ∧
      (w.serve r).qubits.length = w.qubits.length := by
  cases r with
  | allocate => exact absurd rfl ha
  | release q => exact absurd rfl (hr q)
  | apply g =>
    cases hg : w.apply g with
    | ok w' => simpa [serve, hg] using record_counter hg
    | error e => simp [serve, hg]
  | measure bases ts =>
    cases hm : w.measure ts with
    | ok p =>
      have hrec : w.record "m" [] ts = .ok p.2 := by
        unfold measure at hm
        split at hm
        · cases hm
        · cases hr : w.record "m" [] ts with
          | ok w' =>
            simp only [hr, Except.map, Except.ok.injEq] at hm
            rw [← hm]
          | error e => simp [hr, Except.map] at hm
      simpa [serve, hm] using record_counter hrec
    | error e => simp [serve, hm]

/-- A request that changes neither the counter, the peak nor the number of qubits keeps the
agreement with the same live qubits, below the same peak. -/
theorem Counts.keep (h : w.Counts live) (hlive : w'.live = w.live) (hpeak : w'.peak = w.peak)
    (hlen : w'.qubits.length = w.qubits.length) :
    w'.Counts live ∧ w'.peak = max w.peak live.card where
  left := ⟨fun i hi => hlen ▸ h.allocated i hi, hlive.trans h.live_eq,
    hlive ▸ hpeak ▸ h.live_le_peak⟩
  right := by
    rw [hpeak, ← h.live_eq]
    exact (Nat.max_eq_left h.live_le_peak).symm

/-- One request keeps the counter in agreement with the live qubits, unless it releases a qubit a
second time; the peak becomes the larger of the old peak and the number of live qubits. -/
theorem Counts.step (h : w.Counts live) (r : WidthRequest) (hr : ¬w.ReleasesAgain live r) :
    (w.serve r).Counts (w.liveStep live r) ∧
      (w.serve r).peak = max w.peak (w.liveStep live r).card := by
  cases r with
  | allocate =>
    -- the qubit handed out is past every allocated one, so it is not live yet
    have hfresh : w.qubits.length ∉ live := fun hmem => Nat.lt_irrefl _ (h.allocated _ hmem)
    have hcard : (insert w.qubits.length live).card = live.card + 1 :=
      Finset.card_insert_of_notMem hfresh
    refine ⟨⟨fun i hi => ?_, ?_, ?_⟩, ?_⟩
    · rcases Finset.mem_insert.1 hi with rfl | hi
      · simp [serve, allocate]
      · have := h.allocated i hi
        simp only [serve, allocate, List.length_append, List.length_singleton]
        omega
    · simp [serve, allocate, liveStep, hcard, h.live_eq]
    · simp [serve, allocate]
    · simp [serve, allocate, liveStep, hcard, h.live_eq]
  | release q =>
    cases hrel : w.release q with
    | ok w' =>
      obtain ⟨hlt, rfl⟩ := release_eq_ok hrel
      -- a qubit released for the first time is live, so the counter falls with the live set
      have hlive : q.index ∈ live := by
        by_contra hnot
        exact hr ⟨hnot, hlt⟩
      have hcard := Finset.card_erase_of_mem hlive
      have hle := h.live_le_peak
      have heq := h.live_eq
      refine ⟨⟨fun i hi => ?_, ?_, ?_⟩, ?_⟩
      · simpa [serve, hrel] using h.allocated i (Finset.mem_of_mem_erase hi)
      · simp [serve, hrel, liveStep, hcard, heq]
      · simp only [serve, hrel]
        omega
      · simp only [serve, hrel, liveStep, hcard]
        omega
    | error e =>
      -- a refused release names a qubit that was never allocated, so it is not live either
      have hnot : q.index ∉ live := fun hmem =>
        absurd (h.allocated _ hmem) (Nat.not_lt.2 (release_eq_error hrel))
      have hserve : w.serve (.release q) = w := by simp [serve, hrel]
      simp only [liveStep, Finset.erase_eq_of_notMem hnot, hserve]
      exact h.keep rfl rfl rfl
  | apply g =>
    obtain ⟨hlive, hpeak, hlen⟩ := serve_counter (w := w) (.apply g) (by simp)
      (fun _ => by simp)
    exact h.keep hlive hpeak hlen
  | measure bases ts =>
    obtain ⟨hlive, hpeak, hlen⟩ := serve_counter (w := w) (.measure bases ts) (by simp)
      (fun _ => by simp)
    exact h.keep hlive hpeak hlen

end Step

/-! ### Runs -/

theorem counts_new (o : Objective) : (new o).Counts ∅ where
  allocated := fun _ hi => absurd hi (Finset.notMem_empty _)
  live_eq := rfl
  live_le_peak := Nat.le_refl _

/-- Along a run in which no qubit is released twice, the peak is at least the number of live
qubits at every point, and it is either the peak the run started with or that number at some
point. -/
theorem Counts.peak_serveAll {w : WidthEstimator} {live : Finset Nat} (h : w.Counts live)
    (rs : List WidthRequest) (hrs : w.ReleasesOnce live rs) :
    w.peak ≤ (w.serveAll rs).peak ∧
      (∀ pre, pre <+: rs → (w.liveAfter live pre).card ≤ (w.serveAll rs).peak) ∧
      ((w.serveAll rs).peak = w.peak ∨
        ∃ pre, pre <+: rs ∧ (w.liveAfter live pre).card = (w.serveAll rs).peak) := by
  induction rs generalizing w live with
  | nil =>
    refine ⟨Nat.le_refl _, fun pre hpre => ?_, .inl rfl⟩
    rw [List.prefix_nil.1 hpre, liveAfter, ← h.live_eq]
    exact h.live_le_peak
  | cons r rs ih =>
    obtain ⟨hagain, hrest⟩ := hrs
    obtain ⟨h', hpeak⟩ := h.step r hagain
    obtain ⟨hmono, hbound, hat⟩ := ih h' hrest
    simp only [serveAll_cons] at hmono hbound hat ⊢
    rw [hpeak] at hmono hat
    refine ⟨le_trans (Nat.le_max_left _ _) hmono, fun pre hpre => ?_, ?_⟩
    · rcases List.prefix_cons_iff.1 hpre with rfl | ⟨t, rfl, ht⟩
      · -- the start of the run: the live qubits are counted and below the peak
        rw [liveAfter, ← h.live_eq]
        exact le_trans h.live_le_peak (le_trans (Nat.le_max_left _ _) hmono)
      · exact hbound t ht
    · rcases hat with hat | ⟨t, ht, hcard⟩
      · -- the peak was last raised by this request, or before the run
        rcases Nat.le_total w.peak (w.liveStep live r).card with hle | hle
        · rw [Nat.max_eq_right hle] at hat
          exact .inr ⟨[r], List.cons_prefix_cons.2 ⟨rfl, List.nil_prefix⟩, by
            rw [hat]
            rfl⟩
        · rw [Nat.max_eq_left hle] at hat
          exact .inl hat
      · exact .inr ⟨r :: t, List.cons_prefix_cons.2 ⟨rfl, ht⟩, hcard⟩

/-- The peak of the width estimator, over any run of allocations, releases, gates and
measurements from a new estimator in which no qubit is released twice, is the most qubits that
are allocated and not yet released at any point of the run. -/
theorem peak_counts_live_qubits (o : Objective) (rs : List WidthRequest)
    (hrs : (new o).ReleasesOnce ∅ rs) :
    (∀ pre, pre <+: rs → ((new o).liveAfter ∅ pre).card ≤ ((new o).serveAll rs).peak) ∧
      ∃ pre, pre <+: rs ∧ ((new o).liveAfter ∅ pre).card = ((new o).serveAll rs).peak := by
  obtain ⟨-, hbound, hat⟩ := (counts_new o).peak_serveAll rs hrs
  refine ⟨hbound, ?_⟩
  rcases hat with hat | hat
  · -- a run that never raised the peak: it is zero, the number live at the start
    exact ⟨[], List.nil_prefix, by rw [hat]; rfl⟩
  · exact hat

/-- Two qubits live at once, one released, a third allocated: the peak is two. -/
theorem peak_counts_live_qubits_reused_slot :
    (new .qubitWidth).ReleasesOnce ∅ [.allocate, .allocate, .release ⟨0⟩, .allocate] ∧
      ((new .qubitWidth).serveAll
        [.allocate, .allocate, .release ⟨0⟩, .allocate]).peak = 2 ∧
      ∃ pre, pre <+: [.allocate, .allocate, .release ⟨0⟩, .allocate] ∧
        ((new .qubitWidth).liveAfter ∅ pre).card = ((new .qubitWidth).serveAll
          [.allocate, .allocate, .release ⟨0⟩, .allocate]).peak := by
  have hrs :
      (new .qubitWidth).ReleasesOnce ∅ [.allocate, .allocate, .release ⟨0⟩, .allocate] := by
    simp [ReleasesOnce, ReleasesAgain, liveStep, serve, allocate, new]
  exact ⟨hrs, by decide, (peak_counts_live_qubits .qubitWidth _ hrs).2⟩

/-- Releasing qubit 0 twice counts it off twice: after two more allocations three qubits are
live, but the peak is two. -/
theorem second_release_hides_live_qubit :
    ((new .qubitWidth).serveAll
        [.allocate, .allocate, .release ⟨0⟩, .release ⟨0⟩, .allocate, .allocate]).peak = 2 ∧
      ((new .qubitWidth).liveAfter ∅
        [.allocate, .allocate, .release ⟨0⟩, .release ⟨0⟩, .allocate, .allocate]).card = 3 := by
  constructor
  · decide
  · decide

end WidthEstimator

end QuantumRuntime
