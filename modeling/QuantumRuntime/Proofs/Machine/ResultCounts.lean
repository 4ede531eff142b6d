import Mathlib
import QuantumRuntime.Machine.Results
import QuantumRuntime.Proofs.Machine.Keeps

/-!
# Reference counts of results

Results are issued by the backend and counted by the program. A result that was never shared has
one reference and no entry, so only counts of two or more are stored; an update that would take a
count below zero is refused and changes nothing, and the update that brings a count to zero hands
the result back to the backend (`Machine.updateResultRefs_cases`).

By the rules of reference counting (`ResultHandle.countAfter`) a result's count starts at one,
each update that keeps it nonnegative is applied, and the result is released, for good, when it
reaches zero. Along any run of updates the program's count follows these rules until the result
is released (`Machine.ledger_serveResults`). A released result has no entry either, so it reads as
one again: a later decrement hands it to the backend a second time
(`Machine.released_result_released_again`). The main statement,
`Machine.result_counts_until_released`, covers runs in which a released result is not updated
again; on those at most one update hands the result back.
-/

namespace QuantumRuntime

/-! ### Looking up counts in a filtered table -/

section Lookup

variable {α β : Type} [BEq α] [LawfulBEq α]

theorem lookup_filter_of_keeps (k : α) (p : α × β → Bool) (hp : ∀ b, p (k, b) = true) :
    ∀ l : List (α × β), (l.filter p).lookup k = l.lookup k
  | [] => rfl
  | (a, b) :: l => by
    have ih := lookup_filter_of_keeps k p hp l
    by_cases hka : k = a
    · subst hka
      simp [hp b]
    · have hne : (k == a) = false := beq_eq_false_iff_ne.mpr hka
      by_cases hpa : p (a, b) = true
      · simp [hpa, List.lookup_cons, hne, ih]
      · simp [hpa, List.lookup_cons, hne, ih]

theorem lookup_filter_of_drops (k : α) (p : α × β → Bool) (hp : ∀ b, p (k, b) = false)
    (l : List (α × β)) : (l.filter p).lookup k = none := by
  rw [List.lookup_eq_none_iff]
  intro q hq
  have hkq : k ≠ q.1 := by
    intro h
    have := (List.mem_filter.1 hq).2
    rw [← Prod.mk.eta (p := q), ← h, hp] at this
    cases this
  simpa using hkq

end Lookup

namespace ResultHandle

/-- The count of `r` after a run of updates of result counts from count `c`, by the rules of
reference counting: updates of other results leave it, an update of `r` is applied unless it would
take the count below zero, and the count reaching zero releases `r`, which is `none`. -/
def countAfter (r : ResultHandle) : Nat → List (ResultHandle × Int) → Option Nat
  | c, [] => some c
  | c, u :: us =>
    if u.1 ≠ r ∨ (c : Int) + u.2 < 0 then r.countAfter c us
    else if (c : Int) + u.2 = 0 then none
    else r.countAfter ((c : Int) + u.2).toNat us

@[simp] theorem countAfter_nil (r : ResultHandle) (c : Nat) : r.countAfter c [] = some c := rfl

theorem countAfter_append_of_none {r : ResultHandle} :
    ∀ {c : Nat} (pre post : List (ResultHandle × Int)), r.countAfter c pre = none →
      r.countAfter c (pre ++ post) = none
  | _, [], _, h => absurd h (Option.some_ne_none _)
  | c, u :: pre, post, h => by
    rw [List.cons_append, countAfter]
    rw [countAfter] at h
    split_ifs at h ⊢
    · exact countAfter_append_of_none pre post h
    · rfl
    · exact countAfter_append_of_none pre post h

theorem countAfter_append_singleton {r : ResultHandle} :
    ∀ {c : Nat} (pre : List (ResultHandle × Int)) (u : ResultHandle × Int),
      r.countAfter c (pre ++ [u]) = (r.countAfter c pre).bind fun c' => r.countAfter c' [u]
  | _, [], _ => rfl
  | c, v :: pre, u => by
    rw [List.cons_append, countAfter, countAfter]
    split_ifs
    · exact countAfter_append_singleton pre u
    · rfl
    · exact countAfter_append_singleton pre u

end ResultHandle

namespace Machine

@[simp] theorem final_ok {α : Type} (a : α) (m : Machine) :
    final (EStateM.Result.ok a m : EStateM.Result MachineError Machine α) = m := rfl

@[simp] theorem final_error {α : Type} (e : MachineError) (m : Machine) :
    final (EStateM.Result.error e m : EStateM.Result MachineError Machine α) = m := rfl

/-- Serves updates of result counts in turn; a refused update leaves the machine it reached. -/
def serveResults (m : Machine) (us : List (ResultHandle × Int)) : Machine :=
  us.foldl (fun m u => final (updateResultRefs u.1 u.2 m)) m

theorem serveResults_append_singleton (m : Machine) (us : List (ResultHandle × Int))
    (u : ResultHandle × Int) :
    m.serveResults (us ++ [u]) = final (updateResultRefs u.1 u.2 (m.serveResults us)) := by
  simp [serveResults]

/-- Whether updating `r` by `k` hands `r` back to the backend: the update is not zero and brings
the count of `r` to zero. -/
def ReleasesResult (m : Machine) (r : ResultHandle) (k : Int) : Prop :=
  k ≠ 0 ∧ (m.resultCount r : Int) + k = 0

/-- Every backend takes back a result. -/
theorem releaseResult_ok (b : Backend) (r : ResultHandle) : ∃ b', b.releaseResult r = .ok b' := by
  cases b <;> exact ⟨_, rfl⟩

/-! ### One update -/

section Update

variable {m : Machine} {r : ResultHandle} {k : Int}

theorem resultCount_pos (hm : ∀ p ∈ m.results, 2 ≤ p.2) (h : ResultHandle) :
    0 < m.resultCount h := by
  unfold resultCount
  cases hl : m.results.lookup h with
  | none => exact Nat.one_pos
  | some n =>
    obtain ⟨l₁, l₂, hsplit, -⟩ := List.lookup_eq_some_iff.1 hl
    have hmem : (h, n) ∈ m.results := by rw [hsplit]; simp
    exact Nat.lt_of_lt_of_le (by decide) (hm _ hmem)

/-- The table an accepted update leaves: the entries of other results, and `r` with its new count
`n` when that is two or more. -/
theorem resultCount_stored (m' : Machine) (p : ResultHandle × Nat → Bool)
    (hp : ∀ x, p x = decide (x.1 ≠ r)) (n : Int)
    (hres : m'.results = m.results.filter p ++ (if n = 1 then [] else [(r, n.toNat)]))
    (h : ResultHandle) :
    m'.resultCount h = if h = r then n.toNat else m.resultCount h := by
  unfold resultCount
  rw [hres, List.lookup_append]
  by_cases hh : h = r
  · subst hh
    rw [lookup_filter_of_drops h p (fun _ => by simp [hp])]
    split <;> simp_all
  · rw [lookup_filter_of_keeps h p (fun _ => by simp [hp, hh])]
    have hne : (h == r) = false := beq_eq_false_iff_ne.mpr hh
    cases hl : m.results.lookup h <;> split <;> simp [List.lookup_cons, hne]

/-- What an update of `r` by `k` does, with `c` the count of `r`. An update by zero changes
nothing, one that would take the count below zero fails without changing anything, and any other
gives `r` the count `c + k` (one when that is zero, with `r` handed to the backend), leaves the other
counts, and stores no count below two if none was stored before. -/
theorem updateResultRefs_cases (m : Machine) (r : ResultHandle) (k : Int) :
    (k = 0 ∧ updateResultRefs r k m = .ok () m) ∨
    ((m.resultCount r : Int) + k < 0 ∧ updateResultRefs r k m =
      .error (.negativeRefCount ⟨.result, r.raw⟩ ((m.resultCount r : Int) + k)) m) ∨
    (k ≠ 0 ∧ 0 ≤ (m.resultCount r : Int) + k ∧ ∃ m', updateResultRefs r k m = .ok () m' ∧
      (∀ h, m'.resultCount h = if h = r then
        (if (m.resultCount r : Int) + k = 0 then 1 else ((m.resultCount r : Int) + k).toNat)
        else m.resultCount h) ∧
      ((∀ p ∈ m.results, 2 ≤ p.2) → ∀ p ∈ m'.results, 2 ≤ p.2) ∧
      (m.ReleasesResult r k → m.backend.releaseResult r = .ok m'.backend) ∧
      (¬m.ReleasesResult r k → m'.backend = m.backend)) := by
  by_cases hk : k = 0
  · exact .inl ⟨hk, by simp [updateResultRefs, hk]⟩
  by_cases hneg : (m.resultCount r : Int) + k < 0
  · exact .inr (.inl ⟨hneg, by simp [updateResultRefs, hk, hneg]⟩)
  refine .inr (.inr ⟨hk, Int.not_lt.1 hneg, ?_⟩)
  by_cases hzero : (m.resultCount r : Int) + k = 0
  · -- the count reaches zero: the entry goes and the backend takes the result back
    obtain ⟨b', hb'⟩ := releaseResult_ok m.backend r
    simp only [updateResultRefs, hk, hzero, if_false, if_true, run_bind, run_get, run_modify,
      run_pure, onBackend, Int.lt_irrefl, hb', Except.map]
    refine ⟨_, rfl, fun h => ?_, fun hm p hp => hm p (List.mem_of_mem_filter hp), fun _ => rfl,
      fun hr => absurd ⟨hk, hzero⟩ hr⟩
    rw [resultCount_stored (m := m) (r := r) _ (fun x => !decide (x.1 = r)) (fun _ => by simp) 1
      (by simp) h]
    simp
  have hpos : 1 ≤ (m.resultCount r : Int) + k := by omega
  by_cases hone : (m.resultCount r : Int) + k = 1
  · -- the count is back to one: the entry goes
    simp only [updateResultRefs, hk, hone, if_false, if_true, run_bind, run_get]
    refine ⟨_, rfl, fun h => ?_, fun hm p hp => hm p (List.mem_of_mem_filter hp),
      fun hr => absurd hr.2 hzero, fun _ => rfl⟩
    rw [resultCount_stored (m := m) (r := r) _ (fun x => !decide (x.1 = r)) (fun _ => by simp) 1
      (by simp) h]
    simp
  · -- a count of two or more is stored
    simp only [updateResultRefs, hk, hneg, hzero, hone, if_false, run_bind, run_get, run_modify]
    refine ⟨_, rfl, fun h => ?_, fun hm p hp => ?_, fun hr => absurd hr.2 hzero, fun _ => rfl⟩
    · rw [resultCount_stored (m := m) (r := r) _ (fun x => !decide (x.1 = r)) (fun _ => by simp)
        ((m.resultCount r : Int) + k) (by simp [hone]) h]
    · rcases List.mem_append.1 hp with hp | hp
      · exact hm p (List.mem_of_mem_filter hp)
      · rw [List.mem_singleton] at hp
        subst hp
        show 2 ≤ ((m.resultCount r : Int) + k).toNat
        omega

/-- How a machine answers to the rules of reference counting when they give `r` the count `c`: it
reads `c`, an update that would take the count below zero fails and changes nothing, an update that
brings it to zero hands `r` back to the backend, and any other update leaves the backend alone. -/
structure FollowsCount (m : Machine) (r : ResultHandle) (c : Nat) : Prop where
  count_eq : m.resultCount r = c
  refuses : ∀ k, (c : Int) + k < 0 →
    updateResultRefs r k m = .error (.negativeRefCount ⟨.result, r.raw⟩ ((c : Int) + k)) m
  releases : ∀ k, k ≠ 0 → (c : Int) + k = 0 →
    ∃ m', updateResultRefs r k m = .ok () m' ∧ m.backend.releaseResult r = .ok m'.backend
  keeps_backend : ∀ k, ¬m.ReleasesResult r k → (final (updateResultRefs r k m)).backend = m.backend

/-- A machine that reads the count the rules give, and stores no count below two, answers to the
rules. -/
theorem followsCount_of_count (hc : m.resultCount r = c) : m.FollowsCount r c where
  count_eq := hc
  refuses k hneg := by
    rcases updateResultRefs_cases m r k with ⟨rfl, -⟩ | ⟨-, hx⟩ | ⟨-, hnn, -⟩
    · omega
    · rw [hx, hc]
    · omega
  releases k hk hzero := by
    rcases updateResultRefs_cases m r k with ⟨hk0, -⟩ | ⟨hneg, -⟩ | ⟨-, -, m', hx, -, -, hrel, -⟩
    · exact absurd hk0 hk
    · omega
    · exact ⟨m', hx, hrel ⟨hk, hc ▸ hzero⟩⟩
  keeps_backend k hnot := by
    rcases updateResultRefs_cases m r k with ⟨-, hx⟩ | ⟨-, hx⟩ | ⟨-, -, m', hx, -, -, -, hkeep⟩
    · rw [hx, final_ok]
    · rw [hx, final_error]
    · rw [hx, final_ok]
      exact hkeep hnot

/-- One update keeps the counts the rules give. From a table that stores no count below two and in
which `r` counts `c`, an update leaves such a table, in which `r` counts what the rules give after
the update unless they release `r`. -/
theorem update_follows {c : Nat} (hstored : ∀ p ∈ m.results, 2 ≤ p.2) (hc : m.resultCount r = c)
    (u : ResultHandle × Int) :
    (∀ p ∈ (final (updateResultRefs u.1 u.2 m)).results, 2 ≤ p.2) ∧
      ∀ c', r.countAfter c [u] = some c' → (final (updateResultRefs u.1 u.2 m)).resultCount r = c' := by
  rcases updateResultRefs_cases m u.1 u.2 with ⟨hk, hx⟩ | ⟨hneg, hx⟩ |
    ⟨hk, hnn, m', hx, hcounts, hkeeps, -, -⟩
  · rw [hx, final_ok]
    refine ⟨hstored, fun c' hc' => ?_⟩
    have hpos := resultCount_pos hstored r
    rw [ResultHandle.countAfter, hk] at hc'
    rw [hc] at hpos ⊢
    -- an update by zero leaves the count the rules give, which is positive
    have hnn : ¬(c : Int) < 0 := by omega
    have hne : c ≠ 0 := by omega
    by_cases hu : u.1 ≠ r
    · simpa [hu] using hc'
    · simpa [hu, hnn, hne] using hc'
  · rw [hx, final_error]
    refine ⟨hstored, fun c' hc' => ?_⟩
    rw [ResultHandle.countAfter] at hc'
    rw [hc]
    by_cases hu : u.1 = r
    · subst hu
      rw [hc] at hneg
      simpa [hneg] using hc'
    · simpa [hu] using hc'
  · rw [hx, final_ok]
    refine ⟨hkeeps hstored, fun c' hc' => ?_⟩
    rw [ResultHandle.countAfter] at hc'
    rw [hcounts r]
    by_cases hu : u.1 = r
    · subst hu
      rw [hc] at hnn ⊢
      have hnot : ¬(c : Int) + u.2 < 0 := by omega
      by_cases hzero : (c : Int) + u.2 = 0
      · simp [hzero] at hc'
      · simp only [ne_eq, not_true_eq_false, hnot, or_self, if_false, hzero,
          ResultHandle.countAfter, Option.some.injEq] at hc'
        simp [hzero, hc']
    · have hr : ¬r = u.1 := fun h => hu h.symm
      simp only [hr, if_false]
      rw [hc]
      simpa [hu] using hc'

end Update

/-! ### Runs of updates -/

section Runs

variable {r : ResultHandle}

/-- Along a run of updates the table stores no count below two, and the count of `r` is the one
the rules give, until they release `r`. -/
theorem ledger_serveResults (m₀ : Machine) (h₀ : m₀.results = []) (r : ResultHandle) :
    ∀ pre, (∀ p ∈ (m₀.serveResults pre).results, 2 ≤ p.2) ∧
      ∀ c, r.countAfter 1 pre = some c → (m₀.serveResults pre).resultCount r = c := by
  intro pre
  induction pre using List.reverseRecOn with
  | nil =>
    refine ⟨fun p hp => by simp [serveResults, h₀] at hp, fun c hc => ?_⟩
    cases hc
    simp [serveResults, resultCount, h₀]
  | append_singleton pre u ih =>
    obtain ⟨hstored, hcount⟩ := ih
    rw [serveResults_append_singleton, ResultHandle.countAfter_append_singleton]
    cases hpre : r.countAfter 1 pre with
    | none =>
      -- the rules have released `r`: only the table is left to follow
      exact ⟨(update_follows (r := r) hstored rfl u).1, fun c hc => absurd hc (by simp)⟩
    | some c' =>
      exact update_follows hstored (hcount c' hpre) u

/-- An update of `r` that hands it to the backend is the last update of `r` on a run that does
not update `r` once the rules have released it. -/
theorem no_update_after_release (m₀ : Machine) (h₀ : m₀.results = [])
    {us : List (ResultHandle × Int)}
    (hdone : ∀ n, r.countAfter 1 (us.take n) = none → ∀ u ∈ us.drop n, u.1 ≠ r)
    {i j : Nat} (hi : i < us.length) (hj : j < us.length) (hij : i < j) (hri : us[i].1 = r)
    (hrel : (m₀.serveResults (us.take i)).ReleasesResult r us[i].2) : us[j].1 ≠ r := by
  -- the update at `j` comes after the one at `i`
  have hmem : us[j] ∈ us.drop (i + 1) :=
    List.mem_drop_iff_getElem.2 ⟨j - (i + 1), by omega, by congr 1; omega⟩
  cases hpre : r.countAfter 1 (us.take i) with
  | none =>
    -- released before `i`: then `i` is no update of `r` either
    exact absurd hri (hdone i hpre _ (List.mem_drop_iff_getElem.2 ⟨0, by omega, by simp⟩))
  | some c =>
    -- the update at `i` brings the count the rules give to zero, which releases `r`
    have hc := (ledger_serveResults m₀ h₀ r (us.take i)).2 c hpre
    have hzero : (c : Int) + us[i].2 = 0 := hc ▸ hrel.2
    have hnone : r.countAfter 1 (us.take (i + 1)) = none := by
      rw [List.take_succ_eq_append_getElem hi, ResultHandle.countAfter_append_singleton, hpre,
        Option.bind_some, ResultHandle.countAfter]
      simp [hri, hzero]
    exact hdone (i + 1) hnone _ hmem

end Runs

/-- Updating a result's reference count, along any run of updates from a fresh program in which a
result is not updated once it has been released: the table never stores a count below two; until
the rules release the result, the program reads the count they give (one plus the increments
applied so far), refuses without any change an update that would take it below zero, hands the
result back to the backend exactly on the update that brings it to zero, and otherwise leaves the
backend alone; and at most one update of the run hands the result back. -/
theorem result_counts_until_released (backend : Backend) (track : Bool) (r : ResultHandle)
    (us : List (ResultHandle × Int))
    (hdone : ∀ n, r.countAfter 1 (us.take n) = none → ∀ u ∈ us.drop n, u.1 ≠ r) :
    (∀ n, (∀ p ∈ ((Machine.new backend track).serveResults (us.take n)).results, 2 ≤ p.2) ∧
      ∀ c, r.countAfter 1 (us.take n) = some c →
        ((Machine.new backend track).serveResults (us.take n)).FollowsCount r c) ∧
    ∀ i j (hi : i < us.length) (hj : j < us.length), us[i].1 = r → us[j].1 = r →
      ((Machine.new backend track).serveResults (us.take i)).ReleasesResult r us[i].2 →
      ((Machine.new backend track).serveResults (us.take j)).ReleasesResult r us[j].2 → i = j := by
  have hledger := ledger_serveResults (Machine.new backend track) rfl r
  refine ⟨fun n => ⟨(hledger (us.take n)).1, fun c hc => followsCount_of_count ?_⟩,
    fun i j hi hj hri hrj hreli hrelj => ?_⟩
  · exact (hledger (us.take n)).2 c hc
  · rcases Nat.lt_trichotomy i j with hij | hij | hij
    · exact absurd hrj (no_update_after_release _ rfl hdone hi hj hij hri hreli)
    · exact hij
    · exact absurd hri (no_update_after_release _ rfl hdone hj hi hij hrj hrelj)

/-- A result shared once more and then given back reads one again; it is still held, and one more
decrement would hand it to the backend. -/
theorem result_counts_until_released_shared_once :
    (∀ n, (⟨6⟩ : ResultHandle).countAfter 1 ([(⟨6⟩, 2), (⟨6⟩, -2), (⟨6⟩, -1)].take n) = none →
      ∀ u ∈ [((⟨6⟩ : ResultHandle), (2 : Int)), (⟨6⟩, -2), (⟨6⟩, -1)].drop n, u.1 ≠ ⟨6⟩) ∧
      ((Machine.new (.recorder {}) true).serveResults
        [(⟨6⟩, 2), (⟨6⟩, -2)]).FollowsCount ⟨6⟩ 1 := by
  have hdone : ∀ n, (⟨6⟩ : ResultHandle).countAfter 1
      ([(⟨6⟩, 2), (⟨6⟩, -2), (⟨6⟩, -1)].take n) = none →
      ∀ u ∈ [((⟨6⟩ : ResultHandle), (2 : Int)), (⟨6⟩, -2), (⟨6⟩, -1)].drop n, u.1 ≠ ⟨6⟩ := by
    intro n
    rcases Nat.lt_or_ge n 3 with hn | hn
    · interval_cases n <;> decide
    · intro _ u hu
      rw [List.drop_eq_nil_of_le (by simpa using hn)] at hu
      exact absurd hu List.not_mem_nil
  exact ⟨hdone, ((result_counts_until_released (.recorder {}) true ⟨6⟩ _ hdone).1 2).2 1
    (by decide)⟩

/-- A result released by its first decrement reads as one again, so a second decrement is
accepted and hands it to the backend a second time. -/
theorem released_result_released_again :
    updateResultRefs ⟨2⟩ (-1) (Machine.new (.recorder {}) false) =
        .ok () { Machine.new (.recorder {}) false with
          backend := .recorder { releasedResults := [⟨2⟩] } } ∧
      updateResultRefs ⟨2⟩ (-1) { Machine.new (.recorder {}) false with
          backend := .recorder { releasedResults := [⟨2⟩] } } =
        .ok () { Machine.new (.recorder {}) false with
          backend := .recorder { releasedResults := [⟨2⟩, ⟨2⟩] } } :=
  ⟨rfl, rfl⟩



end Machine

end QuantumRuntime
