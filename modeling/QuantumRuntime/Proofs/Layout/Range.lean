import Mathlib
import QuantumRuntime.Layout.Range

/-!
# What a checked range selects

A range `start..step..stop` names the arithmetic sequence `start, start + step, …` that stays
between `start` and `stop`, both included, on the side of `start` the step points to.
`Range.Covers` says which positions lie there, `Range.term i` is the `i`-th term and
`Range.size` counts the terms in closed form: a term lies on the sequence exactly when its index
is below the size (`lt_size_iff`).

`Range.select` counts the same terms another way, from the span `stop - start ± 1` by a truncating
division rounded away from zero; it then computes the last position and the position one step
past it, in signed 64-bit arithmetic where a value that leaves the width makes the range out of
bounds. `select_eq` reads the whole check in terms of the sequence: a zero step is refused, an
empty sequence gives the empty selection, and a sequence inside the dimension is selected exactly
when the span and, for two terms or more, the position past the last fit in 64 bits. Those two
conditions are real: a sequence inside a dimension of more than `2 ^ 62` positions can be refused
because `stop - start` leaves 64 bits (`in_bounds_sequence_refused`).
-/

namespace QuantumRuntime

namespace Range

/-- The `i`-th term `start + i * step` of the sequence of a range. -/
def term (r : Range) (i : Nat) : Int := r.start + i * r.step

/-- Whether a position lies between `start` and `stop`, both included, on the side of `start`
that the step points to. -/
def Covers (r : Range) (x : Int) : Prop :=
  (0 < r.step ∧ r.start ≤ x ∧ x ≤ r.stop) ∨ (r.step < 0 ∧ r.stop ≤ x ∧ x ≤ r.start)

instance (r : Range) (x : Int) : Decidable (r.Covers x) :=
  inferInstanceAs (Decidable ((0 < r.step ∧ r.start ≤ x ∧ x ≤ r.stop) ∨
    (r.step < 0 ∧ r.stop ≤ x ∧ x ≤ r.start)))

/-- How far `stop` lies from `start` in the direction of the step; negative when it lies
behind. -/
def reach (r : Range) : Int := if 0 < r.step then r.stop - r.start else r.start - r.stop

/-- The number of terms of the sequence: one more than the whole steps within the reach, and
none when `stop` lies behind `start`. -/
def size (r : Range) : Nat := (r.reach / r.step.natAbs + 1).toNat

/-- Every term of the sequence lies in a dimension of size `bound`. -/
def InBounds (r : Range) (bound : Int) : Prop := ∀ i < r.size, 0 ≤ r.term i ∧ r.term i < bound

instance (r : Range) (bound : Int) : Decidable (r.InBounds bound) :=
  inferInstanceAs (Decidable (∀ i < r.size, 0 ≤ r.term i ∧ r.term i < bound))

theorem fitsInt64_iff (x : Int) : fitsInt64 x = true ↔ int64Min ≤ x ∧ x ≤ int64Max := by
  simp [fitsInt64]

variable {r : Range} {bound : Int}

@[simp] theorem term_zero (r : Range) : r.term 0 = r.start := by simp [term]

theorem term_succ (r : Range) (i : Nat) : r.term (i + 1) = r.term i + r.step := by
  simp only [term, Nat.cast_add, Nat.cast_one, Int.add_mul, Int.one_mul]
  omega

/-! ### The size of the sequence -/

theorem natAbs_step_pos (hs : r.step ≠ 0) : (0 : Int) < r.step.natAbs := by omega

/-- A term lies on the sequence when its whole steps fit in the reach. -/
theorem covers_term_iff (hs : r.step ≠ 0) (i : Nat) :
    r.Covers (r.term i) ↔ (i : Int) * r.step.natAbs ≤ r.reach := by
  unfold Covers term reach
  rcases lt_or_gt_of_ne hs with hneg | hpos
  · -- going down, `i * |step|` is how far the term lies below `start`
    have habs : ((r.step.natAbs : Nat) : Int) = -r.step := by omega
    have hle : (i : Int) * r.step ≤ 0 := Int.mul_nonpos_of_nonneg_of_nonpos (by omega) hneg.le
    rw [if_neg (by omega), habs, Int.mul_neg]
    omega
  · have habs : ((r.step.natAbs : Nat) : Int) = r.step := by omega
    have hle : 0 ≤ (i : Int) * r.step := Int.mul_nonneg (by omega) hpos.le
    rw [if_pos hpos, habs]
    omega

/-- The closed form counts the terms: a term lies on the sequence exactly when its index is below
the size. -/
theorem lt_size_iff (hs : r.step ≠ 0) (i : Nat) : i < r.size ↔ r.Covers (r.term i) := by
  rw [covers_term_iff hs, ← Int.le_ediv_iff_mul_le (natAbs_step_pos hs), size]
  omega

theorem size_pos_iff (hs : r.step ≠ 0) : 0 < r.size ↔ ¬ r.IsBackwards := by
  have h := lt_size_iff hs 0
  rw [term_zero] at h
  rw [h]
  unfold Covers IsBackwards
  omega

theorem covers_start_iff (hs : r.step ≠ 0) : r.Covers r.start ↔ 0 < r.size := by
  rw [lt_size_iff hs 0, term_zero]

/-- The sequence has a second term exactly when it has two terms or more. -/
theorem covers_term_one_iff (hs : r.step ≠ 0) : r.Covers (r.term 1) ↔ 2 ≤ r.size :=
  (lt_size_iff hs 1).symm

theorem inBounds_iff_covers (hs : r.step ≠ 0) :
    r.InBounds bound ↔ ∀ i, r.Covers (r.term i) → 0 ≤ r.term i ∧ r.term i < bound :=
  forall_congr' fun i => imp_congr_left (lt_size_iff hs i)

theorem size_eq_zero_iff (hs : r.step ≠ 0) : r.size = 0 ↔ r.IsBackwards := by
  rw [← not_iff_not, ← size_pos_iff hs]
  omega

theorem reach_nonneg (hs : r.step ≠ 0) (hb : ¬ r.IsBackwards) : 0 ≤ r.reach := by
  unfold reach
  unfold IsBackwards at hb
  split <;> omega

theorem size_eq (hs : r.step ≠ 0) (hb : ¬ r.IsBackwards) :
    (r.size : Int) = r.reach / r.step.natAbs + 1 := by
  have : 0 ≤ r.reach / r.step.natAbs :=
    Int.ediv_nonneg (reach_nonneg hs hb) (natAbs_step_pos hs).le
  rw [size]
  omega

/-! ### The count computed from the span -/

/-- A truncating division of `x + 1` rounded away from zero is one more than the floor of `x`. -/
theorem tdiv_succ_rounded {x A : Int} (hx : 0 ≤ x) (hA : 0 < A) :
    (x + 1).tdiv A + (if (x + 1).tmod A ≠ 0 then 1 else 0) = x / A + 1 := by
  rw [Int.tdiv_eq_ediv_of_nonneg (by omega), Int.tmod_eq_emod_of_nonneg (by omega)]
  have hx' := Int.mul_ediv_add_emod x A
  have hm0 := Int.emod_nonneg x hA.ne'
  have hmA := Int.emod_lt_of_pos x hA
  by_cases hlast : x % A + 1 = A
  · -- `x + 1` is a multiple of `A`: the division is exact and one more
    have hmul : 0 + A * (x / A + 1) = x + 1 := by rw [Int.mul_add]; omega
    obtain ⟨hq, hr⟩ := (@Int.ediv_emod_unique (x + 1) A 0 (x / A + 1) hA).2 ⟨hmul, le_refl 0, hA⟩
    rw [hq, hr]
    simp
  · obtain ⟨hq, hr⟩ :=
      (@Int.ediv_emod_unique (x + 1) A (x % A + 1) (x / A) hA).2 ⟨by omega, by omega, by omega⟩
    rw [hq, hr, if_pos (by omega)]

/-- With the sign of the step divided out, the span is one more than the reach: going down, the
span and the step are both negated. -/
theorem span_tdiv_tmod (hs : r.step ≠ 0) :
    r.span.tdiv r.step = (r.reach + 1).tdiv r.step.natAbs ∧
      r.span.tmod r.step = (r.reach + 1).tmod r.step.natAbs ∨
    r.span.tdiv r.step = (r.reach + 1).tdiv r.step.natAbs ∧
      r.span.tmod r.step = -(r.reach + 1).tmod r.step.natAbs := by
  set A : Int := ((r.step.natAbs : Nat) : Int) with hA
  rcases lt_or_gt_of_ne hs with hneg | hpos
  · have hspan : r.span = -(r.reach + 1) := by
      simp only [span, reach, if_neg (show ¬ 0 < r.step by omega)]
      omega
    have hstep : r.step = -A := by omega
    right
    rw [hspan, hstep, Int.neg_tdiv_neg, Int.neg_tmod, Int.tmod_neg]
    exact ⟨rfl, rfl⟩
  · have hspan : r.span = r.reach + 1 := by
      simp only [span, reach, if_pos hpos]
    have hstep : r.step = A := by omega
    left
    rw [hspan, hstep]
    exact ⟨rfl, rfl⟩

theorem count_eq_rounded (hs : r.step ≠ 0) :
    r.count = (r.reach + 1).tdiv r.step.natAbs +
      (if (r.reach + 1).tmod r.step.natAbs ≠ 0 then 1 else 0) := by
  unfold count
  rcases span_tdiv_tmod hs with ⟨hq, hm⟩ | ⟨hq, hm⟩
  · rw [hq, hm]
  · simp only [hq, hm, ne_eq, neg_eq_zero]

theorem count_eq_size (hs : r.step ≠ 0) (hb : ¬ r.IsBackwards) : r.count = r.size := by
  rw [count_eq_rounded hs, size_eq hs hb]
  exact tdiv_succ_rounded (reach_nonneg hs hb) (natAbs_step_pos hs)

theorem last_eq_term (hs : r.step ≠ 0) (hb : ¬ r.IsBackwards) :
    r.last = r.term (r.size - 1) := by
  have hpos := (size_pos_iff hs).2 hb
  have hc : (((r.size - 1 : Nat)) : Int) = r.count - 1 := by
    rw [count_eq_size hs hb]
    omega
  rw [last, term, hc]

theorem last_add_step (hs : r.step ≠ 0) (hb : ¬ r.IsBackwards) :
    r.last + r.step = r.term r.size := by
  have hpos := (size_pos_iff hs).2 hb
  rw [last_eq_term hs hb, ← term_succ, Nat.sub_add_cancel hpos]

/-! ### Terms inside the dimension -/

theorem term_mono (hpos : 0 < r.step) {i j : Nat} (h : i ≤ j) : r.term i ≤ r.term j := by
  have : (i : Int) * r.step ≤ j * r.step :=
    Int.mul_le_mul_of_nonneg_right (by omega) hpos.le
  simp only [term]
  omega

theorem term_anti (hneg : r.step < 0) {i j : Nat} (h : i ≤ j) : r.term j ≤ r.term i := by
  have : (j : Int) * r.step ≤ i * r.step :=
    Int.mul_le_mul_of_nonpos_right (by omega) hneg.le
  simp only [term]
  omega

/-- The terms run monotonically, so the whole sequence lies in the dimension when its first and
last terms do. -/
theorem inBounds_iff (hs : r.step ≠ 0) (hb : ¬ r.IsBackwards) :
    r.InBounds bound ↔ 0 ≤ r.start ∧ r.start < bound ∧
      0 ≤ r.term (r.size - 1) ∧ r.term (r.size - 1) < bound := by
  have hpos := (size_pos_iff hs).2 hb
  constructor
  · intro h
    have h0 := h 0 hpos
    have hl := h (r.size - 1) (by omega)
    rw [term_zero] at h0
    exact ⟨h0.1, h0.2, hl⟩
  · rintro ⟨h0, h0b, hl, hlb⟩ i hi
    rcases lt_or_gt_of_ne hs with hneg | hstep
    · have h1 := term_anti hneg (Nat.zero_le i)
      have h2 := term_anti hneg (show i ≤ r.size - 1 by omega)
      rw [term_zero] at h1
      omega
    · have h1 := term_mono hstep (Nat.zero_le i)
      have h2 := term_mono hstep (show i ≤ r.size - 1 by omega)
      rw [term_zero] at h1
      omega

/-- The check of the code: the first position and the last one, whichever comes first. -/
theorem inside_iff (hs : r.step ≠ 0) (hb : ¬ r.IsBackwards) :
    ((if 0 < r.step then decide (0 ≤ r.start) && decide (r.last < bound)
      else decide (0 ≤ r.last) && decide (r.start < bound)) = true) ↔ r.InBounds bound := by
  rw [inBounds_iff hs hb, last_eq_term hs hb]
  have hpos := (size_pos_iff hs).2 hb
  rcases lt_or_gt_of_ne hs with hneg | hstep
  · have h := term_anti hneg (Nat.zero_le (r.size - 1))
    rw [term_zero] at h
    rw [if_neg (by omega)]
    simp only [Bool.and_eq_true, decide_eq_true_eq]
    omega
  · have h := term_mono hstep (Nat.zero_le (r.size - 1))
    rw [term_zero] at h
    rw [if_pos hstep]
    simp only [Bool.and_eq_true, decide_eq_true_eq]
    omega

/-- A sequence inside a dimension has no more terms than the dimension has positions. -/
theorem size_le_bound (hs : r.step ≠ 0) (hb : ¬ r.IsBackwards) (hin : r.InBounds bound) :
    (r.size : Int) ≤ bound := by
  obtain ⟨h0, h0b, hl, hlb⟩ := (inBounds_iff hs hb).1 hin
  have hpos := (size_pos_iff hs).2 hb
  -- the first and last terms are `(size - 1) * |step|` apart, at least `size - 1`
  have hgap : ((r.size - 1 : Nat) : Int) ≤ ((r.size - 1 : Nat) : Int) * r.step.natAbs :=
    le_mul_of_one_le_right (by omega) (natAbs_step_pos hs)
  simp only [term] at hl hlb
  rcases lt_or_gt_of_ne hs with hneg | hstep
  · have habs : ((r.step.natAbs : Nat) : Int) = -r.step := by omega
    rw [habs, Int.mul_neg] at hgap
    omega
  · have habs : ((r.step.natAbs : Nat) : Int) = r.step := by omega
    rw [habs] at hgap
    omega

/-- Inside a dimension of a signed 64-bit size, the quotient, the offset of the last position
and the last position always fit in 64 bits: only the span and the end can overflow. -/
theorem fits_of_inBounds (hbound : bound ≤ int64Max) (hs : r.step ≠ 0) (hb : ¬ r.IsBackwards)
    (hin : r.InBounds bound) :
    fitsInt64 (r.span.tdiv r.step) = true ∧ fitsInt64 ((r.count - 1) * r.step) = true ∧
      fitsInt64 r.last = true := by
  have hle := size_le_bound hs hb hin
  obtain ⟨h0, h0b, hl, hlb⟩ := (inBounds_iff hs hb).1 hin
  have hcount := count_eq_size hs hb
  have hlast := last_eq_term hs hb
  -- the quotient lies between zero and the count
  have hq : 0 ≤ r.span.tdiv r.step ∧ r.span.tdiv r.step ≤ r.count := by
    have hround := count_eq_rounded hs
    have hr := reach_nonneg hs hb
    have hnn : 0 ≤ (r.reach + 1).tdiv r.step.natAbs :=
      Int.tdiv_nonneg (by omega) (natAbs_step_pos hs).le
    have hdiv : r.span.tdiv r.step = (r.reach + 1).tdiv r.step.natAbs := by
      rcases span_tdiv_tmod hs with ⟨hq, -⟩ | ⟨hq, -⟩ <;> exact hq
    rw [hdiv]
    split at hround <;> omega
  have hoff : (r.count - 1) * r.step = r.last - r.start := by
    simp only [last]
    omega
  simp only [fitsInt64_iff, int64Min, int64Max] at hbound ⊢
  omega

/-! ### The check, read off the sequence -/

/-- Checking a range against a dimension of a signed 64-bit size: a zero step is refused, an
empty sequence gives the empty selection, and otherwise the sequence is selected, with step one
when it has a single term, exactly when it lies inside the dimension and the span and the
position past its last term fit in 64 bits. -/
theorem select_eq (hbound : bound ≤ int64Max) :
    r.select bound =
      if r.step = 0 then .error (.zeroStep r)
      else if r.size = 0 then .ok Selection.empty
      else if r.InBounds bound ∧ fitsInt64 r.span = true ∧
          (r.size = 1 ∨ fitsInt64 (r.term r.size) = true) then
        .ok (if r.size = 1 then ⟨r.start, 1, r.start + 1, 1⟩
          else ⟨r.start, r.step, r.term r.size, r.size⟩)
      else .error (.outOfBounds r bound) := by
  by_cases hs : r.step = 0
  · simp [select, hs]
  by_cases hb : r.IsBackwards
  · simp [select, hs, hb, (size_eq_zero_iff hs).2 hb]
  have hpos := (size_pos_iff hs).2 hb
  rw [if_neg hs, if_neg (show r.size ≠ 0 by omega)]
  unfold select
  rw [if_neg hs, if_neg hb]
  dsimp only
  rw [last_add_step hs hb]
  by_cases hin : r.InBounds bound
  · -- inside the dimension only the span and the end can still overflow
    obtain ⟨hq, hoff, hlast⟩ := fits_of_inBounds hbound hs hb hin
    have hinside := (inside_iff hs hb).2 hin
    simp only [hq, hoff, hlast, hinside, Bool.not_true, Bool.false_eq_true, if_false]
    simp only [count_eq_size hs hb, Nat.cast_eq_one]
    by_cases hspan : fitsInt64 r.span = true
    · by_cases hone : r.size = 1
      · simp [hin, hspan, hone]
      · simp only [hin, hspan, hone, true_and, false_or, if_false]
        cases fitsInt64 (r.term r.size) <;> rfl
    · simp [hspan]
  · have hinside : ¬ ((if 0 < r.step then decide (0 ≤ r.start) && decide (r.last < bound)
        else decide (0 ≤ r.last) && decide (r.start < bound)) = true) :=
      fun h => hin ((inside_iff hs hb).1 h)
    rw [Bool.not_eq_true] at hinside
    conv_rhs => rw [if_neg (fun h => hin h.1)]
    simp only [hinside, Bool.not_false, if_true]
    split_ifs <;> rfl

/-- Past a nonzero step every refusal is an out-of-bounds error for the range and the size. -/
theorem select_error_of_step_ne_zero (hs : r.step ≠ 0) {e : RangeError}
    (h : r.select bound = .error e) : e = .outOfBounds r bound := by
  unfold select at h
  dsimp only at h
  rw [if_neg hs] at h
  split_ifs at h <;> cases h <;> rfl

theorem select_ok_iff (hbound : bound ≤ int64Max) (hs : r.step ≠ 0) :
    (∃ s, r.select bound = .ok s) ↔ r.size = 0 ∨ (r.InBounds bound ∧ fitsInt64 r.span = true ∧
      (2 ≤ r.size → fitsInt64 (r.term r.size) = true)) := by
  rw [select_eq hbound, if_neg hs]
  by_cases h0 : r.size = 0
  · simp [h0]
  rw [if_neg h0]
  -- a sequence of one term needs no end, one of two or more terms needs it to fit
  have hend : (r.size = 1 ∨ fitsInt64 (r.term r.size) = true) ↔
      (2 ≤ r.size → fitsInt64 (r.term r.size) = true) := by
    constructor
    · rintro (h | h) h2
      · omega
      · exact h
    · intro h
      by_cases h1 : r.size = 1
      · exact .inl h1
      · exact .inr (h (by omega))
  by_cases hc : r.InBounds bound ∧ fitsInt64 r.span = true ∧
      (r.size = 1 ∨ fitsInt64 (r.term r.size) = true)
  · rw [if_pos hc]
    exact iff_of_true ⟨_, rfl⟩ (.inr ⟨hc.1, hc.2.1, hend.1 hc.2.2⟩)
  · rw [if_neg hc]
    refine iff_of_false (fun ⟨s, h⟩ => by cases h) ?_
    rintro (h | ⟨h1, h2, h3⟩)
    · exact h0 h
    · exact hc ⟨h1, h2, hend.2 h3⟩

/-- What a successful check gives: the terms of the sequence, in order, ending one step past the
last, with step one for a single term and the empty selection for none. -/
theorem select_ok_spec (hbound : bound ≤ int64Max) {s : Selection}
    (h : r.select bound = .ok s) :
    s.width = r.size ∧ s.indices = (List.range r.size).map r.term ∧
      s.stop = s.start + s.width * s.step ∧ (s.width = 1 → s.step = 1) ∧
      (r.size = 0 → s = Selection.empty) := by
  rw [select_eq hbound] at h
  by_cases hs : r.step = 0
  · rw [if_pos hs] at h
    cases h
  rw [if_neg hs] at h
  by_cases h0 : r.size = 0
  · -- the empty sequence
    rw [if_pos h0] at h
    cases h
    exact ⟨by rw [h0]; rfl, by rw [h0]; rfl, rfl, fun h1 => absurd h1 (by decide), fun _ => rfl⟩
  rw [if_neg h0] at h
  by_cases hc : r.InBounds bound ∧ fitsInt64 r.span = true ∧
      (r.size = 1 ∨ fitsInt64 (r.term r.size) = true)
  · rw [if_pos hc] at h
    by_cases hone : r.size = 1
    · -- a single term, written with step one
      rw [if_pos hone] at h
      cases h
      refine ⟨hone.symm, ?_, by simp, fun _ => rfl, fun h0' => absurd h0' h0⟩
      rw [hone]
      simp [Selection.indices]
    · rw [if_neg hone] at h
      cases h
      exact ⟨rfl, rfl, rfl, fun h1 => absurd h1 hone, fun h0' => absurd h0' h0⟩
  · rw [if_neg hc] at h
    cases h

/-- Checking a range against a dimension of any signed 64-bit size, read off its sequence: a
zero step, and only a zero step, is refused as invalid; the size counts the terms of the
sequence. The check succeeds exactly when the sequence is empty, or it lies inside the dimension
and both the span `stop - start ± 1` and, for two terms or more, the position one step past the
last fit in 64 bits; any other refusal is out of bounds for the range and the size. A successful
check selects the terms of the sequence in order, ends one step past the last of them, writes a
single term with step one and an empty sequence as the empty selection. -/
theorem select_exact (r : Range) (bound : Int) (hbound : bound ≤ int64Max) :
    (r.select bound = .error (.zeroStep r) ↔ r.step = 0) ∧
    (r.step ≠ 0 →
      (∀ i : Nat, i < r.size ↔ r.Covers (r.term i)) ∧
      ((∃ s, r.select bound = .ok s) ↔ ¬ r.Covers r.start ∨
        ((∀ i, r.Covers (r.term i) → 0 ≤ r.term i ∧ r.term i < bound) ∧
          fitsInt64 r.span = true ∧ (r.Covers (r.term 1) → fitsInt64 (r.term r.size) = true))) ∧
      ∀ e, r.select bound = .error e → e = .outOfBounds r bound) ∧
    ∀ s, r.select bound = .ok s →
      s.width = r.size ∧ s.indices = (List.range r.size).map r.term ∧
        s.stop = s.start + s.width * s.step ∧ (s.width = 1 → s.step = 1) ∧
        (¬ r.Covers r.start → s = Selection.empty) := by
  refine ⟨⟨fun h => ?_, select_zeroStep r bound⟩, fun hs => ⟨lt_size_iff hs, ?_,
    fun e he => select_error_of_step_ne_zero hs he⟩, fun s h => ?_⟩
  · by_contra hs
    cases select_error_of_step_ne_zero hs h
  · rw [select_ok_iff hbound hs, covers_start_iff hs, inBounds_iff_covers hs,
      covers_term_one_iff hs, Nat.pos_iff_ne_zero, not_not]
  · obtain ⟨hw, hi, hstop, hone, hempty⟩ := select_ok_spec hbound h
    refine ⟨hw, hi, hstop, hone, fun hc => ?_⟩
    by_cases hs : r.step = 0
    · cases (select_zeroStep r bound hs).symm.trans h
    · exact hempty (by rw [covers_start_iff hs] at hc; omega)

/-- Selecting `4, 2, 0` from a dimension of five positions. -/
theorem select_exact_down_by_two :
    (5 : Int) ≤ int64Max ∧
    ((⟨4, -2, 0⟩ : Range).select 5 = .error (.zeroStep ⟨4, -2, 0⟩) ↔ (⟨4, -2, 0⟩ : Range).step = 0) ∧
    ((⟨4, -2, 0⟩ : Range).step ≠ 0 →
      (∀ i : Nat, i < (⟨4, -2, 0⟩ : Range).size ↔
        (⟨4, -2, 0⟩ : Range).Covers ((⟨4, -2, 0⟩ : Range).term i)) ∧
      ((∃ s, (⟨4, -2, 0⟩ : Range).select 5 = .ok s) ↔
        ¬ (⟨4, -2, 0⟩ : Range).Covers (⟨4, -2, 0⟩ : Range).start ∨
        ((∀ i, (⟨4, -2, 0⟩ : Range).Covers ((⟨4, -2, 0⟩ : Range).term i) →
            0 ≤ (⟨4, -2, 0⟩ : Range).term i ∧ (⟨4, -2, 0⟩ : Range).term i < 5) ∧
          fitsInt64 (⟨4, -2, 0⟩ : Range).span = true ∧
          ((⟨4, -2, 0⟩ : Range).Covers ((⟨4, -2, 0⟩ : Range).term 1) →
            fitsInt64 ((⟨4, -2, 0⟩ : Range).term (⟨4, -2, 0⟩ : Range).size) = true))) ∧
      ∀ e, (⟨4, -2, 0⟩ : Range).select 5 = .error e → e = .outOfBounds ⟨4, -2, 0⟩ 5) ∧
    ∀ s, (⟨4, -2, 0⟩ : Range).select 5 = .ok s →
      s.width = (⟨4, -2, 0⟩ : Range).size ∧
        s.indices = (List.range (⟨4, -2, 0⟩ : Range).size).map (⟨4, -2, 0⟩ : Range).term ∧
        s.stop = s.start + s.width * s.step ∧ (s.width = 1 → s.step = 1) ∧
        (¬ (⟨4, -2, 0⟩ : Range).Covers (⟨4, -2, 0⟩ : Range).start → s = Selection.empty) :=
  ⟨by decide, select_exact ⟨4, -2, 0⟩ 5 (by decide)⟩

/-- A sequence inside the dimension that the check refuses. Going down from `2 ^ 62 + 1` by
`2 ^ 62 + 1` towards `-2 ^ 62`, the sequence is `2 ^ 62 + 1, 0`: both terms lie in a dimension of
`2 ^ 62 + 2` positions, and the end `-(2 ^ 62 + 1)` would fit in 64 bits, but `stop - start` does
not, so the range is reported out of bounds. -/
theorem in_bounds_sequence_refused :
    (⟨4611686018427387905, -4611686018427387905, -4611686018427387904⟩ : Range).Covers
        4611686018427387905 ∧
      (∀ i, (⟨4611686018427387905, -4611686018427387905, -4611686018427387904⟩ : Range).Covers
          ((⟨4611686018427387905, -4611686018427387905, -4611686018427387904⟩ : Range).term i) →
        0 ≤ (⟨4611686018427387905, -4611686018427387905, -4611686018427387904⟩ : Range).term i ∧
        (⟨4611686018427387905, -4611686018427387905, -4611686018427387904⟩ : Range).term i <
          4611686018427387906) ∧
      (⟨4611686018427387905, -4611686018427387905, -4611686018427387904⟩ : Range).select
          4611686018427387906 =
        .error (.outOfBounds ⟨4611686018427387905, -4611686018427387905, -4611686018427387904⟩
          4611686018427387906) := by
  refine ⟨by decide, ?_, by rfl⟩
  rw [← inBounds_iff_covers (by decide)]
  decide

end Range

end QuantumRuntime
