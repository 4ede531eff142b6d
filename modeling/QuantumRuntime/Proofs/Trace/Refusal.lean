import Mathlib
import QuantumRuntime.Proofs.Trace.Steps

/-!
# Refused requests

The tracer checks a request before it changes anything: a negative duration, an operation without
targets, a qubit that was never allocated, a result that names a layer the schedule does not have.
The checks read the tracer as it stands, in a fixed order, and the first that fails gives the error
(`Tracer.refusal`).

The tracer's functions give a new tracer only on success, so what a refused request could break is
an error raised after a change was made: a one-qubit trace records the operation as seen before it
searches for a layer, and a trace on several qubits searches for a layer for each of them in turn.
Every error is one of the checks on the unchanged tracer (`Tracer.step_error_iff`): the layer search
never fails on a known qubit (`Tracer.findLayer_error_iff`), a search over several qubits fails
exactly at the first unknown one (`Tracer.foldlM_findLayer_error_iff`), and a fence fails exactly at
the first result beyond the schedule (`Tracer.latestMeasurement_error_iff`). The tracer's own
requests, which write in place, are taken up in `QuantumRuntime.Proofs.Trace.InPlace`.
-/

namespace QuantumRuntime

namespace Tracer

/-- Whether a result stands for a measurement in a layer the schedule does not have. -/
def unplacedResult (t : Tracer) (r : ResultHandle) : Bool :=
  match layerOfMeasurement r with
  | some l => decide (t.layers.length ≤ l)
  | none => false

/-- The first qubit of a list that was never allocated, as the error it gives. -/
def unknownQubit? (t : Tracer) (qs : List Qubit) : Option TraceError :=
  (qs.find? fun q => (t.qubitState? q).isNone).map .unknownQubit

/-- The checks of a trace on `controls` and `targets`: the duration, then that there is a target,
then that every qubit is known, the targets first. -/
def traceRefusal (t : Tracer) (op d : Int) (controls targets : List Qubit) : Option TraceError :=
  if d < 0 then some (.negativeDuration op d)
  else if targets.isEmpty then some (.noTargets op)
  else t.unknownQubit? (targets ++ controls)

/-- The first check a request fails on the tracer as it stands, if any. -/
def refusal (t : Tracer) : TraceRequest → Option TraceError
  | .single op d q | .measure op d q => t.traceRefusal op d [] [q]
  | .multi op d cs ts => t.traceRefusal op d cs ts
  | .jointMeasure op d ts => t.traceRefusal op d [] ts
  | .barrier op d => if d < 0 then some (.negativeDuration op d) else none
  | .pushFence rs1 rs2 => ((rs1 ++ rs2).find? t.unplacedResult).map .unknownMeasurement
  | .allocate | .popFence _ => none

variable {t : Tracer} {op d : Int} {e : TraceError}

theorem except_map_eq_error {ε α β : Type} {x : Except ε α} {f : α → β} {e : ε} :
    x.map f = .error e ↔ x = .error e := by
  cases x <;> simp [Except.map]

theorem except_bind_eq_error {ε α β : Type} {x : Except ε α} {f : α → Except ε β} {e : ε} :
    x >>= f = .error e ↔ x = .error e ∨ ∃ a, x = .ok a ∧ f a = .error e := by
  cases x <;> simp [bind, Except.bind]

@[simp] theorem unknownQubit?_nil : t.unknownQubit? [] = none := rfl

theorem unknownQubit?_cons (q : Qubit) (qs : List Qubit) :
    t.unknownQubit? (q :: qs) =
      if (t.qubitState? q).isNone then some (.unknownQubit q) else t.unknownQubit? qs := by
  unfold unknownQubit?
  rw [List.find?_cons]
  cases (t.qubitState? q).isNone <;> rfl

/-! ### The layer search fails only on an unknown qubit -/

theorem findLayer_of_known {q : Qubit} {s : QubitState} (hs : t.qubitState? q = some s) (d : Int) :
    ∃ p, t.findLayer q d = .ok p := by
  unfold findLayer
  rw [hs]
  dsimp only
  -- past the lookup, every branch answers with a placement
  split
  · exact ⟨_, rfl⟩
  · split
    · exact ⟨_, rfl⟩
    · split
      · exact ⟨_, rfl⟩
      · split <;> exact ⟨_, rfl⟩

theorem findLayer_error_iff {q : Qubit} :
    t.findLayer q d = .error e ↔ t.qubitState? q = none ∧ e = .unknownQubit q := by
  cases hs : t.qubitState? q with
  | none =>
    unfold findLayer
    rw [hs]
    simp only [Except.error.injEq, true_and, eq_comm]
  | some s =>
    obtain ⟨p, hp⟩ := findLayer_of_known hs d
    simp only [hp, reduceCtorEq, false_and]

/-- Searching a layer for each of several qubits fails exactly at the first unknown one. -/
theorem foldlM_findLayer_error_iff :
    ∀ (qs : List Qubit) (p : Placement),
      qs.foldlM (fun p q => do
        let p' ← t.findLayer q d
        pure (p.max p')) p = .error e ↔ t.unknownQubit? qs = some e
  | [], p => by
    simp only [List.foldlM_nil, unknownQubit?, List.find?_nil, Option.map_none]
    exact ⟨fun h => (by cases h), fun h => (by cases h)⟩
  | q :: qs, p => by
    rw [List.foldlM_cons, unknownQubit?_cons]
    cases hs : t.qubitState? q with
    | none =>
      have hq : t.findLayer q d = .error (.unknownQubit q) := findLayer_error_iff.2 ⟨hs, rfl⟩
      simp only [hq, Option.isNone_none, if_true, Option.some.injEq]
      exact ⟨fun h => Except.error.inj h, fun h => by rw [h]; rfl⟩
    | some s =>
      obtain ⟨p', hp'⟩ := findLayer_of_known hs d
      simp only [hp', Option.isNone_some, Bool.false_eq_true, if_false]
      exact foldlM_findLayer_error_iff qs (p.max p')

/-! ### One refusal lemma per operation -/

theorem traceSingle_error_iff {q : Qubit} :
    t.traceSingle op d q = .error e ↔ t.traceRefusal op d [] [q] = some e := by
  unfold traceSingle traceRefusal
  by_cases hd : d < 0
  · simp only [hd, if_true, Option.some.injEq, Except.error.injEq]
  · simp only [hd, if_false, List.isEmpty_cons, Bool.false_eq_true, List.append_nil,
      unknownQubit?_cons, unknownQubit?_nil]
    cases hs : t.qubitState? q with
    | none => simp only [Option.isNone_none, if_true, Option.some.injEq, Except.error.injEq]
    | some s =>
      simp only [Option.isNone_some, Bool.false_eq_true, if_false, reduceCtorEq, iff_false]
      split
      · simp only [reduceCtorEq, not_false_eq_true]
      · -- recording the operation as seen keeps the qubit, so the search finds it
        obtain ⟨p, hp⟩ := findLayer_of_known (t := t.markSeen op) hs d
        simp only [hp, bind, Except.bind, pure, Except.pure, reduceCtorEq, not_false_eq_true]

theorem traceMulti_error_iff {cs ts : List Qubit} :
    t.traceMulti op d cs ts = .error e ↔ t.traceRefusal op d cs ts = some e := by
  unfold traceMulti
  by_cases hd : d < 0
  · simp only [hd, if_true, traceRefusal, Option.some.injEq, Except.error.injEq]
  · cases ts with
    | nil =>
      simp only [hd, if_false, traceRefusal, List.isEmpty_nil, if_true, Option.some.injEq,
        Except.error.injEq]
    | cons first rest =>
      simp only [hd, if_false]
      split
      · -- a zero-duration operation on one target is traced as a one-qubit operation
        next hz =>
        rw [traceSingle_error_iff]
        have hcs : cs = [] := List.isEmpty_iff.1 hz.2.1
        have hrest : rest = [] := List.isEmpty_iff.1 hz.2.2
        simp only [traceRefusal, hcs, hrest, List.append_nil]
      · simp only [traceRefusal, hd, if_false, List.isEmpty_cons, Bool.false_eq_true,
          List.cons_append, unknownQubit?_cons]
        cases hs : t.qubitState? first with
        | none =>
          have hf : t.findLayer first d = .error (.unknownQubit first) :=
            findLayer_error_iff.2 ⟨hs, rfl⟩
          simp only [hf, Option.isNone_none, if_true, Option.some.injEq]
          exact ⟨fun h => Except.error.inj h, fun h => by rw [← h]; rfl⟩
        | some s =>
          obtain ⟨p₀, hp₀⟩ := findLayer_of_known hs d
          simp only [hp₀, Option.isNone_some, Bool.false_eq_true, if_false]
          rw [← foldlM_findLayer_error_iff (t := t) (d := d) (rest ++ cs) p₀]
          -- past the search, the trace only answers
          simp only [except_bind_eq_error, reduceCtorEq, Except.ok.injEq, exists_eq_left', false_or,
            pure, Except.pure, and_false, exists_false, or_false]

theorem injectBarrier_error_iff :
    t.injectBarrier op d = .error e ↔ (if d < 0 then some (.negativeDuration op d) else none) = some e := by
  unfold injectBarrier
  by_cases hd : d < 0
  · simp only [hd, if_true, Option.some.injEq, Except.error.injEq]
  · simp only [hd, if_false, reduceCtorEq]

/-- Reading the layers of several results fails exactly at the first result beyond the
schedule. -/
theorem foldlM_latest_error_iff :
    ∀ (rs : List ResultHandle) (acc : Option Nat),
      rs.foldlM (fun (latest : Option Nat) r => (match layerOfMeasurement r with
        | some l => if t.layers.length ≤ l then .error (.unknownMeasurement r)
          else .ok (optMax latest (some l))
        | none => .ok latest : Except TraceError (Option Nat))) acc = .error e ↔
        (rs.find? t.unplacedResult).map .unknownMeasurement = some e
  | [], acc => by
    simp only [List.foldlM_nil, List.find?_nil, Option.map_none, reduceCtorEq]
    exact ⟨fun h => (by cases h), fun h => (by cases h)⟩
  | r :: rs, acc => by
    rw [List.foldlM_cons, List.find?_cons, except_bind_eq_error]
    cases hm : layerOfMeasurement r with
    | none =>
      simp only [unplacedResult, hm, reduceCtorEq, Except.ok.injEq, exists_eq_left', false_or]
      exact foldlM_latest_error_iff rs acc
    | some l =>
      by_cases hl : t.layers.length ≤ l
      · simp only [unplacedResult, hm, hl, if_true, decide_true, Except.error.injEq,
          reduceCtorEq, false_and, exists_false, or_false, Option.map_some, Option.some.injEq]
      · simp only [unplacedResult, hm, hl, if_false, decide_false, reduceCtorEq, Except.ok.injEq,
          exists_eq_left', false_or]
        exact foldlM_latest_error_iff rs _

theorem latestMeasurement_error_iff {rs : List ResultHandle} :
    t.latestMeasurement rs = .error e ↔ (rs.find? t.unplacedResult).map .unknownMeasurement = some e :=
  foldlM_latest_error_iff rs none

theorem pushFence_error_iff {rs1 rs2 : List ResultHandle} :
    t.pushFence rs1 rs2 = .error e ↔
      ((rs1 ++ rs2).find? t.unplacedResult).map .unknownMeasurement = some e := by
  unfold pushFence
  rw [List.find?_append, except_bind_eq_error, latestMeasurement_error_iff]
  cases h1 : rs1.find? t.unplacedResult with
  | some r =>
    -- the first list refuses before the second is read
    have hl : t.latestMeasurement rs1 = .error (.unknownMeasurement r) :=
      latestMeasurement_error_iff.2 (by rw [h1]; rfl)
    simp only [Option.map_some, Option.some.injEq, Option.some_or, hl, reduceCtorEq, false_and,
      exists_false, or_false]
  | none =>
    obtain ⟨f₁, hf₁⟩ : ∃ f₁, t.latestMeasurement rs1 = .ok f₁ := by
      cases hl : t.latestMeasurement rs1 with
      | ok f₁ => exact ⟨f₁, rfl⟩
      | error e' =>
        have := latestMeasurement_error_iff.1 hl
        rw [h1] at this
        cases this
    simp only [Option.map_none, reduceCtorEq, Option.none_or, hf₁, Except.ok.injEq,
      exists_eq_left', false_or, except_bind_eq_error, ← latestMeasurement_error_iff]
    -- once both lists are read, the fence is only pushed
    constructor
    · rintro (h | ⟨f₂, -, h⟩)
      · exact h
      · split at h <;> cases h
    · exact Or.inl

/-- Every error a request meets is the first check it fails on the tracer as it stands. -/
theorem step_error_iff {r : TraceRequest} : t.step r = .error e ↔ t.refusal r = some e := by
  cases r with
  | allocate => simp only [step, refusal, reduceCtorEq]
  | single op d q =>
    simp only [step, refusal, except_map_eq_error, traceSingle_error_iff]
  | multi op d cs ts =>
    simp only [step, refusal, except_map_eq_error, traceMulti_error_iff]
  | measure op d q =>
    simp only [step, refusal, except_map_eq_error, measureSingle, traceSingle_error_iff]
  | jointMeasure op d ts =>
    simp only [step, refusal, except_map_eq_error, measureMulti, traceMulti_error_iff]
  | barrier op d =>
    simp only [step, refusal, except_map_eq_error, injectBarrier_error_iff]
  | pushFence rs1 rs2 =>
    simp only [step, refusal, except_map_eq_error, pushFence_error_iff]
  | popFence f => simp only [step, refusal, reduceCtorEq]

end Tracer

end QuantumRuntime
