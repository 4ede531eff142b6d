import Mathlib
import QuantumRuntime.Proofs.Machine.Ownership
import QuantumRuntime.Proofs.Trace.Refusal
import QuantumRuntime.Proofs.Trace.Wellformed

/-!
# Conditional calls restore the fences

While tracing, a program cannot see the value of a measurement, so a call conditioned on the
results in two arrays runs both of its branches, one after the other, inside a fence at the latest
layer that measured any valid result among them. The fence is pushed before the branches and
popped after them, whether they succeed or fail; when the first branch fails the second is
skipped.

The branches are code of the program. What the call needs of them is that they keep the fences
(`Machine.KeepsFences`): run on a tracer, they leave its fence stack and latest fence as they
found them, whichever way they end. Then so does the call (`Machine.KeepsFences.conditionally`),
and a failure before the branches run (an array of results that cannot be read, a backend that
is not a tracer, a result measured in a layer the schedule does not have) leaves the machine as
it was (`Machine.FencedCall`). Branches built from callables, the tracing intrinsics and nested
conditional calls keep the fences, by induction on their nesting (`Machine.Branch.keepsFences`).
-/

namespace QuantumRuntime

namespace Tracer

variable {t : Tracer}

/-- The layers in which the valid results of a list were measured. -/
def measuredLayers (rs : List ResultHandle) : List Nat := rs.filterMap layerOfMeasurement

/-- The tracer with a fence pushed at an optional layer; nothing is pushed at `none`. -/
def withFence (t : Tracer) : Option Nat → Tracer
  | none => t
  | some l => { t with fences := l :: t.fences, latestFence := optMax t.latestFence (some l) }

theorem max?_append_eq_optMax (xs ys : List Nat) : (xs ++ ys).max? = optMax xs.max? ys.max? := by
  calc (xs ++ ys).max? = (xs ++ ys).foldl (fun m f => optMax m (some f)) none :=
        (foldl_optMax _ none).symm
    _ = ys.foldl (fun m f => optMax m (some f)) (xs.foldl (fun m f => optMax m (some f)) none) :=
        List.foldl_append
    _ = optMax xs.max? ys.max? := by rw [foldl_optMax, foldl_optMax]; rfl

/-- When every result names a layer the schedule has, the search for the latest measurement folds
the later-of over the layers the valid ones were measured in. -/
theorem foldlM_latest_of_placed :
    ∀ (rs : List ResultHandle), (∀ r ∈ rs, t.unplacedResult r = false) → ∀ acc : Option Nat,
      rs.foldlM (fun (latest : Option Nat) r => (match layerOfMeasurement r with
        | some l => if t.layers.length ≤ l then .error (.unknownMeasurement r)
          else .ok (optMax latest (some l))
        | none => .ok latest : Except TraceError (Option Nat))) acc =
        .ok ((measuredLayers rs).foldl (fun m f => optMax m (some f)) acc)
  | [], _, _ => rfl
  | r :: rs, h, acc => by
    have hrs := foldlM_latest_of_placed rs fun r' hr' => h r' (List.mem_cons_of_mem r hr')
    have hr := h r List.mem_cons_self
    rw [List.foldlM_cons]
    cases hm : layerOfMeasurement r with
    | none =>
      rw [measuredLayers, List.filterMap_cons_none hm]
      exact hrs acc
    | some l =>
      have hl : ¬t.layers.length ≤ l := by simpa [unplacedResult, hm] using hr
      rw [measuredLayers, List.filterMap_cons_some hm, List.foldl_cons]
      simp only [hl, if_false]
      exact hrs _

theorem measuredLayers_append (rs rs' : List ResultHandle) :
    measuredLayers (rs ++ rs') = measuredLayers rs ++ measuredLayers rs' :=
  List.filterMap_append

theorem latestMeasurement_of_placed {rs : List ResultHandle}
    (h : ∀ r ∈ rs, t.unplacedResult r = false) :
    t.latestMeasurement rs = .ok (measuredLayers rs).max? := by
  have hfold := foldlM_latest_of_placed rs h none
  rw [foldl_optMax] at hfold
  exact hfold

/-- When every result of the two lists names a layer the schedule has, the fence is pushed at the
latest layer any valid one of them was measured in, and not at all when none is valid. -/
theorem pushFence_of_placed {rs1 rs2 : List ResultHandle}
    (h : ∀ r ∈ rs1 ++ rs2, t.unplacedResult r = false) :
    t.pushFence rs1 rs2 = .ok ((measuredLayers (rs1 ++ rs2)).max?,
      t.withFence (measuredLayers (rs1 ++ rs2)).max?) := by
  have h₁ := latestMeasurement_of_placed fun r hr => h r (List.mem_append_left rs2 hr)
  have h₂ := latestMeasurement_of_placed fun r hr => h r (List.mem_append_right rs1 hr)
  rw [measuredLayers_append, max?_append_eq_optMax]
  cases hf : optMax (measuredLayers rs1).max? (measuredLayers rs2).max? <;>
    simp [pushFence, h₁, h₂, hf, withFence, bind, Except.bind, pure, Except.pure]

/-- Tracing a one-qubit operation leaves the fence stack and the latest fence as they were. -/
theorem traceSingle_fences {op d : Int} {q : Qubit} {l : Option Nat} {t' : Tracer}
    (h : t.traceSingle op d q = .ok (l, t')) :
    t'.fences = t.fences ∧ t'.latestFence = t.latestFence := by
  obtain ⟨qubits, layers, rfl⟩ := traceSingle_shape h
  exact ⟨rfl, rfl⟩

/-- Popping the fence pushed at `f`, from a tracer whose stack and latest fence are those right
after the push, gives back the stack, and the latest fence too when it was the largest fence on
the stack. -/
theorem popFence_withFence (hlatest : t.latestFence = t.fences.max?) {t₂ : Tracer} (f : Option Nat)
    (hf : t₂.fences = (t.withFence f).fences) (hl : t₂.latestFence = (t.withFence f).latestFence) :
    (t₂.popFence f).fences = t.fences ∧ (t₂.popFence f).latestFence = t.latestFence := by
  cases f with
  | none => exact ⟨hf, hl⟩
  | some l =>
    have htail : t₂.fences.tail = t.fences := by rw [hf]; rfl
    refine ⟨htail, ?_⟩
    show t₂.fences.tail.foldl (fun m f => optMax m (some f)) none = t.latestFence
    rw [htail, foldl_optMax, hlatest]
    rfl

/-- Pushing a fence keeps the latest fence the largest on the stack. -/
theorem latestFence_withFence (hlatest : t.latestFence = t.fences.max?) (f : Option Nat) :
    (t.withFence f).latestFence = (t.withFence f).fences.max? := by
  cases f with
  | none => exact hlatest
  | some l =>
    show optMax t.latestFence (some l) = (l :: t.fences).max?
    rw [hlatest, optMax_max?]

/-- A trace on several qubits leaves the fence stack and the latest fence as they were. -/
theorem traceMulti_fences {t' : Tracer} {op d : Int} {cs ts : List Qubit} {l : Option Nat}
    (h : t.traceMulti op d cs ts = .ok (l, t')) :
    t'.fences = t.fences ∧ t'.latestFence = t.latestFence := by
  obtain ⟨qubits, layers, rfl⟩ := traceMulti_shape h
  exact ⟨rfl, rfl⟩

theorem measureSingle_fences {t' : Tracer} {op d : Int} {q : Qubit} {r : ResultHandle}
    (h : t.measureSingle op d q = .ok (r, t')) :
    t'.fences = t.fences ∧ t'.latestFence = t.latestFence := by
  obtain ⟨l, hl, -⟩ := measureSingle_ok h
  exact traceSingle_fences hl

theorem measureMulti_fences {t' : Tracer} {op d : Int} {ts : List Qubit} {r : ResultHandle}
    (h : t.measureMulti op d ts = .ok (r, t')) :
    t'.fences = t.fences ∧ t'.latestFence = t.latestFence := by
  obtain ⟨l, hl, -⟩ := measureMulti_ok h
  exact traceMulti_fences hl

/-- A barrier opens a layer and sets the global barrier; the fences stay as they were. -/
theorem injectBarrier_fences {t' : Tracer} {op d : Int} {b : Nat}
    (h : t.injectBarrier op d = .ok (b, t')) :
    t'.fences = t.fences ∧ t'.latestFence = t.latestFence := by
  obtain ⟨-, -, rfl⟩ := injectBarrier_ok h
  rw [openLayer_snd]
  exact ⟨rfl, rfl⟩

end Tracer

namespace Backend

theorem releaseAll_tracer (t : Tracer) : ∀ qs : List Nat, (Backend.tracer t).releaseAll qs = (.tracer t, none)
  | [] => rfl
  | _ :: qs => releaseAll_tracer t qs

/-- A tracer moved by a program working on its objects keeps its fence stack and its latest
fence: it only allocates qubits and traces one-qubit operations, and taking qubits back leaves it
as it is. -/
theorem Moves.keeps_fences {t : Tracer} {hss : List (List Nat)} {b' : Backend}
    (h : Moves (.tracer t) hss b') :
    ∃ t', b' = .tracer t' ∧ t'.fences = t.fences ∧ t'.latestFence = t.latestFence := by
  generalize hb : Backend.tracer t = b at h
  induction h generalizing t with
  | stay => exact ⟨t, hb.symm, rfl, rfl⟩
  | release _ ih =>
    subst hb
    exact ih (by rw [releaseAll_tracer])
  | allocate ha _ ih =>
    subst hb
    simp only [allocateQubit, Except.ok.injEq, Prod.mk.injEq] at ha
    exact ih (t := t.allocate.2) ha.2
  | trace ht _ ih =>
    cases hb
    obtain ⟨t', hb', hf, hl⟩ := ih rfl
    obtain ⟨hf₁, hl₁⟩ := Tracer.traceSingle_fences ht
    exact ⟨t', hb', hf.trans hf₁, hl.trans hl₁⟩

end Backend

namespace Machine

variable {m : Machine} {t : Tracer}

/-! ### Requests that keep the fences -/

/-- A request keeps the fences: run on a well-formed machine whose tracer's latest fence is the
largest fence on its stack, it leaves, whether it succeeds or fails, a well-formed machine whose
tracer has the fence stack and the latest fence it found. -/
def KeepsFences {ε α : Type} (x : EStateM ε Machine α) : Prop :=
  ∀ m t, Owned m → m.backend = .tracer t → t.latestFence = t.fences.max? →
    Owned (final (x m)) ∧ ∃ t', (final (x m)).backend = .tracer t' ∧
      t'.fences = t.fences ∧ t'.latestFence = t.latestFence

section Keeping

variable {ε α β : Type}

theorem owned_withBackend (h : Owned m) (b : Backend) : Owned { m with backend := b } :=
  ⟨h.ids_lt, h.shaped⟩

/-- A request that leaves the machine as it found it keeps the fences. -/
theorem KeepsFences.of_read {x : EStateM ε Machine α} (hx : ∀ m, final (x m) = m) :
    KeepsFences x := by
  intro m t hown hb _
  rw [hx m]
  exact ⟨hown, t, hb, rfl, rfl⟩

/-- Two requests in a row keep the fences when each does: the second starts from the tracer the
first left, which has the fences the first found. -/
theorem KeepsFences.bind {x : EStateM ε Machine α} {f : α → EStateM ε Machine β}
    (hx : KeepsFences x) (hf : ∀ a, KeepsFences (f a)) : KeepsFences (x >>= f) := by
  intro m t hown hb hlatest
  obtain ⟨hown₁, t₁, hb₁, hf₁, hl₁⟩ := hx m t hown hb hlatest
  show Owned (final (EStateM.bind x f m)) ∧ ∃ t', (final (EStateM.bind x f m)).backend = .tracer t' ∧
    t'.fences = t.fences ∧ t'.latestFence = t.latestFence
  unfold EStateM.bind
  cases hxm : x m with
  | ok a s =>
    rw [hxm] at hown₁ hb₁
    have hlatest₁ : t₁.latestFence = t₁.fences.max? := by rw [hf₁, hl₁, hlatest]
    obtain ⟨hown₂, t₂, hb₂, hf₂, hl₂⟩ := hf a s t₁ hown₁ hb₁ hlatest₁
    exact ⟨hown₂, t₂, hb₂, hf₂.trans hf₁, hl₂.trans hl₁⟩
  | error e s =>
    rw [hxm] at hown₁ hb₁
    exact ⟨hown₁, t₁, hb₁, hf₁, hl₁⟩

/-- A request that ends on the machine another ends on keeps the fences when the other does. -/
theorem KeepsFences.of_final {ε' β : Type} {x : EStateM ε Machine α} {y : EStateM ε' Machine β}
    (h : ∀ m, final (y m) = final (x m)) (hx : KeepsFences x) : KeepsFences y := by
  intro m t hown hb hlatest
  rw [h m]
  exact hx m t hown hb hlatest

theorem KeepsFences.traced {x : Exec α} (hx : KeepsFences x) : KeepsFences (traced x) :=
  hx.of_final (final_traced x)

theorem KeepsFences.asFailure {x : Tracing α} (hx : KeepsFences x) : KeepsFences (asFailure x) :=
  hx.of_final (final_asFailure x)

theorem KeepsFences.discard {x : Tracing α} (hx : KeepsFences x) : KeepsFences (discard x) :=
  hx.of_final (final_discard x)

theorem onTracer_transact (hb : m.backend = .tracer t)
    (f : Tracer → Except TraceError (α × Tracer)) :
    onTracer (Tracer.transact f) m = match f t with
      | .ok (a, t') => .ok a { m with backend := .tracer t' }
      | .error e => .error (.schedule e) m := by
  unfold Machine.onTracer Tracer.transact
  rw [hb]
  dsimp only
  cases f t with
  | ok p =>
    obtain ⟨a, t'⟩ := p
    rfl
  | error e =>
    show EStateM.Result.error (TracingError.schedule e) { m with backend := .tracer t } = _
    rw [← hb]

/-- A request of the tracer that keeps the fences whenever it succeeds keeps them in place: on
an error it leaves the tracer it found. -/
theorem KeepsFences.onTracer {f : Tracer → Except TraceError (α × Tracer)}
    (hf : ∀ t a t', f t = .ok (a, t') → t'.fences = t.fences ∧ t'.latestFence = t.latestFence) :
    KeepsFences (onTracer (Tracer.transact f)) := by
  intro m t hown hb _
  rw [onTracer_transact hb]
  cases hft : f t with
  | ok p =>
    obtain ⟨a, t'⟩ := p
    exact ⟨owned_withBackend hown _, t', rfl, hf t a t' hft⟩
  | error e => exact ⟨hown, t, hb, rfl, rfl⟩

theorem keepsFences_invoke (id : Nat) (args result : Option Nat) :
    KeepsFences (invoke id args result) := by
  intro m t hown hb _
  obtain ⟨gone, hg⟩ := (Hands.invoke (P := fun _ => True) id args result).handover_final hown trivial
  have hmoves := hg.moves
  rw [hb] at hmoves
  exact ⟨hg.owned, hmoves.keeps_fences⟩

end Keeping

/-! ### The tracing intrinsics keep the fences -/

theorem arrayHandles_cases (id : Nat) (m : Machine) :
    (∃ hs, arrayHandles id m = .ok hs m) ∨ ∃ e, arrayHandles id m = .error e m := by
  unfold arrayHandles
  rw [run_bind, getArray_eq]
  cases m.objects.lookup id with
  | none => exact .inr ⟨_, rfl⟩
  | some o =>
    cases o with
    | array a =>
      by_cases hw : a.itemSize = Word.size
      · exact .inl ⟨a.items.map Word.decode, by simp [hw]⟩
      · exact .inr ⟨.itemSizeMismatch Word.size a.itemSize, by simp [hw]⟩
    | tuple => exact .inr ⟨_, rfl⟩
    | callable => exact .inr ⟨_, rfl⟩

/-- Reading the qubits of an array changes nothing, whether it gives them or fails. -/
theorem final_qubits (id : Nat) (m : Machine) : final (qubits id m) = m := by
  simp only [qubits, run_bind, run_pure]
  rcases arrayHandles_cases id m with ⟨hs, h⟩ | ⟨e, h⟩ <;> rw [h] <;> rfl

theorem keepsFences_qubits (id : Nat) : KeepsFences (traced (qubits id)) :=
  KeepsFences.traced (KeepsFences.of_read (final_qubits id))

/-- A tracing intrinsic a branch may call. -/
inductive Intrinsic
  | single (op duration : Int) (target : Qubit)
  | singleCtl (op duration : Int) (controls : Nat) (target : Qubit)
  | multi (op duration : Int) (targets : Nat)
  | multiCtl (op duration : Int) (controls targets : Nat)
  | barrier (op duration : Int)
  | measure (op duration : Int) (target : Qubit)
  | jointMeasure (op duration : Int) (targets : Nat)

/-- Calls a tracing intrinsic, dropping the result a measurement gives. -/
def Intrinsic.run : Intrinsic → Tracing Unit
  | single op d q => traceSingleOp op d q
  | singleCtl op d cs q => traceSingleOpCtl op d cs q
  | multi op d ts => traceMultiOp op d ts
  | multiCtl op d cs ts => traceMultiOpCtl op d cs ts
  | barrier op d => traceBarrier op d
  | measure op d q => discard (traceMeasure op d q)
  | jointMeasure op d ts => discard (traceJointMeasure op d ts)

theorem keepsFences_traceMulti (op d : Int) (cs ts : List Qubit) :
    KeepsFences (onTracer (Tracer.InPlace.traceMulti op d cs ts)) := by
  rw [Tracer.InPlace.traceMulti_eq]
  exact KeepsFences.onTracer fun _ _ _ h => Tracer.traceMulti_fences h

/-- Every tracing intrinsic keeps the fences: it reads arrays, then runs one request of the
tracer, which is its transaction and leaves the fences alone. -/
theorem Intrinsic.keepsFences : ∀ i : Intrinsic, KeepsFences i.run
  | single op d q => by
    refine KeepsFences.discard ?_
    rw [Tracer.InPlace.traceSingle_eq]
    exact KeepsFences.onTracer fun _ _ _ h => Tracer.traceSingle_fences h
  | singleCtl op d cs q =>
    (keepsFences_qubits cs).bind fun qs => (keepsFences_traceMulti op d qs [q]).discard
  | multi op d ts =>
    (keepsFences_qubits ts).bind fun qs => (keepsFences_traceMulti op d [] qs).discard
  | multiCtl op d cs ts =>
    (keepsFences_qubits cs).bind fun qcs =>
      (keepsFences_qubits ts).bind fun qts => (keepsFences_traceMulti op d qcs qts).discard
  | barrier op d => by
    refine KeepsFences.discard ?_
    rw [Tracer.InPlace.injectBarrier_eq]
    exact KeepsFences.onTracer fun _ _ _ h => Tracer.injectBarrier_fences h
  | measure op d q => by
    refine KeepsFences.discard ?_
    rw [traceMeasure, Tracer.InPlace.measureSingle_eq]
    exact KeepsFences.onTracer fun _ _ _ h => Tracer.measureSingle_fences h
  | jointMeasure op d ts => by
    refine KeepsFences.discard ((keepsFences_qubits ts).bind fun qs => ?_)
    rw [Tracer.InPlace.measureMulti_eq]
    exact KeepsFences.onTracer fun _ _ _ h => Tracer.measureMulti_fences h

/-! ### The call -/

/-- Both branches of a conditional call, the second once the first succeeded. -/
def bothBranches (first second : Exec Unit) : Exec Unit := do
  first
  second

/-- The layer a conditional call on the results with handles `hs1` and `hs2` fences at: the latest
that measured a valid one of them. -/
def fenceFor (hs1 hs2 : List Nat) : Option Nat :=
  (Tracer.measuredLayers ((hs1 ++ hs2).map ResultHandle.mk)).max?

/-- The end of a conditional call: the machine the branches left, with the tracer `t` in it, and
their outcome, an error of theirs reported as a runtime error. -/
def closeBranches (r : EStateM.Result MachineError Machine Unit) (t : Tracer) :
    EStateM.Result TracingError Machine Unit :=
  match r with
  | .ok a m => .ok a { m with backend := .tracer t }
  | .error e m => .error (.machine e) { m with backend := .tracer t }

theorem final_closeBranches (r : EStateM.Result MachineError Machine Unit) (t : Tracer) :
    final (closeBranches r t) = { final r with backend := .tracer t } := by
  cases r <;> rfl

@[simp] theorem runTracing_bind {α β : Type} (x : Tracing α) (f : α → Tracing β) (m : Machine) :
    (x >>= f) m = match x m with
      | .ok a s => f a s
      | .error e s => .error e s := by
  show EStateM.bind x f m = _
  unfold EStateM.bind
  cases x m <;> rfl

theorem traced_run {α : Type} (x : Exec α) (m : Machine) :
    traced x m = match x m with
      | .ok a s => .ok a s
      | .error e s => .error (.machine e) s := rfl

theorem onTracer_popFence (hb : m.backend = .tracer t) (f : Option Nat) :
    onTracer (Tracer.InPlace.popFence f) m = .ok () { m with backend := .tracer (t.popFence f) } := by
  unfold onTracer Tracer.InPlace.popFence
  rw [hb]
  rfl

/-- What a call conditioned on the results in two arrays, with branches `first` and `second`,
does on a machine `m`. On every exit, the tracer's fence stack and latest fence are as the call
found them, provided the latest fence was the largest on the stack. When both arrays can be read
and every result in them names a layer the schedule has, the branches run on the machine with a
fence pushed at the latest layer any valid result was measured in, nothing pushed when none is
valid, and the call ends by popping it from the tracer the branches leave. Every earlier failure
leaves the machine unchanged: an array of results that cannot be read, a backend that is not a
tracer, or a result measured in a layer the schedule does not have. -/
structure FencedCall (m : Machine) (results1 results2 : Nat) (first second : Exec Unit) :
    Prop where
  restores : ∀ t, m.backend = .tracer t → t.latestFence = t.fences.max? →
    ∃ t', (final (conditionally results1 results2 first second m)).backend = .tracer t' ∧
      t'.fences = t.fences ∧ t'.latestFence = t.latestFence
  fenced : ∀ t hs1 hs2, m.backend = .tracer t → t.latestFence = t.fences.max? →
    arrayHandles results1 m = .ok hs1 m → arrayHandles results2 m = .ok hs2 m →
    (∀ r ∈ (hs1 ++ hs2).map ResultHandle.mk, t.unplacedResult r = false) →
    ∃ t₂, (final (bothBranches first second
        { m with backend := .tracer (t.withFence (fenceFor hs1 hs2)) })).backend = .tracer t₂ ∧
      conditionally results1 results2 first second m =
        closeBranches (bothBranches first second
          { m with backend := .tracer (t.withFence (fenceFor hs1 hs2)) })
          (t₂.popFence (fenceFor hs1 hs2))
  first_refused : ∀ e, arrayHandles results1 m = .error e m →
    conditionally results1 results2 first second m = .error (.machine e) m
  second_refused : ∀ hs1 e, arrayHandles results1 m = .ok hs1 m →
    arrayHandles results2 m = .error e m →
    conditionally results1 results2 first second m = .error (.machine e) m
  not_tracing : ∀ hs1 hs2, (∀ t, m.backend ≠ .tracer t) →
    arrayHandles results1 m = .ok hs1 m → arrayHandles results2 m = .ok hs2 m →
    conditionally results1 results2 first second m = .error (.notTracing m.backend.name) m
  unplaced : ∀ t hs1 hs2 r, m.backend = .tracer t →
    arrayHandles results1 m = .ok hs1 m → arrayHandles results2 m = .ok hs2 m →
    ((hs1 ++ hs2).map ResultHandle.mk).find? t.unplacedResult = some r →
    conditionally results1 results2 first second m =
      .error (.schedule (.unknownMeasurement r)) m

section Call

variable {results1 results2 : Nat} {first second : Exec Unit} {hs1 hs2 : List Nat}

theorem conditionally_first_refused {e : MachineError}
    (h₁ : arrayHandles results1 m = .error e m) :
    conditionally results1 results2 first second m = .error (.machine e) m := by
  simp only [conditionally, runTracing_bind, traced_run, h₁]

theorem conditionally_second_refused {e : MachineError}
    (h₁ : arrayHandles results1 m = .ok hs1 m) (h₂ : arrayHandles results2 m = .error e m) :
    conditionally results1 results2 first second m = .error (.machine e) m := by
  simp only [conditionally, runTracing_bind, traced_run, h₁, h₂]

theorem conditionally_not_tracing (hb : ∀ t, m.backend ≠ .tracer t)
    (h₁ : arrayHandles results1 m = .ok hs1 m) (h₂ : arrayHandles results2 m = .ok hs2 m) :
    conditionally results1 results2 first second m = .error (.notTracing m.backend.name) m := by
  cases hbk : m.backend with
  | tracer t => exact absurd hbk (hb t)
  | recorder _ | width _ =>
    simp only [conditionally, runTracing_bind, traced_run, h₁, h₂, onTracer, hbk]

theorem conditionally_unplaced {r : ResultHandle} (hb : m.backend = .tracer t)
    (h₁ : arrayHandles results1 m = .ok hs1 m) (h₂ : arrayHandles results2 m = .ok hs2 m)
    (hr : ((hs1 ++ hs2).map ResultHandle.mk).find? t.unplacedResult = some r) :
    conditionally results1 results2 first second m =
      .error (.schedule (.unknownMeasurement r)) m := by
  have hp : t.pushFence (hs1.map ResultHandle.mk) (hs2.map ResultHandle.mk) =
      .error (.unknownMeasurement r) :=
    Tracer.pushFence_error_iff.2 (by rw [← List.map_append, hr]; rfl)
  simp only [conditionally, runTracing_bind, traced_run, h₁, h₂, Tracer.InPlace.pushFence_eq, onTracer_transact hb, hp]

theorem conditionally_fenced (hb : m.backend = .tracer t)
    (h₁ : arrayHandles results1 m = .ok hs1 m) (h₂ : arrayHandles results2 m = .ok hs2 m)
    (hplaced : ∀ r ∈ (hs1 ++ hs2).map ResultHandle.mk, t.unplacedResult r = false) {t₂ : Tracer}
    (ht₂ : (final (bothBranches first second
      { m with backend := .tracer (t.withFence (fenceFor hs1 hs2)) })).backend = .tracer t₂) :
    conditionally results1 results2 first second m =
      closeBranches (bothBranches first second
        { m with backend := .tracer (t.withFence (fenceFor hs1 hs2)) })
        (t₂.popFence (fenceFor hs1 hs2)) := by
  have hplaced' : ∀ r ∈ hs1.map ResultHandle.mk ++ hs2.map ResultHandle.mk,
      t.unplacedResult r = false := by
    rwa [← List.map_append]
  have hp := Tracer.pushFence_of_placed hplaced'
  rw [← List.map_append] at hp
  simp only [conditionally, runTracing_bind, traced_run, h₁, h₂, Tracer.InPlace.pushFence_eq, onTracer_transact hb, hp]
  unfold fenceFor at ht₂ ⊢
  rw [show (do first; second : Exec Unit) = bothBranches first second from rfl]
  unfold attempt
  generalize bothBranches first second _ = r at ht₂ ⊢
  -- the fence is popped from the tracer the branches left, then their outcome is reported
  cases r with
  | ok a m₂ =>
    simp only [final] at ht₂
    simp only [onTracer_popFence ht₂, closeBranches, check, run_pure]
  | error e m₂ =>
    simp only [final] at ht₂
    simp only [onTracer_popFence ht₂, closeBranches, check, run_throw]

/-- With branches that keep the fences, the branches run inside the fence leave a well-formed
machine whose tracer has the stack and the latest fence right after the push. -/
theorem fencedBranches_keep_fences (hfirst : KeepsFences first) (hsecond : KeepsFences second)
    (hown : Owned m) (hlatest : t.latestFence = t.fences.max?) (f : Option Nat) :
    Owned (final (bothBranches first second { m with backend := .tracer (t.withFence f) })) ∧
      ∃ t₂, (final (bothBranches first second
          { m with backend := .tracer (t.withFence f) })).backend = .tracer t₂ ∧
        t₂.fences = (t.withFence f).fences ∧ t₂.latestFence = (t.withFence f).latestFence :=
  (hfirst.bind fun _ => hsecond) _ _ (owned_withBackend hown _) rfl
    (Tracer.latestFence_withFence hlatest f)

end Call

/-- A conditional call whose branches keep the fences keeps them too, whichever way it ends:
it pushes a fence, the branches keep it, and the pop takes it off again. -/
theorem KeepsFences.conditionally {first second : Exec Unit} (hfirst : KeepsFences first)
    (hsecond : KeepsFences second) (results1 results2 : Nat) :
    KeepsFences (conditionally results1 results2 first second) := by
  intro m t hown hb hlatest
  rcases arrayHandles_cases results1 m with ⟨hs1, h₁⟩ | ⟨e, h₁⟩
  · rcases arrayHandles_cases results2 m with ⟨hs2, h₂⟩ | ⟨e, h₂⟩
    · cases hfind : ((hs1 ++ hs2).map ResultHandle.mk).find? t.unplacedResult with
      | some r =>
        rw [conditionally_unplaced hb h₁ h₂ hfind]
        exact ⟨hown, t, hb, rfl, rfl⟩
      | none =>
        -- every result names a layer the schedule has: the branches run inside the fence
        have hplaced : ∀ r ∈ (hs1 ++ hs2).map ResultHandle.mk, t.unplacedResult r = false := by
          simpa using List.find?_eq_none.1 hfind
        obtain ⟨hown₂, t₂, ht₂, hf, hl⟩ :=
          fencedBranches_keep_fences hfirst hsecond hown hlatest (fenceFor hs1 hs2)
        rw [conditionally_fenced hb h₁ h₂ hplaced ht₂, final_closeBranches]
        exact ⟨owned_withBackend hown₂ _, _, rfl, Tracer.popFence_withFence hlatest _ hf hl⟩
    · rw [conditionally_second_refused h₁ h₂]
      exact ⟨hown, t, hb, rfl, rfl⟩
  · rw [conditionally_first_refused h₁]
    exact ⟨hown, t, hb, rfl, rfl⟩

/-- A call conditioned on measurement results, with branches that keep the fences, on a
well-formed machine does what `FencedCall` says. -/
theorem fencedCall {first second : Exec Unit} (hfirst : KeepsFences first)
    (hsecond : KeepsFences second) (hown : Owned m) (results1 results2 : Nat) :
    FencedCall m results1 results2 first second where
  restores t hb hlatest :=
    ((hfirst.conditionally hsecond results1 results2) m t hown hb hlatest).2
  fenced t hs1 hs2 hb hlatest h₁ h₂ hplaced := by
    obtain ⟨-, t₂, ht₂, -⟩ := fencedBranches_keep_fences hfirst hsecond hown hlatest (fenceFor hs1 hs2)
    exact ⟨t₂, ht₂, conditionally_fenced hb h₁ h₂ hplaced ht₂⟩
  first_refused _ h₁ := conditionally_first_refused h₁
  second_refused _ _ h₁ h₂ := conditionally_second_refused h₁ h₂
  not_tracing _ _ hb h₁ h₂ := conditionally_not_tracing hb h₁ h₂
  unplaced _ _ _ _ hb h₁ h₂ hr := conditionally_unplaced hb h₁ h₂ hr

/-! ### Branches built from callables, intrinsics and conditional calls -/

/-- The code of a branch, as a program builds it: a call of a stored callable, a tracing
intrinsic, one branch after another, or a nested conditional call. An intrinsic's or a nested
call's error is reported as the branch's failure. -/
inductive Branch
  | call (callable : Nat)
  | intrinsic (i : Intrinsic)
  | seq (first second : Branch)
  | conditional (results1 results2 : Nat) (onEqual onDifferent : Branch)

/-- Runs the code of a branch. -/
def Branch.run : Branch → Exec Unit
  | call id => Machine.invoke id none none
  | intrinsic i => asFailure i.run
  | seq first second => do
    first.run
    second.run
  | conditional results1 results2 onEqual onDifferent =>
    asFailure (Machine.conditionally results1 results2 onEqual.run onDifferent.run)

/-- Every branch keeps the fences, by induction on the nesting of its conditional calls: a
nested call keeps them once its own branches do. -/
theorem Branch.keepsFences : ∀ b : Branch, KeepsFences b.run
  | call id => keepsFences_invoke id none none
  | intrinsic i => i.keepsFences.asFailure
  | seq first second => first.keepsFences.bind fun _ => second.keepsFences
  | conditional results1 results2 onEqual onDifferent =>
    (onEqual.keepsFences.conditionally onDifferent.keepsFences results1 results2).asFailure

/-- Branches built from callables, the tracing intrinsics and nested conditional calls keep the
fences; and a call on any branches that keep them, on a well-formed machine, does what
`FencedCall` says: it restores the fences on every exit. -/
theorem conditional_calls_restore_fences :
    (∀ b : Branch, KeepsFences b.run) ∧
      ∀ first second : Exec Unit, KeepsFences first → KeepsFences second →
        ∀ m, Owned m → ∀ results1 results2, FencedCall m results1 results2 first second :=
  ⟨Branch.keepsFences, fun _ _ hfirst hsecond _ hown => fencedCall hfirst hsecond hown⟩

theorem conditional_call_on_new_tracer :
    FencedCall (Machine.new (.tracer (Tracer.new 0 [])) false) 1 2 (Branch.call 3).run
      (Branch.conditional 1 2 (.call 3) (.intrinsic (.barrier 0 1))).run :=
  conditional_calls_restore_fences.2 _ _ (Branch.keepsFences _) (Branch.keepsFences _) _
    (owned_new _ _) 1 2

end Machine

end QuantumRuntime
