import Mathlib
import QuantumRuntime.Proofs.Machine.Ownership

/-!
# The functor algebra of callables

The functor bits of a callable pick the specialization that runs: bit 0 for the adjoint and
bit 1 for the controlled functor. Applying `Adjoint` toggles bit 0, applying `Controlled` sets
bit 1 and deepens the nesting by one, and a functor whose specialization is missing is refused
after the bits it changed are taken back, bit 1 only while the callable was never controlled.

That rollback is right because of an invariant, `Callable.WellFormed`: the bits select a
specialization the table has, and bit 1 is set exactly when the depth is positive. Under it a
refused functor leaves the callable exactly as it was (`makeAdjoint_of_none`,
`makeControlled_of_none`), and an accepted one keeps it (`Follows.adjoint`,
`Follows.controlled`).

A run of requests that create, copy and apply functors to callables is followed by a ghost
history per callable: the functors applied to it with success, a copy starting from its
source's. Every stored callable is in the state its history gives it, bit 0 the parity of its
adjoints and its depth the number of its controls (`Machine.FunctorsFollow`). Every request keeps
this (`FunctorsFollow.serve`), so it holds along every run; `functor_algebra` reads it off any run
from a fresh program, with what the next application of either functor does.
-/

namespace QuantumRuntime

/-- A functor a program applies to a callable. -/
inductive AppliedFunctor
  | adjoint
  | controlled
deriving DecidableEq, Repr

/-! ### Functor bits -/

namespace FunctionTable

variable {α : Type} {t : FunctionTable α}

theorem get_of_four_le {i : Nat} (h : 4 ≤ i) : t.get i = none := by
  obtain ⟨n, rfl⟩ : ∃ n, i = n + 4 := ⟨i - 4, by omega⟩
  rfl

/-- Only the four first indices select an entry. -/
theorem lt_four_of_isSome {i : Nat} (h : (t.get i).isSome) : i < 4 := by
  by_contra hi
  rw [get_of_four_le (by omega)] at h
  simp at h

end FunctionTable

/-- How the two functors move the bits of a selector below four: toggling bit 0 keeps bit 1 and
flips the parity, setting bit 1 keeps bit 0, and clearing bit 1 again restores a selector that
did not have it, while setting it changes nothing on one that did. -/
theorem functor_bits : ∀ a < 4,
    (a ^^^ 1) &&& 2 = a &&& 2 ∧ (a ^^^ 1) &&& 1 = ((a &&& 1) + 1) % 2 ∧
      (a ||| 2) &&& 1 = a &&& 1 ∧ (a ||| 2) &&& 2 ≠ 0 ∧
      (a &&& 2 = 0 → (a ||| 2) ^^^ 2 = a) ∧ (a &&& 2 ≠ 0 → a ||| 2 = a) := by
  decide

namespace Callable

/-- The functor bits of a callable select a specialization its table has, and bit 1 is set
exactly when the callable has been controlled. -/
structure WellFormed (c : Callable) : Prop where
  selects : (c.table.get c.applied).isSome
  controlled_iff : c.applied &&& 2 ≠ 0 ↔ 0 < c.depth

/-- A callable is in the state a history of functor applications gives it: well formed, with bit
0 the parity of the adjoints and the depth the number of controls. -/
structure Follows (c : Callable) (h : List AppliedFunctor) : Prop where
  wellFormed : c.WellFormed
  parity : c.applied &&& 1 = h.count .adjoint % 2
  depth_eq : c.depth = h.count .controlled

variable {c : Callable} {h : List AppliedFunctor}

theorem WellFormed.applied_lt (hw : c.WellFormed) : c.applied < 4 :=
  FunctionTable.lt_four_of_isSome hw.selects

theorem makeAdjoint_of_isSome (hs : (c.table.get (c.applied ^^^ 1)).isSome) :
    c.makeAdjoint = ({ c with applied := c.applied ^^^ 1 }, .ok ()) := by
  simp only [makeAdjoint, if_pos hs]

/-- A refused adjoint toggles bit 0 back, which leaves the callable as it was. -/
theorem makeAdjoint_of_none (hs : c.table.get (c.applied ^^^ 1) = none) :
    c.makeAdjoint = (c, .error (.missingFunctor .adjoint)) := by
  simp only [makeAdjoint, hs, Option.isSome_none, Bool.false_eq_true, if_false,
    Nat.xor_xor_cancel_right]

theorem makeControlled_of_isSome (hs : (c.table.get (c.applied ||| 2)).isSome) :
    c.makeControlled = ({ c with applied := c.applied ||| 2, depth := c.depth + 1 }, .ok ()) := by
  simp only [makeControlled, if_pos hs]

/-- A refused control leaves a well-formed callable as it was: one never controlled has bit 1
clear, which the rollback clears again, and a controlled one had it set already. -/
theorem makeControlled_of_none (hw : c.WellFormed) (hs : c.table.get (c.applied ||| 2) = none) :
    c.makeControlled = (c, .error (.missingFunctor .controlled)) := by
  have hbits := functor_bits c.applied hw.applied_lt
  have hback : (if c.depth = 0 then (c.applied ||| 2) ^^^ 2 else c.applied ||| 2) = c.applied := by
    by_cases hd : c.depth = 0
    · rw [if_pos hd]
      refine hbits.2.2.2.2.1 ?_
      by_contra hbit
      exact absurd (hw.controlled_iff.1 hbit) (by omega)
    · rw [if_neg hd]
      exact hbits.2.2.2.2.2 (hw.controlled_iff.2 (by omega))
  simp only [makeControlled, hs, Option.isSome_none, Bool.false_eq_true, if_false, hback]

/-- An accepted adjoint keeps the callable well formed and flips the parity of its adjoints. -/
theorem Follows.adjoint (hf : c.Follows h) (hs : (c.table.get (c.applied ^^^ 1)).isSome) :
    ({ c with applied := c.applied ^^^ 1 } : Callable).Follows (h ++ [.adjoint]) := by
  have hbits := functor_bits c.applied hf.wellFormed.applied_lt
  refine ⟨⟨hs, ?_⟩, ?_, ?_⟩
  · -- bit 1 and the depth stay
    show (c.applied ^^^ 1) &&& 2 ≠ 0 ↔ 0 < c.depth
    rw [hbits.1]
    exact hf.wellFormed.controlled_iff
  · show (c.applied ^^^ 1) &&& 1 = (h ++ [AppliedFunctor.adjoint]).count .adjoint % 2
    rw [hbits.2.1, hf.parity, List.count_append, List.count_singleton_self]
    omega
  · show c.depth = (h ++ [AppliedFunctor.adjoint]).count .controlled
    simp [hf.depth_eq]

/-- An accepted control sets bit 1 and counts one more control. -/
theorem Follows.controlled (hf : c.Follows h) (hs : (c.table.get (c.applied ||| 2)).isSome) :
    ({ c with applied := c.applied ||| 2, depth := c.depth + 1 } : Callable).Follows
      (h ++ [.controlled]) := by
  have hbits := functor_bits c.applied hf.wellFormed.applied_lt
  refine ⟨⟨hs, iff_of_true hbits.2.2.2.1 (Nat.succ_pos _)⟩, ?_, ?_⟩
  · show (c.applied ||| 2) &&& 1 = (h ++ [AppliedFunctor.controlled]).count .adjoint % 2
    rw [hbits.2.2.1, hf.parity]
    simp
  · show c.depth + 1 = (h ++ [AppliedFunctor.controlled]).count .controlled
    rw [List.count_append, List.count_singleton_self, hf.depth_eq]

/-- A well-formed callable always has a routine to run. -/
theorem WellFormed.routine_ok (hw : c.WellFormed) :
    ∃ r, c.table.get c.applied = some r ∧ c.routine = .ok r := by
  obtain ⟨r, hr⟩ := Option.isSome_iff_exists.1 hw.selects
  exact ⟨r, hr, by rw [routine, hr]⟩

theorem Follows.withCounts (hf : c.Follows h) (n : Counts) :
    ({ c with counts := n } : Callable).Follows h :=
  ⟨⟨hf.wellFormed.selects, hf.wellFormed.controlled_iff⟩, hf.parity, hf.depth_eq⟩

/-- A new callable with a body has no functor applied. -/
theorem follows_new {t : FunctionTable Routine} (hb : t.body.isSome)
    (hooks : Option Hook × Option Hook) (capture : Option Nat) :
    ({ table := t, hooks, capture } : Callable).Follows [] :=
  ⟨⟨hb, show (0 : Nat) &&& 2 ≠ 0 ↔ 0 < 0 by decide⟩, by simp, rfl⟩

end Callable

/-! ### Callables in a store -/

namespace Machine

/-- Every stored callable is in the state its history gives it, and every stored object has an id
below the next one, so that a new object is found under its own id. -/
structure FunctorsFollow (H : Nat → List AppliedFunctor) (m : Machine) : Prop where
  ids_lt : ∀ p ∈ m.objects, p.1 < m.nextId
  follows : ∀ id c, m.object? ⟨.callable, id⟩ = some (.callable c) → c.Follows (H id)

variable {H : Nat → List AppliedFunctor} {m : Machine}

theorem functorsFollow_new (backend : Backend) (track : Bool) :
    FunctorsFollow H (Machine.new backend track) :=
  ⟨fun _ hp => absurd hp List.not_mem_nil, fun _ _ hc => by simp [Machine.new, object?] at hc⟩

/-- Reading a callable changes nothing: it gives the stored callable, or fails as released. -/
theorem getCallable_cases (id : Nat) (m : Machine) :
    (∃ c, m.object? ⟨.callable, id⟩ = some (.callable c) ∧ getCallable id m = .ok c m) ∨
      getCallable id m = .error (.released ⟨.callable, id⟩) m := by
  unfold Machine.getCallable
  rw [run_bind, getObject_eq]
  cases ho : m.object? ⟨.callable, id⟩ with
  | none => exact .inr rfl
  | some o =>
    cases o with
    | callable c => exact .inl ⟨c, rfl, rfl⟩
    | array _ => exact .inr rfl
    | tuple _ => exact .inr rfl

/-- One more reference to a callable is `addRefs`, its result dropped. -/
theorem callableUpdateRefs_one (id : Nat) (m : Machine) :
    callableUpdateRefs (some id) 1 m = match addRefs ⟨.callable, id⟩ 1 m with
      | .ok _ m' => .ok () m'
      | .error e m' => .error e m' := by
  show (updateRefs ⟨.callable, id⟩ 1 >>= fun _ => pure ()) m = _
  rw [run_bind, updateRefs, if_pos (by decide), run_bind, show (1 : Int).toNat = 1 from rfl]
  cases addRefs ⟨.callable, id⟩ 1 m <;> rfl

/-- A functor applied to a stored callable writes back what the functor leaves, then reports its
outcome. -/
theorem applyFunctor_of_object? {f : Callable → Callable × Except MachineError Unit} {id : Nat}
    {c : Callable} (hc : m.object? ⟨.callable, id⟩ = some (.callable c)) :
    applyFunctor f id m = check (f c).2
      { m with objects := m.objects.map fun (i, p) => if i = id then (i, .callable (f c).1)
        else (i, p) } := by
  obtain ⟨c', hc', hg⟩ | hg := getCallable_cases id m
  · rw [hc] at hc'
    cases hc'
    rw [Machine.applyFunctor, run_bind, hg]
    rfl
  · rw [Machine.getCallable, run_bind, getObject_eq, hc] at hg
    cases hg

/-- The store after writing a callable back holds it under its id. -/
theorem object?_setCallable {id : Nat} {c : Callable} (hc : m.object? ⟨.callable, id⟩ = some (.callable c)) (c' : Callable) :
    ({ m with objects := m.objects.map fun (i, p) => if i = id then (i, .callable c')
        else (i, p) } : Machine).object? ⟨.callable, id⟩ = some (.callable c') := by
  rw [object?_eq_some, lookup_update, if_pos rfl, (object?_eq_some.1 hc).1]
  exact ⟨rfl, rfl⟩

/-- A functor that leaves a callable as it was and refuses is a refusal of the request, with the
callable still stored. -/
theorem applyFunctor_refused {f : Callable → Callable × Except MachineError Unit} {id : Nat}
    {c : Callable} (hc : m.object? ⟨.callable, id⟩ = some (.callable c)) {e : MachineError}
    (hfc : f c = (c, .error e)) :
    ∃ m', applyFunctor f id m = .error e m' ∧ m'.object? ⟨.callable, id⟩ = some (.callable c) := by
  rw [applyFunctor_of_object? hc, hfc]
  exact ⟨_, rfl, object?_setCallable hc c⟩

theorem applyFunctor_accepted {f : Callable → Callable × Except MachineError Unit} {id : Nat}
    {c : Callable} (hc : m.object? ⟨.callable, id⟩ = some (.callable c)) (hfc : (f c).2 = .ok ()) :
    ∃ m', applyFunctor f id m = .ok () m' := by
  rw [applyFunctor_of_object? hc, hfc]
  exact ⟨_, rfl⟩

/-- A functor that accepts a stored callable unless `p`, and otherwise refuses it with `e₀`
leaving it as it was, is refused exactly under `p`, with `e₀` and the callable still stored. -/
theorem applyFunctor_refusal {f : Callable → Callable × Except MachineError Unit} {id : Nat}
    {c : Callable} (hc : m.object? ⟨.callable, id⟩ = some (.callable c)) {e₀ : MachineError}
    {p : Prop} (hacc : ¬p → (f c).2 = .ok ()) (hrej : p → f c = (c, .error e₀)) :
    ((∃ e m', applyFunctor f id m = .error e m') ↔ p) ∧
      ∀ e m', applyFunctor f id m = .error e m' →
        e = e₀ ∧ m'.object? ⟨.callable, id⟩ = some (.callable c) := by
  by_cases hp : p
  · obtain ⟨m', hrun, hm'⟩ := applyFunctor_refused hc (hrej hp)
    refine ⟨iff_of_true ⟨_, _, hrun⟩ hp, fun e m'' h => ?_⟩
    rw [hrun] at h
    cases h
    exact ⟨rfl, hm'⟩
  · obtain ⟨m', hrun⟩ := applyFunctor_accepted hc (hacc hp)
    refine ⟨iff_of_false (fun hx => ?_) hp, fun e m'' h => ?_⟩
    · obtain ⟨e, m'', h⟩ := hx
      rw [hrun] at h
      cases h
    · rw [hrun] at h
      cases h

/-- The adjoint of a stored callable is refused exactly when the specialization it would select
is missing, and a refusal leaves the callable stored as it was. -/
theorem makeAdjoint_refusal {id : Nat} {c : Callable}
    (hc : m.object? ⟨.callable, id⟩ = some (.callable c)) :
    ((∃ e m', makeAdjoint id m = .error e m') ↔ c.table.get (c.applied ^^^ 1) = none) ∧
      ∀ e m', makeAdjoint id m = .error e m' →
        e = .missingFunctor .adjoint ∧ m'.object? ⟨.callable, id⟩ = some (.callable c) := by
  refine applyFunctor_refusal hc (fun hs => ?_) Callable.makeAdjoint_of_none
  rw [Callable.makeAdjoint_of_isSome (Option.ne_none_iff_isSome.1 hs)]

/-- The same for the controlled functor, where the rollback is right on a well-formed callable. -/
theorem makeControlled_refusal {id : Nat} {c : Callable}
    (hc : m.object? ⟨.callable, id⟩ = some (.callable c)) (hw : c.WellFormed) :
    ((∃ e m', makeControlled id m = .error e m') ↔ c.table.get (c.applied ||| 2) = none) ∧
      ∀ e m', makeControlled id m = .error e m' →
        e = .missingFunctor .controlled ∧ m'.object? ⟨.callable, id⟩ = some (.callable c) := by
  refine applyFunctor_refusal hc (fun hs => ?_) (Callable.makeControlled_of_none hw)
  rw [Callable.makeControlled_of_isSome (Option.ne_none_iff_isSome.1 hs)]

/-- The histories are followed by the objects and ids of a store alone. -/
theorem FunctorsFollow.of_objects (hf : FunctorsFollow H m) {m' : Machine}
    (ho : m'.objects = m.objects) (hn : m.nextId ≤ m'.nextId) : FunctorsFollow H m' := by
  refine ⟨fun p hp => lt_of_lt_of_le (hf.ids_lt p (ho ▸ hp)) hn, fun i c hc => hf.follows i c ?_⟩
  rwa [object?_eq, ho, ← object?_eq] at hc

/-- A store that differs from a followed one at one id at most keeps following the histories,
with the history of the callable it holds there, if any. -/
theorem FunctorsFollow.change (hf : FunctorsFollow H m) {m' : Machine} {j : Nat} (o : Option Obj)
    (hlook : ∀ i, m'.objects.lookup i = if i = j then o else m.objects.lookup i)
    (hids : ∀ p ∈ m'.objects, p.1 < m'.nextId) {h : List AppliedFunctor}
    (ho : ∀ c, o = some (.callable c) → c.Follows h) :
    FunctorsFollow (Function.update H j h) m' := by
  refine ⟨hids, fun i c hc => ?_⟩
  obtain ⟨hl, -⟩ := object?_eq_some.1 hc
  rw [hlook] at hl
  by_cases hi : i = j
  · subst hi
    rw [if_pos rfl] at hl
    rw [Function.update_self]
    exact ho c hl
  · rw [if_neg hi] at hl
    rw [Function.update_of_ne hi]
    exact hf.follows i c (object?_eq_some.2 ⟨hl, rfl⟩)

/-- Writing an object back keeps the histories, with the one it follows at its id. -/
theorem FunctorsFollow.setObject (hf : FunctorsFollow H m) (j : Nat) (o : Obj)
    {h : List AppliedFunctor} (ho : ∀ c, o = .callable c → c.Follows h) :
    FunctorsFollow (Function.update H j h)
      { m with objects := m.objects.map fun (i, p) => if i = j then (i, o) else (i, p) } := by
  refine hf.change ((m.objects.lookup j).map fun _ => o) (fun i => lookup_update _ _ _ _)
    ?_ fun c hc => ho c ?_
  · intro p hp
    obtain ⟨q, hq, rfl⟩ := List.mem_map.1 hp
    have := hf.ids_lt q hq
    dsimp only
    split <;> exact this
  · obtain ⟨-, -, rfl⟩ := Option.map_eq_some_iff.1 hc
    rfl

/-- Storing a new object keeps the histories, with the one it follows at the id it takes. -/
theorem FunctorsFollow.insert (hf : FunctorsFollow H m) (o : Obj) {h : List AppliedFunctor}
    (ho : ∀ c, o = .callable c → c.Follows h) :
    match Machine.insert o m with
    | .ok id m' => FunctorsFollow (Function.update H id h) m'
    | .error _ m' => FunctorsFollow H m' := by
  have hs := insert_spec o m
  cases hx : Machine.insert o m with
  | ok id m' =>
    rw [hx] at hs
    obtain ⟨rfl, hobj, hnext, -⟩ := hs
    -- no stored object has the next id, so the new one is found under it
    have hfresh : m.objects.lookup m.nextId = none := by
      cases hl : m.objects.lookup m.nextId with
      | none => rfl
      | some p => exact absurd (hf.ids_lt _ (mem_of_lookup hl)) (lt_irrefl _)
    refine hf.change (some o) (fun i => ?_) ?_ fun c hc => ho c (Option.some.inj hc)
    · rw [hobj, List.lookup_append]
      by_cases hi : i = m.nextId
      · subst hi
        simp [hfresh]
      · have hne : (i == m.nextId) = false := beq_false_of_ne hi
        rw [if_neg hi]
        cases m.objects.lookup i <;> simp [List.lookup_cons, hne]
    · intro p hp
      rw [hobj, List.mem_append, List.mem_singleton] at hp
      rw [hnext]
      rcases hp with hp | rfl
      · exact Nat.lt_succ_of_lt (hf.ids_lt p hp)
      · exact Nat.lt_succ_self _
  | error e m' =>
    rw [hx] at hs
    obtain ⟨hobj, hnext, -⟩ := hs
    exact hf.of_objects hobj (by omega)

/-- New reference counts keep every callable in its state. -/
theorem FunctorsFollow.recount (hf : FunctorsFollow H m) {k : ObjectKey} {m' : Machine}
    (hr : Recount k m m') : FunctorsFollow H m' := by
  rcases hr.objects with ho | ⟨o, n, hk, ho⟩
  · exact hf.of_objects ho hr.nextId.ge
  · obtain ⟨hl, hkind⟩ := object?_eq_some.1 hk
    have hfollow : FunctorsFollow (Function.update H k.id (H k.id))
        { m with objects := m.objects.map fun (i, p) =>
          if i = k.id then (i, o.withCounts n) else (i, p) } := by
      refine hf.setObject k.id (o.withCounts n) fun c hc => ?_
      -- only a callable's counts change, and the callable stays in its state
      cases o with
      | callable c₀ =>
        cases hc
        have hk' : k = ⟨.callable, k.id⟩ := by
          cases k
          cases hkind
          rfl
        exact (hf.follows k.id c₀ (hk' ▸ hk)).withCounts n
      | array _ => cases hc
      | tuple _ => cases hc
    rw [Function.update_eq_self] at hfollow
    exact hfollow.of_objects ho hr.nextId.ge

/-! ### The requests on functors -/

/-- Applying a functor keeps the histories: on success the callable's history gains the functor,
and a refusal leaves the callable as it was. -/
theorem FunctorsFollow.applyFunctor (hf : FunctorsFollow H m)
    {f : Callable → Callable × Except MachineError Unit} (a : AppliedFunctor) (id : Nat)
    (hok : ∀ c, c.Follows (H id) → (f c).2 = .ok () → (f c).1.Follows (H id ++ [a]))
    (herr : ∀ c, c.Follows (H id) → ∀ e, (f c).2 = .error e → (f c).1 = c) :
    match Machine.applyFunctor f id m with
    | .ok _ m' => FunctorsFollow (Function.update H id (H id ++ [a])) m'
    | .error _ m' => FunctorsFollow H m' := by
  obtain ⟨c, hc, -⟩ | hg := getCallable_cases id m
  · have hcf := hf.follows id c hc
    rw [applyFunctor_of_object? hc]
    cases hr : (f c).2 with
    | ok u =>
      exact hf.setObject id (.callable (f c).1) fun c' hc' => by
        cases hc'
        exact hok c hcf hr
    | error e =>
      -- the refused functor wrote the callable back as it was
      have hback := hf.setObject id (.callable (f c).1) fun c' hc' => by
        cases hc'
        rw [herr c hcf e hr]
        exact hcf
      rw [Function.update_eq_self] at hback
      exact hback
  · rw [Machine.applyFunctor, run_bind, hg]
    exact hf

theorem FunctorsFollow.makeAdjoint (hf : FunctorsFollow H m) (id : Nat) :
    match Machine.makeAdjoint id m with
    | .ok _ m' => FunctorsFollow (Function.update H id (H id ++ [.adjoint])) m'
    | .error _ m' => FunctorsFollow H m' := by
  refine hf.applyFunctor .adjoint id (fun c hc hr => ?_) fun c _ e hr => ?_
  · cases hs : c.table.get (c.applied ^^^ 1) with
    | none => rw [Callable.makeAdjoint_of_none hs] at hr; cases hr
    | some _ =>
      have hs' : (c.table.get (c.applied ^^^ 1)).isSome := by rw [hs]; rfl
      rw [Callable.makeAdjoint_of_isSome hs']
      exact hc.adjoint hs'
  · cases hs : c.table.get (c.applied ^^^ 1) with
    | none => rw [Callable.makeAdjoint_of_none hs]
    | some _ =>
      have hs' : (c.table.get (c.applied ^^^ 1)).isSome := by rw [hs]; rfl
      rw [Callable.makeAdjoint_of_isSome hs'] at hr
      cases hr

theorem FunctorsFollow.makeControlled (hf : FunctorsFollow H m) (id : Nat) :
    match Machine.makeControlled id m with
    | .ok _ m' => FunctorsFollow (Function.update H id (H id ++ [.controlled])) m'
    | .error _ m' => FunctorsFollow H m' := by
  refine hf.applyFunctor .controlled id (fun c hc hr => ?_) fun c hc e hr => ?_
  · cases hs : c.table.get (c.applied ||| 2) with
    | none => rw [Callable.makeControlled_of_none hc.wellFormed hs] at hr; cases hr
    | some _ =>
      have hs' : (c.table.get (c.applied ||| 2)).isSome := by rw [hs]; rfl
      rw [Callable.makeControlled_of_isSome hs']
      exact hc.controlled hs'
  · cases hs : c.table.get (c.applied ||| 2) with
    | none => rw [Callable.makeControlled_of_none hc.wellFormed hs]
    | some _ =>
      have hs' : (c.table.get (c.applied ||| 2)).isSome := by rw [hs]; rfl
      rw [Callable.makeControlled_of_isSome hs'] at hr
      cases hr

/-- A new callable starts with no history. -/
theorem FunctorsFollow.callableCreate (hf : FunctorsFollow H m) (table : FunctionTable Routine)
    (hooks : Option (Option Hook × Option Hook)) (capture : Option Nat) :
    match Machine.callableCreate table hooks capture m with
    | .ok id m' => FunctorsFollow (Function.update H id []) m'
    | .error _ m' => FunctorsFollow H m' := by
  unfold Machine.callableCreate
  by_cases hb : table.body.isNone
  · simp only [hb, if_true, run_bind, run_throw]
    exact hf
  · have hb' : table.body.isSome := Option.isSome_iff_ne_none.2 (by simpa using hb)
    simp only [hb, Bool.false_eq_true, if_false]
    exact hf.insert (.callable { table, hooks := hooks.getD (none, none), capture }) fun c hc => by
      cases hc
      exact Callable.follows_new hb' _ _

/-- A copy starts with its source's history; a copy that shares the source adds a reference only. -/
theorem FunctorsFollow.callableCopy (hf : FunctorsFollow H m) (id : Nat) (force : Bool) :
    match Machine.callableCopy id force m with
    | .ok id' m' => FunctorsFollow (Function.update H id' (H id)) m'
    | .error _ m' => FunctorsFollow H m' := by
  obtain ⟨c, hc, hg⟩ | hg := getCallable_cases id m
  · unfold Machine.callableCopy
    rw [run_bind, hg]
    dsimp only
    by_cases hel : (!force && decide (c.counts.aliases = 0)) = true
    · -- the copy is elided: one more reference to the source
      rw [if_pos hel, run_bind, callableUpdateRefs_one]
      have hr := addRefs_spec ⟨.callable, id⟩ 1 m
      cases hx : addRefs ⟨.callable, id⟩ 1 m with
      | ok u m' =>
        rw [hx] at hr
        show FunctorsFollow (Function.update H id (H id)) m'
        rw [Function.update_eq_self]
        exact hf.recount hr
      | error e m' =>
        rw [hx] at hr
        exact hf.recount hr
    · rw [if_neg hel]
      exact hf.insert (.callable { c with counts := {} }) fun c' hc' => by
        cases hc'
        exact (hf.follows id c hc).withCounts {}
  · rw [Machine.callableCopy, run_bind, hg]
    exact hf

end Machine

/-- A request on the functors of a program's callables: creating one, copying one, or applying
a functor to one. -/
inductive FunctorRequest
  | create (table : FunctionTable Routine) (hooks : Option (Option Hook × Option Hook))
      (capture : Option Nat)
  | copy (id : Nat) (force : Bool)
  | adjoint (id : Nat)
  | controlled (id : Nat)
deriving DecidableEq, Repr

namespace FunctorRequest

/-- The same request among a program's requests on its objects. -/
def toObjectRequest : FunctorRequest → ObjectRequest
  | create table hooks capture => .callableCreate table hooks capture
  | copy id force => .callableCopy id force
  | adjoint id => .makeAdjoint id
  | controlled id => .makeControlled id

/-- The histories of the callables after serving a request on `m`: a new callable has none, a
copy has its source's, and a functor applied with success joins its callable's. -/
def histories (m : Machine) (H : Nat → List AppliedFunctor) :
    FunctorRequest → Nat → List AppliedFunctor
  | create table hooks capture =>
    match Machine.callableCreate table hooks capture m with
    | .ok id _ => Function.update H id []
    | .error _ _ => H
  | copy id force =>
    match Machine.callableCopy id force m with
    | .ok id' _ => Function.update H id' (H id)
    | .error _ _ => H
  | adjoint id =>
    match Machine.makeAdjoint id m with
    | .ok _ _ => Function.update H id (H id ++ [.adjoint])
    | .error _ _ => H
  | controlled id =>
    match Machine.makeControlled id m with
    | .ok _ _ => Function.update H id (H id ++ [.controlled])
    | .error _ _ => H

end FunctorRequest

namespace Machine

variable {H : Nat → List AppliedFunctor} {m : Machine}

/-- Serves functor requests one after another, with the histories of the callables alongside. -/
def runFunctors : Machine → (Nat → List AppliedFunctor) → List FunctorRequest →
    Machine × (Nat → List AppliedFunctor)
  | m, H, [] => (m, H)
  | m, H, r :: rs => runFunctors (m.serve r.toObjectRequest) (r.histories m H) rs

/-- The histories ride along: the machine is the one the requests leave. -/
theorem runFunctors_fst (m : Machine) (H : Nat → List AppliedFunctor) (rs : List FunctorRequest) :
    (m.runFunctors H rs).1 = m.serveAll (rs.map FunctorRequest.toObjectRequest) := by
  induction rs generalizing m H with
  | nil => rfl
  | cons r rs ih => exact ih _ _

/-- Every functor request keeps the callables in the states their histories give them. -/
theorem FunctorsFollow.serve (hf : FunctorsFollow H m) (r : FunctorRequest) :
    FunctorsFollow (r.histories m H) (m.serve r.toObjectRequest) := by
  cases r with
  | create table hooks capture =>
    have h := hf.callableCreate table hooks capture
    simp only [FunctorRequest.histories, FunctorRequest.toObjectRequest, Machine.serve]
    cases hx : Machine.callableCreate table hooks capture m <;> rw [hx] at h <;> exact h
  | copy id force =>
    have h := hf.callableCopy id force
    simp only [FunctorRequest.histories, FunctorRequest.toObjectRequest, Machine.serve]
    cases hx : Machine.callableCopy id force m <;> rw [hx] at h <;> exact h
  | adjoint id =>
    have h := hf.makeAdjoint id
    simp only [FunctorRequest.histories, FunctorRequest.toObjectRequest, Machine.serve]
    cases hx : Machine.makeAdjoint id m <;> rw [hx] at h <;> exact h
  | controlled id =>
    have h := hf.makeControlled id
    simp only [FunctorRequest.histories, FunctorRequest.toObjectRequest, Machine.serve]
    cases hx : Machine.makeControlled id m <;> rw [hx] at h <;> exact h

theorem FunctorsFollow.runFunctors (hf : FunctorsFollow H m) (rs : List FunctorRequest) :
    FunctorsFollow (m.runFunctors H rs).2 (m.runFunctors H rs).1 := by
  -- the run starts from the machine and histories the first request leaves
  induction rs generalizing m H with
  | nil => exact hf
  | cons r rs ih => exact ih (hf.serve r)

/-- Along every run of functor requests from a fresh program, every stored callable selects a
routine its table has, has bit 1 set exactly when it is controlled, bit 0 the parity of the
adjoints and its depth the number of controls applied to it with success (a copy counting its
source's), and the next application of either functor is refused exactly when the specialization
it would select is missing, with the callable left as it was. -/
theorem functor_algebra (backend : Backend) (track : Bool) (rs : List FunctorRequest) :
    let m := (Machine.new backend track).serveAll (rs.map FunctorRequest.toObjectRequest)
    let H := ((Machine.new backend track).runFunctors (fun _ => []) rs).2
    ∀ id c, m.object? ⟨.callable, id⟩ = some (.callable c) →
      (∃ r, c.table.get c.applied = some r ∧ c.routine = .ok r) ∧
      (c.applied &&& 2 ≠ 0 ↔ 0 < c.depth) ∧
      c.applied &&& 1 = (H id).count .adjoint % 2 ∧ c.depth = (H id).count .controlled ∧
      ((∃ e m', makeAdjoint id m = .error e m') ↔ c.table.get (c.applied ^^^ 1) = none) ∧
      (∀ e m', makeAdjoint id m = .error e m' →
        e = .missingFunctor .adjoint ∧ m'.object? ⟨.callable, id⟩ = some (.callable c)) ∧
      ((∃ e m', makeControlled id m = .error e m') ↔ c.table.get (c.applied ||| 2) = none) ∧
      (∀ e m', makeControlled id m = .error e m' →
        e = .missingFunctor .controlled ∧ m'.object? ⟨.callable, id⟩ = some (.callable c)) := by
  intro m H id c hc
  have hf : FunctorsFollow H m := by
    have h0 : FunctorsFollow (fun _ => []) (Machine.new backend track) :=
      functorsFollow_new backend track
    have hrun := h0.runFunctors rs
    rw [runFunctors_fst] at hrun
    exact hrun
  have hcf := hf.follows id c hc
  obtain ⟨hadj, hadj'⟩ := makeAdjoint_refusal hc
  obtain ⟨hctl, hctl'⟩ := makeControlled_refusal hc hcf.wellFormed
  exact ⟨hcf.wellFormed.routine_ok, hcf.wellFormed.controlled_iff, hcf.parity, hcf.depth_eq, hadj,
    hadj', hctl, hctl'⟩

end Machine

end QuantumRuntime
