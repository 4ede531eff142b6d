import Mathlib
import QuantumRuntime.Proofs.Machine.Counting

/-!
# Copies are elided, fresh, or refused

A program asks for a copy of a live array, tuple or callable, forcing it or not. The three
requests share one rule. An unforced copy of an object without aliases is elided: the request
gives back the object's own id and only adds a reference to it. Any other copy stores a new object
under the next id, with one reference, no alias, no qubits and the content of the original, which
stays as it was; an array that owns qubits is the exception, and copying it this way is refused
with the machine unchanged. On a machine a program can reach, the next id was never issued
before: no stored object and no tracked key ever carried it.
-/

namespace QuantumRuntime

namespace Obj

/-- Whether an object owns the qubits its items name; only arrays can. -/
def ownsQubits : Obj → Bool
  | array a => a.ownsQubits
  | _ => false

/-- Two objects of one kind with the same content, apart from counts and qubit ownership: an
array's item size, shape and items (so its count and buffer), a tuple's bytes, and a callable's
table, hooks, capture, applied functors and controlled depth. -/
def SameContent : Obj → Obj → Prop
  | array a, array b => a.itemSize = b.itemSize ∧ a.dims = b.dims ∧ a.items = b.items
  | tuple s, tuple t => s.data = t.data
  | callable c, callable d =>
    c.table = d.table ∧ c.hooks = d.hooks ∧ c.capture = d.capture ∧ c.applied = d.applied ∧
      c.depth = d.depth
  | _, _ => False

/-- The object a copy that is not elided stores: the content, with one reference, no alias and no
qubits. -/
def copy : Obj → Obj
  | array a => array a.copy
  | tuple t => tuple { data := t.data }
  | callable c => callable { c with counts := {} }

theorem counts_copy (o : Obj) : o.copy.counts = ⟨1, 0⟩ := by
  cases o <;> rfl

theorem ownsQubits_copy (o : Obj) : o.copy.ownsQubits = false := by
  cases o <;> rfl

theorem sameContent_copy (o : Obj) : o.copy.SameContent o := by
  cases o <;> simp [copy, SameContent, ItemArray.copy]

end Obj

namespace Machine

/-- The machine with a new object stored under the next id, tracked with one reference. -/
def withNew (m : Machine) (o : Obj) : Machine :=
  { m with
    nextId := m.nextId + 1
    tracker := m.tracker.map fun t => t.put ⟨o.kind, m.nextId⟩ 1
    objects := m.objects ++ [(m.nextId, o)] }

/-- What copying objects of one kind does on a machine: an unforced copy of an object without
aliases gives back its id with one more reference; any other copy of an object that owns no
qubits stores, under the next id, an object with one reference, no alias, no qubits and the same
content; and any other copy of an owner of qubits is refused, changing nothing. -/
structure Copies (m : Machine) (kind : ObjectKind) (copy : Nat → Bool → Exec Nat) : Prop where
  elided : ∀ id o, m.object? ⟨kind, id⟩ = some o → o.counts.aliases = 0 →
    copy id false m = .ok id (m.withRefs ⟨kind, id⟩ o (o.counts.refs + 1))
  fresh : ∀ id o force, m.object? ⟨kind, id⟩ = some o → (force = true ∨ o.counts.aliases ≠ 0) →
    o.ownsQubits = false → ∃ y, copy id force m = .ok m.nextId (m.withNew y) ∧
      y.counts = ⟨1, 0⟩ ∧ y.ownsQubits = false ∧ y.SameContent o
  owner : ∀ id o force, m.object? ⟨kind, id⟩ = some o → (force = true ∨ o.counts.aliases ≠ 0) →
    o.ownsQubits = true → copy id force m = .error (.ownsQubits ⟨kind, id⟩) m

variable {m : Machine}

theorem insert_withNew (ha : ∀ t, m.tracker = some t → Agrees t m) (o : Obj) :
    Machine.insert o m = .ok m.nextId (m.withNew o) := by
  cases ht : m.tracker with
  | some t => simp [insert_eq ht o ((ha t ht).count?_fresh o.kind), withNew, ht]
  | none => simp [Machine.insert, freshId, onTracker, withNew, ht]

/-- Adding the reference of an elided copy, whatever the kind. -/
theorem addRef_elim (ha : ∀ t, m.tracker = some t → Agrees t m) {k : ObjectKey} {o : Obj}
    (ho : m.object? k = some o) :
    (updateRefs k 1 >>= fun r => r.elim (pure ()) teardown) m =
      .ok () (m.withRefs k o (o.counts.refs + 1)) := by
  rw [run_bind, updateRefs_add ha ho (by decide)]
  rfl

/-- The copy rule of the three kinds, for an object stored under `⟨kind, id⟩` with its counts and
its ownership of qubits, and the object a copy of it stores. -/
def copyOf (kind : ObjectKind) (id : Nat) (counts : Counts) (owns : Bool) (fresh : Obj)
    (force : Bool) : Exec Nat :=
  if !force && counts.aliases = 0 then do
    updateRefs ⟨kind, id⟩ 1 >>= fun r => r.elim (pure ()) teardown
    pure id
  else if owns then throw (.ownsQubits ⟨kind, id⟩)
  else Machine.insert fresh

/-- A forced copy, or a copy of an object with aliases, is not elided. -/
theorem elide_eq_false {force : Bool} {counts : Counts} (h : force = true ∨ counts.aliases ≠ 0) :
    (!force && counts.aliases = 0) = false := by
  rcases h with h | h <;> simp [h]

/-- A copy request that follows the rule on every stored object does what `Copies` says. -/
theorem copies_of (ha : ∀ t, m.tracker = some t → Agrees t m) {kind : ObjectKind}
    {copy : Nat → Bool → Exec Nat}
    (hcopy : ∀ id o force, m.object? ⟨kind, id⟩ = some o →
      copy id force m = copyOf kind id o.counts o.ownsQubits o.copy force m) :
    Copies m kind copy where
  elided id o ho h0 := by
    rw [hcopy id o false ho, copyOf, if_pos (by simp [h0]), run_bind, addRef_elim ha ho]
    rfl
  fresh id o force ho hforce hown := by
    refine ⟨o.copy, ?_, o.counts_copy, o.ownsQubits_copy, o.sameContent_copy⟩
    rw [hcopy id o force ho, copyOf, elide_eq_false hforce, hown]
    exact insert_withNew ha o.copy
  owner id o force ho hforce hown := by
    rw [hcopy id o force ho, copyOf, elide_eq_false hforce, hown]
    rfl

theorem arrayCopy_eq {id : Nat} {o : Obj} (ho : m.object? ⟨.array, id⟩ = some o) (force : Bool) :
    arrayCopy id force m = copyOf .array id o.counts o.ownsQubits o.copy force m := by
  obtain ⟨-, hkind⟩ := object?_eq_some.1 ho
  cases o with
  | array a =>
    dsimp only [Obj.counts, Obj.ownsQubits, Obj.copy]
    rw [arrayCopy, run_bind, getArray_of_object? ho, copyOf, arrayUpdateRefs_eq]
    dsimp only
    by_cases h : (!force && a.counts.aliases = 0) = true
    · simp only [if_pos h]
    · simp only [if_neg h]
      cases a.ownsQubits <;> rfl
  | tuple t => simp [Obj.kind] at hkind
  | callable c => simp [Obj.kind] at hkind

theorem tupleCopy_eq {id : Nat} {o : Obj} (ho : m.object? ⟨.tuple, id⟩ = some o) (force : Bool) :
    tupleCopy id force m = copyOf .tuple id o.counts o.ownsQubits o.copy force m := by
  obtain ⟨-, hkind⟩ := object?_eq_some.1 ho
  cases o with
  | tuple t =>
    dsimp only [Obj.counts, Obj.ownsQubits, Obj.copy]
    rw [tupleCopy, run_bind, getTuple_of_object? ho, copyOf, tupleUpdateRefs_eq]
    dsimp only
    by_cases h : (!force && t.counts.aliases = 0) = true
    · simp only [if_pos h]
    · simp only [if_neg h]
      rfl
  | array a => simp [Obj.kind] at hkind
  | callable c => simp [Obj.kind] at hkind

theorem callableCopy_eq {id : Nat} {o : Obj} (ho : m.object? ⟨.callable, id⟩ = some o)
    (force : Bool) : callableCopy id force m = copyOf .callable id o.counts o.ownsQubits o.copy force m := by
  obtain ⟨-, hkind⟩ := object?_eq_some.1 ho
  cases o with
  | callable c =>
    dsimp only [Obj.counts, Obj.ownsQubits, Obj.copy]
    rw [callableCopy, run_bind, getCallable_of_object? ho, copyOf, callableUpdateRefs_eq]
    dsimp only
    by_cases h : (!force && c.counts.aliases = 0) = true
    · simp only [if_pos h]
    · simp only [if_neg h]
      rfl
  | array a => simp [Obj.kind] at hkind
  | tuple t => simp [Obj.kind] at hkind

/-- An id never issued along the run `rs` of a fresh program: at no point of it did a stored
object, or a key of the tracker, carry the id. -/
def NeverIssued (backend : Backend) (track : Bool) (rs : List ObjectRequest) (id : Nat) : Prop :=
  ∀ pre post, rs = pre ++ post →
    ((Machine.new backend track).serveAll pre).objects.lookup id = none ∧
      ∀ t, ((Machine.new backend track).serveAll pre).tracker = some t →
        ∀ kind, t.count? ⟨kind, id⟩ = none

/-- The next id of a run was never issued during it: every id issued so far is below it. -/
theorem neverIssued_nextId (backend : Backend) (track : Bool) (rs : List ObjectRequest) :
    NeverIssued backend track rs ((Machine.new backend track).serveAll rs).nextId := by
  rintro pre post rfl
  have hown := owned_serveAll (owned_new backend track) pre
  have hle : ((Machine.new backend track).serveAll pre).nextId ≤
      ((Machine.new backend track).serveAll (pre ++ post)).nextId := by
    rw [serveAll_append]
    exact nextId_le_serveAll hown post
  refine ⟨?_, fun t ht kind => ?_⟩
  · cases hl : ((Machine.new backend track).serveAll pre).objects.lookup _ with
    | none => rfl
    | some o => exact absurd (hown.ids_lt _ o hl) (by omega)
  · cases hc : t.count? ⟨kind, _⟩ with
    | none => rfl
    | some c => exact absurd ((agrees_serveAll backend track pre t ht).id_lt hc) (by simp; omega)

/-- Copy elision on every machine a program can reach: an unforced copy of a live array, tuple or
callable without aliases is the object itself with one more reference, nothing else changed; any
other copy is stored under the next id, never issued before, with one reference, no alias, no
qubits and the content of the original, which is kept; and any other copy of an array that owns
qubits is refused with the machine unchanged. -/
theorem copy_elided_or_fresh (backend : Backend) (track : Bool) (rs : List ObjectRequest) :
    Copies ((Machine.new backend track).serveAll rs) .array arrayCopy ∧
      Copies ((Machine.new backend track).serveAll rs) .tuple tupleCopy ∧
      Copies ((Machine.new backend track).serveAll rs) .callable callableCopy ∧
      NeverIssued backend track rs ((Machine.new backend track).serveAll rs).nextId := by
  have ha := agrees_serveAll backend track rs
  exact ⟨copies_of ha fun _ _ force ho => arrayCopy_eq ho force,
    copies_of ha fun _ _ force ho => tupleCopy_eq ho force,
    copies_of ha fun _ _ force ho => callableCopy_eq ho force, neverIssued_nextId backend track rs⟩

end Machine

end QuantumRuntime
