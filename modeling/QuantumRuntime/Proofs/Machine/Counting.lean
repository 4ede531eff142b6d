import Mathlib
import QuantumRuntime.Proofs.Machine.Flattening

/-!
# Reference counts change exactly, or not at all

A program changes the reference count of an array, tuple or callable by a signed amount. On a
machine a program can reach, where the tracker, if any, agrees with the objects, the change is
exact: adding `k` references to a live object with `n` raises both its count and the tracker's to
`n + k`; dropping some of them lowers both; dropping all of them removes the object, an array
that owns qubits then giving them back; and dropping more is refused with the count it would
reach. An object that was removed cannot be given references again, nor lose any. A change by
zero, and any change of the absent handle, does nothing. A refused change leaves the machine
exactly as it was, apart from a backend refusing the qubits of an array just destroyed; so does
a refused change of an alias count, refused exactly when the count would become negative.

All three kinds of object share one update, `Machine.updateRefs`, whose outcome on a live object
and on a missing one is stated once (`updateRefs_live`, `updateRefs_missing`). The requests of
each kind reduce to it by one equation each, and `countUpdates_of` turns those equations into the
whole specification, `Machine.CountUpdates`. The main statement is `counts_update_exactly`.
-/

namespace QuantumRuntime

namespace Machine

/-- The machine with the object of `k`, found as `o`, holding `r` references, in the tracker
too if allocations are tracked. -/
def withRefs (m : Machine) (k : ObjectKey) (o : Obj) (r : Nat) : Machine :=
  { m with
    tracker := m.tracker.map fun t => t.put k r
    objects := m.objects.map fun (i, p) =>
      if i = k.id then (i, o.withCounts { o.counts with refs := r }) else (i, p) }

/-- What destroying an object runs afterwards: an array that owns qubits gives them back. -/
def teardown : Obj → Exec Unit
  | .array a => if a.ownsQubits then releaseQubitsOf a else pure ()
  | _ => pure ()

variable {m : Machine} {k : ObjectKey} {o : Obj} {inc : Int}

/-! ### The shared update -/

theorem updateRefs_zero (k : ObjectKey) (m : Machine) : updateRefs k 0 m = .ok none m := by
  simp [updateRefs, addRefs]

section Update

variable (ha : ∀ t, m.tracker = some t → Agrees t m)
include ha

/-- Adding references to a live object raises its count, and the tracker's, by as many. -/
theorem updateRefs_add (ho : m.object? k = some o) (hinc : 0 < inc) :
    updateRefs k inc m = .ok none (m.withRefs k o (o.counts.refs + inc.toNat)) := by
  obtain ⟨n, hn⟩ : ∃ n, inc.toNat = n + 1 := ⟨inc.toNat - 1, by omega⟩
  rw [updateRefs, if_pos (le_of_lt hinc), run_bind, hn]
  cases ht : m.tracker with
  | some t => simp [addRefs_eq ht (ha t ht) ho n, withRefs, ht, Nat.add_assoc]
  | none => simp [addRefs, ht, getObject_eq, ho, setObject_eq, withRefs, Nat.add_assoc]

/-- Dropping some of a live object's references lowers its count, and the tracker's. -/
theorem updateRefs_drop (ho : m.object? k = some o) (hinc : inc < 0)
    (hpos : 0 < (o.counts.refs : Int) + inc) :
    updateRefs k inc m = .ok none (m.withRefs k o ((o.counts.refs : Int) + inc).toNat) := by
  obtain ⟨n, hn⟩ : ∃ n, inc.natAbs = n + 1 := ⟨inc.natAbs - 1, by omega⟩
  have hlt : n + 1 < o.counts.refs := by omega
  have hrefs : ((o.counts.refs : Int) + inc).toNat = o.counts.refs - (n + 1) := by omega
  rw [updateRefs, if_neg (not_le.2 hinc), hn, hrefs]
  cases ht : m.tracker with
  | some t => simp [releaseRefs_eq_set ht (ha t ht) ho hlt, withRefs, ht]
  | none =>
    have hle : ¬o.counts.refs ≤ n := by omega
    have hne : o.counts.refs ≠ n + 1 := by omega
    simp [releaseRefs, ho, ht, hle, hne, setObject_eq, withRefs]

/-- Dropping every reference of a live object removes it, and the tracker counts it released. -/
theorem updateRefs_drop_all (ho : m.object? k = some o) (hinc : inc < 0)
    (h0 : (o.counts.refs : Int) + inc = 0) : updateRefs k inc m = .ok (some o) (m.discard k) := by
  obtain ⟨n, hn⟩ : ∃ n, inc.natAbs = n + 1 := ⟨inc.natAbs - 1, by omega⟩
  have heq : o.counts.refs = n + 1 := by omega
  rw [updateRefs, if_neg (not_le.2 hinc), hn]
  cases ht : m.tracker with
  | some t => simp [releaseRefs_eq_remove ht (ha t ht) ho heq, discard, ht]
  | none => simp [releaseRefs, ho, ht, heq, removeObject_eq, discard]

end Update

/-- Dropping more references than a live object has is refused with the count it would reach,
before anything changes. -/
theorem updateRefs_negative (ho : m.object? k = some o) (hneg : (o.counts.refs : Int) + inc < 0) :
    updateRefs k inc m = .error (.negativeRefCount k (o.counts.refs + inc)) m := by
  obtain ⟨n, hn⟩ : ∃ n, inc.natAbs = n + 1 := ⟨inc.natAbs - 1, by omega⟩
  have hle : o.counts.refs ≤ n := by omega
  have hcount : (o.counts.refs : Int) - ((n + 1 : Nat) : Int) = o.counts.refs + inc := by omega
  rw [updateRefs, if_neg (by omega), hn, ← hcount]
  simp [releaseRefs, ho, hle]

section Missing

variable (hnone : m.object? k = none)
include hnone

/-- A removed object cannot be given references again: the tracker calls it a resurrection, and
without a tracker the object is missing. -/
theorem updateRefs_revive (hknown : ∀ t, m.tracker = some t → t.count? k = some 0)
    (hinc : 0 < inc) :
    updateRefs k inc m = .error (if m.isTracking then .resurrection k else .released k) m := by
  obtain ⟨n, hn⟩ : ∃ n, inc.toNat = n + 1 := ⟨inc.toNat - 1, by omega⟩
  rw [updateRefs, if_pos (le_of_lt hinc), run_bind, hn]
  cases ht : m.tracker with
  | some t => simp [addRefs, ht, hknown t ht, isTracking]
  | none => simp [addRefs, ht, getObject_eq, hnone, isTracking]

/-- Nor can references to a removed object be dropped. -/
theorem updateRefs_drop_gone (hknown : ∀ t, m.tracker = some t → t.count? k = some 0)
    (hinc : inc < 0) : updateRefs k inc m = .error (.released k) m := by
  obtain ⟨n, hn⟩ : ∃ n, inc.natAbs = n + 1 := ⟨inc.natAbs - 1, by omega⟩
  rw [updateRefs, if_neg (not_le.2 hinc), hn]
  cases ht : m.tracker with
  | some t => simp [releaseRefs, hnone, ht, hknown t ht]
  | none => simp [releaseRefs, hnone, ht]

/-- Without an object, a change other than by zero is refused before anything changes. -/
theorem updateRefs_missing (ha : ∀ t, m.tracker = some t → Agrees t m) (hinc : inc ≠ 0) :
    ∃ e, updateRefs k inc m = .error e m := by
  rcases lt_or_gt_of_ne hinc with hneg | hpos
  · obtain ⟨n, hn⟩ : ∃ n, inc.natAbs = n + 1 := ⟨inc.natAbs - 1, by omega⟩
    rw [updateRefs, if_neg (not_le.2 hneg), hn]
    cases ht : m.tracker with
    | some t => exact releaseRefs_eq_error ht (ha t ht) hnone n
    | none => exact ⟨.released k, by simp [releaseRefs, hnone, ht]⟩
  · obtain ⟨n, hn⟩ : ∃ n, inc.toNat = n + 1 := ⟨inc.toNat - 1, by omega⟩
    rw [updateRefs, if_pos (le_of_lt hpos), run_bind, hn]
    cases ht : m.tracker with
    | some t =>
      obtain ⟨e, he⟩ := addRefs_eq_error ht (ha t ht) hnone n
      exact ⟨e, by rw [he]⟩
    | none => exact ⟨.released k, by simp [addRefs, ht, getObject_eq, hnone]⟩

end Missing

/-- What the update does to a live object: it is refused when too many references are dropped,
destroys the object when all of them are, and otherwise succeeds without giving it back. -/
theorem updateRefs_live (ha : ∀ t, m.tracker = some t → Agrees t m) (ho : m.object? k = some o)
    (inc : Int) :
    (updateRefs k inc m = .error (.negativeRefCount k (o.counts.refs + inc)) m ∧
        (o.counts.refs : Int) + inc < 0) ∨
      (updateRefs k inc m = .ok (some o) (m.discard k) ∧ inc < 0 ∧ (o.counts.refs : Int) + inc = 0) ∨
      ∃ m', updateRefs k inc m = .ok none m' := by
  rcases lt_trichotomy inc 0 with hneg | rfl | hpos
  · rcases lt_trichotomy ((o.counts.refs : Int) + inc) 0 with hlt | h0 | hgt
    · exact .inl ⟨updateRefs_negative ho hlt, hlt⟩
    · exact .inr (.inl ⟨updateRefs_drop_all ha ho hneg h0, hneg, h0⟩)
    · exact .inr (.inr ⟨_, updateRefs_drop ha ho hneg hgt⟩)
  · exact .inr (.inr ⟨m, updateRefs_zero k m⟩)
  · exact .inr (.inr ⟨_, updateRefs_add ha ho hpos⟩)

/-- What the update does without an object: nothing, or a refusal before anything changes. -/
theorem updateRefs_of_none (ha : ∀ t, m.tracker = some t → Agrees t m) (hnone : m.object? k = none)
    (inc : Int) : updateRefs k inc m = .ok none m ∨ ∃ e, updateRefs k inc m = .error e m := by
  by_cases hinc : inc = 0
  · rw [hinc]
    exact .inl (updateRefs_zero k m)
  · exact .inr (updateRefs_missing hnone ha hinc)

/-- A refused update changes nothing. -/
theorem updateRefs_error (ha : ∀ t, m.tracker = some t → Agrees t m) {e : MachineError}
    {m' : Machine} (h : updateRefs k inc m = .error e m') : m' = m := by
  cases ho : m.object? k with
  | some o =>
    rcases updateRefs_live ha ho inc with ⟨he, -⟩ | ⟨he, -⟩ | ⟨_, he⟩ <;> rw [he] at h <;> cases h
    rfl
  | none =>
    rcases updateRefs_of_none ha ho inc with he | ⟨e', he⟩ <;> rw [he] at h <;> cases h
    rfl

/-- The update gives an object back only when it dropped the last reference of it. -/
theorem updateRefs_some (ha : ∀ t, m.tracker = some t → Agrees t m) {o' : Obj} {m' : Machine}
    (h : updateRefs k inc m = .ok (some o') m') :
    m.object? k = some o' ∧ inc < 0 ∧ (o'.counts.refs : Int) + inc = 0 ∧ m' = m.discard k := by
  cases ho : m.object? k with
  | some o =>
    rcases updateRefs_live ha ho inc with ⟨he, -⟩ | ⟨he, hneg, h0⟩ | ⟨_, he⟩ <;> rw [he] at h <;>
      cases h
    exact ⟨rfl, hneg, h0, rfl⟩
  | none =>
    rcases updateRefs_of_none ha ho inc with he | ⟨e', he⟩ <;> rw [he] at h <;> cases h

/-! ### Alias counts -/

/-- A refused change of an alias count changes nothing. -/
theorem updateAliases_error {e : MachineError} {m' : Machine}
    (h : updateAliases k inc m = .error e m') : m' = m := by
  unfold updateAliases at h
  rw [run_bind, getObject_eq] at h
  cases ho : m.object? k with
  | none => rw [ho] at h; cases h; rfl
  | some o =>
    rw [ho] at h
    dsimp only at h
    split at h
    · cases h
      rfl
    · cases h

/-- A live object's alias count change is refused as negative exactly when it would be. -/
theorem updateAliases_negative_iff (ho : m.object? k = some o) :
    (∃ m', updateAliases k inc m = .error (.negativeAliasCount k) m') ↔
      (o.counts.aliases : Int) + inc < 0 := by
  unfold updateAliases
  rw [run_bind, getObject_eq, ho]
  dsimp only
  split
  · next hneg => exact ⟨fun _ => hneg, fun _ => ⟨m, rfl⟩⟩
  · next hneg =>
    refine ⟨fun ⟨m', h'⟩ => ?_, fun h => absurd h hneg⟩
    simp [setObject_eq] at h'

/-! ### The requests of each kind -/

/-- What the requests changing the reference and alias counts of the objects of one kind do, on
machine `m` where `gone` holds of the keys of objects that were removed. -/
structure CountUpdates (m : Machine) (gone : ObjectKey → Prop) (kind : ObjectKind)
    (refs aliases : Option Nat → Int → Exec Unit) : Prop where
  /-- Adding references to a live object raises its count, in the tracker too, by as many. -/
  add : ∀ id o inc, m.object? ⟨kind, id⟩ = some o → 0 < inc →
    refs (some id) inc m = .ok () (m.withRefs ⟨kind, id⟩ o (o.counts.refs + inc.toNat))
  /-- Dropping some of its references lowers its count by as many. -/
  drop : ∀ id o inc, m.object? ⟨kind, id⟩ = some o → inc < 0 → 0 < (o.counts.refs : Int) + inc →
    refs (some id) inc m = .ok () (m.withRefs ⟨kind, id⟩ o ((o.counts.refs : Int) + inc).toNat)
  /-- Dropping all of them removes it, and then tears it down. -/
  drop_all : ∀ id o inc, m.object? ⟨kind, id⟩ = some o → inc < 0 →
    (o.counts.refs : Int) + inc = 0 → refs (some id) inc m = teardown o (m.discard ⟨kind, id⟩)
  /-- Dropping more is refused with the count it would reach, and changes nothing. -/
  negative : ∀ id o inc, m.object? ⟨kind, id⟩ = some o → (o.counts.refs : Int) + inc < 0 →
    refs (some id) inc m = .error (.negativeRefCount ⟨kind, id⟩ (o.counts.refs + inc)) m
  /-- A removed object cannot be given references again: a resurrection when tracked, a released
  object when not. -/
  revive : ∀ id inc, gone ⟨kind, id⟩ → 0 < inc →
    refs (some id) inc m =
      .error (if m.isTracking then .resurrection ⟨kind, id⟩ else .released ⟨kind, id⟩) m
  /-- Nor can references to it be dropped. -/
  drop_gone : ∀ id inc, gone ⟨kind, id⟩ → inc < 0 →
    refs (some id) inc m = .error (.released ⟨kind, id⟩) m
  /-- A change by zero does nothing, whatever the handle. -/
  zero : ∀ id, refs (some id) 0 m = .ok () m
  /-- The absent handle changes nothing. -/
  refs_none : ∀ inc, refs none inc m = .ok () m
  /-- A refused change leaves the machine as it was, unless it came from tearing down an object
  whose last reference was dropped. -/
  refs_error : ∀ id inc e m', refs (some id) inc m = .error e m' → m' = m ∨
    ∃ o, m.object? ⟨kind, id⟩ = some o ∧ inc < 0 ∧ (o.counts.refs : Int) + inc = 0 ∧
      teardown o (m.discard ⟨kind, id⟩) = .error e m'
  /-- An alias change of a live object is refused as negative exactly when it would be. -/
  aliases_negative : ∀ id o inc, m.object? ⟨kind, id⟩ = some o →
    ((∃ m', aliases (some id) inc m = .error (.negativeAliasCount ⟨kind, id⟩) m') ↔
      (o.counts.aliases : Int) + inc < 0)
  /-- The absent handle changes no alias count. -/
  aliases_none : ∀ inc, aliases none inc m = .ok () m
  /-- A refused alias change leaves the machine as it was. -/
  aliases_error : ∀ id inc e m', aliases (some id) inc m = .error e m' → m' = m

/-- Requests that run the shared update, tear down the object it gives back, and leave the
absent handle alone meet the specification on a machine whose tracker agrees with its objects,
when `gone` names only missing objects the tracker, if any, counts as released. -/
theorem countUpdates_of {gone : ObjectKey → Prop} {kind : ObjectKind}
    {refs aliases : Option Nat → Int → Exec Unit} (ha : ∀ t, m.tracker = some t → Agrees t m)
    (hgone : ∀ k, gone k → m.object? k = none ∧ ∀ t, m.tracker = some t → t.count? k = some 0)
    (hrefs : ∀ id inc, refs (some id) inc =
      updateRefs ⟨kind, id⟩ inc >>= fun r => r.elim (pure ()) teardown)
    (hrefs_none : ∀ inc, refs none inc = pure ())
    (haliases : ∀ id inc, aliases (some id) inc = updateAliases ⟨kind, id⟩ inc)
    (haliases_none : ∀ inc, aliases none inc = pure ()) :
    CountUpdates m gone kind refs aliases where
  add id o inc ho hinc := by rw [hrefs, run_bind, updateRefs_add ha ho hinc]; rfl
  drop id o inc ho hinc hpos := by rw [hrefs, run_bind, updateRefs_drop ha ho hinc hpos]; rfl
  drop_all id o inc ho hinc h0 := by rw [hrefs, run_bind, updateRefs_drop_all ha ho hinc h0]; rfl
  negative id o inc ho hneg := by rw [hrefs, run_bind, updateRefs_negative ho hneg]
  revive id inc hg hinc := by
    rw [hrefs, run_bind, updateRefs_revive (hgone _ hg).1 (hgone _ hg).2 hinc]
  drop_gone id inc hg hinc := by
    rw [hrefs, run_bind, updateRefs_drop_gone (hgone _ hg).1 (hgone _ hg).2 hinc]
  zero id := by rw [hrefs, run_bind, updateRefs_zero]; rfl
  refs_none inc := by rw [hrefs_none]; rfl
  refs_error id inc e m' h := by
    rw [hrefs, run_bind] at h
    cases hu : updateRefs ⟨kind, id⟩ inc m with
    | error e' s =>
      rw [hu] at h
      cases h
      exact .inl (updateRefs_error ha hu)
    | ok r s =>
      rw [hu] at h
      cases r with
      | none => cases h
      | some o =>
        -- only destroying the object gives it back, and then its teardown failed
        obtain ⟨ho, hneg, h0, rfl⟩ := updateRefs_some ha hu
        exact .inr ⟨o, ho, hneg, h0, h⟩
  aliases_negative id o inc ho := by rw [haliases]; exact updateAliases_negative_iff ho
  aliases_none inc := by rw [haliases_none]; rfl
  aliases_error id inc e m' h := by rw [haliases] at h; exact updateAliases_error h

/-- The update gives back only an object of the key's kind. -/
theorem updateRefs_kind (k : ObjectKey) (inc : Int) (m : Machine) {o : Obj} {m' : Machine}
    (h : updateRefs k inc m = .ok (some o) m') : o.kind = k.kind := by
  have hspec := updateRefs_spec k inc m
  rw [h] at hspec
  exact (object?_eq_some.1 hspec.1).2

/-- A request that ignores what the update gives back is one that tears down an object of a
kind other than arrays. -/
theorem bind_teardown {kind : ObjectKind} (hkind : kind ≠ .array) (id : Nat) (inc : Int) :
    (updateRefs ⟨kind, id⟩ inc >>= fun _ => pure ()) =
      updateRefs ⟨kind, id⟩ inc >>= fun r => r.elim (pure ()) teardown := by
  funext m
  rw [run_bind, run_bind]
  cases hu : updateRefs ⟨kind, id⟩ inc m with
  | error e s => rfl
  | ok r s =>
    cases r with
    | none => rfl
    | some o =>
      have ho := updateRefs_kind _ _ _ hu
      cases o with
      | array a => exact absurd ho.symm hkind
      | tuple t => rfl
      | callable c => rfl

theorem arrayUpdateRefs_eq (id : Nat) (inc : Int) :
    arrayUpdateRefs (some id) inc =
      updateRefs ⟨.array, id⟩ inc >>= fun r => r.elim (pure ()) teardown := by
  dsimp only [arrayUpdateRefs]
  congr 1
  funext r
  rcases r with _ | (a | t | c) <;> rfl

theorem tupleUpdateRefs_eq (id : Nat) (inc : Int) :
    tupleUpdateRefs (some id) inc =
      updateRefs ⟨.tuple, id⟩ inc >>= fun r => r.elim (pure ()) teardown :=
  bind_teardown (by decide) id inc

theorem callableUpdateRefs_eq (id : Nat) (inc : Int) :
    callableUpdateRefs (some id) inc =
      updateRefs ⟨.callable, id⟩ inc >>= fun r => r.elim (pure ()) teardown :=
  bind_teardown (by decide) id inc

/-! ### Runs -/

/-- In the run `rs` of a fresh program, the object of `k` was live after some first part of the
run and is gone at its end. -/
def RemovedIn (backend : Backend) (track : Bool) (rs : List ObjectRequest) (k : ObjectKey) : Prop :=
  ∃ pre post, rs = pre ++ post ∧ (((Machine.new backend track).serveAll pre).object? k).isSome ∧
    ((Machine.new backend track).serveAll rs).object? k = none

/-- A removed object is missing at the end of the run, and a tracker, which never forgets a key,
counts it as released. -/
theorem RemovedIn.released {backend : Backend} {track : Bool} {rs : List ObjectRequest}
    (h : RemovedIn backend track rs k) :
    ((Machine.new backend track).serveAll rs).object? k = none ∧
      ∀ t, ((Machine.new backend track).serveAll rs).tracker = some t → t.count? k = some 0 := by
  obtain ⟨pre, post, rfl, hlive, hgone⟩ := h
  refine ⟨hgone, fun t ht => ?_⟩
  cases track with
  | false =>
    rw [tracker_serveAll (owned_new backend false) rfl] at ht
    cases ht
  | true =>
    -- the key is tracked after `pre`, and the rest of the run keeps the keys it had then
    obtain ⟨t₀, hm₀, ha₀, -⟩ := tracking_serveAll (tracking_new backend) pre
    obtain ⟨o, ho⟩ := Option.isSome_iff_exists.1 hlive
    have hk₀ : t₀.count? k = some o.counts.refs := (ha₀.count?_of_object? ho).1
    obtain ⟨t', ht', ha', hks⟩ := tracking_serveAll ⟨t₀, hm₀, ha₀, List.prefix_refl _⟩ post
    rw [← serveAll_append, ht] at ht'
    cases ht'
    have hmem : k ∈ t.counts.map Prod.fst :=
      hks.subset (List.mem_map_of_mem (mem_of_lookup hk₀))
    obtain ⟨p, hp, hpk⟩ := List.mem_map.1 hmem
    obtain ⟨c, hc⟩ := Option.isSome_iff_exists.1
      (List.lookup_isSome_iff.2 ⟨p, hp, by rw [hpk]; exact beq_self_eq_true k⟩)
    have hc0 : c = 0 := ha'.removed k c hc (by rw [← serveAll_append]; exact hgone)
    rw [← hc0]
    exact hc

/-- Reference counts change exactly, or not at all: on every machine a program reaches, the
requests on reference and alias counts do what `CountUpdates` says, and a refused change leaves
the machine as it was. -/
theorem counts_update_exactly (backend : Backend) (track : Bool) (rs : List ObjectRequest) :
    CountUpdates ((Machine.new backend track).serveAll rs) (RemovedIn backend track rs) .array
        arrayUpdateRefs arrayUpdateAliases ∧
      CountUpdates ((Machine.new backend track).serveAll rs) (RemovedIn backend track rs) .tuple
        tupleUpdateRefs tupleUpdateAliases ∧
      CountUpdates ((Machine.new backend track).serveAll rs) (RemovedIn backend track rs) .callable
        callableUpdateRefs callableUpdateAliases := by
  have ha := agrees_serveAll backend track rs
  have hgone : ∀ k, RemovedIn backend track rs k → _ := fun _ h => RemovedIn.released h
  exact ⟨countUpdates_of ha hgone (arrayUpdateRefs_eq) (fun _ => rfl) (fun _ _ => rfl)
      (fun _ => rfl),
    countUpdates_of ha hgone (tupleUpdateRefs_eq) (fun _ => rfl) (fun _ _ => rfl) (fun _ => rfl),
    countUpdates_of ha hgone (callableUpdateRefs_eq) (fun _ => rfl) (fun _ _ => rfl)
      (fun _ => rfl)⟩

end Machine

end QuantumRuntime
