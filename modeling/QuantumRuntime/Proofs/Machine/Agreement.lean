import Mathlib
import QuantumRuntime.Machine.State

/-!
# The allocation tracker agrees with the object store

With tracking on, a program keeps two copies of every reference count: the tracker's, by key, and
the object's own. `Agrees t m` says the tracker `t` and the objects of `m` tell the same story:
keys are allocated with growing ids below the next id, a stored object is tracked with its
reference count, which is positive, and a key whose object is gone is tracked with count zero.

The main statements say what the store primitives do to this agreement. Storing a new object
under the next id with one reference (`Agrees.insert`), writing back an object of the same kind
and count (`Agrees.setObject`), setting a count in both copies (`Agrees.setRefs`) and removing an
object whose count drops to zero (`Agrees.remove`) all keep it. Under it, the tracker's live keys
are exactly the keys of the stored objects (`Agrees.live_eq`), so teardown reports exactly the
stored objects as leaks (`Agrees.deinit_eq`).
-/

namespace QuantumRuntime

/-! ### Association lists -/

section Lookup

variable {α β : Type} [DecidableEq α]

theorem map_fst_map_update (k : α) (v : β) (l : List (α × β)) :
    (l.map fun (j, w) => if j = k then (j, v) else (j, w)).map Prod.fst = l.map Prod.fst := by
  induction l with
  | nil => rfl
  | cons p l ih =>
    obtain ⟨j, w⟩ := p
    by_cases hj : j = k <;> simp [hj, ih]

/-- An entry after the update is the key's, with the new value, or an untouched one. -/
theorem mem_map_update {k : α} {v : β} {l : List (α × β)} {j : α} {w : β}
    (h : (j, w) ∈ l.map fun (i, u) => if i = k then (i, v) else (i, u)) :
    (j = k ∧ w = v ∧ ∃ u, (j, u) ∈ l) ∨ (j ≠ k ∧ (j, w) ∈ l) := by
  obtain ⟨⟨i, u⟩, hiu, he⟩ := List.mem_map.1 h
  dsimp only at he
  split at he
  · next hi =>
    obtain ⟨rfl, rfl⟩ := Prod.mk.inj he
    exact .inl ⟨hi, rfl, u, hiu⟩
  · next hi =>
    obtain ⟨rfl, rfl⟩ := Prod.mk.inj he
    exact .inr ⟨hi, hiu⟩

variable [BEq α] [LawfulBEq α]

/-- Updating every entry of a key gives that key the new value, if it had one. -/
theorem lookup_map_update_self (k : α) (v : β) (l : List (α × β)) :
    (l.map fun (j, w) => if j = k then (j, v) else (j, w)).lookup k = (l.lookup k).map fun _ => v := by
  induction l with
  | nil => rfl
  | cons p l ih =>
    obtain ⟨j, w⟩ := p
    by_cases hj : j = k
    · subst hj
      simp
    · have hne : (k == j) = false := beq_false_of_ne (Ne.symm hj)
      simp [List.lookup_cons, hj, hne, ih]

theorem lookup_map_update_ne {k k' : α} (hk : k' ≠ k) (v : β) (l : List (α × β)) :
    (l.map fun (j, w) => if j = k then (j, v) else (j, w)).lookup k' = l.lookup k' := by
  induction l with
  | nil => rfl
  | cons p l ih =>
    obtain ⟨j, w⟩ := p
    by_cases hj : j = k
    · subst hj
      have hne : (k' == j) = false := beq_false_of_ne hk
      simp [List.lookup_cons, hne, ih]
    · simp [List.lookup_cons, hj, ih]

theorem lookup_filter_ne {k k' : α} (hk : k' ≠ k) (l : List (α × β)) :
    (l.filter fun (j, _) => j ≠ k).lookup k' = l.lookup k' := by
  induction l with
  | nil => rfl
  | cons p l ih =>
    obtain ⟨j, w⟩ := p
    rw [List.filter_cons]
    by_cases hj : j = k
    · subst hj
      have hne : (k' == j) = false := beq_false_of_ne hk
      rw [if_neg (by simp), ih, List.lookup_cons, hne]
    · rw [if_pos (by simpa using hj), List.lookup_cons, List.lookup_cons, ih]

theorem lookup_filter_self (k : α) (l : List (α × β)) :
    (l.filter fun (j, _) => j ≠ k).lookup k = none := by
  induction l with
  | nil => rfl
  | cons p l ih =>
    obtain ⟨j, w⟩ := p
    rw [List.filter_cons]
    by_cases hj : j = k
    · rw [if_neg (by simpa using hj), ih]
    · have hne : (k == j) = false := beq_false_of_ne (Ne.symm hj)
      rw [if_pos (by simpa using hj), List.lookup_cons, hne, ih]

omit [DecidableEq α] in
/-- With distinct keys, an entry of the list is what looking its key up finds. -/
theorem lookup_of_mem {l : List (α × β)} (hl : (l.map Prod.fst).Nodup) {k : α} {v : β}
    (h : (k, v) ∈ l) : l.lookup k = some v := by
  induction l with
  | nil => cases h
  | cons p l ih =>
    obtain ⟨j, w⟩ := p
    rw [List.map_cons, List.nodup_cons] at hl
    rcases List.mem_cons.1 h with he | hm
    · cases he
      simp
    · have hne : (k == j) = false :=
        beq_false_of_ne fun hk => hl.1 (List.mem_map.2 ⟨(k, v), hm, hk⟩)
      rw [List.lookup_cons, hne, ih hl.2 hm]

omit [DecidableEq α] in
theorem mem_of_lookup {l : List (α × β)} {k : α} {v : β} (h : l.lookup k = some v) :
    (k, v) ∈ l := by
  obtain ⟨l₁, l₂, rfl, -⟩ := List.lookup_eq_some_iff.1 h
  simp

end Lookup

/-! ### Keys and their report order -/

theorem ObjectKey.kind_ne_of_id_eq {k k' : ObjectKey} (hne : k' ≠ k) (hid : k'.id = k.id) :
    k'.kind ≠ k.kind := fun hk => hne (by cases k; cases k'; simp_all)

theorem ObjectKey.not_before_iff (a b : ObjectKey) :
    (!ObjectKey.before b a) = true ↔
      a.kind.rank < b.kind.rank ∨ (a.kind.rank = b.kind.rank ∧ a.id ≤ b.id) := by
  simp only [ObjectKey.before, Bool.not_eq_true', Bool.or_eq_false_iff, Bool.and_eq_false_iff,
    decide_eq_false_iff_not]
  omega

/-- Sorting keys into report order gives one list for all orders of the same keys: keys are
ordered by kind and then by id, and no two keys share both. -/
theorem ObjectKey.sort_eq_of_perm {l₁ l₂ : List ObjectKey} (h : l₁.Perm l₂) :
    ObjectKey.sort l₁ = ObjectKey.sort l₂ := by
  have trans : ∀ a b c : ObjectKey, (!ObjectKey.before b a) = true →
      (!ObjectKey.before c b) = true → (!ObjectKey.before c a) = true := by
    intro a b c hab hbc
    rw [ObjectKey.not_before_iff] at *
    omega
  have total : ∀ a b : ObjectKey, ((!ObjectKey.before b a) || (!ObjectKey.before a b)) = true := by
    intro a b
    rw [Bool.or_eq_true, ObjectKey.not_before_iff, ObjectKey.not_before_iff]
    omega
  have antisymm : ∀ a b : ObjectKey, a ∈ ObjectKey.sort l₁ → b ∈ ObjectKey.sort l₂ →
      (!ObjectKey.before b a) = true → (!ObjectKey.before a b) = true → a = b := by
    intro a b _ _ hab hba
    rw [ObjectKey.not_before_iff] at hab hba
    have hrank : a.kind = b.kind := ObjectKind.rank_injective (by omega)
    have hid : a.id = b.id := by omega
    cases a
    cases b
    simp_all
  exact List.Perm.eq_of_pairwise antisymm (List.pairwise_mergeSort trans total l₁)
    (List.pairwise_mergeSort trans total l₂)
    ((List.mergeSort_perm l₁ _).trans (h.trans (List.mergeSort_perm l₂ _).symm))

/-! ### Setting a tracked count -/

namespace Tracker

theorem count?_put_self (t : Tracker) (k : ObjectKey) (n : Nat) : (t.put k n).count? k = some n := by
  unfold put count?
  split
  · next h =>
    rw [lookup_map_update_self]
    obtain ⟨c, hc⟩ := Option.isSome_iff_exists.1 h
    rw [hc]
    rfl
  · next h =>
    rw [List.lookup_append, Option.not_isSome_iff_eq_none.1 h]
    simp

theorem count?_put_ne (t : Tracker) {k k' : ObjectKey} (hk : k' ≠ k) (n : Nat) :
    (t.put k n).count? k' = t.count? k' := by
  unfold put count?
  split
  · exact lookup_map_update_ne hk n t.counts
  · have hnk : [(k, n)].lookup k' = none := by
      rw [List.lookup_cons, beq_false_of_ne hk]
      rfl
    rw [List.lookup_append, hnk]
    exact Option.or_none

/-- Setting the count of a tracked key keeps the keys. -/
theorem keys_put (t : Tracker) {k : ObjectKey} (h : (t.count? k).isSome) (n : Nat) :
    (t.put k n).counts.map Prod.fst = t.counts.map Prod.fst := by
  have h' : (t.counts.lookup k).isSome = true := h
  unfold put
  rw [if_pos h']
  exact map_fst_map_update k n t.counts

/-- Setting the count of an untracked key appends it. -/
theorem counts_put (t : Tracker) {k : ObjectKey} (h : t.count? k = none) (n : Nat) :
    (t.put k n).counts = t.counts ++ [(k, n)] := by
  have h' : (t.counts.lookup k).isSome = false := by
    rw [show t.counts.lookup k = none from h]
    rfl
  unfold put
  rw [if_neg (by rw [h']; decide)]

theorem ids_put (t : Tracker) {k : ObjectKey} (h : (t.count? k).isSome) (n : Nat) :
    (t.put k n).counts.map (·.1.id) = t.counts.map (·.1.id) := by
  have := congrArg (List.map ObjectKey.id) (t.keys_put h n)
  rw [List.map_map, List.map_map] at this
  exact this

/-- The tracker never forgets a key: setting a count keeps the keys before it, in order. -/
theorem keys_prefix_put (t : Tracker) (k : ObjectKey) (n : Nat) :
    t.counts.map Prod.fst <+: (t.put k n).counts.map Prod.fst := by
  cases h : t.count? k with
  | some c =>
    have hkeys := t.keys_put (Option.isSome_iff_exists.2 ⟨c, h⟩) n
    exact hkeys ▸ List.prefix_refl _
  | none =>
    rw [t.counts_put h n, List.map_append]
    exact List.prefix_append _ _

end Tracker

namespace Machine

/-- The keys of the stored objects, in the order they are stored. -/
def storedKeys (m : Machine) : List ObjectKey := m.objects.map fun p => ⟨p.2.kind, p.1⟩

theorem object?_eq (m : Machine) (k : ObjectKey) :
    m.object? k = (m.objects.lookup k.id).filter fun o => o.kind = k.kind := by
  unfold object?
  cases m.objects.lookup k.id with
  | none => rfl
  | some o => simp only [Option.filter_some, decide_eq_true_eq]

theorem object?_eq_some {m : Machine} {k : ObjectKey} {o : Obj} :
    m.object? k = some o ↔ m.objects.lookup k.id = some o ∧ o.kind = k.kind := by
  rw [object?_eq, Option.filter_eq_some_iff, decide_eq_true_eq]

/-- A key that differs from a stored object's key in its kind alone has no object. -/
theorem object?_eq_none_of_kind_ne {m : Machine} {k k' : ObjectKey} {o : Obj}
    (hk : m.object? k = some o) (hkk : k' ≠ k) (hid : k'.id = k.id) : m.object? k' = none := by
  obtain ⟨hl, hkind⟩ := object?_eq_some.1 hk
  rw [object?_eq, hid, hl]
  have := ObjectKey.kind_ne_of_id_eq hkk hid
  simp [hkind, Ne.symm this]

/-- The tracker agrees with the objects of a machine. -/
structure Agrees (t : Tracker) (m : Machine) : Prop where
  /-- Keys are tracked in the order they were allocated, each with an id above every earlier one,
  whatever its kind. -/
  ids_increase : (t.counts.map (·.1.id)).Pairwise (· < ·)
  /-- The next id is above every id allocated. -/
  ids_lt : ∀ p ∈ t.counts, p.1.id < m.nextId
  /-- No two objects share an id. -/
  ids_nodup : (m.objects.map Prod.fst).Nodup
  /-- A stored object is tracked with its reference count, which is positive. -/
  stored : ∀ i o, (i, o) ∈ m.objects → t.count? ⟨o.kind, i⟩ = some o.counts.refs ∧ 0 < o.counts.refs
  /-- A tracked key whose object is gone has count zero. -/
  removed : ∀ k c, t.count? k = some c → m.object? k = none → c = 0

section Agreement

variable {t : Tracker} {m : Machine}

theorem Agrees.id_lt (h : Agrees t m) {k : ObjectKey} {c : Nat} (hk : t.count? k = some c) :
    k.id < m.nextId :=
  h.ids_lt (k, c) (mem_of_lookup hk)

/-- The next id is tracked under no kind. -/
theorem Agrees.count?_fresh (h : Agrees t m) (kind : ObjectKind) :
    t.count? ⟨kind, m.nextId⟩ = none := by
  cases hc : t.count? ⟨kind, m.nextId⟩ with
  | none => rfl
  | some c => exact absurd (h.id_lt hc) (Nat.lt_irrefl _)

/-- A stored object is tracked with its reference count. -/
theorem Agrees.count?_of_object? (h : Agrees t m) {k : ObjectKey} {o : Obj}
    (hk : m.object? k = some o) : t.count? k = some o.counts.refs ∧ 0 < o.counts.refs := by
  obtain ⟨hl, hkind⟩ := object?_eq_some.1 hk
  have := h.stored k.id o (mem_of_lookup hl)
  rwa [hkind] at this

theorem Agrees.isSome_count? (h : Agrees t m) {k : ObjectKey} {o : Obj}
    (hk : m.object? k = some o) : (t.count? k).isSome := by
  rw [(h.count?_of_object? hk).1]
  rfl

/-- A tracked key with a positive count has its object stored. -/
theorem Agrees.object?_of_count? (h : Agrees t m) {k : ObjectKey} {c : Nat}
    (hk : t.count? k = some (c + 1)) : ∃ o, m.object? k = some o := by
  cases ho : m.object? k with
  | none => exact absurd (h.removed k (c + 1) hk ho) (Nat.succ_ne_zero c)
  | some o => exact ⟨o, rfl⟩

theorem Agrees.object_lt (h : Agrees t m) {i : Nat} {o : Obj} (hio : (i, o) ∈ m.objects) :
    i < m.nextId :=
  h.id_lt (h.stored i o hio).1

theorem Agrees.lookup_fresh (h : Agrees t m) : m.objects.lookup m.nextId = none := by
  rw [List.lookup_eq_none_iff]
  rintro ⟨i, o⟩ hio
  have := h.object_lt hio
  simp only [bne_iff_ne, ne_eq]
  omega

/-- Setting the count of a tracked key keeps the order of the ids and their bound. -/
theorem Agrees.put_ids (h : Agrees t m) {k : ObjectKey} (hk : (t.count? k).isSome) (n : Nat) :
    ((t.put k n).counts.map (·.1.id)).Pairwise (· < ·) ∧
      ∀ p ∈ (t.put k n).counts, p.1.id < m.nextId := by
  refine ⟨by rw [t.ids_put hk n]; exact h.ids_increase, fun p hp => ?_⟩
  have hmem : p.1 ∈ (t.put k n).counts.map Prod.fst := List.mem_map_of_mem hp
  rw [t.keys_put hk n] at hmem
  obtain ⟨q, hq, hqp⟩ := List.mem_map.1 hmem
  rw [← hqp]
  exact h.ids_lt q hq

/-- Storing a new object under the next id, tracked with one reference. -/
theorem Agrees.insert (h : Agrees t m) (o : Obj) (ho : o.counts.refs = 1) (tr : Option Tracker) :
    Agrees (t.put ⟨o.kind, m.nextId⟩ 1)
      { m with
        nextId := m.nextId + 1
        tracker := tr
        objects := m.objects ++ [(m.nextId, o)] } where
  ids_increase := by
    rw [t.counts_put (h.count?_fresh o.kind), List.map_append, List.pairwise_append]
    refine ⟨h.ids_increase, List.pairwise_singleton _ _, ?_⟩
    intro a ha b hb
    obtain ⟨p, hp, rfl⟩ := List.mem_map.1 ha
    simp only [List.map_cons, List.map_nil, List.mem_singleton] at hb
    subst hb
    exact h.ids_lt p hp
  ids_lt := by
    intro p hp
    rw [t.counts_put (h.count?_fresh o.kind)] at hp
    rcases List.mem_append.1 hp with hp | hp
    · exact Nat.lt_succ_of_lt (h.ids_lt p hp)
    · rw [List.mem_singleton] at hp
      subst hp
      exact Nat.lt_succ_self _
  ids_nodup := by
    rw [List.map_append, List.nodup_append]
    refine ⟨h.ids_nodup, by simp, ?_⟩
    intro a ha b hb
    obtain ⟨p, hp, rfl⟩ := List.mem_map.1 ha
    simp only [List.map_cons, List.map_nil, List.mem_singleton] at hb
    subst hb
    exact Nat.ne_of_lt (h.object_lt hp)
  stored := by
    intro i p hip
    rcases List.mem_append.1 hip with hip | hip
    · -- an old object sits below the next id, so its key is not the new one
      have hlt := h.object_lt hip
      have hne : (⟨p.kind, i⟩ : ObjectKey) ≠ ⟨o.kind, m.nextId⟩ := by
        intro he
        simp only [ObjectKey.mk.injEq] at he
        omega
      rw [Tracker.count?_put_ne _ hne]
      exact h.stored i p hip
    · rw [List.mem_singleton] at hip
      cases hip
      rw [Tracker.count?_put_self, ho]
      exact ⟨rfl, Nat.one_pos⟩
  removed := by
    intro k c hc hk
    rw [object?_eq] at hk
    simp only at hk
    rw [List.lookup_append] at hk
    by_cases hkk : k = ⟨o.kind, m.nextId⟩
    · subst hkk
      simp [h.lookup_fresh] at hk
    · rw [Tracker.count?_put_ne _ hkk] at hc
      refine h.removed k c hc ?_
      rw [object?_eq]
      cases hl : m.objects.lookup k.id with
      | none => rfl
      | some p => rw [hl] at hk; simpa using hk

/-- Replacing an object by one of the same kind and reference count. -/
theorem Agrees.setObject (h : Agrees t m) {id : Nat} {o : Obj}
    (hsame : ∀ p, m.objects.lookup id = some p → p.kind = o.kind ∧ p.counts.refs = o.counts.refs) :
    Agrees t { m with objects := m.objects.map fun (i, p) => if i = id then (i, o) else (i, p) } where
  ids_increase := h.ids_increase
  ids_lt := h.ids_lt
  ids_nodup := by
    dsimp only
    rw [map_fst_map_update]
    exact h.ids_nodup
  stored := by
    intro i p hip
    rcases mem_map_update hip with ⟨rfl, rfl, q, hq⟩ | ⟨-, hip⟩
    · -- the written object takes over the kind and count of the one it replaces
      obtain ⟨hk, hr⟩ := hsame q (lookup_of_mem h.ids_nodup hq)
      rw [← hk, ← hr]
      exact h.stored _ q hq
    · exact h.stored i p hip
  removed := by
    intro k c hc hk
    refine h.removed k c hc ?_
    rw [object?_eq] at hk ⊢
    dsimp only at hk
    by_cases hid : k.id = id
    · rw [hid, lookup_map_update_self] at hk
      rw [hid]
      cases hl : m.objects.lookup id with
      | none => rfl
      | some p =>
        rw [hl] at hk
        obtain ⟨hkind, -⟩ := hsame p hl
        simpa [hkind] using hk
    · rwa [lookup_map_update_ne hid] at hk

/-- Setting the reference count of a stored object, in the tracker and in the object alike. -/
theorem Agrees.setRefs (h : Agrees t m) {k : ObjectKey} {o : Obj} (hk : m.object? k = some o)
    {r : Nat} (hr : 0 < r) (tr : Option Tracker) :
    Agrees (t.put k r)
      { m with
        tracker := tr
        objects := m.objects.map fun (i, p) =>
          if i = k.id then (i, o.withCounts { o.counts with refs := r }) else (i, p) } where
  ids_increase := (h.put_ids (h.isSome_count? hk) r).1
  ids_lt := (h.put_ids (h.isSome_count? hk) r).2
  ids_nodup := by
    dsimp only
    rw [map_fst_map_update]
    exact h.ids_nodup
  stored := by
    obtain ⟨-, hkind⟩ := object?_eq_some.1 hk
    intro i p hip
    rcases mem_map_update hip with ⟨rfl, rfl, -, -⟩ | ⟨hi, hip⟩
    · -- the updated entry is the key's own, with the new count in both copies
      have hkey : (⟨(o.withCounts { o.counts with refs := r }).kind, k.id⟩ : ObjectKey) = k := by
        rw [Obj.kind_withCounts, hkind]
      rw [hkey, Tracker.count?_put_self, Obj.counts_withCounts]
      exact ⟨rfl, hr⟩
    · have hne : (⟨p.kind, i⟩ : ObjectKey) ≠ k := fun he => hi (by rw [← he])
      rw [Tracker.count?_put_ne _ hne]
      exact h.stored i p hip
  removed := by
    obtain ⟨hl, hkind⟩ := object?_eq_some.1 hk
    intro k' c hc hk'
    rw [object?_eq] at hk'
    dsimp only at hk'
    by_cases hkk : k' = k
    · -- the key itself keeps its object, now with the new count
      subst hkk
      rw [lookup_map_update_self, hl] at hk'
      simp [Obj.kind_withCounts, hkind] at hk'
    · rw [Tracker.count?_put_ne _ hkk] at hc
      refine h.removed k' c hc ?_
      by_cases hid : k'.id = k.id
      · exact object?_eq_none_of_kind_ne hk hkk hid
      · rwa [object?_eq, ← lookup_map_update_ne hid (o.withCounts { o.counts with refs := r })]

/-- Removing a stored object, its tracked count set to zero. -/
theorem Agrees.remove (h : Agrees t m) {k : ObjectKey} {o : Obj} (hk : m.object? k = some o)
    (tr : Option Tracker) :
    Agrees (t.put k 0) { m with tracker := tr, objects := m.objects.filter fun (i, _) => i ≠ k.id } where
  ids_increase := (h.put_ids (h.isSome_count? hk) 0).1
  ids_lt := (h.put_ids (h.isSome_count? hk) 0).2
  ids_nodup := (List.Sublist.map Prod.fst List.filter_sublist).nodup h.ids_nodup
  stored := by
    intro i p hip
    obtain ⟨hip, hne⟩ := List.mem_filter.1 hip
    have hne : (⟨p.kind, i⟩ : ObjectKey) ≠ k := fun he => by
      subst he
      simp at hne
    rw [Tracker.count?_put_ne _ hne]
    exact h.stored i p hip
  removed := by
    intro k' c hc hk'
    by_cases hkk : k' = k
    · subst hkk
      rw [Tracker.count?_put_self] at hc
      exact (Option.some.inj hc).symm
    · rw [Tracker.count?_put_ne _ hkk] at hc
      refine h.removed k' c hc ?_
      by_cases hid : k'.id = k.id
      · exact object?_eq_none_of_kind_ne hk hkk hid
      · rw [object?_eq] at hk' ⊢
        dsimp only at hk'
        rwa [lookup_filter_ne hid] at hk'

/-! ### Live objects and leaks -/

theorem Agrees.keys_nodup (h : Agrees t m) : (t.counts.map Prod.fst).Nodup := by
  have hids : ((t.counts.map Prod.fst).map ObjectKey.id).Nodup := by
    rw [List.map_map]
    exact h.ids_increase.imp Nat.ne_of_lt
  exact List.Pairwise.of_map ObjectKey.id (fun a b hab he => hab (congrArg ObjectKey.id he)) hids

theorem Agrees.storedKeys_nodup (h : Agrees t m) : m.storedKeys.Nodup := by
  have hids : m.storedKeys.map ObjectKey.id = m.objects.map Prod.fst := by
    rw [storedKeys, List.map_map]
    rfl
  have hnodup : (m.storedKeys.map ObjectKey.id).Nodup := by
    rw [hids]
    exact h.ids_nodup
  exact List.Pairwise.of_map ObjectKey.id (fun a b hab he => hab (congrArg ObjectKey.id he)) hnodup

/-- The live keys of the tracker are the keys of the stored objects. -/
theorem Agrees.mem_live_iff (h : Agrees t m) (k : ObjectKey) :
    k ∈ (t.counts.filter fun (_, n) => 0 < n).map (·.1) ↔ k ∈ m.storedKeys := by
  constructor
  · intro hk
    obtain ⟨⟨k', n⟩, hmem, rfl⟩ := List.mem_map.1 hk
    obtain ⟨hmem, hpos⟩ := List.mem_filter.1 hmem
    have hc : t.count? k' = some n := lookup_of_mem h.keys_nodup hmem
    cases ho : m.object? k' with
    | none =>
      have := h.removed k' n hc ho
      simp only [decide_eq_true_eq] at hpos
      omega
    | some o =>
      obtain ⟨hl, hkind⟩ := object?_eq_some.1 ho
      refine List.mem_map.2 ⟨(k'.id, o), mem_of_lookup hl, ?_⟩
      simp only [hkind]
  · intro hk
    obtain ⟨⟨i, o⟩, hmem, rfl⟩ := List.mem_map.1 hk
    obtain ⟨hc, hpos⟩ := h.stored i o hmem
    refine List.mem_map.2 ⟨(⟨o.kind, i⟩, o.counts.refs), List.mem_filter.2 ⟨mem_of_lookup hc, ?_⟩, rfl⟩
    simpa using hpos

/-- The live keys, in report order, are the sorted keys of the stored objects. -/
theorem Agrees.live_eq (h : Agrees t m) : t.live = ObjectKey.sort m.storedKeys := by
  unfold Tracker.live
  apply ObjectKey.sort_eq_of_perm
  refine (List.perm_ext_iff_of_nodup ?_ h.storedKeys_nodup).2 h.mem_live_iff
  exact (List.Sublist.map Prod.fst List.filter_sublist).nodup h.keys_nodup

/-- Teardown reports exactly the stored objects as leaks, sorted, and succeeds when none is
left. -/
theorem Agrees.deinit_eq (hm : m.tracker = some t) (h : Agrees t m) :
    m.deinit = if m.objects = [] then .ok m.backend
      else .error (.leaks (ObjectKey.sort m.storedKeys)) := by
  have hlen : (ObjectKey.sort m.storedKeys).length = m.objects.length := by
    rw [ObjectKey.sort, List.length_mergeSort, storedKeys, List.length_map]
  simp only [deinit, hm, Tracker.checkLeaks, h.live_eq]
  by_cases he : m.objects = []
  · have hnil : ObjectKey.sort m.storedKeys = [] := by
      rw [← List.length_eq_zero_iff, hlen, he, List.length_nil]
    rw [if_pos he, hnil]
    rfl
  · have hne : ObjectKey.sort m.storedKeys ≠ [] := by
      intro h0
      rw [h0, List.length_nil, eq_comm, List.length_eq_zero_iff] at hlen
      exact he hlen
    obtain ⟨x, xs, hx⟩ := List.exists_cons_of_ne_nil hne
    rw [if_neg he, hx]
    rfl

end Agreement

end Machine

end QuantumRuntime
