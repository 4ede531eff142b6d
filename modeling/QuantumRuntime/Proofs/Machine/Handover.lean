import Mathlib
import QuantumRuntime.Proofs.Machine.Tracking
import QuantumRuntime.Proofs.Trace.InPlace

/-!
# Handing qubits back

An array made by allocating qubits owns them. It stops owning them in one of two ways: released as
a qubit array, or destroyed when its last reference is dropped while it still owns them. Either way
its handles go back to the backend one after another, and the first one the backend refuses stops
the release (`Backend.releaseAll`). `Machine.heldQubits` reads off which stored arrays own qubits
and the handles they hold.

`Handover m gone m'` says how ownership moves from machine `m` to machine `m'` when no array is
released as a qubit array and none is written: no array comes to own qubits, the owning arrays that
were destroyed are listed in `gone` in the order they went, each with its handles, and the backend
moved only by taking back the handles of each of them in turn, besides allocations and traced
operations (`Backend.Moves`). It composes (`Handover.trans`), and `Hands P x Q` is the Hoare triple
of requests that move ownership only this way, whether they succeed or fail.
-/

namespace QuantumRuntime

/-- The handles an array holds, one per item, in order. -/
def ItemArray.handles (a : ItemArray) : List Nat := a.items.map Word.decode

namespace Obj

/-- The handles of the qubits an object owns: those of an array that owns qubits. -/
def held : Obj → Option (List Nat)
  | array a => if a.ownsQubits then some a.handles else none
  | _ => none

/-- An object that owns qubits is a one-dimensional array of words, one handle per position. -/
def Shaped : Obj → Prop
  | array a => a.ownsQubits = true → a.itemSize = Word.size ∧ a.dims = [a.items.length]
  | _ => True

@[simp] theorem held_withCounts (o : Obj) (n : Counts) : (o.withCounts n).held = o.held := by
  cases o <;> rfl

theorem held_array {a : ItemArray} (h : a.ownsQubits = false) : (Obj.array a).held = none := by
  simp [Obj.held, h]

theorem held_of_kind_ne {o : Obj} (h : o.kind ≠ .array) : o.held = none := by
  cases o with
  | array a => exact absurd rfl h
  | tuple t => rfl
  | callable c => rfl

theorem Shaped.withCounts {o : Obj} (h : o.Shaped) (n : Counts) : (o.withCounts n).Shaped := by
  cases o with
  | array a => exact h
  | tuple t => trivial
  | callable c => trivial

theorem shaped_of_held {o : Obj} (h : o.held = none) : o.Shaped := by
  cases o with
  | array a =>
    intro ha
    simp [held, ha] at h
  | tuple t => trivial
  | callable c => trivial

end Obj

namespace Backend

/-- Takes qubits back one after another and stops at the first one the backend refuses: the
backend reached, and the refusal. -/
def releaseAll (b : Backend) : List Nat → Backend × Option BackendError
  | [] => (b, none)
  | q :: qs =>
    match b.releaseQubit ⟨q⟩ with
    | .ok b' => b'.releaseAll qs
    | .error e => (b, some e)

/-- How a backend moves while a program works on its objects. `Moves b hss b'`: from `b`, the
handles of each list of `hss` are taken back in turn with `releaseAll`, with qubit allocations and
traced single-qubit operations in between, and nothing else leads to `b'`. -/
inductive Moves : Backend → List (List Nat) → Backend → Prop
  | stay (b : Backend) : Moves b [] b
  | release {b b' : Backend} {qs : List Nat} {hss : List (List Nat)} :
      Moves (b.releaseAll qs).1 hss b' → Moves b (qs :: hss) b'
  | allocate {b b₁ b' : Backend} {q : Qubit} {hss : List (List Nat)} :
      b.allocateQubit = .ok (q, b₁) → Moves b₁ hss b' → Moves b hss b'
  | trace {t t₁ : Tracer} {b' : Backend} {op d : Int} {q : Qubit} {l : Option Nat}
      {hss : List (List Nat)} :
      t.traceSingle op d q = .ok (l, t₁) → Moves (.tracer t₁) hss b' → Moves (.tracer t) hss b'

theorem Moves.trans {b b₁ b₂ : Backend} {hss₁ hss₂ : List (List Nat)} (h₁ : Moves b hss₁ b₁)
    (h₂ : Moves b₁ hss₂ b₂) : Moves b (hss₁ ++ hss₂) b₂ := by
  induction h₁ with
  | stay => exact h₂
  | release _ ih => exact .release (ih h₂)
  | allocate hq _ ih => exact .allocate hq (ih h₂)
  | trace ht _ ih => exact .trace ht (ih h₂)

theorem Moves.release_one (b : Backend) (qs : List Nat) : Moves b [qs] (b.releaseAll qs).1 :=
  .release (.stay _)

end Backend

namespace Machine

/-! ### Owning arrays -/

/-- The handles of the qubits that the object stored under an id owns. -/
def heldQubits (m : Machine) (id : Nat) : Option (List Nat) := (m.objects.lookup id).bind Obj.held

theorem heldQubits_eq_some {m : Machine} {id : Nat} {hs : List Nat} :
    m.heldQubits id = some hs ↔ ∃ o, m.objects.lookup id = some o ∧ o.held = some hs :=
  Option.bind_eq_some_iff

theorem heldQubits_eq_none {m : Machine} {id : Nat} (h : m.objects.lookup id = none) :
    m.heldQubits id = none := by
  simp [heldQubits, h]

/-- What the store keeps true of qubit ownership: every stored id is below the next one, and every
array that owns qubits is shaped as a qubit array. -/
structure Owned (m : Machine) : Prop where
  ids_lt : ∀ id o, m.objects.lookup id = some o → id < m.nextId
  shaped : ∀ id o, m.objects.lookup id = some o → o.Shaped

theorem Owned.id_lt_of_held {m : Machine} (h : Owned m) {id : Nat} {hs : List Nat}
    (hh : m.heldQubits id = some hs) : id < m.nextId := by
  obtain ⟨o, hl, -⟩ := heldQubits_eq_some.1 hh
  exact h.ids_lt id o hl

theorem Owned.lookup_nextId {m : Machine} (h : Owned m) : m.objects.lookup m.nextId = none := by
  cases hl : m.objects.lookup m.nextId with
  | none => rfl
  | some p => exact absurd (h.ids_lt _ p hl) (Nat.lt_irrefl _)

theorem owned_new (backend : Backend) (track : Bool) : Owned (Machine.new backend track) :=
  ⟨fun _ _ h => absurd h.symm (Option.some_ne_none _),
    fun _ _ h => absurd h.symm (Option.some_ne_none _)⟩

/-! ### Handing ownership over -/

/-- How ownership of qubits moves from `m` to `m'`: no array comes to own qubits, and no array
stops owning them but by being destroyed; `gone` lists the owning arrays destroyed, in the order
they went, each with its handles, and the backend moved only by taking back the handles of each
of them in turn, besides allocating and tracing. An id that was free stays free, so an array once
destroyed never comes back. -/
structure Handover (m : Machine) (gone : List (Nat × List Nat)) (m' : Machine) : Prop where
  owned : Owned m'
  nextId_le : m.nextId ≤ m'.nextId
  untracked : m.tracker = none → m'.tracker = none
  stays_free : ∀ id, id < m.nextId → m.objects.lookup id = none → m'.objects.lookup id = none
  held_of_held : ∀ id hs, m'.heldQubits id = some hs → m.heldQubits id = some hs
  held_or_free : ∀ id hs, m.heldQubits id = some hs →
    m'.heldQubits id = some hs ∨ m'.objects.lookup id = none
  mem_gone : ∀ id hs, (id, hs) ∈ gone ↔ m.heldQubits id = some hs ∧ m'.objects.lookup id = none
  nodup : (gone.map Prod.fst).Nodup
  moves : Backend.Moves m.backend (gone.map Prod.snd) m'.backend

section Handover

variable {m m' : Machine}

/-- A step that keeps every owning array, frees no id and moves the backend without taking
qubits back hands nothing over. -/
theorem Handover.of_held (h' : Owned m') (hn : m.nextId ≤ m'.nextId)
    (ht : m.tracker = none → m'.tracker = none) (hb : Backend.Moves m.backend [] m'.backend)
    (hheld : ∀ id, m'.heldQubits id = m.heldQubits id)
    (hfree : ∀ id, id < m.nextId → m.objects.lookup id = none → m'.objects.lookup id = none) :
    Handover m [] m' where
  owned := h'
  nextId_le := hn
  untracked := ht
  stays_free := hfree
  held_of_held id hs hh := (hheld id).symm.trans hh
  held_or_free id hs hh := .inl ((hheld id).trans hh)
  mem_gone id hs := by
    refine ⟨fun hm => absurd hm List.not_mem_nil, fun hgone => ?_⟩
    obtain ⟨hh, hl⟩ := hgone
    have hh' : m'.heldQubits id = some hs := (hheld id).trans hh
    rw [heldQubits_eq_none hl] at hh'
    cases hh'
  nodup := List.nodup_nil
  moves := hb

theorem Handover.refl (h : Owned m) : Handover m [] m :=
  .of_held h le_rfl id (.stay _) (fun _ => rfl) fun _ _ hl => hl

/-- Arrays handed over in two stretches are all distinct when those of the first own nothing in
the machine between the stretches, where those of the second still own qubits. -/
theorem nodup_gone_append {g₁ g₂ : List (Nat × List Nat)} (m : Machine)
    (h₁ : (g₁.map Prod.fst).Nodup) (h₂ : (g₂.map Prod.fst).Nodup)
    (hfree : ∀ p ∈ g₁, m.heldQubits p.1 = none) (hheld : ∀ q ∈ g₂, (m.heldQubits q.1).isSome) :
    ((g₁ ++ g₂).map Prod.fst).Nodup := by
  rw [List.map_append, List.nodup_append]
  refine ⟨h₁, h₂, ?_⟩
  simp only [List.mem_map]
  rintro _ ⟨p, hp, rfl⟩ _ ⟨q, hq, rfl⟩ hpq
  have hs := hheld q hq
  rw [← hpq, hfree p hp] at hs
  cases hs

/-- Handing over in two steps hands over the arrays of both, in order. -/
theorem Handover.trans {m₂ : Machine} {g₁ g₂ : List (Nat × List Nat)} (h : Owned m)
    (h₁ : Handover m g₁ m') (h₂ : Handover m' g₂ m₂) : Handover m (g₁ ++ g₂) m₂ where
  owned := h₂.owned
  nextId_le := h₁.nextId_le.trans h₂.nextId_le
  untracked ht := h₂.untracked (h₁.untracked ht)
  stays_free id hid hl := h₂.stays_free id (lt_of_lt_of_le hid h₁.nextId_le) (h₁.stays_free id hid hl)
  held_of_held id hs hh := h₁.held_of_held id hs (h₂.held_of_held id hs hh)
  held_or_free id hs hh := by
    rcases h₁.held_or_free id hs hh with hh' | hl
    · exact h₂.held_or_free id hs hh'
    · exact .inr (h₂.stays_free id (lt_of_lt_of_le (h.id_lt_of_held hh) h₁.nextId_le) hl)
  mem_gone id hs := by
    rw [List.mem_append, h₁.mem_gone, h₂.mem_gone]
    constructor
    · rintro (⟨hh, hl⟩ | ⟨hh, hl⟩)
      · exact ⟨hh, h₂.stays_free id (lt_of_lt_of_le (h.id_lt_of_held hh) h₁.nextId_le) hl⟩
      · exact ⟨h₁.held_of_held id hs hh, hl⟩
    · rintro ⟨hh, hl⟩
      rcases h₁.held_or_free id hs hh with hh' | hl'
      · exact .inr ⟨hh', hl⟩
      · exact .inl ⟨hh, hl'⟩
  -- the first arrays are gone by the middle machine, where the second ones are still held
  nodup := nodup_gone_append m' h₁.nodup h₂.nodup
    (fun p hp => heldQubits_eq_none ((h₁.mem_gone p.1 p.2).1 hp).2)
    fun q hq => by rw [((h₂.mem_gone q.1 q.2).1 hq).1]; rfl
  moves := by
    rw [List.map_append]
    exact h₁.moves.trans h₂.moves

/-- A step that changes the store at one id at most, where the object owns what the old one
owned, hands nothing over. -/
theorem Handover.of_change (h : Owned m) (j : Nat)
    (hother : ∀ id, id ≠ j → m'.objects.lookup id = m.objects.lookup id)
    (hheld : m'.heldQubits j = m.heldQubits j)
    (hj : ∀ o, m'.objects.lookup j = some o → j < m'.nextId ∧ o.Shaped)
    (hfree : j < m.nextId → m.objects.lookup j = none → m'.objects.lookup j = none)
    (hn : m.nextId ≤ m'.nextId) (ht : m.tracker = none → m'.tracker = none)
    (hb : m'.backend = m.backend) : Handover m [] m' := by
  refine .of_held ⟨fun id o hl => ?_, fun id o hl => ?_⟩ hn ht (hb ▸ .stay _) (fun id => ?_)
    fun id hid hl => ?_
  · by_cases hid : id = j
    · subst hid
      exact (hj o hl).1
    · rw [hother id hid] at hl
      exact lt_of_lt_of_le (h.ids_lt id o hl) hn
  · by_cases hid : id = j
    · subst hid
      exact (hj o hl).2
    · rw [hother id hid] at hl
      exact h.shaped id o hl
  · by_cases hid : id = j
    · subst hid
      exact hheld
    · simp only [heldQubits, hother id hid]
  · by_cases hid' : id = j
    · subst hid'
      exact hfree hid hl
    · rw [hother id hid']
      exact hl

/-- A step that leaves the objects as they were hands nothing over. -/
theorem Handover.of_objects (h : Owned m) (ho : m'.objects = m.objects) (hn : m.nextId ≤ m'.nextId)
    (ht : m.tracker = none → m'.tracker = none) (hb : m'.backend = m.backend) :
    Handover m [] m' := by
  refine .of_change h 0 (fun id _ => by rw [ho]) (by simp only [heldQubits, ho]) (fun o hl => ?_)
    (fun _ hl => by rw [ho]; exact hl) hn ht hb
  rw [ho] at hl
  exact ⟨lt_of_lt_of_le (h.ids_lt 0 o hl) hn, h.shaped 0 o hl⟩

theorem Handover.of_frames (h : Owned m) (hs : store m' = store m) (hb : m'.backend = m.backend) :
    Handover m [] m' :=
  have ht : m'.tracker = m.tracker := congrArg (·.1) hs
  .of_objects h (congrArg (·.2.2) hs) (congrArg (·.2.1) hs).ge (fun h => ht.trans h) hb

/-- Storing an object that owns nothing under the next id hands nothing over. -/
theorem Handover.insert (h : Owned m) {o : Obj} (hheld : o.held = none) (hshape : o.Shaped)
    (ho : m'.objects = m.objects ++ [(m.nextId, o)]) (hn : m'.nextId = m.nextId + 1)
    (ht : m.tracker = none → m'.tracker = none) (hb : m'.backend = m.backend) :
    Handover m [] m' := by
  have hfresh := h.lookup_nextId
  have hnew : m'.objects.lookup m.nextId = some o := by
    simp [ho, List.lookup_append, hfresh]
  refine .of_change h m.nextId (fun id hid => ?_) ?_ (fun p hp => ?_) (fun hlt => absurd hlt (Nat.lt_irrefl _))
    (by omega) ht hb
  · have hne : (id == m.nextId) = false := beq_false_of_ne hid
    rw [ho, List.lookup_append, List.lookup_cons, hne, List.lookup_nil, Option.or_none]
  · rw [heldQubits_eq_none hfresh]
    simp [heldQubits, hnew, hheld]
  · rw [hnew] at hp
    cases hp
    exact ⟨by omega, hshape⟩

/-- Replacing a stored object by one that owns the same qubits, and is shaped, hands nothing
over. -/
theorem Handover.update (h : Owned m) {j : Nat} {p o : Obj} (hp : m.objects.lookup j = some p)
    (hheld : o.held = p.held) (hshape : o.Shaped)
    (ho : m'.objects = m.objects.map fun (i, q) => if i = j then (i, o) else (i, q))
    (hn : m'.nextId = m.nextId) (ht : m.tracker = none → m'.tracker = none)
    (hb : m'.backend = m.backend) : Handover m [] m' := by
  have hnew : m'.objects.lookup j = some o := by
    rw [ho, lookup_map_update_self, hp]
    rfl
  refine .of_change h j (fun id hid => by rw [ho]; exact lookup_map_update_ne hid o _) ?_
    (fun q hq => ?_) (fun _ hl => by rw [hp] at hl; cases hl) (by omega) ht hb
  · simp [heldQubits, hnew, hp, hheld]
  · rw [hnew] at hq
    cases hq
    exact ⟨by rw [hn]; exact h.ids_lt j p hp, hshape⟩

/-- Removing a stored object that owns nothing hands nothing over. -/
theorem Handover.remove (h : Owned m) {j : Nat} {p : Obj} (hp : m.objects.lookup j = some p)
    (hheld : p.held = none) (ho : m'.objects = m.objects.filter fun (i, _) => i ≠ j)
    (hn : m'.nextId = m.nextId) (ht : m.tracker = none → m'.tracker = none)
    (hb : m'.backend = m.backend) : Handover m [] m' := by
  have hgone : m'.objects.lookup j = none := by
    rw [ho]
    exact lookup_filter_self j _
  refine .of_change h j (fun id hid => by rw [ho]; exact lookup_filter_ne hid _) ?_
    (fun q hq => by rw [hgone] at hq; cases hq) (fun _ _ => hgone) (by omega) ht hb
  rw [heldQubits_eq_none hgone]
  simp [heldQubits, hp, hheld]

/-- Removing a stored array that owns qubits, and taking its handles back, hands that array over. -/
theorem Handover.drop (h : Owned m) {j : Nat} {p : Obj} {hs : List Nat}
    (hp : m.objects.lookup j = some p) (hheld : p.held = some hs)
    (ho : m'.objects = m.objects.filter fun (i, _) => i ≠ j) (hn : m'.nextId = m.nextId)
    (ht : m.tracker = none → m'.tracker = none) (hb : m'.backend = (m.backend.releaseAll hs).1) :
    Handover m [(j, hs)] m' := by
  have hgone : m'.objects.lookup j = none := by
    rw [ho]
    exact lookup_filter_self j _
  have hother : ∀ id, id ≠ j → m'.objects.lookup id = m.objects.lookup id := fun id hid => by
    rw [ho]
    exact lookup_filter_ne hid _
  have hheldj : m.heldQubits j = some hs := heldQubits_eq_some.2 ⟨p, hp, hheld⟩
  -- every id but `j` looks up as before
  have hne : ∀ id, m'.objects.lookup id ≠ none → id ≠ j := fun id hl hid => hl (hid ▸ hgone)
  refine ⟨⟨fun id o hl => ?_, fun id o hl => ?_⟩, by omega, ht, fun id hid hl => ?_,
    fun id hs' hh => ?_, fun id hs' hh => ?_, fun id hs' => ?_, List.nodup_singleton j,
    hb ▸ Backend.Moves.release_one _ _⟩
  · have hid := hne id (by rw [hl]; exact Option.some_ne_none o)
    rw [hother id hid] at hl
    rw [hn]
    exact h.ids_lt id o hl
  · have hid := hne id (by rw [hl]; exact Option.some_ne_none o)
    rw [hother id hid] at hl
    exact h.shaped id o hl
  · by_cases hid' : id = j
    · rw [hid']
      exact hgone
    · rw [hother id hid']
      exact hl
  · obtain ⟨o, hl, ho'⟩ := heldQubits_eq_some.1 hh
    have hid := hne id (by rw [hl]; exact Option.some_ne_none o)
    rw [hother id hid] at hl
    exact heldQubits_eq_some.2 ⟨o, hl, ho'⟩
  · by_cases hid : id = j
    · exact .inr (hid ▸ hgone)
    · left
      simp only [heldQubits, hother id hid]
      exact hh
  · rw [List.mem_singleton, Prod.mk.injEq]
    constructor
    · rintro ⟨rfl, rfl⟩
      exact ⟨hheldj, hgone⟩
    · rintro ⟨hh, hl⟩
      by_cases hid : id = j
      · subst hid
        rw [hheldj] at hh
        exact ⟨rfl, (Option.some.inj hh).symm⟩
      · rw [hother id hid] at hl
        obtain ⟨o, hl', -⟩ := heldQubits_eq_some.1 hh
        rw [hl] at hl'
        cases hl'

end Handover

/-! ### What the store primitives do -/

section Primitives

/-- Storing an object takes the next id; the backend stays, and an untracked machine stays
untracked. A tracker that refuses the key fails the request after the id is taken. -/
theorem insert_spec (o : Obj) (m : Machine) :
    match insert o m with
    | .ok id m' => id = m.nextId ∧ m'.objects = m.objects ++ [(m.nextId, o)] ∧
        m'.nextId = m.nextId + 1 ∧ m'.backend = m.backend ∧ (m.tracker = none → m'.tracker = none)
    | .error _ m' => m'.objects = m.objects ∧ m'.nextId = m.nextId + 1 ∧ m'.backend = m.backend ∧
        m'.tracker = m.tracker := by
  unfold insert freshId onTracker
  cases ht : m.tracker with
  | none => simp [ht]
  | some t =>
    cases ha : t.allocate ⟨o.kind, m.nextId⟩ with
    | ok t' => simp [ht, ha]
    | error e => simp [ht, ha]

/-- The store after a change of reference counts that destroys nothing: the objects as they were,
or the object of the key with new counts. The backend and the next id stay, and an untracked
machine stays untracked. -/
structure Recount (k : ObjectKey) (m m' : Machine) : Prop where
  backend : m'.backend = m.backend
  nextId : m'.nextId = m.nextId
  untracked : m.tracker = none → m'.tracker = none
  objects : m'.objects = m.objects ∨ ∃ o n, m.object? k = some o ∧
    m'.objects = m.objects.map fun (i, p) => if i = k.id then (i, o.withCounts n) else (i, p)

theorem Recount.refl (k : ObjectKey) (m : Machine) : Recount k m m := ⟨rfl, rfl, id, .inl rfl⟩

theorem object?_setTracker (m : Machine) (t : Option Tracker) (k : ObjectKey) :
    ({ m with tracker := t } : Machine).object? k = m.object? k := rfl

/-- Adding references rewrites the counts of the object at most. -/
theorem addRefs_spec (k : ObjectKey) (n : Nat) (m : Machine) : Recount k m (final (addRefs k n m)) := by
  cases n with
  | zero => exact Recount.refl k m
  | succ n =>
    cases ht : m.tracker with
    | none =>
      cases ho : m.object? k with
      | none => simp [addRefs, ht, getObject_eq, ho, final, Recount.refl]
      | some o =>
        simp only [addRefs, ht, getObject_eq, ho, run_bind, run_get, setObject_eq, final]
        exact ⟨rfl, rfl, fun _ => rfl, .inr ⟨o, _, ho, rfl⟩⟩
    | some t =>
      cases hc : t.count? k with
      | none => simp [addRefs, ht, hc, final, Recount.refl]
      | some c =>
        cases c with
        | zero => simp [addRefs, ht, hc, final, Recount.refl]
        | succ c =>
          cases ho : m.object? k with
          | none =>
            simp only [addRefs, ht, hc, getObject_eq, object?_setTracker, ho, run_bind, run_get,
              run_set, final]
            exact ⟨rfl, rfl, fun h => absurd (ht.symm.trans h) (Option.some_ne_none _), .inl rfl⟩
          | some o =>
            simp only [addRefs, ht, hc, getObject_eq, object?_setTracker, ho, run_bind, run_get,
              run_set, run_modify, setObject_eq, final]
            exact ⟨rfl, rfl, fun h => absurd (ht.symm.trans h) (Option.some_ne_none _), .inr ⟨o, _, ho, rfl⟩⟩

/-- Dropping references destroys the object, giving it back, or rewrites its counts at most. -/
theorem releaseRefs_spec (k : ObjectKey) (n : Nat) (m : Machine) :
    match releaseRefs k n m with
    | .ok (some o) m' => m.object? k = some o ∧
        m'.objects = m.objects.filter (fun (i, _) => i ≠ k.id) ∧ m'.backend = m.backend ∧
        m'.nextId = m.nextId ∧ (m.tracker = none → m'.tracker = none)
    | .ok none m' => Recount k m m'
    | .error _ m' => Recount k m m' := by
  cases n with
  | zero => exact Recount.refl k m
  | succ n =>
    cases ho : m.object? k with
    | none =>
      cases ht : m.tracker with
      | none => simp [releaseRefs, ho, ht, Recount.refl]
      | some t =>
        cases hc : t.count? k with
        | none => simp [releaseRefs, ho, ht, hc, Recount.refl]
        | some c =>
          cases c with
          | zero => simp [releaseRefs, ho, ht, hc, Recount.refl]
          | succ c =>
            simp only [releaseRefs, ho, ht, hc, run_bind, run_get, run_set]
            exact ⟨rfl, rfl, fun h => absurd (ht.symm.trans h) (Option.some_ne_none _), .inl rfl⟩
    | some o =>
      by_cases hlt : o.counts.refs < n + 1
      · have hle : o.counts.refs ≤ n := by omega
        simp [releaseRefs, ho, hle, Recount.refl]
      · have hle : ¬o.counts.refs ≤ n := by omega
        cases ht : m.tracker with
        | none =>
          by_cases heq : o.counts.refs = n + 1
          · simp only [releaseRefs, ho, ht, heq, run_bind, run_get, removeObject_eq, run_pure,
              lt_self_iff_false, if_false, if_true, and_self, implies_true]
          · simp only [releaseRefs, ho, hlt, ht, heq, run_bind, run_get, setObject_eq, run_pure,
              if_false]
            exact ⟨rfl, rfl, fun _ => rfl, .inr ⟨o, _, ho, rfl⟩⟩
        | some t =>
          cases hc : t.count? k with
          | none => simp [releaseRefs, ho, hle, ht, hc, Recount.refl]
          | some c =>
            by_cases hcl : c < n + 1
            · simp only [releaseRefs, ho, hlt, ht, hc, hcl, run_bind, run_get, run_set, setObject_eq,
                run_throw, if_false, if_true]
              exact ⟨rfl, rfl, fun h => absurd (ht.symm.trans h) (Option.some_ne_none _), .inr ⟨o, _, ho, rfl⟩⟩
            · by_cases heq : o.counts.refs = n + 1
              · simp only [releaseRefs, ho, ht, hc, hcl, heq, run_bind, run_get, run_set,
                  removeObject_eq, run_pure, lt_self_iff_false, if_false, if_true]
                exact ⟨trivial, trivial, trivial, trivial, fun h => absurd h (Option.some_ne_none _)⟩
              · simp only [releaseRefs, ho, hlt, ht, hc, hcl, heq, run_bind, run_get, run_set,
                  setObject_eq, run_pure, if_false]
                exact ⟨rfl, rfl, fun h => absurd (ht.symm.trans h) (Option.some_ne_none _), .inr ⟨o, _, ho, rfl⟩⟩

/-- Changing a reference count destroys the object, giving it back, or rewrites its counts at
most. -/
theorem updateRefs_spec (k : ObjectKey) (increment : Int) (m : Machine) :
    match updateRefs k increment m with
    | .ok (some o) m' => m.object? k = some o ∧
        m'.objects = m.objects.filter (fun (i, _) => i ≠ k.id) ∧ m'.backend = m.backend ∧
        m'.nextId = m.nextId ∧ (m.tracker = none → m'.tracker = none)
    | .ok none m' => Recount k m m'
    | .error _ m' => Recount k m m' := by
  by_cases hinc : 0 ≤ increment
  · have hr := addRefs_spec k increment.toNat m
    rw [updateRefs, if_pos hinc, run_bind]
    cases hx : addRefs k increment.toNat m with
    | ok u s =>
      rw [hx] at hr
      exact hr
    | error e s =>
      rw [hx] at hr
      exact hr
  · rw [updateRefs, if_neg hinc]
    exact releaseRefs_spec k increment.natAbs m

/-- A recount hands nothing over. -/
theorem Handover.of_recount {k : ObjectKey} {m m' : Machine} (h : Owned m) (hr : Recount k m m') :
    Handover m [] m' := by
  rcases hr.objects with ho | ⟨o, n, hk, ho⟩
  · exact .of_objects h ho hr.nextId.ge hr.untracked hr.backend
  · have hl := (object?_eq_some.1 hk).1
    exact .update h hl (Obj.held_withCounts o n) ((h.shaped _ o hl).withCounts n) ho hr.nextId
      hr.untracked hr.backend

theorem onBackend_eq {α : Type} (f : Backend → Except BackendError (α × Backend)) (m : Machine) :
    onBackend f m = match f m.backend with
      | .ok (a, b) => .ok a { m with backend := b }
      | .error e => .error (.backend e) m := by
  simp only [onBackend, run_bind, run_get]
  cases f m.backend <;> rfl

/-- Releasing qubits through the backend takes them back one after another and stops at the first
one the backend refuses, keeping what was taken back until then. -/
theorem forM_releaseQubit (qs : List Nat) (m : Machine) :
    (qs.forM fun q => onBackend fun b => (b.releaseQubit ⟨q⟩).map ((), ·)) m =
      match (m.backend.releaseAll qs).2 with
      | none => .ok () { m with backend := (m.backend.releaseAll qs).1 }
      | some e => .error (.backend e) { m with backend := (m.backend.releaseAll qs).1 } := by
  induction qs generalizing m with
  | nil => rfl
  | cons q qs ih =>
    show ((onBackend fun b => (b.releaseQubit ⟨q⟩).map ((), ·)) >>= fun _ => qs.forM _) m = _
    rw [run_bind, onBackend_eq]
    cases hq : m.backend.releaseQubit ⟨q⟩ with
    | ok b =>
      simp only [Except.map, Backend.releaseAll, hq]
      exact ih _
    | error e => simp only [Except.map, Backend.releaseAll, hq]

theorem releaseQubitsOf_eq (a : ItemArray) (m : Machine) :
    releaseQubitsOf a m =
      match (m.backend.releaseAll a.handles).2 with
      | none => .ok () { m with backend := (m.backend.releaseAll a.handles).1 }
      | some e => .error (.backend e) { m with backend := (m.backend.releaseAll a.handles).1 } :=
  forM_releaseQubit _ m

/-- A traced single-qubit operation moves the tracer that serves as the backend, if one does, and
nothing else. -/
theorem Handover.of_traceSingleOp {m : Machine} (h : Owned m) {op d : Int} {q : Qubit}
    {r : EStateM.Result TracingError Machine Unit} (hr : traceSingleOp op d q m = r) :
    Handover m [] (final r) := by
  subst hr
  unfold traceSingleOp
  rw [final_discard]
  unfold onTracer
  split
  · next t hbt =>
    -- in place, the trace is its transaction
    rw [Tracer.InPlace.traceSingle_eq]
    unfold Tracer.transact
    cases ht : t.traceSingle op d q with
    | ok p =>
      obtain ⟨l, t₁⟩ := p
      simp only [ht, final]
      exact .of_held ⟨h.ids_lt, h.shaped⟩ le_rfl id (hbt ▸ .trace ht (.stay _)) (fun _ => rfl)
        fun _ _ hl => hl
    | error e =>
      have hm : ({ m with backend := .tracer t } : Machine) = m := by rw [← hbt]
      simp only [ht, final, hm]
      exact Handover.refl h
  · exact Handover.refl h

theorem final_releaseQubitsOf (a : ItemArray) (m : Machine) :
    final (releaseQubitsOf a m) = { m with backend := (m.backend.releaseAll a.handles).1 } := by
  rw [releaseQubitsOf_eq]
  split <;> rfl

end Primitives

/-- Destroying an array that owns qubits and taking its handles back hands that array over,
whether the backend takes them all back or refuses one. -/
theorem Handover.release {m s : Machine} (h : Owned m) {j : Nat} {a : ItemArray}
    (hl : m.objects.lookup j = some (.array a)) (ha : a.ownsQubits = true)
    (ho : s.objects = m.objects.filter fun (i, _) => i ≠ j) (hn : s.nextId = m.nextId)
    (ht : m.tracker = none → s.tracker = none) (hb : s.backend = m.backend) :
    Handover m [(j, a.handles)] (final (releaseQubitsOf a s)) := by
  rw [final_releaseQubitsOf]
  exact Handover.drop h hl (by simp [Obj.held, ha]) ho hn ht (by rw [hb])

/-! ### Requests that hand ownership over -/

/-- Run from a machine whose store is `Owned` and that satisfies `P`, a request hands ownership
over, as `Handover` says, to the arrays it destroys, whether it succeeds or fails; when it
succeeds, its value and the machine satisfy `Q`. -/
def Hands {α : Type} (P : Machine → Prop) (x : Exec α) (Q : α → Machine → Prop) : Prop :=
  ∀ m, Owned m → P m → ∃ gone, match x m with
    | .ok a m' => Handover m gone m' ∧ Q a m'
    | .error _ m' => Handover m gone m'

section Rules

variable {α β : Type} {P : Machine → Prop}

theorem Hands.pure (a : α) : Hands P (pure a) fun b m => P m ∧ b = a :=
  fun _ h hp => ⟨[], Handover.refl h, hp, rfl⟩

theorem Hands.throw {Q : α → Machine → Prop} (e : MachineError) : Hands P (throw e : Exec α) Q :=
  fun _ h _ => ⟨[], Handover.refl h⟩

theorem Hands.throw_bind {f : α → Exec β} {Q : β → Machine → Prop} (e : MachineError) :
    Hands P (MonadExcept.throw e >>= f) Q :=
  fun _ h _ => ⟨[], Handover.refl h⟩

/-- Sequencing hands over what the first request hands over, then what the second does. -/
theorem Hands.bind {x : Exec α} {f : α → Exec β} {R : α → Machine → Prop} {Q : β → Machine → Prop}
    (hx : Hands P x R) (hf : ∀ a, Hands (R a) (f a) Q) : Hands P (x >>= f) Q := by
  intro m h hp
  obtain ⟨g₁, h₁⟩ := hx m h hp
  rw [run_bind]
  cases hxm : x m with
  | ok a s =>
    rw [hxm] at h₁
    obtain ⟨g₂, h₂⟩ := hf a s h₁.1.owned h₁.2
    refine ⟨g₁ ++ g₂, ?_⟩
    dsimp only
    cases hfs : f a s with
    | ok b s' =>
      rw [hfs] at h₂
      exact ⟨h₁.1.trans h h₂.1, h₂.2⟩
    | error e s' =>
      rw [hfs] at h₂
      exact h₁.1.trans h h₂
  | error e s =>
    rw [hxm] at h₁
    exact ⟨g₁, h₁⟩

/-- The rule of consequence: a stronger precondition and a weaker postcondition. -/
theorem Hands.mono {x : Exec α} {Q Q' : α → Machine → Prop} {P' : Machine → Prop}
    (h : Hands P x Q) (hP : ∀ m, P' m → P m) (hQ : ∀ a m, Q a m → Q' a m) : Hands P' x Q' := by
  intro m hm hp
  obtain ⟨gone, hg⟩ := h m hm (hP m hp)
  refine ⟨gone, ?_⟩
  split at hg
  · next a m' hx => exact ⟨hg.1, hQ a m' hg.2⟩
  · next e m' hx => exact hg

/-- Forgetting what a request establishes keeps what it hands over. -/
theorem Hands.forget {x : Exec α} {Q : α → Machine → Prop} (h : Hands P x Q) :
    Hands P x fun _ _ => True :=
  h.mono (fun _ h => h) fun _ _ _ => trivial

/-- A request that needs no precondition runs under any. -/
theorem Hands.of_true {x : Exec α} {Q : α → Machine → Prop} (h : Hands (fun _ => True) x Q) :
    Hands P x Q :=
  h.mono (fun _ _ => trivial) fun _ _ h => h

/-- Run from an owned machine satisfying its precondition, a request hands some arrays over,
whichever way it ends. -/
theorem Hands.handover_final {x : Exec α} {Q : α → Machine → Prop} (hx : Hands P x Q)
    {m : Machine} (h : Owned m) (hp : P m) : ∃ gone, Handover m gone (final (x m)) := by
  obtain ⟨gone, hg⟩ := hx m h hp
  refine ⟨gone, ?_⟩
  cases hxm : x m with
  | ok a s =>
    rw [hxm] at hg
    exact hg.1
  | error e s =>
    rw [hxm] at hg
    exact hg

theorem Hands.get : Hands P (get : Exec Machine) fun a m => P m ∧ a = m :=
  fun _ h hp => ⟨[], Handover.refl h, hp, rfl⟩

theorem Hands.ret (a : α) : Hands P (Pure.pure a : Exec α) fun _ _ => True :=
  (Hands.pure a).forget

theorem Hands.check (e : Except MachineError α) : Hands P (check e) fun a m => P m ∧ e = .ok a := by
  cases e with
  | error e => exact Hands.throw e
  | ok a => exact (Hands.pure a).mono (fun _ h => h) fun _ _ ⟨h, hb⟩ => ⟨h, hb ▸ rfl⟩

theorem Hands.ite {c : Prop} [Decidable c] {x y : Exec α} {Q : α → Machine → Prop}
    (hx : c → Hands P x Q) (hy : ¬c → Hands P y Q) : Hands P (if c then x else y) Q := by
  split
  · next h => exact hx h
  · next h => exact hy h

/-- A fact about the values read so far may be moved out of the precondition. -/
theorem Hands.assume {c : Prop} {x : Exec α} {Q : α → Machine → Prop} (h : c → Hands P x Q) :
    Hands (fun m => P m ∧ c) x Q :=
  fun m hm ⟨hp, hc⟩ => h hc m hm hp

/-- A request run for its outcome hands over what it does either way. -/
theorem Hands.attempt {x : Exec α} {Q : α → Machine → Prop} (h : Hands P x Q) :
    Hands P (attempt x) fun r m => ∀ a, r = .ok a → Q a m := by
  intro m hm hp
  obtain ⟨gone, hg⟩ := h m hm hp
  refine ⟨gone, ?_⟩
  unfold Machine.attempt
  cases hxm : x m with
  | ok a s =>
    rw [hxm] at hg
    exact ⟨hg.1, fun b hb => by cases hb; exact hg.2⟩
  | error e s =>
    rw [hxm] at hg
    exact ⟨hg, fun b hb => by cases hb⟩

theorem Hands.map {x : Exec α} {Q : α → Machine → Prop} (f : α → β) (h : Hands P x Q) :
    Hands P (f <$> x) fun _ _ => True := by
  intro m hm hp
  obtain ⟨gone, hg⟩ := h m hm hp
  refine ⟨gone, ?_⟩
  rw [run_map]
  cases hxm : x m with
  | ok a s =>
    rw [hxm] at hg
    exact ⟨hg.1, trivial⟩
  | error e s =>
    rw [hxm] at hg
    exact hg

/-- A request that changes nothing of the store or the backend hands nothing over. -/
theorem Hands.of_frames {x : Exec α} (hf : Frames x) (hb : ∀ m, (final (x m)).backend = m.backend) :
    Hands P x fun _ _ => True := by
  intro m h _
  refine ⟨[], ?_⟩
  have hs := hf m
  have hbm := hb m
  cases hxm : x m with
  | ok a s =>
    rw [hxm] at hs hbm
    exact ⟨Handover.of_frames h hs hbm, trivial⟩
  | error e s =>
    rw [hxm] at hs hbm
    exact Handover.of_frames h hs hbm

theorem Hands.modify {f : Machine → Machine} (hs : ∀ m, store (f m) = store m)
    (hb : ∀ m, (f m).backend = m.backend) : Hands P (modify f : Exec Unit) fun _ _ => True :=
  Hands.of_frames (Frames.modify hs) hb

end Rules

/-! ### The store primitives as requests -/

section Specs

variable {α : Type} {P : Machine → Prop}

theorem Hands.getObject (k : ObjectKey) :
    Hands P (getObject k) fun o m => P m ∧ m.object? k = some o := by
  intro m h hp
  rw [getObject_eq]
  cases hk : m.object? k with
  | none => exact ⟨[], Handover.refl h⟩
  | some o => exact ⟨[], Handover.refl h, hp, hk⟩

theorem Hands.getArray (id : Nat) :
    Hands P (getArray id) fun a m => P m ∧ m.object? ⟨.array, id⟩ = some (.array a) := by
  unfold Machine.getArray
  refine Hands.bind (Hands.getObject _) fun o => ?_
  cases o with
  | array a => exact (Hands.pure a).mono (fun _ h => h) fun _ _ ⟨h, hb⟩ => hb ▸ h
  | tuple _ => exact Hands.throw _
  | callable _ => exact Hands.throw _

theorem Hands.getTuple (id : Nat) :
    Hands P (getTuple id) fun t m => P m ∧ m.object? ⟨.tuple, id⟩ = some (.tuple t) := by
  unfold Machine.getTuple
  refine Hands.bind (Hands.getObject _) fun o => ?_
  cases o with
  | tuple t => exact (Hands.pure t).mono (fun _ h => h) fun _ _ ⟨h, hb⟩ => hb ▸ h
  | array _ => exact Hands.throw _
  | callable _ => exact Hands.throw _

theorem Hands.getCallable (id : Nat) :
    Hands P (getCallable id) fun c m => P m ∧ m.object? ⟨.callable, id⟩ = some (.callable c) := by
  unfold Machine.getCallable
  refine Hands.bind (Hands.getObject _) fun o => ?_
  cases o with
  | callable c => exact (Hands.pure c).mono (fun _ h => h) fun _ _ ⟨h, hb⟩ => hb ▸ h
  | array _ => exact Hands.throw _
  | tuple _ => exact Hands.throw _

/-- Storing an object that owns nothing hands nothing over, and the new id owns nothing. -/
theorem Hands.insert {o : Obj} (hheld : o.held = none) (hshape : o.Shaped) :
    Hands P (insert o) fun id m => m.heldQubits id = none := by
  intro m h _
  refine ⟨[], ?_⟩
  have hs := insert_spec o m
  cases hx : Machine.insert o m with
  | ok id m' =>
    rw [hx] at hs
    obtain ⟨rfl, ho, hn, hb, ht⟩ := hs
    have hover := Handover.insert h hheld hshape ho hn ht hb
    refine ⟨hover, ?_⟩
    -- the new id owned nothing before, and no array comes to own qubits
    cases hq : m'.heldQubits m.nextId with
    | none => exact hq
    | some hs =>
      have := hover.held_of_held _ hs hq
      rw [heldQubits_eq_none h.lookup_nextId] at this
      cases this
  | error e m' =>
    rw [hx] at hs
    obtain ⟨ho, hn, hb, ht⟩ := hs
    exact Handover.of_objects h ho (by omega) (fun h' => ht.trans h') hb

/-- Writing back an object that owns what the stored one owns, and is shaped if that one is. -/
theorem Hands.setObject {id : Nat} {p o : Obj} (hheld : o.held = p.held)
    (hshape : p.Shaped → o.Shaped) :
    Hands (fun m => m.objects.lookup id = some p) (setObject id o) fun _ _ => True := by
  intro m h hp
  rw [setObject_eq]
  exact ⟨[], Handover.update h hp hheld (hshape (h.shaped id p hp)) rfl rfl (fun h => h) rfl,
    trivial⟩

theorem Hands.writeBack {Q : Machine → Prop} {kind : ObjectKind} {id : Nat} {p o : Obj}
    (hheld : o.held = p.held) (hshape : p.Shaped → o.Shaped) :
    Hands (fun m => Q m ∧ m.object? ⟨kind, id⟩ = some p) (Machine.setObject id o) fun _ _ => True :=
  (Hands.setObject hheld hshape).mono (fun _ h => (object?_eq_some.1 h.2).1) fun _ _ h => h

/-- Changing the reference count of an object that is not an array hands nothing over. -/
theorem Hands.updateRefs {k : ObjectKey} (hk : k.kind ≠ .array) (increment : Int) :
    Hands P (updateRefs k increment) fun _ _ => True := by
  intro m h _
  refine ⟨[], ?_⟩
  have hu := updateRefs_spec k increment m
  cases hx : Machine.updateRefs k increment m with
  | ok r s =>
    rw [hx] at hu
    cases r with
    | none => exact ⟨Handover.of_recount h hu, trivial⟩
    | some o =>
      obtain ⟨hk', ho, hb, hn, ht⟩ := hu
      obtain ⟨hl, hkind⟩ := object?_eq_some.1 hk'
      exact ⟨Handover.remove h hl (Obj.held_of_kind_ne fun he => hk (hkind.symm.trans he)) ho hn ht
        hb, trivial⟩
  | error e s =>
    rw [hx] at hu
    exact Handover.of_recount h hu

/-- Changing the reference count of an array hands it over when it is destroyed while it owns
qubits: its handles go back to the backend. -/
theorem Hands.arrayUpdateRefs (id : Option Nat) (increment : Int) :
    Hands P (arrayUpdateRefs id increment) fun _ _ => True := by
  intro m h _
  cases id with
  | none => exact ⟨[], Handover.refl h, trivial⟩
  | some id =>
    have hu := updateRefs_spec ⟨.array, id⟩ increment m
    simp only [Machine.arrayUpdateRefs, run_bind]
    cases hx : Machine.updateRefs ⟨.array, id⟩ increment m with
    | error e s =>
      rw [hx] at hu
      exact ⟨[], Handover.of_recount h hu⟩
    | ok r s =>
      rw [hx] at hu
      rcases r with _ | o
      · exact ⟨[], Handover.of_recount h hu, trivial⟩
      obtain ⟨hk, ho, hb, hn, ht⟩ := hu
      have hl := (object?_eq_some.1 hk).1
      -- an owning array goes back to the backend; anything else is removed and nothing more
      cases o with
      | array a =>
        cases ha : a.ownsQubits with
        | false =>
          refine ⟨[], ?_⟩
          simp only [ha, Bool.false_eq_true, if_false, run_pure]
          exact ⟨Handover.remove h hl (Obj.held_array ha) ho hn ht hb, trivial⟩
        | true =>
          have hd := Handover.release h hl ha ho hn ht hb
          refine ⟨[(id, a.handles)], ?_⟩
          simp only [ha, if_true]
          cases hr : releaseQubitsOf a s with
          | ok u s' =>
            rw [hr] at hd
            exact ⟨hd, trivial⟩
          | error e s' =>
            rw [hr] at hd
            exact hd
      | tuple _ => exact ⟨[], Handover.remove h hl rfl ho hn ht hb, trivial⟩
      | callable _ => exact ⟨[], Handover.remove h hl rfl ho hn ht hb, trivial⟩

theorem Hands.updateAliases (k : ObjectKey) (increment : Int) :
    Hands P (updateAliases k increment) fun _ _ => True := by
  unfold Machine.updateAliases
  refine Hands.bind (Hands.getObject k) fun o => ?_
  dsimp only
  -- the alias count never touches what the object owns
  exact Hands.ite (fun _ => Hands.throw_bind _) fun _ =>
    Hands.writeBack (Obj.held_withCounts _ _) fun hs => hs.withCounts _

end Specs

end Machine

end QuantumRuntime
