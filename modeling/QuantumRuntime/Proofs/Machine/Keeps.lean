import Mathlib
import QuantumRuntime.Proofs.Machine.Agreement

/-!
# Requests that keep allocation tracking in agreement

A request of a running program is a state transformer that may fail and keeps the state it
reached when it does. `Keeps ks P x Q` is a Hoare triple for such requests, specialised to the
invariant of allocation tracking: from a machine whose tracker agrees with its objects
(`Tracking ks`) and that satisfies `P`, the request `x` leaves a machine that is still tracking,
whether it succeeds or fails, and on success its value and the machine satisfy `Q`. The list `ks`
is a snapshot of the tracked keys, which a tracking machine must still hold first and in order, so
that no key is ever forgotten.

Requests that leave the tracker, the next id and the objects alone (`Frames`) keep the invariant
at once. The structural rules (`Keeps.bind`, `Keeps.mono`, `Keeps.ite`, `Keeps.attempt`) compose
the specifications of the store primitives proved here: reading an object, storing a new one with
one reference, writing back one of the same kind and count, and adding or dropping references,
where the tracker's count and the object's count move together.
-/

namespace QuantumRuntime

namespace Machine

/-! ### Running a request on a machine -/

section Running

variable {α β : Type}

@[simp] theorem run_bind (x : Exec α) (f : α → Exec β) (m : Machine) :
    (x >>= f) m = match x m with
      | .ok a s => f a s
      | .error e s => .error e s := by
  show EStateM.bind x f m = _
  unfold EStateM.bind
  cases x m <;> rfl

@[simp] theorem run_map (f : α → β) (x : Exec α) (m : Machine) :
    (f <$> x) m = match x m with
      | .ok a s => .ok (f a) s
      | .error e s => .error e s := by
  show EStateM.map f x m = _
  unfold EStateM.map
  cases x m <;> rfl

@[simp] theorem run_get (m : Machine) : (get : Exec Machine) m = .ok m m := rfl

@[simp] theorem run_set (m s : Machine) : (set s : Exec Unit) m = .ok () s := rfl

@[simp] theorem run_modify (f : Machine → Machine) (m : Machine) :
    (modify f : Exec Unit) m = .ok () (f m) := rfl

@[simp] theorem run_modifyGet (f : Machine → α × Machine) (m : Machine) :
    (modifyGet f : Exec α) m = .ok (f m).1 (f m).2 := rfl

@[simp] theorem run_pure (a : α) (m : Machine) : (pure a : Exec α) m = .ok a m := rfl

@[simp] theorem run_throw (e : MachineError) (m : Machine) :
    (throw e : Exec α) m = .error e m := rfl

end Running

/-- The machine a request ends in, whether it succeeded or failed. -/
def final {ε α : Type} : EStateM.Result ε Machine α → Machine
  | .ok _ m => m
  | .error _ m => m

/-- The part of a machine the allocation tracker has to agree with: the tracker itself, the next
id and the objects. -/
def store (m : Machine) : Option Tracker × Nat × List (Nat × Obj) := (m.tracker, m.nextId, m.objects)

/-- Allocation tracking is on, the tracker agrees with the objects, and it still holds, first and
in order, the keys `ks` it held at some earlier point. -/
def Tracking (ks : List ObjectKey) (m : Machine) : Prop :=
  ∃ t, m.tracker = some t ∧ Agrees t m ∧ ks <+: t.counts.map Prod.fst

/-- Run from a tracking machine satisfying `P`, a request leaves the machine tracking, whether it
succeeds or fails; when it succeeds, its value and the machine satisfy `Q`. -/
def Keeps {α : Type} (ks : List ObjectKey) (P : Machine → Prop) (x : Exec α)
    (Q : α → Machine → Prop) : Prop :=
  ∀ m, Tracking ks m → P m → match x m with
    | .ok a m' => Tracking ks m' ∧ Q a m'
    | .error _ m' => Tracking ks m'

/-- A request that leaves the tracker, the next id and the objects alone. -/
def Frames {α : Type} (x : Exec α) : Prop := ∀ m, store (final (x m)) = store m

theorem object?_of_store {m m' : Machine} (h : store m' = store m) (k : ObjectKey) :
    m'.object? k = m.object? k := by
  have ho : m'.objects = m.objects := congrArg (·.2.2) h
  simp only [object?, ho]

theorem tracking_of_store {ks : List ObjectKey} {m m' : Machine} (h : store m' = store m)
    (ht : Tracking ks m) : Tracking ks m' := by
  obtain ⟨t, hm, ha, hks⟩ := ht
  have htr : m'.tracker = m.tracker := congrArg (·.1) h
  have hn : m'.nextId = m.nextId := congrArg (·.2.1) h
  have ho : m'.objects = m.objects := congrArg (·.2.2) h
  refine ⟨t, htr.trans hm, ⟨ha.ids_increase, ?_, ?_, ?_, ?_⟩, hks⟩
  · rw [hn]
    exact ha.ids_lt
  · rw [ho]
    exact ha.ids_nodup
  · rw [ho]
    exact ha.stored
  · intro k c hc hk
    exact ha.removed k c hc (by rw [← object?_of_store h]; exact hk)

/-! ### Structural rules -/

section Rules

variable {α β : Type} {ks : List ObjectKey} {P : Machine → Prop}

theorem Keeps.pure (a : α) : Keeps ks P (pure a) fun b m => P m ∧ b = a :=
  fun _ ht hp => ⟨ht, hp, rfl⟩

theorem Keeps.throw {Q : α → Machine → Prop} (e : MachineError) : Keeps ks P (throw e : Exec α) Q :=
  fun _ ht _ => ht

theorem Keeps.throw_bind {f : α → Exec β} {Q : β → Machine → Prop} (e : MachineError) :
    Keeps ks P (MonadExcept.throw e >>= f) Q :=
  fun _ ht _ => ht

theorem Keeps.bind {x : Exec α} {f : α → Exec β} {R : α → Machine → Prop} {Q : β → Machine → Prop}
    (hx : Keeps ks P x R) (hf : ∀ a, Keeps ks (R a) (f a) Q) : Keeps ks P (x >>= f) Q := by
  intro m ht hp
  have h := hx m ht hp
  rw [run_bind]
  cases hxm : x m with
  | ok a s =>
    rw [hxm] at h
    exact hf a s h.1 h.2
  | error e s =>
    rw [hxm] at h
    exact h

/-- The rule of consequence: a stronger precondition and a weaker postcondition. -/
theorem Keeps.mono {x : Exec α} {Q Q' : α → Machine → Prop} {P' : Machine → Prop}
    (h : Keeps ks P x Q) (hP : ∀ m, P' m → P m) (hQ : ∀ a m, Q a m → Q' a m) :
    Keeps ks P' x Q' := by
  intro m ht hp
  have h := h m ht (hP m hp)
  split at h
  · next a m' hx => exact ⟨h.1, hQ a m' h.2⟩
  · next e m' hx => exact h

theorem Keeps.get : Keeps ks P (get : Exec Machine) fun a m => P m ∧ a = m :=
  fun _ ht hp => ⟨ht, hp, rfl⟩

theorem Keeps.ret (a : α) : Keeps ks P (Pure.pure a : Exec α) fun _ _ => True :=
  (Keeps.pure a).mono (fun _ h => h) fun _ _ _ => trivial

theorem Keeps.check (e : Except MachineError α) :
    Keeps ks P (check e) fun a m => P m ∧ e = .ok a := by
  cases e with
  | error e => exact Keeps.throw e
  | ok a => exact (Keeps.pure a).mono (fun _ h => h) fun _ _ ⟨h, hb⟩ => ⟨h, hb ▸ rfl⟩

theorem Keeps.ite {c : Prop} [Decidable c] {x y : Exec α} {Q : α → Machine → Prop}
    (hx : c → Keeps ks P x Q) (hy : ¬c → Keeps ks P y Q) : Keeps ks P (if c then x else y) Q := by
  split
  · next h => exact hx h
  · next h => exact hy h

/-- A fact about the values read so far may be moved out of the precondition. -/
theorem Keeps.assume {c : Prop} {x : Exec α} {Q : α → Machine → Prop} (h : c → Keeps ks P x Q) :
    Keeps ks (fun m => P m ∧ c) x Q :=
  fun m ht ⟨hp, hc⟩ => h hc m ht hp

/-- A request run for its outcome leaves the machine tracking either way. -/
theorem Keeps.attempt {x : Exec α} {Q : α → Machine → Prop} (h : Keeps ks P x Q) :
    Keeps ks P (attempt x) fun r m => ∀ a, r = .ok a → Q a m := by
  intro m ht hp
  have h := h m ht hp
  unfold Machine.attempt
  cases hxm : x m with
  | ok a s =>
    rw [hxm] at h
    exact ⟨h.1, fun b hb => by cases hb; exact h.2⟩
  | error e s =>
    rw [hxm] at h
    exact ⟨h, fun b hb => by cases hb⟩

theorem Keeps.of_frames {x : Exec α} (h : Frames x) : Keeps ks P x fun _ _ => True := by
  intro m ht _
  have hs := h m
  cases hxm : x m with
  | ok a s =>
    rw [hxm] at hs
    exact ⟨tracking_of_store hs ht, trivial⟩
  | error e s =>
    rw [hxm] at hs
    exact tracking_of_store hs ht

theorem Frames.pure (a : α) : Frames (pure a : Exec α) := fun _ => rfl

theorem Frames.throw (e : MachineError) : Frames (throw e : Exec α) := fun _ => rfl

theorem Frames.throw_bind {f : α → Exec β} (e : MachineError) :
    Frames (MonadExcept.throw e >>= f) := fun _ => rfl

theorem Frames.bind {x : Exec α} {f : α → Exec β} (hx : Frames x) (hf : ∀ a, Frames (f a)) :
    Frames (x >>= f) := by
  intro m
  have h := hx m
  rw [run_bind]
  cases hxm : x m with
  | ok a s =>
    rw [hxm] at h
    exact (hf a s).trans h
  | error e s =>
    rw [hxm] at h
    exact h

theorem Frames.modify {f : Machine → Machine} (h : ∀ m, store (f m) = store m) :
    Frames (modify f : Exec Unit) := fun m => h m

theorem Frames.get : Frames (get : Exec Machine) := fun _ => rfl

theorem Frames.map {x : Exec α} (f : α → β) (h : Frames x) : Frames (f <$> x) := by
  intro m
  have hx := h m
  rw [run_map]
  cases hxm : x m with
  | ok a s =>
    rw [hxm] at hx
    exact hx
  | error e s =>
    rw [hxm] at hx
    exact hx

theorem Frames.ite {c : Prop} [Decidable c] {x y : Exec α} (hx : Frames x) (hy : Frames y) :
    Frames (if c then x else y) := by
  split
  · exact hx
  · exact hy

theorem Frames.check (e : Except MachineError α) : Frames (check e) := by
  cases e with
  | error e => exact Frames.throw e
  | ok a => exact Frames.pure a

theorem Frames.forM {γ : Type} (f : γ → Exec PUnit) (h : ∀ a, Frames (f a)) :
    ∀ l : List γ, Frames (l.forM f)
  | [] => Frames.pure _
  | a :: l => Frames.bind (h a) fun _ => Frames.forM f h l

theorem Frames.mapM {γ : Type} (f : γ → Exec α) (h : ∀ a, Frames (f a)) :
    ∀ l : List γ, Frames (l.mapM f)
  | [] => Frames.pure _
  | a :: l => by
    rw [List.mapM_cons]
    exact Frames.bind (h a) fun _ => Frames.bind (Frames.mapM f h l) fun _ => Frames.pure _

theorem Frames.flatMapM {γ : Type} (f : γ → Exec (List α)) (h : ∀ a, Frames (f a))
    (l : List γ) : Frames (l.flatMapM f) := by
  -- the loop carries the lists gathered so far
  suffices ∀ (l : List γ) (acc : List (List α)), Frames (List.flatMapM.loop f l acc) from
    this l []
  intro l
  induction l with
  | nil => exact fun _ => Frames.pure _
  | cons a l ih => exact fun acc => Frames.bind (h a) fun b => ih (b :: acc)

end Rules

/-! ### The store primitives -/

theorem insert_eq {m : Machine} {t : Tracker} (hm : m.tracker = some t) (o : Obj)
    (hk : t.count? ⟨o.kind, m.nextId⟩ = none) :
    insert o m = .ok m.nextId
      { m with
        nextId := m.nextId + 1
        tracker := some (t.put ⟨o.kind, m.nextId⟩ 1)
        objects := m.objects ++ [(m.nextId, o)] } := by
  simp [insert, freshId, onTracker, hm, Tracker.allocate, hk]

theorem setObject_eq (id : Nat) (o : Obj) (m : Machine) :
    setObject id o m =
      .ok () { m with objects := m.objects.map fun (i, p) => if i = id then (i, o) else (i, p) } :=
  rfl

theorem removeObject_eq (id : Nat) (m : Machine) :
    removeObject id m = .ok () { m with objects := m.objects.filter fun (i, _) => i ≠ id } :=
  rfl

theorem getObject_eq (k : ObjectKey) (m : Machine) :
    getObject k m = match m.object? k with
      | some o => .ok o m
      | none => .error (.released k) m := by
  cases h : m.object? k <;> simp [getObject, h]

theorem Frames.getObject (k : ObjectKey) : Frames (getObject k) := by
  intro m
  rw [getObject_eq]
  split <;> rfl

theorem Frames.getArray (id : Nat) : Frames (getArray id) := by
  unfold Machine.getArray
  refine Frames.bind (Frames.getObject _) fun o => ?_
  cases o with
  | array a => exact Frames.pure a
  | tuple _ => exact Frames.throw _
  | callable _ => exact Frames.throw _

theorem Frames.getTuple (id : Nat) : Frames (getTuple id) := by
  unfold Machine.getTuple
  refine Frames.bind (Frames.getObject _) fun o => ?_
  cases o with
  | tuple a => exact Frames.pure a
  | array _ => exact Frames.throw _
  | callable _ => exact Frames.throw _

/-! ### Counting references under agreement

With the tracker in agreement, a key has an object exactly when its tracked count is positive,
and then the two counts are equal. So adding or dropping references either fails before changing
anything or moves both counts together; the branches of `addRefs` and `releaseRefs` where one
count would move without the other are never taken. -/

section Counting

variable {t : Tracker} {m : Machine} {k : ObjectKey}

/-- Adding references to a key without an object is refused before anything changes. -/
theorem addRefs_eq_error (hm : m.tracker = some t) (ha : Agrees t m) (ho : m.object? k = none)
    (n : Nat) : ∃ e, addRefs k (n + 1) m = .error e m := by
  cases hc : t.count? k with
  | none => exact ⟨.untracked k, by simp [addRefs, hm, hc]⟩
  | some c =>
    obtain rfl : c = 0 := ha.removed k c hc ho
    exact ⟨.resurrection k, by simp [addRefs, hm, hc]⟩

/-- Adding references to a stored object raises both its counts. -/
theorem addRefs_eq (hm : m.tracker = some t) (ha : Agrees t m) {o : Obj}
    (ho : m.object? k = some o) (n : Nat) :
    addRefs k (n + 1) m = .ok ()
      { m with
        tracker := some (t.put k (o.counts.refs + n + 1))
        objects := m.objects.map fun (i, p) =>
          if i = k.id then (i, o.withCounts { o.counts with refs := o.counts.refs + n + 1 })
          else (i, p) } := by
  obtain ⟨hc, hpos⟩ := ha.count?_of_object? ho
  obtain ⟨hl, hkind⟩ := object?_eq_some.1 ho
  obtain ⟨c, hrc⟩ : ∃ c, o.counts.refs = c + 1 := ⟨o.counts.refs - 1, by omega⟩
  rw [hrc] at hc ⊢
  simp [addRefs, hm, hc, getObject_eq, object?, hl, hkind, setObject_eq, hrc]

/-- Dropping references of a key without an object is refused before anything changes. -/
theorem releaseRefs_eq_error (hm : m.tracker = some t) (ha : Agrees t m) (ho : m.object? k = none)
    (n : Nat) : ∃ e, releaseRefs k (n + 1) m = .error e m := by
  cases hc : t.count? k with
  | none => exact ⟨.untracked k, by simp [releaseRefs, ho, hm, hc]⟩
  | some c =>
    obtain rfl : c = 0 := ha.removed k c hc ho
    exact ⟨.released k, by simp [releaseRefs, ho, hm, hc]⟩

/-- Dropping more references than an object has is refused before anything changes. -/
theorem releaseRefs_eq_error_of_lt {o : Obj} (ho : m.object? k = some o) {n : Nat}
    (hlt : o.counts.refs < n + 1) : ∃ e, releaseRefs k (n + 1) m = .error e m := by
  have hle : o.counts.refs ≤ n := by omega
  exact ⟨.negativeRefCount k ((o.counts.refs : Int) - (n + 1 : Nat)), by simp [releaseRefs, ho, hle]⟩

/-- Dropping every reference of an object removes it, its tracked count set to zero. -/
theorem releaseRefs_eq_remove (hm : m.tracker = some t) (ha : Agrees t m) {o : Obj}
    (ho : m.object? k = some o) {n : Nat} (heq : o.counts.refs = n + 1) :
    releaseRefs k (n + 1) m = .ok (some o)
      { m with
        tracker := some (t.put k 0)
        objects := m.objects.filter fun (i, _) => i ≠ k.id } := by
  have hc := (ha.count?_of_object? ho).1
  simp [releaseRefs, ho, hm, hc, heq, removeObject_eq]

/-- Dropping some of an object's references lowers both its counts. -/
theorem releaseRefs_eq_set (hm : m.tracker = some t) (ha : Agrees t m) {o : Obj}
    (ho : m.object? k = some o) {n : Nat} (hlt : n + 1 < o.counts.refs) :
    releaseRefs k (n + 1) m = .ok none
      { m with
        tracker := some (t.put k (o.counts.refs - (n + 1)))
        objects := m.objects.map fun (i, p) =>
          if i = k.id then (i, o.withCounts { o.counts with refs := o.counts.refs - (n + 1) })
          else (i, p) } := by
  have hc := (ha.count?_of_object? ho).1
  have hnle : ¬o.counts.refs ≤ n := by omega
  have hne : o.counts.refs ≠ n + 1 := by omega
  simp [releaseRefs, ho, hm, hc, hnle, hne, setObject_eq]

end Counting

/-! ### Specifications of the store primitives -/

section Specs

variable {α β : Type} {ks : List ObjectKey} {P : Machine → Prop}

/-- A request that fails without changing a tracking machine keeps it tracking. -/
theorem Keeps.of_error {x : Exec α} {Q : α → Machine → Prop} {m : Machine} {e : MachineError}
    (hx : x m = .error e m) (ht : Tracking ks m) :
    match x m with
      | .ok a m' => Tracking ks m' ∧ Q a m'
      | .error _ m' => Tracking ks m' := by
  rw [hx]
  exact ht

/-- Storing an object with one reference allocates a fresh key for it. -/
theorem Keeps.insert {o : Obj} (ho : o.counts.refs = 1) : Keeps ks P (insert o) fun _ _ => True := by
  rintro m ⟨t, hm, ha, hks⟩ -
  rw [insert_eq hm o (ha.count?_fresh o.kind)]
  exact ⟨⟨_, rfl, ha.insert o ho _, hks.trans (t.keys_prefix_put _ 1)⟩, trivial⟩

theorem Keeps.getObject (k : ObjectKey) :
    Keeps ks P (getObject k) fun o m => P m ∧ m.object? k = some o := by
  intro m ht hp
  rw [getObject_eq]
  cases hk : m.object? k with
  | none => exact ht
  | some o => exact ⟨ht, hp, hk⟩

theorem Keeps.getArray (id : Nat) :
    Keeps ks P (getArray id) fun a m => P m ∧ m.object? ⟨.array, id⟩ = some (.array a) := by
  unfold Machine.getArray
  refine Keeps.bind (Keeps.getObject _) fun o => ?_
  cases o with
  | array a => exact (Keeps.pure a).mono (fun _ h => h) fun _ _ ⟨h, hb⟩ => hb ▸ h
  | tuple _ => exact Keeps.throw _
  | callable _ => exact Keeps.throw _

theorem Keeps.getTuple (id : Nat) :
    Keeps ks P (getTuple id) fun a m => P m ∧ m.object? ⟨.tuple, id⟩ = some (.tuple a) := by
  unfold Machine.getTuple
  refine Keeps.bind (Keeps.getObject _) fun o => ?_
  cases o with
  | tuple a => exact (Keeps.pure a).mono (fun _ h => h) fun _ _ ⟨h, hb⟩ => hb ▸ h
  | array _ => exact Keeps.throw _
  | callable _ => exact Keeps.throw _

theorem Keeps.getCallable (id : Nat) :
    Keeps ks P (getCallable id) fun a m => P m ∧ m.object? ⟨.callable, id⟩ = some (.callable a) := by
  unfold Machine.getCallable
  refine Keeps.bind (Keeps.getObject _) fun o => ?_
  cases o with
  | callable a => exact (Keeps.pure a).mono (fun _ h => h) fun _ _ ⟨h, hb⟩ => hb ▸ h
  | array _ => exact Keeps.throw _
  | tuple _ => exact Keeps.throw _

/-- Writing back an object of the kind and reference count of the one stored under its key. -/
theorem Keeps.setObject {kind : ObjectKind} {id : Nat} {p o : Obj} (hkind : o.kind = p.kind)
    (hrefs : o.counts.refs = p.counts.refs) :
    Keeps ks (fun m => m.object? ⟨kind, id⟩ = some p) (setObject id o) fun _ _ => True := by
  rintro m ⟨t, hm, ha, hks⟩ hp
  have hl : m.objects.lookup id = some p := (object?_eq_some.1 hp).1
  have hsame : ∀ q, m.objects.lookup id = some q →
      q.kind = o.kind ∧ q.counts.refs = o.counts.refs := by
    intro q hq
    rw [hl] at hq
    cases hq
    exact ⟨hkind.symm, hrefs.symm⟩
  rw [setObject_eq]
  exact ⟨⟨t, hm, ha.setObject hsame, hks⟩, trivial⟩

/-- Writing back, after reading it, an object changed in neither kind nor reference count. -/
theorem Keeps.writeBack {Q : Machine → Prop} {kind : ObjectKind} {id : Nat} {p o : Obj}
    (hkind : o.kind = p.kind) (hrefs : o.counts.refs = p.counts.refs) :
    Keeps ks (fun m => Q m ∧ m.object? ⟨kind, id⟩ = some p) (Machine.setObject id o)
      fun _ _ => True :=
  (Keeps.setObject hkind hrefs).mono (fun _ h => h.2) fun _ _ h => h

theorem Keeps.updateAliases (k : ObjectKey) (increment : Int) :
    Keeps ks P (updateAliases k increment) fun _ _ => True := by
  unfold Machine.updateAliases
  refine Keeps.bind (Keeps.getObject k) fun o => ?_
  dsimp only
  -- the alias count never touches the reference count, so the object can be written back
  refine Keeps.ite (fun _ => Keeps.throw_bind _) fun _ => Keeps.writeBack (Obj.kind_withCounts _ _) ?_
  rw [Obj.counts_withCounts]

theorem Keeps.addRefs (k : ObjectKey) (n : Nat) : Keeps ks P (addRefs k n) fun _ _ => True := by
  rintro m ⟨t, hm, ha, hks⟩ -
  cases n with
  | zero => exact ⟨⟨t, hm, ha, hks⟩, trivial⟩
  | succ n =>
    cases ho : m.object? k with
    | none =>
      obtain ⟨e, he⟩ := addRefs_eq_error hm ha ho n
      exact Keeps.of_error he ⟨t, hm, ha, hks⟩
    | some o =>
      rw [addRefs_eq hm ha ho n]
      exact ⟨⟨_, rfl, ha.setRefs ho (by omega) _, hks.trans (t.keys_prefix_put k _)⟩, trivial⟩

theorem Keeps.releaseRefs (k : ObjectKey) (n : Nat) :
    Keeps ks P (releaseRefs k n) fun _ _ => True := by
  rintro m ⟨t, hm, ha, hks⟩ -
  cases n with
  | zero => exact ⟨⟨t, hm, ha, hks⟩, trivial⟩
  | succ n =>
    cases ho : m.object? k with
    | none =>
      obtain ⟨e, he⟩ := releaseRefs_eq_error hm ha ho n
      exact Keeps.of_error he ⟨t, hm, ha, hks⟩
    | some o =>
      -- too many references, all of them, or some of them
      rcases Nat.lt_trichotomy o.counts.refs (n + 1) with hlt | heq | hgt
      · obtain ⟨e, he⟩ := releaseRefs_eq_error_of_lt ho hlt
        exact Keeps.of_error he ⟨t, hm, ha, hks⟩
      · rw [releaseRefs_eq_remove hm ha ho heq]
        exact ⟨⟨_, rfl, ha.remove ho _, hks.trans (t.keys_prefix_put k 0)⟩, trivial⟩
      · rw [releaseRefs_eq_set hm ha ho hgt]
        exact ⟨⟨_, rfl, ha.setRefs ho (by omega) _, hks.trans (t.keys_prefix_put k _)⟩, trivial⟩

theorem Keeps.updateRefs (k : ObjectKey) (increment : Int) :
    Keeps ks P (updateRefs k increment) fun _ _ => True := by
  unfold Machine.updateRefs
  exact Keeps.ite (fun _ => Keeps.bind (Keeps.addRefs k _) fun _ => Keeps.ret _)
    fun _ => Keeps.releaseRefs k _

end Specs

end Machine

end QuantumRuntime
