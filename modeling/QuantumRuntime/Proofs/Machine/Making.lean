import Mathlib
import QuantumRuntime.Proofs.Layout.Range
import QuantumRuntime.Proofs.Machine.Slicing

/-!
# The objects a program can make

A request stores an object in a few ways only, and `Obj.Made` lists them together with what the
request has checked before it stores the object. Tuples and callables may hold anything. An array
is made with a checked shape, or as a copy, a concatenation, a slice or a projection of arrays
already made, or by allocating qubits or gathering the words of nested controls. Writing items,
giving up qubits and changing counts keep an object made.

Every request keeps every stored object made, whether it succeeds or fails, each under an id
issued before the next one: `Makes` specifies the requests step by step, and `made_serveAll` runs
any list of requests from a fresh program. A property that holds of objects built in each of those
ways then holds of every stored object, by induction over `Made` alone; a made object is laid out,
for instance (`Obj.Made.laidOut`).
-/

namespace QuantumRuntime

/-! ### Widths of selections -/

namespace Range

/-- A checked range selects no more positions than the dimension has, unless it selects none. -/
theorem width_le_of_select {r : Range} {bound : Int} {s : Selection} (hbound : bound ≤ int64Max)
    (h : r.select bound = .ok s) : s.width = 0 ∨ (s.width : Int) ≤ bound := by
  obtain ⟨hw, -⟩ := select_ok_spec hbound h
  have hs : r.step ≠ 0 := fun hs => by cases (select_zeroStep r bound hs).symm.trans h
  rcases (select_ok_iff hbound hs).1 ⟨s, h⟩ with h0 | ⟨hin, -⟩
  · exact .inl (hw.trans h0)
  · by_cases h0 : r.size = 0
    · exact .inl (hw.trans h0)
    · have hb : ¬ r.IsBackwards := fun hb => h0 ((size_eq_zero_iff hs).2 hb)
      exact .inr (hw ▸ size_le_bound hs hb hin)

end Range

theorem Except.eq_ok_of_mapError {ε ε' α : Type} {f : ε → ε'} {e : Except ε α} {a : α}
    (h : e.mapError f = .ok a) : e = .ok a := by
  cases e with
  | error x => cases h
  | ok b =>
    cases h
    rfl

namespace ItemArray

/-- A slice request selects at most as many positions as the sliced dimension has. -/
theorem slice_width_le {a : ItemArray} {dim : Nat} {r : Range} {s : Selection}
    (hs : (r.select (Int.ofNat (a.dims.getD dim 0)).toInt64.toInt).mapError MachineError.range =
      .ok s) : s.width ≤ a.dims.getD dim 0 := by
  have hbound : (Int.ofNat (a.dims.getD dim 0)).toInt64.toInt ≤ int64Max := by
    simp only [int64Max]
    exact Int64.toInt_le _
  have hle := toInt_toInt64_le (a.dims.getD dim 0)
  rcases Range.width_le_of_select hbound (Except.eq_ok_of_mapError hs) with h0 | hw
  · omega
  · omega

end ItemArray

/-! ### Made objects -/

namespace Obj

/-- The objects a running program can hold: those its requests store, each built from objects
it held, after the checks the request makes. -/
inductive Made : Obj → Prop
  | tuple (t : ByteTuple) : Made (.tuple t)
  | callable (c : Callable) : Made (.callable c)
  | new {itemSize len : Nat} {dims : List Nat} : 0 < itemSize →
      bufferLength? itemSize dims = some len → Made (.array (ItemArray.new itemSize dims))
  | copy {a : ItemArray} : Made (.array a) → Made (.array a.copy)
  | append {a b : ItemArray} : Made (.array a) → Made (.array b) → a.dims.length = 1 →
      b.dims.length = 1 → b.itemSize = a.itemSize → Made (.array (a.copy.append b))
  | slice {a : ItemArray} {dim : Nat} {s : Selection} (hdim : dim < a.dims.length) :
      Made (.array a) → (∀ x ∈ s.indices, 0 ≤ x ∧ x < a.dims[dim]) → s.width ≤ a.dims[dim] →
      Made (.array (a.slice dim s))
  | project {a : ItemArray} {dim index : Nat} (hdim : dim < a.dims.length) :
      Made (.array a) → 2 ≤ a.dims.length → index < a.dims[dim] →
      Made (.array (a.project dim index))
  | writeItem {a : ItemArray} (i : Nat) (bytes : List UInt8) :
      Made (.array a) → Made (.array (a.writeItem i bytes))
  | disown {a : ItemArray} : Made (.array a) → Made (.array { a with ownsQubits := false })
  | withCounts {o : Obj} (n : Counts) : Made o → Made (o.withCounts n)
  | qubits (qs : List Qubit) :
      Made (.array { ItemArray.new Word.size [qs.length] with
        items := qs.map fun q => Word.encode q.index, ownsQubits := true })
  | words {words : List (List UInt8)} : (∀ w ∈ words, w.length = Word.size) →
      Made (.array { ItemArray.new Word.size [words.length] with items := words })

/-- A made object is laid out. -/
theorem Made.laidOut {o : Obj} (h : o.Made) : o.LaidOut := by
  induction h with
  | tuple t => trivial
  | callable c => trivial
  | new _ _ => exact ItemArray.laidOut_new _ _
  | copy _ ih => exact ItemArray.LaidOut.copy ih
  | append _ _ hrank _ hsize iha ihb => exact iha.copy.append ihb hrank hsize
  | slice hdim _ hs _ ih => exact ih.slice hdim hs
  | project hdim _ _ hidx ih => exact ih.project hdim hidx
  | writeItem i bytes _ ih => exact ih.writeItem i bytes
  | disown _ ih => exact ih.disown
  | withCounts n _ ih => exact ih.withCounts n
  | qubits qs => exact ItemArray.laidOut_qubits rfl
  | words hw => exact ItemArray.laidOut_words hw

end Obj

namespace Machine

/-! ### Every stored object is made -/

/-- Every stored object was made, under an id issued before the next one. -/
structure ObjectsMade (m : Machine) : Prop where
  below : ∀ p ∈ m.objects, p.1 < m.nextId
  made : ∀ p ∈ m.objects, p.2.Made

namespace ObjectsMade

variable {m m' : Machine}

theorem object? (h : ObjectsMade m) {k : ObjectKey} {o : Obj} (hk : m.object? k = some o) :
    o.Made :=
  h.made _ (mem_of_lookup (object?_eq_some.1 hk).1)

theorem lookup_nextId (h : ObjectsMade m) : m.objects.lookup m.nextId = none := by
  cases hl : m.objects.lookup m.nextId with
  | none => rfl
  | some o => exact absurd (h.below _ (mem_of_lookup hl)) (Nat.lt_irrefl _)

/-- A store whose entries are old entries, or old ids with made objects, keeps its objects made. -/
theorem of_entries (h : ObjectsMade m) (hn : m.nextId ≤ m'.nextId)
    (hm : ∀ p ∈ m'.objects, p ∈ m.objects ∨ p.2.Made ∧ ∃ u, (p.1, u) ∈ m.objects) :
    ObjectsMade m' where
  below p hp := by
    rcases hm p hp with hp | ⟨-, u, hu⟩
    · exact Nat.lt_of_lt_of_le (h.below p hp) hn
    · exact Nat.lt_of_lt_of_le (h.below (p.1, u) hu) hn
  made p hp := by
    rcases hm p hp with hp | ⟨ho, -⟩
    · exact h.made p hp
    · exact ho

theorem of_objects (h : ObjectsMade m) (ho : m'.objects = m.objects) (hn : m.nextId ≤ m'.nextId) :
    ObjectsMade m' :=
  h.of_entries hn fun _ hp => .inl (ho ▸ hp)

theorem of_store (h : ObjectsMade m) (hs : store m' = store m) : ObjectsMade m' :=
  h.of_objects (congrArg (·.2.2) hs) (congrArg (·.2.1) hs).ge

theorem setObject (h : ObjectsMade m) {id : Nat} {o : Obj} (ho : o.Made) {u : Unit}
    (hx : Machine.setObject id o m = .ok u m') : ObjectsMade m' := by
  rw [setObject_eq] at hx
  cases hx
  refine h.of_entries le_rfl ?_
  rintro ⟨i, w⟩ hp
  rcases mem_map_update hp with ⟨-, rfl, u, hu⟩ | ⟨-, hu⟩
  · exact .inr ⟨ho, u, hu⟩
  · exact .inl hu

/-- A change of reference counts that destroys nothing keeps the objects made. -/
theorem of_recount (h : ObjectsMade m) {k : ObjectKey} (hr : Recount k m m') : ObjectsMade m' := by
  rcases hr.objects with ho | ⟨o, n, hk, ho⟩
  · exact h.of_objects ho hr.nextId.ge
  · refine h.of_entries hr.nextId.ge ?_
    rintro ⟨i, w⟩ hp
    rw [ho] at hp
    rcases mem_map_update hp with ⟨-, rfl, u, hu⟩ | ⟨-, hu⟩
    · exact .inr ⟨(h.object? hk).withCounts n, u, hu⟩
    · exact .inl hu

end ObjectsMade

theorem made_new (backend : Backend) (track : Bool) : ObjectsMade (Machine.new backend track) where
  below _ hp := absurd hp List.not_mem_nil
  made _ hp := absurd hp List.not_mem_nil

/-- Run from a machine whose objects are made and that satisfies `P`, a request leaves the objects
made, whether it succeeds or fails; when it succeeds, its value and the machine satisfy `Q`. -/
def Makes {α : Type} (P : Machine → Prop) (x : Exec α) (Q : α → Machine → Prop) : Prop :=
  ∀ m, ObjectsMade m → P m → match x m with
    | .ok a m' => ObjectsMade m' ∧ Q a m'
    | .error _ m' => ObjectsMade m'

/-! ### Structural rules -/

section Rules

variable {α β : Type} {P : Machine → Prop}

theorem Makes.throw {Q : α → Machine → Prop} (e : MachineError) : Makes P (throw e : Exec α) Q :=
  fun _ h _ => h

theorem Makes.throw_bind {f : α → Exec β} {Q : β → Machine → Prop} (e : MachineError) :
    Makes P (MonadExcept.throw e >>= f) Q :=
  fun _ h _ => h

theorem Makes.bind {x : Exec α} {f : α → Exec β} {R : α → Machine → Prop} {Q : β → Machine → Prop}
    (hx : Makes P x R) (hf : ∀ a, Makes (R a) (f a) Q) : Makes P (x >>= f) Q := by
  intro m h hp
  have h₁ := hx m h hp
  rw [run_bind]
  cases hxm : x m with
  | ok a s =>
    rw [hxm] at h₁
    exact hf a s h₁.1 h₁.2
  | error e s =>
    rw [hxm] at h₁
    exact h₁

/-- The rule of consequence: a stronger precondition and a weaker postcondition. -/
theorem Makes.mono {x : Exec α} {Q Q' : α → Machine → Prop} {P' : Machine → Prop}
    (h : Makes P x Q) (hP : ∀ m, P' m → P m) (hQ : ∀ a m, Q a m → Q' a m) : Makes P' x Q' := by
  intro m hm hp
  have hx := h m hm (hP m hp)
  split at hx
  · next a m' hxm => exact ⟨hx.1, hQ a m' hx.2⟩
  · next e m' hxm => exact hx

theorem Makes.forget {x : Exec α} {Q : α → Machine → Prop} (h : Makes P x Q) :
    Makes P x fun _ _ => True :=
  h.mono (fun _ h => h) fun _ _ _ => trivial

theorem Makes.of_true {x : Exec α} {Q : α → Machine → Prop} (h : Makes (fun _ => True) x Q) :
    Makes P x Q :=
  h.mono (fun _ _ => trivial) fun _ _ h => h

/-- A fact the precondition implies may be used to choose how to prove the request. -/
theorem Makes.given {c : Prop} {x : Exec α} {Q : α → Machine → Prop} (hc : ∀ m, P m → c)
    (h : c → Makes P x Q) : Makes P x Q :=
  fun m hm hp => h (hc m hp) m hm hp

theorem Makes.get : Makes P (get : Exec Machine) fun a m => P m ∧ a = m :=
  fun _ h hp => ⟨h, hp, rfl⟩

/-- A returned value satisfies what the precondition gives it. -/
theorem Makes.pure_of {a : α} {Q : α → Machine → Prop} (h : ∀ m, P m → Q a m) :
    Makes P (Pure.pure a : Exec α) Q :=
  fun m hm hp => ⟨hm, h m hp⟩

theorem Makes.ret (a : α) : Makes P (Pure.pure a : Exec α) fun _ _ => True :=
  Makes.pure_of fun _ _ => trivial

theorem Makes.check (e : Except MachineError α) :
    Makes P (check e) fun a m => P m ∧ e = .ok a := by
  cases e with
  | error e => exact Makes.throw e
  | ok a => exact Makes.pure_of fun _ hp => ⟨hp, rfl⟩

theorem Makes.ite {c : Prop} [Decidable c] {x y : Exec α} {Q : α → Machine → Prop}
    (hx : c → Makes P x Q) (hy : ¬c → Makes P y Q) : Makes P (if c then x else y) Q := by
  split
  · next h => exact hx h
  · next h => exact hy h

theorem Makes.attempt {x : Exec α} {Q : α → Machine → Prop} (h : Makes P x Q) :
    Makes P (attempt x) fun _ _ => True := by
  intro m hm hp
  have hx := h m hm hp
  unfold Machine.attempt
  cases hxm : x m with
  | ok a s =>
    rw [hxm] at hx
    exact ⟨hx.1, trivial⟩
  | error e s =>
    rw [hxm] at hx
    exact ⟨hx, trivial⟩

/-- A request that leaves the store alone keeps the objects made. -/
theorem Makes.of_frames {x : Exec α} (hf : Frames x) : Makes P x fun _ _ => True := by
  intro m h _
  have hs := hf m
  cases hxm : x m with
  | ok a s =>
    rw [hxm] at hs
    exact ⟨h.of_store hs, trivial⟩
  | error e s =>
    rw [hxm] at hs
    exact h.of_store hs

/-- Run from a machine whose objects are made, a request leaves them made, whichever way it
ends. -/
theorem Makes.made_final {x : Exec α} {Q : α → Machine → Prop} (hx : Makes (fun _ => True) x Q)
    {m : Machine} (h : ObjectsMade m) : ObjectsMade (final (x m)) := by
  have hr := hx m h trivial
  cases hxm : x m with
  | ok a s =>
    rw [hxm] at hr
    exact hr.1
  | error e s =>
    rw [hxm] at hr
    exact hr

end Rules

/-! ### The store primitives as requests -/

section Specs

variable {P : Machine → Prop}

theorem Makes.getObject (k : ObjectKey) :
    Makes P (getObject k) fun o m => P m ∧ m.object? k = some o ∧ o.Made := by
  intro m h hp
  rw [getObject_eq]
  cases hk : m.object? k with
  | none => exact h
  | some o => exact ⟨h, hp, hk, h.object? hk⟩

theorem Makes.getArray (id : Nat) :
    Makes P (getArray id) fun a m =>
      P m ∧ m.object? ⟨.array, id⟩ = some (.array a) ∧ (Obj.array a).Made := by
  unfold Machine.getArray
  refine Makes.bind (Makes.getObject _) fun o => ?_
  cases o with
  | array a => exact Makes.pure_of fun _ hp => hp
  | tuple _ => exact Makes.throw _
  | callable _ => exact Makes.throw _

theorem Makes.getTuple (id : Nat) : Makes P (getTuple id) fun _ m => P m := by
  unfold Machine.getTuple
  refine Makes.bind (Makes.getObject _) fun o => ?_
  cases o with
  | tuple _ => exact Makes.pure_of fun _ hp => hp.1
  | array _ => exact Makes.throw _
  | callable _ => exact Makes.throw _

theorem Makes.getCallable (id : Nat) : Makes P (getCallable id) fun _ m => P m := by
  unfold Machine.getCallable
  refine Makes.bind (Makes.getObject _) fun o => ?_
  cases o with
  | callable _ => exact Makes.pure_of fun _ hp => hp.1
  | array _ => exact Makes.throw _
  | tuple _ => exact Makes.throw _

theorem Makes.tupleData (id : Nat) : Makes P (tupleData id) fun _ m => P m :=
  Makes.bind (Makes.getTuple id) fun _ => Makes.pure_of fun _ hp => hp

theorem Makes.tupleReadHandle (id offset : Nat) :
    Makes P (tupleReadHandle id offset) fun _ m => P m :=
  Makes.bind (Makes.getTuple id) fun _ => (Makes.check _).mono (fun _ h => h) fun _ _ h => h.1

/-- Storing a made object keeps the objects made, and the new id holds the object. -/
theorem Makes.insert {o : Obj} (ho : o.Made) :
    Makes P (Machine.insert o) fun id m => m.object? ⟨o.kind, id⟩ = some o := by
  intro m h _
  have hs := insert_spec o m
  have hfresh := h.lookup_nextId
  cases hx : Machine.insert o m with
  | ok id m' =>
    rw [hx] at hs
    obtain ⟨rfl, hobj, hn, -, -⟩ := hs
    refine ⟨⟨fun p hp => ?_, fun p hp => ?_⟩, ?_⟩
    · rw [hobj, List.mem_append, List.mem_singleton] at hp
      rw [hn]
      rcases hp with hp | rfl
      · exact Nat.lt_succ_of_lt (h.below p hp)
      · exact Nat.lt_succ_self _
    · rw [hobj, List.mem_append, List.mem_singleton] at hp
      rcases hp with hp | rfl
      · exact h.made p hp
      · exact ho
    · show m'.object? ⟨o.kind, m.nextId⟩ = some o
      rw [object?_eq_some, hobj, List.lookup_append, hfresh]
      simp
  | error e m' =>
    rw [hx] at hs
    exact h.of_objects hs.1 (by omega)

theorem Makes.insertArray {a : ItemArray} (ha : (Obj.array a).Made) :
    Makes P (insertArray a) fun id m => m.object? ⟨.array, id⟩ = some (.array a) :=
  Makes.insert ha

theorem Makes.setObject {id : Nat} {o : Obj} (ho : o.Made) :
    Makes P (Machine.setObject id o) fun _ _ => True := by
  intro m h _
  have hx : Machine.setObject id o m = .ok () (final (Machine.setObject id o m)) := rfl
  rw [hx]
  exact ⟨h.setObject ho hx, trivial⟩

theorem Makes.updateRefs (k : ObjectKey) (increment : Int) :
    Makes P (updateRefs k increment) fun _ _ => True := by
  intro m h _
  have hs := updateRefs_spec k increment m
  cases hx : Machine.updateRefs k increment m with
  | ok r m' =>
    rw [hx] at hs
    cases r with
    | some o =>
      -- a destroyed object leaves the store
      refine ⟨h.of_entries hs.2.2.2.1.ge fun p hp => ?_, trivial⟩
      rw [hs.2.1] at hp
      exact .inl (List.mem_of_mem_filter hp)
    | none => exact ⟨h.of_recount hs, trivial⟩
  | error e m' =>
    rw [hx] at hs
    exact h.of_recount hs

theorem Makes.updateAliases (k : ObjectKey) (increment : Int) :
    Makes P (updateAliases k increment) fun _ _ => True := by
  unfold Machine.updateAliases
  refine Makes.bind (Makes.getObject k) fun o => ?_
  dsimp only
  refine Makes.ite (fun _ => Makes.throw_bind _) fun _ => ?_
  exact Makes.given (fun _ h => h.2.2) fun ho => Makes.setObject (ho.withCounts _)

end Specs

/-! ### Requests on arrays -/

section Arrays

variable {P : Machine → Prop}

theorem Makes.arrayUpdateRefs (id : Option Nat) (increment : Int) :
    Makes P (arrayUpdateRefs id increment) fun _ _ => True := by
  unfold Machine.arrayUpdateRefs
  cases id with
  | none => exact Makes.ret _
  | some id =>
    refine Makes.bind (Makes.updateRefs _ _) fun r => ?_
    -- a destroyed array gives its qubits back to the backend, which leaves the store alone
    rcases r with _ | (a | _ | _)
    · exact Makes.ret _
    · exact Makes.ite (fun _ => Makes.of_frames (Frames.releaseQubitsOf a)) fun _ => Makes.ret _
    · exact Makes.ret _
    · exact Makes.ret _

theorem Makes.arrayUpdateAliases (id : Option Nat) (increment : Int) :
    Makes P (arrayUpdateAliases id increment) fun _ _ => True := by
  unfold Machine.arrayUpdateAliases
  cases id with
  | none => exact Makes.ret _
  | some id => exact Makes.updateAliases _ _

/-- The buffer check passes only for a shape whose buffer length can be formed. -/
theorem Makes.checkBuffer (itemSize : Nat) (dims : List Nat) :
    Makes P (checkBuffer itemSize dims) fun _ m =>
      P m ∧ ∃ len, bufferLength? itemSize dims = some len := by
  unfold Machine.checkBuffer
  split
  · next len hlen => exact Makes.pure_of fun _ hp => ⟨hp, len, hlen⟩
  · exact Makes.throw _

/-- A new array is zeroed in its shape, under the id the request returns. -/
theorem Makes.arrayCreate (itemSize : Nat) (dims : List Nat) :
    Makes P (arrayCreate itemSize dims) fun id m =>
      m.object? ⟨.array, id⟩ = some (.array (ItemArray.new itemSize dims)) := by
  unfold Machine.arrayCreate
  dsimp only
  refine Makes.ite (fun _ => Makes.throw_bind _) fun hsize => ?_
  refine Makes.ite (fun _ => Makes.throw_bind _) fun _ => ?_
  refine Makes.bind (Makes.checkBuffer _ _) fun _ => ?_
  refine Makes.given (fun _ h => h.2) fun hlen => ?_
  obtain ⟨len, hlen⟩ := hlen
  exact Makes.insertArray (.new (Nat.pos_of_ne_zero hsize) hlen)

theorem Makes.arrayCopy (id : Nat) (force : Bool) :
    Makes P (arrayCopy id force) fun _ _ => True := by
  unfold Machine.arrayCopy
  refine Makes.bind (Makes.getArray id) fun a => ?_
  dsimp only
  refine Makes.ite (fun _ => Makes.bind (Makes.arrayUpdateRefs _ _) fun _ => Makes.ret _)
    fun _ => ?_
  refine Makes.ite (fun _ => Makes.throw_bind _) fun _ => ?_
  exact Makes.given (fun _ h => h.2.2) fun ha => (Makes.insertArray ha.copy).forget

theorem Makes.arrayConcat (head tail : Nat) : Makes P (arrayConcat head tail) fun _ _ => True := by
  unfold Machine.arrayConcat
  refine Makes.bind (Makes.getArray head) fun a => ?_
  refine Makes.bind (Makes.getArray tail) fun b => ?_
  dsimp only
  refine Makes.ite (fun _ => Makes.throw_bind _) fun hrank => ?_
  refine Makes.ite (fun _ => Makes.throw_bind _) fun hsize => ?_
  simp only [Bool.or_eq_true, decide_eq_true_eq, not_or, Decidable.not_not] at hrank
  refine Makes.given (fun _ h => And.intro h.1.2.2 h.2.2) fun hab => ?_
  exact (Makes.insertArray (.append hab.1 hab.2 hrank.1 hrank.2
    (Decidable.not_not.1 hsize).symm)).forget

theorem Makes.arraySlice (id dim : Nat) (r : Range) :
    Makes P (arraySlice id dim r) fun _ _ => True := by
  unfold Machine.arraySlice
  refine Makes.bind (Makes.getArray id) fun a => ?_
  refine Makes.bind (Makes.check _) fun _ => ?_
  refine Makes.bind (Makes.check _) fun s => ?_
  refine Makes.given (fun _ h => And.intro h.1.1.2.2 (And.intro h.1.2 h.2)) fun hfacts => ?_
  obtain ⟨ha, hdim, hs⟩ := hfacts
  obtain ⟨hd, hpos⟩ := slice_positions hdim hs
  have hwidth := ItemArray.slice_width_le hs
  rw [List.getD_eq_getElem _ _ hd] at hwidth
  exact Makes.ite (fun _ => (Makes.insertArray ha.copy).forget) fun _ =>
    (Makes.insertArray (.slice hd ha hpos hwidth)).forget

theorem Makes.arrayProject (id dim index : Nat) :
    Makes P (arrayProject id dim index) fun _ _ => True := by
  unfold Machine.arrayProject
  refine Makes.bind (Makes.getArray id) fun a => ?_
  dsimp only
  refine Makes.ite (fun _ => Makes.throw_bind _) fun hrank => ?_
  refine Makes.bind (Makes.check _) fun _ => ?_
  refine Makes.ite (fun _ => Makes.throw_bind _) fun hidx => ?_
  refine Makes.given (fun _ h => And.intro h.1.2.2 h.2) fun hfacts => ?_
  obtain ⟨ha, hdim⟩ := hfacts
  have hd := ItemArray.checkDim_ok hdim
  have hidx' : index < a.dims[dim] := by
    simp only [List.getD_eq_getElem?_getD, List.getElem?_eq_getElem hd, Option.getD_some] at hidx
    omega
  exact (Makes.insertArray (.project hd ha (by omega) hidx')).forget

theorem Makes.arraySetElement (id index : Nat) (bytes : List UInt8) :
    Makes P (arraySetElement id index bytes) fun _ _ => True := by
  unfold Machine.arraySetElement
  refine Makes.bind (Makes.getArray id) fun a => ?_
  refine Makes.bind (Makes.check _) fun _ => ?_
  exact Makes.given (fun _ h => h.1.2.2) fun ha => Makes.setObject (.writeItem _ _ ha)

theorem Makes.arrayWriteHandle (id index handle : Nat) :
    Makes P (arrayWriteHandle id index handle) fun _ _ => True := by
  unfold Machine.arrayWriteHandle
  refine Makes.bind (Makes.getArray id) fun a => ?_
  refine Makes.bind (Makes.check _) fun _ => ?_
  dsimp only
  refine Makes.ite (fun _ => Makes.throw_bind _) fun _ => ?_
  exact Makes.given (fun _ h => h.1.2.2) fun ha => Makes.setObject (.writeItem _ _ ha)

/-- Allocating qubits one per position gives as many qubits as positions. -/
theorem Makes.allocateQubits (count : Nat) :
    Makes P ((List.range count).mapM fun _ => onBackend fun b => b.allocateQubit)
      fun qs _ => qs.length = count := by
  intro m h _
  obtain ⟨b, -, hr⟩ := mapM_allocateQubit (List.range count) m
  cases hx : (List.range count).mapM (fun _ => onBackend fun b => b.allocateQubit) m with
  | ok qs m' =>
    rw [hx] at hr
    obtain ⟨rfl, hlen⟩ := hr
    exact ⟨h.of_objects rfl le_rfl, show qs.length = count by rw [hlen, List.length_range]⟩
  | error e m' =>
    rw [hx] at hr
    subst hr
    exact h.of_objects rfl le_rfl

theorem Makes.qubitAllocateArray (count : Nat) :
    Makes P (qubitAllocateArray count) fun _ _ => True := by
  unfold Machine.qubitAllocateArray
  refine Makes.bind (Makes.of_frames (Frames.checkBuffer _ _)) fun _ => ?_
  refine Makes.bind (Makes.allocateQubits count) fun qs => ?_
  refine Makes.given (fun _ h => h) fun hlen => ?_
  subst hlen
  exact (Makes.insertArray (.qubits qs)).forget

theorem Makes.qubitReleaseArray (id : Nat) : Makes P (qubitReleaseArray id) fun _ _ => True := by
  unfold Machine.qubitReleaseArray
  refine Makes.bind (Makes.getArray id) fun a => ?_
  dsimp only
  refine Makes.ite (fun _ => Makes.throw_bind _) fun _ => ?_
  refine Makes.given (fun _ h => h.2.2) fun ha => ?_
  refine Makes.bind (Makes.setObject ha.disown) fun _ => ?_
  exact Makes.bind (Makes.of_frames (Frames.releaseQubitsOf a)) fun _ => Makes.arrayUpdateRefs _ _

end Arrays

/-! ### Requests on tuples and callables -/

section Tuples

variable {P : Machine → Prop}

theorem Makes.tupleUpdateRefs (id : Option Nat) (increment : Int) :
    Makes P (tupleUpdateRefs id increment) fun _ _ => True := by
  unfold Machine.tupleUpdateRefs
  cases id with
  | none => exact Makes.ret _
  | some id => exact Makes.bind (Makes.updateRefs _ _) fun _ => Makes.ret _

theorem Makes.tupleUpdateAliases (id : Option Nat) (increment : Int) :
    Makes P (tupleUpdateAliases id increment) fun _ _ => True := by
  unfold Machine.tupleUpdateAliases
  cases id with
  | none => exact Makes.ret _
  | some id => exact Makes.updateAliases _ _

theorem Makes.callableUpdateRefs (id : Option Nat) (increment : Int) :
    Makes P (callableUpdateRefs id increment) fun _ _ => True := by
  unfold Machine.callableUpdateRefs
  cases id with
  | none => exact Makes.ret _
  | some id => exact Makes.bind (Makes.updateRefs _ _) fun _ => Makes.ret _

theorem Makes.callableUpdateAliases (id : Option Nat) (increment : Int) :
    Makes P (callableUpdateAliases id increment) fun _ _ => True := by
  unfold Machine.callableUpdateAliases
  cases id with
  | none => exact Makes.ret _
  | some id => exact Makes.updateAliases _ _

theorem Makes.tupleCreate (size : Nat) : Makes P (tupleCreate size) fun _ _ => True :=
  (Makes.insert (.tuple _)).forget

theorem Makes.tupleCopy (id : Nat) (force : Bool) :
    Makes P (tupleCopy id force) fun _ _ => True := by
  unfold Machine.tupleCopy
  refine Makes.bind (Makes.getTuple id) fun t => ?_
  exact Makes.ite (fun _ => Makes.bind (Makes.tupleUpdateRefs _ _) fun _ => Makes.ret _)
    fun _ => (Makes.insert (.tuple _)).forget

theorem Makes.tupleWrite (id offset : Nat) (bytes : List UInt8) :
    Makes P (tupleWrite id offset bytes) fun _ _ => True := by
  unfold Machine.tupleWrite
  exact Makes.bind (Makes.getTuple id) fun _ => Makes.setObject (.tuple _)

theorem Makes.tupleWriteHandle (id offset handle : Nat) :
    Makes P (tupleWriteHandle id offset handle) fun _ _ => True := by
  unfold Machine.tupleWriteHandle
  refine Makes.bind (Makes.getTuple id) fun t => ?_
  exact Makes.bind (Makes.check _) fun _ => Makes.setObject (.tuple _)

theorem Makes.callableCreate (table : FunctionTable Routine)
    (hooks : Option (Option Hook × Option Hook)) (capture : Option Nat) :
    Makes P (callableCreate table hooks capture) fun _ _ => True := by
  unfold Machine.callableCreate
  dsimp only
  exact Makes.ite (fun _ => Makes.throw_bind _) fun _ => (Makes.insert (.callable _)).forget

theorem Makes.callableCopy (id : Nat) (force : Bool) :
    Makes P (callableCopy id force) fun _ _ => True := by
  unfold Machine.callableCopy
  refine Makes.bind (Makes.getCallable id) fun c => ?_
  exact Makes.ite (fun _ => Makes.bind (Makes.callableUpdateRefs _ _) fun _ => Makes.ret _)
    fun _ => (Makes.insert (.callable _)).forget

theorem Makes.applyFunctor (f : Callable → Callable × Except MachineError Unit) (id : Nat) :
    Makes P (applyFunctor f id) fun _ _ => True := by
  unfold Machine.applyFunctor
  refine Makes.bind (Makes.getCallable id) fun c => ?_
  exact Makes.bind (Makes.setObject (.callable _)) fun _ =>
    (Makes.check _).mono (fun _ h => h) fun _ _ _ => trivial

theorem Makes.makeAdjoint (id : Nat) : Makes P (makeAdjoint id) fun _ _ => True :=
  Makes.applyFunctor _ id

theorem Makes.makeControlled (id : Nat) : Makes P (makeControlled id) fun _ _ => True :=
  Makes.applyFunctor _ id

end Tuples

/-! ### Invocation -/

section Invocation

variable {P : Machine → Prop}

/-- The levels of a nested controlled argument tuple are word arrays, read without changing
anything, so whatever held before still holds. -/
theorem Makes.controlLevels : ∀ (remaining level current : Nat) (P : Machine → Prop),
    Makes P (controlLevels remaining level current) fun r m => P m ∧ WordArrays m r.1
  | 0, _, _, _ => Makes.pure_of fun _ hp => ⟨hp, fun _ hid => absurd hid List.not_mem_nil⟩
  | remaining + 1, level, current, P => by
    unfold Machine.controlLevels
    dsimp only
    refine Makes.bind (Makes.tupleData current) fun data => ?_
    refine Makes.ite (fun _ => Makes.throw_bind _) fun _ => ?_
    refine Makes.bind (Makes.tupleReadHandle current 0) fun controls => ?_
    refine Makes.bind (Makes.getArray controls) fun a => ?_
    refine Makes.ite (fun _ => Makes.throw_bind _) fun hsize => ?_
    have hword : a.itemSize = Word.size := Decidable.not_not.1 hsize
    refine Makes.ite (fun _ => Makes.pure_of fun _ hp => ⟨hp.1, ?_⟩) fun _ => ?_
    · intro id hid
      rw [List.mem_singleton.1 hid]
      exact ⟨a, hp.2.1, hword⟩
    -- the deeper levels are read under this level's facts
    refine Makes.bind (Makes.tupleReadHandle current _) fun next => ?_
    refine Makes.bind (Makes.controlLevels remaining (level + 1) next _) fun p => ?_
    obtain ⟨rest, innermost⟩ := p
    refine Makes.pure_of fun _ hp => ⟨hp.1.1, fun id hid => ?_⟩
    rcases List.mem_cons.1 hid with rfl | hid
    · exact ⟨a, hp.1.2.1, hword⟩
    · exact hp.2 id hid

/-- The items of word arrays are words. -/
theorem Makes.gatherWords (levels : List Nat) :
    Makes (fun m => WordArrays m levels)
      (levels.flatMapM fun id => do pure (← Machine.getArray id).items)
      fun words _ => ∀ w ∈ words, w.length = Word.size := by
  -- the loop carries the lists gathered so far, all of words
  suffices ∀ (l : List Nat) (acc : List (List (List UInt8))),
      (∀ ws ∈ acc, ∀ w ∈ ws, w.length = Word.size) →
      Makes (fun m => WordArrays m l)
        (List.flatMapM.loop (fun id => do pure (← Machine.getArray id).items) l acc)
        fun words _ => ∀ w ∈ words, w.length = Word.size from
    this levels [] fun _ hws => absurd hws List.not_mem_nil
  intro l
  induction l with
  | nil =>
    intro acc hacc
    refine Makes.pure_of fun _ _ w hw => ?_
    simp only [List.mem_flatten, List.mem_reverse] at hw
    obtain ⟨ws, hws, hw⟩ := hw
    exact hacc ws hws w hw
  | cons id l ih =>
    intro acc hacc
    have hread : Makes (fun m => WordArrays m (id :: l)) (do pure (← Machine.getArray id).items)
        fun ws m => WordArrays m l ∧ ∀ w ∈ ws, w.length = Word.size := by
      refine Makes.bind (Makes.getArray id) fun a => Makes.pure_of fun _ hp =>
        ⟨fun id' hid' => hp.1 id' (List.mem_cons_of_mem _ hid'), fun w hw => ?_⟩
      obtain ⟨a', ha', hsize⟩ := hp.1 id List.mem_cons_self
      rw [hp.2.1] at ha'
      cases ha'
      -- a made array is laid out, so its items have its item size
      exact (hp.2.2.laidOut.length_item w hw).trans hsize
    refine Makes.bind hread fun ws => ?_
    refine Makes.given (fun _ h => h.2) fun hws => ?_
    refine (ih (ws :: acc) fun ws' hws' => ?_).mono (fun _ h => h.1) fun _ _ h => h
    rcases List.mem_cons.1 hws' with rfl | hws'
    · exact hws
    · exact hacc ws' hws'

/-- Flattening nested controls fills a fresh word array with the words of the levels' word
arrays, one word per item, as many items as words. -/
theorem Makes.flattenControls (args depth : Nat) :
    Makes P (flattenControls args depth) fun _ _ => True := by
  unfold Machine.flattenControls
  refine Makes.bind (Makes.controlLevels depth 0 args P) fun p => ?_
  obtain ⟨levels, innermost⟩ := p
  dsimp only
  refine Makes.bind ((Makes.gatherWords levels).mono (fun _ h => h.2) fun _ _ h => h)
    fun words => ?_
  refine Makes.given (fun _ h => h) fun hw => ?_
  refine Makes.bind (Makes.arrayCreate _ _) fun controls => ?_
  refine Makes.bind (Makes.getArray controls) fun a => ?_
  refine Makes.given (fun _ h => Obj.array.inj (Option.some.inj (h.1.symm.trans h.2.1)))
    fun hnew => ?_
  subst hnew
  refine Makes.bind (Makes.setObject (.words hw)) fun _ => ?_
  refine Makes.bind (Makes.attempt (Makes.tupleCopy _ _)) fun r => ?_
  cases r with
  | error e => exact Makes.bind (Makes.arrayUpdateRefs _ _) fun _ => Makes.throw _
  | ok flat =>
    refine Makes.bind (Makes.attempt (Makes.tupleWriteHandle _ _ _)) fun r => ?_
    cases r with
    | error e =>
      exact Makes.bind (Makes.tupleUpdateRefs _ _) fun _ =>
        Makes.bind (Makes.arrayUpdateRefs _ _) fun _ => Makes.throw _
    | ok u => exact Makes.ret _

/-- A routine keeps the objects made as long as the callables it may call back do: the other
routines write a tuple, drop a reference to a tuple, print or trace. -/
theorem Makes.runRoutine {call : Nat → Option Nat → Option Nat → Exec Unit}
    (hcall : ∀ i a r, Makes (fun _ => True) (call i a r) fun _ _ => True) (r : Routine)
    (capture args result : Option Nat) :
    Makes P (runRoutine call r capture args result) fun _ _ => True := by
  unfold Machine.runRoutine
  refine Makes.bind Makes.get fun m => ?_
  dsimp only
  refine Makes.bind (Makes.of_frames (Frames.note _)) fun _ => ?_
  cases r with
  | mark s =>
    dsimp only
    cases result with
    | none => exact Makes.ret _
    | some res =>
      exact Makes.bind (Makes.tupleData res) fun _ =>
        Makes.ite (fun _ => Makes.tupleWrite _ _ _) fun _ => Makes.ret _
  | controls =>
    dsimp only
    cases args with
    | none => exact Makes.throw _
    | some a =>
      refine Makes.of_frames (Frames.bind (Frames.tupleReadHandle a 0) fun array => ?_)
      refine Frames.bind (Frames.qubits array) fun qs => ?_
      refine Frames.bind (Frames.tupleData a) fun d => ?_
      exact Frames.ite
        (Frames.bind (Frames.map _ (Frames.tupleReadHandle a _)) fun _ => Frames.note _)
        (Frames.bind (Frames.pure _) fun _ => Frames.note _)
  | fail => exact Makes.throw _
  | delegate =>
    dsimp only
    refine Makes.bind (Makes.of_frames (Frames.needCapture capture)) fun c => ?_
    exact Makes.bind (Makes.of_frames (Frames.tupleReadHandle c 0)) fun h =>
      (hcall h args result).of_true
  | releaseArgs => exact Makes.tupleUpdateRefs args (-1)
  | message =>
    refine Makes.of_frames (Frames.bind (Frames.needCapture _) fun c => ?_)
    exact Frames.bind (Frames.tupleReadHandle c 0) fun h => Frames.message h
  | trace =>
    refine Makes.of_frames (Frames.bind (Frames.needCapture _) fun c => ?_)
    refine Frames.bind (Frames.tupleData c) fun data => Frames.ite (Frames.throw_bind _) ?_
    intro m
    rw [final_asFailure]
    exact store_traceSingleOp _ _ _ m

/-- Invocation keeps the objects made, by induction on the fuel that bounds how deeply routines
call back. -/
theorem Makes.invokeWith : ∀ (fuel id : Nat) (args result : Option Nat),
    Makes (fun _ => True) (invokeWith fuel id args result) fun _ _ => True
  | 0, _, _, _ => Makes.throw _
  | fuel + 1, id, args, result => by
    unfold Machine.invokeWith
    refine Makes.bind (Makes.getCallable id) fun c => ?_
    refine Makes.bind (Makes.check _) fun r => ?_
    dsimp only
    have hrun : ∀ (Q : Machine → Prop) (a res : Option Nat),
        Makes Q (Machine.runRoutine (Machine.invokeWith fuel) r c.capture a res)
          fun _ _ => True :=
      fun _ a res => Makes.runRoutine (fun i a r => Makes.invokeWith fuel i a r) r c.capture a res
    refine Makes.ite (fun _ => hrun _ _ _) fun _ => ?_
    cases args with
    | none => exact Makes.throw _
    | some a =>
      refine Makes.ite (fun _ => hrun _ _ _) fun _ => ?_
      refine Makes.bind (Makes.flattenControls _ _) fun flat => ?_
      refine Makes.bind (Makes.attempt (hrun _ _ _)) fun outcome => ?_
      refine Makes.bind (Makes.tupleReadHandle _ _) fun controls => ?_
      refine Makes.bind (Makes.arrayUpdateRefs _ _) fun _ => ?_
      refine Makes.bind (Makes.tupleUpdateRefs _ _) fun _ => ?_
      exact (Makes.check _).forget

theorem Makes.invoke (id : Nat) (args result : Option Nat) :
    Makes P (invoke id args result) fun _ _ => True :=
  (Makes.invokeWith _ id args result).of_true

end Invocation

/-! ### Runs -/

section Runs

variable {m : Machine}

/-- Every request keeps every stored object made. -/
theorem made_serve (h : ObjectsMade m) (r : ObjectRequest) : ObjectsMade (m.serve r) := by
  cases r with
  | arrayCreate itemSize dims => exact (Makes.arrayCreate _ _).made_final h
  | arrayCreate1d itemSize count => exact (Makes.arrayCreate _ _).made_final h
  | arrayCopy id force => exact (Makes.arrayCopy _ _).made_final h
  | arrayConcat head tail => exact (Makes.arrayConcat _ _).made_final h
  | arraySlice id dim r => exact (Makes.arraySlice _ _ _).made_final h
  | arrayProject id dim index => exact (Makes.arrayProject _ _ _).made_final h
  | arraySetElement id index bytes => exact (Makes.arraySetElement _ _ _).made_final h
  | arrayWriteHandle id index handle => exact (Makes.arrayWriteHandle _ _ _).made_final h
  | arrayUpdateRefs id increment => exact (Makes.arrayUpdateRefs _ _).made_final h
  | arrayUpdateAliases id increment => exact (Makes.arrayUpdateAliases _ _).made_final h
  | qubitAllocateArray count => exact (Makes.qubitAllocateArray _).made_final h
  | qubitReleaseArray id => exact (Makes.qubitReleaseArray _).made_final h
  | tupleCreate size => exact (Makes.tupleCreate _).made_final h
  | tupleCopy id force => exact (Makes.tupleCopy _ _).made_final h
  | tupleWrite id offset bytes => exact (Makes.tupleWrite _ _ _).made_final h
  | tupleWriteHandle id offset handle => exact (Makes.tupleWriteHandle _ _ _).made_final h
  | tupleUpdateRefs id increment => exact (Makes.tupleUpdateRefs _ _).made_final h
  | tupleUpdateAliases id increment => exact (Makes.tupleUpdateAliases _ _).made_final h
  | callableCreate table hooks capture => exact (Makes.callableCreate _ _ _).made_final h
  | callableCopy id force => exact (Makes.callableCopy _ _).made_final h
  | makeAdjoint id => exact (Makes.makeAdjoint _).made_final h
  | makeControlled id => exact (Makes.makeControlled _).made_final h
  | callableUpdateRefs id increment => exact (Makes.callableUpdateRefs _ _).made_final h
  | callableUpdateAliases id increment => exact (Makes.callableUpdateAliases _ _).made_final h
  | invoke id args result => exact (Makes.invoke _ _ _).made_final h

theorem made_serveAll (h : ObjectsMade m) (rs : List ObjectRequest) :
    ObjectsMade (m.serveAll rs) := by
  -- the machine a run starts from changes with each request
  induction rs generalizing m with
  | nil => exact h
  | cons r rs ih => exact ih (made_serve h r)

end Runs

end Machine

end QuantumRuntime
