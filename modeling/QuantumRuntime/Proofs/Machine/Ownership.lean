import Mathlib
import QuantumRuntime.Proofs.Machine.Handover

/-!
# Qubit ownership is never duplicated or lost

Only a qubit allocation makes an array that owns qubits, a one-dimensional array of words with
one handle per position. Copies, concatenations, slices and projections are new arrays that own
nothing, and a copy of an owning array is either elided, which hands back the same array with one
more reference, or refused.

An owning array stops owning its qubits in one of two ways: released as a qubit array, which
clears its flag before anything else, or destroyed when its last reference is dropped while it
still owns them. Its handles then go back to the backend one after another, and the first one the
backend refuses stops the release. An array that owns nothing never comes to own qubits again, so
no array gives its qubits back twice, and no array that owns nothing gives any back.

Every request on arrays, tuples and callables other than writes into an array, qubit allocation
and releasing a qubit array hands ownership over as `Handover` says; invoking a callable does too,
whatever its routines do (`Machine.Hands.invoke`). The three remaining requests are specified one
by one, and `Transfer` collects what every request does (`transfer_serve`). A run is a chain of
transfers (`Handed`): over the whole of it no array is handed over twice (`Handed.nodup`), and
every array that owns qubits at its end was made by one of its allocations and has owned them
since (`allocated_of_held`). The main statement, `qubit_ownership_handed_over`, reads these off
any run from a new machine.
-/

namespace QuantumRuntime

namespace ItemArray

theorem ownsQubits_slice (a : ItemArray) (dim : Nat) (s : Selection) :
    (a.slice dim s).ownsQubits = false := by
  unfold ItemArray.slice
  dsimp only
  split <;> rfl

theorem ownsQubits_project (a : ItemArray) (dim index : Nat) :
    (a.project dim index).ownsQubits = false := by
  unfold ItemArray.project
  dsimp only
  split <;> rfl

end ItemArray

namespace Machine

/-! ### Reads -/

section Reads

variable {α : Type} {P : Machine → Prop}

theorem Hands.note (r : Record) : Hands P (note r) fun _ _ => True :=
  Hands.modify (fun _ => rfl) fun _ => rfl

theorem Hands.tupleData (id : Nat) : Hands P (tupleData id) fun _ _ => True :=
  Hands.bind (Hands.getTuple id) fun _ => Hands.ret _

theorem Hands.tupleReadHandle (id offset : Nat) : Hands P (tupleReadHandle id offset) fun _ _ => True :=
  Hands.bind (Hands.getTuple id) fun _ => (Hands.check _).forget

theorem Hands.arrayHandles (id : Nat) : Hands P (arrayHandles id) fun _ _ => True := by
  unfold Machine.arrayHandles
  refine Hands.bind (Hands.getArray id) fun a => ?_
  dsimp only
  exact Hands.ite (fun _ => Hands.throw_bind _) fun _ => Hands.ret _

theorem Hands.qubits (id : Nat) : Hands P (qubits id) fun _ _ => True :=
  Hands.bind (Hands.arrayHandles id) fun _ => Hands.ret _

theorem Hands.getString (id : Nat) : Hands P (getString id) fun _ _ => True := by
  unfold Machine.getString
  refine Hands.bind Hands.get fun m => ?_
  split
  · exact Hands.ret _
  · exact Hands.throw _

theorem Hands.message (id : Nat) : Hands P (message id) fun _ _ => True :=
  Hands.bind (Hands.bind (Hands.getString id) fun _ => Hands.ret _) fun _ =>
    Hands.bind Hands.get fun _ => Hands.bind (Hands.check _) fun _ =>
      Hands.modify (fun _ => rfl) fun _ => rfl

theorem Hands.needCapture (capture : Option Nat) : Hands P (needCapture capture) fun _ _ => True := by
  cases capture with
  | some c => exact Hands.ret c
  | none => exact Hands.throw _

theorem Hands.checkBuffer (itemSize : Nat) (dims : List Nat) :
    Hands P (checkBuffer itemSize dims) fun _ _ => True := by
  unfold Machine.checkBuffer
  split
  · exact Hands.ret _
  · exact Hands.throw _

/-- Reading the levels of a nested controlled argument tuple hands nothing over. -/
theorem Hands.controlLevels : ∀ (remaining level current : Nat),
    Hands (fun _ => True) (controlLevels remaining level current) fun _ _ => True
  | 0, _, _ => Hands.ret _
  | remaining + 1, level, current => by
    unfold Machine.controlLevels
    dsimp only
    refine Hands.bind (Hands.tupleData current) fun data => ?_
    refine Hands.ite (fun _ => Hands.throw_bind _) fun _ => ?_
    refine Hands.bind (Hands.tupleReadHandle current 0) fun controls => ?_
    refine Hands.bind (Hands.getArray controls) fun a => ?_
    refine Hands.ite (fun _ => Hands.throw_bind _) fun _ => Hands.ite (fun _ => Hands.ret _) fun _ => ?_
    refine Hands.bind (Hands.tupleReadHandle current _) fun next => ?_
    exact Hands.bind (Hands.controlLevels remaining (level + 1) next) fun _ => Hands.ret _

theorem Hands.flatMapM {γ β : Type} (f : γ → Exec (List β))
    (h : ∀ a, Hands (fun _ => True) (f a) fun _ _ => True) (l : List γ) :
    Hands P (l.flatMapM f) fun _ _ => True := by
  -- the loop carries the lists gathered so far
  suffices ∀ (l : List γ) (acc : List (List β)),
      Hands (fun _ => True) (List.flatMapM.loop f l acc) fun _ _ => True from
    (this l []).of_true
  intro l
  induction l with
  | nil => exact fun _ => Hands.ret _
  | cons a l ih =>
    exact fun acc => Hands.bind (h a) fun b => (ih (b :: acc)).of_true

end Reads

/-! ### Requests that only hand arrays over -/

section Requests

variable {P : Machine → Prop}

/-- Storing a tuple or a callable hands nothing over. -/
theorem Hands.insert_of_kind_ne {o : Obj} (hk : o.kind ≠ .array) :
    Hands P (Machine.insert o) fun _ _ => True :=
  (Hands.insert (Obj.held_of_kind_ne hk) (Obj.shaped_of_held (Obj.held_of_kind_ne hk))).mono
    (fun _ h => h) fun _ _ _ => trivial

theorem Hands.insertArray {a : ItemArray} (ha : a.ownsQubits = false) :
    Hands P (insertArray a) fun id m => m.heldQubits id = none :=
  Hands.insert (Obj.held_array ha) (Obj.shaped_of_held (Obj.held_array ha))

theorem Hands.arrayCreate (itemSize : Nat) (dims : List Nat) :
    Hands P (arrayCreate itemSize dims) fun id m => m.heldQubits id = none := by
  unfold Machine.arrayCreate
  dsimp only
  refine Hands.ite (fun _ => Hands.throw_bind _) fun _ => ?_
  refine Hands.ite (fun _ => Hands.throw_bind _) fun _ => ?_
  exact Hands.bind (Hands.checkBuffer _ _) fun _ => Hands.insertArray rfl

theorem Hands.arrayCreate1d (itemSize count : Nat) :
    Hands P (arrayCreate1d itemSize count) fun id m => m.heldQubits id = none :=
  Hands.arrayCreate itemSize [count]

/-- A copy is one more reference to the same array, refused for an owning array unless elided, or
a new array that owns nothing. -/
theorem Hands.arrayCopy (id : Nat) (force : Bool) :
    Hands P (arrayCopy id force) fun _ _ => True := by
  unfold Machine.arrayCopy
  refine Hands.bind (Hands.getArray id) fun a => ?_
  dsimp only
  refine Hands.ite (fun _ => Hands.bind (Hands.arrayUpdateRefs _ _) fun _ => Hands.ret _) fun _ => ?_
  exact Hands.ite (fun _ => Hands.throw_bind _) fun _ =>
    (Hands.insertArray rfl).forget

theorem Hands.arrayConcat (head tail : Nat) : Hands P (arrayConcat head tail) fun _ _ => True := by
  unfold Machine.arrayConcat
  refine Hands.bind (Hands.getArray head) fun a => ?_
  refine Hands.bind (Hands.getArray tail) fun b => ?_
  dsimp only
  refine Hands.ite (fun _ => Hands.throw_bind _) fun _ => ?_
  exact Hands.ite (fun _ => Hands.throw_bind _) fun _ =>
    (Hands.insertArray rfl).forget

theorem Hands.arraySlice (id dim : Nat) (r : Range) : Hands P (arraySlice id dim r) fun _ _ => True := by
  unfold Machine.arraySlice
  refine Hands.bind (Hands.getArray id) fun a => ?_
  refine Hands.bind (Hands.check _).forget fun _ => ?_
  refine Hands.bind (Hands.check _).forget fun s => ?_
  exact Hands.ite (fun _ => (Hands.insertArray rfl).forget)
    fun _ => (Hands.insertArray (a.ownsQubits_slice dim s)).forget

theorem Hands.arrayProject (id dim index : Nat) :
    Hands P (arrayProject id dim index) fun _ _ => True := by
  unfold Machine.arrayProject
  refine Hands.bind (Hands.getArray id) fun a => ?_
  dsimp only
  refine Hands.ite (fun _ => Hands.throw_bind _) fun _ => ?_
  refine Hands.bind (Hands.check _).forget fun _ => ?_
  exact Hands.ite (fun _ => Hands.throw_bind _) fun _ =>
    (Hands.insertArray (a.ownsQubits_project dim index)).forget

theorem Hands.arrayUpdateAliases (id : Option Nat) (increment : Int) :
    Hands P (arrayUpdateAliases id increment) fun _ _ => True := by
  unfold Machine.arrayUpdateAliases
  cases id with
  | none => exact Hands.ret _
  | some id => exact Hands.updateAliases _ _

theorem Hands.tupleUpdateRefs (id : Option Nat) (increment : Int) :
    Hands P (tupleUpdateRefs id increment) fun _ _ => True := by
  unfold Machine.tupleUpdateRefs
  cases id with
  | none => exact Hands.ret _
  | some id => exact Hands.bind (Hands.updateRefs (by simp) _) fun _ => Hands.ret _

theorem Hands.callableUpdateRefs (id : Option Nat) (increment : Int) :
    Hands P (callableUpdateRefs id increment) fun _ _ => True := by
  unfold Machine.callableUpdateRefs
  cases id with
  | none => exact Hands.ret _
  | some id => exact Hands.bind (Hands.updateRefs (by simp) _) fun _ => Hands.ret _

theorem Hands.tupleUpdateAliases (id : Option Nat) (increment : Int) :
    Hands P (tupleUpdateAliases id increment) fun _ _ => True := by
  unfold Machine.tupleUpdateAliases
  cases id with
  | none => exact Hands.ret _
  | some id => exact Hands.updateAliases _ _

theorem Hands.callableUpdateAliases (id : Option Nat) (increment : Int) :
    Hands P (callableUpdateAliases id increment) fun _ _ => True := by
  unfold Machine.callableUpdateAliases
  cases id with
  | none => exact Hands.ret _
  | some id => exact Hands.updateAliases _ _

theorem Hands.tupleCreate (size : Nat) : Hands P (tupleCreate size) fun _ _ => True :=
  Hands.insert_of_kind_ne (by simp [Obj.kind])

theorem Hands.tupleCopy (id : Nat) (force : Bool) : Hands P (tupleCopy id force) fun _ _ => True := by
  unfold Machine.tupleCopy
  refine Hands.bind (Hands.getTuple id) fun t => ?_
  exact Hands.ite (fun _ => Hands.bind (Hands.tupleUpdateRefs _ _) fun _ => Hands.ret _)
    fun _ => Hands.insert_of_kind_ne (by simp [Obj.kind])

theorem Hands.tupleWrite (id offset : Nat) (bytes : List UInt8) :
    Hands P (tupleWrite id offset bytes) fun _ _ => True := by
  unfold Machine.tupleWrite
  exact Hands.bind (Hands.getTuple id) fun _ => Hands.writeBack rfl fun _ => trivial

theorem Hands.tupleWriteHandle (id offset handle : Nat) :
    Hands P (tupleWriteHandle id offset handle) fun _ _ => True := by
  unfold Machine.tupleWriteHandle
  refine Hands.bind (Hands.getTuple id) fun t => ?_
  exact Hands.bind (Hands.check _) fun _ => Hands.assume fun _ => Hands.writeBack rfl fun _ => trivial

theorem Hands.callableCreate (table : FunctionTable Routine)
    (hooks : Option (Option Hook × Option Hook)) (capture : Option Nat) :
    Hands P (callableCreate table hooks capture) fun _ _ => True := by
  unfold Machine.callableCreate
  dsimp only
  exact Hands.ite (fun _ => Hands.throw_bind _) fun _ => Hands.insert_of_kind_ne (by simp [Obj.kind])

theorem Hands.callableCopy (id : Nat) (force : Bool) :
    Hands P (callableCopy id force) fun _ _ => True := by
  unfold Machine.callableCopy
  refine Hands.bind (Hands.getCallable id) fun c => ?_
  exact Hands.ite (fun _ => Hands.bind (Hands.callableUpdateRefs _ _) fun _ => Hands.ret _)
    fun _ => Hands.insert_of_kind_ne (by simp [Obj.kind])

theorem Hands.applyFunctor (f : Callable → Callable × Except MachineError Unit) (id : Nat) :
    Hands P (applyFunctor f id) fun _ _ => True := by
  unfold Machine.applyFunctor
  refine Hands.bind (Hands.getCallable id) fun c => ?_
  refine Hands.bind (Hands.writeBack rfl fun _ => trivial) fun _ =>
    (Hands.check _).mono (fun _ h => h) fun _ _ _ => trivial

theorem Hands.makeAdjoint (id : Nat) : Hands P (makeAdjoint id) fun _ _ => True :=
  Hands.applyFunctor _ id

theorem Hands.makeControlled (id : Nat) : Hands P (makeControlled id) fun _ _ => True :=
  Hands.applyFunctor _ id

end Requests

/-! ### Invocation -/

section Invocation

variable {P : Machine → Prop}

/-- A routine hands over what the callables it calls back hand over, and nothing else: the other
routines write a tuple, drop a reference to a tuple, print or trace. -/
theorem Hands.runRoutine {call : Nat → Option Nat → Option Nat → Exec Unit}
    (hcall : ∀ i a r, Hands (fun _ => True) (call i a r) fun _ _ => True) (r : Routine)
    (capture args result : Option Nat) :
    Hands P (runRoutine call r capture args result) fun _ _ => True := by
  unfold Machine.runRoutine
  refine Hands.bind Hands.get fun m => ?_
  dsimp only
  refine Hands.bind (Hands.note _) fun _ => ?_
  cases r with
  | mark s =>
    dsimp only
    cases result with
    | none => exact Hands.ret _
    | some res =>
      exact Hands.bind (Hands.tupleData res) fun _ =>
        Hands.ite (fun _ => Hands.tupleWrite _ _ _) fun _ => Hands.ret _
  | controls =>
    dsimp only
    cases args with
    | none => exact Hands.throw _
    | some a =>
      refine Hands.bind (Hands.tupleReadHandle a 0) fun array => ?_
      refine Hands.bind (Hands.qubits array) fun qs => ?_
      refine Hands.bind (Hands.tupleData a) fun d => ?_
      exact Hands.ite (fun _ => Hands.bind (Hands.map _ (Hands.tupleReadHandle a _)) fun _ => Hands.note _)
        fun _ => Hands.bind (Hands.ret _) fun _ => Hands.note _
  | fail => exact Hands.throw _
  | delegate =>
    dsimp only
    refine Hands.bind (Hands.needCapture capture) fun c => ?_
    exact Hands.bind (Hands.tupleReadHandle c 0) fun h => hcall h args result
  | releaseArgs => exact Hands.tupleUpdateRefs args (-1)
  | message =>
    refine Hands.bind (Hands.needCapture _) fun c => ?_
    exact Hands.bind (Hands.tupleReadHandle c 0) fun h => Hands.message h
  | trace =>
    refine Hands.bind (Hands.needCapture _) fun c => ?_
    refine Hands.bind (Hands.tupleData c) fun data => Hands.ite (fun _ => Hands.throw_bind _) fun _ => ?_
    -- the traced operation moves the tracer and nothing else
    intro m h _
    refine ⟨[], ?_⟩
    dsimp only
    unfold asFailure
    generalize hx : traceSingleOp _ _ _ m = r
    cases r with
    | ok a s => exact ⟨Handover.of_traceSingleOp h hx, trivial⟩
    | error e s => exact Handover.of_traceSingleOp h hx

/-- Filling the joined controls array, which is new and owns nothing, hands nothing over. -/
theorem Hands.setItems {id : Nat} {a : ItemArray} (items : List (List UInt8)) :
    Hands (fun m => m.heldQubits id = none ∧ m.object? ⟨.array, id⟩ = some (.array a))
      (Machine.setObject id (.array { a with items })) fun _ _ => True := by
  intro m h ⟨hfree, ha⟩
  have hl := (object?_eq_some.1 ha).1
  have hown : a.ownsQubits = false := by
    cases hown : a.ownsQubits
    · rfl
    · simp [heldQubits, hl, Obj.held, hown] at hfree
  have hnone : (Obj.array { a with items }).held = none := Obj.held_array hown
  exact Hands.setObject (hnone.trans (Obj.held_array hown).symm) (fun _ => Obj.shaped_of_held hnone) m
    h hl

/-- Flattening nested controls makes a joined array that owns nothing and a copied tuple, and
releases what it made when a later step fails. -/
theorem Hands.flattenControls (args depth : Nat) :
    Hands P (flattenControls args depth) fun _ _ => True := by
  unfold Machine.flattenControls
  refine Hands.bind (Hands.controlLevels depth 0 args).of_true fun p => ?_
  obtain ⟨levels, innermost⟩ := p
  dsimp only
  refine Hands.bind (Hands.flatMapM _ (fun id => Hands.bind (Hands.getArray id) fun _ => Hands.ret _)
    _) fun words => ?_
  refine Hands.bind (Hands.arrayCreate1d _ _) fun controls => ?_
  refine Hands.bind (Hands.getArray controls) fun a => ?_
  refine Hands.bind (Hands.setItems words) fun _ => ?_
  refine Hands.bind (Hands.attempt (Hands.tupleCopy _ _)) fun r => ?_
  cases r with
  | error e => exact Hands.bind (Hands.arrayUpdateRefs _ _) fun _ => Hands.throw _
  | ok flat =>
    refine Hands.bind (Hands.attempt (Hands.tupleWriteHandle _ _ _)) fun r => ?_
    cases r with
    | error e =>
      exact Hands.bind (Hands.tupleUpdateRefs _ _) fun _ =>
        Hands.bind (Hands.arrayUpdateRefs _ _) fun _ => Hands.throw _
    | ok u => exact Hands.ret _

/-- Invocation hands arrays over only by dropping references, by induction on the fuel that
bounds how deeply routines call back. -/
theorem Hands.invokeWith : ∀ (fuel id : Nat) (args result : Option Nat),
    Hands (fun _ => True) (invokeWith fuel id args result) fun _ _ => True
  | 0, _, _, _ => Hands.throw _
  | fuel + 1, id, args, result => by
    unfold Machine.invokeWith
    refine Hands.bind (Hands.getCallable id) fun c => ?_
    refine Hands.bind (Hands.check _) fun r => ?_
    dsimp only
    have hrun : ∀ (Q : Machine → Prop) (a res : Option Nat),
        Hands Q (Machine.runRoutine (Machine.invokeWith fuel) r c.capture a res) fun _ _ => True :=
      fun _ a res => Hands.runRoutine (fun i a r => Hands.invokeWith fuel i a r) r c.capture a res
    refine Hands.ite (fun _ => hrun _ _ _) fun _ => ?_
    cases args with
    | none => exact Hands.throw _
    | some a =>
      refine Hands.ite (fun _ => hrun _ _ _) fun _ => ?_
      -- the joined array and the flattened tuple are released after the run
      refine Hands.bind (Hands.flattenControls _ _) fun flat => ?_
      refine Hands.bind (Hands.attempt (hrun _ _ _)) fun outcome => ?_
      refine Hands.bind (Hands.tupleReadHandle _ _) fun controls => ?_
      refine Hands.bind (Hands.arrayUpdateRefs _ _) fun _ => ?_
      refine Hands.bind (Hands.tupleUpdateRefs _ _) fun _ => ?_
      exact (Hands.check _).forget

theorem Hands.invoke (id : Nat) (args result : Option Nat) :
    Hands P (invoke id args result) fun _ _ => True :=
  (Hands.invokeWith _ id args result).of_true

end Invocation

/-! ### What one request does to ownership -/

/-- What serving request `r` from `m` to `m'` does to qubit ownership, where `gone` lists the arrays
that stopped owning qubits during it, in the order they did, each with the handles it held. The
store stays `Owned`; only a qubit allocation makes an array that owns qubits, under the next id,
so an array that owns nothing never comes to own any; the arrays in `gone` are exactly those that
owned qubits before and own none after, each listed once; the backend moved only by taking back
the handles of each of them in turn, stopping at the first one it refused, besides allocating and
tracing; and each of them was released as a qubit array by `r` itself or destroyed. -/
structure Transfer (m : Machine) (r : ObjectRequest) (gone : List (Nat × List Nat)) (m' : Machine) :
    Prop where
  owned : Owned m'
  nextId_le : m.nextId ≤ m'.nextId
  untracked : m.tracker = none → m'.tracker = none
  made : ∀ id hs, m'.heldQubits id = some hs → (m.heldQubits id).isSome ∨
    id = m.nextId ∧ ∃ n, r = .qubitAllocateArray n ∧ qubitAllocateArray n m = .ok id m'
  mem_gone : ∀ id hs, (id, hs) ∈ gone ↔ m.heldQubits id = some hs ∧ m'.heldQubits id = none
  nodup : (gone.map Prod.fst).Nodup
  moves : Backend.Moves m.backend (gone.map Prod.snd) m'.backend
  released : ∀ p ∈ gone, r = .qubitReleaseArray p.1 ∨ m'.objects.lookup p.1 = none

section Transfer

variable {m m' : Machine} {r : ObjectRequest} {gone : List (Nat × List Nat)}

/-- Handing over is a transfer in which every array that stops owning qubits is destroyed. -/
theorem Handover.transfer (h : Handover m gone m') : Transfer m r gone m' where
  owned := h.owned
  nextId_le := h.nextId_le
  untracked := h.untracked
  made id hs hh := .inl (by rw [h.held_of_held id hs hh]; rfl)
  mem_gone id hs := by
    rw [h.mem_gone]
    constructor
    · rintro ⟨hh, hl⟩
      exact ⟨hh, heldQubits_eq_none hl⟩
    · rintro ⟨hh, hn⟩
      rcases h.held_or_free id hs hh with hh' | hl
      · rw [hh'] at hn
        cases hn
      · exact ⟨hh, hl⟩
  nodup := h.nodup
  moves := h.moves
  released p hp := .inr ((h.mem_gone p.1 p.2).1 hp).2

theorem Hands.transfer {α : Type} {x : Exec α} {Q : α → Machine → Prop}
    (hx : Hands (fun _ => True) x Q) (h : Owned m) : ∃ gone, Transfer m r gone (final (x m)) := by
  obtain ⟨gone, hg⟩ := hx.handover_final h trivial
  exact ⟨gone, hg.transfer⟩

/-- A step that keeps which ids own qubits, and the backend, transfers nothing. -/
theorem Transfer.of_isSome (h' : Owned m') (hn : m.nextId ≤ m'.nextId)
    (ht : m.tracker = none → m'.tracker = none) (hb : Backend.Moves m.backend [] m'.backend)
    (hsome : ∀ id, (m'.heldQubits id).isSome = (m.heldQubits id).isSome) : Transfer m r [] m' where
  owned := h'
  nextId_le := hn
  untracked := ht
  made id hs hh := .inl (by rw [← hsome, hh]; rfl)
  mem_gone id hs := by
    refine ⟨fun hm => absurd hm List.not_mem_nil, fun hgone => ?_⟩
    obtain ⟨hh, hn'⟩ := hgone
    have := hsome id
    rw [hh, hn'] at this
    cases this
  nodup := List.nodup_nil
  moves := hb
  released _ hp := absurd hp List.not_mem_nil

theorem Transfer.refl (h : Owned m) : Transfer m r [] m :=
  .of_isSome h le_rfl id (.stay _) fun _ => rfl

/-- An id that owns qubits after a transfer owned them before, or is the id it allocated. -/
theorem Transfer.held_or_next {id : Nat} (ht : Transfer m r gone m')
    (hs : (m'.heldQubits id).isSome) : (m.heldQubits id).isSome ∨ id = m.nextId := by
  obtain ⟨hs', hhs⟩ := Option.isSome_iff_exists.1 hs
  rcases ht.made id hs' hhs with hm | ⟨heq, -⟩
  · exact .inl hm
  · exact .inr heq

/-- A transfer followed by a handover is a transfer, provided the arrays that still own qubits
halfway owned the same qubits at the start. -/
theorem Transfer.handover {m₂ : Machine} {g₁ g₂ : List (Nat × List Nat)} (h : Owned m)
    (ht : Transfer m r g₁ m') (hh : Handover m' g₂ m₂)
    (hkeep : ∀ id hs, m'.heldQubits id = some hs → m.heldQubits id = some hs) :
    Transfer m r (g₁ ++ g₂) m₂ where
  owned := hh.owned
  nextId_le := ht.nextId_le.trans hh.nextId_le
  untracked h' := hh.untracked (ht.untracked h')
  made id hs hh' := .inl (by rw [hkeep id hs (hh.held_of_held id hs hh')]; rfl)
  mem_gone id hs := by
    rw [List.mem_append, ht.mem_gone, hh.mem_gone]
    constructor
    · rintro (⟨hm, hn⟩ | ⟨hm, hl⟩)
      · refine ⟨hm, ?_⟩
        cases hq : m₂.heldQubits id with
        | none => rfl
        | some hs' =>
          rw [hh.held_of_held id hs' hq] at hn
          cases hn
      · exact ⟨hkeep id hs hm, heldQubits_eq_none hl⟩
    · rintro ⟨hm, hn⟩
      cases hq : m'.heldQubits id with
      | none => exact .inl ⟨hm, rfl⟩
      | some hs' =>
        have hs'eq : hs' = hs := by
          have := hkeep id hs' hq
          rw [hm] at this
          exact (Option.some.inj this).symm
        subst hs'eq
        rcases hh.held_or_free id hs' hq with hq' | hl
        · rw [hq'] at hn
          cases hn
        · exact .inr ⟨rfl, hl⟩
  -- the first arrays own nothing halfway, where the second ones still own their qubits
  nodup := nodup_gone_append m' ht.nodup hh.nodup (fun p hp => ((ht.mem_gone p.1 p.2).1 hp).2)
    fun q hq => by rw [((hh.mem_gone q.1 q.2).1 hq).1]; rfl
  moves := by
    rw [List.map_append]
    exact ht.moves.trans hh.moves
  released p hp := by
    rcases List.mem_append.1 hp with hp | hp
    · rcases ht.released p hp with hr | hl
      · exact .inl hr
      · have hlt : p.1 < m'.nextId :=
          lt_of_lt_of_le (h.id_lt_of_held ((ht.mem_gone p.1 p.2).1 hp).1) ht.nextId_le
        exact .inr (hh.stays_free p.1 hlt hl)
    · exact .inr ((hh.mem_gone p.1 p.2).1 hp).2

/-- A step that keeps the objects transfers nothing, whatever it allocates or traces. -/
theorem Transfer.of_objects (h : Owned m) (ho : m'.objects = m.objects) (hn : m.nextId ≤ m'.nextId)
    (ht : m.tracker = none → m'.tracker = none) (hb : Backend.Moves m.backend [] m'.backend) :
    Transfer m r [] m' := by
  refine .of_isSome ⟨fun id o hl => ?_, fun id o hl => ?_⟩ hn ht hb fun id => by simp only [heldQubits, ho]
  · rw [ho] at hl
    exact lt_of_lt_of_le (h.ids_lt id o hl) hn
  · rw [ho] at hl
    exact h.shaped id o hl

theorem getArray_eq (id : Nat) (m : Machine) :
    getArray id m = match m.objects.lookup id with
      | some (.array a) => .ok a m
      | _ => .error (.released ⟨.array, id⟩) m := by
  unfold Machine.getArray
  rw [run_bind, getObject_eq, object?_eq]
  cases m.objects.lookup id with
  | none => rfl
  | some o => cases o <;> rfl

theorem lookup_update (l : List (Nat × Obj)) (j id : Nat) (o : Obj) :
    (l.map fun (i, p) => if i = j then (i, o) else (i, p)).lookup id =
      if id = j then (l.lookup j).map fun _ => o else l.lookup id := by
  split
  · next h =>
    subst h
    exact lookup_map_update_self _ _ _
  · next h => exact lookup_map_update_ne h _ _

theorem lookup_update_of_lookup {l : List (Nat × Obj)} {j : Nat} {p : Obj} (hl : l.lookup j = some p)
    (o : Obj) (i : Nat) :
    (l.map fun (k, q) => if k = j then (k, o) else (k, q)).lookup i =
      if i = j then some o else l.lookup i := by
  rw [lookup_update]
  split
  · next hi =>
    subst hi
    rw [hl]
    rfl
  · rfl

/-- Changing the store at one id below the next one, to a shaped object, keeps it `Owned`. -/
theorem Owned.change (h : Owned m) {j : Nat} {o : Obj}
    (hlook : ∀ i, m'.objects.lookup i = if i = j then some o else m.objects.lookup i)
    (hj : j < m'.nextId) (hshape : o.Shaped) (hn : m.nextId ≤ m'.nextId) : Owned m' := by
  constructor
  · intro i p hp
    rw [hlook] at hp
    split at hp
    · next hi =>
      subst hi
      exact hj
    · exact (h.ids_lt i p hp).trans_le hn
  · intro i p hp
    rw [hlook] at hp
    split at hp
    · cases hp
      exact hshape
    · exact h.shaped i p hp

/-- Writing into an array keeps which arrays own qubits; only the handles an owning array holds
may change. -/
theorem Transfer.write (h : Owned m) {j : Nat} {a : ItemArray}
    (hl : m.objects.lookup j = some (.array a)) (index : Nat) (bytes : List UInt8) :
    Transfer m r [] { m with objects := m.objects.map fun (i, p) =>
      if i = j then (i, .array (a.writeItem index bytes)) else (i, p) } := by
  have hshape : (Obj.array (a.writeItem index bytes)).Shaped := by
    intro ho
    obtain ⟨h1, h2⟩ := h.shaped j _ hl ho
    exact ⟨h1, by simp [ItemArray.writeItem, h2]⟩
  have hlook := lookup_update_of_lookup hl (.array (a.writeItem index bytes))
  refine .of_isSome (h.change hlook (h.ids_lt j _ hl) hshape le_rfl) le_rfl id (.stay _) fun id => ?_
  simp only [heldQubits, hlook]
  split
  · next hid =>
    subst hid
    -- a write keeps the flag
    cases hown : a.ownsQubits <;> simp [hl, Obj.held, ItemArray.writeItem, hown]
  · rfl

theorem transfer_arraySetElement (h : Owned m) (id index : Nat) (bytes : List UInt8) :
    Transfer m r [] (final (arraySetElement id index bytes m)) := by
  unfold Machine.arraySetElement
  rw [run_bind, getArray_eq]
  cases hl : m.objects.lookup id with
  | none => exact Transfer.refl h
  | some o =>
    cases o with
    | array a =>
      dsimp only
      rw [run_bind]
      cases hi : a.item index with
      | error e => exact Transfer.refl h
      | ok item => exact Transfer.write h hl index bytes
    | tuple _ => exact Transfer.refl h
    | callable _ => exact Transfer.refl h

theorem transfer_arrayWriteHandle (h : Owned m) (id index handle : Nat) :
    Transfer m r [] (final (arrayWriteHandle id index handle m)) := by
  unfold Machine.arrayWriteHandle
  rw [run_bind, getArray_eq]
  cases hl : m.objects.lookup id with
  | none => exact Transfer.refl h
  | some o =>
    cases o with
    | array a =>
      dsimp only
      rw [run_bind]
      cases hi : a.item index with
      | error e => exact Transfer.refl h
      | ok item =>
        dsimp only [check, run_pure]
        split
        · exact Transfer.refl h
        · exact Transfer.write h hl index _
    | tuple _ => exact Transfer.refl h
    | callable _ => exact Transfer.refl h

/-- Allocating qubits one per item moves the backend by allocations only and keeps the store; it
gives one qubit per item. -/
theorem mapM_allocateQubit {γ : Type} (l : List γ) (m : Machine) :
    ∃ b, Backend.Moves m.backend [] b ∧
      match l.mapM (fun _ => onBackend fun b => b.allocateQubit) m with
      | .ok qs m' => m' = { m with backend := b } ∧ qs.length = l.length
      | .error _ m' => m' = { m with backend := b } := by
  induction l generalizing m with
  | nil => exact ⟨m.backend, .stay _, rfl, rfl⟩
  | cons x l ih =>
    rw [List.mapM_cons, run_bind, onBackend_eq]
    cases hq : m.backend.allocateQubit with
    | error e => exact ⟨m.backend, .stay _, rfl⟩
    | ok p =>
      obtain ⟨q, b₁⟩ := p
      obtain ⟨b, hb, hr⟩ := ih { m with backend := b₁ }
      refine ⟨b, .allocate hq hb, ?_⟩
      dsimp only
      rw [run_bind]
      cases hx : l.mapM (fun _ => onBackend fun b => b.allocateQubit) { m with backend := b₁ } with
      | ok qs m' =>
        rw [hx] at hr
        exact ⟨hr.1, by simp [hr.2]⟩
      | error e m' =>
        rw [hx] at hr
        exact hr

/-- A qubit allocation moves the backend by allocations only, and when it succeeds it stores, under
the next id, an array that owns its qubits: one word per qubit in a single dimension. -/
theorem qubitAllocateArray_cases (count : Nat) (m : Machine) :
    ∃ b, Backend.Moves m.backend [] b ∧
      match qubitAllocateArray count m with
      | .ok id m' => id = m.nextId ∧ m'.nextId = m.nextId + 1 ∧ m'.backend = b ∧
          (m.tracker = none → m'.tracker = none) ∧ ∃ a : ItemArray, a.ownsQubits = true ∧
            a.itemSize = Word.size ∧ a.dims = [a.items.length] ∧
            m'.objects = m.objects ++ [(m.nextId, .array a)]
      | .error _ m' => m'.objects = m.objects ∧ m.nextId ≤ m'.nextId ∧ m'.backend = b ∧
          (m.tracker = none → m'.tracker = none) := by
  unfold Machine.qubitAllocateArray Machine.checkBuffer
  rw [run_bind]
  cases hbuf : bufferLength? Word.size [count] with
  | none => exact ⟨m.backend, .stay _, rfl, le_rfl, rfl, fun h => h⟩
  | some len =>
    obtain ⟨b, hb, hr⟩ := mapM_allocateQubit (List.range count) m
    refine ⟨b, hb, ?_⟩
    simp only [run_pure]
    rw [run_bind]
    cases hx : (List.range count).mapM (fun _ => onBackend fun b => b.allocateQubit) m with
    | error e m' =>
      rw [hx] at hr
      subst hr
      exact ⟨rfl, le_rfl, rfl, fun h => h⟩
    | ok qs m₁ =>
      rw [hx] at hr
      obtain ⟨rfl, hlen⟩ := hr
      have hs := insert_spec (.array { ItemArray.new Word.size [count] with
        items := qs.map fun q => Word.encode q.index, ownsQubits := true }) { m with backend := b }
      dsimp only [insertArray]
      cases hi : Machine.insert (.array { ItemArray.new Word.size [count] with
          items := qs.map fun q => Word.encode q.index, ownsQubits := true }) { m with backend := b } with
      | ok id m' =>
        rw [hi] at hs
        obtain ⟨rfl, ho, hn, hb', ht⟩ := hs
        refine ⟨rfl, hn, hb', ht, _, rfl, rfl, ?_, ho⟩
        simp [ItemArray.new, hlen]
      | error e m' =>
        rw [hi] at hs
        obtain ⟨ho, hn, hb', ht⟩ := hs
        exact ⟨ho, by rw [hn]; exact Nat.le_succ _, hb', fun h => ht.trans h⟩

/-- A qubit allocation makes the one new array that owns qubits, under the next id. -/
theorem transfer_qubitAllocateArray (h : Owned m) (count : Nat) :
    Transfer m (.qubitAllocateArray count) [] (final (qubitAllocateArray count m)) := by
  obtain ⟨b, hb, hr⟩ := qubitAllocateArray_cases count m
  cases hx : qubitAllocateArray count m with
  | error e m' =>
    rw [hx] at hr
    obtain ⟨ho, hn, hb', ht⟩ := hr
    exact Transfer.of_objects h ho hn ht (hb' ▸ hb)
  | ok id m' =>
    rw [hx] at hr
    obtain ⟨rfl, hn, hb', ht, a, ha, hsize, hdims, ho⟩ := hr
    show Transfer m _ [] m'
    have hfresh := h.lookup_nextId
    have hlook : ∀ j, m'.objects.lookup j =
        if j = m.nextId then some (.array a) else m.objects.lookup j := by
      intro j
      rw [ho, List.lookup_append]
      split
      · next hj =>
        subst hj
        simp [hfresh]
      · next hj =>
        have hne : (j == m.nextId) = false := beq_false_of_ne hj
        rw [List.lookup_cons, hne, List.lookup_nil, Option.or_none]
    have hold : ∀ j, j ≠ m.nextId → m'.heldQubits j = m.heldQubits j := fun j hj => by
      simp only [heldQubits, hlook, if_neg hj]
    refine ⟨h.change hlook (by omega) (fun _ => ⟨hsize, hdims⟩) (by omega), by omega, ht,
      fun j hs hh => ?_, fun j hs => ?_, List.nodup_nil, hb' ▸ hb,
      fun _ hp => absurd hp List.not_mem_nil⟩
    · by_cases hj : j = m.nextId
      · subst hj
        exact .inr ⟨rfl, count, rfl, hx⟩
      · rw [hold j hj] at hh
        exact .inl (by rw [hh]; rfl)
    · refine ⟨fun hm => absurd hm List.not_mem_nil, fun hgone => ?_⟩
      obtain ⟨hh, hn'⟩ := hgone
      have hj : j ≠ m.nextId := fun hj => by
        rw [hj, heldQubits_eq_none hfresh] at hh
        cases hh
      rw [hold j hj, hh] at hn'
      cases hn'

/-- Clearing the flag of an owning array and taking its handles back hands that array over, and
leaves every other owning array as it was. -/
theorem Transfer.clear (h : Owned m) {j : Nat} {a : ItemArray}
    (hl : m.objects.lookup j = some (.array a)) (ha : a.ownsQubits = true)
    (ho : m'.objects = m.objects.map fun (i, p) =>
      if i = j then (i, .array { a with ownsQubits := false }) else (i, p))
    (hn : m'.nextId = m.nextId) (ht : m'.tracker = m.tracker)
    (hb : m'.backend = (m.backend.releaseAll a.handles).1) :
    Transfer m (.qubitReleaseArray j) [(j, a.handles)] m' ∧
      ∀ i hs, m'.heldQubits i = some hs → m.heldQubits i = some hs := by
  have hlook : ∀ i, m'.objects.lookup i =
      if i = j then some (.array { a with ownsQubits := false }) else m.objects.lookup i := by
    intro i
    rw [ho]
    exact lookup_update_of_lookup hl _ i
  have hheldj : m.heldQubits j = some a.handles :=
    heldQubits_eq_some.2 ⟨_, hl, by simp [Obj.held, ha]⟩
  have hfreej : m'.heldQubits j = none := by simp [heldQubits, hlook, Obj.held]
  have hother : ∀ i, i ≠ j → m'.heldQubits i = m.heldQubits i := fun i hi => by
    simp only [heldQubits, hlook, if_neg hi]
  have hkeep : ∀ i hs, m'.heldQubits i = some hs → m.heldQubits i = some hs := by
    intro i hs hh
    by_cases hi : i = j
    · subst hi
      rw [hfreej] at hh
      cases hh
    · rwa [hother i hi] at hh
  have howned : Owned m' :=
    h.change hlook (hn ▸ h.ids_lt j _ hl) (Obj.shaped_of_held (Obj.held_array rfl)) hn.ge
  refine ⟨⟨howned, hn.ge, fun h' => ht.trans h', fun i hs hh => .inl (by rw [hkeep i hs hh]; rfl),
    fun i hs => ?_, List.nodup_singleton j, hb ▸ Backend.Moves.release_one _ _,
    fun p hp => .inl (by rw [List.mem_singleton.1 hp])⟩, hkeep⟩
  rw [List.mem_singleton, Prod.mk.injEq]
  constructor
  · rintro ⟨rfl, rfl⟩
    exact ⟨hheldj, hfreej⟩
  · rintro ⟨hh, hn'⟩
    by_cases hi : i = j
    · subst hi
      rw [hheldj] at hh
      exact ⟨rfl, (Option.some.inj hh).symm⟩
    · rw [hother i hi, hh] at hn'
      cases hn'

/-- Releasing a qubit array hands it over once: its flag is cleared before its handles go back,
so the reference dropped afterwards destroys at most an array that owns nothing. -/
theorem transfer_qubitReleaseArray (h : Owned m) (id : Nat) :
    ∃ gone, Transfer m (.qubitReleaseArray id) gone (final (qubitReleaseArray id m)) := by
  unfold Machine.qubitReleaseArray
  rw [run_bind, getArray_eq]
  cases hl : m.objects.lookup id with
  | none => exact ⟨[], Transfer.refl h⟩
  | some o =>
    cases o with
    | tuple _ => exact ⟨[], Transfer.refl h⟩
    | callable _ => exact ⟨[], Transfer.refl h⟩
    | array a =>
      dsimp only
      cases ha : a.ownsQubits with
      | false => exact ⟨[], Transfer.refl h⟩
      | true =>
        simp only [Bool.not_true, Bool.false_eq_true, if_false, run_bind, setObject_eq,
          releaseQubitsOf_eq]
        generalize hm₂ : ({ m with
          objects := m.objects.map fun (i, p) =>
            if i = id then (i, .array { a with ownsQubits := false }) else (i, p)
          backend := (m.backend.releaseAll a.handles).1 } : Machine) = m₂
        obtain ⟨hcleared, hkeep⟩ := Transfer.clear h hl ha (by rw [← hm₂] : m₂.objects = _)
          (by rw [← hm₂]) (by rw [← hm₂]) (by rw [← hm₂])
        cases hrel : (m.backend.releaseAll a.handles).2 with
        | some e => exact ⟨_, hcleared⟩
        | none =>
          -- the array no longer owns its qubits when its reference is dropped
          have hu : Hands (fun _ => True) (arrayUpdateRefs (some id) (-1)) fun _ _ => True :=
            Hands.arrayUpdateRefs _ _
          obtain ⟨g, hg⟩ := hu.handover_final hcleared.owned trivial
          exact ⟨[(id, a.handles)] ++ g, hcleared.handover h hg hkeep⟩

/-- Every request is a transfer: the per-request statement, over all twenty-five requests. -/
theorem transfer_serve (h : Owned m) (r : ObjectRequest) : ∃ gone, Transfer m r gone (m.serve r) := by
  cases r with
  | arrayCreate itemSize dims => exact (Hands.arrayCreate _ _).transfer h
  | arrayCreate1d itemSize count => exact (Hands.arrayCreate1d _ _).transfer h
  | arrayCopy id force => exact (Hands.arrayCopy _ _).transfer h
  | arrayConcat head tail => exact (Hands.arrayConcat _ _).transfer h
  | arraySlice id dim r => exact (Hands.arraySlice _ _ _).transfer h
  | arrayProject id dim index => exact (Hands.arrayProject _ _ _).transfer h
  | arraySetElement id index bytes => exact ⟨[], transfer_arraySetElement h _ _ _⟩
  | arrayWriteHandle id index handle => exact ⟨[], transfer_arrayWriteHandle h _ _ _⟩
  | arrayUpdateRefs id increment => exact (Hands.arrayUpdateRefs _ _).transfer h
  | arrayUpdateAliases id increment => exact (Hands.arrayUpdateAliases _ _).transfer h
  | qubitAllocateArray count => exact ⟨[], transfer_qubitAllocateArray h _⟩
  | qubitReleaseArray id => exact transfer_qubitReleaseArray h _
  | tupleCreate size => exact (Hands.tupleCreate _).transfer h
  | tupleCopy id force => exact (Hands.tupleCopy _ _).transfer h
  | tupleWrite id offset bytes => exact (Hands.tupleWrite _ _ _).transfer h
  | tupleWriteHandle id offset handle => exact (Hands.tupleWriteHandle _ _ _).transfer h
  | tupleUpdateRefs id increment => exact (Hands.tupleUpdateRefs _ _).transfer h
  | tupleUpdateAliases id increment => exact (Hands.tupleUpdateAliases _ _).transfer h
  | callableCreate table hooks capture => exact (Hands.callableCreate _ _ _).transfer h
  | callableCopy id force => exact (Hands.callableCopy _ _).transfer h
  | makeAdjoint id => exact (Hands.makeAdjoint _).transfer h
  | makeControlled id => exact (Hands.makeControlled _).transfer h
  | callableUpdateRefs id increment => exact (Hands.callableUpdateRefs _ _).transfer h
  | callableUpdateAliases id increment => exact (Hands.callableUpdateAliases _ _).transfer h
  | invoke id args result => exact (Hands.invoke _ _ _).transfer h

end Transfer

/-! ### Copies of owning arrays -/

section Copies

variable {m : Machine} {id : Nat} {a : ItemArray}

/-- With a tracker in agreement with the store, or none, adding references to a stored object
succeeds and raises its count. -/
theorem addRefs_eq_update (ht : ∀ t, m.tracker = some t → Agrees t m) {k : ObjectKey} {o : Obj}
    (ho : m.object? k = some o) (n : Nat) :
    ∃ m', addRefs k (n + 1) m = .ok () m' ∧ m'.objects = m.objects.map fun (i, p) =>
      if i = k.id then (i, o.withCounts { o.counts with refs := o.counts.refs + n + 1 }) else (i, p) := by
  cases hm : m.tracker with
  | some t => exact ⟨_, addRefs_eq hm (ht t hm) ho n, rfl⟩
  | none =>
    refine ⟨{ m with objects := _ }, ?_, rfl⟩
    simp [addRefs, hm, getObject_eq, ho, setObject_eq]

/-- Copying an array that owns qubits never makes a new owner: when the copy may be elided it is the
same array under the same id with one more reference, and otherwise it is refused, the machine
unchanged. -/
theorem arrayCopy_of_owning (ht : ∀ t, m.tracker = some t → Agrees t m)
    (hl : m.objects.lookup id = some (.array a)) (ha : a.ownsQubits = true) (force : Bool) :
    if !force && a.counts.aliases = 0 then
      ∃ m', arrayCopy id force m = .ok id m' ∧
        m'.objects.lookup id = some (.array { a with counts := { a.counts with refs := a.counts.refs + 1 } })
    else arrayCopy id force m = .error (.ownsQubits ⟨.array, id⟩) m := by
  unfold Machine.arrayCopy
  rw [run_bind, getArray_eq, hl]
  dsimp only
  split
  · next helide =>
    have ho : m.object? ⟨.array, id⟩ = some (.array a) := object?_eq_some.2 ⟨hl, rfl⟩
    obtain ⟨m', hadd, hobj⟩ := addRefs_eq_update ht ho 0
    refine ⟨m', ?_, ?_⟩
    · simp only [run_bind, arrayUpdateRefs, updateRefs]
      simp [hadd]
    · rw [hobj, lookup_update, if_pos rfl, hl]
      rfl
  · rfl

end Copies

/-! ### Runs -/

/-- The arrays a run of requests hands over, request by request: each request is a `Transfer`, and
the arrays it hands over come after those of the requests before it. -/
inductive Handed : Machine → List ObjectRequest → List (Nat × List Nat) → Prop
  | nil (m : Machine) : Handed m [] []
  | cons {m : Machine} {r : ObjectRequest} {rs : List ObjectRequest} {g gs : List (Nat × List Nat)} :
      Transfer m r g (m.serve r) → Handed (m.serve r) rs gs → Handed m (r :: rs) (g ++ gs)

section Runs

variable {m : Machine} {rs : List ObjectRequest} {gone : List (Nat × List Nat)} {id : Nat}

@[simp] theorem serveAll_nil (m : Machine) : m.serveAll [] = m := rfl

@[simp] theorem serveAll_cons (m : Machine) (r : ObjectRequest) (rs : List ObjectRequest) :
    m.serveAll (r :: rs) = (m.serve r).serveAll rs := rfl

theorem serveAll_append (m : Machine) (rs rs' : List ObjectRequest) :
    m.serveAll (rs ++ rs') = (m.serveAll rs).serveAll rs' :=
  List.foldl_append

theorem handed_serveAll (h : Owned m) (rs : List ObjectRequest) : ∃ gone, Handed m rs gone := by
  induction rs generalizing m with
  | nil => exact ⟨[], .nil m⟩
  | cons r rs ih =>
    obtain ⟨g, hg⟩ := transfer_serve h r
    obtain ⟨gs, hgs⟩ := ih hg.owned
    exact ⟨g ++ gs, .cons hg hgs⟩

theorem owned_serveAll (h : Owned m) (rs : List ObjectRequest) : Owned (m.serveAll rs) := by
  induction rs generalizing m with
  | nil => exact h
  | cons r rs ih => exact ih (transfer_serve h r).choose_spec.owned

theorem nextId_le_serveAll (h : Owned m) (rs : List ObjectRequest) :
    m.nextId ≤ (m.serveAll rs).nextId := by
  induction rs generalizing m with
  | nil => exact le_rfl
  | cons r rs ih =>
    have ht := (transfer_serve h r).choose_spec
    exact ht.nextId_le.trans (ih ht.owned)

theorem tracker_serveAll (h : Owned m) (ht : m.tracker = none) (rs : List ObjectRequest) :
    (m.serveAll rs).tracker = none := by
  induction rs generalizing m with
  | nil => exact ht
  | cons r rs ih =>
    have hr := (transfer_serve h r).choose_spec
    exact ih hr.owned (hr.untracked ht)

/-- Over a whole run the backend moves by taking back, in turn, the handles of every array the run
hands over. -/
theorem Handed.moves (hh : Handed m rs gone) :
    Backend.Moves m.backend (gone.map Prod.snd) (m.serveAll rs).backend := by
  induction hh with
  | nil m => exact .stay _
  | cons ht _ ih =>
    rw [List.map_append]
    exact ht.moves.trans ih

/-- An array handed over during a run owned qubits at its start or was made during it. -/
theorem Handed.held_or_fresh (hh : Handed m rs gone) :
    ∀ p ∈ gone, (m.heldQubits p.1).isSome ∨ m.nextId ≤ p.1 := by
  induction hh with
  | nil m => exact fun _ hp => absurd hp List.not_mem_nil
  | cons ht _ ih =>
    intro p hp
    rcases List.mem_append.1 hp with hp | hp
    · rw [((ht.mem_gone p.1 p.2).1 hp).1]
      exact .inl rfl
    · rcases ih p hp with hs | hle
      · rcases ht.held_or_next hs with hm | heq
        · exact .inl hm
        · exact .inr heq.ge
      · exact .inr (ht.nextId_le.trans hle)

/-- No array is handed over twice in a run: once it has given its qubits up it owns none, and only
an allocation, under a fresh id, makes an owner. -/
theorem Handed.nodup (h : Owned m) (hh : Handed m rs gone) : (gone.map Prod.fst).Nodup := by
  induction hh with
  | nil m => exact List.nodup_nil
  | @cons m r rs g gs ht hrest ih =>
    rw [List.map_append, List.nodup_append]
    refine ⟨ht.nodup, ih ht.owned, ?_⟩
    simp only [List.mem_map]
    rintro _ ⟨p, hp, rfl⟩ _ ⟨q, hq, rfl⟩ hpq
    obtain ⟨hheld, hnone⟩ := (ht.mem_gone p.1 p.2).1 hp
    -- the array the first request hands over owns nothing after it, and its id is not fresh there
    rcases hrest.held_or_fresh q hq with hs | hle
    · rw [← hpq, hnone] at hs
      cases hs
    · have hlt := (h.id_lt_of_held hheld).trans_le ht.nextId_le
      omega

/-- An id below the next one that owns qubits at the end of a run owned qubits at its start. -/
theorem held_of_held_serveAll (h : Owned m) (hid : id < m.nextId) (rs : List ObjectRequest)
    (hs : ((m.serveAll rs).heldQubits id).isSome) : (m.heldQubits id).isSome := by
  induction rs generalizing m with
  | nil => exact hs
  | cons r rs ih =>
    have ht := (transfer_serve h r).choose_spec
    rcases ht.held_or_next (ih ht.owned (hid.trans_le ht.nextId_le) hs) with hm | heq
    · exact hm
    · omega

/-- An array that owns qubits at the end of a run owned them at its start, or was allocated by one
of its requests and has owned them after every request since. -/
theorem allocated_of_held (h : Owned m) (rs : List ObjectRequest)
    (hs : ((m.serveAll rs).heldQubits id).isSome) :
    (m.heldQubits id).isSome ∨ ∃ p₁ n p₂, rs = p₁ ++ .qubitAllocateArray n :: p₂ ∧
      qubitAllocateArray n (m.serveAll p₁) = .ok id (m.serveAll (p₁ ++ [.qubitAllocateArray n])) ∧
      ∀ q₁ q₂, p₂ = q₁ ++ q₂ →
        ((m.serveAll (p₁ ++ .qubitAllocateArray n :: q₁)).heldQubits id).isSome := by
  induction rs generalizing m with
  | nil => exact .inl hs
  | cons r rs ih =>
    have ht := (transfer_serve h r).choose_spec
    rcases ih ht.owned hs with hs₁ | ⟨p₁, n, p₂, hrs, hq, hsince⟩
    · obtain ⟨hs', hhs⟩ := Option.isSome_iff_exists.1 hs₁
      rcases ht.made id hs' hhs with hm | ⟨rfl, n, rfl, hq⟩
      · exact .inl hm
      · -- allocated by the first request: it is below the next id from then on
        obtain ⟨b, -, hr⟩ := qubitAllocateArray_cases n m
        rw [hq] at hr
        refine .inr ⟨[], n, rs, rfl, hq, fun q₁ q₂ hq₂ => ?_⟩
        have hlt : m.nextId < ((m.serve (.qubitAllocateArray n)).serveAll q₁).nextId := by
          have hnext : (m.serve (.qubitAllocateArray n)).nextId = m.nextId + 1 := hr.2.1
          have hle := nextId_le_serveAll ht.owned q₁
          omega
        rw [hq₂, serveAll_cons, serveAll_append] at hs
        rw [List.nil_append, serveAll_cons]
        exact held_of_held_serveAll (owned_serveAll ht.owned q₁) hlt q₂ hs
    · exact .inr ⟨r :: p₁, n, p₂, by rw [hrs]; rfl, hq, hsince⟩

/-- Along a run from a new machine the tracker, when there is one, agrees with the store. -/
theorem agrees_serveAll (backend : Backend) (track : Bool) (rs : List ObjectRequest) (t : Tracker)
    (ht : ((Machine.new backend track).serveAll rs).tracker = some t) :
    Agrees t ((Machine.new backend track).serveAll rs) := by
  cases track with
  | true =>
    obtain ⟨t', ht', ha, -⟩ := tracking_serveAll (tracking_new backend) rs
    rw [ht] at ht'
    cases ht'
    exact ha
  | false =>
    rw [tracker_serveAll (owned_new backend false) rfl rs] at ht
    cases ht

end Runs

/-- Qubit ownership is never duplicated or lost: every owner at the end of a run was made by an
allocation of the run and has owned since, and the run hands arrays over one request at a time,
each at most once, as `Transfer` says. -/
theorem qubit_ownership_handed_over (backend : Backend) (track : Bool) (rs : List ObjectRequest) :
    let m := (Machine.new backend track).serveAll rs
    (∀ id hs, m.heldQubits id = some hs →
      ∃ p₁ n p₂, rs = p₁ ++ .qubitAllocateArray n :: p₂ ∧
        qubitAllocateArray n ((Machine.new backend track).serveAll p₁) =
          .ok id ((Machine.new backend track).serveAll (p₁ ++ [.qubitAllocateArray n])) ∧
        ∀ q₁ q₂, p₂ = q₁ ++ q₂ → (((Machine.new backend track).serveAll
          (p₁ ++ .qubitAllocateArray n :: q₁)).heldQubits id).isSome) ∧
    (∀ id a, m.objects.lookup id = some (.array a) → a.ownsQubits = true →
      a.itemSize = Word.size ∧ a.dims = [a.items.length] ∧
      ∀ force, if !force && a.counts.aliases = 0 then
          ∃ m', arrayCopy id force m = .ok id m' ∧ m'.objects.lookup id =
            some (.array { a with counts := { a.counts with refs := a.counts.refs + 1 } })
        else arrayCopy id force m = .error (.ownsQubits ⟨.array, id⟩) m) ∧
    ∃ gone, Handed (Machine.new backend track) rs gone ∧ (gone.map Prod.fst).Nodup ∧
      Backend.Moves backend (gone.map Prod.snd) m.backend := by
  intro m
  have h₀ := owned_new backend track
  have h := owned_serveAll h₀ rs
  obtain ⟨gone, hh⟩ := handed_serveAll h₀ rs
  refine ⟨fun id hs hheld => ?_, fun id a hl ha => ?_, gone, hh, hh.nodup h₀, hh.moves⟩
  · -- a new machine has no arrays, so the owner was allocated during the run
    rcases allocated_of_held h₀ rs (by rw [hheld]; rfl) with hnew | hall
    · cases hnew
    · exact hall
  · obtain ⟨hsize, hdims⟩ := h.shaped id _ hl ha
    exact ⟨hsize, hdims, arrayCopy_of_owning (agrees_serveAll backend track rs) hl ha⟩

end Machine

end QuantumRuntime
