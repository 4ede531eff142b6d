import QuantumRuntime.Proofs.Trace.Wellformed

/-!
# No traced operation is lost or duplicated

Every operation the tracer accepts is counted exactly once: in the layer it was placed in, or in
the pending list of the qubit it waits on, until that qubit is next placed and the operation
moves into the qubit's new layer. Barriers open layers but trace nothing, so their ids are
counted nowhere. The seen ids are the ids of the accepted traces, ascending without repetition.

The count is kept in step by the primitives: `addOp` adds one to one layer of the schedule,
`updateQubit` moves a qubit's pending operations into a layer without changing any total, and
nothing else touches a count. Reading a count off a layer relies on its operation map being
sorted, which bumping keeps (`Tracer.MapsSorted`); that the layer an operation is placed in
belongs to the schedule comes from `Tracer.Valid`. The main result is `Tracer.traced_ops_accounted`.
-/

namespace QuantumRuntime

namespace Layer

/-- Placing an operation in a layer whose counts are sorted adds one to the count of its id. -/
theorem count_addOp {l : Layer} (h : SortedMap.Sorted l.ops) (op' op : Int) :
    (l.addOp op').count op = l.count op + if op' == op then 1 else 0 := by
  simp only [count, addOp, SortedMap.lookup_bump op' op h]
  by_cases hop : op = op'
  · subst hop
    simp
  · simp [hop, Ne.symm hop]

end Layer

namespace Tracer

variable {t t' : Tracer}

/-- How many operations with this id the layers hold. -/
def placedCount (t : Tracer) (op : Int) : Nat := (t.layers.map (·.count op)).sum

/-- How many operations with this id wait in the qubits' pending lists. -/
def pendingCount (t : Tracer) (op : Int) : Nat := (t.qubits.map (·.pending.count op)).sum

/-- How many operations with this id the tracer holds, placed or pending. -/
def heldCount (t : Tracer) (op : Int) : Nat := t.placedCount op + t.pendingCount op

/-- The tracer's maps are sorted: every layer's operation counts by id, and the seen ids, which
therefore never repeat. -/
structure MapsSorted (t : Tracer) : Prop where
  ops : ∀ l ∈ t.layers, SortedMap.Sorted l.ops
  seen : t.seen.Pairwise (· < ·)

theorem mapsSorted_new (p : Int) (names : List (Int × String)) :
    (Tracer.new p names).MapsSorted where
  ops := by simp [Tracer.new]
  seen := List.Pairwise.nil

/-! ### Counting in layers and pending lists -/

theorem placedCount_addOp (hs : t.MapsSorted) {c : Nat} (hc : c < t.layers.length) (op' op : Int) :
    (t.addOp op' c).placedCount op = t.placedCount op + if op' == op then 1 else 0 := by
  have hl : t.layers[c]? = some t.layers[c] := List.getElem?_eq_getElem hc
  have hsum := sum_map_modify (·.count op) (·.addOp op') t.layers c
  simp only [hl, Option.map_some, Option.getD_some, Function.comp_apply,
    Layer.count_addOp (hs.ops _ (List.getElem_mem hc))] at hsum
  simp only [placedCount, addOp]
  omega

theorem MapsSorted.addOp (hs : t.MapsSorted) (op : Int) (c : Nat) : (t.addOp op c).MapsSorted where
  ops := forall_mem_modify (fun l : Layer => SortedMap.Sorted l.ops) (·.addOp op)
    (fun _ hl => SortedMap.sorted_bump op hl) _ _ hs.ops
  seen := hs.seen

/-- Counting a list of operations in a layer of the schedule counts each of them once. -/
theorem placedCount_foldl_addOp {c : Nat} (op : Int) :
    ∀ (ops : List Int) (t : Tracer), t.MapsSorted → c < t.layers.length →
      (ops.foldl (fun t op' => t.addOp op' c) t).placedCount op = t.placedCount op + ops.count op
  | [], _, _, _ => rfl
  | op' :: ops, t, hs, hc => by
    have hc' : c < (t.addOp op' c).layers.length := by
      simpa only [Tracer.addOp, List.length_modify]
    rw [List.foldl_cons, placedCount_foldl_addOp op ops _ (hs.addOp op' c) hc',
      placedCount_addOp hs hc, List.count_cons]
    omega

theorem pendingCount_foldl_addOp (c : Nat) (ops : List Int) (t : Tracer) (op : Int) :
    (ops.foldl (fun t op' => t.addOp op' c) t).pendingCount op = t.pendingCount op := by
  rw [foldl_addOp]
  rfl

theorem MapsSorted.foldl_addOp (hs : t.MapsSorted) (c : Nat) (ops : List Int) :
    (ops.foldl (fun t op => t.addOp op c) t).MapsSorted := by
  induction ops generalizing t with
  | nil => exact hs
  | cons op ops ih => exact ih (hs.addOp op c)

theorem MapsSorted.setQubit (hs : t.MapsSorted) (i : Nat) (s : QubitState) :
    { t with qubits := t.qubits.set i s }.MapsSorted :=
  ⟨hs.ops, hs.seen⟩

/-- Replacing the state of a known qubit replaces its pending operations in the count. -/
theorem pendingCount_set {i : Nat} {s : QubitState} (hi : t.qubits[i]? = some s)
    (s' : QubitState) (op : Int) :
    { t with qubits := t.qubits.set i s' }.pendingCount op + s.pending.count op =
      t.pendingCount op + s'.pending.count op := by
  have hsum := sum_map_modify (·.pending.count op) (fun _ => s') t.qubits i
  simp only [hi, Option.map_some, Option.getD_some, Function.comp_apply,
    List.modify_eq_set (fun _ => s')] at hsum
  exact hsum

/-! ### What each primitive does to the counts -/

/-- Moving a qubit into a layer moves its pending operations into that layer: no count changes. -/
theorem heldCount_updateQubit (hs : t.MapsSorted) (q : Qubit) (c : Nat) (d op : Int) :
    (t.updateQubit q c d).heldCount op = t.heldCount op := by
  cases hq : t.qubitState? q with
  | none => rw [updateQubit_of_none (Or.inl hq)]
  | some s =>
    cases hl : t.layers[c]? with
    | none => rw [updateQubit_of_none (Or.inr hl)]
    | some l =>
      have hc : c < t.layers.length := (List.getElem?_eq_some_iff.1 hl).1
      -- the moved qubit keeps nothing pending
      have hset := pendingCount_set hq ⟨some c, max s.lastUsed l.start + d, []⟩ op
      rw [List.count_nil, Nat.add_zero] at hset
      rw [updateQubit_eq hq hl, heldCount, pendingCount_foldl_addOp,
        placedCount_foldl_addOp op _ _ (hs.setQubit _ _) hc]
      unfold heldCount
      show t.placedCount op + _ + _ = _
      omega

theorem MapsSorted.updateQubit (hs : t.MapsSorted) (q : Qubit) (c : Nat) (d : Int) :
    (t.updateQubit q c d).MapsSorted := by
  cases hq : t.qubitState? q with
  | none => rw [updateQubit_of_none (Or.inl hq)]; exact hs
  | some s =>
    cases hl : t.layers[c]? with
    | none => rw [updateQubit_of_none (Or.inr hl)]; exact hs
    | some l =>
      rw [updateQubit_eq hq hl]
      exact (hs.setQubit _ _).foldl_addOp c _

theorem heldCount_foldl_updateQubit (c : Nat) (d op : Int) :
    ∀ (qs : List Qubit) (t : Tracer), t.MapsSorted →
      (qs.foldl (fun t q => t.updateQubit q c d) t).heldCount op = t.heldCount op
  | [], _, _ => rfl
  | q :: qs, t, hs => by
    rw [List.foldl_cons, heldCount_foldl_updateQubit c d op qs _ (hs.updateQubit q c d),
      heldCount_updateQubit hs]

theorem MapsSorted.foldl_updateQubit (hs : t.MapsSorted) (c : Nat) (d : Int) (qs : List Qubit) :
    (qs.foldl (fun t q => t.updateQubit q c d) t).MapsSorted := by
  induction qs generalizing t with
  | nil => exact hs
  | cons q qs ih => exact ih (hs.updateQubit q c d)

theorem MapsSorted.markSeen (hs : t.MapsSorted) (op : Int) : (t.markSeen op).MapsSorted :=
  ⟨hs.ops, SortedMap.sorted_insert op hs.seen⟩

theorem heldCount_openLayer (t : Tracer) (d op : Int) :
    (t.openLayer d).2.heldCount op = t.heldCount op := by
  simp [openLayer_snd, heldCount, placedCount, pendingCount, Layer.count]

theorem MapsSorted.openLayer (hs : t.MapsSorted) (d : Int) : (t.openLayer d).2.MapsSorted := by
  rw [openLayer_snd]
  refine ⟨fun l hl => ?_, hs.seen⟩
  rcases List.mem_append.1 hl with hl | hl
  · exact hs.ops l hl
  · rw [List.mem_singleton] at hl
    subst hl
    exact List.Pairwise.nil

/-- Finding a layer for a placement, possibly a new one, keeps the maps sorted and every count. -/
theorem counts_place (hs : t.MapsSorted) {p : Placement} {d : Int} {c : Nat} {t₁ : Tracer}
    (hpl : t.place p d = (c, t₁)) : t₁.MapsSorted ∧ ∀ op, t₁.heldCount op = t.heldCount op := by
  rcases place_cases hpl with ⟨-, rfl⟩ | ⟨-, -, rfl⟩
  · exact ⟨hs, fun _ => rfl⟩
  · exact ⟨hs.openLayer d, heldCount_openLayer t d⟩

/-- Placing an operation after the effective fence counts it once, in the layer it lands in;
moving its qubits there keeps every count. -/
theorem heldCount_placeOp (hv : t.Valid) (hs : t.MapsSorted) {op' d : Int} {p : Placement}
    {c : Nat} {t₁ : Tracer} (hp : t.Admits p) (hd : 0 ≤ d) (hpl : t.place p d = (c, t₁))
    (qs : List Qubit) (op : Int) :
    (qs.foldl (fun t q => t.updateQubit q c d) (t₁.addOp op' c)).heldCount op =
      t.heldCount op + if op' == op then 1 else 0 := by
  obtain ⟨-, l, hl, -⟩ := hv.place hp hd hpl
  obtain ⟨hs₁, hheld⟩ := counts_place hs hpl
  have hc : c < t₁.layers.length := (List.getElem?_eq_some_iff.1 hl).1
  have hpending : (t₁.addOp op' c).pendingCount op = t₁.pendingCount op := rfl
  rw [heldCount_foldl_updateQubit c d op qs _ (hs₁.addOp op' c), ← hheld op, heldCount, heldCount,
    placedCount_addOp hs₁ hc, hpending]
  omega

theorem MapsSorted.placeOp (hs : t.MapsSorted) {op' d : Int} {p : Placement} {c : Nat}
    {t₁ : Tracer} (hpl : t.place p d = (c, t₁)) (qs : List Qubit) :
    (qs.foldl (fun t q => t.updateQubit q c d) (t₁.addOp op' c)).MapsSorted :=
  ((counts_place hs hpl).1.addOp op' c).foldl_updateQubit c d qs

/-! ### What each request does to the counts -/

/-- An accepted one-qubit trace adds one operation with its id, held or placed. -/
theorem heldCount_traceSingle (hv : t.Valid) (hs : t.MapsSorted) {op' d : Int} {q : Qubit}
    {r : Option Nat} (h : t.traceSingle op' d q = .ok (r, t')) (op : Int) :
    t'.heldCount op = t.heldCount op + if op' == op then 1 else 0 := by
  obtain ⟨hd, s, hq, ⟨-, -, -, rfl⟩ | ⟨-, p, c, t₁, hp, hpl, -, rfl⟩⟩ := traceSingle_ok h
  · -- held: the operation joins the qubit's pending list
    have hset := pendingCount_set hq { s with pending := s.pending ++ [op'] } op
    rw [List.count_append, List.count_singleton] at hset
    show t.placedCount op + ({ t with qubits := _ } : Tracer).pendingCount op = _
    unfold heldCount
    omega
  · exact heldCount_placeOp (hv.markSeen op') (hs.markSeen op') (hv.findLayer_admits hp) hd hpl
      [q] op

theorem MapsSorted.traceSingle (hs : t.MapsSorted) {op' d : Int} {q : Qubit} {r : Option Nat}
    (h : t.traceSingle op' d q = .ok (r, t')) : t'.MapsSorted := by
  obtain ⟨-, s, -, ⟨-, -, -, rfl⟩ | ⟨-, p, c, t₁, -, hpl, -, rfl⟩⟩ := traceSingle_ok h
  · exact (hs.markSeen op').setQubit _ _
  · exact (hs.markSeen op').placeOp hpl [q]

theorem heldCount_traceMulti (hv : t.Valid) (hs : t.MapsSorted) {op' d : Int}
    {cs ts : List Qubit} {r : Option Nat} (h : t.traceMulti op' d cs ts = .ok (r, t')) (op : Int) :
    t'.heldCount op = t.heldCount op + if op' == op then 1 else 0 := by
  obtain ⟨hd, first, rest, rfl, ⟨-, -, -, h⟩ | ⟨-, p₀, p, c, t₁, hp₀, hp, hpl, -, rfl⟩⟩ :=
    traceMulti_ok h
  · exact heldCount_traceSingle hv hs h op
  · exact heldCount_placeOp (hv.markSeen op') (hs.markSeen op')
      (hv.foldlM_admits (hv.findLayer_admits hp₀) hp) hd hpl _ op

theorem MapsSorted.traceMulti (hs : t.MapsSorted) {op' d : Int} {cs ts : List Qubit}
    {r : Option Nat} (h : t.traceMulti op' d cs ts = .ok (r, t')) : t'.MapsSorted := by
  obtain ⟨-, first, rest, rfl, ⟨-, -, -, h⟩ | ⟨-, p₀, p, c, t₁, -, -, hpl, -, rfl⟩⟩ :=
    traceMulti_ok h
  · exact hs.traceSingle h
  · exact (hs.markSeen op').placeOp hpl _

/-- A barrier layer counts no operation, whatever the barrier's id. -/
theorem heldCount_injectBarrier {op' d : Int} {b : Nat} (h : t.injectBarrier op' d = .ok (b, t'))
    (op : Int) : t'.heldCount op = t.heldCount op := by
  obtain ⟨-, rfl, rfl⟩ := injectBarrier_ok h
  rw [← heldCount_openLayer t d op]
  simp only [heldCount, placedCount, pendingCount]
  rw [map_modify_eq (fun l : Layer => l.count op) (fun l : Layer => { l with barrier := some op' })
    (fun _ => rfl)]

theorem MapsSorted.injectBarrier (hs : t.MapsSorted) {op' d : Int} {b : Nat}
    (h : t.injectBarrier op' d = .ok (b, t')) : t'.MapsSorted := by
  obtain ⟨-, rfl, rfl⟩ := injectBarrier_ok h
  have hs₁ := hs.openLayer d
  exact ⟨forall_mem_modify (fun l : Layer => SortedMap.Sorted l.ops)
    (fun l => { l with barrier := some op' }) (fun _ h => h) _ _ hs₁.ops, hs₁.seen⟩

theorem heldCount_allocate (t : Tracer) (op : Int) : t.allocate.2.heldCount op = t.heldCount op := by
  simp [allocate, heldCount, placedCount, pendingCount]

theorem seen_traceSingle {op' d : Int} {q : Qubit} {r : Option Nat}
    (h : t.traceSingle op' d q = .ok (r, t')) : t'.seen = SortedMap.insert op' t.seen := by
  obtain ⟨qubits, layers, rfl⟩ := traceSingle_shape h
  rfl

theorem seen_traceMulti {op' d : Int} {cs ts : List Qubit} {r : Option Nat}
    (h : t.traceMulti op' d cs ts = .ok (r, t')) : t'.seen = SortedMap.insert op' t.seen := by
  obtain ⟨qubits, layers, rfl⟩ := traceMulti_shape h
  rfl

/-- An accepted request adds one operation with an id exactly when it traces that id. -/
theorem heldCount_step (hv : t.Valid) (hs : t.MapsSorted) {r : TraceRequest} {a : TraceReply}
    (h : t.step r = .ok (a, t')) (op : Int) :
    t'.heldCount op = t.heldCount op + if r.traces op then 1 else 0 := by
  have h := step_ok h
  cases r with
  | allocate => rw [h.2]; exact heldCount_allocate t op
  | single | measure =>
    obtain ⟨_, h, -⟩ := h
    exact heldCount_traceSingle hv hs h op
  | multi | jointMeasure =>
    obtain ⟨_, h, -⟩ := h
    exact heldCount_traceMulti hv hs h op
  | barrier =>
    obtain ⟨_, h, -⟩ := h
    exact heldCount_injectBarrier h op
  | pushFence =>
    obtain ⟨_, h, -⟩ := h
    obtain ⟨_, _, -, -, -, ⟨-, rfl⟩ | ⟨_, -, rfl⟩⟩ := pushFence_ok h <;> rfl
  | popFence f => rw [h.2]; cases f <;> rfl

theorem MapsSorted.step (hs : t.MapsSorted) {r : TraceRequest} {a : TraceReply}
    (h : t.step r = .ok (a, t')) : t'.MapsSorted := by
  have h := step_ok h
  cases r with
  | allocate => rw [h.2]; exact ⟨hs.ops, hs.seen⟩
  | single | measure =>
    obtain ⟨_, h, -⟩ := h
    exact hs.traceSingle h
  | multi | jointMeasure =>
    obtain ⟨_, h, -⟩ := h
    exact hs.traceMulti h
  | barrier =>
    obtain ⟨_, h, -⟩ := h
    exact hs.injectBarrier h
  | pushFence =>
    obtain ⟨_, h, -⟩ := h
    obtain ⟨_, _, -, -, -, ⟨-, rfl⟩ | ⟨_, -, rfl⟩⟩ := pushFence_ok h
    · exact hs
    · exact ⟨hs.ops, hs.seen⟩
  | popFence f => rw [h.2]; cases f <;> exact ⟨hs.ops, hs.seen⟩

/-- An accepted request adds an id to the seen ones exactly when it traces that id. -/
theorem mem_seen_step {r : TraceRequest} {a : TraceReply} (h : t.step r = .ok (a, t')) (op : Int) :
    op ∈ t'.seen ↔ op ∈ t.seen ∨ r.traces op := by
  have h := step_ok h
  cases r with
  | allocate => rw [h.2]; simp [allocate, TraceRequest.traces]
  | single | measure =>
    obtain ⟨_, h, -⟩ := h
    rw [seen_traceSingle h, SortedMap.mem_insert]
    simp only [TraceRequest.traces, beq_iff_eq]
    exact or_comm.trans (or_congr_right eq_comm)
  | multi | jointMeasure =>
    obtain ⟨_, h, -⟩ := h
    rw [seen_traceMulti h, SortedMap.mem_insert]
    simp only [TraceRequest.traces, beq_iff_eq]
    exact or_comm.trans (or_congr_right eq_comm)
  | barrier =>
    obtain ⟨_, h, -⟩ := h
    obtain ⟨-, rfl, rfl⟩ := injectBarrier_ok h
    simp [openLayer_snd, TraceRequest.traces]
  | pushFence =>
    obtain ⟨_, h, -⟩ := h
    obtain ⟨_, _, -, -, -, ⟨-, rfl⟩ | ⟨_, -, rfl⟩⟩ := pushFence_ok h <;> simp [TraceRequest.traces]
  | popFence f => rw [h.2]; cases f <;> simp [popFence, TraceRequest.traces]

/-! ### Runs -/

/-- Over a run, the operations held with an id grow by one for every accepted request that
traces it. -/
theorem heldCount_run (hv : t.Valid) (hs : t.MapsSorted) (op : Int) (rs : List TraceRequest) :
    (t.run rs).2.heldCount op =
      t.heldCount op + (t.run rs).1.countP (fun e => e.1.traces op && e.2.isOk) := by
  induction rs generalizing t with
  | nil => rfl
  | cons r rs ih =>
    rw [run_cons, List.countP_cons]
    unfold after
    cases hst : t.step r with
    | error e =>
      simp only [ih hv hs]
      simp [Except.map, Except.isOk, Except.toBool]
    | ok res =>
      obtain ⟨a, t'⟩ := res
      simp only [ih (hv.step hst) (hs.step hst), heldCount_step hv hs hst op]
      simp [Except.map, Except.isOk, Except.toBool]
      omega

theorem mem_seen_run (t : Tracer) (op : Int) (rs : List TraceRequest) :
    op ∈ (t.run rs).2.seen ↔ op ∈ t.seen ∨ ∃ e ∈ (t.run rs).1, e.1.traces op ∧ e.2.isOk := by
  induction rs generalizing t with
  | nil => simp [run_nil]
  | cons r rs ih =>
    rw [run_cons]
    unfold after
    cases hst : t.step r with
    | error e =>
      simp only [ih]
      simp [Except.map, Except.isOk, Except.toBool]
    | ok res =>
      obtain ⟨a, t'⟩ := res
      simp only [ih, mem_seen_step hst op]
      simp [Except.map, Except.isOk, Except.toBool, or_assoc]

/-- No traced operation is lost or duplicated. After any run from a new tracer, with refused
requests among the accepted ones, the accepted requests that trace an id (operations and
measurements, on one qubit or several) are exactly as many as the operations with that id counted
in the layers plus those still pending on a qubit; a barrier traces nothing, so its id is counted
nowhere. The seen ids are exactly the ids of accepted trace requests, ascending without
repetition. -/
theorem traced_ops_accounted (p : Int) (names : List (Int × String)) (rs : List TraceRequest)
    (op : Int) :
    let run := (Tracer.new p names).run rs
    run.1.countP (fun e => e.1.traces op && e.2.isOk) =
        run.2.placedCount op + run.2.pendingCount op ∧
      (op ∈ run.2.seen ↔ ∃ e ∈ run.1, e.1.traces op ∧ e.2.isOk) ∧
      run.2.seen.Pairwise (· < ·) := by
  dsimp only
  have hheld := heldCount_run (valid_new p names) (mapsSorted_new p names) op rs
  have hsorted : ((Tracer.new p names).run rs).2.MapsSorted :=
    run_induction MapsSorted (fun _ _ _ _ h hs => h.step hs) (mapsSorted_new p names) rs
  refine ⟨?_, ?_, hsorted.seen⟩
  · -- a new tracer holds nothing
    have hnew : (Tracer.new p names).heldCount op = 0 := rfl
    rw [hnew, Nat.zero_add] at hheld
    exact hheld.symm
  · rw [mem_seen_run]
    simp [Tracer.new]

end Tracer

end QuantumRuntime
