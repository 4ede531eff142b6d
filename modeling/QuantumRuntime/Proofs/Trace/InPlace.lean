import Mathlib
import QuantumRuntime.Proofs.Trace.Refusal

/-!
# Requests in place

The tracer runs each request in place: it checks, writes, and looks things up again after
writing, and an error keeps what was written before it. This module shows that no request can
fail once it has written. Every check that can fail reads the tracer as the request found it,
and the lookups that come after a write (the layer search for a qubit already found, the move
of a qubit already found into a layer the schedule has) cannot fail. So each in-place request
is its transaction (`Tracer.transact`), which gives the new tracer only on success:
`InPlace.traceSingle_eq` and its siblings, and for every request `TraceRequest.serve_eq`.

The main statement is `Tracer.refused_requests_change_nothing`: a request served in place fails
exactly when the first of its checks fails on the tracer as it stands, and then it leaves the
whole tracer as it found it.
-/

namespace QuantumRuntime

namespace Tracer

/-- Runs a transaction in place: its new tracer on success, the tracer it found on an error. -/
def transact {α : Type} (f : Tracer → Except TraceError (α × Tracer)) : TraceM α := fun t =>
  match f t with
  | .ok (a, t') => .ok a t'
  | .error e => .error e t

theorem map_transact {α β : Type} (g : α → β) (f : Tracer → Except TraceError (α × Tracer)) :
    g <$> transact f = transact fun t => (f t).map fun (a, t') => (g a, t') := by
  funext t
  show EStateM.map g (transact f) t = _
  unfold EStateM.map transact
  dsimp only
  cases f t <;> rfl

theorem except_ok_bind {ε α β : Type} (a : α) (f : α → Except ε β) : (Except.ok a >>= f) = f a :=
  rfl

theorem except_error_bind {ε α β : Type} (e : ε) (f : α → Except ε β) :
    (Except.error e >>= f : Except ε β) = .error e := rfl

/-! ### Running a request on a tracer -/

namespace InPlace

section Running

variable {α β : Type}

@[simp] theorem run_bind (x : TraceM α) (f : α → TraceM β) (t : Tracer) :
    (x >>= f) t = match x t with
      | .ok a s => f a s
      | .error e s => .error e s := by
  show EStateM.bind x f t = _
  unfold EStateM.bind
  cases x t <;> rfl

@[simp] theorem run_map (f : α → β) (x : TraceM α) (t : Tracer) :
    (f <$> x) t = match x t with
      | .ok a s => .ok (f a) s
      | .error e s => .error e s := by
  show EStateM.map f x t = _
  unfold EStateM.map
  cases x t <;> rfl

@[simp] theorem run_get (t : Tracer) : (get : TraceM Tracer) t = .ok t t := rfl

@[simp] theorem run_set (t s : Tracer) : (set s : TraceM Unit) t = .ok () s := rfl

@[simp] theorem run_modify (f : Tracer → Tracer) (t : Tracer) :
    (modify f : TraceM Unit) t = .ok () (f t) := rfl

@[simp] theorem run_modifyGet (f : Tracer → α × Tracer) (t : Tracer) :
    (modifyGet f : TraceM α) t = .ok (f t).1 (f t).2 := rfl

@[simp] theorem run_pure (a : α) (t : Tracer) : (pure a : TraceM α) t = .ok a t := rfl

@[simp] theorem run_throw (e : TraceError) (t : Tracer) : (throw e : TraceM α) t = .error e t :=
  rfl

theorem run_read (f : Tracer → Except TraceError α) (t : Tracer) :
    read f t = match f t with
      | .ok a => .ok a t
      | .error e => .error e t := rfl

end Running

/-! ### The checks -/

section Checks

variable {t : Tracer} {op d : Int} {q : Qubit}

theorem checkDuration_of_neg (hd : d < 0) :
    checkDuration op d t = .error (.negativeDuration op d) t := by
  simp only [checkDuration, hd, if_true, run_throw]

theorem checkDuration_of_nonneg (hd : ¬d < 0) : checkDuration op d t = .ok () t := by
  simp only [checkDuration, hd, if_false, run_pure]

theorem qubitState_of_some {s : QubitState} (hs : t.qubitState? q = some s) :
    qubitState q t = .ok s t := by
  simp only [qubitState, run_read, hs]

theorem qubitState_of_none (hs : t.qubitState? q = none) :
    qubitState q t = .error (.unknownQubit q) t := by
  simp only [qubitState, run_read, hs]

end Checks

end InPlace

/-! ### What the transactions keep -/

section Keeps

variable {t : Tracer} {op d : Int} {q : Qubit} {c : Nat}

theorem qubitState?_iff_lt : (t.qubitState? q).isSome ↔ q.index < t.qubits.length := by
  simp [qubitState?]

theorem length_qubits_updateQubit (t : Tracer) (q : Qubit) (c : Nat) (d : Int) :
    (t.updateQubit q c d).qubits.length = t.qubits.length := by
  cases hs : t.qubitState? q with
  | none => rw [updateQubit_of_none (Or.inl hs)]
  | some s =>
    cases hl : t.layers[c]? with
    | none => rw [updateQubit_of_none (Or.inr hl)]
    | some l =>
      rw [updateQubit_eq hs hl, foldl_addOp]
      exact List.length_set

theorem length_layers_updateQubit (t : Tracer) (q : Qubit) (c : Nat) (d : Int) :
    (t.updateQubit q c d).layers.length = t.layers.length := by
  cases hs : t.qubitState? q with
  | none => rw [updateQubit_of_none (Or.inl hs)]
  | some s =>
    cases hl : t.layers[c]? with
    | none => rw [updateQubit_of_none (Or.inr hl)]
    | some l =>
      rw [updateQubit_eq hs hl, foldl_addOp]
      exact List.length_modify _ _ _

/-- The layer search only ever names a layer of the schedule. -/
theorem findLayer_lt {p : Placement} (h : t.findLayer q d = .ok p) :
    ∀ c, p = .layer c → c < t.layers.length := by
  rintro c rfl
  unfold findLayer at h
  split at h
  · cases h
  · dsimp only at h
    split at h
    · cases h
    · split at h
      · cases h
      · next c' layer hl =>
        split at h
        · cases h
          exact (List.getElem?_eq_some_iff.1 hl).1
        · split at h
          · next l hfl =>
            cases h
            exact (firstLongEnough_bounds hfl).2
          · cases h

theorem max_lt {p p' : Placement} (hp : ∀ c, p = .layer c → c < t.layers.length)
    (hp' : ∀ c, p' = .layer c → c < t.layers.length) :
    ∀ c, p.max p' = .layer c → c < t.layers.length := by
  intro c hc
  cases p with
  | fresh => cases hc
  | layer a =>
    cases p' with
    | fresh => cases hc
    | layer b =>
      cases hc
      have ha := hp a rfl
      have hb := hp' b rfl
      simp only [Nat.max_def]
      split <;> omega

/-- A search over several qubits succeeds only when every qubit is known, and then names a layer
of the schedule. -/
theorem foldlM_findLayer_ok :
    ∀ (qs : List Qubit) (p₀ p : Placement), (∀ c, p₀ = .layer c → c < t.layers.length) →
      qs.foldlM (fun p q => do
        let p' ← t.findLayer q d
        pure (p.max p')) p₀ = .ok p →
      (∀ q ∈ qs, q.index < t.qubits.length) ∧ ∀ c, p = .layer c → c < t.layers.length
  | [], p₀, p, h₀, h => by
    cases h
    exact ⟨fun _ hq => absurd hq List.not_mem_nil, h₀⟩
  | q :: qs, p₀, p, h₀, h => by
    rw [List.foldlM_cons] at h
    obtain ⟨p₁, h₁, h⟩ := except_bind_eq_ok.1 h
    obtain ⟨p', hp', h₁⟩ := except_bind_eq_ok.1 h₁
    cases h₁
    obtain ⟨hqs, hp⟩ := foldlM_findLayer_ok qs _ p (max_lt h₀ (findLayer_lt hp')) h
    -- the search found a layer for `q`, so `q` is known
    have hq : q.index < t.qubits.length := by
      rw [← qubitState?_iff_lt]
      cases hs : t.qubitState? q with
      | some s => rfl
      | none => rw [findLayer_error_iff.2 ⟨hs, rfl⟩] at hp'; cases hp'
    refine ⟨fun q' hq' => ?_, hp⟩
    rcases List.mem_cons.1 hq' with rfl | hq'
    · exact hq
    · exact hqs q' hq'

/-- The layer a placement gives is one of the schedule after it is placed. -/
theorem place_lt {p : Placement} (hp : ∀ c, p = .layer c → c < t.layers.length) (d : Int) :
    (t.place p d).1 < (t.place p d).2.layers.length := by
  cases p with
  | layer c => exact hp c rfl
  | fresh =>
    show t.layers.length < (t.openLayer d).2.layers.length
    rw [openLayer_snd, List.length_append, List.length_singleton]
    exact Nat.lt_succ_self _

theorem qubits_place_snd (p : Placement) (d : Int) : (t.place p d).2.qubits = t.qubits := by
  cases p with
  | layer c => rfl
  | fresh => rw [place, openLayer_snd]

/-- Once an operation is placed, the qubits are those before, and the layer it went into is one
of the schedule: the moves that follow find both. -/
theorem placed_in_schedule {p : Placement} (hp : ∀ c, p = .layer c → c < t.layers.length)
    (op d : Int) :
    ((t.place p d).2.addOp op (t.place p d).1).qubits = t.qubits ∧
      (t.place p d).1 < ((t.place p d).2.addOp op (t.place p d).1).layers.length := by
  refine ⟨?_, ?_⟩
  · rw [addOp, qubits_place_snd]
  · rw [addOp, List.length_modify]
    exact place_lt hp d

end Keeps

/-! ### Every write comes after the last check that can fail -/

namespace InPlace

variable {t : Tracer} {op d : Int} {q : Qubit} {c : Nat}

/-- Moving a known qubit into a layer of the schedule cannot fail: its late lookup finds the
qubit, and the move is the transaction's. -/
theorem updateQubit_of_known {s : QubitState} (hs : t.qubitState? q = some s)
    (hc : c < t.layers.length) : updateQubit q c d t = .ok () (t.updateQubit q c d) := by
  have hl : t.layers[c]? = some t.layers[c] := List.getElem?_eq_getElem hc
  simp only [updateQubit, run_bind, run_get, qubitState_of_some hs, run_modify,
    getElem!_pos t.layers c hc]
  rw [Tracer.updateQubit_eq hs hl]

/-- Moving known qubits one after another into a layer of the schedule cannot fail. The
induction carries that every qubit stays known and the layer stays in the schedule. -/
theorem forM_updateQubit_of_known :
    ∀ (qs : List Qubit) (t : Tracer), (∀ q ∈ qs, q.index < t.qubits.length) →
      c < t.layers.length →
      qs.forM (fun q => updateQubit q c d) t = .ok () (qs.foldl (fun t q => t.updateQubit q c d) t)
  | [], t, _, _ => rfl
  | q :: qs, t, hq, hc => by
    obtain ⟨s, hs⟩ := Option.isSome_iff_exists.1 (qubitState?_iff_lt.2 (hq q List.mem_cons_self))
    change (updateQubit q c d >>= fun _ => qs.forM fun q => updateQubit q c d) t = _
    rw [run_bind, updateQubit_of_known hs hc]
    refine forM_updateQubit_of_known qs _ (fun q' hq' => ?_) ?_
    · rw [length_qubits_updateQubit]
      exact hq q' (List.mem_cons_of_mem _ hq')
    · rw [length_layers_updateQubit]
      exact hc

/-- The search over several qubits only reads, so in place it is the search on the tracer the
request found. -/
theorem foldlM_read_findLayer :
    ∀ (qs : List Qubit) (p : Placement) (t : Tracer),
      (qs.foldlM (fun p q => do
        let p' ← read (·.findLayer q d)
        pure (p.max p')) p : TraceM Placement) t =
      read (fun t => qs.foldlM (fun p q => do
        let p' ← t.findLayer q d
        pure (p.max p')) p) t
  | [], p, t => rfl
  | q :: qs, p, t => by
    simp only [List.foldlM_cons, run_bind, run_read, run_pure]
    cases t.findLayer q d with
    | error e => rfl
    | ok p' =>
      simp only [bind, Except.bind, pure, Except.pure]
      exact foldlM_read_findLayer qs (p.max p') t

theorem traceSingle_eq (op d : Int) (q : Qubit) :
    traceSingle op d q = transact (·.traceSingle op d q) := by
  funext t
  by_cases hd : d < 0
  · simp only [traceSingle, transact, Tracer.traceSingle, hd, if_true, run_bind,
      checkDuration_of_neg hd]
  cases hs : t.qubitState? q with
  | none =>
    simp only [traceSingle, transact, Tracer.traceSingle, hd, if_false, hs, run_bind,
      checkDuration_of_nonneg hd, qubitState_of_none hs]
  | some s =>
    -- the qubit is known: recording it as seen keeps it, and the second lookup finds it again
    have hs' : (t.markSeen op).qubitState? q = some s := hs
    by_cases hz : d = 0 ∧ (t.markSeen op).isUnplaced s
    · obtain ⟨rfl, hu⟩ := hz
      simp only [traceSingle, transact, Tracer.traceSingle, hd, if_false, hs, run_bind,
        checkDuration_of_nonneg hd, qubitState_of_some hs, run_modify, run_get,
        qubitState_of_some hs', hu, and_self, if_true, run_set, run_pure]
    · -- placed: the search on the known qubit succeeds, and the late lookup of the move too
      obtain ⟨p, hp⟩ := findLayer_of_known hs' d
      obtain ⟨hqubits, hlt⟩ := placed_in_schedule (t := t.markSeen op) (findLayer_lt hp) op d
      have hmove := updateQubit_of_known (d := d) (by rw [qubitState?, hqubits]; exact hs') hlt
      simp only [traceSingle, transact, Tracer.traceSingle, hd, if_false, hs, run_bind,
        checkDuration_of_nonneg hd, qubitState_of_some hs, run_modify, run_get,
        qubitState_of_some hs', hz, run_read, hp, place, run_modifyGet, hmove, run_pure]
      simp only [bind, Except.bind, pure, Except.pure]

theorem measureSingle_eq (op d : Int) (q : Qubit) :
    measureSingle op d q = transact (·.measureSingle op d q) := by
  rw [measureSingle, traceSingle_eq, map_transact]
  rfl

theorem traceMulti_eq (op d : Int) (cs ts : List Qubit) :
    traceMulti op d cs ts = transact (·.traceMulti op d cs ts) := by
  funext t
  by_cases hd : d < 0
  · simp only [traceMulti, transact, Tracer.traceMulti, hd, if_true, run_bind,
      checkDuration_of_neg hd]
  cases ts with
  | nil =>
    simp only [traceMulti, transact, Tracer.traceMulti, hd, if_false, run_bind,
      checkDuration_of_nonneg hd, run_throw]
  | cons first rest =>
    by_cases hz : d = 0 ∧ cs.isEmpty ∧ rest.isEmpty
    · -- a zero-duration operation on one target is traced as a one-qubit operation
      obtain ⟨rfl, hcs, hrest⟩ := hz
      simp only [traceMulti, Tracer.traceMulti, hd, if_false, run_bind,
        checkDuration_of_nonneg hd, hcs, hrest, and_self, if_true, traceSingle_eq]
    cases hp₀ : t.findLayer first d with
    | error e =>
      simp only [traceMulti, transact, Tracer.traceMulti, hd, if_false, run_bind,
        checkDuration_of_nonneg hd, hz, run_read, hp₀]
      simp only [bind, Except.bind]
    | ok p₀ =>
      cases hp : (rest ++ cs).foldlM (fun p q => do
          let p' ← t.findLayer q d
          pure (p.max p')) p₀ with
      | error e =>
        simp only [traceMulti, transact, Tracer.traceMulti, hd, if_false, run_bind,
          checkDuration_of_nonneg hd, hz, run_read, hp₀, foldlM_read_findLayer, hp,
          except_ok_bind, except_error_bind]
      | ok p =>
        -- every qubit was found before the first write, and the layer is one of the schedule
        obtain ⟨hrest, hlt⟩ := foldlM_findLayer_ok (rest ++ cs) p₀ p (findLayer_lt hp₀) hp
        have hfirst : first.index < t.qubits.length := by
          rw [← qubitState?_iff_lt]
          cases hs : t.qubitState? first with
          | some s => rfl
          | none => rw [findLayer_error_iff.2 ⟨hs, rfl⟩] at hp₀; cases hp₀
        obtain ⟨hqubits, hlt'⟩ := placed_in_schedule (t := t.markSeen op) hlt op d
        have hmoves := forM_updateQubit_of_known (d := d) (cs ++ first :: rest) _
          (fun q hq => by
            rw [hqubits]
            simp only [List.mem_append, List.mem_cons] at hq
            rcases hq with hq | rfl | hq
            · exact hrest q (List.mem_append_right _ hq)
            · exact hfirst
            · exact hrest q (List.mem_append_left _ hq))
          hlt'
        simp only [traceMulti, transact, Tracer.traceMulti, hd, if_false, run_bind,
          checkDuration_of_nonneg hd, hz, run_read, hp₀, foldlM_read_findLayer, hp, run_modify,
          place, run_modifyGet, hmoves, run_pure, except_ok_bind]
        rfl

theorem measureMulti_eq (op d : Int) (ts : List Qubit) :
    measureMulti op d ts = transact (·.measureMulti op d ts) := by
  rw [measureMulti, traceMulti_eq, map_transact]
  rfl

theorem injectBarrier_eq (op d : Int) :
    injectBarrier op d = transact (·.injectBarrier op d) := by
  funext t
  by_cases hd : d < 0
  · simp only [injectBarrier, transact, Tracer.injectBarrier, hd, if_true, run_bind,
      checkDuration_of_neg hd]
  · simp only [injectBarrier, transact, Tracer.injectBarrier, hd, if_false, run_bind,
      checkDuration_of_nonneg hd, run_modifyGet, run_modify, run_pure]

theorem pushFence_eq (results1 results2 : List ResultHandle) :
    pushFence results1 results2 = transact (·.pushFence results1 results2) := by
  funext t
  -- both lists are read before the fence is pushed
  cases h₁ : t.latestMeasurement results1 with
  | error e =>
    simp only [pushFence, transact, Tracer.pushFence, run_bind, run_read, h₁, except_error_bind]
  | ok f₁ =>
    cases h₂ : t.latestMeasurement results2 with
    | error e =>
      simp only [pushFence, transact, Tracer.pushFence, run_bind, run_read, h₁, h₂,
        except_ok_bind, except_error_bind]
    | ok f₂ =>
      simp only [pushFence, transact, Tracer.pushFence, run_bind, run_read, h₁, h₂,
        except_ok_bind]
      cases optMax f₁ f₂ <;> rfl

end InPlace

end Tracer

namespace TraceRequest

/-- Serves a request on the tracer in place. -/
def serve : TraceRequest → Tracer.TraceM TraceReply
  | allocate => TraceReply.qubit <$> modifyGet Tracer.allocate
  | single op d q => TraceReply.placed <$> Tracer.InPlace.traceSingle op d q
  | multi op d cs ts => TraceReply.placed <$> Tracer.InPlace.traceMulti op d cs ts
  | measure op d q => TraceReply.measured <$> Tracer.InPlace.measureSingle op d q
  | jointMeasure op d ts => TraceReply.measured <$> Tracer.InPlace.measureMulti op d ts
  | barrier op d => TraceReply.barrier <$> Tracer.InPlace.injectBarrier op d
  | pushFence rs1 rs2 => TraceReply.fence <$> Tracer.InPlace.pushFence rs1 rs2
  | popFence f => (fun _ => TraceReply.popped) <$> Tracer.InPlace.popFence f

/-- Served in place, every request is its transaction. -/
theorem serve_eq (r : TraceRequest) : r.serve = Tracer.transact (·.step r) := by
  cases r with
  | allocate => rfl
  | single op d q => rw [serve, Tracer.InPlace.traceSingle_eq, Tracer.map_transact]; rfl
  | multi op d cs ts => rw [serve, Tracer.InPlace.traceMulti_eq, Tracer.map_transact]; rfl
  | measure op d q => rw [serve, Tracer.InPlace.measureSingle_eq, Tracer.map_transact]; rfl
  | jointMeasure op d ts =>
    rw [serve, Tracer.InPlace.measureMulti_eq, Tracer.map_transact]
    rfl
  | barrier op d => rw [serve, Tracer.InPlace.injectBarrier_eq, Tracer.map_transact]; rfl
  | pushFence rs1 rs2 => rw [serve, Tracer.InPlace.pushFence_eq, Tracer.map_transact]; rfl
  | popFence f => rfl

end TraceRequest

namespace Tracer

/-- A refused request changes nothing: served in place, a request fails exactly when the first
of its checks fails on the tracer as it stands, and it then leaves the whole tracer as it found
it, its layers, qubits, seen operations, barrier and fences alike. -/
theorem refused_requests_change_nothing (t : Tracer) (r : TraceRequest) (e : TraceError)
    (t' : Tracer) : r.serve t = .error e t' ↔ t.refusal r = some e ∧ t' = t := by
  rw [TraceRequest.serve_eq]
  unfold transact
  constructor
  · intro h
    split at h
    · cases h
    · next e' he =>
      cases h
      exact ⟨step_error_iff.1 he, rfl⟩
  · rintro ⟨hr, rfl⟩
    dsimp only
    rw [step_error_iff.2 hr]

end Tracer

end QuantumRuntime
