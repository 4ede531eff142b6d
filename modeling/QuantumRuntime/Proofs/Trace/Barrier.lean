import QuantumRuntime.Proofs.Trace.Wellformed

/-!
# Barriers separate the schedule

Once a barrier has been injected at layer `b`, the schedule is cut in two. Every operation placed
before it lies in a layer before `b`; every operation placed afterwards, whether the trace names
its layer or the operation was held and flushed into a layer later, lies after `b`, because no
layer up to `b` ever changes again (`Tracer.barrier_separates`).

The argument is one fact about single requests, `Tracer.Advances`: an accepted request places
its operation after the effective fence, changes no layer up to the fence, only appends layers
and never moves the global barrier back. Since the effective fence is never before the global
barrier, everything that follows a barrier stays behind it.
-/

namespace QuantumRuntime

namespace Tracer

variable {t t' : Tracer}

theorem layerOfMeasurement_measurementResult {l : Option Nat} {c : Nat}
    (h : layerOfMeasurement (measurementResult l) = some c) : l = some c := by
  cases l with
  | none => simp [measurementResult, layerOfMeasurement, ResultHandle.isValid_invalid] at h
  | some l =>
    unfold layerOfMeasurement at h
    split at h
    · exact h
    · cases h

/-- Moving a qubit into a layer changes no other layer. -/
theorem layers_updateQubit (t : Tracer) (q : Qubit) (c : Nat) (d : Int) :
    ∃ f, (t.updateQubit q c d).layers = t.layers.modify c f := by
  cases hq : t.qubitState? q with
  | none => exact ⟨id, by rw [updateQubit_of_none (Or.inl hq), List.modify_id]⟩
  | some s =>
    cases hl : t.layers[c]? with
    | none => exact ⟨id, by rw [updateQubit_of_none (Or.inr hl), List.modify_id]⟩
    | some l => exact ⟨_, by rw [updateQubit_eq hq hl, foldl_addOp]⟩

theorem layers_foldl_updateQubit (c : Nat) (d : Int) :
    ∀ (qs : List Qubit) (t : Tracer),
      ∃ f, (qs.foldl (fun t q => t.updateQubit q c d) t).layers = t.layers.modify c f
  | [], t => ⟨id, by rw [List.foldl_nil, List.modify_id]⟩
  | q :: qs, t => by
    obtain ⟨f, hf⟩ := layers_updateQubit t q c d
    obtain ⟨g, hg⟩ := layers_foldl_updateQubit c d qs (t.updateQubit q c d)
    exact ⟨g ∘ f, by rw [List.foldl_cons, hg, hf, List.modify_modify_eq]⟩

/-- How an accepted request with reply `a` takes the tracer from `t` to `t'`, seen from the
effective fence of `t`. -/
structure Advances (t : Tracer) (a : TraceReply) (t' : Tracer) : Prop where
  /-- A layer the reply names is a layer of the new schedule after the fence. -/
  reply_after : ∀ c, a.layer? = some c →
    c < t'.layers.length ∧ ∀ f, t.effectiveFence = some f → f < c
  /-- No layer up to the fence changes. -/
  fenced_kept : ∀ f, t.effectiveFence = some f → ∀ i ≤ f, t'.layers[i]? = t.layers[i]?
  /-- No layer is removed. -/
  length_le : t.layers.length ≤ t'.layers.length
  /-- The global barrier never moves back. -/
  barrier_le : ∀ g, t.globalBarrier = some g → ∃ g', t'.globalBarrier = some g' ∧ g ≤ g'

/-- A request that names no layer and changes neither the layers nor the global barrier. -/
theorem Advances.of_layers {a : TraceReply} (ha : a.layer? = none) (hl : t'.layers = t.layers)
    (hg : t'.globalBarrier = t.globalBarrier) : Advances t a t' where
  reply_after c hc := by rw [ha] at hc; cases hc
  fenced_kept _ _ i _ := by rw [hl]
  length_le := Nat.le_of_eq (by rw [hl])
  barrier_le g hg' := ⟨g, by rw [hg, hg'], Nat.le_refl g⟩

theorem Advances.markSeen {a : TraceReply} {op : Int} (h : Advances (t.markSeen op) a t') :
    Advances t a t' :=
  ⟨h.reply_after, h.fenced_kept, h.length_le, h.barrier_le⟩

/-- A measurement's result names the layer its trace placed it in, if any. -/
theorem Advances.measured {r : Option Nat} (h : Advances t (.placed r) t') :
    Advances t (.measured (measurementResult r)) t' :=
  ⟨fun c hc => h.reply_after c (layerOfMeasurement_measurementResult hc), h.fenced_kept,
    h.length_le, h.barrier_le⟩

/-- Placing an operation where the layer search admits it, and moving its qubits there. -/
theorem Valid.placeOp_advances (h : t.Valid) {op d : Int} {p : Placement} {c : Nat} {t₁ : Tracer}
    (hp : t.Admits p) (hpl : t.place p d = (c, t₁)) (qs : List Qubit)
    (ht' : t' = qs.foldl (fun t q => t.updateQubit q c d) (t₁.addOp op c)) :
    Advances t (.placed (some c)) t' := by
  have hg : t'.globalBarrier = t.globalBarrier := by
    have hshape : ∃ qubits layers, t' = { t with qubits, layers } := ht' ▸ placeOp_shape hpl qs
    obtain ⟨qubits, layers, rfl⟩ := hshape
    rfl
  -- the operation and the qubits moved with it touch layer `c` only
  obtain ⟨g, hg'⟩ := layers_foldl_updateQubit c d qs (t₁.addOp op c)
  have hlayers : t'.layers = t₁.layers.modify c (g ∘ (·.addOp op)) := by
    rw [ht', hg', Tracer.addOp, List.modify_modify_eq]
  -- a new layer goes after every layer, so after the fence too
  have hplace : c < t₁.layers.length ∧ (∀ f, t.effectiveFence = some f → f < c) ∧
      t.layers.length ≤ t₁.layers.length ∧ ∀ i < c, t₁.layers[i]? = t.layers[i]? := by
    rcases place_cases hpl with ⟨rfl, rfl⟩ | ⟨rfl, rfl, rfl⟩
    · exact ⟨hp.1, hp.2, Nat.le_refl _, fun _ _ => rfl⟩
    · rw [openLayer_snd]
      exact ⟨by simp, h.effectiveFence_lt, by simp, fun i hi => List.getElem?_append_left hi⟩
  obtain ⟨hc, hfc, hlen, hkeep⟩ := hplace
  refine ⟨?_, ?_, ?_, fun g' hg'' => ⟨g', hg.trans hg'', Nat.le_refl g'⟩⟩
  · rintro c' ⟨⟩
    exact ⟨by rw [hlayers, List.length_modify]; exact hc, hfc⟩
  · intro f hf i hi
    have hic : i < c := Nat.lt_of_le_of_lt hi (hfc f hf)
    rw [hlayers, List.getElem?_modify_ne _ _ (Nat.ne_of_gt hic), hkeep i hic]
  · rw [hlayers, List.length_modify]
    exact hlen

theorem Valid.traceSingle_advances (h : t.Valid) {op d : Int} {q : Qubit} {r : Option Nat}
    (hs : t.traceSingle op d q = .ok (r, t')) : Advances t (.placed r) t' := by
  obtain ⟨-, s, -, ⟨-, -, rfl, rfl⟩ | ⟨-, p, c, t₁, hp, hpl, rfl, ht'⟩⟩ := traceSingle_ok hs
  · exact Advances.of_layers rfl rfl rfl
  · exact ((h.markSeen op).placeOp_advances (h.findLayer_admits hp) hpl [q] ht').markSeen

theorem Valid.traceMulti_advances (h : t.Valid) {op d : Int} {cs ts : List Qubit} {r : Option Nat}
    (hs : t.traceMulti op d cs ts = .ok (r, t')) : Advances t (.placed r) t' := by
  obtain ⟨-, first, rest, rfl, ⟨-, -, -, hs⟩ | ⟨-, p₀, p, c, t₁, hp₀, hp, hpl, rfl, ht'⟩⟩ :=
    traceMulti_ok hs
  · exact h.traceSingle_advances hs
  · exact ((h.markSeen op).placeOp_advances (h.foldlM_admits (h.findLayer_admits hp₀) hp) hpl _
      ht').markSeen

/-- A barrier goes after every layer, so after the fence, and becomes the global barrier. -/
theorem Valid.injectBarrier_advances (h : t.Valid) {op d : Int} {b : Nat}
    (hs : t.injectBarrier op d = .ok (b, t')) : Advances t (.barrier b) t' := by
  obtain ⟨-, rfl, rfl⟩ := injectBarrier_ok hs
  dsimp only
  refine ⟨fun c hc => ?_, fun f hf i hi => ?_, by simp [openLayer_snd], fun g hg => ?_⟩
  · cases hc
  · have := h.effectiveFence_lt f hf
    simp only [openLayer_snd]
    rw [List.getElem?_modify_ne _ _ (by omega), List.getElem?_append_left (by omega)]
  · obtain ⟨l, hl, -⟩ := h.global_barrier g hg
    exact ⟨t.layers.length, rfl, Nat.le_of_lt (List.getElem?_eq_some_iff.1 hl).1⟩

theorem Valid.step_advances (h : t.Valid) {r : TraceRequest} {a : TraceReply}
    (hs : t.step r = .ok (a, t')) : Advances t a t' := by
  have hs := step_ok hs
  cases r with
  | allocate => rw [hs.1, hs.2]; exact Advances.of_layers rfl rfl rfl
  | single =>
    obtain ⟨_, hl, rfl⟩ := hs
    exact h.traceSingle_advances hl
  | multi =>
    obtain ⟨_, hl, rfl⟩ := hs
    exact h.traceMulti_advances hl
  | measure =>
    obtain ⟨_, hl, rfl⟩ := hs
    exact (h.traceSingle_advances hl).measured
  | jointMeasure =>
    obtain ⟨_, hl, rfl⟩ := hs
    exact (h.traceMulti_advances hl).measured
  | barrier =>
    obtain ⟨_, hl, rfl⟩ := hs
    exact h.injectBarrier_advances hl
  | pushFence =>
    obtain ⟨_, hl, rfl⟩ := hs
    obtain ⟨_, _, -, -, -, ⟨-, rfl⟩ | ⟨_, -, rfl⟩⟩ := pushFence_ok hl <;>
      exact Advances.of_layers rfl rfl rfl
  | popFence f =>
    rw [hs.1, hs.2]
    cases f <;> exact Advances.of_layers rfl rfl rfl

/-! ### Runs -/

/-- Every accepted reply of a transcript that names a layer names one satisfying `P`. -/
def PlacedIn (log : List (TraceRequest × Except TraceError TraceReply)) (P : Nat → Prop) : Prop :=
  ∀ e ∈ log, ∀ a l, e.2 = .ok a → a.layer? = some l → P l

/-- If every request accepted from a tracer satisfying `P` keeps `P` and names only layers
satisfying `L`, so does every run from such a tracer. -/
theorem placedIn_run (P : Tracer → Prop) (L : Nat → Prop)
    (hstep : ∀ t r a t', P t → t.step r = .ok (a, t') → P t' ∧ ∀ l, a.layer? = some l → L l)
    {t : Tracer} (ht : P t) (rs : List TraceRequest) : PlacedIn (t.run rs).1 L := by
  induction rs generalizing t with
  | nil => intro e he; cases he
  | cons r rs ih =>
    rw [run_cons]
    intro e he a l hea hl
    rcases List.mem_cons.1 he with rfl | he
    · cases hst : t.step r with
      | error err => rw [hst] at hea; cases hea
      | ok res =>
        rw [hst] at hea
        cases hea
        exact (hstep t r res.1 res.2 ht hst).2 l hl
    · unfold after at he
      split at he
      · next a' t' hst => exact ih (hstep t r a' t' ht hst).1 e he a l hea hl
      · exact ih ht e he a l hea hl

theorem Valid.length_le_run (h : t.Valid) (rs : List TraceRequest) :
    t.layers.length ≤ (t.run rs).2.layers.length :=
  (run_induction (fun s => s.Valid ∧ t.layers.length ≤ s.layers.length)
    (fun _ _ _ _ hs hst => ⟨hs.1.step hst, Nat.le_trans hs.2 (hs.1.step_advances hst).length_le⟩)
    ⟨h, Nat.le_refl _⟩ rs).2

/-- Every layer a run names belongs to the schedule it ends with. -/
theorem Valid.placedIn_run_length (h : t.Valid) (rs : List TraceRequest) :
    PlacedIn (t.run rs).1 (· < (t.run rs).2.layers.length) := by
  induction rs generalizing t with
  | nil => intro e he; cases he
  | cons r rs ih =>
    rw [run_cons]
    intro e he a l hea hl
    rcases List.mem_cons.1 he with rfl | he
    · cases hst : t.step r with
      | error err => rw [hst] at hea; cases hea
      | ok res =>
        rw [hst] at hea
        cases hea
        -- named when it was placed, in a schedule that only grows afterwards
        have hlt := ((h.step_advances hst).reply_after l hl).1
        have hle := (h.step hst).length_le_run rs
        unfold after
        rw [hst]
        exact Nat.lt_of_lt_of_le hlt hle
    · unfold after at he ⊢
      split at he
      · next a' t' hst => rw [hst]; exact ih (h.step hst) e he a l hea hl
      · next e' hst => rw [hst]; exact ih h e he a l hea hl

/-- A tracer past a barrier at layer `b`, which left the tracer `tb`: it is valid, its global
barrier is at `b` or later, and its layers up to `b` are those of `tb`. -/
structure PastBarrier (b : Nat) (tb t : Tracer) : Prop where
  valid : t.Valid
  barrier_ge : ∃ g, t.globalBarrier = some g ∧ b ≤ g
  kept : ∀ i ≤ b, t.layers[i]? = tb.layers[i]?

/-- Past a barrier, every request keeps the layers up to it and names only layers after it. -/
theorem PastBarrier.step {b : Nat} {tb : Tracer} (h : PastBarrier b tb t) {r : TraceRequest}
    {a : TraceReply} (hs : t.step r = .ok (a, t')) :
    PastBarrier b tb t' ∧ ∀ l, a.layer? = some l → b < l := by
  obtain ⟨hv, ⟨g, hg, hbg⟩, hkeep⟩ := h
  have hadv := hv.step_advances hs
  -- the effective fence is at the global barrier or later, hence at `b` or later
  obtain ⟨f, hf, hgf⟩ := globalBarrier_le_fence hg
  obtain ⟨g', hg', hgg'⟩ := hadv.barrier_le g hg
  refine ⟨⟨hv.step hs, ⟨g', hg', by omega⟩, fun i hi => ?_⟩, fun l hl => ?_⟩
  · rw [hadv.fenced_kept f hf i (by omega), hkeep i hi]
  · have := (hadv.reply_after l hl).2 f hf
    omega

/-- A barrier separates the schedule. In a run from a new tracer, let a barrier be injected and
return layer `b`: every operation placed before it lies in a layer before `b`; every operation
placed afterwards, by any later requests, other barriers and fences included, lies in a layer
after `b`; and no layer up to `b` changes afterwards, so an operation held on a qubit and flushed
later is flushed into a layer after `b` too. -/
theorem barrier_separates (p : Int) (names : List (Int × String)) (pre post : List TraceRequest)
    (op d : Int) (b : Nat) (tb : Tracer)
    (hb : ((Tracer.new p names).run pre).2.step (.barrier op d) = .ok (.barrier b, tb)) :
    PlacedIn ((Tracer.new p names).run pre).1 (· < b) ∧ PlacedIn (tb.run post).1 (b < ·) ∧
      ∀ i ≤ b, (tb.run post).2.layers[i]? = tb.layers[i]? := by
  have hv : ((Tracer.new p names).run pre).2.Valid :=
    run_induction Valid (fun _ _ _ _ h hs => h.step hs) (valid_new p names) pre
  obtain ⟨_, hinj, hbb⟩ := step_ok hb
  cases hbb
  -- the barrier is the last layer of the schedule and the new global barrier
  obtain ⟨-, hlen, htb⟩ := injectBarrier_ok hinj
  have hpast : PastBarrier b tb tb := ⟨hv.step hb, ⟨b, by rw [htb], Nat.le_refl b⟩, fun _ _ => rfl⟩
  refine ⟨?_, placedIn_run _ _ (fun _ _ _ _ h hs => h.step hs) hpast post,
    (run_induction _ (fun _ _ _ _ h hs => (h.step hs).1) hpast post).kept⟩
  rw [hlen]
  exact (valid_new p names).placedIn_run_length pre

/-- One operation placed before a barrier at layer one, and one after it. -/
theorem barrier_separates_one_op_each_side :
    ((Tracer.new 4 []).run [.allocate, .single 1 4 ⟨0⟩]).2.step (.barrier 42 1) =
        .ok (.barrier 1, ((Tracer.new 4 []).run [.allocate, .single 1 4 ⟨0⟩]).2.after (.barrier 42 1)) ∧
      (PlacedIn ((Tracer.new 4 []).run [.allocate, .single 1 4 ⟨0⟩]).1 (· < 1) ∧
        PlacedIn ((((Tracer.new 4 []).run [.allocate, .single 1 4 ⟨0⟩]).2.after (.barrier 42 1)).run
          [.single 2 1 ⟨0⟩]).1 (1 < ·) ∧
        ∀ i ≤ 1, ((((Tracer.new 4 []).run [.allocate, .single 1 4 ⟨0⟩]).2.after (.barrier 42 1)).run
          [.single 2 1 ⟨0⟩]).2.layers[i]? =
          (((Tracer.new 4 []).run [.allocate, .single 1 4 ⟨0⟩]).2.after (.barrier 42 1)).layers[i]?) :=
  ⟨rfl, barrier_separates 4 [] _ _ 42 1 1 _ rfl⟩

end Tracer

end QuantumRuntime
