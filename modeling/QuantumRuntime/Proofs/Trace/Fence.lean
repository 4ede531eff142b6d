import QuantumRuntime.Proofs.Trace.Barrier

/-!
# Fences hold operations back

A fence pushed at layer `f` keeps what is placed while it is on the fence stack out of the layers
up to `f`. The latest fence is the largest one pushed, so the effective fence is never before
`f`, and every accepted request places its operation after the effective fence and changes no
layer up to it (`Tracer.Advances`). A request made while `f` is on the stack therefore names only
layers after `f` and leaves the layers up to `f` as they were: neither the operation it traces
nor the held operations of the qubits it moves land at or before the fence
(`Tracer.fence_holds_back`).

An operation held for its qubit is not placed by its own trace. If its fence is popped before the
qubit is next placed, it goes into the layer of the qubit's next operation, which may lie before
the fence (`Tracer.held_op_escapes_popped_fence`).
-/

namespace QuantumRuntime

namespace Tracer

variable {t t' : Tracer}

/-- The tracers a run passes through: the one each request of it is made to. -/
def states (t : Tracer) : List TraceRequest → List Tracer
  | [] => []
  | r :: rs => t :: (t.after r).states rs

/-- The later of an optional layer and layer `m` is a layer no earlier than `m`. -/
theorem optMax_some_right (a : Option Nat) (m : Nat) : ∃ e, optMax a (some m) = some e ∧ m ≤ e := by
  cases a with
  | none => exact ⟨m, rfl, Nat.le_refl m⟩
  | some x => exact ⟨max x m, rfl, Nat.le_max_right x m⟩

/-- A fence on the stack is never after the effective fence. -/
theorem Valid.fence_le (h : t.Valid) {f : Nat} (hf : f ∈ t.fences) :
    ∃ e, t.effectiveFence = some e ∧ f ≤ e := by
  obtain ⟨m, hm⟩ := Option.isSome_iff_exists.1 (List.isSome_max?_of_mem hf)
  have hfm : f ≤ m := (List.max?_eq_some_iff.1 hm).2 f hf
  obtain ⟨e, he, hme⟩ := optMax_some_right t.globalBarrier m
  -- the latest fence is the largest fence pushed
  have hlatest : t.latestFence = some m := h.latest_fence.trans hm
  exact ⟨e, by rw [effectiveFence, hlatest, he], Nat.le_trans hfm hme⟩

/-- A request accepted while a fence `f` is on the stack names only layers after `f` and changes
no layer up to it. -/
theorem Valid.step_fenced (h : t.Valid) {f : Nat} (hf : f ∈ t.fences) {r : TraceRequest}
    {a : TraceReply} (hs : t.step r = .ok (a, t')) :
    (∀ l, a.layer? = some l → f < l) ∧ ∀ i ≤ f, t'.layers[i]? = t.layers[i]? := by
  obtain ⟨e, he, hfe⟩ := h.fence_le hf
  have hadv := h.step_advances hs
  refine ⟨fun l hl => ?_, fun i hi => hadv.fenced_kept e he i (Nat.le_trans hi hfe)⟩
  have := (hadv.reply_after l hl).2 e he
  omega

/-- A run during which a fence `f` stays on the stack names only layers after `f`, and the layers
up to `f` end as they began. -/
theorem Valid.fenced_run (h : t.Valid) {f : Nat} {rs : List TraceRequest}
    (hf : ∀ s ∈ t.states rs, f ∈ s.fences) :
    PlacedIn (t.run rs).1 (f < ·) ∧ ∀ i ≤ f, (t.run rs).2.layers[i]? = t.layers[i]? := by
  induction rs generalizing t with
  | nil => exact ⟨fun e he => (nomatch he), fun _ _ => rfl⟩
  | cons r rs ih =>
    have hfr : f ∈ t.fences := hf t (List.mem_cons_self ..)
    have hrest : ∀ s ∈ (t.after r).states rs, f ∈ s.fences :=
      fun s hs => hf s (List.mem_cons_of_mem t hs)
    -- the first request, on its own
    have hfirst : (t.after r).Valid ∧
        (∀ a, (t.step r).map Prod.fst = .ok a → ∀ l, a.layer? = some l → f < l) ∧
        ∀ i ≤ f, (t.after r).layers[i]? = t.layers[i]? := by
      unfold after
      split
      · next a t₁ hs =>
        obtain ⟨hreply, hkept⟩ := h.step_fenced hfr hs
        refine ⟨h.step hs, fun a' ha' => ?_, hkept⟩
        rw [hs] at ha'
        cases ha'
        exact hreply
      · next e hs =>
        refine ⟨h, fun a ha => ?_, fun _ _ => rfl⟩
        rw [hs] at ha
        cases ha
    obtain ⟨hv, hreply, hkept⟩ := hfirst
    obtain ⟨ihp, ihk⟩ := ih hv hrest
    rw [run_cons]
    refine ⟨fun e he a l hea hl => ?_, fun i hi => (ihk i hi).trans (hkept i hi)⟩
    rcases List.mem_cons.1 he with rfl | he
    · exact hreply a hea l hl
    · exact ihp e he a l hea hl

/-- Fences hold operations back. In a run from a new tracer, take any stretch of requests during
which a fence at layer `f` stays on the fence stack, as it does inside the scope that pushed it:
every operation placed during the stretch lies in a layer after `f`, whether its trace names
that layer or it was held on a qubit and flushed with the qubit's next operation, since the
layers up to `f` end the stretch as they began it. -/
theorem fence_holds_back (p : Int) (names : List (Int × String)) (pre body : List TraceRequest)
    (f : Nat) (hf : ∀ s ∈ ((Tracer.new p names).run pre).2.states body, f ∈ s.fences) :
    PlacedIn (((Tracer.new p names).run pre).2.run body).1 (f < ·) ∧
      ∀ i ≤ f, (((Tracer.new p names).run pre).2.run body).2.layers[i]? =
        ((Tracer.new p names).run pre).2.layers[i]? :=
  (run_induction Valid (fun _ _ _ _ h hs => h.step hs) (valid_new p names) pre).fenced_run hf

/-- Inside a fence at the layer of a measurement, an operation on another qubit and a held
zero-duration operation on it. -/
theorem fence_holds_back_after_measurement :
    (∀ s ∈ ((Tracer.new 1 []).run [.allocate, .allocate, .single 1 1 ⟨0⟩, .measure 2 1 ⟨0⟩,
        .pushFence [⟨1⟩] []]).2.states [.single 3 0 ⟨1⟩, .single 4 1 ⟨1⟩], 1 ∈ s.fences) ∧
      PlacedIn (((Tracer.new 1 []).run [.allocate, .allocate, .single 1 1 ⟨0⟩, .measure 2 1 ⟨0⟩,
        .pushFence [⟨1⟩] []]).2.run [.single 3 0 ⟨1⟩, .single 4 1 ⟨1⟩]).1 (1 < ·) ∧
      ∀ i ≤ 1, (((Tracer.new 1 []).run [.allocate, .allocate, .single 1 1 ⟨0⟩, .measure 2 1 ⟨0⟩,
        .pushFence [⟨1⟩] []]).2.run [.single 3 0 ⟨1⟩, .single 4 1 ⟨1⟩]).2.layers[i]? =
        ((Tracer.new 1 []).run [.allocate, .allocate, .single 1 1 ⟨0⟩, .measure 2 1 ⟨0⟩,
          .pushFence [⟨1⟩] []]).2.layers[i]? :=
  have hf : ∀ s ∈ ((Tracer.new 1 []).run [.allocate, .allocate, .single 1 1 ⟨0⟩,
      .measure 2 1 ⟨0⟩, .pushFence [⟨1⟩] []]).2.states [.single 3 0 ⟨1⟩, .single 4 1 ⟨1⟩],
      1 ∈ s.fences := by decide
  ⟨hf, fence_holds_back 1 [] _ _ 1 hf⟩

/-- A held operation escapes a popped fence. After a measurement in layer 1 is made a fence, a
zero-duration operation `3` on an unplaced qubit is held; the fence is popped, and the qubit's
next operation lands in layer 0, taking operation `3` with it. -/
theorem held_op_escapes_popped_fence :
    1 ∈ ((Tracer.new 1 []).run [.allocate, .allocate, .single 1 1 ⟨0⟩, .measure 2 1 ⟨0⟩,
        .pushFence [⟨1⟩] []]).2.fences ∧
      ((Tracer.new 1 []).run [.allocate, .allocate, .single 1 1 ⟨0⟩, .measure 2 1 ⟨0⟩,
        .pushFence [⟨1⟩] [], .single 3 0 ⟨1⟩]).1.getLast? =
        some (.single 3 0 ⟨1⟩, .ok (.placed none)) ∧
      ((Tracer.new 1 []).run [.allocate, .allocate, .single 1 1 ⟨0⟩, .measure 2 1 ⟨0⟩,
        .pushFence [⟨1⟩] [], .single 3 0 ⟨1⟩, .popFence (some 1), .single 4 1 ⟨1⟩]).2.layers.map
        (·.count 3) = [1, 0] :=
  ⟨by decide, rfl, rfl⟩

end Tracer

end QuantumRuntime
