import QuantumRuntime.Proofs.Trace.Steps

/-!
# The schedule stays well formed

`Tracer.Valid` is the representation invariant of the layering tracer: the layers tile the time
axis from zero, each at least as long as the preferred duration; barrier layers hold no
operations and none lies after the global barrier, itself a barrier layer; every placed qubit
sits in an ordinary layer of the schedule that starts no later than the qubit's last use; every
pushed fence names a layer, and the latest fence is the largest one pushed.

Every request keeps it, whether it is accepted or refused, so it holds after every run that
starts from a new tracer (`Tracer.valid_run`). The argument rests on the layer search: whatever
it picks lies after the effective fence, hence after every barrier, so operations never land in a
barrier layer.
-/

namespace QuantumRuntime

namespace Layer

/-- A layer apart from the operations it holds: its start, duration and barrier. -/
def frame (l : Layer) : Int × Int × Option Int := (l.start, l.duration, l.barrier)

end Layer

namespace Tracer

/-- The layers tile the time axis from zero: the first starts at zero, and each of the others
when the one before it ends. -/
def Tiled (ls : List Layer) : Prop :=
  (∀ l, ls[0]? = some l → l.start = 0) ∧
    ∀ i l l', ls[i]? = some l → ls[i + 1]? = some l' → l'.start = l.stop

/-- The representation invariant of the tracer. -/
structure Valid (t : Tracer) : Prop where
  /-- The layers tile the time axis from zero. -/
  tiled : Tiled t.layers
  /-- No layer is shorter than the preferred duration, or than zero. -/
  duration_ge : ∀ l ∈ t.layers, max t.preferred 0 ≤ l.duration
  /-- A barrier layer holds no operations. -/
  barrier_empty : ∀ l ∈ t.layers, l.barrier.isSome → l.ops = []
  /-- No barrier layer lies after the global barrier. -/
  barrier_le : ∀ i l, t.layers[i]? = some l → l.barrier.isSome →
    ∃ g, t.globalBarrier = some g ∧ i ≤ g
  /-- The global barrier is a barrier layer. -/
  global_barrier : ∀ g, t.globalBarrier = some g → ∃ l, t.layers[g]? = some l ∧ l.barrier.isSome
  /-- A placed qubit sits in an ordinary layer that starts no later than its last use. -/
  qubit_layer : ∀ s ∈ t.qubits, ∀ c, s.layer = some c →
    ∃ l, t.layers[c]? = some l ∧ l.barrier = none ∧ l.start ≤ s.lastUsed
  /-- Every pushed fence names a layer. -/
  fence_lt : ∀ f ∈ t.fences, f < t.layers.length
  /-- The latest fence is the largest fence pushed, none when none is. -/
  latest_fence : t.latestFence = t.fences.max?

variable {t t' : Tracer}

theorem valid_new (p : Int) (names : List (Int × String)) : (Tracer.new p names).Valid where
  tiled := by simp [Tiled, Tracer.new]
  duration_ge := by simp [Tracer.new]
  barrier_empty := by simp [Tracer.new]
  barrier_le := by simp [Tracer.new]
  global_barrier := by simp [Tracer.new]
  qubit_layer := by simp [Tracer.new]
  fence_lt := by simp [Tracer.new]
  latest_fence := rfl

/-! ### What the invariant gives the layer search -/

theorem Valid.effectiveFence_lt (h : t.Valid) :
    ∀ f, t.effectiveFence = some f → f < t.layers.length := by
  intro f hf
  rcases optMax_eq_some hf with hg | hl
  · obtain ⟨l, hl, -⟩ := h.global_barrier f hg
    exact (List.getElem?_eq_some_iff.1 hl).1
  · rw [h.latest_fence] at hl
    exact h.fence_lt f (List.max?_mem hl)

theorem Valid.qubit_lt (h : t.Valid) {q : Qubit} :
    ∀ s c, t.qubitState? q = some s → s.layer = some c → c < t.layers.length := by
  intro s c hs hc
  obtain ⟨l, hl, -⟩ := h.qubit_layer s (List.mem_of_getElem? hs) c hc
  exact (List.getElem?_eq_some_iff.1 hl).1

theorem Valid.findLayer_admits (h : t.Valid) {q : Qubit} {d : Int} {p : Placement}
    (hp : t.findLayer q d = .ok p) : t.Admits p :=
  Tracer.findLayer_admits h.qubit_lt h.effectiveFence_lt hp

/-- The placement of an operation on several qubits, the latest any of them needs, lies after the
effective fence too. -/
theorem Valid.foldlM_admits (h : t.Valid) {d : Int} {qs : List Qubit} {p₀ p : Placement}
    (hp₀ : t.Admits p₀) (hp : qs.foldlM (fun p q => do
      let p' ← t.findLayer q d
      pure (p.max p')) p₀ = .ok p) : t.Admits p :=
  admits_foldlM (fun _ _ hq => h.findLayer_admits hq) qs p₀ hp₀ hp

theorem optMax_some_left (g : Nat) (b : Option Nat) : ∃ m, optMax (some g) b = some m ∧ g ≤ m := by
  cases b with
  | none => exact ⟨g, rfl, Nat.le_refl g⟩
  | some x => exact ⟨max g x, rfl, Nat.le_max_left g x⟩

/-- The global barrier is never after the effective fence. -/
theorem globalBarrier_le_fence {g : Nat} (hg : t.globalBarrier = some g) :
    ∃ f, t.effectiveFence = some f ∧ g ≤ f := by
  unfold effectiveFence
  rw [hg]
  exact optMax_some_left g t.latestFence

/-- A layer after the effective fence is an ordinary layer. -/
theorem Valid.barrier_none (h : t.Valid) {c : Nat} {l : Layer} (hl : t.layers[c]? = some l)
    (hc : ∀ f, t.effectiveFence = some f → f < c) : l.barrier = none := by
  cases hb : l.barrier with
  | none => rfl
  | some b =>
    obtain ⟨g, hg, hcg⟩ := h.barrier_le c l hl (by simp [hb])
    obtain ⟨f, hf, hgf⟩ := globalBarrier_le_fence hg
    have := hc f hf
    omega

/-! ### Changing what layers hold keeps their frames -/

theorem frames_addOp (t : Tracer) (op : Int) (c : Nat) :
    (t.addOp op c).layers.map Layer.frame = t.layers.map Layer.frame :=
  map_modify_eq Layer.frame (·.addOp op) (fun _ => rfl) t.layers c

theorem exists_of_frames {ls ls' : List Layer} (hf : ls'.map Layer.frame = ls.map Layer.frame)
    {i : Nat} {l' : Layer} (h : ls'[i]? = some l') :
    ∃ l, ls[i]? = some l ∧ l'.start = l.start ∧ l'.duration = l.duration ∧ l'.barrier = l.barrier := by
  have hi := congrArg (·[i]?) hf
  simp only [List.getElem?_map, h, Option.map_some] at hi
  cases hl : ls[i]? with
  | none => rw [hl] at hi; cases hi
  | some l =>
    rw [hl] at hi
    simp only [Layer.frame, Option.map_some, Option.some.injEq, Prod.mk.injEq] at hi
    exact ⟨l, rfl, hi.1, hi.2.1, hi.2.2⟩

theorem tiled_of_frames {ls ls' : List Layer} (hf : ls'.map Layer.frame = ls.map Layer.frame)
    (h : Tiled ls) : Tiled ls' := by
  refine ⟨fun l' hl' => ?_, fun i l₁' l₂' h₁ h₂ => ?_⟩
  · obtain ⟨l, hl, hs, -⟩ := exists_of_frames hf hl'
    rw [hs]
    exact h.1 l hl
  · obtain ⟨l₁, hl₁, hs₁, hd₁, -⟩ := exists_of_frames hf h₁
    obtain ⟨l₂, hl₂, hs₂, -⟩ := exists_of_frames hf h₂
    simp only [Layer.stop, hs₁, hd₁, hs₂]
    exact h.2 i l₁ l₂ hl₁ hl₂

/-- A layer appended where the last one ends keeps the axis tiled. -/
theorem tiled_append {ls : List Layer} {new : Layer} (h : Tiled ls)
    (hs : new.start = (ls.getLast?.map Layer.stop).getD 0) : Tiled (ls ++ [new]) := by
  refine ⟨fun l hl => ?_, fun i l l' h₁ h₂ => ?_⟩
  · rcases getElem?_append_singleton hl with hl | ⟨h0, rfl⟩
    · exact h.1 l hl
    · rw [hs, List.length_eq_zero_iff.1 h0.symm]
      rfl
  · rcases getElem?_append_singleton h₂ with h₂ | ⟨hi, rfl⟩
    · rcases getElem?_append_singleton h₁ with h₁ | ⟨hi', -⟩
      · exact h.2 i l l' h₁ h₂
      · have := (List.getElem?_eq_some_iff.1 h₂).1
        omega
    · rcases getElem?_append_singleton h₁ with h₁ | ⟨hi', -⟩
      · have hlast : ls.getLast? = some l := by
          rw [List.getLast?_eq_getElem?, ← hi]
          exact h₁
        simp [hs, hlast]
      · omega

/-- The invariant only reads the frames of the layers, apart from the emptiness of barrier
layers: a tracer with the same frames, the same qubits and fences, whose barrier layers are still
empty, is valid too. -/
theorem Valid.of_frames (h : t.Valid) (hf : t'.layers.map Layer.frame = t.layers.map Layer.frame)
    (hq : t'.qubits = t.qubits) (hp : t'.preferred = t.preferred)
    (hg : t'.globalBarrier = t.globalBarrier) (hfe : t'.fences = t.fences)
    (hlf : t'.latestFence = t.latestFence)
    (he : ∀ l ∈ t'.layers, l.barrier.isSome → l.ops = []) : t'.Valid where
  tiled := tiled_of_frames hf h.tiled
  duration_ge l' hl' := by
    obtain ⟨i, hi⟩ := List.mem_iff_getElem?.1 hl'
    obtain ⟨l, hl, -, hd, -⟩ := exists_of_frames hf hi
    rw [hd, hp]
    exact h.duration_ge l (List.mem_of_getElem? hl)
  barrier_empty := he
  barrier_le i l' hl' hb := by
    obtain ⟨l, hl, -, -, hb'⟩ := exists_of_frames hf hl'
    rw [hg]
    exact h.barrier_le i l hl (hb' ▸ hb)
  global_barrier g hg' := by
    obtain ⟨l, hl, hb⟩ := h.global_barrier g (hg ▸ hg')
    obtain ⟨l', hl', -, -, hb'⟩ := exists_of_frames hf.symm hl
    exact ⟨l', hl', hb' ▸ hb⟩
  qubit_layer s hs c hc := by
    obtain ⟨l, hl, hb, hle⟩ := h.qubit_layer s (hq ▸ hs) c hc
    obtain ⟨l', hl', hs', -, hb'⟩ := exists_of_frames hf.symm hl
    exact ⟨l', hl', hb' ▸ hb, hs' ▸ hle⟩
  fence_lt f hf' := by
    have hlen := congrArg List.length hf
    simp only [List.length_map] at hlen
    rw [hlen]
    exact h.fence_lt f (hfe ▸ hf')
  latest_fence := by rw [hlf, hfe]; exact h.latest_fence

theorem frames_foldl_addOp (c : Nat) (ops : List Int) (t : Tracer) :
    (ops.foldl (fun t op => t.addOp op c) t).layers.map Layer.frame = t.layers.map Layer.frame := by
  induction ops generalizing t with
  | nil => rfl
  | cons op ops ih => rw [List.foldl_cons, ih, frames_addOp]

theorem frames_updateQubit (t : Tracer) (q : Qubit) (c : Nat) (d : Int) :
    (t.updateQubit q c d).layers.map Layer.frame = t.layers.map Layer.frame := by
  cases hs : t.qubitState? q with
  | none => rw [updateQubit_of_none (Or.inl hs)]
  | some s =>
    cases hl : t.layers[c]? with
    | none => rw [updateQubit_of_none (Or.inr hl)]
    | some l => rw [updateQubit_eq hs hl, frames_foldl_addOp]

/-- A layer of the schedule that is not a barrier. -/
def Ordinary (t : Tracer) (c : Nat) : Prop := ∃ l, t.layers[c]? = some l ∧ l.barrier = none

theorem ordinary_of_frames (hf : t'.layers.map Layer.frame = t.layers.map Layer.frame) {c : Nat}
    (hc : t.Ordinary c) : t'.Ordinary c := by
  obtain ⟨l, hl, hb⟩ := hc
  obtain ⟨l', hl', -, -, hb'⟩ := exists_of_frames hf.symm hl
  exact ⟨l', hl', hb' ▸ hb⟩

/-! ### Each primitive keeps the invariant -/

theorem Valid.markSeen (h : t.Valid) (op : Int) : (t.markSeen op).Valid :=
  h.of_frames rfl rfl rfl rfl rfl rfl h.barrier_empty

theorem Valid.addOp (h : t.Valid) {c : Nat} (hc : t.Ordinary c) (op : Int) : (t.addOp op c).Valid := by
  refine h.of_frames (frames_addOp t op c) rfl rfl rfl rfl rfl ?_
  intro l' hl' hb
  obtain ⟨i, hi⟩ := List.mem_iff_getElem?.1 hl'
  simp only [Tracer.addOp, List.getElem?_modify] at hi
  cases hl : t.layers[i]? with
  | none => rw [hl] at hi; cases hi
  | some l =>
    rw [hl] at hi
    simp only [Option.map_eq_map, Option.map_some, Option.some.injEq] at hi
    split at hi
    · next hci =>
      subst hci hi
      obtain ⟨l₀, hl₀, hb₀⟩ := hc
      cases hl.symm.trans hl₀
      simp [Layer.addOp, hb₀] at hb
    · subst hi
      exact h.barrier_empty l (List.mem_of_getElem? hl) hb

theorem Valid.foldl_addOp (h : t.Valid) {c : Nat} (hc : t.Ordinary c) (ops : List Int) :
    (ops.foldl (fun t op => t.addOp op c) t).Valid := by
  induction ops generalizing t with
  | nil => exact h
  | cons op ops ih =>
    rw [List.foldl_cons]
    exact ih (h.addOp hc op) (ordinary_of_frames (frames_addOp t op c) hc)

theorem Valid.setQubit (h : t.Valid) (i : Nat) (s : QubitState)
    (hs : ∀ c, s.layer = some c → ∃ l, t.layers[c]? = some l ∧ l.barrier = none ∧ l.start ≤ s.lastUsed) :
    { t with qubits := t.qubits.set i s }.Valid :=
  { h with
    qubit_layer := fun s' hs' c hc => by
      rcases List.mem_or_eq_of_mem_set hs' with hs' | rfl
      · exact h.qubit_layer s' hs' c hc
      · exact hs c hc }

/-- Moving a qubit into an ordinary layer after an operation that takes no negative time keeps
the invariant: the qubit's clock ends up no earlier than the layer's start. -/
theorem Valid.updateQubit (h : t.Valid) {q : Qubit} {c : Nat} {d : Int} (hd : 0 ≤ d)
    (hc : t.Ordinary c) : (t.updateQubit q c d).Valid := by
  obtain ⟨l, hl, hb⟩ := hc
  cases hs : t.qubitState? q with
  | none => rw [updateQubit_of_none (Or.inl hs)]; exact h
  | some s =>
    rw [updateQubit_eq hs hl]
    refine Valid.foldl_addOp (h.setQubit _ _ ?_) ⟨l, hl, hb⟩ _
    rintro c' ⟨⟩
    exact ⟨l, hl, hb, by dsimp only; omega⟩

theorem Valid.openLayer (h : t.Valid) {d : Int} (hd : 0 ≤ d) : (t.openLayer d).2.Valid := by
  rw [openLayer_snd]
  generalize hnew : (⟨(t.layers.getLast?.map Layer.stop).getD 0, max t.preferred d, [], none⟩ :
    Layer) = new
  have hlt : ∀ i, i < t.layers.length → (t.layers ++ [new])[i]? = t.layers[i]? :=
    fun i hi => List.getElem?_append_left hi
  constructor
  case tiled => exact tiled_append h.tiled (by rw [← hnew])
  case duration_ge =>
    intro l hl
    rcases List.mem_append.1 hl with hl | hl
    · exact h.duration_ge l hl
    · rw [List.mem_singleton] at hl
      subst hl hnew
      dsimp only
      omega
  case barrier_empty =>
    intro l hl hb
    rcases List.mem_append.1 hl with hl | hl
    · exact h.barrier_empty l hl hb
    · rw [List.mem_singleton] at hl
      subst hl hnew
      cases hb
  case barrier_le =>
    intro i l hl hb
    rcases getElem?_append_singleton hl with hl | ⟨-, rfl⟩
    · exact h.barrier_le i l hl hb
    · subst hnew
      cases hb
  case global_barrier =>
    intro g hg
    obtain ⟨l, hl, hb⟩ := h.global_barrier g hg
    exact ⟨l, by rw [hlt g (List.getElem?_eq_some_iff.1 hl).1, hl], hb⟩
  case qubit_layer =>
    intro s hs c hc
    obtain ⟨l, hl, hb, hle⟩ := h.qubit_layer s hs c hc
    exact ⟨l, by rw [hlt c (List.getElem?_eq_some_iff.1 hl).1, hl], hb, hle⟩
  case fence_lt =>
    intro f hf
    have := h.fence_lt f hf
    simp only [List.length_append, List.length_singleton]
    omega
  case latest_fence => exact h.latest_fence

/-- Placing after the effective fence lands in an ordinary layer of a valid schedule. -/
theorem Valid.place (h : t.Valid) {p : Placement} {d : Int} {c : Nat} {t₁ : Tracer}
    (hp : t.Admits p) (hd : 0 ≤ d) (hpl : t.place p d = (c, t₁)) : t₁.Valid ∧ t₁.Ordinary c := by
  rcases place_cases hpl with ⟨rfl, rfl⟩ | ⟨rfl, rfl, rfl⟩
  · obtain ⟨hc, hfc⟩ := hp
    have hl : t₁.layers[c]? = some t₁.layers[c] := List.getElem?_eq_getElem hc
    exact ⟨h, _, hl, h.barrier_none hl hfc⟩
  · refine ⟨h.openLayer hd, ?_⟩
    rw [openLayer_snd]
    exact ⟨_, List.getElem?_concat_length, rfl⟩

/-- Placing an operation after the effective fence and moving its qubits there keeps the
invariant. -/
theorem Valid.placeOp (h : t.Valid) {op d : Int} {p : Placement} {c : Nat} {t₁ : Tracer}
    (hp : t.Admits p) (hd : 0 ≤ d) (hpl : t.place p d = (c, t₁)) (qs : List Qubit) :
    (qs.foldl (fun t q => t.updateQubit q c d) (t₁.addOp op c)).Valid := by
  obtain ⟨h₁, hc⟩ := h.place hp hd hpl
  have hstep : ∀ (qs : List Qubit) (t : Tracer), t.Valid → t.Ordinary c →
      (qs.foldl (fun t q => t.updateQubit q c d) t).Valid := by
    intro qs
    induction qs with
    | nil => exact fun t ht _ => ht
    | cons q qs ih =>
      intro t ht hc
      exact ih _ (ht.updateQubit hd hc) (ordinary_of_frames (frames_updateQubit t q c d) hc)
  exact hstep qs _ (h₁.addOp hc op) (ordinary_of_frames (frames_addOp t₁ op c) hc)

/-! ### Each request keeps the invariant -/

theorem Valid.traceSingle (h : t.Valid) {op d : Int} {q : Qubit} {r : Option Nat}
    (hs : t.traceSingle op d q = .ok (r, t')) : t'.Valid := by
  obtain ⟨hd, s, hq, ⟨-, -, -, rfl⟩ | ⟨-, p, c, t₁, hp, hpl, -, rfl⟩⟩ := traceSingle_ok hs
  · exact (h.markSeen op).setQubit _ _ fun c hc => h.qubit_layer s (List.mem_of_getElem? hq) c hc
  · exact (h.markSeen op).placeOp (h.findLayer_admits hp) hd hpl [q]

theorem Valid.traceMulti (h : t.Valid) {op d : Int} {cs ts : List Qubit} {r : Option Nat}
    (hs : t.traceMulti op d cs ts = .ok (r, t')) : t'.Valid := by
  obtain ⟨hd, first, rest, rfl, ⟨-, -, -, hs⟩ | ⟨-, p₀, p, c, t₁, hp₀, hp, hpl, -, rfl⟩⟩ :=
    traceMulti_ok hs
  · exact h.traceSingle hs
  · exact (h.markSeen op).placeOp (h.foldlM_admits (h.findLayer_admits hp₀) hp) hd hpl _

/-- A barrier layer goes at the end of the schedule, after every layer any qubit sits in. -/
theorem Valid.injectBarrier (h : t.Valid) {op d : Int} {b : Nat}
    (hs : t.injectBarrier op d = .ok (b, t')) : t'.Valid := by
  obtain ⟨hd, rfl, rfl⟩ := injectBarrier_ok hs
  have h₁ := h.openLayer hd
  simp only [openLayer_snd] at h₁ ⊢
  rw [modify_length_append]
  generalize hnew : (⟨(t.layers.getLast?.map Layer.stop).getD 0, max t.preferred d, [], none⟩ :
    Layer) = new at h₁ ⊢
  have hlt : ∀ i, i < t.layers.length →
      (t.layers ++ [{ new with barrier := some op }])[i]? = t.layers[i]? :=
    fun i hi => List.getElem?_append_left hi
  constructor
  case tiled => exact tiled_append h.tiled (by rw [← hnew])
  case duration_ge =>
    intro l hl
    rcases List.mem_append.1 hl with hl | hl
    · exact h.duration_ge l hl
    · rw [List.mem_singleton] at hl
      subst hl hnew
      dsimp only
      omega
  case barrier_empty =>
    intro l hl hb
    rcases List.mem_append.1 hl with hl | hl
    · exact h.barrier_empty l hl hb
    · rw [List.mem_singleton] at hl
      subst hl hnew
      rfl
  case barrier_le =>
    intro i l hl hb
    refine ⟨t.layers.length, rfl, ?_⟩
    rcases getElem?_append_singleton hl with hl | ⟨hi, -⟩
    · exact Nat.le_of_lt (List.getElem?_eq_some_iff.1 hl).1
    · exact Nat.le_of_eq hi
  case global_barrier =>
    intro g hg
    cases hg
    exact ⟨_, List.getElem?_concat_length, rfl⟩
  case qubit_layer =>
    intro s hs c hc
    obtain ⟨l, hl, hb, hle⟩ := h.qubit_layer s hs c hc
    exact ⟨l, by rw [hlt c (List.getElem?_eq_some_iff.1 hl).1, hl], hb, hle⟩
  case fence_lt =>
    intro f hf
    have := h.fence_lt f hf
    simp only [List.length_append, List.length_singleton]
    omega
  case latest_fence => exact h.latest_fence

theorem optMax_max? (x : Nat) (xs : List Nat) : optMax xs.max? (some x) = (x :: xs).max? := by
  rw [List.max?_cons]
  cases xs.max? with
  | none => rfl
  | some m =>
    show some (max m x) = some (max x m)
    rw [Nat.max_comm]

/-- Recomputing the latest fence by folding over the stack gives its largest entry. -/
theorem foldl_optMax (xs : List Nat) (acc : Option Nat) :
    xs.foldl (fun m f => optMax m (some f)) acc = optMax acc xs.max? := by
  induction xs generalizing acc with
  | nil => cases acc <;> rfl
  | cons x xs ih =>
    rw [List.foldl_cons, ih, List.max?_cons]
    cases acc with
    | none => cases xs.max? <;> rfl
    | some a =>
      cases xs.max? with
      | none => rfl
      | some m => exact congrArg some (Nat.max_assoc a x m)

theorem Valid.pushFence (h : t.Valid) {rs1 rs2 : List ResultHandle} {f : Option Nat}
    (hs : t.pushFence rs1 rs2 = .ok (f, t')) : t'.Valid := by
  obtain ⟨f₁, f₂, h₁, h₂, hf, ⟨-, rfl⟩ | ⟨l, rfl, rfl⟩⟩ := pushFence_ok hs
  · exact h
  · have hl : l < t.layers.length := by
      rcases optMax_eq_some hf.symm with hl | hl
      · exact latestMeasurement_ok_lt (hl ▸ h₁)
      · exact latestMeasurement_ok_lt (hl ▸ h₂)
    exact { h with
      fence_lt := fun f hf => by
        rcases List.mem_cons.1 hf with rfl | hf
        · exact hl
        · exact h.fence_lt f hf
      latest_fence := by
        show optMax t.latestFence (some l) = (l :: t.fences).max?
        rw [h.latest_fence, optMax_max?] }

theorem Valid.popFence (h : t.Valid) (f : Option Nat) : (t.popFence f).Valid := by
  cases f with
  | none => exact h
  | some _ =>
    exact { h with
      fence_lt := fun f hf => h.fence_lt f (List.mem_of_mem_tail hf)
      latest_fence := foldl_optMax _ none }

theorem Valid.allocate (h : t.Valid) : t.allocate.2.Valid :=
  { h with
    qubit_layer := fun s hs c hc => by
      rcases List.mem_append.1 hs with hs | hs
      · exact h.qubit_layer s hs c hc
      · rw [List.mem_singleton] at hs
        subst hs
        cases hc }

theorem Valid.step (h : t.Valid) {r : TraceRequest} {a : TraceReply}
    (hs : t.step r = .ok (a, t')) : t'.Valid := by
  have hs := step_ok hs
  cases r with
  | allocate => rw [hs.2]; exact h.allocate
  | single | measure =>
    obtain ⟨_, hs, -⟩ := hs
    exact h.traceSingle hs
  | multi | jointMeasure =>
    obtain ⟨_, hs, -⟩ := hs
    exact h.traceMulti hs
  | barrier =>
    obtain ⟨_, hs, -⟩ := hs
    exact h.injectBarrier hs
  | pushFence =>
    obtain ⟨_, hs, -⟩ := hs
    exact h.pushFence hs
  | popFence f => rw [hs.2]; exact h.popFence f

/-- Whatever requests a program makes of a new tracer, accepted or refused, the schedule it
ends with is well formed, and its layers are at least as long as the preferred duration given
at the start. -/
theorem valid_run (p : Int) (names : List (Int × String)) (rs : List TraceRequest) :
    ((Tracer.new p names).run rs).2.preferred = p ∧ ((Tracer.new p names).run rs).2.Valid := by
  refine ⟨?_, run_induction Valid (fun _ _ _ _ h hs => h.step hs) (valid_new p names) rs⟩
  exact run_induction (fun t => t.preferred = p) (fun _ _ _ _ h hs => (step_preferred hs).trans h)
    rfl rs

end Tracer

end QuantumRuntime
