import Mathlib
import QuantumRuntime.Proofs.Trace.Barrier
import QuantumRuntime.Proofs.Trace.Conservation
import QuantumRuntime.Proofs.Trace.FirstFit

/-!
# The schedule only grows

Nothing the tracer records is ever taken back. From a tracer to any later one, every layer is
still there, with the same start, duration and barrier and no operation id counted fewer times;
the global barrier never moves back; and every qubit's layer, once it has one, and its last use
never decrease (`Tracer.Grows`). So a layer named by a placement or by a measurement's result
stays the same layer for the rest of the run.

Every primitive of a request grows the tracer. Two need an argument. Counting an operation in a
layer raises one count and no other because every layer keeps its counts sorted by id
(`Tracer.MapsSorted`). Moving a qubit never takes it back to an earlier layer: the layer search
starts no earlier than the qubit's own layer, and an operation on several qubits goes to the
latest placement any of them needs (`Placement.AtLeast`). The main statement is
`Tracer.schedule_only_grows`.
-/

namespace QuantumRuntime

section Entrywise

variable {α : Type} {R : α → α → Prop}

/-- Every entry of `xs` has an entry at the same position of `ys`, related to it by `R`. -/
def Entrywise (R : α → α → Prop) (xs ys : List α) : Prop :=
  ∀ (i : Nat) a, xs[i]? = some a → ∃ b, ys[i]? = some b ∧ R a b

theorem Entrywise.refl (hR : ∀ a, R a a) (xs : List α) : Entrywise R xs xs :=
  fun _ a h => ⟨a, h, hR a⟩

theorem Entrywise.trans (hR : ∀ a b c, R a b → R b c → R a c) {xs ys zs : List α}
    (h₁ : Entrywise R xs ys) (h₂ : Entrywise R ys zs) : Entrywise R xs zs := by
  intro i a ha
  obtain ⟨b, hb, hab⟩ := h₁ i a ha
  obtain ⟨c, hc, hbc⟩ := h₂ i b hb
  exact ⟨c, hc, hR a b c hab hbc⟩

theorem Entrywise.length_le {xs ys : List α} (h : Entrywise R xs ys) : xs.length ≤ ys.length := by
  rcases Nat.lt_or_ge ys.length xs.length with hlt | hge
  · obtain ⟨b, hb, -⟩ := h ys.length _ (List.getElem?_eq_getElem hlt)
    rw [List.getElem?_eq_none (Nat.le_refl _)] at hb
    cases hb
  · exact hge

theorem entrywise_append (hR : ∀ a, R a a) (xs ys : List α) : Entrywise R xs (xs ++ ys) :=
  fun _ a h => ⟨a, by rw [List.getElem?_append_left (List.getElem?_eq_some_iff.1 h).1, h], hR a⟩

/-- Changing one entry in a way `R` allows keeps the list related to what it was. -/
theorem entrywise_modify (hR : ∀ a, R a a) {xs : List α} {c : Nat} {f : α → α}
    (hf : ∀ a, xs[c]? = some a → R a (f a)) : Entrywise R xs (xs.modify c f) := by
  intro i a ha
  by_cases hi : c = i
  · subst hi
    exact ⟨f a, by rw [List.getElem?_modify_eq, ha]; rfl, hf a ha⟩
  · exact ⟨a, by rw [List.getElem?_modify_ne f xs hi, ha], hR a⟩

theorem entrywise_set (hR : ∀ a, R a a) {xs : List α} {c : Nat} {b : α}
    (hb : ∀ a, xs[c]? = some a → R a b) : Entrywise R xs (xs.set c b) := by
  intro i a ha
  rw [List.getElem?_set]
  by_cases hi : c = i
  · subst hi
    rw [if_pos rfl, if_pos (List.getElem?_eq_some_iff.1 ha).1]
    exact ⟨b, rfl, hb a ha⟩
  · rw [if_neg hi]
    exact ⟨a, ha, hR a⟩

end Entrywise

namespace Layer

/-- `l'` is layer `l` with possibly more operations in it: the same start, duration and barrier,
and no operation id counted fewer times. -/
structure Grows (l l' : Layer) : Prop where
  frame_eq : l'.frame = l.frame
  count_le : ∀ op, l.count op ≤ l'.count op

theorem Grows.refl (l : Layer) : l.Grows l := ⟨rfl, fun _ => le_rfl⟩

theorem Grows.trans {l₁ l₂ l₃ : Layer} (h₁ : l₁.Grows l₂) (h₂ : l₂.Grows l₃) : l₁.Grows l₃ :=
  ⟨h₂.frame_eq.trans h₁.frame_eq, fun op => le_trans (h₁.count_le op) (h₂.count_le op)⟩

/-- Counting an operation in a layer whose counts are sorted grows it. -/
theorem grows_addOp {l : Layer} (h : SortedMap.Sorted l.ops) (op : Int) : l.Grows (l.addOp op) :=
  ⟨rfl, fun op' => by rw [count_addOp h]; exact Nat.le_add_right _ _⟩

end Layer

namespace QubitState

/-- `s'` is qubit state `s` moved on: in a layer no earlier than `s`'s once `s` has one, and last
used no earlier. -/
structure Grows (s s' : QubitState) : Prop where
  layer_le : ∀ c, s.layer = some c → ∃ c', s'.layer = some c' ∧ c ≤ c'
  lastUsed_le : s.lastUsed ≤ s'.lastUsed

theorem Grows.refl (s : QubitState) : s.Grows s := ⟨fun c h => ⟨c, h, le_rfl⟩, le_rfl⟩

theorem Grows.trans {s₁ s₂ s₃ : QubitState} (h₁ : s₁.Grows s₂) (h₂ : s₂.Grows s₃) :
    s₁.Grows s₃ := by
  refine ⟨fun c hc => ?_, le_trans h₁.lastUsed_le h₂.lastUsed_le⟩
  obtain ⟨c₂, hc₂, hle₂⟩ := h₁.layer_le c hc
  obtain ⟨c₃, hc₃, hle₃⟩ := h₂.layer_le c₂ hc₂
  exact ⟨c₃, hc₃, le_trans hle₂ hle₃⟩

end QubitState

namespace Placement

/-- A placement at layer `l` or later; a new layer comes after every layer. -/
def AtLeast (l : Nat) : Placement → Prop
  | layer c => l ≤ c
  | fresh => True

theorem AtLeast.max_left {l : Nat} {p : Placement} (h : p.AtLeast l) (p' : Placement) :
    (p.max p').AtLeast l := by
  cases p with
  | fresh => cases p' <;> trivial
  | layer a =>
    cases p' with
    | layer b => exact le_trans h (Nat.le_max_left a b)
    | fresh => trivial

theorem AtLeast.max_right {l : Nat} {p' : Placement} (h : p'.AtLeast l) (p : Placement) :
    (p.max p').AtLeast l := by
  cases p' with
  | fresh => cases p <;> trivial
  | layer b =>
    cases p with
    | layer a => exact le_trans h (Nat.le_max_right a b)
    | fresh => trivial

end Placement

namespace Tracer

/-- How a tracer moves on: every layer grows in place, the global barrier never moves back, and
every qubit's state grows in place. -/
structure Grows (t t' : Tracer) : Prop where
  layers : Entrywise Layer.Grows t.layers t'.layers
  globalBarrier : ∀ g, t.globalBarrier = some g → ∃ g', t'.globalBarrier = some g' ∧ g ≤ g'
  qubits : Entrywise QubitState.Grows t.qubits t'.qubits

variable {t t' t₁ : Tracer}

theorem Grows.refl (t : Tracer) : t.Grows t :=
  ⟨Entrywise.refl Layer.Grows.refl _, fun g h => ⟨g, h, le_rfl⟩,
    Entrywise.refl QubitState.Grows.refl _⟩

theorem Grows.trans (h₁ : t.Grows t₁) (h₂ : t₁.Grows t') : t.Grows t' where
  layers := Entrywise.trans (R := Layer.Grows) (fun _ _ _ h h' => h.trans h') h₁.layers h₂.layers
  globalBarrier g hg := by
    obtain ⟨g₁, hg₁, hle₁⟩ := h₁.globalBarrier g hg
    obtain ⟨g₂, hg₂, hle₂⟩ := h₂.globalBarrier g₁ hg₁
    exact ⟨g₂, hg₂, le_trans hle₁ hle₂⟩
  qubits := Entrywise.trans (R := QubitState.Grows) (fun _ _ _ h h' => h.trans h') h₁.qubits h₂.qubits

/-- No layer is ever removed. -/
theorem Grows.length_le (h : t.Grows t') : t.layers.length ≤ t'.layers.length :=
  h.layers.length_le

/-- A step that changes neither the layers, nor the qubits, nor the global barrier. -/
theorem grows_of_eq (hl : t'.layers = t.layers) (hq : t'.qubits = t.qubits)
    (hg : t'.globalBarrier = t.globalBarrier) : t.Grows t' := by
  refine ⟨?_, fun g h => ⟨g, by rw [hg, h], le_rfl⟩, ?_⟩
  · rw [hl]
    exact Entrywise.refl Layer.Grows.refl _
  · rw [hq]
    exact Entrywise.refl QubitState.Grows.refl _

theorem qubitState?_of_qubits (h : t'.qubits = t.qubits) (q : Qubit) :
    t'.qubitState? q = t.qubitState? q := by
  simp only [qubitState?, h]

/-! ### The primitives of a step -/

theorem grows_allocate (t : Tracer) : t.Grows t.allocate.2 :=
  ⟨Entrywise.refl Layer.Grows.refl _, fun g h => ⟨g, h, le_rfl⟩,
    entrywise_append QubitState.Grows.refl _ _⟩

theorem grows_openLayer (t : Tracer) (d : Int) : t.Grows (t.openLayer d).2 := by
  rw [openLayer_snd]
  exact ⟨entrywise_append Layer.Grows.refl _ _, fun g h => ⟨g, h, le_rfl⟩,
    Entrywise.refl QubitState.Grows.refl _⟩

theorem grows_place {p : Placement} {d : Int} {c : Nat} (hpl : t.place p d = (c, t₁)) :
    t.Grows t₁ := by
  rcases place_cases hpl with ⟨-, rfl⟩ | ⟨-, -, rfl⟩
  · exact Grows.refl _
  · exact grows_openLayer _ d

theorem qubits_place {p : Placement} {d : Int} {c : Nat} (hpl : t.place p d = (c, t₁)) :
    t₁.qubits = t.qubits := by
  rcases place_cases hpl with ⟨-, rfl⟩ | ⟨-, -, rfl⟩
  · rfl
  · rw [openLayer_snd]

theorem grows_addOp (hs : t.MapsSorted) (op : Int) (c : Nat) : t.Grows (t.addOp op c) :=
  ⟨entrywise_modify Layer.Grows.refl fun l hl =>
      Layer.grows_addOp (hs.ops l (List.mem_of_getElem? hl)) op,
    fun g h => ⟨g, h, le_rfl⟩, Entrywise.refl QubitState.Grows.refl _⟩

theorem grows_foldl_addOp (c : Nat) :
    ∀ (ops : List Int) (t : Tracer), t.MapsSorted → t.Grows (ops.foldl (fun t op => t.addOp op c) t)
  | [], t, _ => Grows.refl t
  | op :: ops, _, hs => (grows_addOp hs op c).trans (grows_foldl_addOp c ops _ (hs.addOp op c))

theorem qubitState?_updateQubit_self {q : Qubit} {c : Nat} {d : Int} {s : QubitState} {l : Layer}
    (hs : t.qubitState? q = some s) (hl : t.layers[c]? = some l) :
    (t.updateQubit q c d).qubitState? q = some ⟨some c, max s.lastUsed l.start + d, []⟩ := by
  rw [updateQubit_eq hs hl, Tracer.foldl_addOp]
  exact List.getElem?_set_self (List.getElem?_eq_some_iff.1 hs).1

/-- Replacing a qubit's state by one it grows into grows the tracer. -/
theorem grows_setQubit {q : Qubit} {s s' : QubitState} (hst : t.qubitState? q = some s)
    (hg : s.Grows s') : t.Grows { t with qubits := t.qubits.set q.index s' } := by
  refine ⟨Entrywise.refl Layer.Grows.refl _, fun g h => ⟨g, h, le_rfl⟩,
    entrywise_set QubitState.Grows.refl fun s₀ hs₀ => ?_⟩
  have hs₀s : s₀ = s := Option.some.inj (hs₀.symm.trans hst)
  rw [hs₀s]
  exact hg

/-- Moving a qubit into a layer no earlier than its own, after an operation that takes no
negative time, grows the tracer; its held operations are counted in that layer. -/
theorem grows_updateQubit (hs : t.MapsSorted) {q : Qubit} {c : Nat} {d : Int} (hd : 0 ≤ d)
    (hq : ∀ s l, t.qubitState? q = some s → s.layer = some l → l ≤ c) :
    t.Grows (t.updateQubit q c d) := by
  cases hst : t.qubitState? q with
  | none => rw [updateQubit_of_none (Or.inl hst)]; exact Grows.refl t
  | some s =>
    cases hl : t.layers[c]? with
    | none => rw [updateQubit_of_none (Or.inr hl)]; exact Grows.refl t
    | some l =>
      have hmove : s.Grows ⟨some c, max s.lastUsed l.start + d, []⟩ :=
        ⟨fun l' hl' => ⟨c, rfl, hq s l' hst hl'⟩,
          le_trans (le_max_left _ _) (le_add_of_nonneg_right hd)⟩
      rw [updateQubit_eq hst hl]
      exact (grows_setQubit hst hmove).trans (grows_foldl_addOp c _ _ (hs.setQubit _ _))

/-- The qubits `qs` sit in layer `c` or earlier, those that sit in a layer at all. -/
def LayersUpTo (t : Tracer) (qs : List Qubit) (c : Nat) : Prop :=
  ∀ q ∈ qs, ∀ s l, t.qubitState? q = some s → s.layer = some l → l ≤ c

/-- Moving a qubit into layer `c` keeps every qubit at layer `c` or earlier. -/
theorem LayersUpTo.updateQubit {qs : List Qubit} {c : Nat} (h : t.LayersUpTo qs c) (q : Qubit)
    (d : Int) : (t.updateQubit q c d).LayersUpTo qs c := by
  intro q' hq' s l hs hl
  by_cases hne : q' = q
  · subst hne
    cases hst : t.qubitState? q' with
    | none => rw [updateQubit_of_none (Or.inl hst), hst] at hs; cases hs
    | some s₀ =>
      cases hlc : t.layers[c]? with
      | none =>
        rw [updateQubit_of_none (Or.inr hlc)] at hs
        exact h q' hq' s l hs hl
      | some lc =>
        rw [qubitState?_updateQubit_self hst hlc] at hs
        cases hs
        cases hl
        exact le_rfl
  · rw [qubitState?_updateQubit_ne hne] at hs
    exact h q' hq' s l hs hl

/-- Moving qubits one after another into a layer no earlier than any of theirs grows the tracer,
even when a qubit is listed twice: the second move starts from the layer of the first. -/
theorem grows_foldl_updateQubit {c : Nat} {d : Int} (hd : 0 ≤ d) :
    ∀ (qs : List Qubit) (t : Tracer), t.MapsSorted → t.LayersUpTo qs c →
      t.Grows (qs.foldl (fun t q => t.updateQubit q c d) t)
  | [], t, _, _ => Grows.refl t
  | q :: qs, t, hs, hup => by
    rw [List.foldl_cons]
    have hrest : t.LayersUpTo qs c := fun q' hq' => hup q' (List.mem_cons_of_mem q hq')
    exact (grows_updateQubit hs hd (hup q List.mem_cons_self)).trans
      (grows_foldl_updateQubit hd qs _ (hs.updateQubit q c d) (hrest.updateQubit q d))

/-! ### The layer search never goes back -/

/-- The layer search never places an operation before its qubit's own layer. -/
theorem findLayer_atLeast {q : Qubit} {s : QubitState} {d : Int} {p : Placement}
    (hs : t.qubitState? q = some s) (hp : t.findLayer q d = .ok p) {l : Nat}
    (hl : s.layer = some l) : p.AtLeast l := by
  -- the search starts at the later of the qubit's layer and the first layer after the fence
  have hstart : ∀ c, t.startFor s = .layer c → l ≤ c := by
    intro c hc
    simp only [startFor, hl, Option.elim] at hc
    cases hf : t.firstAfterFence with
    | layer a =>
      rw [hf] at hc
      cases hc
      exact Nat.le_max_left l a
    | fresh =>
      rw [hf] at hc
      cases hc
  rcases findLayer_cases hs hp with ⟨-, rfl⟩ | ⟨c, hc, hsearch⟩
  · trivial
  · have hlc := hstart c hc
    rcases hsearch with ⟨-, rfl⟩ | ⟨layer, -, ⟨-, rfl⟩ | ⟨-, ⟨l', hl', rfl⟩ | ⟨-, rfl⟩⟩⟩
    · trivial
    · exact hlc
    · exact le_trans hlc (le_trans (Nat.le_succ c) (firstLongEnough_bounds hl').1)
    · trivial

/-- The latest placement several qubits need is at least what the first placement and each of
the qubits need. -/
theorem foldlM_atLeast {d : Int} (l : Nat) :
    ∀ (qs : List Qubit) (p₀ p : Placement), qs.foldlM (fun p q => do
        let p' ← t.findLayer q d
        pure (p.max p')) p₀ = .ok p →
      (p₀.AtLeast l → p.AtLeast l) ∧
        ∀ q ∈ qs, ∀ s, t.qubitState? q = some s → s.layer = some l → p.AtLeast l
  | [], p₀, p, h => by
    cases h
    exact ⟨id, fun q hq => absurd hq List.not_mem_nil⟩
  | q :: qs, p₀, p, h => by
    rw [List.foldlM_cons] at h
    obtain ⟨p₁, h₁, h⟩ := except_bind_eq_ok.1 h
    obtain ⟨p', hp', h₁⟩ := except_bind_eq_ok.1 h₁
    cases h₁
    have ih := foldlM_atLeast l qs _ p h
    refine ⟨fun h₀ => ih.1 (h₀.max_left p'), fun q' hq' s hs hl => ?_⟩
    rcases List.mem_cons.1 hq' with rfl | hq'
    · exact ih.1 ((findLayer_atLeast hs hp' hl).max_right _)
    · exact ih.2 q' hq' s hs hl

/-- A placement at layer `l` or later lands in layer `l` or later, when `l` is a layer of the
schedule. -/
theorem le_of_place {p : Placement} {d : Int} {c l : Nat} (hpl : t.place p d = (c, t₁))
    (hp : p.AtLeast l) (hl : l < t.layers.length) : l ≤ c := by
  rcases place_cases hpl with ⟨rfl, -⟩ | ⟨-, rfl, -⟩
  · exact hp
  · exact Nat.le_of_lt hl

/-! ### Each request grows the tracer -/

/-- Placing an operation and moving its qubits into its layer grows a valid tracer with sorted
counts, when the placement is no earlier than any of the qubits' layers. -/
theorem Valid.grows_placeOp (hv : t.Valid) (hs : t.MapsSorted) {op d : Int} {p : Placement}
    {c : Nat} (hd : 0 ≤ d) (hpl : t.place p d = (c, t₁)) (qs : List Qubit)
    (hp : ∀ q ∈ qs, ∀ s l, t.qubitState? q = some s → s.layer = some l → p.AtLeast l) :
    t.Grows (qs.foldl (fun t q => t.updateQubit q c d) (t₁.addOp op c)) := by
  have hs₁ := (counts_place hs hpl).1
  -- placing changes no qubit, so each qubit still sits where the search saw it
  have hup : (t₁.addOp op c).LayersUpTo qs c := by
    intro q hq s l hst hl
    have hst' : t.qubitState? q = some s := by
      rw [← hst]
      exact (qubitState?_of_qubits (qubits_place hpl) q).symm
    exact le_of_place hpl (hp q hq s l hst' hl) (hv.qubit_lt s l hst' hl)
  exact (grows_place hpl).trans
    ((grows_addOp hs₁ op c).trans (grows_foldl_updateQubit hd qs _ (hs₁.addOp op c) hup))

theorem Valid.grows_traceSingle (hv : t.Valid) (hs : t.MapsSorted) {op d : Int} {q : Qubit}
    {r : Option Nat} (h : t.traceSingle op d q = .ok (r, t')) : t.Grows t' := by
  obtain ⟨hd, s, hst, ⟨-, -, -, rfl⟩ | ⟨-, p, c, t₁, hp, hpl, -, rfl⟩⟩ := traceSingle_ok h
  · -- a held operation only joins the qubit's pending list
    exact (grows_of_eq rfl rfl rfl : t.Grows (t.markSeen op)).trans
      (grows_setQubit hst ⟨fun c hc => ⟨c, hc, le_rfl⟩, le_rfl⟩)
  · refine (grows_of_eq rfl rfl rfl : t.Grows (t.markSeen op)).trans ?_
    refine (hv.markSeen op).grows_placeOp (hs.markSeen op) hd hpl [q] fun q' hq' s' l hs' hl => ?_
    rw [List.mem_singleton] at hq'
    subst hq'
    exact findLayer_atLeast (t := t) hs' hp hl

theorem Valid.grows_traceMulti (hv : t.Valid) (hs : t.MapsSorted) {op d : Int}
    {cs ts : List Qubit} {r : Option Nat} (h : t.traceMulti op d cs ts = .ok (r, t')) :
    t.Grows t' := by
  obtain ⟨hd, first, rest, rfl, ⟨-, -, -, h⟩ | ⟨-, p₀, p, c, t₁, hp₀, hp, hpl, -, rfl⟩⟩ :=
    traceMulti_ok h
  · exact hv.grows_traceSingle hs h
  · refine (grows_of_eq rfl rfl rfl : t.Grows (t.markSeen op)).trans ?_
    refine (hv.markSeen op).grows_placeOp (hs.markSeen op) hd hpl _ fun q hq s l hst hl => ?_
    have hfold := foldlM_atLeast (t := t) l (rest ++ cs) p₀ p hp
    -- the first target's placement starts the fold; every other qubit joins it
    rcases List.mem_append.1 hq with hq | hq
    · exact hfold.2 q (List.mem_append_right rest hq) s hst hl
    · rcases List.mem_cons.1 hq with rfl | hq
      · exact hfold.1 (findLayer_atLeast (t := t) hst hp₀ hl)
      · exact hfold.2 q (List.mem_append_left cs hq) s hst hl

/-- A barrier layer is appended, so no earlier layer changes, and it becomes the global barrier,
after the one before. -/
theorem Valid.grows_injectBarrier (hv : t.Valid) {op d : Int} {b : Nat}
    (h : t.injectBarrier op d = .ok (b, t')) : t.Grows t' := by
  obtain ⟨-, rfl, rfl⟩ := injectBarrier_ok h
  refine ⟨fun i l hl => ?_, fun g hg => ?_, Entrywise.refl QubitState.Grows.refl _⟩
  · have hi := (List.getElem?_eq_some_iff.1 hl).1
    refine ⟨l, ?_, Layer.Grows.refl l⟩
    simp only [openLayer_snd]
    rw [List.getElem?_modify_ne _ _ (by omega), List.getElem?_append_left hi, hl]
  · obtain ⟨l, hl, -⟩ := hv.global_barrier g hg
    exact ⟨t.layers.length, rfl, Nat.le_of_lt (List.getElem?_eq_some_iff.1 hl).1⟩

theorem Valid.grows_step (hv : t.Valid) (hs : t.MapsSorted) {r : TraceRequest} {a : TraceReply}
    (h : t.step r = .ok (a, t')) : t.Grows t' := by
  have h := step_ok h
  cases r with
  | allocate => rw [h.2]; exact grows_allocate t
  | single | measure =>
    obtain ⟨_, h, -⟩ := h
    exact hv.grows_traceSingle hs h
  | multi | jointMeasure =>
    obtain ⟨_, h, -⟩ := h
    exact hv.grows_traceMulti hs h
  | barrier =>
    obtain ⟨_, h, -⟩ := h
    exact hv.grows_injectBarrier h
  | pushFence =>
    obtain ⟨_, h, -⟩ := h
    obtain ⟨_, _, -, -, -, ⟨-, rfl⟩ | ⟨_, -, rfl⟩⟩ := pushFence_ok h
    · exact Grows.refl _
    · exact grows_of_eq rfl rfl rfl
  | popFence f => rw [h.2]; cases f <;> exact grows_of_eq rfl rfl rfl

/-- Over any run from a valid tracer with sorted counts, refused requests included, the tracer
only grows. -/
theorem Valid.grows_run (hv : t.Valid) (hs : t.MapsSorted) (rs : List TraceRequest) :
    t.Grows (t.run rs).2 := by
  -- the tracer each request is made to changes along the run, with its invariants
  induction rs generalizing t with
  | nil => exact Grows.refl t
  | cons r rs ih =>
    rw [run_cons]
    unfold after
    split
    · next a t' hst => exact (hv.grows_step hs hst).trans (ih (hv.step hst) (hs.step hst))
    · exact ih hv hs

/-- The schedule only grows. In a run from a new tracer, take the tracer after any requests
`pre`. After any further requests, each accepted or refused, every layer it has is still there,
with the same start, duration and barrier and no operation id counted fewer times; the global
barrier has not moved back; and every qubit's layer, once it has one, and its last use have not
decreased. In particular, a layer that an accepted request names, a measurement through its
result, is a layer of the schedule from then on and stays the same layer for the rest of the
run. -/
theorem schedule_only_grows (p : Int) (names : List (Int × String)) (pre post : List TraceRequest) :
    ((Tracer.new p names).run pre).2.Grows ((Tracer.new p names).run (pre ++ post)).2 ∧
      ∀ r a t₁, ((Tracer.new p names).run pre).2.step r = .ok (a, t₁) → ∀ l, a.layer? = some l →
        ∃ layer, t₁.layers[l]? = some layer ∧
          ∀ rs, ∃ layer', (t₁.run rs).2.layers[l]? = some layer' ∧ layer.Grows layer' := by
  have hv : ((Tracer.new p names).run pre).2.Valid := (valid_run p names pre).2
  have hs : ((Tracer.new p names).run pre).2.MapsSorted :=
    run_induction MapsSorted (fun _ _ _ _ h hst => h.step hst) (mapsSorted_new p names) pre
  refine ⟨by rw [run_append]; exact hv.grows_run hs post, fun r a t₁ hst l hl => ?_⟩
  -- the layer lies in the schedule right after the request, which only grows from then on
  have hlt := ((hv.step_advances hst).reply_after l hl).1
  refine ⟨t₁.layers[l], List.getElem?_eq_getElem hlt, fun rs => ?_⟩
  exact ((hv.step hst).grows_run (hs.step hst) rs).layers l _ (List.getElem?_eq_getElem hlt)

end Tracer

end QuantumRuntime
