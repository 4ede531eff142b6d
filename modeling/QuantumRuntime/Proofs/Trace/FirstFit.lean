import Mathlib
import QuantumRuntime.Proofs.Trace.Wellformed

/-!
# Operations go to the first layer that fits

An operation belongs in the least layer that fits every one of its qubits. For one qubit, a layer
fits when it is not before the qubit's candidate, and the operation, started after the qubit's
last use and the layer's start, ends within the layer (`Tracer.Fits`). When no layer fits, the
operation opens a new layer.

The layer search does not test every layer this way. It tests the fit at the candidate only;
past the candidate it asks only whether a layer is long enough, and for several qubits it takes
the latest of their placements. Both shortcuts are exact as long as every qubit's clock stays
within its layer (`Tracer.Clocked`): a layer past the candidate then starts after the qubit's last
use, so it fits exactly when it is long enough (`Tracer.Regular`), and the latest of the first
fits of each qubit is the first fit of all of them (`Tracer.Regular.least_max`).

A qubit's clock leaves its layer only when one operation lists the qubit twice and moves it twice.
`first_fit_placement` runs any requests that list no qubit twice from a new tracer, and shows that
every operation placed there goes to its first fit.
-/

namespace QuantumRuntime

namespace Tracer

/-- The layer after the effective fence, where no fence counts as `-1`. -/
def afterFence (t : Tracer) : Nat := (t.effectiveFence.map (· + 1)).getD 0

/-- The first layer an operation on a qubit may enter: the later of the qubit's layer, where no
layer counts as `0`, and the layer after the effective fence. -/
def candidate (t : Tracer) (s : QubitState) : Nat := max (s.layer.getD 0) t.afterFence

/-- Whether an operation of duration `d` fits a qubit in state `s` in layer `l`: the layer is not
before the candidate, and the operation, started after the qubit's last use and the layer's
start, ends within the layer. -/
def Fits (t : Tracer) (s : QubitState) (d : Int) (l : Nat) : Prop :=
  t.candidate s ≤ l ∧ ∃ layer, t.layers[l]? = some layer ∧ max s.lastUsed layer.start + d ≤ layer.stop

/-- Whether an operation of duration `d` fits each of the qubits `qs` in layer `l`. -/
def FitsAll (t : Tracer) (qs : List Qubit) (d : Int) (l : Nat) : Prop :=
  ∀ q ∈ qs, ∃ s, t.qubitState? q = some s ∧ t.Fits s d l

/-- Whether layer `l` exists and is at least as long as `d`. -/
def Long (t : Tracer) (d : Int) (l : Nat) : Prop :=
  ∃ layer, t.layers[l]? = some layer ∧ d ≤ layer.duration

end Tracer

namespace Placement

/-- A placement is the first fit for a property of layers: the least layer that has it, or a new
layer when none has. -/
def Least (P : Nat → Prop) : Placement → Prop
  | .layer l => P l ∧ ∀ l' < l, ¬ P l'
  | .fresh => ∀ l, ¬ P l

theorem Least.congr {P Q : Nat → Prop} (h : ∀ l, P l ↔ Q l) {p : Placement} (hp : p.Least P) :
    p.Least Q := by
  cases p with
  | layer l => exact ⟨(h l).1 hp.1, fun l' hl' hq => hp.2 l' hl' ((h l').2 hq)⟩
  | fresh => exact fun l hq => hp l ((h l).2 hq)

end Placement

namespace Tracer

variable {t : Tracer} {d : Int}

/-! ### First fits combine by taking the latest -/

/-- A property of layers that starts at a candidate `a` and is after it only a question of
length: the layers that have it are long enough and not before `a`, and every long enough layer
after `a` has it. -/
structure Regular (t : Tracer) (d : Int) (P : Nat → Prop) (a : Nat) : Prop where
  le : ∀ l, P l → a ≤ l
  long : ∀ l, P l → t.Long d l
  above : ∀ l, a < l → t.Long d l → P l

theorem Regular.congr {P Q : Nat → Prop} {a : Nat} (h : ∀ l, P l ↔ Q l) (hP : t.Regular d P a) :
    t.Regular d Q a where
  le l hq := hP.le l ((h l).2 hq)
  long l hq := hP.long l ((h l).2 hq)
  above l hl hlong := (h l).1 (hP.above l hl hlong)

theorem Regular.and {P Q : Nat → Prop} {a b : Nat} (hP : t.Regular d P a) (hQ : t.Regular d Q b) :
    t.Regular d (fun l => P l ∧ Q l) (max a b) where
  le l h := max_le (hP.le l h.1) (hQ.le l h.2)
  long l h := hP.long l h.1
  above l hl hlong :=
    ⟨hP.above l (lt_of_le_of_lt (le_max_left a b) hl) hlong,
      hQ.above l (lt_of_le_of_lt (le_max_right a b) hl) hlong⟩

/-- The latest of two first fits is the first fit of both: at the later one the earlier property
holds too, since that layer is past its candidate and long enough. -/
theorem Regular.least_max {P Q : Nat → Prop} {a b : Nat} (hP : t.Regular d P a)
    (hQ : t.Regular d Q b) {p p' : Placement} (hp : p.Least P) (hq : p'.Least Q) :
    (p.max p').Least fun l => P l ∧ Q l := by
  cases p with
  | fresh => exact fun l h => hp l h.1
  | layer x =>
    cases p' with
    | fresh => exact fun l h => hq l h.2
    | layer y =>
      obtain ⟨hx, hxmin⟩ := hp
      obtain ⟨hy, hymin⟩ := hq
      show (P (max x y) ∧ Q (max x y)) ∧ ∀ l' < max x y, ¬(P l' ∧ Q l')
      rcases Nat.lt_trichotomy x y with hxy | rfl | hxy
      · rw [max_eq_right hxy.le]
        exact ⟨⟨hP.above y (lt_of_le_of_lt (hP.le x hx) hxy) (hQ.long y hy), hy⟩,
          fun l' hl' h => hymin l' hl' h.2⟩
      · rw [max_self]
        exact ⟨⟨hx, hy⟩, fun l' hl' h => hxmin l' hl' h.1⟩
      · rw [max_eq_left hxy.le]
        exact ⟨⟨hx, hQ.above x (lt_of_le_of_lt (hQ.le y hy) hxy) (hP.long x hx)⟩,
          fun l' hl' h => hxmin l' hl' h.1⟩

/-! ### Clocks within their layers -/

/-- A qubit's clock is within its layer: a placed qubit is last used no later than its layer ends,
and a qubit never placed is last used at time zero at the latest. -/
def WithinLayer (t : Tracer) (s : QubitState) : Prop :=
  (∀ c, s.layer = some c → ∃ l, t.layers[c]? = some l ∧ s.lastUsed ≤ l.stop) ∧
    (s.layer = none → s.lastUsed ≤ 0)

/-- Every qubit's clock stays within its layer. -/
def Clocked (t : Tracer) : Prop := ∀ s ∈ t.qubits, t.WithinLayer s

theorem Valid.duration_nonneg (h : t.Valid) {l : Layer} (hl : l ∈ t.layers) : 0 ≤ l.duration :=
  le_trans (le_max_right _ _) (h.duration_ge l hl)

/-- In a valid schedule a layer starts no earlier than every earlier layer ends. -/
theorem Valid.stop_le_start (h : t.Valid) {i j : Nat} (hij : i < j) {a b : Layer}
    (ha : t.layers[i]? = some a) (hb : t.layers[j]? = some b) : a.stop ≤ b.start := by
  -- induction on the later layer, through the layer just before it
  induction j generalizing b with
  | zero => omega
  | succ k ih =>
    have hk : k < t.layers.length := by
      have := (List.getElem?_eq_some_iff.1 hb).1
      omega
    have hc : t.layers[k]? = some t.layers[k] := List.getElem?_eq_getElem hk
    have hstart : b.start = t.layers[k].stop := h.tiled.2 k _ b hc hb
    rcases Nat.lt_succ_iff_lt_or_eq.1 hij with hik | rfl
    · have h₁ := ih hik hc
      have h₂ := h.duration_nonneg (List.mem_of_getElem? hc)
      simp only [Layer.stop] at h₁ hstart ⊢
      omega
    · cases ha.symm.trans hc
      exact hstart.ge

theorem Valid.start_nonneg (h : t.Valid) {i : Nat} {l : Layer} (hl : t.layers[i]? = some l) :
    0 ≤ l.start := by
  have h0 : 0 < t.layers.length := lt_of_le_of_lt (Nat.zero_le i) (List.getElem?_eq_some_iff.1 hl).1
  have hfirst : t.layers[0]? = some t.layers[0] := List.getElem?_eq_getElem h0
  have hzero : t.layers[0].start = 0 := h.tiled.1 _ hfirst
  rcases Nat.eq_zero_or_pos i with rfl | hi
  · cases hl.symm.trans hfirst
    exact hzero.ge
  · have h₁ := h.stop_le_start hi hfirst hl
    have h₂ := h.duration_nonneg (List.mem_of_getElem? hfirst)
    simp only [Layer.stop] at h₁
    omega

/-- A qubit whose clock stays within its layer was last used before every layer past its
candidate starts. -/
theorem Clocked.lastUsed_le_start (hc : t.Clocked) (hv : t.Valid) {s : QubitState}
    (hs : s ∈ t.qubits) {l : Nat} (hl : t.candidate s < l) {layer : Layer}
    (hlayer : t.layers[l]? = some layer) : s.lastUsed ≤ layer.start := by
  cases hsl : s.layer with
  | none => exact le_trans ((hc s hs).2 hsl) (hv.start_nonneg hlayer)
  | some c =>
    obtain ⟨lc, hlc, hused⟩ := (hc s hs).1 c hsl
    have hcl : c < l := by
      have : c ≤ t.candidate s := by simp [candidate, hsl]
      omega
    exact le_trans hused (hv.stop_le_start hcl hlc hlayer)

/-- For a qubit whose clock stays within its layer, fitting is a question of length past the
candidate. -/
theorem Clocked.regular (hc : t.Clocked) (hv : t.Valid) {s : QubitState} (hs : s ∈ t.qubits)
    (d : Int) : t.Regular d (t.Fits s d) (t.candidate s) where
  le _ h := h.1
  long l h := by
    obtain ⟨-, layer, hl, hfit⟩ := h
    refine ⟨layer, hl, ?_⟩
    have := le_max_right s.lastUsed layer.start
    simp only [Layer.stop] at hfit
    omega
  above l hl hlong := by
    obtain ⟨layer, hlayer, hd⟩ := hlong
    refine ⟨hl.le, layer, hlayer, ?_⟩
    rw [max_eq_right (hc.lastUsed_le_start hv hs hl hlayer), Layer.stop]
    omega

/-! ### The layer search finds the first fit -/

/-- The first layer after the effective fence, as a placement: the layer after the fence, or a
new layer when that is past the last one. -/
theorem firstAfterFence_cases (hf : ∀ f, t.effectiveFence = some f → f < t.layers.length) :
    (t.firstAfterFence = .layer t.afterFence ∧ t.afterFence < t.layers.length) ∨
      (t.firstAfterFence = .fresh ∧ t.layers.length ≤ t.afterFence) := by
  unfold firstAfterFence afterFence
  cases hfe : t.effectiveFence with
  | none =>
    cases hl : t.layers with
    | nil => exact .inr ⟨rfl, le_refl 0⟩
    | cons l ls => exact .inl ⟨rfl, Nat.zero_lt_succ _⟩
  | some f =>
    have hlt := hf f hfe
    dsimp only [Option.map_some, Option.getD_some]
    split
    · next heq => exact .inr ⟨rfl, heq.ge⟩
    · next hne => exact .inl ⟨rfl, by omega⟩

/-- Where the layer search starts for a qubit in state `s`: the qubit's layer raised to the first
layer after the effective fence. -/
def startFor (t : Tracer) (s : QubitState) : Placement :=
  s.layer.elim t.firstAfterFence fun l => Placement.max (.layer l) t.firstAfterFence

/-- The layer search starts at the qubit's candidate layer, or at a new layer when the candidate
is past the last layer. -/
theorem startFor_cases (hv : t.Valid) {q : Qubit} {s : QubitState} (hs : t.qubitState? q = some s) :
    (t.startFor s = .layer (t.candidate s) ∧ t.candidate s < t.layers.length) ∨
      (t.startFor s = .fresh ∧ t.layers.length ≤ t.candidate s) := by
  rcases firstAfterFence_cases hv.effectiveFence_lt with ⟨hfirst, hlt⟩ | ⟨hfirst, hge⟩
  · cases hsl : s.layer with
    | none =>
      refine .inl ⟨by simp [startFor, hsl, hfirst, candidate], ?_⟩
      simpa [candidate, hsl] using hlt
    | some l =>
      have hl := hv.qubit_lt s l hs hsl
      refine .inl ⟨by simp [startFor, hsl, hfirst, candidate, Placement.max], ?_⟩
      simp only [candidate, hsl, Option.getD_some]
      omega
  · refine .inr ⟨?_, le_trans hge (le_max_right _ _)⟩
    cases hsl : s.layer with
    | none => simp [startFor, hsl, hfirst]
    | some l => simp [startFor, hsl, hfirst, Placement.max]

/-- What the layer search does for a known qubit: from the start placement, the candidate layer
if the operation fits there, else the first later layer long enough, else a new layer. -/
theorem findLayer_cases {q : Qubit} {s : QubitState} (hs : t.qubitState? q = some s)
    {p : Placement} (hp : t.findLayer q d = .ok p) :
    (t.startFor s = .fresh ∧ p = .fresh) ∨ ∃ c, t.startFor s = .layer c ∧
      ((t.layers[c]? = none ∧ p = .fresh) ∨ ∃ layer, t.layers[c]? = some layer ∧
        ((max s.lastUsed layer.start + d ≤ layer.stop ∧ p = .layer c) ∨
          (¬(max s.lastUsed layer.start + d ≤ layer.stop) ∧
            ((∃ l, t.firstLongEnough (c + 1) d = some l ∧ p = .layer l) ∨
              (t.firstLongEnough (c + 1) d = none ∧ p = .fresh))))) := by
  unfold findLayer at hp
  rw [hs] at hp
  dsimp only at hp
  -- the search first computes the start placement, case by case on the qubit's layer
  split at hp
  · next hfresh =>
    cases hp
    refine .inl ⟨?_, rfl⟩
    unfold startFor
    split at hfresh
    · next l hl => rw [hl]; exact hfresh
    · next hl => rw [hl]; exact hfresh
  · next c hc =>
    have hstart : t.startFor s = .layer c := by
      unfold startFor
      split at hc
      · next l hl => rw [hl]; exact hc
      · next hl => rw [hl]; exact hc
    refine .inr ⟨c, hstart, ?_⟩
    split at hp
    · next hnone =>
      cases hp
      exact .inl ⟨hnone, rfl⟩
    · next layer hlayer =>
      refine .inr ⟨layer, hlayer, ?_⟩
      split at hp
      · next hfit =>
        cases hp
        exact .inl ⟨hfit, rfl⟩
      · next hfit =>
        refine .inr ⟨hfit, ?_⟩
        split at hp
        · next l hl =>
          cases hp
          exact .inl ⟨l, hl, rfl⟩
        · next hl =>
          cases hp
          exact .inr ⟨hl, rfl⟩

theorem long_add_iff {s j : Nat} :
    t.Long d (s + j) ↔ ∃ layer, (t.layers.drop s)[j]? = some layer ∧ d ≤ layer.duration := by
  rw [Long, List.getElem?_drop]

/-- The first layer long enough from a given one is long enough, and no layer between them is. -/
theorem firstLongEnough_some {s l : Nat} (h : t.firstLongEnough s d = some l) :
    s ≤ l ∧ t.Long d l ∧ ∀ l', s ≤ l' → l' < l → ¬ t.Long d l' := by
  unfold firstLongEnough at h
  obtain ⟨i, hi, rfl⟩ := Option.map_eq_some_iff.1 h
  obtain ⟨hlt, hpi, hmin⟩ := List.findIdx?_eq_some_iff_getElem.1 hi
  refine ⟨Nat.le_add_right s i, long_add_iff.2 ⟨_, List.getElem?_eq_getElem hlt,
    of_decide_eq_true hpi⟩, fun l' hsl' hl' hlong => ?_⟩
  obtain ⟨j, rfl⟩ := Nat.exists_eq_add_of_le hsl'
  obtain ⟨layer, hlayer, hd⟩ := long_add_iff.1 hlong
  have hj : j < i := by omega
  have hget : (t.layers.drop s)[j] = layer :=
    (List.getElem?_eq_some_iff.1 hlayer).2
  exact hmin j hj (by rw [hget]; exact decide_eq_true hd)

/-- When no layer from a given one is long enough, none is. -/
theorem firstLongEnough_none {s : Nat} (h : t.firstLongEnough s d = none) :
    ∀ l, s ≤ l → ¬ t.Long d l := by
  unfold firstLongEnough at h
  rw [Option.map_eq_none_iff, List.findIdx?_eq_none_iff] at h
  intro l hsl hlong
  obtain ⟨j, rfl⟩ := Nat.exists_eq_add_of_le hsl
  obtain ⟨layer, hlayer, hd⟩ := long_add_iff.1 hlong
  have := h layer (List.mem_of_getElem? hlayer)
  rw [decide_eq_false_iff_not] at this
  exact this hd

/-- For a qubit whose clock stays within its layer, the layer search gives the first fit. -/
theorem Clocked.findLayer_least (hc : t.Clocked) (hv : t.Valid) {q : Qubit} {s : QubitState}
    (hs : t.qubitState? q = some s) {p : Placement} (hp : t.findLayer q d = .ok p) :
    p.Least (t.Fits s d) := by
  have hreg := hc.regular hv (List.mem_of_getElem? hs) d
  rcases findLayer_cases hs hp with ⟨hstart, rfl⟩ | ⟨c, hstart, hsearch⟩
  · -- the candidate is past the last layer, and so is every layer that fits
    rcases startFor_cases hv hs with ⟨hlayer, -⟩ | ⟨-, hge⟩
    · rw [hlayer] at hstart
      cases hstart
    · intro l hfit
      obtain ⟨hle, layer, hl, -⟩ := hfit
      have := (List.getElem?_eq_some_iff.1 hl).1
      omega
  · -- the search starts at the candidate layer
    obtain ⟨rfl, hlt⟩ : c = t.candidate s ∧ t.candidate s < t.layers.length := by
      rcases startFor_cases hv hs with ⟨hlayer, hlt⟩ | ⟨hfresh, -⟩
      · rw [hlayer] at hstart
        cases hstart
        exact ⟨rfl, hlt⟩
      · rw [hfresh] at hstart
        cases hstart
    rcases hsearch with ⟨hnone, -⟩ | ⟨layer, hlayer, hcase⟩
    · rw [List.getElem?_eq_getElem hlt] at hnone
      cases hnone
    -- below the candidate nothing fits; at it, exactly when the direct test passes
    have hbelow : ∀ l, l < t.candidate s → ¬ t.Fits s d l := fun l hl hfit =>
      absurd (hreg.le l hfit) (Nat.not_le.2 hl)
    rcases hcase with ⟨hfit, rfl⟩ | ⟨hfit, hrest⟩
    · exact ⟨⟨le_rfl, layer, hlayer, hfit⟩, hbelow⟩
    · have hat : ¬ t.Fits s d (t.candidate s) := by
        rintro ⟨-, layer', hlayer', hfit'⟩
        cases hlayer.symm.trans hlayer'
        exact hfit hfit'
      -- past the candidate a layer fits exactly when it is long enough
      have hpast : ∀ l, t.Fits s d l → t.candidate s < l := fun l hfit' =>
        lt_of_le_of_ne (hreg.le l hfit') fun heq => hat (heq ▸ hfit')
      rcases hrest with ⟨l, hl, rfl⟩ | ⟨hl, rfl⟩
      · obtain ⟨hle, hlong, hmin⟩ := firstLongEnough_some hl
        exact ⟨hreg.above l (by omega) hlong, fun l' hl' hfit' =>
          hmin l' (hpast l' hfit') hl' (hreg.long l' hfit')⟩
      · exact fun l hfit' => firstLongEnough_none hl l (hpast l hfit') (hreg.long l hfit')

/-! ### Several qubits -/

theorem fitsAll_append (qs qs' : List Qubit) (l : Nat) :
    t.FitsAll (qs ++ qs') d l ↔ t.FitsAll qs d l ∧ t.FitsAll qs' d l := by
  simp only [FitsAll, List.mem_append, or_imp, forall_and]

theorem fitsAll_singleton {q : Qubit} {s : QubitState} (hs : t.qubitState? q = some s) (l : Nat) :
    t.FitsAll [q] d l ↔ t.Fits s d l := by
  simp [FitsAll, hs]

theorem fitsAll_congr {qs qs' : List Qubit} (h : ∀ q, q ∈ qs ↔ q ∈ qs') (l : Nat) :
    t.FitsAll qs d l ↔ t.FitsAll qs' d l :=
  forall_congr' fun q => imp_congr_left (h q)

theorem findLayer_known {q : Qubit} {p : Placement} (hp : t.findLayer q d = .ok p) :
    ∃ s, t.qubitState? q = some s := by
  cases hs : t.qubitState? q with
  | none =>
    unfold findLayer at hp
    rw [hs] at hp
    cases hp
  | some s => exact ⟨s, rfl⟩

/-- Folding the layer search over more qubits, keeping the latest placement, gives the first fit
of every qubit seen. -/
theorem Clocked.foldlM_least (hc : t.Clocked) (hv : t.Valid) :
    ∀ (qs done : List Qubit) (a : Nat) (p₀ p : Placement), t.Regular d (t.FitsAll done d) a →
      p₀.Least (t.FitsAll done d) →
      qs.foldlM (fun p q => do
        let p' ← t.findLayer q d
        pure (p.max p')) p₀ = .ok p →
      p.Least (t.FitsAll (done ++ qs) d)
  | [], done, _, p₀, p, _, h₀, h => by
    cases h
    rw [List.append_nil]
    exact h₀
  | q :: qs, done, a, p₀, p, hreg, h₀, h => by
    rw [List.foldlM_cons] at h
    obtain ⟨p₁, h₁, h⟩ := except_bind_eq_ok.1 h
    obtain ⟨p', hp', h₁⟩ := except_bind_eq_ok.1 h₁
    cases h₁
    -- the search found a placement for the qubit, so it is known
    obtain ⟨s, hs⟩ := findLayer_known hp'
    have hregq := hc.regular hv (List.mem_of_getElem? hs) d
    have hiff : ∀ l, (t.FitsAll done d l ∧ t.Fits s d l) ↔ t.FitsAll (done ++ [q]) d l := by
      intro l
      rw [fitsAll_append, fitsAll_singleton hs]
    have hrest := hc.foldlM_least hv qs (done ++ [q]) _ _ p ((hreg.and hregq).congr hiff)
      ((hreg.least_max hregq h₀ (hc.findLayer_least hv hs hp')).congr hiff) h
    rwa [List.append_assoc, List.singleton_append] at hrest

/-- The placement the search gives an operation on several qubits is the first fit of all of
them. -/
theorem Clocked.multi_least (hc : t.Clocked) (hv : t.Valid) {first : Qubit} {rest cs : List Qubit}
    {p₀ p : Placement} (hp₀ : t.findLayer first d = .ok p₀)
    (hp : (rest ++ cs).foldlM (fun p q => do
      let p' ← t.findLayer q d
      pure (p.max p')) p₀ = .ok p) : p.Least (t.FitsAll (cs ++ first :: rest) d) := by
  obtain ⟨s, hs⟩ := findLayer_known hp₀
  have hiff : ∀ l, t.Fits s d l ↔ t.FitsAll [first] d l := fun l => (fitsAll_singleton hs l).symm
  have hall := hc.foldlM_least hv (rest ++ cs) [first] _ p₀ p
    ((hc.regular hv (List.mem_of_getElem? hs) d).congr hiff)
    ((hc.findLayer_least hv hs hp₀).congr hiff) hp
  -- the qubits are the same, in another order
  refine hall.congr (fitsAll_congr fun q => ?_)
  simp only [List.singleton_append, List.mem_cons, List.mem_append]
  tauto

/-! ### Clocks stay within their layers -/

/-- Clocks stay within their layers when the qubits stay and no layer ends earlier. -/
theorem Clocked.of_stops {t' : Tracer} (hc : t.Clocked) (hq : t'.qubits = t.qubits)
    (hl : ∀ (c : Nat) (l : Layer), t.layers[c]? = some l →
      ∃ l' : Layer, t'.layers[c]? = some l' ∧ l.stop ≤ l'.stop) :
    t'.Clocked := by
  intro s hs
  refine ⟨fun c hsc => ?_, (hc s (hq ▸ hs)).2⟩
  obtain ⟨l, hlc, hused⟩ := (hc s (hq ▸ hs)).1 c hsc
  obtain ⟨l', hl', hle⟩ := hl c l hlc
  exact ⟨l', hl', le_trans hused hle⟩

theorem stops_of_frames {t t' : Tracer} (hf : t'.layers.map Layer.frame = t.layers.map Layer.frame) :
    ∀ (c : Nat) (l : Layer), t.layers[c]? = some l →
      ∃ l' : Layer, t'.layers[c]? = some l' ∧ l.stop ≤ l'.stop := by
  intro c l hl
  obtain ⟨l', hl', hs, hd, -⟩ := exists_of_frames hf.symm hl
  exact ⟨l', hl', by rw [Layer.stop, Layer.stop, hs, hd]⟩

/-- Layers appended after the last one leave every layer where it was. -/
theorem stops_of_append {t t' : Tracer} (hl : ∀ c, c < t.layers.length → t'.layers[c]? = t.layers[c]?) :
    ∀ (c : Nat) (l : Layer), t.layers[c]? = some l →
      ∃ l' : Layer, t'.layers[c]? = some l' ∧ l.stop ≤ l'.stop := by
  intro c l hlc
  exact ⟨l, by rw [hl c (List.getElem?_eq_some_iff.1 hlc).1, hlc], le_rfl⟩

theorem Clocked.setQubit (hc : t.Clocked) (i : Nat) {s : QubitState} (hs : t.WithinLayer s) :
    { t with qubits := t.qubits.set i s }.Clocked := by
  intro s' hs'
  rcases List.mem_or_eq_of_mem_set hs' with hs' | rfl
  · exact hc s' hs'
  · exact hs

theorem Clocked.openLayer (hc : t.Clocked) (d : Int) : (t.openLayer d).2.Clocked := by
  rw [openLayer_snd]
  exact hc.of_stops rfl (stops_of_append fun c hc => List.getElem?_append_left hc)

theorem Clocked.place (hc : t.Clocked) {p : Placement} {c : Nat} {t₁ : Tracer}
    (hpl : t.place p d = (c, t₁)) : t₁.Clocked := by
  rcases place_cases hpl with ⟨-, rfl⟩ | ⟨-, -, rfl⟩
  · exact hc
  · exact hc.openLayer d

theorem Clocked.foldl_addOp (hc : t.Clocked) (c : Nat) (ops : List Int) :
    (ops.foldl (fun t op => t.addOp op c) t).Clocked := by
  refine hc.of_stops ?_ (stops_of_frames (frames_foldl_addOp c ops t))
  rw [Tracer.foldl_addOp]

/-- Moving a qubit into a layer where the operation ends within the layer after the qubit's last
use keeps every clock within its layer. -/
theorem Clocked.updateQubit (hc : t.Clocked) {q : Qubit} {c : Nat}
    (hfit : ∀ s l, t.qubitState? q = some s → t.layers[c]? = some l →
      max s.lastUsed l.start + d ≤ l.stop) : (t.updateQubit q c d).Clocked := by
  cases hs : t.qubitState? q with
  | none => rw [updateQubit_of_none (Or.inl hs)]; exact hc
  | some s =>
    cases hl : t.layers[c]? with
    | none => rw [updateQubit_of_none (Or.inr hl)]; exact hc
    | some l =>
      rw [updateQubit_eq hs hl]
      refine Clocked.foldl_addOp (hc.setQubit _ ⟨fun c' hc' => ?_, fun hnone => ?_⟩) c _
      · cases hc'
        exact ⟨l, hl, hfit s l hs hl⟩
      · cases hnone

theorem qubitState?_updateQubit_ne {q q' : Qubit} (hne : q' ≠ q) (c : Nat) (d : Int) :
    (t.updateQubit q c d).qubitState? q' = t.qubitState? q' := by
  have hidx : q.index ≠ q'.index := fun h => hne (by cases q; cases q'; cases h; rfl)
  cases hs : t.qubitState? q with
  | none => rw [updateQubit_of_none (Or.inl hs)]
  | some s =>
    cases hl : t.layers[c]? with
    | none => rw [updateQubit_of_none (Or.inr hl)]
    | some l =>
      rw [updateQubit_eq hs hl, Tracer.foldl_addOp]
      exact List.getElem?_set_ne hidx

/-- Moving distinct qubits into a layer where the operation ends within the layer after each of
their last uses keeps every clock within its layer: each qubit is moved once, from its state
before the operation. -/
theorem Clocked.foldl_updateQubit {c : Nat} :
    ∀ (qs : List Qubit) (t : Tracer), qs.Nodup → t.Clocked →
      (∀ q ∈ qs, ∀ s l, t.qubitState? q = some s → t.layers[c]? = some l →
        max s.lastUsed l.start + d ≤ l.stop) →
      (qs.foldl (fun t q => t.updateQubit q c d) t).Clocked
  | [], _, _, hc, _ => hc
  | q :: qs, t, hnd, hc, hfit => by
    rw [List.foldl_cons]
    obtain ⟨hq, hnd⟩ := List.nodup_cons.1 hnd
    refine Clocked.foldl_updateQubit qs _ hnd (hc.updateQubit (hfit q List.mem_cons_self))
      fun q' hq' s l hs hl => ?_
    -- another qubit keeps its state, and the layer keeps its frame
    have hne : q' ≠ q := fun h => hq (h ▸ hq')
    rw [qubitState?_updateQubit_ne hne] at hs
    obtain ⟨l₀, hl₀, hstart, hdur, -⟩ := exists_of_frames (frames_updateQubit t q c d) hl
    have hfit₀ := hfit q' (List.mem_cons_of_mem q hq') s l₀ hs hl₀
    rw [Layer.stop, hstart, hdur]
    exact hfit₀

/-! ### Each request keeps the clocks within their layers -/

/-- The time the last layer ends, zero for an empty schedule: where a new layer starts. -/
def lastStop (t : Tracer) : Int := (t.layers.getLast?.map Layer.stop).getD 0

theorem Valid.stop_le_lastStop (h : t.Valid) {c : Nat} {l : Layer} (hl : t.layers[c]? = some l) :
    l.stop ≤ t.lastStop := by
  have hc := (List.getElem?_eq_some_iff.1 hl).1
  have hlast : t.layers[t.layers.length - 1]? = some t.layers[t.layers.length - 1] :=
    List.getElem?_eq_getElem (by omega)
  rw [lastStop, List.getLast?_eq_getElem?, hlast, Option.map_some, Option.getD_some]
  rcases Nat.lt_or_ge c (t.layers.length - 1) with hlt | hge
  · have h₁ := h.stop_le_start hlt hl hlast
    have h₂ := h.duration_nonneg (List.mem_of_getElem? hlast)
    simp only [Layer.stop] at h₁ ⊢
    omega
  · obtain rfl : c = t.layers.length - 1 := by omega
    cases hl.symm.trans hlast
    exact le_rfl

theorem Valid.lastStop_nonneg (h : t.Valid) : 0 ≤ t.lastStop := by
  cases hlast : t.layers.getLast? with
  | none => simp [lastStop, hlast]
  | some l =>
    obtain ⟨i, hi⟩ := List.mem_iff_getElem?.1 (List.mem_of_getLast? hlast)
    have h₁ := h.start_nonneg hi
    have h₂ := h.stop_le_lastStop hi
    have h₃ := h.duration_nonneg (List.mem_of_getElem? hi)
    simp only [Layer.stop] at h₂
    omega

/-- Every clock is within the schedule: no qubit was used after the last layer ends. -/
theorem Clocked.lastUsed_le_lastStop (hc : t.Clocked) (hv : t.Valid) {s : QubitState}
    (hs : s ∈ t.qubits) : s.lastUsed ≤ t.lastStop := by
  cases hsl : s.layer with
  | none => exact le_trans ((hc s hs).2 hsl) hv.lastStop_nonneg
  | some c =>
    obtain ⟨l, hl, hused⟩ := (hc s hs).1 c hsl
    exact le_trans hused (hv.stop_le_lastStop hl)

theorem qubitState?_place {p : Placement} {c : Nat} {t₁ : Tracer} (hpl : t.place p d = (c, t₁))
    (q : Qubit) : t₁.qubitState? q = t.qubitState? q := by
  rcases place_cases hpl with ⟨-, rfl⟩ | ⟨-, -, rfl⟩
  · rfl
  · rw [openLayer_snd]
    rfl

/-- Where an operation goes by first fit, it ends within the layer after each of its qubits'
last use: in the layer that fits them all, or in the new layer, which starts when the last layer
ends and is long enough. -/
theorem Clocked.fits_place (hc : t.Clocked) (hv : t.Valid) {qs : List Qubit} {p : Placement}
    {c : Nat} {t₁ : Tracer} (hp : p.Least (t.FitsAll qs d)) (hpl : t.place p d = (c, t₁)) :
    ∀ q ∈ qs, ∀ s l, t.qubitState? q = some s → t₁.layers[c]? = some l →
      max s.lastUsed l.start + d ≤ l.stop := by
  intro q hq s l hs hl
  rcases place_cases hpl with ⟨rfl, rfl⟩ | ⟨rfl, rfl, rfl⟩
  · obtain ⟨s', hs', -, l', hl', hfit⟩ := hp.1 q hq
    cases hs.symm.trans hs'
    cases hl.symm.trans hl'
    exact hfit
  · rw [openLayer_snd, List.getElem?_concat_length, Option.some_inj] at hl
    subst hl
    have hused := hc.lastUsed_le_lastStop hv (List.mem_of_getElem? hs)
    show max s.lastUsed t.lastStop + d ≤ t.lastStop + max t.preferred d
    rw [max_eq_right hused]
    have := le_max_right t.preferred d
    omega

theorem Clocked.addOp (hc : t.Clocked) (op : Int) (c : Nat) : (t.addOp op c).Clocked :=
  hc.of_stops rfl (stops_of_frames (frames_addOp t op c))

theorem Clocked.markSeen (hc : t.Clocked) (op : Int) : (t.markSeen op).Clocked := hc

/-- Placing an operation at the first fit of its qubits, which are distinct, and moving them there
keeps every clock within its layer. -/
theorem Clocked.placeOp (hc : t.Clocked) (hv : t.Valid) {qs : List Qubit} (hnd : qs.Nodup)
    {p : Placement} {c : Nat} {t₁ : Tracer} (hp : p.Least (t.FitsAll qs d))
    (hpl : t.place p d = (c, t₁)) (op : Int) :
    (qs.foldl (fun t q => t.updateQubit q c d) (t₁.addOp op c)).Clocked := by
  refine Clocked.foldl_updateQubit qs _ hnd ((hc.place hpl).addOp op c)
    fun q hq s l hs hl => ?_
  -- counting the operation changes no layer's frame, and placing it no qubit
  obtain ⟨l₀, hl₀, hstart, hdur, -⟩ := exists_of_frames (frames_addOp t₁ op c) hl
  have hs₀ : t.qubitState? q = some s := (qubitState?_place hpl q).symm.trans hs
  have hfit := hc.fits_place hv hp hpl q hq s l₀ hs₀ hl₀
  rw [Layer.stop, hstart, hdur]
  exact hfit

theorem Clocked.traceSingle (hc : t.Clocked) (hv : t.Valid) {op : Int} {q : Qubit}
    {r : Option Nat} {t' : Tracer} (hs : t.traceSingle op d q = .ok (r, t')) : t'.Clocked := by
  obtain ⟨-, s, hq, ⟨-, -, -, rfl⟩ | ⟨-, p, c, t₁, hp, hpl, -, rfl⟩⟩ := traceSingle_ok hs
  · -- a held operation leaves the qubit's layer and clock alone
    exact (hc.markSeen op).setQubit _ (hc s (List.mem_of_getElem? hq))
  · have hleast := ((hc.markSeen op).findLayer_least (hv.markSeen op) hq hp).congr
      fun l => (fitsAll_singleton hq l).symm
    exact (hc.markSeen op).placeOp (hv.markSeen op) (List.nodup_singleton q) hleast hpl op

theorem Clocked.traceMulti (hc : t.Clocked) (hv : t.Valid) {op : Int} {cs ts : List Qubit}
    (hnd : (cs ++ ts).Nodup) {r : Option Nat} {t' : Tracer}
    (hs : t.traceMulti op d cs ts = .ok (r, t')) : t'.Clocked := by
  obtain ⟨-, first, rest, rfl, ⟨-, -, -, hs⟩ | ⟨-, p₀, p, c, t₁, hp₀, hp, hpl, -, rfl⟩⟩ :=
    traceMulti_ok hs
  · exact hc.traceSingle hv hs
  · exact (hc.markSeen op).placeOp (hv.markSeen op) hnd (hc.multi_least hv hp₀ hp) hpl op

theorem Clocked.allocate (hc : t.Clocked) : t.allocate.2.Clocked := by
  intro s hs
  rcases List.mem_append.1 hs with hs | hs
  · exact hc s hs
  · rw [List.mem_singleton] at hs
    subst hs
    unfold WithinLayer
    exact ⟨fun c hc => by simp at hc, fun _ => le_rfl⟩

theorem Clocked.injectBarrier (hc : t.Clocked) {op : Int} {b : Nat} {t' : Tracer}
    (hs : t.injectBarrier op d = .ok (b, t')) : t'.Clocked := by
  obtain ⟨-, rfl, rfl⟩ := injectBarrier_ok hs
  refine hc.of_stops rfl (stops_of_append fun c hc => ?_)
  -- the barrier layer is the new last one; the layers before it stay
  have hne : t.layers.length ≠ c := Nat.ne_of_gt hc
  simp [openLayer_snd, hne, List.getElem?_append_left hc]

theorem Clocked.pushFence (hc : t.Clocked) {rs1 rs2 : List ResultHandle} {f : Option Nat}
    {t' : Tracer} (hs : t.pushFence rs1 rs2 = .ok (f, t')) : t'.Clocked := by
  obtain ⟨f₁, f₂, -, -, -, ⟨-, rfl⟩ | ⟨l, -, rfl⟩⟩ := pushFence_ok hs
  · exact hc
  · exact hc

theorem Clocked.popFence (hc : t.Clocked) (f : Option Nat) : (t.popFence f).Clocked := by
  cases f with
  | none => exact hc
  | some _ => exact hc

end Tracer

namespace TraceRequest

/-- Whether a request lists no qubit twice. -/
def Distinct : TraceRequest → Prop
  | .multi _ _ cs ts => (cs ++ ts).Nodup
  | .jointMeasure _ _ ts => ts.Nodup
  | _ => True

instance (r : TraceRequest) : Decidable r.Distinct := by
  cases r <;> unfold Distinct <;> infer_instance

end TraceRequest

namespace Tracer

variable {t : Tracer}

/-- A request that lists no qubit twice keeps every clock within its layer. -/
theorem Clocked.step (hc : t.Clocked) (hv : t.Valid) {r : TraceRequest} (hr : r.Distinct)
    {a : TraceReply} {t' : Tracer} (hs : t.step r = .ok (a, t')) : t'.Clocked := by
  have hs := step_ok hs
  cases r with
  | allocate => rw [hs.2]; exact hc.allocate
  | single | measure =>
    obtain ⟨_, hs, -⟩ := hs
    exact hc.traceSingle hv hs
  | multi =>
    obtain ⟨_, hs, -⟩ := hs
    exact hc.traceMulti hv hr hs
  | jointMeasure =>
    obtain ⟨_, hs, -⟩ := hs
    exact hc.traceMulti hv (by exact hr) hs
  | barrier =>
    obtain ⟨_, hs, -⟩ := hs
    exact hc.injectBarrier hs
  | pushFence =>
    obtain ⟨_, hs, -⟩ := hs
    exact hc.pushFence hs
  | popFence f => rw [hs.2]; exact hc.popFence f

theorem clocked_new (p : Int) (names : List (Int × String)) : (Tracer.new p names).Clocked := by
  intro s hs
  cases hs

/-- Along requests that list no qubit twice the schedule stays valid and every clock within its
layer. -/
theorem Clocked.run (hc : t.Clocked) (hv : t.Valid) (rs : List TraceRequest)
    (hrs : ∀ r ∈ rs, r.Distinct) : (t.run rs).2.Valid ∧ (t.run rs).2.Clocked := by
  induction rs generalizing t with
  | nil => exact ⟨hv, hc⟩
  | cons r rs ih =>
    rw [run_cons]
    -- a refused request leaves the tracer as it was
    have hafter : (t.after r).Valid ∧ (t.after r).Clocked := by
      unfold after
      split
      · next a t' hs => exact ⟨hv.step hs, hc.step hv (hrs r List.mem_cons_self) hs⟩
      · exact ⟨hv, hc⟩
    exact ih hafter.2 hafter.1 fun r' hr' => hrs r' (List.mem_cons_of_mem r hr')

/-! ### Every placement is the first fit -/

/-- An operation of duration `d` on qubits `qs` went by first fit from `t` into layer `c` of
`t'`: the least layer of `t` that fits every qubit, or, when no layer does, a new layer after the
last one, starting when it ends and as long as the operation or the preferred duration. -/
def PlacedFirst (t : Tracer) (qs : List Qubit) (d : Int) (c : Nat) (t' : Tracer) : Prop :=
  (t.FitsAll qs d c ∧ ∀ l < c, ¬ t.FitsAll qs d l) ∨
    ((∀ l, ¬ t.FitsAll qs d l) ∧ c = t.layers.length ∧
      ∃ layer, t'.layers[c]? = some layer ∧ layer.start = t.lastStop ∧
        layer.duration = max t.preferred d)

theorem frames_foldl_updateQubit (c : Nat) (d : Int) :
    ∀ (qs : List Qubit) (t : Tracer),
      (qs.foldl (fun t q => t.updateQubit q c d) t).layers.map Layer.frame = t.layers.map Layer.frame
  | [], _ => rfl
  | q :: qs, t => by
    rw [List.foldl_cons, frames_foldl_updateQubit c d qs, frames_updateQubit]

/-- Placing an operation at a first fit and moving qubits there is a placement by first fit: the
new layer, if one is opened, keeps its frame while the operation is counted in it. -/
theorem placedFirst_placeOp {qs qs' : List Qubit} {p : Placement} {op : Int} {c : Nat}
    {t₁ : Tracer} (hp : p.Least (t.FitsAll qs d)) (hpl : (t.markSeen op).place p d = (c, t₁)) :
    t.PlacedFirst qs d c (qs'.foldl (fun t q => t.updateQubit q c d) (t₁.addOp op c)) := by
  rcases place_cases hpl with ⟨rfl, rfl⟩ | ⟨rfl, rfl, rfl⟩
  · exact .inl hp
  · refine .inr ⟨hp, rfl, ?_⟩
    have hnew : ((t.markSeen op).openLayer d).2.layers[t.layers.length]? =
        some ⟨t.lastStop, max t.preferred d, [], none⟩ := by
      rw [openLayer_snd]
      exact List.getElem?_concat_length
    have hframes := (frames_foldl_updateQubit t.layers.length d qs' _).trans
      (frames_addOp ((t.markSeen op).openLayer d).2 op t.layers.length)
    obtain ⟨l, hl, hstart, hdur, -⟩ := exists_of_frames hframes.symm hnew
    exact ⟨l, hl, hstart.symm, hdur.symm⟩

/-- Operations go to the first layer that fits. Run any requests that list no qubit twice from a
new tracer. Then every operation traced next and placed in a layer, on one qubit or several, is
placed by first fit. It goes to the least layer that is at or after each qubit's candidate (the
later of its layer and the layer after the effective fence) and in which the operation, started
after each qubit's last use and the layer's start, ends within the layer. When no layer fits
every qubit, it goes to a new layer after the last one, starting when that ends and as long as
the operation or the preferred duration. -/
theorem first_fit_placement (p : Int) (names : List (Int × String)) (rs : List TraceRequest)
    (hrs : ∀ r ∈ rs, r.Distinct) :
    let t := ((Tracer.new p names).run rs).2
    (∀ op d q c t', t.traceSingle op d q = .ok (some c, t') → t.PlacedFirst [q] d c t') ∧
    (∀ op d cs ts c t', t.traceMulti op d cs ts = .ok (some c, t') →
      t.PlacedFirst (cs ++ ts) d c t') := by
  intro t
  obtain ⟨hv, hc⟩ := (clocked_new p names).run (valid_new p names) rs hrs
  have hsingle : ∀ op d q c t', t.traceSingle op d q = .ok (some c, t') →
      t.PlacedFirst [q] d c t' := by
    intro op d q c t' hs
    obtain ⟨-, s, hq, ⟨-, -, hr, -⟩ | ⟨-, p, c', t₁, hp, hpl, hr, rfl⟩⟩ := traceSingle_ok hs
    · -- a held operation is placed in no layer
      cases hr
    · cases hr
      show t.PlacedFirst [q] d c ([q].foldl (fun t q => t.updateQubit q c d) (t₁.addOp op c))
      exact placedFirst_placeOp (((hc.markSeen op).findLayer_least (hv.markSeen op) hq hp).congr
        fun l => (fitsAll_singleton hq l).symm) hpl
  refine ⟨hsingle, fun op d cs ts c t' hs => ?_⟩
  obtain ⟨-, first, rest, rfl, ⟨-, hcs, hrest, hs⟩ | ⟨-, p₀, p, c', t₁, hp₀, hp, hpl, hr, rfl⟩⟩ :=
    traceMulti_ok hs
  · -- one target and no control: traced as a one-qubit operation
    rw [List.isEmpty_iff.1 hcs, List.isEmpty_iff.1 hrest]
    exact hsingle op d first c t' hs
  · cases hr
    exact placedFirst_placeOp (hc.multi_least hv hp₀ hp) hpl

/-- Two qubits, and an operation on both of them. -/
theorem first_fit_placement_two_qubits :
    (∀ r ∈ [TraceRequest.allocate, .allocate, .multi 1 1 [⟨0⟩] [⟨1⟩]], r.Distinct) ∧
      (∀ op d q c t', ((Tracer.new 1 []).run [.allocate, .allocate, .multi 1 1 [⟨0⟩] [⟨1⟩]]).2.traceSingle
          op d q = .ok (some c, t') →
        ((Tracer.new 1 []).run [.allocate, .allocate, .multi 1 1 [⟨0⟩] [⟨1⟩]]).2.PlacedFirst [q] d c t') ∧
      (∀ op d cs ts c t', ((Tracer.new 1 []).run [.allocate, .allocate,
          .multi 1 1 [⟨0⟩] [⟨1⟩]]).2.traceMulti op d cs ts = .ok (some c, t') →
        ((Tracer.new 1 []).run [.allocate, .allocate, .multi 1 1 [⟨0⟩] [⟨1⟩]]).2.PlacedFirst
          (cs ++ ts) d c t') :=
  have hrs : ∀ r ∈ [TraceRequest.allocate, .allocate, .multi 1 1 [⟨0⟩] [⟨1⟩]], r.Distinct := by
    decide
  ⟨hrs, first_fit_placement 1 [] _ hrs⟩

/-- An operation that lists a qubit twice moves the qubit's clock twice. Qubit 0 is both control
and target of an operation of duration 1 in layer 0, which runs from 0 to 1, and its clock reads
2; two operations on qubit 1 fill layer 0 and open layer 1, which runs from 1 to 2. An operation
of duration 1 on qubit 0 then goes to layer 1, though it fits no layer: started after the clock
it would end at 3. -/
theorem repeated_qubit_escapes_first_fit :
    (∃ t', ((Tracer.new 1 []).run [.allocate, .allocate, .multi 1 1 [⟨0⟩] [⟨0⟩], .single 2 1 ⟨1⟩,
        .single 3 1 ⟨1⟩]).2.traceSingle 4 1 ⟨0⟩ = .ok (some 1, t')) ∧
      ∀ l, ¬ ((Tracer.new 1 []).run [.allocate, .allocate, .multi 1 1 [⟨0⟩] [⟨0⟩],
        .single 2 1 ⟨1⟩, .single 3 1 ⟨1⟩]).2.FitsAll [⟨0⟩] 1 l := by
  refine ⟨⟨_, rfl⟩, fun l hfit => ?_⟩
  obtain ⟨s, hs, -, layer, hl, hend⟩ := hfit ⟨0⟩ List.mem_cons_self
  -- the qubit's clock is past the end of every layer
  have hclock : ((Tracer.new 1 []).run [.allocate, .allocate, .multi 1 1 [⟨0⟩] [⟨0⟩],
      .single 2 1 ⟨1⟩, .single 3 1 ⟨1⟩]).2.qubitState? ⟨0⟩ = some ⟨some 0, 2, []⟩ := by decide
  have hlayers : ∀ layer ∈ ((Tracer.new 1 []).run [.allocate, .allocate, .multi 1 1 [⟨0⟩] [⟨0⟩],
      .single 2 1 ⟨1⟩, .single 3 1 ⟨1⟩]).2.layers, ¬ (max 2 layer.start + 1 ≤ layer.stop) := by
    decide
  cases hs.symm.trans hclock
  exact hlayers layer (List.mem_of_getElem? hl) hend

end Tracer

end QuantumRuntime
