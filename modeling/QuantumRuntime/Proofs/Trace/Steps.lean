import Mathlib
import QuantumRuntime.Trace.Tracer
import QuantumRuntime.Proofs.SortedMap

/-!
# Runs of the tracer

A program drives the tracer with a sequence of requests: allocating qubits, tracing operations
and measurements, injecting barriers and pushing and popping fences. `Tracer.run` answers them
one after another; a refused request leaves the tracer as it was and the run goes on.

Each request is taken apart here once, by one inversion lemma per operation (`traceSingle_ok`,
`traceMulti_ok`, `injectBarrier_ok`, `pushFence_ok`), and the facts every later proof needs about
the layer search are stated once: a placement never names a layer before the effective fence
(`Tracer.findLayer_admits`), and a placement that names a layer names one of the schedule.
-/

namespace QuantumRuntime

/-- A request to the tracer. -/
inductive TraceRequest
  | allocate
  | single (op duration : Int) (target : Qubit)
  | multi (op duration : Int) (controls targets : List Qubit)
  | measure (op duration : Int) (target : Qubit)
  | jointMeasure (op duration : Int) (targets : List Qubit)
  | barrier (op duration : Int)
  | pushFence (results1 results2 : List ResultHandle)
  | popFence (fence : Option Nat)
deriving DecidableEq, Repr

/-- The tracer's answer to a request it accepted. -/
inductive TraceReply
  | qubit (q : Qubit)
  | placed (layer : Option Nat)
  | measured (result : ResultHandle)
  | barrier (layer : Nat)
  | fence (layer : Option Nat)
  | popped
deriving DecidableEq, Repr

namespace TraceRequest

/-- Whether the request traces an operation with this id: an operation or a measurement, on
one qubit or several. -/
def traces : TraceRequest → Int → Bool
  | single op _ _, o | multi op _ _ _, o | measure op _ _, o | jointMeasure op _ _, o => op == o
  | _, _ => false

end TraceRequest

namespace TraceReply

/-- The layer an accepted trace request placed its operation in, if it was placed. A measurement
names it through its result. -/
def layer? : TraceReply → Option Nat
  | placed l => l
  | measured r => Tracer.layerOfMeasurement r
  | _ => none

end TraceReply

/-- The later of two optional layers is one of them. -/
theorem optMax_eq_some {a b : Option Nat} {m : Nat} (h : optMax a b = some m) :
    a = some m ∨ b = some m := by
  match a, b with
  | none, b => exact Or.inr h
  | some x, none => exact Or.inl h
  | some x, some y =>
    have h' : max x y = m := Option.some.inj h
    simp only [Option.some.injEq]
    omega

/-! ### Lemmas on options, results and lists -/

theorem except_map_eq_ok {ε α β : Type} {x : Except ε α} {f : α → β} {b : β} :
    x.map f = .ok b ↔ ∃ a, x = .ok a ∧ f a = b := by
  cases x <;> simp [Except.map]

theorem except_bind_eq_ok {ε α β : Type} {x : Except ε α} {f : α → Except ε β} {b : β} :
    x >>= f = .ok b ↔ ∃ a, x = .ok a ∧ f a = .ok b := by
  cases x <;> simp [bind, Except.bind]

theorem modify_length_append {α : Type} (f : α → α) (a : α) :
    ∀ l : List α, (l ++ [a]).modify l.length f = l ++ [f a]
  | [] => rfl
  | x :: l => by
    rw [List.cons_append, List.length_cons, List.modify_succ_cons, modify_length_append f a l]
    rfl

theorem getElem?_append_singleton {α : Type} {ls : List α} {new a : α} {i : Nat}
    (h : (ls ++ [new])[i]? = some a) : ls[i]? = some a ∨ (i = ls.length ∧ a = new) := by
  rw [List.getElem?_append] at h
  split at h
  · exact Or.inl h
  · rw [List.getElem?_singleton] at h
    split at h
    · cases h
      exact Or.inr ⟨by omega, rfl⟩
    · cases h

/-- Changing one entry of a list changes the sum of a measure of its entries by the change of
that entry. -/
theorem sum_map_modify {α : Type} (g : α → Nat) (f : α → α) :
    ∀ (l : List α) (i : Nat),
      ((l.modify i f).map g).sum + (l[i]?.map g).getD 0 = (l.map g).sum + (l[i]?.map (g ∘ f)).getD 0
  | [], _ => by simp
  | a :: l, 0 => by simp; omega
  | a :: l, i + 1 => by
    have ih := sum_map_modify g f l i
    simp only [List.modify_succ_cons, List.map_cons, List.sum_cons, List.getElem?_cons_succ] at ih ⊢
    omega

/-- Changing an entry in a way a view of it does not see leaves the view of the list alone. -/
theorem map_modify_eq {α β : Type} (g : α → β) (f : α → α) (h : ∀ a, g (f a) = g a) :
    ∀ (l : List α) (i : Nat), (l.modify i f).map g = l.map g
  | [], _ => by rw [List.modify_nil]
  | a :: l, 0 => by simp [h]
  | a :: l, i + 1 => by simp [map_modify_eq g f h l i]

theorem forall_mem_modify {α : Type} (P : α → Prop) (f : α → α) (hf : ∀ a, P a → P (f a)) :
    ∀ (l : List α) (i : Nat), (∀ a ∈ l, P a) → ∀ a ∈ l.modify i f, P a
  | [], _, _ => by simp
  | b :: l, 0, h => by
    simp only [List.modify_zero_cons, List.forall_mem_cons] at h ⊢
    exact ⟨hf b h.1, h.2⟩
  | b :: l, i + 1, h => by
    simp only [List.modify_succ_cons, List.forall_mem_cons] at h ⊢
    exact ⟨h.1, forall_mem_modify P f hf l i h.2⟩

namespace Tracer

/-- Answers one request. -/
def step (t : Tracer) : TraceRequest → Except TraceError (TraceReply × Tracer)
  | .allocate => let (q, t) := t.allocate; .ok (.qubit q, t)
  | .single op d q => (t.traceSingle op d q).map fun (l, t) => (.placed l, t)
  | .multi op d cs ts => (t.traceMulti op d cs ts).map fun (l, t) => (.placed l, t)
  | .measure op d q => (t.measureSingle op d q).map fun (r, t) => (.measured r, t)
  | .jointMeasure op d ts => (t.measureMulti op d ts).map fun (r, t) => (.measured r, t)
  | .barrier op d => (t.injectBarrier op d).map fun (l, t) => (.barrier l, t)
  | .pushFence rs1 rs2 => (t.pushFence rs1 rs2).map fun (f, t) => (.fence f, t)
  | .popFence f => .ok (.popped, t.popFence f)

/-- Answers requests one after another. Gives every request with its answer, and the tracer at
the end; a refused request leaves the tracer unchanged. -/
def run (t : Tracer) : List TraceRequest →
    List (TraceRequest × Except TraceError TraceReply) × Tracer
  | [] => ([], t)
  | r :: rs =>
    match t.step r with
    | .ok (a, t') => let (log, t'') := t'.run rs; ((r, .ok a) :: log, t'')
    | .error e => let (log, t'') := t.run rs; ((r, .error e) :: log, t'')

/-- The tracer after a request: the new tracer if it was accepted, the same one otherwise. -/
def after (t : Tracer) (r : TraceRequest) : Tracer :=
  match t.step r with
  | .ok (_, t') => t'
  | .error _ => t

theorem run_nil (t : Tracer) : t.run [] = ([], t) := rfl

theorem run_cons (t : Tracer) (r : TraceRequest) (rs : List TraceRequest) :
    t.run (r :: rs) =
      (((r, (t.step r).map Prod.fst) :: (t.after r |>.run rs).1), (t.after r |>.run rs).2) := by
  simp only [run, after]
  split
  · next h => rw [h]; rfl
  · next h => rw [h]; rfl

theorem run_append (t : Tracer) (rs rs' : List TraceRequest) :
    t.run (rs ++ rs') = ((t.run rs).1 ++ ((t.run rs).2.run rs').1, ((t.run rs).2.run rs').2) := by
  induction rs generalizing t with
  | nil => rfl
  | cons r rs ih => simp only [List.cons_append, run_cons, ih]

/-- A property of tracers that every request keeps holds at the end of every run. -/
theorem run_induction (P : Tracer → Prop) (hstep : ∀ t r a t', P t → t.step r = .ok (a, t') → P t')
    {t : Tracer} (ht : P t) (rs : List TraceRequest) : P (t.run rs).2 := by
  induction rs generalizing t with
  | nil => exact ht
  | cons r rs ih =>
    rw [run_cons]
    apply ih
    unfold after
    split
    · next a t' h => exact hstep t r a t' ht h
    · exact ht

/-! ### One inversion lemma per operation -/

/-- An accepted one-qubit trace either holds a zero-duration operation for a qubit that is not
placed after the fence, or places it where the layer search says and moves the qubit there. -/
theorem traceSingle_ok {t t' : Tracer} {op d : Int} {q : Qubit} {r : Option Nat}
    (h : t.traceSingle op d q = .ok (r, t')) :
    0 ≤ d ∧ ∃ s, t.qubitState? q = some s ∧
      ((d = 0 ∧ t.isUnplaced s ∧ r = none ∧ t' = { t.markSeen op with
          qubits := t.qubits.set q.index { s with pending := s.pending ++ [op] } }) ∨
       (¬(d = 0 ∧ t.isUnplaced s) ∧ ∃ p c t₁, t.findLayer q d = .ok p ∧
          (t.markSeen op).place p d = (c, t₁) ∧ r = some c ∧
          t' = (t₁.addOp op c).updateQubit q c d)) := by
  unfold traceSingle at h
  split at h
  · cases h
  · refine ⟨by omega, ?_⟩
    split at h
    · cases h
    · next s hs =>
      refine ⟨s, hs, ?_⟩
      dsimp only at h
      split at h
      · next hz =>
        simp only [Except.ok.injEq, Prod.mk.injEq] at h
        exact Or.inl ⟨hz.1, hz.2, h.1.symm, h.2.symm⟩
      · next hz =>
        refine Or.inr ⟨hz, ?_⟩
        cases hp : (t.markSeen op).findLayer q d with
        | error e => rw [hp] at h; cases h
        | ok p =>
          rw [hp] at h
          obtain ⟨h1, h2⟩ := Prod.mk.inj (Except.ok.inj h)
          exact ⟨p, _, _, hp, rfl, h1.symm, h2.symm⟩

/-- An accepted trace on several qubits is either a zero-duration operation on one target,
traced as a one-qubit operation, or placed at the latest placement any of its qubits needs, with
every qubit, controls first, moved into that layer. -/
theorem traceMulti_ok {t t' : Tracer} {op d : Int} {cs ts : List Qubit} {r : Option Nat}
    (h : t.traceMulti op d cs ts = .ok (r, t')) :
    0 ≤ d ∧ ∃ first rest, ts = first :: rest ∧
      ((d = 0 ∧ cs.isEmpty ∧ rest.isEmpty ∧ t.traceSingle op d first = .ok (r, t')) ∨
       (¬(d = 0 ∧ cs.isEmpty ∧ rest.isEmpty) ∧ ∃ p₀ p c t₁, t.findLayer first d = .ok p₀ ∧
          (rest ++ cs).foldlM (fun p q => do
            let p' ← t.findLayer q d
            pure (p.max p')) p₀ = .ok p ∧
          (t.markSeen op).place p d = (c, t₁) ∧ r = some c ∧
          t' = (cs ++ ts).foldl (fun t q => t.updateQubit q c d) (t₁.addOp op c))) := by
  unfold traceMulti at h
  split at h
  · cases h
  · refine ⟨by omega, ?_⟩
    split at h
    · cases h
    · next first rest =>
      refine ⟨first, rest, rfl, ?_⟩
      split at h
      · next hz => exact Or.inl ⟨hz.1, hz.2.1, hz.2.2, h⟩
      · next hz =>
        refine Or.inr ⟨hz, ?_⟩
        obtain ⟨p₀, hp₀, h⟩ := except_bind_eq_ok.1 h
        obtain ⟨p, hp, h⟩ := except_bind_eq_ok.1 h
        obtain ⟨h1, h2⟩ := Prod.mk.inj (Except.ok.inj h)
        exact ⟨p₀, p, _, _, hp₀, hp, rfl, h1.symm, h2.symm⟩

/-- An accepted barrier opens a layer at the end of the schedule, marks it as a barrier and
makes it the global barrier. -/
theorem injectBarrier_ok {t t' : Tracer} {op d : Int} {b : Nat}
    (h : t.injectBarrier op d = .ok (b, t')) :
    0 ≤ d ∧ b = t.layers.length ∧ t' = { (t.openLayer d).2 with
      layers := (t.openLayer d).2.layers.modify b fun l => { l with barrier := some op }
      globalBarrier := some b } := by
  unfold injectBarrier at h
  split at h
  · cases h
  · obtain ⟨h1, h2⟩ := Prod.mk.inj (Except.ok.inj h)
    refine ⟨by omega, h1.symm, ?_⟩
    rw [← h2, ← h1]
    rfl

/-- An accepted fence is the later of the latest layers measuring each list of results; when
there is one, it is pushed and the latest fence catches up with it. -/
theorem pushFence_ok {t t' : Tracer} {rs1 rs2 : List ResultHandle} {f : Option Nat}
    (h : t.pushFence rs1 rs2 = .ok (f, t')) :
    ∃ f₁ f₂, t.latestMeasurement rs1 = .ok f₁ ∧ t.latestMeasurement rs2 = .ok f₂ ∧
      f = optMax f₁ f₂ ∧
      ((f = none ∧ t' = t) ∨ ∃ l, f = some l ∧
        t' = { t with fences := l :: t.fences, latestFence := optMax t.latestFence (some l) }) := by
  unfold pushFence at h
  obtain ⟨f₁, h₁, h⟩ := except_bind_eq_ok.1 h
  obtain ⟨f₂, h₂, h⟩ := except_bind_eq_ok.1 h
  refine ⟨f₁, f₂, h₁, h₂, ?_⟩
  split at h
  · next hm =>
    obtain ⟨h1, h2⟩ := Prod.mk.inj (Except.ok.inj h)
    exact ⟨by rw [← h1, hm], Or.inl ⟨h1.symm, h2.symm⟩⟩
  · next l hm =>
    obtain ⟨h1, h2⟩ := Prod.mk.inj (Except.ok.inj h)
    exact ⟨by rw [← h1, hm], Or.inr ⟨l, h1.symm, h2.symm⟩⟩

/-! ### Placements lie after the fence -/

/-- A placement the layer search may give: a new layer, or a layer of the schedule after the
effective fence. -/
def Admits (t : Tracer) : Placement → Prop
  | .layer c => c < t.layers.length ∧ ∀ f, t.effectiveFence = some f → f < c
  | .fresh => True

theorem firstLongEnough_bounds {t : Tracer} {s l : Nat} {d : Int} (h : t.firstLongEnough s d = some l) :
    s ≤ l ∧ l < t.layers.length := by
  unfold firstLongEnough at h
  obtain ⟨i, hi, rfl⟩ := Option.map_eq_some_iff.1 h
  obtain ⟨hlt, -⟩ := List.findIdx?_eq_some_iff_getElem.1 hi
  simp only [List.length_drop] at hlt
  omega

theorem admits_max {t : Tracer} {p p' : Placement}
    (hp : ∀ c, p = .layer c → c < t.layers.length) (hp' : t.Admits p') : t.Admits (p.max p') := by
  match p, p' with
  | .layer a, .layer b =>
    obtain ⟨hb, hfb⟩ := hp'
    have ha := hp a rfl
    refine ⟨by simp only [Nat.max_def]; split <;> omega, fun f hf => ?_⟩
    have := hfb f hf
    simp only [Nat.max_def]; split <;> omega
  | .layer _, .fresh | .fresh, _ => trivial

theorem Admits.lt {t : Tracer} {p : Placement} (h : t.Admits p) :
    ∀ c, p = .layer c → c < t.layers.length := by
  rintro c rfl
  exact h.1

theorem admits_firstAfterFence {t : Tracer}
    (hf : ∀ f, t.effectiveFence = some f → f < t.layers.length) : t.Admits t.firstAfterFence := by
  unfold firstAfterFence
  split
  · next hnone =>
    split
    · trivial
    · next hne =>
      refine ⟨?_, fun f h => by rw [hnone] at h; cases h⟩
      cases hl : t.layers with
      | nil => simp [hl] at hne
      | cons _ _ => simp
  · next f hsome =>
    split
    · trivial
    · next hne =>
      have := hf f hsome
      refine ⟨by omega, fun f' h => ?_⟩
      rw [hsome] at h
      cases h
      omega

theorem findLayer_admits {t : Tracer} {q : Qubit} {d : Int} {p : Placement}
    (hq : ∀ s c, t.qubitState? q = some s → s.layer = some c → c < t.layers.length)
    (hf : ∀ f, t.effectiveFence = some f → f < t.layers.length)
    (h : t.findLayer q d = .ok p) : t.Admits p := by
  unfold findLayer at h
  split at h
  · cases h
  · next s hs =>
    dsimp only at h
    split at h
    · cases h
      trivial
    · next c hc =>
      -- the candidate is the qubit's last layer raised to the first layer after the fence
      have hcand : t.Admits (.layer c) := by
        rw [← hc]
        split
        · next l hl =>
          refine admits_max ?_ (admits_firstAfterFence hf)
          rintro c ⟨⟩
          exact hq s l hs hl
        · exact admits_firstAfterFence hf
      obtain ⟨hc, hfc⟩ := hcand
      split at h
      · cases h; trivial
      · split at h
        · cases h; exact ⟨hc, hfc⟩
        · split at h
          · next l hl =>
            cases h
            have := firstLongEnough_bounds hl
            exact ⟨this.2, fun f hf' => by have := hfc f hf'; omega⟩
          · cases h; trivial

theorem admits_foldlM {t : Tracer} {d : Int} {p : Placement}
    (hq : ∀ q p', t.findLayer q d = .ok p' → t.Admits p') :
    ∀ (qs : List Qubit) (p₀ : Placement), t.Admits p₀ →
      qs.foldlM (fun p q => do
        let p' ← t.findLayer q d
        pure (p.max p')) p₀ = .ok p → t.Admits p
  | [], p₀, h₀, h => by cases h; exact h₀
  | q :: qs, p₀, h₀, h => by
    rw [List.foldlM_cons] at h
    obtain ⟨p₁, h₁, h⟩ := except_bind_eq_ok.1 h
    obtain ⟨p', hp', h₁⟩ := except_bind_eq_ok.1 h₁
    cases h₁
    exact admits_foldlM hq qs _ (admits_max h₀.lt (hq q p' hp')) h

theorem latestMeasurement_lt {t : Tracer} {f : Option Nat} :
    ∀ (rs : List ResultHandle) (acc : Option Nat), (∀ l, acc = some l → l < t.layers.length) →
      rs.foldlM (fun (latest : Option Nat) r => (match layerOfMeasurement r with
        | some l => if t.layers.length ≤ l then .error (.unknownMeasurement r)
          else .ok (optMax latest (some l))
        | none => .ok latest : Except TraceError (Option Nat))) acc = .ok f →
      ∀ l, f = some l → l < t.layers.length
  | [], acc, hacc, h => by cases h; exact hacc
  | r :: rs, acc, hacc, h => by
    rw [List.foldlM_cons] at h
    obtain ⟨acc', h₁, h⟩ := except_bind_eq_ok.1 h
    refine latestMeasurement_lt rs acc' ?_ h
    intro l hl
    split at h₁
    · next m hm =>
      split at h₁
      · cases h₁
      · next hlt =>
        cases h₁
        rcases optMax_eq_some hl with h' | h'
        · exact hacc l h'
        · cases h'; omega
    · cases h₁; exact hacc l hl

theorem latestMeasurement_ok_lt {t : Tracer} {rs : List ResultHandle} {l : Nat}
    (h : t.latestMeasurement rs = .ok (some l)) : l < t.layers.length :=
  latestMeasurement_lt rs none (fun _ h => nomatch h) h l rfl

theorem measureSingle_ok {t t' : Tracer} {op d : Int} {q : Qubit} {r : ResultHandle}
    (h : t.measureSingle op d q = .ok (r, t')) :
    ∃ l, t.traceSingle op d q = .ok (l, t') ∧ r = measurementResult l := by
  obtain ⟨⟨l, t₁⟩, hl, he⟩ := except_map_eq_ok.1 h
  obtain ⟨h1, h2⟩ := Prod.mk.inj he
  exact ⟨l, h2 ▸ hl, h1.symm⟩

theorem measureMulti_ok {t t' : Tracer} {op d : Int} {ts : List Qubit} {r : ResultHandle}
    (h : t.measureMulti op d ts = .ok (r, t')) :
    ∃ l, t.traceMulti op d [] ts = .ok (l, t') ∧ r = measurementResult l := by
  obtain ⟨⟨l, t₁⟩, hl, he⟩ := except_map_eq_ok.1 h
  obtain ⟨h1, h2⟩ := Prod.mk.inj he
  exact ⟨l, h2 ▸ hl, h1.symm⟩

/-- What an accepted request did, by kind of request. -/
theorem step_ok {t t' : Tracer} {r : TraceRequest} {a : TraceReply} (hs : t.step r = .ok (a, t')) :
    match r with
    | .allocate => a = .qubit ⟨t.qubits.length⟩ ∧ t' = t.allocate.2
    | .single op d q => ∃ l, t.traceSingle op d q = .ok (l, t') ∧ a = .placed l
    | .multi op d cs ts => ∃ l, t.traceMulti op d cs ts = .ok (l, t') ∧ a = .placed l
    | .measure op d q =>
      ∃ l, t.traceSingle op d q = .ok (l, t') ∧ a = .measured (measurementResult l)
    | .jointMeasure op d ts =>
      ∃ l, t.traceMulti op d [] ts = .ok (l, t') ∧ a = .measured (measurementResult l)
    | .barrier op d => ∃ b, t.injectBarrier op d = .ok (b, t') ∧ a = .barrier b
    | .pushFence rs1 rs2 => ∃ f, t.pushFence rs1 rs2 = .ok (f, t') ∧ a = .fence f
    | .popFence f => a = .popped ∧ t' = t.popFence f := by
  cases r with
  | allocate =>
    obtain ⟨h1, h2⟩ := Prod.mk.inj (Except.ok.inj hs)
    exact ⟨h1.symm, h2.symm⟩
  | single op d q =>
    obtain ⟨⟨l, t₁⟩, hl, he⟩ := except_map_eq_ok.1 hs
    obtain ⟨h1, h2⟩ := Prod.mk.inj he
    exact ⟨l, h2 ▸ hl, h1.symm⟩
  | multi op d cs ts =>
    obtain ⟨⟨l, t₁⟩, hl, he⟩ := except_map_eq_ok.1 hs
    obtain ⟨h1, h2⟩ := Prod.mk.inj he
    exact ⟨l, h2 ▸ hl, h1.symm⟩
  | measure op d q =>
    obtain ⟨⟨r, t₁⟩, hr, he⟩ := except_map_eq_ok.1 hs
    obtain ⟨h1, h2⟩ := Prod.mk.inj he
    obtain ⟨l, hl, rfl⟩ := measureSingle_ok hr
    exact ⟨l, h2 ▸ hl, h1.symm⟩
  | jointMeasure op d ts =>
    obtain ⟨⟨r, t₁⟩, hr, he⟩ := except_map_eq_ok.1 hs
    obtain ⟨h1, h2⟩ := Prod.mk.inj he
    obtain ⟨l, hl, rfl⟩ := measureMulti_ok hr
    exact ⟨l, h2 ▸ hl, h1.symm⟩
  | barrier op d =>
    obtain ⟨⟨b, t₁⟩, hb, he⟩ := except_map_eq_ok.1 hs
    obtain ⟨h1, h2⟩ := Prod.mk.inj he
    exact ⟨b, h2 ▸ hb, h1.symm⟩
  | pushFence rs1 rs2 =>
    obtain ⟨⟨f, t₁⟩, hf, he⟩ := except_map_eq_ok.1 hs
    obtain ⟨h1, h2⟩ := Prod.mk.inj he
    exact ⟨f, h2 ▸ hf, h1.symm⟩
  | popFence f =>
    obtain ⟨h1, h2⟩ := Prod.mk.inj (Except.ok.inj hs)
    exact ⟨h1.symm, h2.symm⟩

/-! ### Spec lemmas of the schedule's primitives -/

theorem place_cases {t t₁ : Tracer} {p : Placement} {d : Int} {c : Nat}
    (h : t.place p d = (c, t₁)) :
    (p = .layer c ∧ t₁ = t) ∨ (p = .fresh ∧ c = t.layers.length ∧ t₁ = (t.openLayer d).2) := by
  cases p with
  | layer c' =>
    obtain ⟨h1, h2⟩ := Prod.mk.inj h
    exact Or.inl ⟨by rw [h1], h2.symm⟩
  | fresh =>
    obtain ⟨h1, h2⟩ := Prod.mk.inj h
    exact Or.inr ⟨rfl, h1.symm, h2.symm⟩

/-- A new layer starts when the last one ends, at zero in an empty schedule. -/
theorem openLayer_snd (t : Tracer) (d : Int) : (t.openLayer d).2 = { t with
    layers := t.layers ++ [⟨(t.layers.getLast?.map Layer.stop).getD 0, max t.preferred d, [], none⟩] } := by
  unfold openLayer
  cases t.layers.getLast? <;> rfl

/-- Counting operations one by one in a layer is counting them all at once. -/
theorem foldl_addOp (c : Nat) (ops : List Int) (t : Tracer) :
    ops.foldl (fun t op => t.addOp op c) t =
      { t with layers := t.layers.modify c fun l => ops.foldl Layer.addOp l } := by
  induction ops generalizing t with
  | nil =>
    simp only [List.foldl_nil]
    exact (congrArg (fun ls => { t with layers := ls }) (List.modify_id c t.layers)).symm
  | cons op ops ih =>
    rw [List.foldl_cons, ih]
    simp only [addOp, List.modify_modify_eq]
    rfl

/-- Moving a known qubit into a layer of the schedule: it is placed there, busy until `d` after
its last use or the layer's start, and its held operations are counted in the layer. -/
theorem updateQubit_eq {t : Tracer} {q : Qubit} {c : Nat} {d : Int} {s : QubitState} {l : Layer}
    (hs : t.qubitState? q = some s) (hl : t.layers[c]? = some l) :
    t.updateQubit q c d = s.pending.foldl (fun t op => t.addOp op c) { t with
      qubits := t.qubits.set q.index ⟨some c, max s.lastUsed l.start + d, []⟩ } := by
  simp only [updateQubit, hs, hl]

theorem updateQubit_of_none {t : Tracer} {q : Qubit} {c : Nat} {d : Int}
    (h : t.qubitState? q = none ∨ t.layers[c]? = none) : t.updateQubit q c d = t := by
  rcases h with h | h <;> simp [updateQubit, h]

/-! ### What tracing an operation leaves alone -/

theorem updateQubit_shape (t : Tracer) (q : Qubit) (c : Nat) (d : Int) :
    ∃ qubits layers, t.updateQubit q c d = { t with qubits, layers } := by
  cases hs : t.qubitState? q with
  | none => exact ⟨_, _, updateQubit_of_none (Or.inl hs)⟩
  | some s =>
    cases hl : t.layers[c]? with
    | none => exact ⟨_, _, updateQubit_of_none (Or.inr hl)⟩
    | some l => exact ⟨_, _, by rw [updateQubit_eq hs hl, foldl_addOp]⟩

theorem foldl_updateQubit_shape (c : Nat) (d : Int) :
    ∀ (qs : List Qubit) (t : Tracer),
      ∃ qubits layers, qs.foldl (fun t q => t.updateQubit q c d) t = { t with qubits, layers }
  | [], t => ⟨_, _, rfl⟩
  | q :: qs, t => by
    obtain ⟨qubits, layers, h⟩ := updateQubit_shape t q c d
    obtain ⟨qubits', layers', h'⟩ := foldl_updateQubit_shape c d qs (t.updateQubit q c d)
    exact ⟨qubits', layers', by rw [List.foldl_cons, h', h]⟩

/-- Placing an operation and moving its qubits changes nothing but the qubits and the layers. -/
theorem placeOp_shape {t t₁ : Tracer} {op d : Int} {p : Placement} {c : Nat}
    (hpl : t.place p d = (c, t₁)) (qs : List Qubit) :
    ∃ qubits layers, qs.foldl (fun t q => t.updateQubit q c d) (t₁.addOp op c) =
      { t with qubits, layers } := by
  obtain ⟨qubits, layers, h⟩ := foldl_updateQubit_shape c d qs (t₁.addOp op c)
  refine ⟨qubits, layers, ?_⟩
  rw [h]
  rcases place_cases hpl with ⟨-, rfl⟩ | ⟨-, -, rfl⟩
  · rfl
  · rw [openLayer_snd]
    rfl

/-- An accepted one-qubit trace records the operation and changes nothing else but the qubits
and the layers. -/
theorem traceSingle_shape {t t' : Tracer} {op d : Int} {q : Qubit} {r : Option Nat}
    (h : t.traceSingle op d q = .ok (r, t')) :
    ∃ qubits layers, t' = { t.markSeen op with qubits, layers } := by
  obtain ⟨-, s, -, ⟨-, -, -, rfl⟩ | ⟨-, p, c, t₁, -, hpl, -, rfl⟩⟩ := traceSingle_ok h
  · exact ⟨_, _, rfl⟩
  · exact placeOp_shape hpl [q]

theorem traceMulti_shape {t t' : Tracer} {op d : Int} {cs ts : List Qubit} {r : Option Nat}
    (h : t.traceMulti op d cs ts = .ok (r, t')) :
    ∃ qubits layers, t' = { t.markSeen op with qubits, layers } := by
  obtain ⟨-, first, rest, rfl, ⟨-, -, -, h⟩ | ⟨-, p₀, p, c, t₁, -, -, hpl, -, rfl⟩⟩ :=
    traceMulti_ok h
  · exact traceSingle_shape h
  · exact placeOp_shape hpl _

/-- No request changes the preferred layer duration. -/
theorem step_preferred {t t' : Tracer} {r : TraceRequest} {a : TraceReply}
    (hs : t.step r = .ok (a, t')) : t'.preferred = t.preferred := by
  have hs := step_ok hs
  cases r with
  | allocate => rw [hs.2]; rfl
  | single | measure =>
    obtain ⟨_, hs, -⟩ := hs
    obtain ⟨qubits, layers, rfl⟩ := traceSingle_shape hs
    rfl
  | multi | jointMeasure =>
    obtain ⟨_, hs, -⟩ := hs
    obtain ⟨qubits, layers, rfl⟩ := traceMulti_shape hs
    rfl
  | barrier =>
    obtain ⟨_, hs, -⟩ := hs
    obtain ⟨-, -, rfl⟩ := injectBarrier_ok hs
    rfl
  | pushFence =>
    obtain ⟨_, hs, -⟩ := hs
    obtain ⟨_, _, -, -, -, ⟨-, rfl⟩ | ⟨_, -, rfl⟩⟩ := pushFence_ok hs <;> rfl
  | popFence f => rw [hs.2]; cases f <;> rfl

end Tracer

end QuantumRuntime
