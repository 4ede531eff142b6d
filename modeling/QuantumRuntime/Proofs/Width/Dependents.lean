import Mathlib
import QuantumRuntime.Proofs.Width.Cores

/-!
# The qubit sets of the interference graph

Every operation the interference graph records keeps, for each qubit it depends on, a sorted set
of qubits. Number the recorded operations in order. Operation `j` names operation `p` when `p`
was recorded before it and its id is among the ids `j` depends on (`Names`); an id that was not
yet recorded is passed over. The cone of `j` is everything reachable from `j` by naming, `j`
included (`Cone`); its keys are the qubits of the operations in its cone (`Keys`). The graph keeps
for a key `q` of `j` the qubits of every operation in the cone of `j` that has `q` among its own
keys (`Kept`), and two qubits interfere when an operation has one of them and keeps the other for
one of its qubits.

None of this is visible in one call of `addOperation`, which merges what its named predecessors
kept, widens the sets of the qubits it does not act on and adds edges from its own qubits. Each
stage is described once by what it does to the membership of the sets (`extendSet_spec`,
`addOperation_spec`); the closed form over the whole history is the invariant `Recorded`, which
every call keeps as long as operation ids are not repeated (`Recorded.addOperation`). The main
statement is `dependency_sets`.
-/

namespace QuantumRuntime

/-! ### Sorted qubit sets -/

namespace QubitSet

theorem sorted_insert (q : Nat) {l : List Nat} (h : l.Pairwise (· < ·)) :
    (insert q l).Pairwise (· < ·) := by
  rw [Interference.qubitSet_insert_eq]
  exact SortedList.sorted_insert q h

theorem mem_union {x : Nat} : ∀ {a b : List Nat}, x ∈ union a b ↔ x ∈ a ∨ x ∈ b
  | a, [] => by simp [union]
  | a, q :: b => by
    show x ∈ union (insert q a) b ↔ _
    rw [mem_union, Interference.mem_insert_iff, List.mem_cons]
    tauto

theorem sorted_union {a : List Nat} (h : a.Pairwise (· < ·)) :
    ∀ b : List Nat, (union a b).Pairwise (· < ·)
  | [] => h
  | q :: b => sorted_union (a := insert q a) (sorted_insert q h) b

theorem mem_ofList {x : Nat} {qs : List Nat} : x ∈ ofList qs ↔ x ∈ qs := by
  simp [ofList, mem_union]

theorem sorted_ofList (qs : List Nat) : (ofList qs).Pairwise (· < ·) :=
  sorted_union List.Pairwise.nil qs

/-- A list's distinct qubits, sorted, are as many as its distinct members. -/
theorem length_ofList (qs : List Nat) : (ofList qs).length = qs.toFinset.card := by
  have hset : (ofList qs).toFinset = qs.toFinset := by
    ext x
    simp [mem_ofList]
  rw [← hset, List.toFinset_card_of_nodup (sorted_ofList qs).nodup]

end QubitSet

/-! ### Sets kept qubit by qubit -/

namespace Interference

/-- Each qubit has at most one set, and each set is sorted. -/
structure SetsProper (sets : List (Nat × List Nat)) : Prop where
  nodup : (sets.map Prod.fst).Nodup
  sorted : ∀ e ∈ sets, e.2.Pairwise (· < ·)

/-- `x` belongs to the set kept for qubit `q`. -/
def Holds (sets : List (Nat × List Nat)) (q x : Nat) : Prop := ∃ s, (q, s) ∈ sets ∧ x ∈ s

section Sets

variable {sets : List (Nat × List Nat)} {q p x : Nat}

theorem lookup_eq_some_iff {α : Type} {l : List (Nat × α)} (h : (l.map Prod.fst).Nodup) {a : α} :
    l.lookup q = some a ↔ (q, a) ∈ l := by
  induction l with
  | nil => simp
  | cons e rest ih =>
    obtain ⟨k, b⟩ := e
    simp only [List.map_cons, List.nodup_cons] at h
    rw [List.lookup_cons, List.mem_cons]
    by_cases hqk : q = k
    · subst hqk
      simp only [beq_self_eq_true, Option.some.injEq, Prod.mk.injEq, true_and]
      constructor
      · rintro rfl
        exact .inl rfl
      · rintro (rfl | hmem)
        · rfl
        · exact absurd (List.mem_map.2 ⟨_, hmem, rfl⟩) h.1
    · simp only [beq_false_of_ne hqk, Prod.mk.injEq, hqk, false_and, false_or]
      exact ih h.2

theorem lookup_isSome_iff {α : Type} {l : List (Nat × α)} :
    (l.lookup q).isSome ↔ q ∈ l.map Prod.fst := by
  induction l with
  | nil => simp
  | cons e rest ih =>
    obtain ⟨k, b⟩ := e
    rw [List.lookup_cons, List.map_cons, List.mem_cons]
    by_cases hqk : q = k
    · subst hqk
      simp
    · simp only [beq_false_of_ne hqk, hqk, false_or]
      exact ih

theorem keys_map {f : Nat × List Nat → Nat × List Nat} (hf : ∀ e, (f e).1 = e.1) :
    (sets.map f).map Prod.fst = sets.map Prod.fst := by
  rw [List.map_map]
  exact List.map_congr_left fun e _ => hf e

/-- What a change that keeps every qubit's place holds. -/
theorem holds_map_iff {f : Nat × List Nat → Nat × List Nat} (hf : ∀ e, (f e).1 = e.1) :
    Holds (sets.map f) q x ↔ ∃ t, (q, t) ∈ sets ∧ x ∈ (f (q, t)).2 := by
  simp only [Holds, List.mem_map]
  constructor
  · rintro ⟨s, ⟨⟨k, t⟩, hkt, hfk⟩, hx⟩
    have hk : k = q := by simpa [hfk] using (hf (k, t)).symm
    subst hk
    exact ⟨t, hkt, by rw [hfk]; exact hx⟩
  · rintro ⟨t, hqt, hx⟩
    exact ⟨(f (q, t)).2, ⟨(q, t), hqt, Prod.ext (hf _) rfl⟩, hx⟩

@[simp] theorem holds_nil : Holds [] q x ↔ False := by simp [Holds]

theorem mem_keys_of_holds (h : Holds sets q x) : q ∈ sets.map Prod.fst := by
  obtain ⟨s, hs, -⟩ := h
  exact List.mem_map.2 ⟨_, hs, rfl⟩

/-- `sets'` is `sets` with the keys `K` added, and `x` added to the set of `p` whenever `V p x`. -/
structure Extends (sets sets' : List (Nat × List Nat)) (K : Nat → Prop) (V : Nat → Nat → Prop) :
    Prop where
  proper : SetsProper sets'
  keys : ∀ p, p ∈ sets'.map Prod.fst ↔ p ∈ sets.map Prod.fst ∨ K p
  holds : ∀ p x, Holds sets' p x ↔ Holds sets p x ∨ V p x

theorem Extends.trans {sets' sets'' : List (Nat × List Nat)} {K K' : Nat → Prop}
    {V V' : Nat → Nat → Prop} (h : Extends sets sets' K V) (h' : Extends sets' sets'' K' V') :
    Extends sets sets'' (fun p => K p ∨ K' p) (fun p x => V p x ∨ V' p x) where
  proper := h'.proper
  keys p := by rw [h'.keys, h.keys, or_assoc]
  holds p x := by rw [h'.holds, h.holds, or_assoc]

theorem Extends.congr {sets' : List (Nat × List Nat)} {K K' : Nat → Prop} {V V' : Nat → Nat → Prop}
    (h : Extends sets sets' K V) (hK : ∀ p, K p ↔ K' p) (hV : ∀ p x, V p x ↔ V' p x) :
    Extends sets sets' K' V' where
  proper := h.proper
  keys p := by rw [h.keys, hK]
  holds p x := by rw [h.holds, hV]

theorem extendSet_of_lookup_some {s : List Nat} (hs : sets.lookup q = some s) (qs : List Nat) :
    extendSet sets q qs = sets.map fun e => if e.1 = q then (e.1, QubitSet.union s qs) else e := by
  unfold extendSet
  rw [hs]

theorem extendSet_of_lookup_none (hs : sets.lookup q = none) (qs : List Nat) :
    extendSet sets q qs = sets ++ [(q, QubitSet.ofList qs)] := by
  unfold extendSet
  rw [hs]

/-- Adding qubits to the set of one qubit: the set is widened if the qubit has one, and created
otherwise. -/
theorem extendSet_spec (h : SetsProper sets) (q : Nat) (qs : List Nat) :
    Extends sets (extendSet sets q qs) (· = q) fun p x => p = q ∧ x ∈ qs := by
  cases hs : sets.lookup q with
  | some s =>
    -- the qubit has a set `s`: it is replaced by its union with `qs`, and nothing else changes
    rw [extendSet_of_lookup_some hs]
    have hf : ∀ e : Nat × List Nat,
        (if e.1 = q then (e.1, QubitSet.union s qs) else e).1 = e.1 := by
      intro e
      split <;> rfl
    have hmem : (q, s) ∈ sets := (lookup_eq_some_iff h.nodup).1 hs
    have hq : q ∈ sets.map Prod.fst := List.mem_map.2 ⟨_, hmem, rfl⟩
    have hunique : ∀ t, (q, t) ∈ sets → t = s := fun t ht =>
      Option.some.inj (((lookup_eq_some_iff h.nodup).2 ht).symm.trans hs)
    refine ⟨⟨by rw [keys_map hf]; exact h.nodup, fun e he => ?_⟩, fun p => ?_, fun p x => ?_⟩
    · obtain ⟨e', he', rfl⟩ := List.mem_map.1 he
      by_cases hk : e'.1 = q
      · simpa [hk] using QubitSet.sorted_union (h.sorted _ hmem) qs
      · simpa [hk] using h.sorted e' he'
    · rw [keys_map hf]
      constructor
      · exact .inl
      · rintro (hp | rfl)
        · exact hp
        · exact hq
    · rw [holds_map_iff hf]
      by_cases hp : p = q
      · subst hp
        simp only [if_true, QubitSet.mem_union, true_and]
        constructor
        · rintro ⟨t, -, hx | hx⟩
          · exact .inl ⟨s, hmem, hx⟩
          · exact .inr hx
        · rintro (⟨t, ht, hx⟩ | hx)
          · exact ⟨t, ht, .inl (hunique t ht ▸ hx)⟩
          · exact ⟨s, hmem, .inr hx⟩
      · simp only [hp, if_false, false_and, or_false]
        rfl
  | none =>
    -- the qubit has no set yet: one is appended
    rw [extendSet_of_lookup_none hs]
    have hq : q ∉ sets.map Prod.fst := fun hq =>
      by simpa [hs] using (lookup_isSome_iff (l := sets)).2 hq
    refine ⟨⟨?_, fun e he => ?_⟩, fun p => ?_, fun p x => ?_⟩
    · rw [List.map_append, List.map_singleton, List.nodup_append]
      exact ⟨h.nodup, List.nodup_singleton _, fun a ha b hb => by
        rw [List.mem_singleton.1 hb]
        exact fun hab => hq (by simpa [hab] using ha)⟩
    · rcases List.mem_append.1 he with he | he
      · exact h.sorted e he
      · rw [List.mem_singleton.1 he]
        exact QubitSet.sorted_ofList qs
    · simp
    · simp only [Holds, List.mem_append, List.mem_singleton, Prod.mk.injEq]
      constructor
      · rintro ⟨t, ht | ⟨rfl, rfl⟩, hx⟩
        · exact .inl ⟨t, ht, hx⟩
        · exact .inr ⟨rfl, QubitSet.mem_ofList.1 hx⟩
      · rintro (⟨t, ht, hx⟩ | ⟨rfl, hx⟩)
        · exact ⟨t, .inl ht, hx⟩
        · exact ⟨_, .inr ⟨rfl, rfl⟩, QubitSet.mem_ofList.2 hx⟩

/-- Merging kept sets one after another. -/
theorem foldl_extendSet_spec :
    ∀ (l : List (Nat × List Nat)) {sets : List (Nat × List Nat)}, SetsProper sets →
      Extends sets (l.foldl (fun sets e => extendSet sets e.1 e.2) sets) (· ∈ l.map Prod.fst)
        (Holds l)
  | [], _, h => ⟨h, by simp, by simp [Holds]⟩
  | e :: l, sets, h => by
    have hfirst := extendSet_spec h e.1 e.2
    refine (hfirst.trans (foldl_extendSet_spec l hfirst.proper)).congr (fun p => ?_) fun p x => ?_
    · simp
    · obtain ⟨q, qs⟩ := e
      simp only [Holds, List.mem_cons, Prod.mk.injEq]
      constructor
      · rintro (⟨rfl, hx⟩ | ⟨s, hs, hx⟩)
        · exact ⟨qs, .inl ⟨rfl, rfl⟩, hx⟩
        · exact ⟨s, .inr hs, hx⟩
      · rintro ⟨s, ⟨rfl, rfl⟩ | hs, hx⟩
        · exact .inl ⟨rfl, hx⟩
        · exact .inr ⟨s, hs, hx⟩

end Sets

/-! ### One recorded operation, stage by stage -/

/-- The sets an operation on the distinct qubits `qs` starts from: all of `qs` for each of them. -/
def ownSets (qs : List Nat) : List (Nat × List Nat) :=
  qs.foldl (fun sets q => extendSet sets q qs) []

/-- Merges into `sets` what every recorded operation among `dependsOn` kept; an id that is not
recorded is passed over. -/
def mergeNamed (g : Interference) (dependsOn : List Nat) (sets : List (Nat × List Nat)) :
    List (Nat × List Nat) :=
  dependsOn.foldl (fun sets earlier =>
    match g.operations.lookup earlier with
    | some earlierSets => earlierSets.foldl (fun sets e => extendSet sets e.1 e.2) sets
    | none => sets) sets

/-- Adds the qubits `qs` to the set of every qubit outside `qs`. -/
def widen (qs : List Nat) (sets : List (Nat × List Nat)) : List (Nat × List Nat) :=
  sets.map fun e => if qs.contains e.1 then e else (e.1, QubitSet.union e.2 qs)

/-- The sets a new operation on the qubits `qubits`, depending on `dependsOn`, keeps. -/
def newSets (g : Interference) (dependsOn qubits : List Nat) : List (Nat × List Nat) :=
  widen (QubitSet.ofList qubits) (mergeNamed g dependsOn (ownSets (QubitSet.ofList qubits)))

/-- Everything kept for some qubit of `qs`. -/
def keptFor (qs : List Nat) (sets : List (Nat × List Nat)) : List Nat :=
  qs.foldl (fun acc q => QubitSet.union acc ((sets.lookup q).getD [])) []

/-- Adds an edge from every qubit of `qs` to every other qubit of `others`. -/
def addEdges (qs others : List Nat) (edges : List (Nat × Nat)) : List (Nat × Nat) :=
  qs.foldl (fun edges q =>
    others.foldl (fun edges o => if q = o then edges else addEdge edges q o) edges) edges

/-- Recording an operation, stage by stage. -/
theorem addOperation_eq (g : Interference) (op : Nat) (dependsOn qubits : List Nat) :
    g.addOperation op dependsOn qubits =
      { operations := g.operations.filter (·.1 != op) ++ [(op, newSets g dependsOn qubits)]
        edges := addEdges (QubitSet.ofList qubits)
          (keptFor (QubitSet.ofList qubits) (newSets g dependsOn qubits)) g.edges
        maxArity := max g.maxArity (QubitSet.ofList qubits).length } := rfl

section Stages

variable {g : Interference} {sets : List (Nat × List Nat)}

theorem foldl_extendSet_own (qs : List Nat) :
    ∀ (l : List Nat) {sets : List (Nat × List Nat)}, SetsProper sets →
      Extends sets (l.foldl (fun sets q => extendSet sets q qs) sets) (· ∈ l)
        fun p x => p ∈ l ∧ x ∈ qs
  | [], _, h => ⟨h, by simp, by simp⟩
  | q :: l, sets, h => by
    have hfirst := extendSet_spec h q qs
    refine (hfirst.trans (foldl_extendSet_own qs l hfirst.proper)).congr (fun p => ?_)
      fun p x => ?_
    · simp
    · simp only [List.mem_cons]
      tauto

/-- An operation starts by keeping all its qubits for each of them. -/
theorem ownSets_spec (qs : List Nat) :
    Extends [] (ownSets qs) (· ∈ qs) fun p x => p ∈ qs ∧ x ∈ qs :=
  foldl_extendSet_own qs qs ⟨List.nodup_nil, fun _ he => absurd he List.not_mem_nil⟩

/-- Then it merges what each recorded operation it depends on kept. -/
theorem mergeNamed_spec (dependsOn : List Nat) :
    ∀ {sets : List (Nat × List Nat)}, SetsProper sets →
      Extends sets (mergeNamed g dependsOn sets)
        (fun p => ∃ e ∈ dependsOn, ∃ es, g.operations.lookup e = some es ∧ p ∈ es.map Prod.fst)
        fun p x => ∃ e ∈ dependsOn, ∃ es, g.operations.lookup e = some es ∧ Holds es p x := by
  induction dependsOn with
  | nil =>
    intro sets h
    simp only [mergeNamed, List.foldl_nil]
    exact ⟨h, by simp, by simp⟩
  | cons e rest ih =>
    intro sets h
    unfold mergeNamed
    rw [List.foldl_cons]
    cases hes : g.operations.lookup e with
    | none =>
      -- an operation that was not recorded adds nothing
      refine (ih h).congr (fun p => ?_) fun p x => ?_ <;> simp [hes]
    | some es =>
      have hfirst := foldl_extendSet_spec es h
      refine (hfirst.trans (ih hfirst.proper)).congr (fun p => ?_) fun p x => ?_
      · simp only [List.mem_cons, exists_eq_or_imp, hes, Option.some.injEq, exists_eq_left']
      · simp only [List.mem_cons, exists_eq_or_imp, hes, Option.some.injEq, exists_eq_left']

/-- Then it adds its own qubits to the set of every other qubit. -/
theorem widen_spec (qs : List Nat) (h : SetsProper sets) :
    Extends sets (widen qs sets) (fun _ => False)
      fun p x => p ∈ sets.map Prod.fst ∧ p ∉ qs ∧ x ∈ qs := by
  have hf : ∀ e : Nat × List Nat,
      (if qs.contains e.1 then e else (e.1, QubitSet.union e.2 qs)).1 = e.1 := by
    intro e
    by_cases he : e.1 ∈ qs <;> simp [he]
  refine ⟨⟨by rw [widen, keys_map hf]; exact h.nodup, fun e he => ?_⟩, fun p => by rw [widen, keys_map hf, or_false],
    fun p x => ?_⟩
  · obtain ⟨e', he', rfl⟩ := List.mem_map.1 he
    by_cases hq : e'.1 ∈ qs
    · simpa [hq] using h.sorted e' he'
    · simpa [hq] using QubitSet.sorted_union (h.sorted e' he') qs
  · rw [widen, holds_map_iff hf]
    by_cases hq : p ∈ qs
    · simp [Holds, hq]
    · -- outside `qs`, the set of `p` now has `qs` as well
      simp only [List.contains_iff_mem, hq, if_false, QubitSet.mem_union, Holds, not_false_eq_true,
        true_and, List.mem_map]
      constructor
      · rintro ⟨t, hpt, hx | hx⟩
        · exact .inl ⟨t, hpt, hx⟩
        · exact .inr ⟨⟨(p, t), hpt, rfl⟩, hx⟩
      · rintro (⟨t, hpt, hx⟩ | ⟨⟨⟨k, t⟩, hkt, rfl⟩, hx⟩)
        · exact ⟨t, hpt, .inl hx⟩
        · exact ⟨t, hkt, .inr hx⟩

/-- What a new operation keeps: its keys are its own qubits and the keys of the recorded
operations it depends on, and for each key it keeps its own qubits and what those operations kept
for the key. -/
theorem newSets_spec (dependsOn qubits : List Nat) :
    SetsProper (newSets g dependsOn qubits) ∧
      (∀ p, p ∈ (newSets g dependsOn qubits).map Prod.fst ↔ p ∈ qubits ∨
        ∃ e ∈ dependsOn, ∃ es, g.operations.lookup e = some es ∧ p ∈ es.map Prod.fst) ∧
      ∀ p x, Holds (newSets g dependsOn qubits) p x ↔
        p ∈ (newSets g dependsOn qubits).map Prod.fst ∧
          (x ∈ qubits ∨ ∃ e ∈ dependsOn, ∃ es, g.operations.lookup e = some es ∧ Holds es p x) := by
  unfold newSets
  have hmid := (ownSets_spec (QubitSet.ofList qubits)).trans
    (mergeNamed_spec (g := g) dependsOn (ownSets_spec _).proper)
  have hall := hmid.trans (widen_spec (QubitSet.ofList qubits) hmid.proper)
  refine ⟨hall.proper, fun p => ?_, fun p x => ?_⟩
  · rw [hall.keys]
    simp [QubitSet.mem_ofList]
  · rw [hall.holds, hall.keys, hmid.keys]
    -- what a predecessor kept for `p` makes `p` one of its keys
    have hkey : (∃ e ∈ dependsOn, ∃ es, g.operations.lookup e = some es ∧ Holds es p x) →
        ∃ e ∈ dependsOn, ∃ es, g.operations.lookup e = some es ∧ p ∈ es.map Prod.fst := by
      rintro ⟨e, he, es, hes, hh⟩
      exact ⟨e, he, es, hes, mem_keys_of_holds hh⟩
    simp only [QubitSet.mem_ofList, holds_nil, List.map_nil, List.not_mem_nil, false_or, or_false]
    generalize (∃ e ∈ dependsOn, ∃ es, g.operations.lookup e = some es ∧ Holds es p x) = kept at *
    generalize (∃ e ∈ dependsOn, ∃ es, g.operations.lookup e = some es ∧ p ∈ es.map Prod.fst) =
      named at *
    tauto

/-- A qubit's kept set, read by lookup. -/
theorem holds_iff_lookup (h : (sets.map Prod.fst).Nodup) {q x : Nat} :
    Holds sets q x ↔ x ∈ (sets.lookup q).getD [] := by
  cases hl : sets.lookup q with
  | none =>
    have hq : q ∉ sets.map Prod.fst := fun hq => by
      simpa [hl] using (lookup_isSome_iff (l := sets)).2 hq
    simp only [Option.getD_none, List.not_mem_nil, iff_false]
    exact fun hh => hq (mem_keys_of_holds hh)
  | some s =>
    have hmem := (lookup_eq_some_iff h).1 hl
    rw [Option.getD_some]
    constructor
    · rintro ⟨t, ht, hx⟩
      have hts : t = s := Option.some.inj (((lookup_eq_some_iff h).2 ht).symm.trans hl)
      rwa [← hts]
    · exact fun hx => ⟨s, hmem, hx⟩

theorem mem_keptFor (h : (sets.map Prod.fst).Nodup) (qs : List Nat) {x : Nat} :
    x ∈ keptFor qs sets ↔ ∃ q ∈ qs, Holds sets q x := by
  suffices hacc : ∀ (l acc : List Nat), x ∈ l.foldl (fun acc q =>
      QubitSet.union acc ((sets.lookup q).getD [])) acc ↔ x ∈ acc ∨ ∃ q ∈ l, Holds sets q x by
    simpa [keptFor] using hacc qs []
  intro l
  induction l with
  | nil => simp
  | cons q l ih =>
    intro acc
    rw [List.foldl_cons, ih, QubitSet.mem_union, ← holds_iff_lookup h]
    simp only [List.mem_cons, exists_eq_or_imp]
    tauto

theorem mem_addEdge {edges : List (Nat × Nat)} {a b : Nat} {e : Nat × Nat} :
    e ∈ addEdge edges a b ↔ e ∈ edges ∨ e = (min a b, max a b) := by
  unfold addEdge
  dsimp only
  split
  · next hc =>
    refine ⟨.inl, fun h => h.elim id fun he => ?_⟩
    rw [he]
    exact List.contains_iff_mem.1 hc
  · simp

theorem mem_addEdges {e : Nat × Nat} (qs others : List Nat) :
    ∀ {edges : List (Nat × Nat)}, e ∈ addEdges qs others edges ↔
      e ∈ edges ∨ ∃ q ∈ qs, ∃ o ∈ others, q ≠ o ∧ e = (min q o, max q o) := by
  -- the inner loop adds the edges from one qubit
  have hinner : ∀ (q : Nat) (l : List Nat) (edges : List (Nat × Nat)),
      e ∈ l.foldl (fun edges o => if q = o then edges else addEdge edges q o) edges ↔
        e ∈ edges ∨ ∃ o ∈ l, q ≠ o ∧ e = (min q o, max q o) := by
    intro q l
    induction l with
    | nil => simp
    | cons o l ih =>
      intro edges
      rw [List.foldl_cons, ih]
      by_cases hqo : q = o
      · simp only [hqo, if_true, List.mem_cons, exists_eq_or_imp, ne_eq, not_true_eq_false,
          false_and, false_or]
      · simp only [hqo, if_false, mem_addEdge, List.mem_cons, exists_eq_or_imp, ne_eq,
          not_false_eq_true, true_and]
        tauto
  induction qs with
  | nil => simp [addEdges]
  | cons q qs ih =>
    intro edges
    unfold addEdges at ih ⊢
    rw [List.foldl_cons, ih, hinner]
    simp only [List.mem_cons, exists_eq_or_imp]
    exact or_assoc

theorem minmax_eq_iff {a b c d : Nat} :
    (min a b, max a b) = (min c d, max c d) ↔ (a = c ∧ b = d) ∨ (a = d ∧ b = c) := by
  simp only [Prod.mk.injEq]
  omega

/-- Recording an operation: it keeps `newSets`, it joins each of its qubits to every other qubit
kept for one of its qubits, and the largest arity takes in its number of distinct qubits. -/
theorem addOperation_spec (g : Interference) (op : Nat) (dependsOn qubits : List Nat) :
    (g.addOperation op dependsOn qubits).operations =
        g.operations.filter (·.1 != op) ++ [(op, newSets g dependsOn qubits)] ∧
      (∀ a b, (min a b, max a b) ∈ (g.addOperation op dependsOn qubits).edges ↔
        (min a b, max a b) ∈ g.edges ∨ a ≠ b ∧
          ((a ∈ qubits ∧ ∃ q ∈ qubits, Holds (newSets g dependsOn qubits) q b) ∨
            (b ∈ qubits ∧ ∃ q ∈ qubits, Holds (newSets g dependsOn qubits) q a))) ∧
      (g.addOperation op dependsOn qubits).maxArity = max g.maxArity qubits.toFinset.card := by
  rw [addOperation_eq]
  refine ⟨rfl, fun a b => ?_, by simp only [QubitSet.length_ofList]⟩
  have hnodup := (newSets_spec (g := g) dependsOn qubits).1.nodup
  simp only [mem_addEdges, mem_keptFor hnodup, QubitSet.mem_ofList, minmax_eq_iff]
  refine or_congr_right ⟨?_, ?_⟩
  · rintro ⟨q, hq, o, ⟨q', hq', ho⟩, hqo, (⟨rfl, rfl⟩ | ⟨rfl, rfl⟩)⟩
    · exact ⟨hqo, .inl ⟨hq, q', hq', ho⟩⟩
    · exact ⟨Ne.symm hqo, .inr ⟨hq, q', hq', ho⟩⟩
  · rintro ⟨hab, ⟨ha, q', hq', hb⟩ | ⟨hb, q', hq', ha⟩⟩
    · exact ⟨a, ha, b, ⟨q', hq', hb⟩, hab, .inl ⟨rfl, rfl⟩⟩
    · exact ⟨b, hb, a, ⟨q', hq', ha⟩, Ne.symm hab, .inr ⟨rfl, rfl⟩⟩

end Stages

/-! ### The history of recorded operations -/

/-- Operation `j` names operation `p`: `p` was recorded before it, and its id is among the ids `j`
depends on. -/
def Names (ops : List Operation) (j p : Nat) : Prop :=
  p < j ∧ ∃ oj ∈ ops[j]?, ∃ op ∈ ops[p]?, op.id ∈ oj.dependsOn

/-- Operation `p` is in the cone of operation `j`: reachable from it by naming, `j` included. -/
def Cone (ops : List Operation) (j p : Nat) : Prop := Relation.ReflTransGen (Names ops) j p

/-- The qubits of operation `p`; none past the end. -/
def qubitsAt (ops : List Operation) (p : Nat) : List Nat := (ops[p]?.map (·.qubits)).getD []

/-- The keys of operation `j`: the qubits of the operations in its cone. -/
def Keys (ops : List Operation) (j q : Nat) : Prop := ∃ p, Cone ops j p ∧ q ∈ qubitsAt ops p

/-- What operation `j` keeps for its key `q`: the qubits of every operation in its cone that has
`q` among its own keys. -/
def Kept (ops : List Operation) (j q x : Nat) : Prop :=
  ∃ p, Cone ops j p ∧ Keys ops p q ∧ x ∈ qubitsAt ops p

/-- Operation `j` has one of the qubits `a`, `b` and keeps the other for one of its qubits. -/
def Joins (ops : List Operation) (j a b : Nat) : Prop :=
  (a ∈ qubitsAt ops j ∧ ∃ q ∈ qubitsAt ops j, Kept ops j q b) ∨
    (b ∈ qubitsAt ops j ∧ ∃ q ∈ qubitsAt ops j, Kept ops j q a)

section History

variable {ops : List Operation} {o : Operation} {j p q x : Nat}

theorem Names.lt_length (h : Names ops j p) : j < ops.length := by
  obtain ⟨-, oj, hoj, -⟩ := h
  exact (List.getElem?_eq_some_iff.1 hoj).1

theorem Cone.le (h : Cone ops j p) : p ≤ j := by
  induction h with
  | refl => exact le_rfl
  | tail _ hnames ih => exact le_trans (Nat.le_of_lt hnames.1) ih

/-- The keys of an operation in the cone are keys. -/
theorem Keys.of_cone (hc : Cone ops j p) (hk : Keys ops p q) : Keys ops j q := by
  obtain ⟨r, hr, hq⟩ := hk
  exact ⟨r, hc.trans hr, hq⟩

theorem Kept.keys (h : Kept ops j q x) : Keys ops j q := by
  obtain ⟨p, hc, hk, -⟩ := h
  exact hk.of_cone hc

theorem qubitsAt_eq_nil (hj : ops.length ≤ j) : qubitsAt ops j = [] := by
  simp [qubitsAt, List.getElem?_eq_none hj]

theorem qubitsAt_append_of_lt (hp : p < ops.length) : qubitsAt (ops ++ [o]) p = qubitsAt ops p := by
  simp [qubitsAt, List.getElem?_append_left hp]

theorem qubitsAt_append_length : qubitsAt (ops ++ [o]) ops.length = o.qubits := by
  simp [qubitsAt]

theorem names_append_of_lt (hj : j < ops.length) : Names (ops ++ [o]) j p ↔ Names ops j p := by
  unfold Names
  constructor
  · rintro ⟨hpj, hrest⟩
    rw [List.getElem?_append_left hj, List.getElem?_append_left (by omega)] at hrest
    exact ⟨hpj, hrest⟩
  · rintro ⟨hpj, hrest⟩
    refine ⟨hpj, ?_⟩
    rwa [List.getElem?_append_left hj, List.getElem?_append_left (by omega)]

theorem names_append_length :
    Names (ops ++ [o]) ops.length p ↔ p < ops.length ∧ ∃ op ∈ ops[p]?, op.id ∈ o.dependsOn := by
  unfold Names
  constructor
  · rintro ⟨hp, oj, hoj, hrest⟩
    rw [List.getElem?_append_left hp] at hrest
    simp only [List.getElem?_append_right le_rfl, Nat.sub_self, List.getElem?_cons_zero,
      Option.mem_def, Option.some.injEq] at hoj
    subst hoj
    exact ⟨hp, hrest⟩
  · rintro ⟨hp, hrest⟩
    refine ⟨hp, o, by simp, ?_⟩
    rwa [List.getElem?_append_left hp]

/-- A cone of an earlier operation does not see a later one. -/
theorem cone_append_of_lt (hj : j < ops.length) : Cone (ops ++ [o]) j p ↔ Cone ops j p := by
  constructor
  · intro h
    -- every step of a chain from an earlier operation stays among the earlier ones
    induction h using Relation.ReflTransGen.head_induction_on with
    | refl => exact .refl
    | head hnames _ ih =>
      have hnames' := (names_append_of_lt hj).1 hnames
      exact .head hnames' (ih (lt_trans hnames'.1 hj))
  · intro h
    exact Relation.ReflTransGen.mono (fun a b hab => (names_append_of_lt hab.lt_length).2 hab) j p h

theorem cone_append_length :
    Cone (ops ++ [o]) ops.length p ↔
      p = ops.length ∨ ∃ m, Names (ops ++ [o]) ops.length m ∧ Cone ops m p := by
  unfold Cone
  rw [Relation.ReflTransGen.cases_head_iff]
  refine or_congr eq_comm (exists_congr fun m => and_congr_right fun hm => ?_)
  exact cone_append_of_lt hm.1

theorem keys_append_of_lt (hj : j < ops.length) : Keys (ops ++ [o]) j q ↔ Keys ops j q := by
  unfold Keys
  refine exists_congr fun p => ?_
  constructor
  · rintro ⟨hc, hq⟩
    have hp := lt_of_le_of_lt ((cone_append_of_lt hj).1 hc).le hj
    exact ⟨(cone_append_of_lt hj).1 hc, by rwa [qubitsAt_append_of_lt hp] at hq⟩
  · rintro ⟨hc, hq⟩
    exact ⟨(cone_append_of_lt hj).2 hc, by rwa [qubitsAt_append_of_lt (lt_of_le_of_lt hc.le hj)]⟩

theorem kept_append_of_lt (hj : j < ops.length) : Kept (ops ++ [o]) j q x ↔ Kept ops j q x := by
  unfold Kept
  refine exists_congr fun p => ?_
  constructor
  · rintro ⟨hc, hk, hx⟩
    have hc' := (cone_append_of_lt hj).1 hc
    have hp := lt_of_le_of_lt hc'.le hj
    exact ⟨hc', (keys_append_of_lt hp).1 hk, by rwa [qubitsAt_append_of_lt hp] at hx⟩
  · rintro ⟨hc, hk, hx⟩
    have hp := lt_of_le_of_lt hc.le hj
    exact ⟨(cone_append_of_lt hj).2 hc, (keys_append_of_lt hp).2 hk,
      by rwa [qubitsAt_append_of_lt hp]⟩

/-- The keys of a new operation: its own qubits and the keys of the operations it names. -/
theorem keys_append_length :
    Keys (ops ++ [o]) ops.length q ↔
      q ∈ o.qubits ∨ ∃ m, Names (ops ++ [o]) ops.length m ∧ Keys ops m q := by
  unfold Keys
  simp only [cone_append_length]
  constructor
  · rintro ⟨p, rfl | ⟨m, hm, hc⟩, hq⟩
    · exact .inl (by rwa [qubitsAt_append_length] at hq)
    · have hp := lt_of_le_of_lt hc.le hm.1
      exact .inr ⟨m, hm, p, hc, by rwa [qubitsAt_append_of_lt hp] at hq⟩
  · rintro (hq | ⟨m, hm, p, hc, hq⟩)
    · exact ⟨ops.length, .inl rfl, by rwa [qubitsAt_append_length]⟩
    · exact ⟨p, .inr ⟨m, hm, hc⟩, by rwa [qubitsAt_append_of_lt (lt_of_le_of_lt hc.le hm.1)]⟩

/-- What a new operation keeps for one of its keys: its own qubits and what the operations it
names keep for the key. -/
theorem kept_append_length :
    Kept (ops ++ [o]) ops.length q x ↔ Keys (ops ++ [o]) ops.length q ∧
      (x ∈ o.qubits ∨ ∃ m, Names (ops ++ [o]) ops.length m ∧ Kept ops m q x) := by
  constructor
  · intro hkept
    refine ⟨hkept.keys, ?_⟩
    obtain ⟨p, hc, hk, hx⟩ := hkept
    rcases cone_append_length.1 hc with rfl | ⟨m, hm, hc'⟩
    · exact .inl (by rwa [qubitsAt_append_length] at hx)
    · have hp := lt_of_le_of_lt hc'.le hm.1
      exact .inr ⟨m, hm, p, hc', (keys_append_of_lt hp).1 hk,
        by rwa [qubitsAt_append_of_lt hp] at hx⟩
  · rintro ⟨hk, hx | ⟨m, hm, p, hc, hkp, hx⟩⟩
    · exact ⟨ops.length, .refl, hk, by rwa [qubitsAt_append_length]⟩
    · have hp := lt_of_le_of_lt hc.le hm.1
      refine ⟨p, cone_append_length.2 (.inr ⟨m, hm, hc⟩), (keys_append_of_lt hp).2 hkp, ?_⟩
      rwa [qubitsAt_append_of_lt hp]

theorem not_joins_of_le {a b : Nat} (hj : ops.length ≤ j) : ¬Joins ops j a b := by
  simp [Joins, qubitsAt_eq_nil hj]

theorem joins_append_of_lt {a b : Nat} (hj : j < ops.length) :
    Joins (ops ++ [o]) j a b ↔ Joins ops j a b := by
  simp only [Joins, qubitsAt_append_of_lt hj, kept_append_of_lt hj]

theorem joins_append_length {a b : Nat} :
    Joins (ops ++ [o]) ops.length a b ↔
      (a ∈ o.qubits ∧ ∃ q ∈ o.qubits, Kept (ops ++ [o]) ops.length q b) ∨
        (b ∈ o.qubits ∧ ∃ q ∈ o.qubits, Kept (ops ++ [o]) ops.length q a) := by
  simp only [Joins, qubitsAt_append_length]

end History

/-! ### The invariant -/

/-- What the graph holds after recording the operations `ops`, in order: one entry per operation,
in order and under its id, keeping exactly `Kept` for exactly its `Keys`; an edge between two
distinct qubits exactly when some operation has one of them and keeps the other for one of its
qubits; and the largest number of distinct qubits of an operation. -/
structure Recorded (ops : List Operation) (g : Interference) : Prop where
  ids : g.operations.map Prod.fst = ops.map (·.id)
  sets : ∀ j e, g.operations[j]? = some e →
    SetsProper e.2 ∧ (∀ q, q ∈ e.2.map Prod.fst ↔ Keys ops j q) ∧ ∀ q x, Holds e.2 q x ↔ Kept ops j q x
  edges : ∀ a b, (min a b, max a b) ∈ g.edges ↔ a ≠ b ∧ ∃ j, Joins ops j a b
  maxArity : g.maxArity = ops.toFinset.sup fun o => o.qubits.toFinset.card

section Invariant

variable {ops : List Operation} {o : Operation} {g : Interference}

theorem recorded_nil : Recorded [] {} where
  ids := rfl
  sets _ _ he := by simp at he
  edges _ _ := by simp [Joins, qubitsAt]
  maxArity := rfl

/-- With distinct ids, the sets recorded under an id are those of the operation with that id. -/
theorem Recorded.lookup_iff (h : Recorded ops g) (hids : (ops.map (·.id)).Nodup) {e : Nat}
    {es : List (Nat × List Nat)} :
    g.operations.lookup e = some es ↔
      ∃ m : Nat, ∃ om : Operation, ops[m]? = some om ∧ om.id = e ∧
        g.operations[m]? = some (e, es) := by
  rw [lookup_eq_some_iff (h.ids ▸ hids), List.mem_iff_getElem?]
  constructor
  · rintro ⟨m, hm⟩
    have hid : (g.operations.map Prod.fst)[m]? = some e := by simp [hm]
    rw [h.ids, List.getElem?_map, Option.map_eq_some_iff] at hid
    obtain ⟨om, hom, rfl⟩ := hid
    exact ⟨m, om, hom, rfl, hm⟩
  · rintro ⟨m, -, -, -, hm⟩
    exact ⟨m, hm⟩

/-- The entry of a recorded operation is under its id. -/
theorem Recorded.entry (h : Recorded ops g) {m : Nat} {om : Operation} (hom : ops[m]? = some om) :
    ∃ es, g.operations[m]? = some (om.id, es) := by
  have hlen : m < g.operations.length := by
    simpa [← List.length_map (f := Prod.fst), h.ids] using (List.getElem?_eq_some_iff.1 hom).1
  obtain ⟨e', he'⟩ : ∃ e', g.operations[m]? = some e' := ⟨_, List.getElem?_eq_getElem hlen⟩
  have hid : e'.1 = om.id := by
    have hfst : (g.operations.map Prod.fst)[m]? = (ops.map (·.id))[m]? := by rw [h.ids]
    rw [List.getElem?_map, List.getElem?_map, he', hom] at hfst
    exact Option.some.inj hfst
  exact ⟨e'.2, by rw [he', ← hid]⟩

/-- What a new operation merges from the operations it depends on, read off the history: the
recorded ones among them are exactly the operations it names. -/
theorem Recorded.exists_named (h : Recorded ops g) (hids : (ops.map (·.id)).Nodup)
    {P : List (Nat × List Nat) → Prop} {Q : Nat → Prop}
    (hPQ : ∀ m e, g.operations[m]? = some e → (P e.2 ↔ Q m)) :
    (∃ e ∈ o.dependsOn, ∃ es, g.operations.lookup e = some es ∧ P es) ↔
      ∃ m, Names (ops ++ [o]) ops.length m ∧ Q m := by
  simp only [names_append_length]
  constructor
  · rintro ⟨e, he, es, hes, hP⟩
    obtain ⟨m, om, hom, rfl, hm⟩ := (h.lookup_iff hids).1 hes
    exact ⟨m, ⟨(List.getElem?_eq_some_iff.1 hom).1, om, hom, he⟩, (hPQ m _ hm).1 hP⟩
  · rintro ⟨m, ⟨-, om, hom, he⟩, hQ⟩
    obtain ⟨es, hes⟩ := h.entry hom
    exact ⟨om.id, he, es, (h.lookup_iff hids).2 ⟨m, om, hom, rfl, hes⟩, (hPQ m _ hes).2 hQ⟩

theorem exists_index_append {n : Nat} {F F' : Nat → Prop} (hlt : ∀ j < n, F' j ↔ F j)
    (hge : ∀ j, n ≤ j → ¬F j) (hgt : ∀ j, n < j → ¬F' j) :
    (∃ j, F' j) ↔ (∃ j, F j) ∨ F' n := by
  constructor
  · rintro ⟨j, hj⟩
    rcases Nat.lt_trichotomy j n with hlt' | rfl | hgt'
    · exact .inl ⟨j, (hlt j hlt').1 hj⟩
    · exact .inr hj
    · exact absurd hj (hgt j hgt')
  · rintro (⟨j, hj⟩ | hn)
    · have hjn : j < n := Nat.lt_of_not_le fun hle => hge j hle hj
      exact ⟨j, (hlt j hjn).2 hj⟩
    · exact ⟨n, hn⟩

/-- Recording an operation with a new id keeps the invariant. -/
theorem Recorded.addOperation (h : Recorded ops g) (hids : (ops.map (·.id)).Nodup)
    (hfresh : o.id ∉ ops.map (·.id)) :
    Recorded (ops ++ [o]) (g.addOperation o.id o.dependsOn o.qubits) := by
  obtain ⟨hops, hedges, harity⟩ := addOperation_spec g o.id o.dependsOn o.qubits
  obtain ⟨hproper, hkeys, hholds⟩ := newSets_spec (g := g) o.dependsOn o.qubits
  -- no entry has the new id, so none is dropped
  have hfilter : g.operations.filter (·.1 != o.id) = g.operations := by
    refine List.filter_eq_self.2 fun e he => ?_
    have hmem : e.1 ∈ ops.map (·.id) := h.ids ▸ List.mem_map.2 ⟨e, he, rfl⟩
    simp only [bne_iff_ne, ne_eq]
    intro heq
    exact hfresh (heq ▸ hmem)
  rw [hfilter] at hops
  have hlen : g.operations.length = ops.length := by
    simpa using congrArg List.length h.ids
  -- the sets of the new operation, in terms of the history
  have hkeys' : ∀ q, q ∈ (newSets g o.dependsOn o.qubits).map Prod.fst ↔
      Keys (ops ++ [o]) ops.length q := by
    intro q
    rw [hkeys, keys_append_length, h.exists_named hids fun m e he => (h.sets m e he).2.1 q]
  have hholds' : ∀ q x, Holds (newSets g o.dependsOn o.qubits) q x ↔
      Kept (ops ++ [o]) ops.length q x := by
    intro q x
    rw [hholds, hkeys', kept_append_length,
      h.exists_named hids fun m e he => (h.sets m e he).2.2 q x]
  refine ⟨?_, fun j e he => ?_, fun a b => ?_, ?_⟩
  · rw [hops]
    simp [h.ids]
  · rw [hops] at he
    rcases Nat.lt_trichotomy j ops.length with hj | rfl | hj
    · rw [List.getElem?_append_left (hlen ▸ hj)] at he
      obtain ⟨hp, hk, hh⟩ := h.sets j e he
      exact ⟨hp, fun q => by rw [hk, keys_append_of_lt hj],
        fun q x => by rw [hh, kept_append_of_lt hj]⟩
    · rw [← hlen, List.getElem?_append_right le_rfl, Nat.sub_self, List.getElem?_cons_zero,
        Option.some.injEq] at he
      subst he
      exact ⟨hproper, hkeys', hholds'⟩
    · rw [List.getElem?_eq_none (by simp; omega)] at he
      cases he
  · -- an edge is old, or joins the new operation's qubits to what it keeps
    have hsplit : (∃ j, Joins (ops ++ [o]) j a b) ↔
        (∃ j, Joins ops j a b) ∨ Joins (ops ++ [o]) ops.length a b :=
      exists_index_append (fun j hj => joins_append_of_lt hj) (fun j hj => not_joins_of_le hj)
        fun j hj => not_joins_of_le (by simp; omega)
    rw [hedges, h.edges, hsplit, joins_append_length]
    simp only [hholds']
    exact and_or_left.symm
  · rw [harity, h.maxArity, List.toFinset_append, Finset.sup_union]
    simp [max_comm]

/-- Recording operations with distinct ids, one after another, keeps the invariant. -/
theorem recorded_build (ops : List Operation) (hids : (ops.map (·.id)).Nodup) :
    Recorded ops (build ops) := by
  induction ops using List.reverseRecOn with
  | nil => exact recorded_nil
  | append_singleton ops o ih =>
    rw [List.map_append, List.nodup_append] at hids
    have hfresh : o.id ∉ ops.map (·.id) := fun hmem =>
      hids.2.2 _ hmem _ (List.mem_singleton_self _) rfl
    rw [build, List.foldl_append, List.foldl_cons, List.foldl_nil]
    exact (ih hids.1).addOperation hids.1 hfresh

/-- What the graph keeps for a qubit of a recorded operation, read with `dependents`. -/
theorem Recorded.dependents_spec (h : Recorded ops g) (hids : (ops.map (·.id)).Nodup) {j : Nat}
    (ho : ops[j]? = some o) (q : Nat) :
    ((g.dependents o.id q).isSome ↔ Keys ops j q) ∧
      ∀ l, g.dependents o.id q = some l → l.Pairwise (· < ·) ∧ ∀ x, x ∈ l ↔ Kept ops j q x := by
  obtain ⟨es, hes⟩ := h.entry ho
  obtain ⟨hp, hk, hh⟩ := h.sets j _ hes
  have hdep : g.dependents o.id q = es.lookup q := by
    simp [Interference.dependents, (h.lookup_iff hids).2 ⟨j, o, ho, rfl, hes⟩]
  rw [hdep]
  refine ⟨by rw [lookup_isSome_iff, hk], fun l hl =>
    ⟨hp.sorted _ ((lookup_eq_some_iff hp.nodup).1 hl), fun x => ?_⟩⟩
  rw [← hh, holds_iff_lookup hp.nodup, hl, Option.getD_some]

theorem Recorded.kept_iff (h : Recorded ops g) (hids : (ops.map (·.id)).Nodup) {j q x : Nat}
    (ho : ops[j]? = some o) :
    Kept ops j q x ↔ ∃ l, g.dependents o.id q = some l ∧ x ∈ l := by
  obtain ⟨hsome, hmem⟩ := h.dependents_spec hids ho q
  constructor
  · intro hkept
    obtain ⟨l, hl⟩ := Option.isSome_iff_exists.1 (hsome.2 hkept.keys)
    exact ⟨l, hl, ((hmem l hl).2 x).2 hkept⟩
  · rintro ⟨l, hl, hx⟩
    exact ((hmem l hl).2 x).1 hx

end Invariant

/-- The qubit sets of the interference graph in closed form. Record operations with distinct ids
one after another, numbered in order. The graph keeps a set for qubit `q` of operation `j`
exactly when `q` is a key of `j`, a qubit of some operation in its cone; that set is, in strictly
ascending order, the qubits of every operation in the cone of `j` that has `q` among its keys.
Two qubits interfere exactly when they differ and some operation has one of them and keeps the
other for one of its qubits. The largest arity is the largest number of distinct qubits of an
operation. -/
theorem dependency_sets (ops : List Operation) (hids : (ops.map (·.id)).Nodup) :
    let g := build ops
    (∀ j o, ops[j]? = some o → ∀ q,
      ((g.dependents o.id q).isSome ↔ Keys ops j q) ∧
      ∀ l, g.dependents o.id q = some l → l.Pairwise (· < ·) ∧
        ∀ x, x ∈ l ↔ ∃ p, Cone ops j p ∧ Keys ops p q ∧ x ∈ qubitsAt ops p) ∧
    (∀ a b, g.interfere a b = true ↔ a ≠ b ∧ ∃ o ∈ ops,
      (a ∈ o.qubits ∧ ∃ q ∈ o.qubits, ∃ l, g.dependents o.id q = some l ∧ b ∈ l) ∨
        (b ∈ o.qubits ∧ ∃ q ∈ o.qubits, ∃ l, g.dependents o.id q = some l ∧ a ∈ l)) ∧
    g.maxArity = ops.toFinset.sup fun o => o.qubits.toFinset.card := by
  intro g
  have h := recorded_build ops hids
  refine ⟨fun j o ho q => h.dependents_spec hids ho q, fun a b => ?_, h.maxArity⟩
  rw [interfere_iff, h.edges]
  refine and_congr_right fun _ => ⟨?_, ?_⟩
  · -- an operation that joins the two qubits is one of the recorded ones
    rintro ⟨j, hj⟩
    have hlt : j < ops.length := Nat.lt_of_not_le fun hle => not_joins_of_le hle hj
    obtain ⟨o, ho⟩ : ∃ o, ops[j]? = some o := ⟨_, List.getElem?_eq_getElem hlt⟩
    have hq : qubitsAt ops j = o.qubits := by simp [qubitsAt, ho]
    refine ⟨o, List.mem_of_getElem? ho, ?_⟩
    simp only [Joins, hq, h.kept_iff hids ho] at hj
    exact hj
  · rintro ⟨o, hmem, hjoin⟩
    obtain ⟨j, ho⟩ := List.mem_iff_getElem?.1 hmem
    have hq : qubitsAt ops j = o.qubits := by simp [qubitsAt, ho]
    refine ⟨j, ?_⟩
    simp only [Joins, hq, h.kept_iff hids ho]
    exact hjoin

/-- Two operations, the second depending on the first and sharing its qubit 1. -/
theorem dependency_sets_two_ops :
    let ops : List Operation := [⟨1, [], [0, 1]⟩, ⟨2, [1], [1, 2]⟩]
    (ops.map (·.id)).Nodup ∧
    let g := build ops
    (∀ j o, ops[j]? = some o → ∀ q,
      ((g.dependents o.id q).isSome ↔ Keys ops j q) ∧
      ∀ l, g.dependents o.id q = some l → l.Pairwise (· < ·) ∧
        ∀ x, x ∈ l ↔ ∃ p, Cone ops j p ∧ Keys ops p q ∧ x ∈ qubitsAt ops p) ∧
    (∀ a b, g.interfere a b = true ↔ a ≠ b ∧ ∃ o ∈ ops,
      (a ∈ o.qubits ∧ ∃ q ∈ o.qubits, ∃ l, g.dependents o.id q = some l ∧ b ∈ l) ∨
        (b ∈ o.qubits ∧ ∃ q ∈ o.qubits, ∃ l, g.dependents o.id q = some l ∧ a ∈ l)) ∧
    g.maxArity = ops.toFinset.sup fun o => o.qubits.toFinset.card :=
  ⟨by decide, dependency_sets _ (by decide)⟩

/- Qubit 0 is a key of the second operation through the first, which it names; both operations
have it among their keys, so the second keeps the qubits of both for it. -/
example : (build [⟨1, [], [0, 1]⟩, ⟨2, [1], [1, 2]⟩]).dependents 2 0 = some [0, 1, 2] := by
  decide

end Interference

end QuantumRuntime
