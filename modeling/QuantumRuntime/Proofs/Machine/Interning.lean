import Mathlib
import QuantumRuntime.Machine.Strings
import QuantumRuntime.Proofs.Machine.Keeps

/-!
# Interned strings stay interned

Live strings are kept in a table of ids and entries, and a content index maps each text to the
id interned for it. `Machine.Interning` is the invariant that keeps the two inverse: every text
the index holds names a live string with that text (`index_live`), and every live string is
indexed under its text (`live_indexed`). Besides, no two live strings share an id, each has a
reference, and each id was drawn from the counter. Under it two live strings are the same
string exactly when their texts are equal.

Every string request keeps the invariant: creating a text bumps the live string the index gives,
or adds a new one under the next id and indexes it; a reference count that reaches zero removes
the string from the table and its text from the index. A refused update changes nothing. The
main statement is `Machine.strings_interned`.
-/

namespace QuantumRuntime

/-- A request of a program on its interned strings. -/
inductive StringRequest
  | create (text : String)
  | concat (left right : Nat)
  | ofInt (value : Int)
  | ofDouble (value : Float)
  | ofBool (value : Bool)
  | ofPauli (p : Pauli)
  | ofRange (r : Range)
  | ofResult (r : ResultHandle)
  | ofQubit (q : Qubit)
  | updateRefs (id : Option Nat) (increment : Int)

namespace Machine

/-- Serves one string request; a request that fails leaves the machine it reached. -/
def serveString (m : Machine) : StringRequest → Machine
  | .create text => final (stringCreate text m)
  | .concat left right => final (stringConcat left right m)
  | .ofInt value => final (intToString value m)
  | .ofDouble value => final (doubleToString value m)
  | .ofBool value => final (boolToString value m)
  | .ofPauli p => final (pauliToString p m)
  | .ofRange r => final (rangeToString r m)
  | .ofResult r => final (resultToString r m)
  | .ofQubit q => final (qubitToString q m)
  | .updateRefs id increment => final (updateStringRefs id increment m)

/-- Serves string requests one after another. -/
def serveStrings (m : Machine) (rs : List StringRequest) : Machine := rs.foldl serveString m

/-! ### Entries of the string table -/

section Entries

variable {l : List (Nat × Interned)}

/-- Rewrites the entry of one id, keeping every other entry. -/
def updateEntry (id : Nat) (g : Interned → Interned) (l : List (Nat × Interned)) :
    List (Nat × Interned) :=
  l.map fun (i, e) => if i = id then (i, g e) else (i, e)

theorem ids_updateEntry (id : Nat) (g : Interned → Interned) (l : List (Nat × Interned)) :
    (updateEntry id g l).map Prod.fst = l.map Prod.fst := by
  induction l with
  | nil => rfl
  | cons p l ih =>
    obtain ⟨i, e⟩ := p
    by_cases hi : i = id <;> simp [updateEntry, hi] at ih ⊢ <;> exact ih

theorem mem_updateEntry {id : Nat} {g : Interned → Interned} {p : Nat × Interned}
    (h : p ∈ updateEntry id g l) : p ∈ l ∨ ∃ e, (id, e) ∈ l ∧ p = (id, g e) := by
  obtain ⟨⟨i, e⟩, hie, he⟩ := List.mem_map.1 h
  dsimp only at he
  split at he
  · next hi =>
    subst hi he
    exact .inr ⟨e, hie, rfl⟩
  · exact .inl (he ▸ hie)

theorem lookup_updateEntry_self (id : Nat) (g : Interned → Interned) (l : List (Nat × Interned)) :
    (updateEntry id g l).lookup id = (l.lookup id).map g := by
  induction l with
  | nil => rfl
  | cons p l ih =>
    obtain ⟨i, e⟩ := p
    by_cases hi : i = id
    · subst hi
      simp [updateEntry]
    · have hne : (id == i) = false := beq_false_of_ne (Ne.symm hi)
      simp only [updateEntry, List.map_cons, if_neg hi, List.lookup_cons, hne] at ih ⊢
      exact ih

theorem lookup_updateEntry_ne {id id' : Nat} (hne : id' ≠ id) (g : Interned → Interned)
    (l : List (Nat × Interned)) : (updateEntry id g l).lookup id' = l.lookup id' := by
  induction l with
  | nil => rfl
  | cons p l ih =>
    obtain ⟨i, e⟩ := p
    by_cases hi : i = id
    · have hne' : (id' == i) = false := beq_false_of_ne (hi ▸ hne)
      simp only [updateEntry, List.map_cons, if_pos hi, List.lookup_cons, hne'] at ih ⊢
      exact ih
    · simp only [updateEntry, List.map_cons, if_neg hi, List.lookup_cons] at ih ⊢
      rw [ih]

/-- Indexing a text under an id replaces whatever the index held for it. -/
theorem lookup_index (text t : String) (id : Nat) (l : List (String × Nat)) :
    ((text, id) :: l.filter fun (s, _) => s ≠ text).lookup t =
      if t = text then some id else l.lookup t := by
  by_cases ht : t = text
  · subst ht
    simp
  · rw [if_neg ht, List.lookup_cons, beq_false_of_ne ht]
    exact lookup_filter_ne ht l

end Entries

/-! ### What each string primitive does -/

section Primitives

variable {m : Machine} {text : String} {id : Nat} {e : Interned}

theorem addString_eq (text : String) (m : Machine) :
    addString text m = .ok m.nextId { m with
      nextId := m.nextId + 1,
      byContent := (text, m.nextId) :: m.byContent.filter fun (t, _) => t ≠ text,
      strings := m.strings ++ [(m.nextId, ⟨text, 1⟩)] } := by
  simp only [addString, run_bind, freshId, run_modifyGet, run_modify, run_pure]

theorem stringCreate_of_indexed (h : m.byContent.lookup text = some id)
    (he : m.strings.lookup id = some e) :
    stringCreate text m =
      .ok id { m with
        strings := updateEntry id (fun e => { e with refs := e.refs + 1 }) m.strings } := by
  simp only [stringCreate, run_bind, run_get, h, he, Option.isSome_some, if_true, run_modify,
    run_pure]
  rfl

theorem stringCreate_of_unindexed (h : m.byContent.lookup text = none) :
    stringCreate text m = addString text m := by
  simp only [stringCreate, run_bind, run_get, h]

theorem stringText_of_lookup (h : m.strings.lookup id = some e) :
    stringText id m = .ok e.text m := by
  simp only [stringText, getString, run_bind, run_get, h, run_pure]

theorem stringText_of_lookup_none (h : m.strings.lookup id = none) :
    stringText id m = .error (.released ⟨.string, id⟩) m := by
  simp only [stringText, getString, run_bind, run_get, h, run_throw]

theorem updateStringRefs_none (increment : Int) :
    updateStringRefs none increment m = .ok () m := rfl

theorem updateStringRefs_zero (id : Nat) : updateStringRefs (some id) 0 m = .ok () m := by
  simp [updateStringRefs]

theorem updateStringRefs_released {increment : Int} (hinc : increment ≠ 0)
    (h : m.strings.lookup id = none) :
    updateStringRefs (some id) increment m = .error (.released ⟨.string, id⟩) m := by
  simp [updateStringRefs, hinc, getString, h]

theorem updateStringRefs_negative {increment : Int} (hinc : increment ≠ 0)
    (h : m.strings.lookup id = some e) (hneg : (e.refs : Int) + increment < 0) :
    updateStringRefs (some id) increment m =
      .error (.negativeRefCount ⟨.string, id⟩ ((e.refs : Int) + increment)) m := by
  simp [updateStringRefs, hinc, getString, h, hneg]

theorem updateStringRefs_remove {increment : Int} (hinc : increment ≠ 0)
    (h : m.strings.lookup id = some e) (hzero : (e.refs : Int) + increment = 0) :
    updateStringRefs (some id) increment m =
      .ok () { m with
        strings := m.strings.filter fun (i, _) => i ≠ id,
        byContent := m.byContent.filter fun (t, _) => t ≠ e.text } := by
  simp [updateStringRefs, hinc, getString, h, hzero]

theorem updateStringRefs_set {increment : Int} (hinc : increment ≠ 0)
    (h : m.strings.lookup id = some e) (hpos : 0 < (e.refs : Int) + increment) :
    updateStringRefs (some id) increment m =
      .ok () { m with
        strings := updateEntry id (fun e' => { e' with refs := ((e.refs : Int) + increment).toNat })
          m.strings } := by
  simp [updateStringRefs, hinc, getString, h, Int.not_lt.2 (Int.le_of_lt hpos), Int.ne_of_gt hpos]
  rfl

/-- What an update of a string's count does: nothing, a refusal that keeps the machine, removing a
live string whose count reaches zero from the table and its text from the index, or giving it its
new, positive count. -/
theorem updateStringRefs_cases (id : Option Nat) (increment : Int) (m : Machine) :
    ((id = none ∨ increment = 0) ∧ updateStringRefs id increment m = .ok () m) ∨
      (∃ err, updateStringRefs id increment m = .error err m) ∨
      (∃ i e, id = some i ∧ m.strings.lookup i = some e ∧ (e.refs : Int) + increment = 0 ∧
        updateStringRefs id increment m = .ok () { m with
          strings := m.strings.filter fun (j, _) => j ≠ i,
          byContent := m.byContent.filter fun (t, _) => t ≠ e.text }) ∨
      (∃ i e, id = some i ∧ m.strings.lookup i = some e ∧ 0 < (e.refs : Int) + increment ∧
        updateStringRefs id increment m = .ok () { m with
          strings := updateEntry i
            (fun e' => { e' with refs := ((e.refs : Int) + increment).toNat }) m.strings }) := by
  rcases id with _ | i
  · exact .inl ⟨.inl rfl, updateStringRefs_none increment⟩
  by_cases hinc : increment = 0
  · subst hinc
    exact .inl ⟨.inr rfl, updateStringRefs_zero i⟩
  cases he : m.strings.lookup i with
  | none => exact .inr (.inl ⟨_, updateStringRefs_released hinc he⟩)
  | some e =>
    rcases Int.lt_trichotomy ((e.refs : Int) + increment) 0 with hneg | hzero | hpos
    · exact .inr (.inl ⟨_, updateStringRefs_negative hinc he hneg⟩)
    · exact .inr (.inr (.inl ⟨i, e, rfl, he, hzero, updateStringRefs_remove hinc he hzero⟩))
    · exact .inr (.inr (.inr ⟨i, e, rfl, he, hpos, updateStringRefs_set hinc he hpos⟩))

/-- A refused update of a string's count changes nothing. -/
theorem updateStringRefs_error {id : Option Nat} {increment : Int} {err : MachineError}
    {m' : Machine} (h : updateStringRefs id increment m = .error err m') : m' = m := by
  rcases updateStringRefs_cases id increment m with ⟨-, hok⟩ | ⟨_, herr⟩ | ⟨_, _, -, -, -, hok⟩ |
      ⟨_, _, -, -, -, hok⟩
  · rw [h] at hok
    cases hok
  · rw [h] at herr
    cases herr
    rfl
  · rw [h] at hok
    cases hok
  · rw [h] at hok
    cases hok

/-- Concatenating two strings reads both, which leaves the machine alone, and interns the joined
text. -/
theorem stringConcat_cases (left right : Nat) (m : Machine) :
    (∃ err, stringConcat left right m = .error err m) ∨
      ∃ tl tr, stringConcat left right m = stringCreate (tl ++ tr) m := by
  cases hl : m.strings.lookup left with
  | none =>
    refine .inl ⟨.released ⟨.string, left⟩, ?_⟩
    simp only [stringConcat, run_bind, stringText_of_lookup_none hl]
  | some el =>
    cases hr : m.strings.lookup right with
    | none =>
      refine .inl ⟨.released ⟨.string, right⟩, ?_⟩
      simp only [stringConcat, run_bind, stringText_of_lookup hl, stringText_of_lookup_none hr]
    | some er =>
      refine .inr ⟨el.text, er.text, ?_⟩
      simp only [stringConcat, run_bind, stringText_of_lookup hl, stringText_of_lookup hr]

/-- Rendering a result reads the backend, which leaves the machine alone, and interns `Zero` or
`One`. -/
theorem resultToString_cases (r : ResultHandle) (m : Machine) :
    (∃ err, resultToString r m = .error err m) ∨ resultToString r m = stringCreate "Zero" m ∨
      resultToString r m = stringCreate "One" m := by
  cases ho : m.backend.outcome r with
  | error e =>
    refine .inl ⟨.backend e, ?_⟩
    simp only [resultToString, queryBackend, run_bind, run_get, ho, run_throw]
  | ok o =>
    cases o with
    | zero =>
      refine .inr (.inl ?_)
      simp only [resultToString, queryBackend, run_bind, run_get, ho, run_pure]
    | one =>
      refine .inr (.inr ?_)
      simp only [resultToString, queryBackend, run_bind, run_get, ho, run_pure]
    | pending =>
      refine .inl ⟨.resultPending, ?_⟩
      simp only [resultToString, queryBackend, run_bind, run_get, ho, run_pure, run_throw]

theorem qubitToString_eq (q : Qubit) (m : Machine) :
    qubitToString q m = stringCreate (m.backend.qubitText q) m := by
  simp only [qubitToString, run_bind, run_get]

end Primitives

/-! ### The invariant -/

/-- The content index and the table of live strings are inverse to each other; besides, no two
live strings share an id, each has a reference, and each id is below the counter's next id. -/
structure Interning (m : Machine) : Prop where
  index_live : ∀ {text id}, m.byContent.lookup text = some id →
    ∃ e, m.strings.lookup id = some e ∧ e.text = text
  live_indexed : ∀ {id e}, m.strings.lookup id = some e → m.byContent.lookup e.text = some id
  ids_nodup : (m.strings.map Prod.fst).Nodup
  refs_pos : ∀ p ∈ m.strings, 0 < p.2.refs
  ids_lt : ∀ p ∈ m.strings, p.1 < m.nextId

theorem interning_new (backend : Backend) (track : Bool) :
    (Machine.new backend track).Interning where
  index_live h := by cases h
  live_indexed h := by cases h
  ids_nodup := List.nodup_nil
  refs_pos _ h := nomatch h
  ids_lt _ h := nomatch h

section Invariant

variable {m : Machine}

theorem Interning.lookup_iff (h : m.Interning) (text : String) (id : Nat) :
    m.byContent.lookup text = some id ↔ ∃ e, m.strings.lookup id = some e ∧ e.text = text :=
  ⟨h.index_live, fun hx => by
    obtain ⟨_, he, rfl⟩ := hx
    exact h.live_indexed he⟩

theorem Interning.refs_pos_of_lookup (h : m.Interning) {id : Nat} {e : Interned}
    (he : m.strings.lookup id = some e) : 0 < e.refs :=
  h.refs_pos (id, e) (mem_of_lookup he)

/-- A text the index does not hold is the text of no live string. -/
theorem Interning.text_ne_of_unindexed (h : m.Interning) {text : String}
    (hnone : m.byContent.lookup text = none) : ∀ p ∈ m.strings, p.2.text ≠ text := by
  rintro ⟨i, e⟩ hp rfl
  have hl := h.live_indexed (lookup_of_mem h.ids_nodup hp)
  rw [hnone] at hl
  cases hl

/-- Two live strings are the same string exactly when their texts are equal. -/
theorem Interning.eq_iff_text_eq (h : m.Interning) {a b : Nat} {ea eb : Interned}
    (ha : m.strings.lookup a = some ea) (hb : m.strings.lookup b = some eb) :
    a = b ↔ ea.text = eb.text := by
  constructor
  · rintro rfl
    rw [ha] at hb
    cases hb
    rfl
  · intro htext
    have hia := h.live_indexed ha
    rw [htext, h.live_indexed hb] at hia
    exact (Option.some.inj hia).symm

/-! ### Each request keeps the invariant -/

theorem Interning.update (h : m.Interning) (id : Nat) {g : Interned → Interned}
    (htext : ∀ e, (g e).text = e.text) (hpos : ∀ e, 0 < (g e).refs) :
    ({ m with strings := updateEntry id g m.strings } : Machine).Interning where
  index_live {text i} hl := by
    obtain ⟨e, he, rfl⟩ := h.index_live hl
    show ∃ e', (updateEntry id g m.strings).lookup i = some e' ∧ e'.text = e.text
    by_cases hi : i = id
    · subst hi
      exact ⟨g e, by rw [lookup_updateEntry_self, he]; rfl, htext e⟩
    · exact ⟨e, by rw [lookup_updateEntry_ne hi, he], rfl⟩
  live_indexed {i e'} hl := by
    change (updateEntry id g m.strings).lookup i = some e' at hl
    by_cases hi : i = id
    · subst hi
      rw [lookup_updateEntry_self] at hl
      obtain ⟨e, he, rfl⟩ := Option.map_eq_some_iff.1 hl
      rw [htext]
      exact h.live_indexed he
    · rw [lookup_updateEntry_ne hi] at hl
      exact h.live_indexed hl
  ids_nodup := by
    show ((updateEntry id g m.strings).map Prod.fst).Nodup
    rw [ids_updateEntry]
    exact h.ids_nodup
  refs_pos p hp := by
    rcases mem_updateEntry hp with hp | ⟨e, -, rfl⟩
    · exact h.refs_pos p hp
    · exact hpos e
  ids_lt p hp := by
    rcases mem_updateEntry hp with hp | ⟨e, he, rfl⟩
    · exact h.ids_lt p hp
    · exact h.ids_lt (id, e) he

/-- No live string has the counter's next id. -/
theorem Interning.lookup_nextId (h : m.Interning) : m.strings.lookup m.nextId = none := by
  cases hl : m.strings.lookup m.nextId with
  | none => rfl
  | some e => exact absurd (h.ids_lt _ (mem_of_lookup hl)) (Nat.lt_irrefl _)

/-- A new string goes under the next id, which no live string has, and is indexed under a text
the index does not hold. -/
theorem Interning.addString (h : m.Interning) {text : String}
    (hnone : m.byContent.lookup text = none) : (final (addString text m)).Interning := by
  have hfresh := h.text_ne_of_unindexed hnone
  have hnext := h.lookup_nextId
  rw [addString_eq]
  exact {
    index_live := fun {t i} hl => by
      change ((text, m.nextId) :: m.byContent.filter fun (s, _) => s ≠ text).lookup t = some i
        at hl
      show ∃ e, (m.strings ++ [(m.nextId, (⟨text, 1⟩ : Interned))]).lookup i = some e ∧ e.text = t
      rw [lookup_index] at hl
      split at hl
      · -- the new text names the new string
        next ht =>
        cases hl
        refine ⟨⟨text, 1⟩, ?_, ht.symm⟩
        rw [List.lookup_append, hnext]
        simp
      · -- an old text names an old string
        obtain ⟨e, he, rfl⟩ := h.index_live hl
        exact ⟨e, by rw [List.lookup_append, he]; rfl, rfl⟩
    live_indexed := fun {i e} hl => by
      change (m.strings ++ [(m.nextId, (⟨text, 1⟩ : Interned))]).lookup i = some e at hl
      show ((text, m.nextId) :: m.byContent.filter fun (s, _) => s ≠ text).lookup e.text = some i
      rw [lookup_index]
      rw [List.lookup_append] at hl
      cases hold : m.strings.lookup i with
      | some e' =>
        -- an old string keeps its index entry, whose text is not the new one
        rw [hold] at hl
        cases hl
        rw [if_neg (hfresh _ (mem_of_lookup hold))]
        exact h.live_indexed hold
      | none =>
        -- the only other string is the new one
        rw [hold, Option.none_or, List.lookup_cons] at hl
        by_cases hi : i = m.nextId
        · subst hi
          rw [beq_self_eq_true] at hl
          cases hl
          simp
        · rw [beq_false_of_ne hi] at hl
          cases hl
    ids_nodup := by
      show ((m.strings ++ [(m.nextId, (⟨text, 1⟩ : Interned))]).map Prod.fst).Nodup
      rw [List.map_append, List.nodup_append]
      refine ⟨h.ids_nodup, List.nodup_singleton _, fun a ha b hb => ?_⟩
      obtain ⟨p, hp, rfl⟩ := List.mem_map.1 ha
      rw [List.map_singleton, List.mem_singleton] at hb
      subst hb
      exact Nat.ne_of_lt (h.ids_lt p hp)
    refs_pos := fun p hp => by
      rcases List.mem_append.1 hp with hp | hp
      · exact h.refs_pos p hp
      · rw [List.mem_singleton] at hp
        subst hp
        exact Nat.one_pos
    ids_lt := fun p hp => by
      rcases List.mem_append.1 hp with hp | hp
      · exact Nat.lt_succ_of_lt (h.ids_lt p hp)
      · rw [List.mem_singleton] at hp
        subst hp
        exact Nat.lt_succ_self _ }

/-- Removing a live string from the table and its text from the index keeps them inverse. -/
theorem Interning.remove (h : m.Interning) {id : Nat} {e : Interned}
    (he : m.strings.lookup id = some e) :
    ({ m with
      strings := m.strings.filter fun (i, _) => i ≠ id,
      byContent := m.byContent.filter fun (t, _) => t ≠ e.text } : Machine).Interning where
  index_live {t i} hl := by
    change (m.byContent.filter fun (s, _) => s ≠ e.text).lookup t = some i at hl
    show ∃ e', (m.strings.filter fun (j, _) => j ≠ id).lookup i = some e' ∧ e'.text = t
    have ht : t ≠ e.text := fun ht => by
      rw [ht, lookup_filter_self] at hl
      cases hl
    rw [lookup_filter_ne ht] at hl
    obtain ⟨e', he', rfl⟩ := h.index_live hl
    -- the string the text names is not the removed one, whose text differs
    have hi : i ≠ id := fun hi => ht (by rw [hi, he] at he'; cases he'; rfl)
    exact ⟨e', by rw [lookup_filter_ne hi, he'], rfl⟩
  live_indexed {i e'} hl := by
    change (m.strings.filter fun (j, _) => j ≠ id).lookup i = some e' at hl
    show (m.byContent.filter fun (s, _) => s ≠ e.text).lookup e'.text = some i
    have hi : i ≠ id := fun hi => by
      rw [hi, lookup_filter_self] at hl
      cases hl
    rw [lookup_filter_ne hi] at hl
    have ht : e'.text ≠ e.text := fun ht => hi ((h.eq_iff_text_eq hl he).2 ht)
    rw [lookup_filter_ne ht]
    exact h.live_indexed hl
  ids_nodup := h.ids_nodup.sublist (List.filter_sublist.map _)
  refs_pos p hp := h.refs_pos p (List.mem_of_mem_filter hp)
  ids_lt p hp := h.ids_lt p (List.mem_of_mem_filter hp)

theorem Interning.create (h : m.Interning) (text : String) :
    (final (stringCreate text m)).Interning := by
  cases hid : m.byContent.lookup text with
  | some id =>
    obtain ⟨e, he, -⟩ := h.index_live hid
    rw [stringCreate_of_indexed hid he]
    exact h.update id (fun _ => rfl) fun e => Nat.succ_pos e.refs
  | none =>
    rw [stringCreate_of_unindexed hid]
    exact h.addString hid

theorem Interning.updateRefs (h : m.Interning) (id : Option Nat) (increment : Int) :
    (final (updateStringRefs id increment m)).Interning := by
  rcases updateStringRefs_cases id increment m with ⟨-, hok⟩ | ⟨err, herr⟩ |
      ⟨i, e, -, he, -, hok⟩ | ⟨i, e, -, -, hpos, hok⟩
  · rw [hok]
    exact h
  · rw [herr]
    exact h
  · rw [hok]
    exact h.remove he
  · rw [hok]
    exact h.update i (fun _ => rfl) fun _ => Int.lt_toNat.2 hpos

/-- Every string request is refused with the machine unchanged, interns some text, or changes a
count. -/
theorem serveString_cases (m : Machine) (r : StringRequest) :
    m.serveString r = m ∨ (∃ text, m.serveString r = final (stringCreate text m)) ∨
      ∃ id increment, m.serveString r = final (updateStringRefs id increment m) := by
  cases r with
  | create text => exact .inr (.inl ⟨text, rfl⟩)
  | concat left right =>
    rcases stringConcat_cases left right m with ⟨err, herr⟩ | ⟨tl, tr, hcat⟩
    · refine .inl ?_
      show final (stringConcat left right m) = m
      rw [herr]
      rfl
    · exact .inr (.inl ⟨tl ++ tr, congrArg final hcat⟩)
  | ofInt value => exact .inr (.inl ⟨_, rfl⟩)
  | ofDouble value => exact .inr (.inl ⟨_, rfl⟩)
  | ofBool value => exact .inr (.inl ⟨_, rfl⟩)
  | ofPauli p => exact .inr (.inl ⟨_, rfl⟩)
  | ofRange r => exact .inr (.inl ⟨_, rfl⟩)
  | ofResult r =>
    rcases resultToString_cases r m with ⟨err, herr⟩ | hz | ho
    · refine .inl ?_
      show final (resultToString r m) = m
      rw [herr]
      rfl
    · exact .inr (.inl ⟨_, congrArg final hz⟩)
    · exact .inr (.inl ⟨_, congrArg final ho⟩)
  | ofQubit q => exact .inr (.inl ⟨_, congrArg final (qubitToString_eq q m)⟩)
  | updateRefs id increment => exact .inr (.inr ⟨id, increment, rfl⟩)

theorem Interning.serve (h : m.Interning) (r : StringRequest) : (m.serveString r).Interning := by
  rcases serveString_cases m r with hr | ⟨text, hr⟩ | ⟨id, increment, hr⟩ <;> rw [hr]
  · exact h
  · exact h.create text
  · exact h.updateRefs id increment

theorem Interning.serveAll (h : m.Interning) (rs : List StringRequest) :
    (m.serveStrings rs).Interning := by
  induction rs generalizing m with
  | nil => exact h
  | cons r rs ih => exact ih (h.serve r)

end Invariant

/-! ### The counter -/

theorem nextId_le_stringCreate {m : Machine} (h : m.Interning) (text : String) :
    m.nextId ≤ (final (stringCreate text m)).nextId := by
  cases hid : m.byContent.lookup text with
  | some id =>
    obtain ⟨e, he, -⟩ := h.index_live hid
    rw [stringCreate_of_indexed hid he]
    exact Nat.le_refl _
  | none =>
    rw [stringCreate_of_unindexed hid, addString_eq]
    exact Nat.le_succ _

theorem nextId_updateStringRefs (id : Option Nat) (increment : Int) (m : Machine) :
    (final (updateStringRefs id increment m)).nextId = m.nextId := by
  rcases updateStringRefs_cases id increment m with ⟨-, hok⟩ | ⟨_, herr⟩ | ⟨_, _, -, -, -, hok⟩ |
      ⟨_, _, -, -, -, hok⟩
  · rw [hok]
    rfl
  · rw [herr]
    rfl
  · rw [hok]
    rfl
  · rw [hok]
    rfl

/-- No string request moves the counter back. -/
theorem nextId_le_serveString {m : Machine} (h : m.Interning) (r : StringRequest) :
    m.nextId ≤ (m.serveString r).nextId := by
  rcases serveString_cases m r with hr | ⟨text, hr⟩ | ⟨id, increment, hr⟩
  · exact Nat.le_of_eq (congrArg Machine.nextId hr).symm
  · rw [hr]
    exact nextId_le_stringCreate h text
  · rw [hr, nextId_updateStringRefs]

theorem nextId_le_serveStrings {m : Machine} (h : m.Interning) (rs : List StringRequest) :
    m.nextId ≤ (m.serveStrings rs).nextId := by
  induction rs generalizing m with
  | nil => exact Nat.le_refl _
  | cons r rs ih =>
    exact Nat.le_trans (nextId_le_serveString h r) (ih (h.serve r))

/-! ### Creating and releasing strings -/

section Laws

variable {m : Machine}

/-- Creating the text of a live string gives that string, with one more reference. -/
theorem Interning.stringCreate_live (h : m.Interning) {id : Nat} {e : Interned}
    (he : m.strings.lookup id = some e) :
    ∃ m', stringCreate e.text m = .ok id m' ∧
      m'.strings.lookup id = some { e with refs := e.refs + 1 } ∧
      m'.byContent.lookup e.text = some id ∧ m'.nextId = m.nextId := by
  have hid := h.live_indexed he
  rw [stringCreate_of_indexed hid he]
  refine ⟨_, rfl, ?_, hid, rfl⟩
  exact (lookup_updateEntry_self id (fun e => { e with refs := e.refs + 1 }) m.strings).trans
    (by rw [he]; rfl)

/-- Creating a text no live string has gives a new string under the counter's next id, and
indexes the text under it. -/
theorem Interning.stringCreate_fresh (h : m.Interning) {text : String}
    (hfresh : ∀ p ∈ m.strings, p.2.text ≠ text) :
    ∃ m', stringCreate text m = .ok m.nextId m' ∧ m'.strings.lookup m.nextId = some ⟨text, 1⟩ ∧
      m'.byContent.lookup text = some m.nextId ∧ m'.nextId = m.nextId + 1 := by
  -- the index holds only live texts, so it does not hold this one
  have hnone : m.byContent.lookup text = none := by
    cases hl : m.byContent.lookup text with
    | none => rfl
    | some i =>
      obtain ⟨e, he, htext⟩ := h.index_live hl
      exact absurd htext (hfresh _ (mem_of_lookup he))
  rw [stringCreate_of_unindexed hnone, addString_eq]
  refine ⟨_, rfl, ?_, by simp, rfl⟩
  show (m.strings ++ [(m.nextId, (⟨text, 1⟩ : Interned))]).lookup m.nextId = _
  rw [List.lookup_append, h.lookup_nextId]
  simp

/-- A successful update of a live string's count removes the string from the table and its text
from the content index exactly when the count reaches zero, and otherwise keeps both with the
new count. -/
theorem Interning.updateStringRefs_ok (h : m.Interning) {id : Nat} {increment : Int} {e : Interned}
    {m' : Machine} (he : m.strings.lookup id = some e)
    (hok : updateStringRefs (some id) increment m = .ok () m') :
    ((e.refs : Int) + increment = 0 → m'.strings.lookup id = none ∧ m'.byContent.lookup e.text = none) ∧
      ((e.refs : Int) + increment ≠ 0 →
        m'.strings.lookup id = some ⟨e.text, ((e.refs : Int) + increment).toNat⟩ ∧
          m'.byContent.lookup e.text = some id) := by
  have hm' : m'.Interning := by
    have := h.updateRefs (some id) increment
    rw [hok] at this
    exact this
  -- a kept string keeps its text, so the index still gives it
  have hindex : m'.strings.lookup id = some ⟨e.text, ((e.refs : Int) + increment).toNat⟩ →
      m'.byContent.lookup e.text = some id := hm'.live_indexed
  rcases updateStringRefs_cases (some id) increment m with ⟨hinc, hunchanged⟩ | ⟨_, herr⟩ |
      ⟨i, e', hi, he', hzero, hremove⟩ | ⟨i, e', hi, he', hpos, hset⟩
  · rw [hok] at hunchanged
    cases hunchanged
    have hinc : increment = 0 := hinc.resolve_left (by simp)
    subst hinc
    have hpos := h.refs_pos_of_lookup he
    refine ⟨fun hz => by omega, fun _ => ?_⟩
    have hl : m.strings.lookup id = some ⟨e.text, ((e.refs : Int) + 0).toNat⟩ := by
      rw [he]
      simp
    exact ⟨hl, hindex hl⟩
  · rw [hok] at herr
    cases herr
  · cases hi
    rw [he] at he'
    cases he'
    rw [hok] at hremove
    cases hremove
    exact ⟨fun _ => ⟨lookup_filter_self id m.strings, lookup_filter_self e.text m.byContent⟩,
      fun hne => absurd hzero hne⟩
  · cases hi
    rw [he] at he'
    cases he'
    rw [hok] at hset
    cases hset
    have hl : (updateEntry id (fun e' => { e' with refs := ((e.refs : Int) + increment).toNat })
        m.strings).lookup id = some ⟨e.text, ((e.refs : Int) + increment).toNat⟩ := by
      rw [lookup_updateEntry_self, he]
      rfl
    exact ⟨fun hz => absurd hz (Int.ne_of_gt hpos), fun _ => ⟨hl, hindex hl⟩⟩

/-- The text of a live string is read without changing anything; a released one is refused. -/
theorem stringText_eq_ok {id : Nat} {text : String} {m' : Machine}
    (h : stringText id m = .ok text m') : ∃ e, m.strings.lookup id = some e ∧ e.text = text := by
  cases he : m.strings.lookup id with
  | none =>
    rw [stringText_of_lookup_none he] at h
    cases h
  | some e =>
    rw [stringText_of_lookup he] at h
    cases h
    exact ⟨e, rfl, rfl⟩

end Laws

/-- Strings stay interned: after any string requests from a new program, the content index and
the live strings are inverse, strings are equal exactly when their texts are, creation reuses or
makes a string as the index says, and updates remove a string from both exactly at zero. -/
theorem strings_interned (backend : Backend) (track : Bool) (rs : List StringRequest) :
    let m := (Machine.new backend track).serveStrings rs
    (∀ text id, m.byContent.lookup text = some id ↔
        ∃ e, m.strings.lookup id = some e ∧ e.text = text) ∧
      (∀ id e, m.strings.lookup id = some e → 0 < e.refs) ∧
      (∀ a b ta tb, stringText a m = .ok ta m → stringText b m = .ok tb m →
        (a = b ↔ ta = tb) ∧ (stringEqual a b = true ↔ ta = tb)) ∧
      (∀ text,
        (∃ id e, m.strings.lookup id = some e ∧ e.text = text ∧
          ∃ m', stringCreate text m = .ok id m' ∧
            m'.strings.lookup id = some { e with refs := e.refs + 1 } ∧
            m'.byContent.lookup text = some id ∧ m'.nextId = m.nextId) ∨
        ((∀ p ∈ m.strings, p.2.text ≠ text ∧ p.1 < m.nextId) ∧
          (∀ pre post, rs = pre ++ post →
            ((Machine.new backend track).serveStrings pre).nextId ≤ m.nextId) ∧
          ∃ m', stringCreate text m = .ok m.nextId m' ∧
            m'.strings.lookup m.nextId = some ⟨text, 1⟩ ∧
            m'.byContent.lookup text = some m.nextId ∧ m'.nextId = m.nextId + 1)) ∧
      (∀ id increment e m', m.strings.lookup id = some e →
        updateStringRefs (some id) increment m = .ok () m' →
        ((e.refs : Int) + increment = 0 →
          m'.strings.lookup id = none ∧ m'.byContent.lookup e.text = none) ∧
        ((e.refs : Int) + increment ≠ 0 →
          m'.strings.lookup id = some ⟨e.text, ((e.refs : Int) + increment).toNat⟩ ∧
            m'.byContent.lookup e.text = some id)) ∧
      (∀ id increment err m', updateStringRefs id increment m = .error err m' → m' = m) := by
  intro m
  have h : m.Interning := (interning_new backend track).serveAll rs
  refine ⟨h.lookup_iff, fun _ _ he => h.refs_pos_of_lookup he, ?_, ?_,
    fun _ _ _ _ he hok => h.updateStringRefs_ok he hok,
    fun _ _ _ _ herr => updateStringRefs_error herr⟩
  · intro a b ta tb ha hb
    obtain ⟨ea, hla, rfl⟩ := stringText_eq_ok ha
    obtain ⟨eb, hlb, rfl⟩ := stringText_eq_ok hb
    have hiff := h.eq_iff_text_eq hla hlb
    exact ⟨hiff, by simpa [stringEqual] using hiff⟩
  · intro text
    by_cases hlive : ∃ p ∈ m.strings, p.2.text = text
    · obtain ⟨⟨id, e⟩, hp, rfl⟩ := hlive
      have he := lookup_of_mem h.ids_nodup hp
      exact .inl ⟨id, e, he, rfl, h.stringCreate_live he⟩
    · have hfresh : ∀ p ∈ m.strings, p.2.text ≠ text := fun p hp ht => hlive ⟨p, hp, ht⟩
      refine .inr ⟨fun p hp => ⟨hfresh p hp, h.ids_lt p hp⟩, fun pre post hsplit => ?_,
        h.stringCreate_fresh hfresh⟩
      -- the run goes through the machine `pre` left, which already keeps the invariant
      have hpre : ((Machine.new backend track).serveStrings pre).Interning :=
        (interning_new backend track).serveAll pre
      have hrun : m = ((Machine.new backend track).serveStrings pre).serveStrings post := by
        simp only [m, serveStrings, hsplit, List.foldl_append]
      rw [hrun]
      exact nextId_le_serveStrings hpre post

end Machine

end QuantumRuntime
