import Mathlib
import QuantumRuntime.SortedMap

/-!
# Sorted lists keep their order

The operation counts of a layer, the set of traced operations, the gate counts of the width
estimator and the qubit sets of the interference graph are lists sorted by a key, each key at most
once, and they change by two steps only: bumping the count of a key and inserting a key. The steps
differ only in the type of the key, so they are stated once over any linear order
(`SortedList.bump`, `SortedList.insert`), and each concrete one is shown to be an instance
(`SortedMap.bump_eq`, `SortedMap.insert_eq`). Bumping and inserting keep a list sorted, and on a
sorted list bumping a key raises its looked-up count by one and leaves every other key alone.
-/

namespace QuantumRuntime

namespace SortedList

variable {α : Type} [LinearOrder α]

/-- Adds one to the count of `key`, which starts at zero, in a list sorted by key. -/
def bump (key : α) : List (α × Nat) → List (α × Nat)
  | [] => [(key, 1)]
  | (k, n) :: rest =>
    if key < k then (key, 1) :: (k, n) :: rest
    else if key = k then (k, n + 1) :: rest
    else (k, n) :: bump key rest

/-- Adds `key` to a sorted list of distinct keys. -/
def insert (key : α) : List α → List α
  | [] => [key]
  | k :: rest =>
    if key < k then key :: k :: rest
    else if key = k then k :: rest
    else k :: insert key rest

theorem lt_of_mem_bump {b key : α} {m : List (α × Nat)} (hk : b < key)
    (hm : ∀ p ∈ m, b < p.1) : ∀ p ∈ bump key m, b < p.1 := by
  induction m with
  | nil =>
    intro p hp
    simp only [bump, List.mem_singleton] at hp
    subst hp
    exact hk
  | cons q rest ih =>
    obtain ⟨k, n⟩ := q
    intro p hp
    simp only [bump] at hp
    split at hp
    · rcases List.mem_cons.1 hp with rfl | hp
      · exact hk
      · exact hm p hp
    · split at hp
      · rcases List.mem_cons.1 hp with rfl | hp
        · exact hm (k, n) List.mem_cons_self
        · exact hm p (List.mem_cons_of_mem _ hp)
      · rcases List.mem_cons.1 hp with rfl | hp
        · exact hm (k, n) List.mem_cons_self
        · exact ih (fun p h => hm p (List.mem_cons_of_mem _ h)) p hp

theorem sorted_bump (key : α) {m : List (α × Nat)} (h : m.Pairwise fun a b => a.1 < b.1) :
    (bump key m).Pairwise fun a b => a.1 < b.1 := by
  induction m with
  | nil => simp [bump]
  | cons q rest ih =>
    obtain ⟨k, n⟩ := q
    have hrest : ∀ p ∈ rest, k < p.1 := (List.pairwise_cons.1 h).1
    have hsorted := (List.pairwise_cons.1 h).2
    simp only [bump]
    split
    · next hlt =>
      refine List.pairwise_cons.2 ⟨fun p hp => ?_, h⟩
      rcases List.mem_cons.1 hp with rfl | hp
      · exact hlt
      · exact lt_trans hlt (hrest p hp)
    · split
      · exact List.pairwise_cons.2 ⟨hrest, hsorted⟩
      · next hnlt hne =>
        have hk : k < key := lt_of_le_of_ne (not_lt.1 hnlt) (Ne.symm hne)
        exact List.pairwise_cons.2 ⟨lt_of_mem_bump hk hrest, ih hsorted⟩

section Lookup

variable [BEq α] [LawfulBEq α]

theorem lookup_eq_none_of_lt {key k : α} {n : Nat} {rest : List (α × Nat)}
    (h : ((k, n) :: rest).Pairwise fun a b => a.1 < b.1) (hk : key < k) :
    ((k, n) :: rest).lookup key = none := by
  have hrest : ∀ p ∈ rest, k < p.1 := (List.pairwise_cons.1 h).1
  rw [List.lookup_eq_none_iff]
  intro p hp
  have hlt : key < p.1 := by
    rcases List.mem_cons.1 hp with rfl | hp
    · exact hk
    · exact lt_trans hk (hrest p hp)
  simpa only [bne_iff_ne, ne_eq] using hlt.ne

/-- Bumping a key of a sorted list adds one to its count, which starts at zero, and changes no
other key. -/
theorem lookup_bump (key op : α) {m : List (α × Nat)} (h : m.Pairwise fun a b => a.1 < b.1) :
    (bump key m).lookup op =
      if op = key then some ((m.lookup op).getD 0 + 1) else m.lookup op := by
  induction m with
  | nil => by_cases hop : op = key <;> simp [bump, hop]
  | cons q rest ih =>
    obtain ⟨k, n⟩ := q
    have hsorted := (List.pairwise_cons.1 h).2
    simp only [bump]
    split
    · next hlt =>
      by_cases hop : op = key
      · subst hop
        simp [lookup_eq_none_of_lt h hlt]
      · simp [List.lookup_cons, beq_false_of_ne hop, hop]
    · split
      · next hk =>
        subst hk
        by_cases hop : op = key
        · subst hop
          simp
        · simp [List.lookup_cons, beq_false_of_ne hop, hop]
      · next hnlt hne =>
        by_cases hok : op = k
        · subst hok
          simp [Ne.symm hne]
        · simp only [List.lookup_cons, beq_false_of_ne hok, ih hsorted]

end Lookup

theorem mem_insert {x key : α} {s : List α} : x ∈ insert key s ↔ x = key ∨ x ∈ s := by
  induction s with
  | nil => simp [insert]
  | cons k rest ih =>
    simp only [insert]
    split
    · simp
    · split
      · next hk =>
        subst hk
        simp
      · simp only [List.mem_cons, ih]
        exact or_left_comm

theorem sorted_insert (key : α) {s : List α} (h : s.Pairwise (· < ·)) :
    (insert key s).Pairwise (· < ·) := by
  induction s with
  | nil => simp [insert]
  | cons k rest ih =>
    have hrest : ∀ x ∈ rest, k < x := (List.pairwise_cons.1 h).1
    simp only [insert]
    split
    · next hlt =>
      refine List.pairwise_cons.2 ⟨fun x hx => ?_, h⟩
      rcases List.mem_cons.1 hx with rfl | hx
      · exact hlt
      · exact lt_trans hlt (hrest x hx)
    · split
      · exact h
      · next hnlt hne =>
        refine List.pairwise_cons.2 ⟨fun x hx => ?_, ih (List.pairwise_cons.1 h).2⟩
        rcases mem_insert.1 hx with rfl | hx
        · exact lt_of_le_of_ne (not_lt.1 hnlt) (Ne.symm hne)
        · exact hrest x hx

end SortedList

namespace SortedMap

/-- Keys strictly increase along the list. -/
def Sorted {α : Type} (m : List (Int × α)) : Prop := m.Pairwise fun a b => a.1 < b.1

theorem bump_eq (key : Int) : ∀ m, bump key m = SortedList.bump key m
  | [] => rfl
  | (k, n) :: rest => by simp only [bump, SortedList.bump, bump_eq key rest]

theorem insert_eq (key : Int) : ∀ s, insert key s = SortedList.insert key s
  | [] => rfl
  | k :: rest => by simp only [insert, SortedList.insert, insert_eq key rest]

theorem sorted_bump (key : Int) {m : List (Int × Nat)} (h : Sorted m) : Sorted (bump key m) := by
  rw [bump_eq]
  exact SortedList.sorted_bump key h

/-- Bumping a key of a sorted map adds one to its count, which starts at zero, and changes no
other key. -/
theorem lookup_bump (key op : Int) {m : List (Int × Nat)} (h : Sorted m) :
    (bump key m).lookup op =
      if op = key then some ((m.lookup op).getD 0 + 1) else m.lookup op := by
  rw [bump_eq]
  exact SortedList.lookup_bump key op h

theorem mem_insert {x key : Int} {s : List Int} : x ∈ insert key s ↔ x = key ∨ x ∈ s := by
  rw [insert_eq]
  exact SortedList.mem_insert

theorem sorted_insert (key : Int) {s : List Int} (h : s.Pairwise (· < ·)) :
    (insert key s).Pairwise (· < ·) := by
  rw [insert_eq]
  exact SortedList.sorted_insert key h

end SortedMap

end QuantumRuntime
