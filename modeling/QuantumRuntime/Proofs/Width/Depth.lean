import Mathlib
import QuantumRuntime.Proofs.Width.Report
import QuantumRuntime.Proofs.SortedMap

/-!
# The width estimator schedules as soon as possible

Number the operations the width estimator records, in order, and say that two of them are linked
when the earlier one shares a qubit with the later one. The depth of an operation in an
as-soon-as-possible schedule is then the number of operations on the longest chain of linked
operations that ends with it (`ChainTo`): an operation has to wait for every earlier operation on
one of its qubits, and for nothing else.

The estimator keeps much less: for every qubit only the depth of its first and of its last
operation. It gives a new operation the depth one past the deepest of its qubits. That this is the
longest chain rests on one fact: depths strictly increase along the operations of one qubit, so the
last operation on a qubit is its deepest (`isGreatest_chainTo_snoc`). The invariant `Asap` says
what the estimator holds after recording some operations, in terms of chains only, and every
request keeps it (`Asap.serve`). The main statement is `asap_depth`.
-/

namespace QuantumRuntime

/-! ### Chains of operations -/

section Chains

variable {ops : List (List Nat)} {P : List Nat}

/-- Operation `j` comes before operation `i` and shares a qubit with it. -/
def Linked (ops : List (List Nat)) (j i : Nat) : Prop :=
  j < i ∧ ∃ q, q ∈ ops.getD j [] ∧ q ∈ ops.getD i []

/-- `ChainTo ops i k`: a chain of `k` operations at increasing positions, each linked to the next,
ends with operation `i`. -/
inductive ChainTo (ops : List (List Nat)) : Nat → Nat → Prop
  | single {i : Nat} : i < ops.length → ChainTo ops i 1
  | snoc {j i k : Nat} : ChainTo ops j k → i < ops.length → Linked ops j i → ChainTo ops i (k + 1)

/-- Operation `i` is the first on qubit `q`. -/
def FirstUse (ops : List (List Nat)) (q i : Nat) : Prop :=
  q ∈ ops.getD i [] ∧ ∀ j < i, q ∉ ops.getD j []

/-- Operation `i` is the last on qubit `q`. -/
def LastUse (ops : List (List Nat)) (q i : Nat) : Prop :=
  q ∈ ops.getD i [] ∧ ∀ j, i < j → q ∉ ops.getD j []

/-- No operation acts on qubit `q`. -/
def Unused (ops : List (List Nat)) (q : Nat) : Prop := ∀ j, q ∉ ops.getD j []

theorem getD_append_of_lt {j : Nat} (h : j < ops.length) : (ops ++ [P]).getD j [] = ops.getD j [] := by
  simp [List.getD_eq_getElem?_getD, List.getElem?_append_left h]

theorem getD_append_length : (ops ++ [P]).getD ops.length [] = P := by
  simp [List.getD_eq_getElem?_getD]

theorem mem_getD_lt {ops : List (List Nat)} {q j : Nat} (h : q ∈ ops.getD j []) : j < ops.length := by
  by_contra hj
  rw [List.getD_eq_getElem?_getD, List.getElem?_eq_none (by omega)] at h
  exact List.not_mem_nil h

/-- The qubits of the operation at a position of a list with one more operation. -/
theorem mem_getD_append {q j : Nat} :
    q ∈ (ops ++ [P]).getD j [] ↔ q ∈ ops.getD j [] ∨ (j = ops.length ∧ q ∈ P) := by
  rcases Nat.lt_trichotomy j ops.length with hj | rfl | hj
  · rw [getD_append_of_lt hj]
    exact ⟨Or.inl, fun h => h.elim id fun h' => absurd h'.1 (by omega)⟩
  · rw [getD_append_length]
    exact ⟨fun h => Or.inr ⟨rfl, h⟩, fun h => h.elim (fun h' => absurd (mem_getD_lt h') (by omega))
      And.right⟩
  · have hnil : (ops ++ [P]).getD j [] = [] := by
      rw [List.getD_eq_getElem?_getD, List.getElem?_eq_none (by simp; omega)]
      rfl
    rw [hnil]
    exact ⟨fun h => absurd h List.not_mem_nil,
      fun h => h.elim (fun h' => absurd (mem_getD_lt h') (by omega)) fun h' => absurd h'.1 (by omega)⟩

theorem ChainTo.lt_length {i k : Nat} (h : ChainTo ops i k) : i < ops.length := by
  cases h with
  | single hi => exact hi
  | snoc _ hi _ => exact hi

theorem ChainTo.pos {i k : Nat} (h : ChainTo ops i k) : 0 < k := by
  cases h with
  | single => exact Nat.one_pos
  | snoc => exact Nat.succ_pos _

theorem linked_append_iff {j i : Nat} (hi : i < ops.length) : Linked (ops ++ [P]) j i ↔ Linked ops j i := by
  unfold Linked
  constructor
  · rintro ⟨hji, q, hj, hq⟩
    exact ⟨hji, q, by rwa [getD_append_of_lt (by omega)] at hj, by rwa [getD_append_of_lt hi] at hq⟩
  · rintro ⟨hji, q, hj, hq⟩
    exact ⟨hji, q, by rwa [getD_append_of_lt (by omega)], by rwa [getD_append_of_lt hi]⟩

/-- A chain of the earlier operations is a chain after one more is recorded. -/
theorem ChainTo.append {i k : Nat} (h : ChainTo ops i k) : ChainTo (ops ++ [P]) i k := by
  induction h with
  | single hi => exact .single (by simp; omega)
  | snoc _ hi hlink ih => exact .snoc ih (by simp; omega) ((linked_append_iff hi).2 hlink)

/-- A chain ending with an earlier operation uses earlier operations only. -/
theorem ChainTo.of_append {i k : Nat} (h : ChainTo (ops ++ [P]) i k) (hi : i < ops.length) :
    ChainTo ops i k := by
  induction h with
  | single => exact .single hi
  | snoc _ _ hlink ih =>
    have hlink' := (linked_append_iff hi).1 hlink
    exact .snoc (ih (by have := hlink'.1; omega)) hi hlink'

theorem chainTo_append_iff {i k : Nat} (hi : i < ops.length) :
    ChainTo (ops ++ [P]) i k ↔ ChainTo ops i k :=
  ⟨fun h => h.of_append hi, ChainTo.append⟩

theorem lastUse_append_iff {q j : Nat} :
    LastUse (ops ++ [P]) q j ↔ (q ∈ P ∧ j = ops.length) ∨ (q ∉ P ∧ LastUse ops q j) := by
  simp only [LastUse, mem_getD_append]
  constructor
  · rintro ⟨hj | ⟨rfl, hq⟩, hlater⟩
    · -- an earlier operation is last only if the new one does not act on the qubit
      have hlt := mem_getD_lt hj
      have hq : q ∉ P := fun hq => hlater ops.length hlt (Or.inr ⟨rfl, hq⟩)
      exact Or.inr ⟨hq, hj, fun j' hj' hmem => hlater j' hj' (Or.inl hmem)⟩
    · exact Or.inl ⟨hq, rfl⟩
  · rintro (⟨hq, rfl⟩ | ⟨hq, hj, hlater⟩)
    · refine ⟨Or.inr ⟨rfl, hq⟩, fun j' hj' hmem => ?_⟩
      rcases hmem with hmem | ⟨rfl, -⟩
      · exact absurd (mem_getD_lt hmem) (by omega)
      · omega
    · refine ⟨Or.inl hj, fun j' hj' hmem => ?_⟩
      rcases hmem with hmem | ⟨-, hmem⟩
      · exact hlater j' hj' hmem
      · exact hq hmem

theorem firstUse_append_iff {q j : Nat} :
    FirstUse (ops ++ [P]) q j ↔ FirstUse ops q j ∨ (Unused ops q ∧ q ∈ P ∧ j = ops.length) := by
  simp only [FirstUse, Unused, mem_getD_append]
  constructor
  · rintro ⟨hj | ⟨rfl, hq⟩, hearlier⟩
    · exact Or.inl ⟨hj, fun j' hj' hmem => hearlier j' hj' (Or.inl hmem)⟩
    · -- the new operation is first only if no earlier one acts on the qubit
      exact Or.inr ⟨fun j' hmem => hearlier j' (mem_getD_lt hmem) (Or.inl hmem), hq, rfl⟩
  · rintro (⟨hj, hearlier⟩ | ⟨hunused, hq, rfl⟩)
    · have hlt := mem_getD_lt hj
      refine ⟨Or.inl hj, fun j' hj' hmem => ?_⟩
      rcases hmem with hmem | ⟨rfl, -⟩
      · exact hearlier j' hj' hmem
      · omega
    · refine ⟨Or.inr ⟨rfl, hq⟩, fun j' hj' hmem => ?_⟩
      rcases hmem with hmem | ⟨rfl, -⟩
      · exact hunused j' hmem
      · omega

theorem unused_append_iff {q : Nat} : Unused (ops ++ [P]) q ↔ Unused ops q ∧ q ∉ P := by
  simp only [Unused, mem_getD_append, not_or, not_and]
  constructor
  · intro h
    exact ⟨fun j => (h j).1, fun hq => (h ops.length).2 rfl hq⟩
  · rintro ⟨hunused, hq⟩ j
    exact ⟨hunused j, fun _ => hq⟩

/-- A qubit that some operation acts on has a last one. -/
theorem exists_lastUse {q : Nat} (h : ¬Unused ops q) : ∃ j, LastUse ops q j := by
  obtain ⟨j, hj⟩ : ∃ j, q ∈ ops.getD j [] := by
    by_contra hnone
    push Not at hnone
    exact h hnone
  refine ⟨Nat.findGreatest (fun j => q ∈ ops.getD j []) ops.length,
    Nat.findGreatest_spec (P := fun j => q ∈ ops.getD j []) (mem_getD_lt hj).le hj,
    fun j' hj' hmem => ?_⟩
  exact Nat.findGreatest_is_greatest hj' (mem_getD_lt hmem).le hmem

/-- The longest chain ending with a new operation on the qubits `P` is one operation longer than
the deepest of them, where a qubit is as deep as the longest chain ending with its last operation,
and at depth zero if it had none. -/
theorem isGreatest_chainTo_snoc {D : Nat → Nat} {M : Nat}
    (hlast : ∀ q ∈ P, ∀ j, LastUse ops q j → IsGreatest {k | ChainTo ops j k} (D q))
    (hunused : ∀ q ∈ P, Unused ops q → D q = 0)
    (hle : ∀ q ∈ P, D q ≤ M) (hat : M = 0 ∨ ∃ q ∈ P, D q = M) :
    IsGreatest {k | ChainTo (ops ++ [P]) ops.length k} (M + 1) := by
  have hlen : ops.length < (ops ++ [P]).length := by simp
  refine ⟨?_, fun k hk => ?_⟩
  · by_cases hM : M = 0
    · rw [hM]
      exact ChainTo.single hlen
    -- the deepest qubit was used, and the longest chain to its last operation goes on to the new one
    obtain ⟨q, hq, hDq⟩ := hat.resolve_left hM
    obtain ⟨j, hj⟩ := exists_lastUse fun hu => hM (hDq ▸ hunused q hq hu)
    have hjlt := mem_getD_lt hj.1
    have hchain : ChainTo ops j (D q) := (hlast q hq j hj).1
    rw [hDq] at hchain
    exact ChainTo.snoc hchain.append hlen
      ⟨hjlt, q, by rw [getD_append_of_lt hjlt]; exact hj.1, by rw [getD_append_length]; exact hq⟩
  · cases hk with
    | single => omega
    | snoc hj _ hlink =>
      obtain ⟨hji, q, hqj, hqi⟩ := hlink
      rw [getD_append_length] at hqi
      rw [getD_append_of_lt hji] at hqj
      have hj' := hj.of_append hji
      -- the qubit's last operation is at or after `j`, and no chain ending with it is longer
      obtain ⟨j', hlast'⟩ := exists_lastUse fun hu => hu _ hqj
      have hjj' : ¬j' < _ := fun hlt => hlast'.2 _ hlt hqj
      have hbound := (hlast q hqi j' hlast').2
      have hDM := hle q hqi
      rcases (Nat.le_of_not_lt hjj').lt_or_eq with hlt | heq
      · have := hbound (ChainTo.snoc hj' (mem_getD_lt hlast'.1) ⟨hlt, q, hqj, hlast'.1⟩)
        omega
      · rw [← heq] at hbound
        have := hbound hj'
        omega

theorem chains_append {i : Nat} (hi : i < ops.length) :
    {k | ChainTo (ops ++ [P]) i k} = {k | ChainTo ops i k} :=
  Set.ext fun _ => chainTo_append_iff hi

/-- The longest chain of all after one more operation: the longer of the longest one before and
the longest one ending with the new operation. -/
theorem isGreatest_depth_append {D m : Nat}
    (h : IsGreatest (insert 0 {k | ∃ i, ChainTo ops i k}) D)
    (hnew : IsGreatest {k | ChainTo (ops ++ [P]) ops.length k} m) :
    IsGreatest (insert 0 {k | ∃ i, ChainTo (ops ++ [P]) i k}) (max D m) := by
  refine ⟨?_, fun k hk => ?_⟩
  · rcases Nat.le_total D m with hle | hle
    · rw [Nat.max_eq_right hle]
      exact Set.mem_insert_of_mem _ ⟨_, hnew.1⟩
    · rw [Nat.max_eq_left hle]
      rcases h.1 with h0 | ⟨i, hi⟩
      · exact Or.inl h0
      · exact Set.mem_insert_of_mem _ ⟨i, hi.append⟩
  · rcases hk with rfl | ⟨i, hi⟩
    · exact Nat.zero_le _
    -- a chain ends with an earlier operation or with the new one
    rcases Nat.lt_or_ge i ops.length with hlt | hge
    · exact le_trans (h.2 (Set.mem_insert_of_mem _ ⟨i, hi.of_append hlt⟩)) (Nat.le_max_left _ _)
    · have heq : i = ops.length := by
        have := hi.lt_length
        simp only [List.length_append, List.length_singleton] at this
        omega
      subst heq
      exact le_trans (hnew.2 hi) (Nat.le_max_right _ _)

end Chains

/-! ### What the estimator keeps of a qubit -/

/-- What the estimator keeps of qubit `q` after the operations `ops`: nothing while no operation
used it; once used, the lengths of the longest chains ending with its first and with its last
operation, and the number (counted from one) of its last operation. -/
structure Tracks (ops : List (List Nat)) (q : Nat) (d : QubitDepth) : Prop where
  unused : Unused ops q → d = {}
  first : ∀ i, FirstUse ops q i → IsGreatest {k | ChainTo ops i k} d.start
  last : ∀ i, LastUse ops q i → IsGreatest {k | ChainTo ops i k} d.stop ∧ d.lastOp = i + 1

section Tracks

variable {ops : List (List Nat)} {P : List Nat} {q : Nat} {d : QubitDepth}

theorem tracks_of_unused (h : Unused ops q) : Tracks ops q {} where
  unused _ := rfl
  first i hi := absurd hi.1 (h i)
  last i hi := absurd hi.1 (h i)

/-- An operation on other qubits changes nothing of what is kept of `q`. -/
theorem Tracks.append_of_not_mem (h : Tracks ops q d) (hq : q ∉ P) : Tracks (ops ++ [P]) q d where
  unused hu := h.unused (unused_append_iff.1 hu).1
  first i hi := by
    have hfirst : FirstUse ops q i := (firstUse_append_iff.1 hi).resolve_right fun h' => hq h'.2.1
    rw [chains_append (mem_getD_lt hfirst.1)]
    exact h.first i hfirst
  last i hi := by
    have hlast : LastUse ops q i := ((lastUse_append_iff.1 hi).resolve_left fun h' => hq h'.1).2
    rw [chains_append (mem_getD_lt hlast.1)]
    exact h.last i hlast

/-- An operation on `q` at the depth of the longest chain ending with it becomes the last one on
`q`, and the first one if `q` was unused. -/
theorem Tracks.mark (h : Tracks ops q d) (hq : q ∈ P) {depth : Nat}
    (hnew : IsGreatest {k | ChainTo (ops ++ [P]) ops.length k} depth) :
    Tracks (ops ++ [P]) q (d.mark depth (ops.length + 1)) where
  unused hu := absurd hq (unused_append_iff.1 hu).2
  first i hi := by
    rcases firstUse_append_iff.1 hi with hfirst | ⟨hunused, -, rfl⟩
    · -- an earlier first operation: the first depth is set and stays
      have hstart := h.first i hfirst
      have hpos : d.start ≠ 0 := (hstart.1 : ChainTo ops i d.start).pos.ne'
      rw [chains_append (mem_getD_lt hfirst.1)]
      simpa only [QubitDepth.mark, hpos, if_false] using hstart
    · have hstart : d.start = 0 := by rw [h.unused hunused]
      simpa only [QubitDepth.mark, hstart, if_true] using hnew
  last i hi := by
    obtain rfl : i = ops.length := ((lastUse_append_iff.1 hi).resolve_right fun h' => h'.1 hq).2
    exact ⟨hnew, rfl⟩

end Tracks

/-! ### The operations a run records -/

namespace WidthRequest

/-- Whether the request allocates a qubit. -/
def isAllocate : WidthRequest → Bool
  | allocate => true
  | _ => false

/-- The operation that a gate or measurement named `name` on the qubits `qs` records while `n`
qubits are allocated: its name and the indices of its qubits, or nothing when one of them is not
allocated. -/
def gateCall (n : Nat) (name : String) (qs : List Qubit) : Option (String × List Nat) :=
  if qs.all fun q => decide (q.index < n) then some (name, qs.map (·.index)) else none

/-- The operations a run of requests records, in order, when `n` qubits are allocated before it.
Releases record nothing, and neither does a measurement without targets. -/
def recorded : Nat → List WidthRequest → List (String × List Nat)
  | _, [] => []
  | n, allocate :: rs => recorded (n + 1) rs
  | n, release _ :: rs => recorded n rs
  | n, apply g :: rs =>
    (gateCall n (WidthEstimator.gateName g) (g.controls ++ g.targets)).toList ++ recorded n rs
  | n, measure _ ts :: rs => (if ts.isEmpty then none else gateCall n "m" ts).toList ++ recorded n rs

theorem recorded_cons (n : Nat) (r : WidthRequest) (rs : List WidthRequest) :
    recorded n (r :: rs) = recorded n [r] ++ recorded (n + if r.isAllocate then 1 else 0) rs := by
  cases r <;> simp [recorded, isAllocate]

end WidthRequest

/-! ### Gate counts -/

namespace WidthEstimator

/-- Counting a gate is bumping its name in a list sorted by name. -/
theorem bumpCount_eq (name : String) : ∀ m, bumpCount name m = SortedList.bump name m
  | [] => rfl
  | (g, n) :: rest => by simp only [bumpCount, SortedList.bump, bumpCount_eq name rest]

/-! ### Recording an operation -/

section Record

variable {w w' : WidthEstimator} {name : String} {cs ts : List Qubit}

/-- An accepted recording records the operation the specification gives. -/
theorem gateCall_of_record_ok (h : w.record name cs ts = .ok w') :
    WidthRequest.gateCall w.qubits.length name (cs ++ ts) =
      some (name, (cs ++ ts).map (·.index)) := by
  obtain ⟨M, hbound, -⟩ := record_ok_deepest h
  rw [WidthRequest.gateCall, if_pos (List.all_eq_true.2 fun q hq => ?_)]
  obtain ⟨d, hd, -⟩ := hbound q hq
  exact decide_eq_true (List.getElem?_eq_some_iff.1 hd).1

/-- A refused recording records nothing in the specification either. -/
theorem gateCall_of_record_error {e : BackendError} (h : w.record name cs ts = .error e) :
    WidthRequest.gateCall w.qubits.length name (cs ++ ts) = none := by
  obtain ⟨q, hq, hle, -⟩ := record_eq_error h
  rw [WidthRequest.gateCall, if_neg fun hall => ?_]
  have hlt := of_decide_eq_true (List.all_eq_true.1 hall q hq)
  omega

/-- An operation on a qubit that is not allocated is refused. -/
theorem record_eq_error_of_unknown (hq : ∃ q ∈ cs ++ ts, w.qubits.length ≤ q.index) :
    ∃ e, w.record name cs ts = .error e := by
  cases hrec : w.record name cs ts with
  | error e => exact ⟨e, rfl⟩
  | ok w' =>
    obtain ⟨q, hq, hle⟩ := hq
    obtain ⟨M, hbound, -⟩ := record_ok_deepest hrec
    obtain ⟨d, hd, -⟩ := hbound q hq
    have hlt := (List.getElem?_eq_some_iff.1 hd).1
    omega

theorem serve_apply_of_unknown {g : Gate}
    (h : ∃ q ∈ g.controls ++ g.targets, w.qubits.length ≤ q.index) : w.serve (.apply g) = w := by
  obtain ⟨e, he⟩ : ∃ e, w.record (gateName g) g.controls g.targets = .error e :=
    record_eq_error_of_unknown h
  simp [serve, apply, he]

theorem serve_measure_of_refused (bases : List Pauli)
    (h : ts = [] ∨ ∃ q ∈ ts, w.qubits.length ≤ q.index) : w.serve (.measure bases ts) = w := by
  rcases h with rfl | hq
  · simp [serve, measure]
  · obtain ⟨e, he⟩ : ∃ e, w.record "m" [] ts = .error e :=
      record_eq_error_of_unknown (by simpa using hq)
    by_cases hts : ts.isEmpty <;> simp [serve, measure, hts, he, Except.map]

theorem serveAll_append (w : WidthEstimator) (rs rs' : List WidthRequest) :
    w.serveAll (rs ++ rs') = (w.serveAll rs).serveAll rs' :=
  List.foldl_append

end Record

/-! ### The invariant -/

/-- What the estimator holds after recording the operations `calls`, each a gate name and the
indices of its qubits, in order: as many operation numbers as operations; no operation on a qubit
that is not allocated; the longest chain of all as the circuit depth; what `Tracks` says of every
qubit; and the number of operations of each name, names in ascending order. -/
structure Asap (calls : List (String × List Nat)) (w : WidthEstimator) : Prop where
  time_eq : w.time = calls.length
  unused_of_le : ∀ q, w.qubits.length ≤ q → Unused (calls.map Prod.snd) q
  depth_greatest : IsGreatest (insert 0 {k | ∃ i, ChainTo (calls.map Prod.snd) i k}) w.depth
  tracks : ∀ q d, w.qubits[q]? = some d → Tracks (calls.map Prod.snd) q d
  counts_sorted : w.gateCounts.Pairwise fun a b => a.1 < b.1
  counts : ∀ name, w.gateCounts.lookup name =
    if (calls.map Prod.fst).count name = 0 then none else some ((calls.map Prod.fst).count name)

section Asap

variable {calls : List (String × List Nat)} {w w' : WidthEstimator}

theorem asap_new (o : Objective) : Asap [] (new o) where
  time_eq := rfl
  unused_of_le _ _ _ := by simp
  depth_greatest := by
    refine ⟨Set.mem_insert _ _, fun k hk => ?_⟩
    rcases hk with rfl | ⟨i, hi⟩
    · exact le_rfl
    · exact absurd hi.lt_length (Nat.not_lt_zero _)
  tracks _ _ hd := by simp [new] at hd
  counts_sorted := List.Pairwise.nil
  counts _ := by simp [new]

/-- A request that changes none of the fields the invariant reads keeps it. -/
theorem Asap.congr (h : Asap calls w) (hq : w'.qubits = w.qubits) (hd : w'.depth = w.depth)
    (ht : w'.time = w.time) (hc : w'.gateCounts = w.gateCounts) : Asap calls w' where
  time_eq := ht ▸ h.time_eq
  unused_of_le := hq ▸ h.unused_of_le
  depth_greatest := hd ▸ h.depth_greatest
  tracks := hq ▸ h.tracks
  counts_sorted := hc ▸ h.counts_sorted
  counts := hc ▸ h.counts

/-- A new qubit was used by no operation. -/
theorem Asap.allocate (h : Asap calls w) : Asap calls w.allocate.2 where
  time_eq := h.time_eq
  unused_of_le q hq := by
    simp only [WidthEstimator.allocate, List.length_append, List.length_singleton] at hq
    exact h.unused_of_le q (by omega)
  depth_greatest := h.depth_greatest
  tracks q d hd := by
    simp only [WidthEstimator.allocate, List.getElem?_append] at hd
    split at hd
    · exact h.tracks q d hd
    · next hq =>
      rw [List.getElem?_singleton] at hd
      split at hd
      · cases hd
        exact tracks_of_unused (h.unused_of_le q (Nat.le_of_not_lt hq))
      · cases hd
  counts_sorted := h.counts_sorted
  counts := h.counts

/-- Recording an operation keeps the invariant, with the operation appended. -/
theorem Asap.record (h : Asap calls w) {name : String} {cs ts : List Qubit}
    (hrec : w.record name cs ts = .ok w') :
    Asap (calls ++ [(name, (cs ++ ts).map (·.index))]) w' := by
  obtain ⟨M, hbound, hat, hdepth, htime, hcounts, hlen, hqubits⟩ := record_ok_deepest hrec
  set ops := calls.map Prod.snd
  set P := (cs ++ ts).map (·.index)
  have hops : (calls ++ [(name, P)]).map Prod.snd = ops ++ [P] := by simp [ops]
  have hmemP : ∀ q, q ∈ P ↔ ∃ qq ∈ cs ++ ts, qq.index = q := fun _ => List.mem_map
  have hlenops : ops.length = w.time := by simp [ops, h.time_eq]
  -- every qubit of the operation is allocated, with what `Tracks` says of it
  have hknown : ∀ q ∈ P, ∃ d, w.qubits[q]? = some d ∧ d.stop ≤ M ∧ Tracks ops q d := by
    intro q hq
    obtain ⟨qq, hqq, rfl⟩ := (hmemP q).1 hq
    obtain ⟨d, hd, hle⟩ := hbound qq hqq
    exact ⟨d, hd, hle, h.tracks _ d hd⟩
  -- so the longest chain ending with the new operation has `M + 1` operations
  have hnew : IsGreatest {k | ChainTo (ops ++ [P]) ops.length k} (M + 1) := by
    refine isGreatest_chainTo_snoc (D := fun q => (w.qubits[q]?.map (·.stop)).getD 0)
      (fun q hq j hj => ?_) (fun q hq hu => ?_) (fun q hq => ?_) ?_
    · obtain ⟨d, hd, -, htr⟩ := hknown q hq
      simpa [hd] using (htr.last j hj).1
    · obtain ⟨d, hd, -, htr⟩ := hknown q hq
      simp [hd, htr.unused hu]
    · obtain ⟨d, hd, hle, -⟩ := hknown q hq
      simpa [hd] using hle
    · rcases hat with h0 | ⟨qq, hqq, d, hd, hdM⟩
      · exact .inl h0
      · exact .inr ⟨qq.index, (hmemP _).2 ⟨qq, hqq, rfl⟩, by simp [hd, hdM]⟩
  refine ⟨?_, fun q hq => ?_, ?_, fun q d' hd' => ?_, ?_, fun g => ?_⟩
  · rw [htime, h.time_eq, List.length_append, List.length_singleton]
  · rw [hops, unused_append_iff]
    refine ⟨h.unused_of_le q (hlen ▸ hq), fun hqP => ?_⟩
    obtain ⟨d, hd, -⟩ := hknown q hqP
    have := (List.getElem?_eq_some_iff.1 hd).1
    omega
  · rw [hops, hdepth]
    exact isGreatest_depth_append h.depth_greatest hnew
  · rw [hops]
    rw [hqubits q] at hd'
    split at hd'
    · -- a qubit of the operation is marked with its depth and number
      next hin =>
      obtain ⟨d, hd, rfl⟩ := Option.map_eq_some_iff.1 hd'
      have htr := (h.tracks q d hd).mark ((hmemP q).2 hin) hnew
      rwa [hlenops] at htr
    · next hin =>
      exact (h.tracks q d' hd').append_of_not_mem fun hqP => hin ((hmemP q).1 hqP)
  · rw [hcounts, bumpCount_eq]
    exact SortedList.sorted_bump name h.counts_sorted
  · rw [hcounts, bumpCount_eq, SortedList.lookup_bump name g h.counts_sorted, h.counts g,
      List.map_append, List.count_append]
    by_cases hg : g = name
    · subst hg
      by_cases h0 : (calls.map Prod.fst).count g = 0 <;> simp [h0]
    · simp [hg, Ne.symm hg]

/-- A request that records a gate named `name` on `cs ++ ts` when the estimator accepts it, and
changes nothing when it refuses it, keeps the invariant. -/
theorem Asap.serve_record (h : Asap calls w) (r : WidthRequest) (name : String)
    (cs ts : List Qubit)
    (hcall : WidthRequest.recorded w.qubits.length [r] =
      (WidthRequest.gateCall w.qubits.length name (cs ++ ts)).toList)
    (hok : ∀ w', w.record name cs ts = .ok w' → w.serve r = w')
    (herr : ∀ e, w.record name cs ts = .error e → w.serve r = w) :
    Asap (calls ++ WidthRequest.recorded w.qubits.length [r]) (w.serve r) ∧
      (w.serve r).qubits.length = w.qubits.length := by
  rw [hcall]
  cases hrec : w.record name cs ts with
  | ok w' =>
    obtain ⟨-, -, -, -, -, -, hlen, -⟩ := record_ok_deepest hrec
    rw [gateCall_of_record_ok hrec, Option.toList_some, hok w' hrec]
    exact ⟨h.record hrec, hlen⟩
  | error e =>
    rw [gateCall_of_record_error hrec, Option.toList_none, List.append_nil, herr e hrec]
    exact ⟨h, rfl⟩

/-- Every request keeps the invariant, with the operation it records appended. -/
theorem Asap.serve (h : Asap calls w) (r : WidthRequest) :
    Asap (calls ++ WidthRequest.recorded w.qubits.length [r]) (w.serve r) ∧
      (w.serve r).qubits.length = w.qubits.length + if r.isAllocate then 1 else 0 := by
  cases r with
  | allocate =>
    rw [WidthRequest.recorded, WidthRequest.recorded, List.append_nil]
    exact ⟨h.allocate, by simp [WidthEstimator.serve, WidthEstimator.allocate,
      WidthRequest.isAllocate]⟩
  | release q =>
    have hs : (w.serve (.release q)).qubits = w.qubits ∧ (w.serve (.release q)).depth = w.depth ∧
        (w.serve (.release q)).time = w.time ∧
        (w.serve (.release q)).gateCounts = w.gateCounts := by
      cases hq : w.qubit? q <;> simp [WidthEstimator.serve, release, hq]
    rw [WidthRequest.recorded, WidthRequest.recorded, List.append_nil, hs.1]
    exact ⟨h.congr hs.1 hs.2.1 hs.2.2.1 hs.2.2.2, by simp [WidthRequest.isAllocate]⟩
  | apply g =>
    obtain ⟨hasap, hlen⟩ := h.serve_record (.apply g) (gateName g) g.controls g.targets
      (by simp [WidthRequest.recorded])
      (fun w' hw => by simp [WidthEstimator.serve, WidthEstimator.apply, hw])
      (fun e he => by simp [WidthEstimator.serve, WidthEstimator.apply, he])
    exact ⟨hasap, by simp [hlen, WidthRequest.isAllocate]⟩
  | measure bases ts =>
    by_cases hts : ts.isEmpty
    · -- a measurement without targets is refused
      have hs : w.serve (.measure bases ts) = w := by
        simp [WidthEstimator.serve, measure, hts]
      have hcall : WidthRequest.recorded w.qubits.length [.measure bases ts] = [] := by
        simp [WidthRequest.recorded, hts]
      rw [hs, hcall, List.append_nil]
      exact ⟨h, by simp [WidthRequest.isAllocate]⟩
    · obtain ⟨hasap, hlen⟩ := h.serve_record (.measure bases ts) "m" [] ts
        (by simp [WidthRequest.recorded, hts])
        (fun w' hw => by simp [WidthEstimator.serve, measure, hts, hw, Except.map])
        (fun e he => by simp [WidthEstimator.serve, measure, hts, he, Except.map])
      exact ⟨hasap, by simp [hlen, WidthRequest.isAllocate]⟩

/-- Along a run the invariant holds of the operations the run records, and the qubits are those
allocated before it and by it. -/
theorem Asap.serveAll (h : Asap calls w) (rs : List WidthRequest) :
    Asap (calls ++ WidthRequest.recorded w.qubits.length rs) (w.serveAll rs) ∧
      (w.serveAll rs).qubits.length = w.qubits.length + rs.countP WidthRequest.isAllocate := by
  induction rs generalizing calls w with
  | nil => simpa [WidthRequest.recorded] using h
  | cons r rs ih =>
    obtain ⟨hstep, hlen⟩ := h.serve r
    obtain ⟨hrun, hlen'⟩ := ih hstep
    rw [serveAll_cons, WidthRequest.recorded_cons, ← List.append_assoc, ← hlen]
    refine ⟨hrun, ?_⟩
    rw [hlen', hlen, List.countP_cons]
    omega

end Asap

end WidthEstimator

/-- The width estimator schedules every operation as soon as possible. Run any requests on a new
estimator and number the operations the run records, the accepted gates and measurements, from
one. The circuit depth is the number of operations on the longest chain of them in which each
shares a qubit with the next, and zero when there is none. The qubits are those allocated, and of
each the estimator keeps what `Tracks` says: nothing while no operation used it, else the longest
chains ending with its first and with its last operation and the number of that last one. There
are as many operation numbers as operations, and every gate name is counted with its number of
operations, names in ascending order. A gate or measurement on a qubit that was never allocated,
and a measurement without targets, change nothing at all. -/
theorem asap_depth (o : Objective) (rs : List WidthRequest) :
    let w := (WidthEstimator.new o).serveAll rs
    let calls := WidthRequest.recorded 0 rs
    let ops := calls.map Prod.snd
    let n := rs.countP WidthRequest.isAllocate
    IsGreatest (insert 0 {k | ∃ i, ChainTo ops i k}) w.depth ∧
    w.qubits.length = n ∧ (∀ q d, w.qubits[q]? = some d → Tracks ops q d) ∧
    w.time = calls.length ∧ w.gateCounts.Pairwise (fun a b => a.1 < b.1) ∧
    (∀ name, w.gateCounts.lookup name =
      if (calls.map Prod.fst).count name = 0 then none else some ((calls.map Prod.fst).count name)) ∧
    (∀ g, (∃ q ∈ g.controls ++ g.targets, n ≤ q.index) →
      (WidthEstimator.new o).serveAll (rs ++ [.apply g]) = w) ∧
    (∀ bases ts, (ts = [] ∨ ∃ q ∈ ts, n ≤ q.index) →
      (WidthEstimator.new o).serveAll (rs ++ [.measure bases ts]) = w) := by
  intro w calls ops n
  obtain ⟨h, hlen⟩ := (WidthEstimator.asap_new o).serveAll rs
  have h0 : (WidthEstimator.new o).qubits.length = 0 := rfl
  rw [h0, List.nil_append] at h
  rw [h0, Nat.zero_add] at hlen
  refine ⟨h.depth_greatest, hlen, h.tracks, h.time_eq, h.counts_sorted, h.counts,
    fun g hg => ?_, fun bases ts hts => ?_⟩
  · rw [WidthEstimator.serveAll_append]
    exact WidthEstimator.serve_apply_of_unknown (hlen ▸ hg)
  · rw [WidthEstimator.serveAll_append]
    exact WidthEstimator.serve_measure_of_refused bases (hlen ▸ hts)

end QuantumRuntime
