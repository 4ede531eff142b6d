import Mathlib
import QuantumRuntime.Proofs.Width.Report
import QuantumRuntime.Proofs.SortedMap

/-!
# Cores of the interference graph

A register count `k` fits the interference graph when peeling, that is deleting again and again a
qubit with fewer than `k` neighbours among the remaining ones, deletes every qubit. Whether it does
is a property of the graph alone: every set of qubits in which each has at least `k` neighbours
(`Interference.Stuck`) survives every peeling (`Stuck.subset_of_peels`), so every peeling that
comes to a stop stops at the same place, the `k`-core, and the count fits exactly when no such
set is nonempty (`Interference.CoreEmpty`).

`canFit` peels in rounds, deleting in each round every qubit then below `k`; a round is a peeling
of its qubits one by one (`peels_sdiff`), and the rounds stop where no qubit can go
(`core_peels`). The graph keeps each edge once with its smaller qubit first (`EdgesProper`), which
every recorded operation preserves, so the edges a qubit meets count its neighbours
(`length_filter_incident`).

From the core follow the rest: fitting is monotone in `k`, a count that fits colours the graph
properly with that many registers (`exists_colouring`), and the bisection of `estimate` finds the
least fitting count above the largest arity (`estimate_least`), which is one more than the
degeneracy of the graph when the graph has edges (`coreEmpty_iff_degeneracy_lt`).
-/

namespace QuantumRuntime

namespace Interference

/-! ### Edge lists -/

/-- Every edge is stored once, with its smaller qubit first. -/
structure EdgesProper (edges : List (Nat × Nat)) : Prop where
  ordered : ∀ e ∈ edges, e.1 < e.2
  nodup : edges.Nodup

theorem EdgesProper.addEdge {edges : List (Nat × Nat)} (h : EdgesProper edges) {a b : Nat}
    (hab : a ≠ b) : EdgesProper (Interference.addEdge edges a b) := by
  unfold Interference.addEdge
  dsimp only
  split
  · exact h
  · next hnew =>
    refine ⟨fun e he => ?_, ?_⟩
    · rcases List.mem_append.1 he with he | he
      · exact h.ordered e he
      · rw [List.mem_singleton.1 he]
        dsimp only
        omega
    · rw [← List.concat_eq_append]
      exact h.nodup.concat (by simpa using hnew)

/-- Recording an operation only adds edges between distinct qubits. -/
theorem EdgesProper.addOperation {g : Interference} (h : EdgesProper g.edges) (op : Nat)
    (dependsOn qubits : List Nat) : EdgesProper (g.addOperation op dependsOn qubits).edges := by
  unfold Interference.addOperation
  refine List.foldlRecOn _ _ h fun edges hq q _ => ?_
  refine List.foldlRecOn _ _ hq fun edges ho o _ => ?_
  split
  · exact ho
  · next hne => exact ho.addEdge hne

/-- An operation as the graph records it: its id, the operations it depends on and its qubits. -/
structure Operation where
  id : Nat
  dependsOn : List Nat
  qubits : List Nat
deriving DecidableEq, Repr

/-- The graph recorded from a list of operations. -/
def build (ops : List Operation) : Interference :=
  ops.foldl (fun g o => g.addOperation o.id o.dependsOn o.qubits) {}

theorem edgesProper_build (ops : List Operation) : EdgesProper (build ops).edges :=
  List.foldlRecOn (motive := fun g : Interference => EdgesProper g.edges) ops _
    ⟨fun _ he => absurd he List.not_mem_nil, List.nodup_nil⟩
    fun _ hg o _ => hg.addOperation o.id o.dependsOn o.qubits

/-! ### Qubits and neighbours -/

/-- A qubit set is a sorted list of distinct qubits. -/
theorem qubitSet_insert_eq (q : Nat) : ∀ l, QubitSet.insert q l = SortedList.insert q l
  | [] => rfl
  | p :: rest => by simp only [QubitSet.insert, SortedList.insert, qubitSet_insert_eq q rest]

theorem mem_insert_iff {x q : Nat} {l : List Nat} : x ∈ QubitSet.insert q l ↔ x = q ∨ x ∈ l := by
  rw [qubitSet_insert_eq]
  exact SortedList.mem_insert

theorem mem_foldl_insert {x : Nat} :
    ∀ (edges : List (Nat × Nat)) (s : List Nat),
      x ∈ edges.foldl (fun s (a, b) => QubitSet.insert b (QubitSet.insert a s)) s ↔
        x ∈ s ∨ ∃ e ∈ edges, x = e.1 ∨ x = e.2
  | [], s => by simp
  | (a, b) :: edges, s => by
    rw [List.foldl_cons, mem_foldl_insert edges, mem_insert_iff, mem_insert_iff]
    simp only [List.mem_cons, exists_eq_or_imp]
    simp only [or_left_comm, or_assoc]

/-- The qubits of the graph are the ends of its edges. -/
theorem mem_nodes_iff {g : Interference} {x : Nat} :
    x ∈ g.nodes ↔ ∃ e ∈ g.edges, x = e.1 ∨ x = e.2 := by
  rw [nodes, mem_foldl_insert]
  simp

/-- The neighbours of `q` among the qubits `S`. -/
def neighbours (g : Interference) (S : Finset Nat) (q : Nat) : Finset Nat :=
  S.filter fun u => g.interfere q u = true

variable {g : Interference} {k : Nat} {S T U : Finset Nat}

theorem interfere_iff {a b : Nat} : g.interfere a b = true ↔ (min a b, max a b) ∈ g.edges := by
  simp [interfere]

theorem interfere_comm (a b : Nat) : g.interfere a b = g.interfere b a := by
  unfold interfere
  rw [min_comm, max_comm]

/-- Interference is between distinct qubits of the graph. -/
theorem interfere_spec (h : EdgesProper g.edges) {a b : Nat} (hab : g.interfere a b = true) :
    a ≠ b ∧ a ∈ g.nodes ∧ b ∈ g.nodes := by
  have he := interfere_iff.1 hab
  have hlt := h.ordered _ he
  refine ⟨fun hab' => by subst hab'; simp at hlt, ?_, ?_⟩
  · refine mem_nodes_iff.2 ⟨_, he, ?_⟩
    omega
  · refine mem_nodes_iff.2 ⟨_, he, ?_⟩
    omega

theorem neighbours_mono (hST : S ⊆ T) (q : Nat) : g.neighbours S q ⊆ g.neighbours T q :=
  Finset.filter_subset_filter _ hST

theorem card_neighbours_mono (hST : S ⊆ T) (q : Nat) :
    (g.neighbours S q).card ≤ (g.neighbours T q).card :=
  Finset.card_le_card (neighbours_mono hST q)

/-! ### Peeling -/

/-- One step of peeling: a qubit with fewer than `k` neighbours among the remaining ones goes. -/
def Peel (g : Interference) (k : Nat) (S S' : Finset Nat) : Prop :=
  ∃ v ∈ S, (g.neighbours S v).card < k ∧ S' = S.erase v

/-- Every qubit of `S` has at least `k` neighbours in `S`, so that no peeling step applies. -/
def Stuck (g : Interference) (k : Nat) (S : Finset Nat) : Prop :=
  ∀ v ∈ S, k ≤ (g.neighbours S v).card

instance (g : Interference) (k : Nat) : DecidablePred (g.Stuck k) :=
  fun S => inferInstanceAs (Decidable (∀ v ∈ S, k ≤ (g.neighbours S v).card))

/-- The `k`-core of the graph is empty: the only stuck set of its qubits is the empty one. -/
def CoreEmpty (g : Interference) (k : Nat) : Prop :=
  ∀ T ⊆ g.nodes.toFinset, g.Stuck k T → T = ∅

theorem Stuck.mono (h : g.Stuck k S) {j : Nat} (hj : j ≤ k) : g.Stuck j S :=
  fun v hv => le_trans hj (h v hv)

theorem subset_of_peels (h : Relation.ReflTransGen (g.Peel k) S T) : T ⊆ S := by
  induction h with
  | refl => exact subset_rfl
  | tail _ hstep ih =>
    obtain ⟨v, -, -, rfl⟩ := hstep
    exact (Finset.erase_subset v _).trans ih

/-- A stuck set among the remaining qubits survives a peeling step: each of its qubits keeps at
least `k` neighbours. -/
theorem Stuck.subset_of_peel (hU : g.Stuck k U) (hUS : U ⊆ S) (hstep : g.Peel k S T) : U ⊆ T := by
  obtain ⟨v, -, hlow, rfl⟩ := hstep
  intro x hx
  refine Finset.mem_erase.2 ⟨fun hxv => ?_, hUS hx⟩
  subst hxv
  have hin := hU x hx
  have hle := card_neighbours_mono (g := g) hUS x
  omega

theorem Stuck.subset_of_peels (hU : g.Stuck k U) (hUS : U ⊆ S)
    (h : Relation.ReflTransGen (g.Peel k) S T) : U ⊆ T := by
  -- the stuck set stays inside every stage of the peeling
  induction h with
  | refl => exact hUS
  | tail _ hstep ih => exact hU.subset_of_peel ih hstep

/-- Every peeling of the qubits that comes to a stop ends empty exactly when the `k`-core is
empty: where it stops does not depend on the order of the deletions. -/
theorem coreEmpty_iff_of_peels (h : Relation.ReflTransGen (g.Peel k) g.nodes.toFinset T)
    (hT : g.Stuck k T) : g.CoreEmpty k ↔ T = ∅ := by
  refine ⟨fun hc => hc T (subset_of_peels h) hT, fun hT0 U hU hstuck => ?_⟩
  have hUT := hstuck.subset_of_peels hU h
  rw [hT0] at hUT
  exact Finset.subset_empty.1 hUT

/-- Deleting a set of qubits that each have fewer than `k` neighbours is a peeling, in any
order. -/
theorem peels_sdiff {R : Finset Nat} (hRS : R ⊆ S)
    (hR : ∀ v ∈ R, (g.neighbours S v).card < k) : Relation.ReflTransGen (g.Peel k) S (S \ R) := by
  induction R using Finset.induction_on with
  | empty => rw [Finset.sdiff_empty]
  | insert a R ha ih =>
    have hstep : g.Peel k (S \ R) (S \ insert a R) := by
      refine ⟨a, Finset.mem_sdiff.2 ⟨hRS (Finset.mem_insert_self a R), ha⟩, ?_, ?_⟩
      · exact lt_of_le_of_lt (card_neighbours_mono Finset.sdiff_subset a)
          (hR a (Finset.mem_insert_self a R))
      · rw [Finset.sdiff_insert]
    exact (ih ((Finset.subset_insert a R).trans hRS)
      fun v hv => hR v (Finset.mem_insert_of_mem hv)).tail hstep

/-! ### Counting neighbours by edges -/

/-- The other end of an edge at `q`. -/
def otherEnd (q : Nat) (e : Nat × Nat) : Nat := if e.1 = q then e.2 else e.1

/-- The edge list `E` holds the graph's edges between qubits of `N`, each once with its smaller
qubit first: what peeling in rounds keeps of the edges. -/
structure Tracks (g : Interference) (N : List Nat) (E : List (Nat × Nat)) : Prop where
  proper : EdgesProper E
  mem_iff : ∀ e, e ∈ E ↔ e ∈ g.edges ∧ e.1 ∈ N ∧ e.2 ∈ N

variable {N M : List Nat} {E : List (Nat × Nat)}

theorem tracks_nodes (h : EdgesProper g.edges) : g.Tracks g.nodes g.edges := by
  refine ⟨h, fun e => ⟨fun he => ⟨he, ?_, ?_⟩, fun he => he.1⟩⟩
  · exact mem_nodes_iff.2 ⟨e, he, .inl rfl⟩
  · exact mem_nodes_iff.2 ⟨e, he, .inr rfl⟩

/-- Keeping the edges between the qubits of a smaller list tracks that list. -/
theorem Tracks.filter (ht : g.Tracks N E) (hMN : ∀ x ∈ M, x ∈ N) {p : Nat × Nat → Bool}
    (hp : ∀ a b, p (a, b) = true ↔ a ∈ M ∧ b ∈ M) : g.Tracks M (E.filter p) := by
  refine ⟨⟨fun e he => ht.proper.ordered e (List.mem_filter.1 he).1,
    ht.proper.nodup.filter p⟩, fun e => ?_⟩
  obtain ⟨a, b⟩ := e
  rw [List.mem_filter, hp, ht.mem_iff]
  constructor
  · rintro ⟨⟨he, -, -⟩, ha, hb⟩
    exact ⟨he, ha, hb⟩
  · rintro ⟨he, ha, hb⟩
    exact ⟨⟨he, hMN a ha, hMN b hb⟩, ha, hb⟩

/-- Counted through tracked edges, the edges that meet a qubit are as many as its neighbours:
an edge at `q` is read by its other end, and no two edges at `q` share it. -/
theorem Tracks.length_filter_incident (ht : g.Tracks N E) {q : Nat} (hq : q ∈ N)
    {p : Nat × Nat → Bool} (hp : ∀ a b, p (a, b) = true ↔ a = q ∨ b = q) :
    (E.filter p).length = (g.neighbours N.toFinset q).card := by
  have hmem : ∀ e, e ∈ E.filter p ↔ e ∈ E ∧ (e.1 = q ∨ e.2 = q) := fun e => by
    rw [List.mem_filter, ← hp]
  have hinj : ∀ x ∈ E.filter p, ∀ y ∈ E.filter p, otherEnd q x = otherEnd q y → x = y := by
    intro x hx y hy hxy
    obtain ⟨hxE, hxq⟩ := (hmem x).1 hx
    obtain ⟨hyE, hyq⟩ := (hmem y).1 hy
    have hox := ht.proper.ordered x hxE
    have hoy := ht.proper.ordered y hyE
    unfold otherEnd at hxy
    refine Prod.ext ?_ ?_ <;> split_ifs at hxy <;> omega
  have hset : ((E.filter p).map (otherEnd q)).toFinset = g.neighbours N.toFinset q := by
    ext u
    simp only [List.mem_toFinset, List.mem_map, neighbours, Finset.mem_filter, interfere_iff]
    constructor
    · rintro ⟨e, he, rfl⟩
      obtain ⟨heE, hinc⟩ := (hmem e).1 he
      obtain ⟨hg, h1, h2⟩ := (ht.mem_iff e).1 heE
      have ho := ht.proper.ordered e heE
      have hend : (min q (otherEnd q e), max q (otherEnd q e)) = e := by
        unfold otherEnd
        refine Prod.ext ?_ ?_ <;> split_ifs <;> simp only <;> omega
      refine ⟨?_, by rw [hend]; exact hg⟩
      unfold otherEnd
      split_ifs
      · exact h2
      · exact h1
    · rintro ⟨hu, he⟩
      have hends : min q u ∈ N ∧ max q u ∈ N := by
        rcases le_total q u with hle | hle
        · rw [min_eq_left hle, max_eq_right hle]
          exact ⟨hq, hu⟩
        · rw [min_eq_right hle, max_eq_left hle]
          exact ⟨hu, hq⟩
      have heE : (min q u, max q u) ∈ E := (ht.mem_iff _).2 ⟨he, hends⟩
      have ho := ht.proper.ordered _ heE
      refine ⟨(min q u, max q u), (hmem _).2 ⟨heE, ?_⟩, ?_⟩
      · dsimp only at ho ⊢
        omega
      · unfold otherEnd
        dsimp only at ho ⊢
        split_ifs <;> omega
  rw [← List.length_map (otherEnd q),
    ← List.toFinset_card_of_nodup ((ht.proper.nodup.filter p).map_on hinj), hset]

/-- The number of edges of `E` at `q`. -/
def incident (E : List (Nat × Nat)) (q : Nat) : Nat := (E.filter fun e => e.1 = q ∨ e.2 = q).length

theorem Tracks.incident_eq (ht : g.Tracks N E) {q : Nat} (hq : q ∈ N) :
    incident E q = (g.neighbours N.toFinset q).card :=
  ht.length_filter_incident hq fun _ _ => decide_eq_true_iff

/-- The degree of a qubit of the graph is its number of neighbours. -/
theorem degree_eq_card (h : EdgesProper g.edges) {q : Nat} (hq : q ∈ g.nodes) :
    g.degree q = (g.neighbours g.nodes.toFinset q).card :=
  (tracks_nodes h).incident_eq hq

/-! ### Peeling in rounds -/

/-- A round of `core`: the qubits with at least `k` edges go on, with the edges between them. -/
theorem core_succ (k r : Nat) (N : List Nat) (E : List (Nat × Nat)) :
    core k (r + 1) N E =
      let keep := N.filter fun q => k ≤ incident E q
      if keep.length = N.length then N
      else core k r keep (E.filter fun e => keep.contains e.1 ∧ keep.contains e.2) :=
  rfl

/-- Peeling in rounds is a peeling: each round deletes every qubit then below `k`, and with as
many rounds as qubits the rounds stop only where no qubit can go. -/
theorem core_peels (k : Nat) : ∀ (r : Nat) (N : List Nat) (E : List (Nat × Nat)),
    g.Tracks N E → N.length ≤ r →
      Relation.ReflTransGen (g.Peel k) N.toFinset (core k r N E).toFinset ∧
        g.Stuck k (core k r N E).toFinset
  | 0, N, E, _, hr => by
    rw [List.length_eq_zero_iff.1 (Nat.le_zero.1 hr)]
    exact ⟨.refl, fun v hv => absurd hv (by simp [core])⟩
  | r + 1, N, E, ht, hr => by
    rw [core_succ]
    dsimp only
    split
    · next hall =>
      -- no qubit is below `k`: the rounds stop here
      refine ⟨.refl, fun v hv => ?_⟩
      have hvN := List.mem_toFinset.1 hv
      have hkeep := List.length_filter_eq_length_iff.1 hall v hvN
      rw [decide_eq_true_eq, ht.incident_eq hvN] at hkeep
      exact hkeep
    · next hsome =>
      set keep := N.filter fun q => k ≤ incident E q with hkeep
      have hsub : ∀ x ∈ keep, x ∈ N := fun x hx => (List.mem_filter.1 hx).1
      have hlen : keep.length < N.length :=
        lt_of_le_of_ne (List.length_filter_le _ N) hsome
      -- the round deletes the qubits below `k`, one after another
      have hround : keep.toFinset =
          N.toFinset \ N.toFinset.filter fun v => (g.neighbours N.toFinset v).card < k := by
        ext v
        simp only [hkeep, List.mem_toFinset, List.mem_filter, Finset.mem_sdiff,
          Finset.mem_filter, decide_eq_true_eq, not_and, not_lt]
        constructor
        · rintro ⟨hv, hk⟩
          exact ⟨hv, fun _ => (ht.incident_eq hv) ▸ hk⟩
        · rintro ⟨hv, hk⟩
          exact ⟨hv, (ht.incident_eq hv).symm ▸ hk hv⟩
      obtain ⟨hpeels, hstuck⟩ := core_peels k r keep
        (E.filter fun e => keep.contains e.1 ∧ keep.contains e.2)
        (ht.filter hsub fun a b => by simp) (by omega)
      refine ⟨.trans ?_ hpeels, hstuck⟩
      rw [hround]
      exact peels_sdiff (Finset.filter_subset _ _) fun v hv => (Finset.mem_filter.1 hv).2

/-! ### Fitting a register count -/

theorem nodes_eq_nil_iff : g.nodes = [] ↔ g.edges = [] := by
  rw [List.eq_nil_iff_forall_not_mem, List.eq_nil_iff_forall_not_mem]
  constructor
  · intro hn e he
    exact hn e.1 (mem_nodes_iff.2 ⟨e, he, .inl rfl⟩)
  · intro he x hx
    obtain ⟨e, hmem, -⟩ := mem_nodes_iff.1 hx
    exact he e hmem

/-- No qubit has more neighbours in a set of qubits than the largest degree. -/
theorem card_neighbours_le_maxDegree (h : EdgesProper g.edges) (hS : S ⊆ g.nodes.toFinset)
    {v : Nat} (hv : v ∈ S) : (g.neighbours S v).card ≤ g.maxDegree := by
  have hvN : v ∈ g.nodes := List.mem_toFinset.1 (hS hv)
  calc (g.neighbours S v).card ≤ (g.neighbours g.nodes.toFinset v).card :=
        card_neighbours_mono hS v
    _ = g.degree v := (degree_eq_card h hvN).symm
    _ ≤ g.maxDegree := (foldl_max_spec g.degree g.nodes 0).2.1 v hvN

/-- A count fits exactly when the `k`-core of the graph is empty. -/
theorem canFit_iff_coreEmpty (h : EdgesProper g.edges) (k : Nat) :
    g.canFit k = true ↔ g.CoreEmpty k := by
  unfold canFit
  split
  · next hmax =>
    -- above the largest degree every stuck set is empty
    refine iff_of_true rfl fun T hT hstuck => Finset.eq_empty_of_forall_notMem fun v hv => ?_
    have hk := hstuck v hv
    have hle := card_neighbours_le_maxDegree h hT hv
    omega
  · obtain ⟨hpeels, hstuck⟩ :=
      core_peels k g.nodes.length g.nodes g.edges (tracks_nodes h) le_rfl
    rw [coreEmpty_iff_of_peels hpeels hstuck, List.isEmpty_iff, List.toFinset_eq_empty_iff]

theorem CoreEmpty.mono (hc : g.CoreEmpty k) {k' : Nat} (hk : k ≤ k') : g.CoreEmpty k' :=
  fun T hT hstuck => hc T hT (hstuck.mono hk)

theorem canFit_mono (h : EdgesProper g.edges) {j k : Nat} (hjk : j ≤ k) (hj : g.canFit j = true) :
    g.canFit k = true :=
  (canFit_iff_coreEmpty h k).2 (((canFit_iff_coreEmpty h j).1 hj).mono hjk)

theorem canFit_of_maxDegree_lt {k : Nat} (hk : g.maxDegree < k) : g.canFit k = true := by
  simp [canFit, hk]

/-- Two peelings that come to a stop stop at the same set: the `k`-core. -/
theorem stuck_peels_eq {T T' : Finset Nat}
    (h : Relation.ReflTransGen (g.Peel k) g.nodes.toFinset T) (hT : g.Stuck k T)
    (h' : Relation.ReflTransGen (g.Peel k) g.nodes.toFinset T') (hT' : g.Stuck k T') : T = T' :=
  Finset.Subset.antisymm (hT.subset_of_peels (subset_of_peels h) h')
    (hT'.subset_of_peels (subset_of_peels h') h)

/-! ### Colouring -/

/-- Qubits whose nonempty subsets each have a qubit with fewer than `k` neighbours in them can be
coloured below `k` with neighbours apart: colour all but such a qubit, then give it a colour that
its fewer than `k` neighbours leave free. -/
theorem exists_colouring_of_sparse (h : EdgesProper g.edges) (k : Nat) :
    ∀ (n : Nat) (S : Finset Nat), S.card = n →
      (∀ T ⊆ S, T.Nonempty → ∃ v ∈ T, (g.neighbours T v).card < k) →
      ∃ col : Nat → Nat, (∀ v ∈ S, col v < k) ∧
        ∀ a ∈ S, ∀ b ∈ S, g.interfere a b = true → col a ≠ col b
  | 0, S, hn, _ => by
    rw [Finset.card_eq_zero.1 hn]
    exact ⟨fun _ => 0, fun v hv => absurd hv (Finset.notMem_empty v),
      fun a ha => absurd ha (Finset.notMem_empty a)⟩
  | n + 1, S, hn, hsparse => by
    obtain ⟨v, hv, hlow⟩ := hsparse S subset_rfl (Finset.card_pos.1 (by omega))
    obtain ⟨col, hcol, hproper⟩ := exists_colouring_of_sparse h k n (S.erase v)
      (by rw [Finset.card_erase_of_mem hv, hn]; rfl)
      fun T hT hne => hsparse T (hT.trans (Finset.erase_subset v S)) hne
    -- the neighbours of `v` take fewer than `k` colours, so one below `k` is free
    have hfree : ∃ c < k, c ∉ (g.neighbours (S.erase v) v).image col := by
      by_contra hnone
      push Not at hnone
      have hcover : Finset.range k ⊆ (g.neighbours (S.erase v) v).image col :=
        fun c hc => hnone c (Finset.mem_range.1 hc)
      have h1 := Finset.card_le_card hcover
      have h2 : ((g.neighbours (S.erase v) v).image col).card ≤ _ := Finset.card_image_le
      have h3 := card_neighbours_mono (g := g) (Finset.erase_subset v S) v
      rw [Finset.card_range] at h1
      omega
    obtain ⟨c, hck, hc⟩ := hfree
    refine ⟨Function.update col v c, fun u hu => ?_, fun a ha b hb hab => ?_⟩
    · by_cases huv : u = v
      · rw [huv, Function.update_self]
        exact hck
      · rw [Function.update_of_ne huv]
        exact hcol u (Finset.mem_erase.2 ⟨huv, hu⟩)
    · have hne := (interfere_spec h hab).1
      by_cases hav : a = v
      · subst hav
        rw [Function.update_self, Function.update_of_ne hne.symm]
        intro hcb
        apply hc
        rw [hcb]
        exact Finset.mem_image_of_mem col
          (Finset.mem_filter.2 ⟨Finset.mem_erase.2 ⟨hne.symm, hb⟩, hab⟩)
      · by_cases hbv : b = v
        · subst hbv
          rw [Function.update_self, Function.update_of_ne hav]
          intro hac
          apply hc
          rw [← hac]
          refine Finset.mem_image_of_mem col (Finset.mem_filter.2 ⟨Finset.mem_erase.2 ⟨hav, ha⟩, ?_⟩)
          rw [interfere_comm]
          exact hab
        · rw [Function.update_of_ne hav, Function.update_of_ne hbv]
          exact hproper a (Finset.mem_erase.2 ⟨hav, ha⟩) b (Finset.mem_erase.2 ⟨hbv, hb⟩) hab

/-- With an empty `k`-core the graph has a proper colouring with `k` registers. -/
theorem CoreEmpty.exists_colouring (h : EdgesProper g.edges) (hc : g.CoreEmpty k) :
    ∃ col : Nat → Nat, (∀ v ∈ g.nodes, col v < k) ∧
      ∀ a b, g.interfere a b = true → col a ≠ col b := by
  have hsparse : ∀ T ⊆ g.nodes.toFinset, T.Nonempty → ∃ v ∈ T, (g.neighbours T v).card < k := by
    intro T hT hne
    by_contra hno
    push Not at hno
    exact hne.ne_empty (hc T hT hno)
  obtain ⟨col, hcol, hproper⟩ := exists_colouring_of_sparse h k _ g.nodes.toFinset rfl hsparse
  refine ⟨col, fun v hv => hcol v (List.mem_toFinset.2 hv), fun a b hab => ?_⟩
  obtain ⟨-, ha, hb⟩ := interfere_spec h hab
  exact hproper a (List.mem_toFinset.2 ha) b (List.mem_toFinset.2 hb) hab

/-! ### Degeneracy -/

/-- The degeneracy of the graph: the largest `d` such that some nonempty set of its qubits has
each of them with at least `d` neighbours in the set. -/
def degeneracy (g : Interference) : Nat :=
  Nat.findGreatest (fun d => ∃ T ∈ g.nodes.toFinset.powerset, T.Nonempty ∧ g.Stuck d T)
    g.nodes.length

/-- In a graph with qubits, some nonempty set is stuck at `k` exactly up to the degeneracy. -/
theorem exists_stuck_iff (hne : g.nodes ≠ []) :
    (∃ T ⊆ g.nodes.toFinset, T.Nonempty ∧ g.Stuck k T) ↔ k ≤ g.degeneracy := by
  constructor
  · rintro ⟨T, hT, ⟨v, hv⟩, hstuck⟩
    have hk : k ≤ g.nodes.length := calc
      k ≤ (g.neighbours T v).card := hstuck v hv
      _ ≤ T.card := Finset.card_filter_le _ _
      _ ≤ g.nodes.toFinset.card := Finset.card_le_card hT
      _ ≤ g.nodes.length := List.toFinset_card_le _
    exact Nat.le_findGreatest hk ⟨T, Finset.mem_powerset.2 hT, ⟨v, hv⟩, hstuck⟩
  · intro hk
    -- the degeneracy is attained, at worst by all the qubits at zero
    have hzero : ∃ T ∈ g.nodes.toFinset.powerset, T.Nonempty ∧ g.Stuck 0 T :=
      ⟨g.nodes.toFinset, Finset.mem_powerset_self _, (List.toFinset_nonempty_iff _).2 hne,
        fun _ _ => Nat.zero_le _⟩
    obtain ⟨T, hT, hTne, hstuck⟩ := Nat.findGreatest_spec
      (P := fun d => ∃ T ∈ g.nodes.toFinset.powerset, T.Nonempty ∧ g.Stuck d T)
      (Nat.zero_le g.nodes.length) hzero
    exact ⟨T, Finset.mem_powerset.1 hT, hTne, hstuck.mono hk⟩

/-- In a graph with qubits the `k`-core is empty exactly above the degeneracy. -/
theorem coreEmpty_iff_degeneracy_lt (hne : g.nodes ≠ []) : g.CoreEmpty k ↔ g.degeneracy < k := by
  rw [← not_le, ← exists_stuck_iff hne]
  constructor
  · rintro hc ⟨T, hT, hTne, hstuck⟩
    exact hTne.ne_empty (hc T hT hstuck)
  · intro hno T hT hstuck
    by_contra hTne
    exact hno ⟨T, hT, Finset.nonempty_iff_ne_empty.2 hTne, hstuck⟩

theorem coreEmpty_of_nodes_eq_nil (hnil : g.nodes = []) (k : Nat) : g.CoreEmpty k := by
  intro T hT _
  rw [hnil, List.toFinset_nil] at hT
  exact Finset.subset_empty.1 hT

/-! ### The width estimate -/

/-- The bisection keeps its upper bound fitting and its lower bound at the arity or not fitting;
with a gap no wider than its fuel, it ends with the bounds next to each other. -/
theorem bisect_spec {A : Nat} : ∀ (fuel r s : Nat), A ≤ r → r < s → s ≤ fuel + r + 1 →
    g.canFit s = true → (r = A ∨ g.canFit r = false) →
      A ≤ (g.bisect fuel r s).1 ∧ (g.bisect fuel r s).1 + 1 = (g.bisect fuel r s).2 ∧
        g.canFit (g.bisect fuel r s).2 = true ∧
        ((g.bisect fuel r s).1 = A ∨ g.canFit (g.bisect fuel r s).1 = false)
  | 0, r, s, hA, hrs, hfuel, hs, hr => ⟨hA, by simp only [bisect]; omega, hs, hr⟩
  | fuel + 1, r, s, hA, hrs, hfuel, hs, hr => by
    rw [bisect]
    split
    · next hgap =>
      dsimp only
      split
      · next hc => exact bisect_spec fuel r ((r + s) / 2) hA (by omega) (by omega) hc hr
      · next hc =>
        exact bisect_spec fuel ((r + s) / 2) s (by omega) (by omega) (by omega) hs
          (.inr (by simpa using hc))
    · next hgap => exact ⟨hA, by omega, hs, hr⟩

/-- The estimate is the least count, at least the largest arity, that fits. -/
theorem estimate_least (h : EdgesProper g.edges) :
    g.maxArity ≤ g.estimate ∧ g.canFit g.estimate = true ∧
      ∀ k, g.maxArity ≤ k → g.canFit k = true → g.estimate ≤ k := by
  unfold estimate
  dsimp only
  split
  · next hle => exact ⟨le_rfl, canFit_of_maxDegree_lt (by omega), fun _ hk _ => hk⟩
  · next hlt =>
    obtain ⟨hA, hnext, hs, hr⟩ := bisect_spec (g := g) (A := g.maxArity) (g.maxDegree + 1)
      g.maxArity (g.maxDegree + 1) le_rfl (by omega) (by omega)
      (canFit_of_maxDegree_lt (Nat.lt_succ_self _)) (.inl rfl)
    generalize g.bisect (g.maxDegree + 1) g.maxArity (g.maxDegree + 1) = p at hA hnext hs hr ⊢
    obtain ⟨r, s⟩ := p
    dsimp only at hA hnext hs hr ⊢
    split
    · next hfit =>
      -- the lower bound fits, so it never moved from the arity
      have hrA : r = g.maxArity := hr.resolve_right (by simp [hfit])
      exact ⟨hA, hfit, fun k hk _ => hrA ▸ hk⟩
    · next hfit =>
      refine ⟨by omega, hs, fun k _ hk => ?_⟩
      by_contra hks
      exact hfit (canFit_mono h (by omega) hk)

/-- The estimate in terms of the graph: the largest arity for a graph without edges, and
otherwise the larger of the arity and one more than the degeneracy. -/
theorem estimate_eq (h : EdgesProper g.edges) :
    g.estimate = if g.edges = [] then g.maxArity else max g.maxArity (g.degeneracy + 1) := by
  obtain ⟨hA, hfit, hleast⟩ := estimate_least h
  split
  · next hnil =>
    have hall : g.canFit g.maxArity = true := (canFit_iff_coreEmpty h _).2
      (coreEmpty_of_nodes_eq_nil (nodes_eq_nil_iff.2 hnil) _)
    exact le_antisymm (hleast _ le_rfl hall) hA
  · next hne =>
    have hiff : ∀ k, g.canFit k = true ↔ g.degeneracy < k := fun k =>
      (canFit_iff_coreEmpty h k).trans
        (coreEmpty_iff_degeneracy_lt fun hn => hne (nodes_eq_nil_iff.1 hn))
    have hdeg := (hiff _).1 hfit
    refine le_antisymm (hleast _ (le_max_left _ _) ((hiff _).2 ?_)) (max_le hA hdeg)
    omega

/-- Three qubits acted on together interfere pairwise: degeneracy two, three registers. -/
example :
    (build [⟨1, [], [1, 2, 3]⟩]).degeneracy = 2 ∧ (build [⟨1, [], [1, 2, 3]⟩]).estimate = 3 := by
  decide

/-- On every graph recorded from operations: a count fits exactly when its core is empty; every
peeling that stops, in whatever order it deletes, stops at one set, empty exactly when the count
fits; fitting is monotone and gives a proper colouring; and the estimate is the least fitting count
above the largest arity, one more than the degeneracy when that is larger and the graph has
edges. -/
theorem width_search (ops : List Operation) (k : Nat) :
    let g := build ops
    (g.canFit k = true ↔ g.CoreEmpty k) ∧
      (∀ T, Relation.ReflTransGen (g.Peel k) g.nodes.toFinset T → g.Stuck k T →
        (g.canFit k = true ↔ T = ∅) ∧
          ∀ T', Relation.ReflTransGen (g.Peel k) g.nodes.toFinset T' → g.Stuck k T' → T = T') ∧
      (∀ k', k ≤ k' → g.canFit k = true → g.canFit k' = true) ∧
      (g.canFit k = true → ∃ col : Nat → Nat, (∀ v ∈ g.nodes, col v < k) ∧
        ∀ a b, g.interfere a b = true → col a ≠ col b) ∧
      (g.maxArity ≤ g.estimate ∧ g.canFit g.estimate = true ∧
        ∀ j, g.maxArity ≤ j → g.canFit j = true → g.estimate ≤ j) ∧
      g.estimate = if g.edges = [] then g.maxArity else max g.maxArity (g.degeneracy + 1) := by
  intro g
  have h : EdgesProper g.edges := edgesProper_build ops
  refine ⟨canFit_iff_coreEmpty h k, fun T hT hstuck => ⟨?_, fun T' hT' hstuck' =>
    stuck_peels_eq hT hstuck hT' hstuck'⟩, fun k' hk hfit => canFit_mono h hk hfit,
    fun hfit => ((canFit_iff_coreEmpty h k).1 hfit).exists_colouring h, estimate_least h,
    estimate_eq h⟩
  rw [canFit_iff_coreEmpty h k]
  exact coreEmpty_iff_of_peels hT hstuck

end Interference

end QuantumRuntime
