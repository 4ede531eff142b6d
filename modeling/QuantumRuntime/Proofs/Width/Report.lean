import Mathlib
import QuantumRuntime.Width.Estimator
import QuantumRuntime.Proofs.Schedule.Sweep

/-!
# What the width estimator reports

A program drives the width estimator with requests: allocating and releasing qubits, applying
gates and measuring. `WidthEstimator.serveAll` answers them in turn; a refused request (an unknown
qubit, a measurement without targets) leaves the estimator as it was. `WidthEstimator.serve_cases`
says once what a request can do: allocate, leave the depths alone, or record an operation.

A recorded operation gets the depth one past the deepest of its qubits, and each of its qubits is
moved to that depth: its first depth is set on its first use and its last depth is overwritten.
So along any run a qubit's interval of depths is `[0, 0]` while it is unused and `[s, e]` with
`1 ≤ s ≤ e` once used (`WidthEstimator.started_serveAll`, `WidthEstimator.proper_serveAll`), and
the circuit depth is the deepest last depth, raised to one by a gate that acts on no qubit at all
(`WidthEstimator.depth_serveAll`).

Optimizing for depth, the reported width is therefore the largest number of qubits busy at one
depth (`minColoringSize_eq_crossing`); optimizing for width, it is the interference estimate and
no depth is reported. The objective is read only by the report, so both objectives count the same
gates (`WidthEstimator.serveAll_objective`). The main statement is `depth_mode_width_report`.
-/

namespace QuantumRuntime

/-- A request of a program to the width estimator. -/
inductive WidthRequest
  | allocate
  | release (q : Qubit)
  | apply (g : Gate)
  | measure (bases : List Pauli) (targets : List Qubit)

namespace WidthRequest

/-- Whether the request applies a gate that acts on no qubit. -/
def isBare : WidthRequest → Bool
  | apply g => g.controls.isEmpty && g.targets.isEmpty
  | _ => false

end WidthRequest

namespace QubitDepth

/-- What recording an operation at depth `depth` as operation `op` makes of one of its qubits:
its first depth is set if it had none, its last depth and operation are overwritten. -/
def mark (depth op : Nat) (d : QubitDepth) : QubitDepth :=
  { start := if d.start = 0 then depth else d.start, stop := depth, lastOp := op }

/-- A qubit's interval of depths: `[0, 0]` while it is unused, `[s, e]` with `s ≤ e` after. -/
def Proper (d : QubitDepth) : Prop := d.start ≤ d.stop ∧ (d.start = 0 → d.stop = 0)

theorem mark_mark {depth : Nat} (hd : depth ≠ 0) (op : Nat) (d : QubitDepth) :
    mark depth op (mark depth op d) = mark depth op d := by
  by_cases hs : d.start = 0 <;> simp [mark, hs, hd]

theorem start_mark_pos {depth : Nat} (hd : depth ≠ 0) (op : Nat) (d : QubitDepth) :
    0 < (mark depth op d).start := by
  by_cases hs : d.start = 0
  · simp [mark, hs]
    omega
  · simp [mark, hs]
    omega

/-- A qubit moved to a depth past its last one keeps a proper interval. -/
theorem Proper.mark {d : QubitDepth} (h : d.Proper) {depth : Nat} (hlt : d.stop < depth)
    (op : Nat) :
    (QubitDepth.mark depth op d).Proper := by
  unfold Proper at h ⊢
  by_cases hs : d.start = 0
  · simp only [QubitDepth.mark, hs, if_true]
    omega
  · simp only [QubitDepth.mark, hs, if_false, false_implies, and_true]
    omega

end QubitDepth

/-! ### Lists -/

section Lists

/-- Every member of a list that `mapM` went through was mapped to a member of the result. -/
theorem mem_of_mapM_eq_ok {α β ε : Type} {f : α → Except ε β} :
    ∀ {l : List α} {bs : List β}, l.mapM f = .ok bs → ∀ a ∈ l, ∃ b ∈ bs, f a = .ok b
  | [], _, _ => fun _ ha => absurd ha List.not_mem_nil
  | a :: l, bs, h => by
    simp only [List.mapM_cons, bind, Except.bind, pure, Except.pure] at h
    split at h
    · cases h
    · next b hb =>
      split at h
      · cases h
      · next rest hrest =>
        cases h
        intro x hx
        rcases List.mem_cons.1 hx with rfl | hx
        · exact ⟨b, List.mem_cons_self, hb⟩
        · obtain ⟨c, hc, hfc⟩ := mem_of_mapM_eq_ok hrest x hx
          exact ⟨c, List.mem_cons_of_mem b hc, hfc⟩

/-- Every member of the result of `mapM` is the image of a member of the list. -/
theorem exists_of_mem_mapM_eq_ok {α β ε : Type} {f : α → Except ε β} :
    ∀ {l : List α} {bs : List β}, l.mapM f = .ok bs → ∀ b ∈ bs, ∃ a ∈ l, f a = .ok b
  | [], bs, h => by
    simp only [List.mapM_nil, pure, Except.pure, Except.ok.injEq] at h
    subst h
    exact fun _ hb => absurd hb List.not_mem_nil
  | a :: l, bs, h => by
    simp only [List.mapM_cons, bind, Except.bind, pure, Except.pure] at h
    split at h
    · cases h
    · next b hb =>
      split at h
      · cases h
      · next rest hrest =>
        cases h
        intro x hx
        rcases List.mem_cons.1 hx with rfl | hx
        · exact ⟨a, List.mem_cons_self, hb⟩
        · obtain ⟨c, hc, hfc⟩ := exists_of_mem_mapM_eq_ok hrest x hx
          exact ⟨c, List.mem_cons_of_mem a hc, hfc⟩

/-- A failed `mapM` failed on some member. -/
theorem exists_of_mapM_eq_error {α β ε : Type} {f : α → Except ε β} {e : ε} :
    ∀ {l : List α}, l.mapM f = .error e → ∃ a ∈ l, f a = .error e
  | [], h => by simp [List.mapM_nil, pure, Except.pure] at h
  | a :: l, h => by
    simp only [List.mapM_cons, bind, Except.bind, pure, Except.pure] at h
    split at h
    · next e' he =>
      cases h
      exact ⟨a, List.mem_cons_self, he⟩
    · split at h
      · next e' hrest =>
        cases h
        obtain ⟨c, hc, hfc⟩ := exists_of_mapM_eq_error hrest
        exact ⟨c, List.mem_cons_of_mem a hc, hfc⟩
      · cases h

/-- The running maximum of a measure over a list is at least the start value and every member's
measure, and it is the start value or one of them. -/
theorem foldl_max_spec {β : Type} (g : β → Nat) :
    ∀ (l : List β) (a : Nat),
      a ≤ l.foldl (fun m d => max m (g d)) a ∧ (∀ d ∈ l, g d ≤ l.foldl (fun m d => max m (g d)) a) ∧
        (l.foldl (fun m d => max m (g d)) a = a ∨ ∃ d ∈ l, g d = l.foldl (fun m d => max m (g d)) a)
  | [], a => ⟨le_rfl, fun _ hd => absurd hd List.not_mem_nil, .inl rfl⟩
  | d :: l, a => by
    obtain ⟨hle, hall, hat⟩ := foldl_max_spec g l (max a (g d))
    simp only [List.foldl_cons, List.mem_cons, forall_eq_or_imp, exists_eq_or_imp]
    refine ⟨le_trans (Nat.le_max_left _ _) hle, ⟨le_trans (Nat.le_max_right _ _) hle, hall⟩, ?_⟩
    rcases hat with hat | hat
    · rw [hat]
      rcases Nat.le_total a (g d) with h | h
      · exact .inr (.inl (Nat.max_eq_right h).symm)
      · exact .inl (Nat.max_eq_left h)
    · exact .inr (.inr hat)

/-- A bound of the start value and of every member's measure that is the start value or one of
them is the running maximum. -/
theorem foldl_max_eq {β : Type} (g : β → Nat) {l : List β} {a M : Nat} (ha : a ≤ M)
    (hle : ∀ d ∈ l, g d ≤ M) (hat : M = a ∨ ∃ d ∈ l, g d = M) :
    l.foldl (fun m d => max m (g d)) a = M := by
  obtain ⟨hle', hall', hat'⟩ := foldl_max_spec g l a
  refine le_antisymm ?_ ?_
  · rcases hat' with h | ⟨d, hd, h⟩
    · rw [h]
      exact ha
    · rw [← h]
      exact hle d hd
  · rcases hat with h | ⟨d, hd, h⟩
    · rw [h]
      exact hle'
    · rw [← h]
      exact hall' d hd

/-- Applying a change that is idempotent at each listed index changes exactly the listed
entries, each once. -/
theorem getElem?_foldl_modify {α : Type} (f : α → α) (hf : ∀ a, f (f a) = f a) :
    ∀ (ps : List Nat) (l : List α) (j : Nat),
      (ps.foldl (fun l i => l.modify i f) l)[j]? = if j ∈ ps then l[j]?.map f else l[j]?
  | [], l, j => by simp
  | p :: ps, l, j => by
    rw [List.foldl_cons, getElem?_foldl_modify f hf ps _ j, List.getElem?_modify]
    by_cases hp : p = j
    · subst hp
      cases hl : l[p]? <;> simp [hf]
    · by_cases hj : j ∈ ps
      · cases hl : l[j]? <;> simp [hp, hj]
      · have hj' : j ≠ p := fun h => hp h.symm
        cases hl : l[j]? <;> simp [hp, hj, hj']

theorem length_foldl_modify {α : Type} (f : α → α) :
    ∀ (ps : List Nat) (l : List α), (ps.foldl (fun l i => l.modify i f) l).length = l.length
  | [], _ => rfl
  | p :: ps, l => by rw [List.foldl_cons, length_foldl_modify f ps, List.length_modify]

end Lists

namespace WidthEstimator

/-- Serves one request; a refused request leaves the estimator as it was. -/
def serve (w : WidthEstimator) : WidthRequest → WidthEstimator
  | .allocate => w.allocate.2
  | .release q =>
    match w.release q with
    | .ok w' => w'
    | .error _ => w
  | .apply g =>
    match w.apply g with
    | .ok w' => w'
    | .error _ => w
  | .measure _ targets =>
    match w.measure targets with
    | .ok (_, w') => w'
    | .error _ => w

/-- Serves requests one after another. -/
def serveAll (w : WidthEstimator) (rs : List WidthRequest) : WidthEstimator := rs.foldl serve w

/-- The deepest last depth of any qubit; zero when no qubit was used. -/
def deepestEnd (w : WidthEstimator) : Nat := w.qubits.foldl (fun m d => max m d.stop) 0

/-- How many allocated qubits are busy at depth `t`; an unused qubit is busy at depth zero only. -/
def busyAt (w : WidthEstimator) (t : Nat) : Nat :=
  w.qubits.countP fun d => decide (d.start ≤ t ∧ t ≤ d.stop)

/-- Whether request `r` records an operation on qubit `i`: it applies a gate or measures, it is
accepted, and `i` is one of its qubits. -/
def Records (w : WidthEstimator) (r : WidthRequest) (i : Nat) : Prop :=
  match r with
  | .apply g => (∃ w', w.apply g = .ok w') ∧ ∃ q ∈ g.controls ++ g.targets, q.index = i
  | .measure _ targets => (∃ p, w.measure targets = .ok p) ∧ ∃ q ∈ targets, q.index = i
  | _ => False

/-- Whether a run uses qubit `i`: one of its requests records an operation on it. -/
def UsedIn (w : WidthEstimator) : List WidthRequest → Nat → Prop
  | [], _ => False
  | r :: rs, i => w.Records r i ∨ (w.serve r).UsedIn rs i

/-- Whether qubit `i` is allocated and already has a first depth. -/
def Started (w : WidthEstimator) (i : Nat) : Prop := ∃ d, w.qubits[i]? = some d ∧ 0 < d.start

variable {w w' : WidthEstimator}

@[simp] theorem serveAll_nil (w : WidthEstimator) : w.serveAll [] = w := rfl

@[simp] theorem serveAll_cons (w : WidthEstimator) (r : WidthRequest) (rs : List WidthRequest) :
    w.serveAll (r :: rs) = (w.serve r).serveAll rs := rfl

/-! ### Recording an operation -/

section Record

variable {name : String} {cs ts : List Qubit}

/-- A refused recording names a qubit that is not allocated. -/
theorem record_eq_error {e : BackendError} (h : w.record name cs ts = .error e) :
    ∃ q ∈ cs ++ ts, w.qubits.length ≤ q.index ∧ e = .unknownQubit q := by
  unfold record at h
  simp only [bind, Except.bind, pure, Except.pure] at h
  split at h
  · next e' hmap =>
    cases h
    obtain ⟨q, hq, hfq⟩ := exists_of_mapM_eq_error hmap
    refine ⟨q, hq, ?_⟩
    split at hfq
    · cases hfq
    · next hnone =>
      cases hfq
      exact ⟨List.getElem?_eq_none_iff.1 hnone, rfl⟩
  · cases h

/-- An accepted recording. With `M` the deepest last depth of the operation's qubits (zero if it
has none), the operation gets depth `M + 1` and the next operation number, each of its qubits is
marked with both, and its gate is counted. -/
theorem record_ok_deepest (h : w.record name cs ts = .ok w') :
    ∃ M, (∀ q ∈ cs ++ ts, ∃ d, w.qubits[q.index]? = some d ∧ d.stop ≤ M) ∧
      (M = 0 ∨ ∃ q ∈ cs ++ ts, ∃ d, w.qubits[q.index]? = some d ∧ d.stop = M) ∧
      w'.depth = max w.depth (M + 1) ∧ w'.time = w.time + 1 ∧
      w'.gateCounts = bumpCount name w.gateCounts ∧ w'.qubits.length = w.qubits.length ∧
      ∀ j, w'.qubits[j]? =
        if ∃ q ∈ cs ++ ts, q.index = j then
          (w.qubits[j]?).map (QubitDepth.mark (M + 1) (w.time + 1))
        else w.qubits[j]? := by
  unfold record at h
  simp only [bind, Except.bind, pure, Except.pure] at h
  split at h
  · cases h
  · next states hstates =>
    cases h
    obtain ⟨-, hall, hat⟩ := foldl_max_spec (·.stop) states 0
    refine ⟨_, fun q hq => ?_, ?_, rfl, rfl, rfl, length_foldl_modify _ _ _, fun j => ?_⟩
    · -- every qubit of the operation was looked up
      obtain ⟨d, hd, hfq⟩ := mem_of_mapM_eq_ok hstates q hq
      split at hfq
      · next d' hd' =>
        rw [Except.ok.injEq] at hfq
        subst hfq
        exact ⟨d', hd', hall d' hd⟩
      · cases hfq
    · -- and every state looked up is that of a qubit of the operation
      rcases hat with h0 | ⟨d, hd, hdM⟩
      · exact .inl h0
      · obtain ⟨q, hq, hfq⟩ := exists_of_mem_mapM_eq_ok hstates d hd
        split at hfq
        · next d' hd' =>
          rw [Except.ok.injEq] at hfq
          subst hfq
          exact .inr ⟨q, hq, d', hd', hdM⟩
        · cases hfq
    · show (((cs ++ ts).map (·.index)).eraseDups.foldl (fun l i => l.modify i
          (QubitDepth.mark (states.foldl (fun m d => max m d.stop) 0 + 1) (w.time + 1)))
          w.qubits)[j]? = _
      rw [getElem?_foldl_modify _ (QubitDepth.mark_mark (Nat.succ_ne_zero _) _)]
      simp only [List.mem_eraseDups, List.mem_map]

/-- The qubits of an accepted recording are allocated and each was last used before the new
depth, which is one when there is no qubit; exactly those qubits are marked. -/
theorem record_ok_qubits (h : w.record name cs ts = .ok w') :
    ∃ depth, 0 < depth ∧ (cs ++ ts = [] → depth = 1) ∧ w'.depth = max w.depth depth ∧
      (∀ q ∈ cs ++ ts, ∃ d, w.qubits[q.index]? = some d ∧ d.stop < depth) ∧
      ∀ j, w'.qubits[j]? =
        if ∃ q ∈ cs ++ ts, q.index = j then (w.qubits[j]?).map (QubitDepth.mark depth (w.time + 1))
        else w.qubits[j]? := by
  obtain ⟨M, hbound, hat, hdepth, -, -, -, hqubits⟩ := record_ok_deepest h
  refine ⟨M + 1, Nat.succ_pos _, fun hnil => ?_, hdepth, fun q hq => ?_, hqubits⟩
  · -- without qubits there is no deepest one
    rcases hat with h0 | ⟨q, hq, -⟩
    · rw [h0]
    · rw [hnil] at hq
      exact absurd hq List.not_mem_nil
  · obtain ⟨d, hd, hle⟩ := hbound q hq
    exact ⟨d, hd, Nat.lt_succ_of_le hle⟩

theorem record_objective (o : Objective) :
    ({ w with objective := o } : WidthEstimator).record name cs ts =
      (w.record name cs ts).map fun w' => { w' with objective := o } := by
  simp only [record, qubit?, bind, Except.bind]
  split <;> rfl

end Record

/-! ### What one request does -/

theorem release_ok {q : Qubit} (h : w.release q = .ok w') :
    w'.qubits = w.qubits ∧ w'.depth = w.depth := by
  unfold release at h
  split at h
  · cases h
  · cases h
    exact ⟨rfl, rfl⟩

/-- What serving a request does to the depths: it allocates a qubit with no depths, or leaves the
qubits and the depth alone (a release, or a refused request), or records an operation on some
qubits, which are then exactly the qubits the request uses. -/
theorem serve_cases (w : WidthEstimator) (r : WidthRequest) :
    (r = .allocate) ∨
    ((w.serve r).qubits = w.qubits ∧ (w.serve r).depth = w.depth ∧ r.isBare = false ∧
      ∀ i, ¬w.Records r i) ∨
    (∃ name cs ts, w.record name cs ts = .ok (w.serve r) ∧ r.isBare = (cs ++ ts).isEmpty ∧
      ∀ i, w.Records r i ↔ ∃ q ∈ cs ++ ts, q.index = i) := by
  cases r with
  | allocate => exact .inl rfl
  | release q =>
    -- a release only lowers the live count
    refine .inr (.inl ⟨?_, ?_, rfl, fun _ h => h⟩) <;> cases hr : w.release q with
    | ok w' => simp [serve, hr, (release_ok hr).1, (release_ok hr).2]
    | error e => simp [serve, hr]
  | apply g =>
    cases ha : w.apply g with
    | ok w' =>
      have hs : w.serve (.apply g) = w' := by simp [serve, ha]
      refine .inr (.inr ⟨gateName g, g.controls, g.targets, hs ▸ ha, ?_, fun i => ?_⟩)
      · simp only [WidthRequest.isBare]
        cases g.controls <;> rfl
      · simp [Records, ha]
    | error e =>
      refine .inr (.inl ⟨by simp [serve, ha], by simp [serve, ha], ?_, fun i hi => ?_⟩)
      · -- a gate on no qubit is always recorded
        cases hb : (WidthRequest.apply g).isBare with
        | false => rfl
        | true =>
          simp only [WidthRequest.isBare, Bool.and_eq_true, List.isEmpty_iff] at hb
          simp [apply, record, hb.1, hb.2, bind, Except.bind, pure, Except.pure] at ha
      · obtain ⟨⟨w', hw'⟩, -⟩ := hi
        rw [ha] at hw'
        cases hw'
  | measure bases ts =>
    by_cases hts : ts.isEmpty
    · -- a measurement without targets is refused
      have hm : w.measure ts = .error (.failure "measurement without targets") := by
        simp [measure, hts]
      refine .inr (.inl ⟨by simp [serve, hm], by simp [serve, hm], rfl, fun i hi => ?_⟩)
      obtain ⟨⟨p, hp⟩, -⟩ := hi
      rw [hm] at hp
      cases hp
    · cases hr : w.record "m" [] ts with
      | ok w' =>
        have hm : w.measure ts = .ok (zeroResult, w') := by simp [measure, hts, hr, Except.map]
        refine .inr (.inr ⟨"m", [], ts, by simpa [serve, hm] using hr, ?_, fun i => ?_⟩)
        · simpa [WidthRequest.isBare] using hts
        · simp [Records, hm]
      | error e =>
        have hm : w.measure ts = .error e := by simp [measure, hts, hr, Except.map]
        refine .inr (.inl ⟨by simp [serve, hm], by simp [serve, hm], rfl, fun i hi => ?_⟩)
        obtain ⟨⟨p, hp⟩, -⟩ := hi
        rw [hm] at hp
        cases hp

/-! ### What a step keeps -/

section Step

/-- Marking some qubits at a depth past their last one makes the deepest last depth the larger of
the old one and that depth. -/
theorem foldl_stop_mark {l l' : List QubitDepth} {P : Nat → Prop} [DecidablePred P]
    {depth op : Nat}
    (hl' : ∀ j, l'[j]? = if P j then l[j]?.map (QubitDepth.mark depth op) else l[j]?)
    (hlt : ∀ j d, P j → l[j]? = some d → d.stop < depth) (hP : ∃ j d, P j ∧ l[j]? = some d) :
    l'.foldl (fun m d => max m d.stop) 0 = max (l.foldl (fun m d => max m d.stop) 0) depth := by
  obtain ⟨-, hall, hat⟩ := foldl_max_spec (·.stop) l 0
  refine foldl_max_eq _ (Nat.zero_le _) (fun d hd => ?_) ?_
  · obtain ⟨j, hj⟩ := List.mem_iff_getElem?.1 hd
    rw [hl' j] at hj
    split at hj
    · obtain ⟨d₀, -, rfl⟩ := Option.map_eq_some_iff.1 hj
      exact Nat.le_max_right _ _
    · exact le_trans (hall d (List.mem_of_getElem? hj)) (Nat.le_max_left _ _)
  · rcases Nat.le_total (l.foldl (fun m d => max m d.stop) 0) depth with hle | hle
    · -- a marked qubit reaches the new depth
      obtain ⟨j, d, hj, hd⟩ := hP
      refine .inr ⟨QubitDepth.mark depth op d, ?_, by rw [Nat.max_eq_right hle]; rfl⟩
      rw [List.mem_iff_getElem?]
      exact ⟨j, by rw [hl' j, if_pos hj, hd]; rfl⟩
    · -- the deepest old qubit is not marked, since every marked one ends before the new depth
      rw [Nat.max_eq_left hle]
      rcases hat with h0 | ⟨d, hd, hstop⟩
      · exact .inl h0
      · obtain ⟨k, hk⟩ := List.mem_iff_getElem?.1 hd
        have hnot : ¬P k := fun hp => absurd (hlt k d hp hk) (by omega)
        refine .inr ⟨d, List.mem_iff_getElem?.2 ⟨k, by rw [hl' k, if_neg hnot, hk]⟩, hstop⟩

/-- The deepest last depth after a recording: the new depth raises it when the operation has
qubits, and nothing changes when it has none. -/
theorem deepestEnd_record {name : String} {cs ts : List Qubit} (h : w.record name cs ts = .ok w') :
    ∃ depth, w'.depth = max w.depth depth ∧ (cs ++ ts = [] → depth = 1) ∧
      w'.deepestEnd = if cs ++ ts = [] then w.deepestEnd else max w.deepestEnd depth := by
  obtain ⟨depth, -, hone, hdepth, hlook, hq⟩ := record_ok_qubits h
  refine ⟨depth, hdepth, hone, ?_⟩
  split
  · -- no qubit is marked
    next hnil =>
    have : w'.qubits = w.qubits := List.ext_getElem? fun j => by simp [hq j, hnil]
    simp only [deepestEnd, this]
  · next hne =>
    obtain ⟨q, hq'⟩ := List.exists_mem_of_ne_nil _ hne
    obtain ⟨d, hd, -⟩ := hlook q hq'
    refine foldl_stop_mark hq (fun j d' hj hd' => ?_) ⟨q.index, d, ⟨q, hq', rfl⟩, hd⟩
    obtain ⟨q', hq'', rfl⟩ := hj
    obtain ⟨d'', hd'', hlt⟩ := hlook q' hq''
    rw [hd'] at hd''
    cases hd''
    exact hlt

theorem deepestEnd_allocate (w : WidthEstimator) : w.allocate.2.deepestEnd = w.deepestEnd := by
  simp [allocate, deepestEnd, List.foldl_append]

/-- Every qubit's interval stays proper. -/
theorem proper_serve (h : ∀ d ∈ w.qubits, d.Proper) (r : WidthRequest) :
    ∀ d ∈ (w.serve r).qubits, d.Proper := by
  rcases serve_cases w r with rfl | ⟨hq, -, -, -⟩ | ⟨name, cs, ts, hrec, -, -⟩
  · -- a new qubit is unused
    intro d hd
    simp only [serve, allocate, List.mem_append, List.mem_singleton] at hd
    rcases hd with hd | rfl
    · exact h d hd
    · exact ⟨le_rfl, fun _ => rfl⟩
  · rw [hq]
    exact h
  · obtain ⟨depth, -, -, -, hlook, hq⟩ := record_ok_qubits hrec
    intro d hd
    obtain ⟨j, hj⟩ := List.mem_iff_getElem?.1 hd
    rw [hq j] at hj
    split at hj
    · next hin =>
      obtain ⟨q, hqm, rfl⟩ := hin
      obtain ⟨d₀, hd₀, hlt⟩ := hlook q hqm
      rw [hd₀] at hj
      cases hj
      exact (h d₀ (List.mem_of_getElem? hd₀)).mark hlt _
    · exact h d (List.mem_of_getElem? hj)

/-- A qubit has a first depth after a request when it had one before or the request recorded an
operation on it. -/
theorem started_serve (r : WidthRequest) (i : Nat) :
    (w.serve r).Started i ↔ w.Started i ∨ w.Records r i := by
  rcases serve_cases w r with rfl | ⟨hq, -, -, hnone⟩ | ⟨name, cs, ts, hrec, -, hrecords⟩
  · -- the new qubit has no first depth
    simp only [Started, serve, allocate, Records, or_false, List.getElem?_append]
    constructor
    · rintro ⟨d, hd, hs⟩
      split at hd
      · exact ⟨d, hd, hs⟩
      · simp only [List.getElem?_singleton] at hd
        split at hd
        · cases hd
          exact absurd hs (Nat.lt_irrefl 0)
        · cases hd
    · rintro ⟨d, hd, hs⟩
      have hi : i < w.qubits.length := (List.getElem?_eq_some_iff.1 hd).1
      exact ⟨d, by rw [if_pos hi]; exact hd, hs⟩
  · simp only [Started, hq]
    exact ⟨.inl, fun h => h.resolve_right (hnone i)⟩
  · obtain ⟨depth, hpos, -, -, hlook, hq⟩ := record_ok_qubits hrec
    rw [hrecords]
    by_cases hin : ∃ q ∈ cs ++ ts, q.index = i
    · -- a marked qubit gets a first depth
      obtain ⟨q, hqm, rfl⟩ := hin
      obtain ⟨d, hd, -⟩ := hlook q hqm
      refine iff_of_true
        ⟨_, ?_, QubitDepth.start_mark_pos (Nat.pos_iff_ne_zero.1 hpos) (w.time + 1) d⟩
        (.inr ⟨q, hqm, rfl⟩)
      rw [hq, if_pos ⟨q, hqm, rfl⟩, hd]
      rfl
    · simp only [Started, hq, hin, if_false, or_false]

/-- The circuit depth stays the deepest last depth, raised to one by a gate on no qubit. -/
theorem depth_serve {b : Nat} (h : w.depth = max w.deepestEnd b) (r : WidthRequest) :
    (w.serve r).depth = max (w.serve r).deepestEnd (max b (if r.isBare then 1 else 0)) := by
  rcases serve_cases w r with rfl | ⟨hq, hd, hbare, -⟩ | ⟨name, cs, ts, hrec, hbare, -⟩
  · simp only [serve, deepestEnd_allocate, WidthRequest.isBare, Bool.false_eq_true, if_false,
      Nat.max_zero]
    exact h
  · simp only [hd, deepestEnd, hq, hbare, Bool.false_eq_true, if_false, Nat.max_zero]
    exact h
  · obtain ⟨depth, hdepth, hone, hdeep⟩ := deepestEnd_record hrec
    rw [hdepth, hdeep, h, hbare]
    by_cases hnil : cs ++ ts = []
    · -- a gate on no qubit gets depth one
      simp only [hnil, hone hnil, if_true, List.isEmpty_nil]
      omega
    · have hne : (cs ++ ts).isEmpty = false := by
        cases hct : cs ++ ts with
        | nil => exact absurd hct hnil
        | cons _ _ => rfl
      simp only [hnil, hne, if_false, Bool.false_eq_true]
      omega

/-- Only the report reads the objective. -/
theorem serve_objective (o : Objective) (r : WidthRequest) :
    ({ w with objective := o } : WidthEstimator).serve r = { w.serve r with objective := o } := by
  cases r with
  | allocate => rfl
  | release q =>
    simp only [serve, release, qubit?]
    cases w.qubits[q.index]? <;> rfl
  | apply g =>
    simp only [serve, apply, record_objective]
    cases w.record (gateName g) g.controls g.targets <;> rfl
  | measure bases ts =>
    by_cases hts : ts.isEmpty
    · simp only [serve, measure, hts, if_true]
    · simp only [serve, measure, record_objective, hts, Bool.false_eq_true, if_false]
      cases w.record "m" [] ts <;> rfl

end Step

/-! ### Runs -/

section Runs

theorem proper_serveAll (w : WidthEstimator) (h : ∀ d ∈ w.qubits, d.Proper)
    (rs : List WidthRequest) :
    ∀ d ∈ (w.serveAll rs).qubits, d.Proper := by
  induction rs generalizing w with
  | nil => exact h
  | cons r rs ih => exact ih _ (proper_serve h r)

/-- Along a run a qubit gets a first depth exactly when the run records an operation on it. -/
theorem started_serveAll (w : WidthEstimator) (rs : List WidthRequest) (i : Nat) :
    (w.serveAll rs).Started i ↔ w.Started i ∨ w.UsedIn rs i := by
  induction rs generalizing w with
  | nil => simp [UsedIn]
  | cons r rs ih =>
    rw [serveAll_cons, ih, started_serve, UsedIn, or_assoc]

/-- Along a run the circuit depth is the deepest last depth, raised to one once a gate on no qubit
was applied. -/
theorem depth_serveAll (w : WidthEstimator) (b : Nat) (h : w.depth = max w.deepestEnd b)
    (rs : List WidthRequest) :
    (w.serveAll rs).depth =
      max (w.serveAll rs).deepestEnd (max b (if rs.any WidthRequest.isBare then 1 else 0)) := by
  induction rs generalizing w b with
  | nil => simpa using h
  | cons r rs ih =>
    rw [serveAll_cons, ih _ _ (depth_serve h r), List.any_cons]
    cases r.isBare <;> cases rs.any WidthRequest.isBare <;> simp only [Bool.false_or, Bool.true_or,
      if_true, if_false, Bool.false_eq_true] <;> omega

/-- The objective is read only by the report: a run from either objective reaches the same
estimator but for it. -/
theorem serveAll_objective (w : WidthEstimator) (o : Objective) (rs : List WidthRequest) :
    ({ w with objective := o } : WidthEstimator).serveAll rs =
      { w.serveAll rs with objective := o } := by
  induction rs generalizing w with
  | nil => rfl
  | cons r rs ih => rw [serveAll_cons, serve_objective, ih, serveAll_cons]

theorem objective_serveAll (w : WidthEstimator) (rs : List WidthRequest) :
    (w.serveAll rs).objective = w.objective :=
  calc (w.serveAll rs).objective
      = (({ w with objective := w.objective } : WidthEstimator).serveAll rs).objective := rfl
    _ = w.objective := by rw [serveAll_objective]

end Runs

/-- The qubits busy at a depth are the intervals of the report that contain it. -/
theorem busyAt_eq_crossing (w : WidthEstimator) (t : Nat) :
    w.busyAt t = Interval.crossing (w.qubits.map fun d => ⟨d.start, d.stop⟩) t := by
  simp [busyAt, Interval.crossing, List.countP_map, Function.comp_def]

/-- Optimizing for depth, the report colours the qubits' intervals and gives the depth. -/
theorem finalize_of_circuitDepth (w : WidthEstimator) (h : w.objective = .circuitDepth) :
    w.finalize =
      ⟨minColoringSize (w.qubits.map fun d => ⟨d.start, d.stop⟩), some w.depth, w.gateCounts⟩ := by
  simp [finalize, h]

/-- Optimizing for width, the report gives the interference estimate and no depth. -/
theorem finalize_of_qubitWidth (w : WidthEstimator) (h : w.objective = .qubitWidth) :
    w.finalize = ⟨w.interference.estimate, none, w.gateCounts⟩ := by
  simp [finalize, h]

end WidthEstimator



/-- The width report. Take any run of requests on a width estimator optimizing for depth, and the
same run on one optimizing for width. Optimizing for depth, the reported circuit depth is the
deepest last depth of any qubit, or one when that is zero and a gate on no qubit was applied;
every allocated qubit's interval of depths is `[0, 0]` when the run never used it and `[s, e]`
with `1 ≤ s ≤ e` when it did; and the reported width is the largest number of allocated qubits
busy at one depth. Optimizing for width, no depth is reported and the width is the estimate of
the interference graph. Both count the same gates. -/
theorem depth_mode_width_report (rs : List WidthRequest) :
    let w := (WidthEstimator.new .circuitDepth).serveAll rs
    let v := (WidthEstimator.new .qubitWidth).serveAll rs
    w.finalize.circuitDepth = some (max w.deepestEnd (if rs.any WidthRequest.isBare then 1 else 0)) ∧
    (∀ i d, w.qubits[i]? = some d →
      (¬(WidthEstimator.new .circuitDepth).UsedIn rs i → d.start = 0 ∧ d.stop = 0) ∧
      ((WidthEstimator.new .circuitDepth).UsedIn rs i → 1 ≤ d.start ∧ d.start ≤ d.stop)) ∧
    (∀ t, w.busyAt t ≤ w.finalize.qubitWidth) ∧ (∃ t, w.busyAt t = w.finalize.qubitWidth) ∧
    v.finalize.circuitDepth = none ∧ v.finalize.qubitWidth = v.interference.estimate ∧
    v.finalize.gateCounts = w.finalize.gateCounts := by
  intro w v
  have hobj : w.objective = .circuitDepth := WidthEstimator.objective_serveAll _ rs
  have hv : v = { w with objective := .qubitWidth } :=
    WidthEstimator.serveAll_objective (WidthEstimator.new .circuitDepth) .qubitWidth rs
  have hproper : ∀ d ∈ w.qubits, d.Proper :=
    WidthEstimator.proper_serveAll _ (fun _ hd => absurd hd List.not_mem_nil) rs
  have hintervals :
      ∀ i ∈ w.qubits.map (fun d => (⟨d.start, d.stop⟩ : Interval)), i.start ≤ i.stop := by
    intro i hi
    obtain ⟨d, hd, rfl⟩ := List.mem_map.1 hi
    exact (hproper d hd).1
  obtain ⟨hle, t, ht⟩ := minColoringSize_eq_crossing _ hintervals
  rw [hv, WidthEstimator.finalize_of_qubitWidth { w with objective := .qubitWidth } rfl,
    WidthEstimator.finalize_of_circuitDepth w hobj]
  refine ⟨?_, fun i d hd => ?_, fun t => ?_, ⟨t, ?_⟩, rfl, rfl, rfl⟩
  · -- a new estimator has depth zero and no qubit
    have h := WidthEstimator.depth_serveAll (WidthEstimator.new .circuitDepth) 0 rfl rs
    rw [h, Nat.zero_max]
  · -- a qubit has a first depth exactly when the run used it
    have hs := WidthEstimator.started_serveAll (WidthEstimator.new .circuitDepth) rs i
    have hnew : ¬(WidthEstimator.new .circuitDepth).Started i := fun ⟨_, h, _⟩ => by
      simp [WidthEstimator.new] at h
    have hw : w.Started i ↔ 0 < d.start := by
      refine ⟨fun ⟨d', hd', h⟩ => ?_, fun h => ⟨d, hd, h⟩⟩
      rw [hd] at hd'
      cases hd'
      exact h
    have hstart : 0 < d.start ↔ (WidthEstimator.new .circuitDepth).UsedIn rs i :=
      hw.symm.trans (hs.trans (or_iff_right hnew))
    have hp := hproper d (List.mem_of_getElem? hd)
    refine ⟨fun hu => ?_, fun hu => ⟨hstart.2 hu, hp.1⟩⟩
    have h0 : d.start = 0 := Nat.eq_zero_of_not_pos (mt hstart.1 hu)
    exact ⟨h0, hp.2 h0⟩
  · rw [WidthEstimator.busyAt_eq_crossing]
    exact hle t
  · rw [WidthEstimator.busyAt_eq_crossing]
    exact ht

/-- A gate on no qubit deepens the circuit: after allocating one qubit and applying the
exponential of the empty Pauli product to no target, the reported depth is one while every
qubit's last depth is zero. -/
theorem bare_gate_deepens_circuit :
    let w := (WidthEstimator.new .circuitDepth).serveAll [.allocate, .apply (.exp none [] [] 0)]
    w.finalize.circuitDepth = some 1 ∧ w.deepestEnd = 0 := by
  decide

end QuantumRuntime
