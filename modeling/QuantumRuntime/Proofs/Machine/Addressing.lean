import Mathlib
import QuantumRuntime.Proofs.Machine.Flattening
import QuantumRuntime.Proofs.Machine.Making
import QuantumRuntime.Proofs.Machine.Sizing

/-!
# Row-major addressing

A position in an array is given by one index per dimension. The runtime finds its linear index
in one pass over the indices and the extents: it checks each index against its extent and, by
Horner's rule, adds it to the offset so far scaled by that extent (`rowMajor`). The offset is
the sum, over the dimensions, of each index times the product of the later extents
(`rowMajor_eq_sum`). Over the box of positions within the extents it is a bijection onto the
linear indices below the product of the extents (`rowMajor_bijOn`).

The loop multiplies and adds in machine words. After `k` steps the offset is below the product of
the first `k` extents, so a step never passes the product of the first `k + 1`. For the arrays a
program can hold, every product of two or more leading extents fits a word (`ExtentsFit`). Array
creation checks these products, and slicing and projecting only shrink them. So no step of the
loop overflows, even for an array with a zero extent after huge ones.

`row_major_addressing` puts this together for every array of every run.
-/

namespace QuantumRuntime

/-! ### Row-major offsets as sums and as a numbering -/

section Horner

/-- The offset is the sum of each index times the product of the later extents. -/
theorem rowMajor_eq_sum : ∀ {idx dims : List Nat}, idx.length = dims.length →
    rowMajor idx dims = ∑ k : Fin idx.length, idx[k] * (dims.drop (k + 1)).prod
  | [], [], _ => rfl
  | [], _ :: _, h => absurd h (by simp)
  | _ :: _, [], h => absurd h (by simp)
  | i :: is, d :: ds, h => by
    have hl : is.length = ds.length := by simpa using h
    rw [rowMajor_cons hl, rowMajor_eq_sum hl]
    -- split off the first dimension of the sum
    refine Eq.symm ((Fin.sum_univ_succ _).trans ?_)
    simp

/-- A quotient and a remainder below the divisor are read back from `q * b + r`. -/
theorem eq_of_mul_add_eq {q q' r r' b : Nat} (hr : r < b) (hr' : r' < b)
    (h : q * b + r = q' * b + r') : q = q' ∧ r = r' := by
  have hb : 0 < b := by omega
  have hdiv : (q * b + r) / b = (q' * b + r') / b := by rw [h]
  have hmod : (q * b + r) % b = (q' * b + r') % b := by rw [h]
  rw [Nat.mul_comm q, Nat.mul_comm q', Nat.mul_add_div hb, Nat.mul_add_div hb,
    Nat.div_eq_of_lt hr, Nat.div_eq_of_lt hr'] at hdiv
  rw [Nat.mul_comm q, Nat.mul_comm q', Nat.mul_add_mod, Nat.mul_add_mod, Nat.mod_eq_of_lt hr,
    Nat.mod_eq_of_lt hr'] at hmod
  omega

/-- Two positions within the extents with one offset are the same position. -/
theorem rowMajor_inj {idx idx' dims : List Nat} (h : List.Forall₂ (· < ·) idx dims)
    (h' : List.Forall₂ (· < ·) idx' dims) (he : rowMajor idx dims = rowMajor idx' dims) :
    idx = idx' := by
  induction h generalizing idx' with
  | nil => exact (List.forall₂_nil_right_iff.1 h').symm
  | cons hi h ih =>
    cases h' with
    | cons hi' h' =>
      rw [rowMajor_cons h.length_eq, rowMajor_cons h'.length_eq] at he
      -- the first index is the quotient by the product of the later extents
      obtain ⟨rfl, hrest⟩ := eq_of_mul_add_eq (rowMajor_lt h) (rowMajor_lt h') he
      rw [ih h' hrest]

/-- Every offset below the product of the extents is the offset of a position within them. -/
theorem exists_rowMajor_eq : ∀ {dims : List Nat} {n : Nat}, n < dims.prod →
    ∃ idx, List.Forall₂ (· < ·) idx dims ∧ rowMajor idx dims = n
  | [], n, h => ⟨[], .nil, by simp only [List.prod_nil] at h; simp [rowMajor]; omega⟩
  | d :: ds, n, h => by
    rw [List.prod_cons] at h
    have hpos : 0 < ds.prod := Nat.pos_of_ne_zero fun h0 => by simp [h0] at h
    obtain ⟨is, his, hrest⟩ := exists_rowMajor_eq (Nat.mod_lt n hpos)
    have hq : n / ds.prod < d := Nat.div_lt_of_lt_mul (by rwa [Nat.mul_comm])
    exact ⟨n / ds.prod :: is, .cons hq his, by rw [rowMajor_cons his.length_eq, hrest,
      Nat.div_add_mod']⟩

/-- Row-major offsets number the positions within the extents, each once, from zero to below
the product of the extents. -/
theorem rowMajor_bijOn (dims : List Nat) :
    Set.BijOn (rowMajor · dims) {idx | List.Forall₂ (· < ·) idx dims} (Set.Iio dims.prod) :=
  ⟨fun _ h => rowMajor_lt h, fun _ h _ h' he => rowMajor_inj h h' he,
    fun _ hn => exists_rowMajor_eq hn⟩

end Horner

/-! ### The index loop -/

namespace ItemArray

/-- One turn of the index loop of `linearIndex`: the index is checked against its extent, then
added to the offset so far scaled by the extent. -/
def indexStep (linear : Nat) (p : Nat × Nat) : Except MachineError Nat :=
  if p.2 ≤ p.1 then .error (.indexOutOfBounds p.1 p.2) else .ok (linear * p.2 + p.1)

variable {a : ItemArray} {idx : List Nat}

theorem linearIndex_of_length_ne (h : idx.length ≠ a.dims.length) :
    a.linearIndex idx = .error (.dimensionMismatch
      s!"{idx.length} indices for an array of rank {a.dims.length}") := by
  rw [linearIndex, if_pos h]

theorem linearIndex_of_length_eq (h : idx.length = a.dims.length) :
    a.linearIndex idx = (idx.zip a.dims).foldlM indexStep 0 := by
  rw [linearIndex, if_neg (not_not.2 h)]
  rfl

/-- The loop stops at the first index that reaches its extent, and reports that index and
extent. -/
theorem foldlM_indexStep_of_le : ∀ {idx dims : List Nat} {k : Nat} (hk : k < idx.length)
    (hd : k < dims.length), List.Forall₂ (· < ·) (idx.take k) (dims.take k) →
    dims[k] ≤ idx[k] → ∀ acc, (idx.zip dims).foldlM indexStep acc =
      .error (.indexOutOfBounds idx[k] dims[k])
  | i :: is, d :: ds, 0, _, _, _, hle, acc => by
    have hle' : d ≤ i := hle
    rw [List.zip_cons_cons, List.foldlM_cons, indexStep]
    dsimp only
    rw [if_pos hle']
    rfl
  | i :: is, d :: ds, k + 1, hk, hd, hpre, hle, acc => by
    obtain ⟨hi, hrest⟩ := List.forall₂_cons.1 hpre
    rw [List.zip_cons_cons, List.foldlM_cons, indexStep]
    dsimp only
    rw [if_neg (Nat.not_le.2 hi)]
    exact foldlM_indexStep_of_le (Nat.lt_of_succ_lt_succ hk) (Nat.lt_of_succ_lt_succ hd) hrest
      hle _

/-- The loop fails only on an index out of bounds. -/
theorem foldlM_indexStep_error : ∀ {idx dims : List Nat} {acc : Nat} {e : MachineError},
    (idx.zip dims).foldlM indexStep acc = .error e → ∃ i b, e = .indexOutOfBounds i b
  | [], _, _, _, h => by cases h
  | _ :: _, [], _, _, h => by cases h
  | i :: is, d :: ds, acc, e, h => by
    rw [List.zip_cons_cons, List.foldlM_cons, indexStep] at h
    dsimp only at h
    by_cases hle : d ≤ i
    · rw [if_pos hle] at h
      cases h
      exact ⟨i, d, rfl⟩
    · rw [if_neg hle] at h
      exact foldlM_indexStep_error h

/-- After its first `k` turns, within the extents, the loop holds the row-major offset of the
first `k` indices in the first `k` extents. -/
theorem foldlM_indexStep_take {dims : List Nat} {k : Nat}
    (h : List.Forall₂ (· < ·) (idx.take k) (dims.take k)) :
    ((idx.zip dims).take k).foldlM indexStep 0 = .ok (rowMajor (idx.take k) (dims.take k)) := by
  rw [List.zip_eq_zipWith, List.take_zipWith, ← List.zip_eq_zipWith]
  refine foldlM_except_ok (fun l p hp => ?_) 0
  rw [indexStep, if_neg (Nat.not_le.2 (lt_of_mem_zip h p hp))]

theorem linearIndex_of_le {k : Nat} (hlen : idx.length = a.dims.length) (hk : k < idx.length)
    (hd : k < a.dims.length) (hpre : List.Forall₂ (· < ·) (idx.take k) (a.dims.take k))
    (hle : a.dims[k] ≤ idx[k]) :
    a.linearIndex idx = .error (.indexOutOfBounds idx[k] a.dims[k]) := by
  rw [linearIndex_of_length_eq hlen, foldlM_indexStep_of_le hk hd hpre hle]

/-- With one index per dimension, the linear index fails only on an index out of bounds. -/
theorem linearIndex_error_of_length_eq (hlen : idx.length = a.dims.length) {e : MachineError}
    (h : a.linearIndex idx = .error e) : ∃ i b, e = .indexOutOfBounds i b := by
  rw [linearIndex_of_length_eq hlen] at h
  exact foldlM_indexStep_error h

theorem item_error {i : Nat} {e : MachineError} (h : a.item i = .error e) :
    e = .indexOutOfBounds i a.count := by
  unfold item at h
  split at h
  · cases h
  · cases h
    rfl

/-! ### Extents that fit a word -/

/-- Every product of two or more leading extents fits a word. The index loop never scales an
offset past such a product; a one-dimensional array has none, its one index being its offset. -/
def ExtentsFit (a : ItemArray) : Prop :=
  ∀ k, 2 ≤ k → k ≤ a.dims.length → (a.dims.take k).prod ≤ wordLimit

theorem extentsFit_of_rank_one {a : ItemArray} (h : a.dims.length = 1) : a.ExtentsFit :=
  fun _ hk hkd => absurd (h ▸ hkd) (by omega)

/-- A shape whose buffer length passed the creation check has every leading product in a
word: the check multiplied them by the stride, which is at least one. -/
theorem extentsFit_new {itemSize len : Nat} {dims : List Nat} (hsize : 0 < itemSize)
    (hlen : bufferLength? itemSize dims = some len) : (new itemSize dims).ExtentsFit := by
  intro k hk hkd
  have hkd' : k - 1 < dims.length := by simp only [new] at hkd; omega
  have hk' : k - 1 + 1 = k := by omega
  -- the check refuses a shape as soon as the stride times a leading product passes a word
  have hfits : elementStride itemSize * (dims.take k).prod ≤ wordLimit := by
    refine Nat.not_lt.1 fun hover => ?_
    have hnone := (bufferLength?_eq_none_iff itemSize dims).2
      (.inr (.inl ⟨k - 1, hkd', by rwa [hk']⟩))
    rw [hlen] at hnone
    cases hnone
  have hstride : 0 < elementStride itemSize := Nat.lt_of_lt_of_le hsize (le_elementStride itemSize)
  calc (dims.take k).prod ≤ elementStride itemSize * (dims.take k).prod :=
        Nat.le_mul_of_pos_left _ hstride
    _ ≤ wordLimit := hfits

/-- Lowering an extent lowers the product. -/
theorem prod_set_le : ∀ {l : List Nat} {j w : Nat}, (∀ h : j < l.length, w ≤ l[j]) →
    (l.set j w).prod ≤ l.prod
  | [], _, _, _ => le_rfl
  | x :: xs, 0, w, h => by
    have hw : w ≤ x := h (by simp)
    simpa using Nat.mul_le_mul_right xs.prod hw
  | x :: xs, j + 1, w, h => by
    have hrest : (xs.set j w).prod ≤ xs.prod :=
      prod_set_le fun hj => h (Nat.succ_lt_succ hj)
    simpa using Nat.mul_le_mul_left x hrest

theorem ExtentsFit.slice {a : ItemArray} {dim : Nat} {s : Selection} (h : a.ExtentsFit)
    (hdim : dim < a.dims.length) (hw : s.width ≤ a.dims[dim]) : (a.slice dim s).ExtentsFit := by
  intro k hk hkd
  rw [dims_slice, List.length_set] at hkd
  rw [dims_slice, List.take_set]
  -- the sliced extent, if among the first `k`, is no larger than before
  refine le_trans (prod_set_le fun hj => ?_) (h k hk hkd)
  rw [List.getElem_take]
  exact hw

/-- Past the dropped dimension, the first `k` extents left are the first `k + 1` less the
dropped one. -/
theorem take_eraseIdx_of_lt {l : List Nat} {i k : Nat} (h : i < k) :
    (l.eraseIdx i).take k = (l.take (k + 1)).eraseIdx i :=
  List.ext_getElem (by grind) (by grind)

theorem ExtentsFit.project {a : ItemArray} {dim : Nat} (index : Nat) (h : a.ExtentsFit)
    (hdim : dim < a.dims.length) (hpos : 0 < a.dims[dim]) : (a.project dim index).ExtentsFit := by
  intro k hk hkd
  rw [dims_project, List.length_eraseIdx_of_lt hdim] at hkd
  rw [dims_project]
  by_cases hle : k ≤ dim
  · rw [List.take_eraseIdx_eq_take_of_le _ _ _ hle]
    exact h k hk (by omega)
  · -- the dropped extent is positive, so dropping it lowers the product
    have hlt : dim < (a.dims.take (k + 1)).length := by simp; omega
    have hmul := List.CommMonoid.mul_prod_eraseIdx hlt
    rw [List.getElem_take] at hmul
    rw [take_eraseIdx_of_lt (Nat.lt_of_not_le hle)]
    calc ((a.dims.take (k + 1)).eraseIdx dim).prod
        ≤ a.dims[dim] * ((a.dims.take (k + 1)).eraseIdx dim).prod := Nat.le_mul_of_pos_left _ hpos
      _ = (a.dims.take (k + 1)).prod := hmul
      _ ≤ wordLimit := h (k + 1) (by omega) (by omega)

/-- In an array whose leading products fit a word, every step of the index loop stays in a word,
for indices that are words: the first step gives the first index, and a later step stays below
the product of the extents so far. -/
theorem ExtentsFit.horner_le {a : ItemArray} (h : a.ExtentsFit) {idx : List Nat}
    (hw : ∀ i ∈ idx, i ≤ wordLimit) {k : Nat} (hk : k < idx.length) (hd : k < a.dims.length)
    (hpre : List.Forall₂ (· < ·) (idx.take k) (a.dims.take k)) (hlt : idx[k] < a.dims[k]) :
    rowMajor (idx.take k) (a.dims.take k) * a.dims[k] + idx[k] ≤ wordLimit := by
  cases k with
  | zero => simpa [rowMajor] using hw _ (List.getElem_mem hk)
  | succ k =>
    have hstep := mul_add_lt_mul (rowMajor_lt hpre) hlt
    rw [← List.prod_take_succ _ _ hd] at hstep
    exact Nat.le_of_lt (Nat.lt_of_lt_of_le hstep (h _ (by omega) (by omega)))

end ItemArray

namespace Obj

/-- An object whose leading products fit a word: an array whose do, or not an array at all. -/
def ExtentsFit : Obj → Prop
  | array a => a.ExtentsFit
  | tuple _ => True
  | callable _ => True

theorem ExtentsFit.withCounts {o : Obj} (h : o.ExtentsFit) (n : Counts) :
    (o.withCounts n).ExtentsFit := by
  cases o with
  | array a => exact (h : a.ExtentsFit)
  | tuple _ => trivial
  | callable _ => trivial

/-- Every object a program can make has its leading products in a word. -/
theorem Made.extentsFit {o : Obj} (h : o.Made) : o.ExtentsFit := by
  induction h with
  | tuple t => trivial
  | callable c => trivial
  | new hsize hlen => exact ItemArray.extentsFit_new hsize hlen
  | copy _ ih => exact ih
  | append _ _ hrank _ _ _ _ =>
    exact ItemArray.extentsFit_of_rank_one (by simp [ItemArray.append, ItemArray.copy, hrank])
  | slice hdim _ _ hw ih => exact ItemArray.ExtentsFit.slice ih hdim hw
  | project hdim _ _ hidx ih => exact ItemArray.ExtentsFit.project _ ih hdim (by omega)
  | writeItem i bytes _ ih => exact ih
  | disown _ ih => exact ih
  | withCounts n _ ih => exact ih.withCounts n
  | qubits qs => exact ItemArray.extentsFit_of_rank_one rfl
  | words hw => exact ItemArray.extentsFit_of_rank_one rfl

end Obj

/-! ### Element requests at a position -/

namespace Machine

variable {m : Machine} {id : Nat} {a : ItemArray}

theorem arrayElement_stored (ha : m.object? ⟨.array, id⟩ = some (.array a)) (i : Nat) :
    arrayElement id i m = check (a.item i) m := by
  unfold Machine.arrayElement
  rw [run_bind, getArray_of_object? ha]

theorem arraySetElement_stored (ha : m.object? ⟨.array, id⟩ = some (.array a)) (i : Nat)
    (bytes : List UInt8) :
    arraySetElement id i bytes m =
      match a.item i with
      | .ok _ => setObject id (.array (a.writeItem i bytes)) m
      | .error e => .error e m := by
  unfold Machine.arraySetElement
  rw [run_bind, getArray_of_object? ha]
  dsimp only
  cases a.item i <;> rfl

/-- Reading at a position of a stored array finds the linear index, then reads the item there. -/
theorem arrayElementNd_stored (ha : m.object? ⟨.array, id⟩ = some (.array a)) (idx : List Nat) :
    arrayElementNd id idx m =
      match a.linearIndex idx with
      | .ok i => arrayElement id i m
      | .error e => .error e m := by
  unfold Machine.arrayElementNd
  rw [run_bind, getArray_of_object? ha]
  dsimp only
  cases a.linearIndex idx with
  | ok i =>
    show _ = arrayElement id i m
    rw [arrayElement_stored ha]
    rfl
  | error e => rfl

/-- Writing at a position of a stored array finds the linear index, then writes the item there. -/
theorem arraySetElementNd_stored (ha : m.object? ⟨.array, id⟩ = some (.array a))
    (idx : List Nat) (bytes : List UInt8) :
    arraySetElementNd id idx bytes m =
      match a.linearIndex idx with
      | .ok i => arraySetElement id i bytes m
      | .error e => .error e m := by
  unfold Machine.arraySetElementNd
  rw [run_bind, getArray_of_object? ha]
  dsimp only
  cases a.linearIndex idx with
  | ok i =>
    show (check (a.item i) >>= fun _ => setObject id (.array (a.writeItem i bytes))) m =
      arraySetElement id i bytes m
    rw [arraySetElement_stored ha, run_bind]
    cases a.item i <;> rfl
  | error e => rfl

/-- A read at a linear index fails only on an index out of bounds. -/
theorem arrayElement_error (ha : m.object? ⟨.array, id⟩ = some (.array a)) {i : Nat}
    {e : MachineError} {m' : Machine} (h : arrayElement id i m = .error e m') :
    ∃ j b, e = .indexOutOfBounds j b := by
  rw [arrayElement_stored ha] at h
  cases hi : a.item i with
  | ok x => rw [hi] at h; cases h
  | error e' =>
    rw [hi] at h
    cases h
    exact ⟨i, a.count, ItemArray.item_error hi⟩

/-- A write at a linear index fails only on an index out of bounds. -/
theorem arraySetElement_error (ha : m.object? ⟨.array, id⟩ = some (.array a)) {i : Nat}
    {bytes : List UInt8} {e : MachineError} {m' : Machine}
    (h : arraySetElement id i bytes m = .error e m') : ∃ j b, e = .indexOutOfBounds j b := by
  rw [arraySetElement_stored ha] at h
  cases hi : a.item i with
  | ok x => rw [hi] at h; cases h
  | error e' =>
    rw [hi] at h
    cases h
    exact ⟨i, a.count, ItemArray.item_error hi⟩

/-- A request at a position that runs its linear index through a request failing only out of
bounds fails on a rank mismatch exactly when the position has the wrong number of indices. -/
theorem dimensionMismatch_iff {α : Type} (idx : List Nat) {x : Nat → Exec α}
    (hx : ∀ i e m', x i m = .error e m' → ∃ j b, e = .indexOutOfBounds j b) :
    (∃ text, (match a.linearIndex idx with
        | .ok i => x i m
        | .error e => .error e m) = .error (.dimensionMismatch text) m) ↔
      idx.length ≠ a.dims.length := by
  constructor
  · rintro ⟨text, h⟩ hlen
    cases hi : a.linearIndex idx with
    | ok i =>
      rw [hi] at h
      obtain ⟨j, b, he⟩ := hx i _ _ h
      cases he
    | error e =>
      rw [hi] at h
      cases h
      obtain ⟨j, b, he⟩ := ItemArray.linearIndex_error_of_length_eq hlen hi
      cases he
  · intro hlen
    exact ⟨_, by rw [ItemArray.linearIndex_of_length_ne hlen]⟩

/-- Row-major addressing: on any array of any run, a read or a write at a position fails on the
rank or on the first index out of range, and otherwise reaches the row-major linear index, which
Horner's rule computes in machine words without overflow. -/
theorem row_major_addressing (backend : Backend) (track : Bool) (rs : List ObjectRequest) :
    let m := (Machine.new backend track).serveAll rs
    ∀ id a, m.object? ⟨.array, id⟩ = some (.array a) →
      (∀ idx bytes,
        ((∃ text, arrayElementNd id idx m = .error (.dimensionMismatch text) m) ↔
          idx.length ≠ a.dims.length) ∧
        ((∃ text, arraySetElementNd id idx bytes m = .error (.dimensionMismatch text) m) ↔
          idx.length ≠ a.dims.length)) ∧
      (∀ idx bytes k (hk : k < idx.length) (hd : k < a.dims.length),
        idx.length = a.dims.length → List.Forall₂ (· < ·) (idx.take k) (a.dims.take k) →
        a.dims[k] ≤ idx[k] →
        arrayElementNd id idx m = .error (.indexOutOfBounds idx[k] a.dims[k]) m ∧
        arraySetElementNd id idx bytes m = .error (.indexOutOfBounds idx[k] a.dims[k]) m) ∧
      (∀ idx bytes, List.Forall₂ (· < ·) idx a.dims →
        arrayElementNd id idx m =
          arrayElement id (∑ k : Fin idx.length, idx[k] * (a.dims.drop (k + 1)).prod) m ∧
        arraySetElementNd id idx bytes m =
          arraySetElement id (∑ k : Fin idx.length, idx[k] * (a.dims.drop (k + 1)).prod) bytes m) ∧
      Set.BijOn (fun idx : List Nat => ∑ k : Fin idx.length, idx[k] * (a.dims.drop (k + 1)).prod)
        {idx | List.Forall₂ (· < ·) idx a.dims} (Set.Iio a.count) ∧
      (∀ idx : List Nat, (∀ i ∈ idx, i ≤ wordLimit) →
        ∀ k (hk : k < idx.length) (hd : k < a.dims.length),
        List.Forall₂ (· < ·) (idx.take k) (a.dims.take k) → idx[k] < a.dims[k] →
        ((idx.zip a.dims).take k).foldlM ItemArray.indexStep 0 =
          .ok (rowMajor (idx.take k) (a.dims.take k)) ∧
        rowMajor (idx.take k) (a.dims.take k) * a.dims[k] + idx[k] ≤ wordLimit) := by
  intro m id a ha
  have hmade : (Obj.array a).Made := (made_serveAll (made_new backend track) rs).object? ha
  have hsum : ∀ idx : List Nat, List.Forall₂ (· < ·) idx a.dims →
      rowMajor idx a.dims = ∑ k : Fin idx.length, idx[k] * (a.dims.drop (k + 1)).prod :=
    fun _ hbox => rowMajor_eq_sum hbox.length_eq
  refine ⟨fun idx bytes => ⟨?_, ?_⟩, fun idx bytes k hk hd hlen hpre hle => ?_,
    fun idx bytes hbox => ?_, ?_, fun idx hw k hk hd hpre hlt => ?_⟩
  · rw [arrayElementNd_stored ha]
    exact dimensionMismatch_iff idx fun _ _ _ h => arrayElement_error ha h
  · rw [arraySetElementNd_stored ha]
    exact dimensionMismatch_iff idx fun _ _ _ h => arraySetElement_error ha h
  · have hi := ItemArray.linearIndex_of_le hlen hk hd hpre hle
    rw [arrayElementNd_stored ha, arraySetElementNd_stored ha, hi]
    exact ⟨rfl, rfl⟩
  · rw [arrayElementNd_stored ha, arraySetElementNd_stored ha, ItemArray.linearIndex_eq hbox,
      hsum idx hbox]
    exact ⟨rfl, rfl⟩
  · -- the sum agrees with Horner's rule on the box, which numbers the items
    rw [hmade.laidOut.count_eq]
    exact (rowMajor_bijOn a.dims).congr fun idx hbox => hsum idx hbox
  · exact ⟨ItemArray.foldlM_indexStep_take hpre,
      (hmade.extentsFit : a.ExtentsFit).horner_le hw hk hd hpre hlt⟩

end Machine

end QuantumRuntime
