import Mathlib
import QuantumRuntime.Proofs.Machine.Layout

/-!
# Slices and projections, position by position

A position in an array has one index per dimension, and its item sits at the row-major offset of
the position, `rowMajor`, where the last index varies fastest. A slice keeps every dimension and
keeps only the positions that a checked range selects along one of them. A projection fixes one
position of a dimension and drops that dimension. Both are computed from runs of consecutive
items, not from positions. This module shows that the runs come out right. The item of a slice at
a position is the item of the source at the same position, with the selected index put in at the
sliced dimension. The item of a projection is the item of the source with the fixed index
inserted.

Slicing checks the range against the extent read as a signed 64-bit number. Below `2 ^ 63` that
reading is the extent itself, and `slicing_by_positions` describes slicing and projecting as
requests of a program. The new array is stored under a fresh id and the source is left alone. It
holds, at every position, the item the positions pick from the source. A slice fails only when the
dimension does not exist or the extent refuses the range. `slice_wraps_extent_two_pow_63` is the
extent where the reading wraps around.
-/

namespace QuantumRuntime

/-! ### Row-major offsets -/

/-- The row-major offset of a position, one index per extent: the last index varies fastest. -/
def rowMajor (idx dims : List Nat) : Nat := (idx.zip dims).foldl (fun l p => l * p.2 + p.1) 0

/-- The bound behind every row-major offset: a row below `n` and a column below `R`. -/
theorem mul_add_lt_mul {q n t R : Nat} (hq : q < n) (ht : t < R) : q * R + t < n * R :=
  calc q * R + t < q * R + R := Nat.add_lt_add_left ht _
    _ = (q + 1) * R := (Nat.succ_mul q R).symm
    _ ≤ n * R := Nat.mul_le_mul_right R hq

/-- Starting the fold from `l` adds `l` times the product of the extents. -/
theorem foldl_rowMajor (zs : List (Nat × Nat)) (l : Nat) :
    zs.foldl (fun l p => l * p.2 + p.1) l =
      l * (zs.map Prod.snd).prod + zs.foldl (fun l p => l * p.2 + p.1) 0 := by
  induction zs generalizing l with
  | nil => simp
  | cons z zs ih =>
    simp only [List.foldl_cons, List.map_cons, List.prod_cons]
    rw [ih (l * z.2 + z.1), ih (0 * z.2 + z.1)]
    ring

theorem rowMajor_append {i₁ d₁ i₂ d₂ : List Nat} (h₁ : i₁.length = d₁.length)
    (h₂ : i₂.length = d₂.length) :
    rowMajor (i₁ ++ i₂) (d₁ ++ d₂) = rowMajor i₁ d₁ * d₂.prod + rowMajor i₂ d₂ := by
  unfold rowMajor
  rw [List.zip_append h₁, List.foldl_append, foldl_rowMajor, List.map_snd_zip h₂.ge]

theorem rowMajor_cons {is es : List Nat} (h : is.length = es.length) (i e : Nat) :
    rowMajor (i :: is) (e :: es) = i * es.prod + rowMajor is es := by
  have h₁ := rowMajor_append (show [i].length = [e].length from rfl) h
  simpa [rowMajor] using h₁

/-- The offset of a position whose index at one dimension is `i`: the earlier indices make a row
number, `i` picks a run in the row, and the later indices a place in the run. -/
theorem rowMajor_middle {i₁ d₁ i₂ d₂ : List Nat} (h₁ : i₁.length = d₁.length)
    (h₂ : i₂.length = d₂.length) (i e : Nat) :
    rowMajor (i₁ ++ i :: i₂) (d₁ ++ e :: d₂) =
      (rowMajor i₁ d₁ * e + i) * d₂.prod + rowMajor i₂ d₂ := by
  rw [rowMajor_append h₁ (by simp [h₂]), rowMajor_cons h₂, List.prod_cons]
  ring

/-- A position inside the extents has an offset below their product. -/
theorem rowMajor_lt {idx dims : List Nat} (h : List.Forall₂ (· < ·) idx dims) :
    rowMajor idx dims < dims.prod := by
  induction h with
  | nil => simp [rowMajor]
  | @cons i e is es hi hrest ih =>
    rw [rowMajor_cons hrest.length_eq, List.prod_cons]
    exact mul_add_lt_mul hi ih

/-! ### Positions of an array -/

/-- A fold of checked steps that all succeed is the fold of their results. -/
theorem foldlM_except_ok {α β ε : Type} {f : β → α → Except ε β} {g : β → α → β} {l : List α}
    (hfg : ∀ b, ∀ x ∈ l, f b x = .ok (g b x)) (b : β) : l.foldlM f b = .ok (l.foldl g b) := by
  induction l generalizing b with
  | nil => rfl
  | cons x l ih =>
    rw [List.foldlM_cons, hfg b x List.mem_cons_self, List.foldl_cons]
    exact ih (fun b y hy => hfg b y (List.mem_cons_of_mem x hy)) (g b x)

theorem lt_of_mem_zip {idx dims : List Nat} (h : List.Forall₂ (· < ·) idx dims) :
    ∀ p ∈ idx.zip dims, p.1 < p.2 := by
  induction h with
  | nil => simp
  | @cons i e is es hi _ ih =>
    intro p hp
    rw [List.zip_cons_cons, List.mem_cons] at hp
    rcases hp with rfl | hp
    · exact hi
    · exact ih p hp

namespace ItemArray

/-- The linear index of a position inside the extents is its row-major offset. -/
theorem linearIndex_eq {a : ItemArray} {idx : List Nat} (h : List.Forall₂ (· < ·) idx a.dims) :
    a.linearIndex idx = .ok (rowMajor idx a.dims) := by
  unfold linearIndex
  rw [if_neg (not_not.2 h.length_eq)]
  refine foldlM_except_ok (fun l p hp => ?_) 0
  have hlt := lt_of_mem_zip h p hp
  dsimp only
  rw [if_neg (Nat.not_le.2 hlt)]

/-- An item found at the offset of a position inside the extents is the item at that position. -/
theorem itemAt_of_getElem? {a : ItemArray} {idx : List Nat} {v : List UInt8}
    (hidx : List.Forall₂ (· < ·) idx a.dims) (hv : a.items[rowMajor idx a.dims]? = some v) :
    (a.linearIndex idx >>= a.item) = .ok v := by
  rw [linearIndex_eq hidx]
  show a.item (rowMajor idx a.dims) = .ok v
  unfold item
  rw [hv]

/-- The items gathered at positions `ps` of a dimension, read at row `r`, at the `q`-th position
and at place `t` of the run, are the source's items at row `r`, position `ps[q]` and place `t`. -/
theorem LaidOut.getElem?_gather {a : ItemArray} (h : a.LaidOut) {dim : Nat}
    (hdim : dim < a.dims.length) {ps : List Nat} (hps : ∀ p ∈ ps, p < a.dims[dim])
    {r q t : Nat} (hr : r < (a.dims.take dim).prod) (hq : q < ps.length) (ht : t < a.run dim) :
    (a.gather dim ps)[(r * ps.length + q) * a.run dim + t]? =
      a.items[(r * a.dims[dim] + ps[q]) * a.run dim + t]? := by
  have hrow : 0 < a.run dim * a.dims[dim] :=
    Nat.mul_pos (Nat.zero_lt_of_lt ht) (Nat.zero_lt_of_lt (hps _ (List.getElem_mem hq)))
  have hrun : ∀ r ∈ List.range (a.dims.take dim).prod, ∀ p ∈ ps,
      ((a.items.drop (r * (a.run dim * a.dims[dim]) + p * a.run dim)).take (a.run dim)).length =
        a.run dim :=
    fun r hr p hp => h.length_run hdim (List.mem_range.1 hr) (hps p hp)
  -- the offset is row `r` of the gathered rows, then the run at `q` inside it
  have hoff : (r * ps.length + q) * a.run dim + t =
      r * (ps.length * a.run dim) + (q * a.run dim + t) := by ring
  rw [h.gather_eq hdim hrow, hoff,
    getElem?_flatMap_mul_add (fun r hr => length_flatMap_of_length (hrun r hr)) r
      (mul_add_lt_mul hq ht),
    List.getElem?_range hr, Option.bind_some]
  rw [getElem?_flatMap_mul_add (hrun r (List.mem_range.2 hr)) q ht, List.getElem?_eq_getElem hq,
    Option.bind_some, List.getElem?_take_of_lt ht, List.getElem?_drop]
  congr 1
  ring

/-- The gathered items at a position split around the dimension, with earlier indices `ipre`,
the `q`-th gathered position and later indices `ipost`, are the source's item at the position
with `ps[q]` at the dimension. -/
theorem LaidOut.gather_at {a : ItemArray} (h : a.LaidOut) {dim : Nat} (hdim : dim < a.dims.length)
    {ps : List Nat} (hps : ∀ p ∈ ps, p < a.dims[dim]) {ipre ipost : List Nat}
    (hpre : List.Forall₂ (· < ·) ipre (a.dims.take dim))
    (hpost : List.Forall₂ (· < ·) ipost (a.dims.drop (dim + 1))) {q : Nat} (hq : q < ps.length) :
    ∃ v, (a.gather dim ps)[(rowMajor ipre (a.dims.take dim) * ps.length + q) * a.run dim +
        rowMajor ipost (a.dims.drop (dim + 1))]? = some v ∧
      (a.linearIndex (ipre ++ ps[q] :: ipost) >>= a.item) = .ok v := by
  have hd : a.dims = a.dims.take dim ++ a.dims[dim] :: a.dims.drop (dim + 1) := by simp
  have hpos : List.Forall₂ (· < ·) (ipre ++ ps[q] :: ipost) a.dims := by
    rw [hd]
    exact List.rel_append hpre (.cons (hps _ (List.getElem_mem hq)) hpost)
  have hoff : rowMajor (ipre ++ ps[q] :: ipost) a.dims =
      (rowMajor ipre (a.dims.take dim) * a.dims[dim] + ps[q]) * a.run dim +
        rowMajor ipost (a.dims.drop (dim + 1)) := by
    rw [run_eq]
    conv_lhs => rw [hd]
    exact rowMajor_middle hpre.length_eq hpost.length_eq _ _
  have hlt : rowMajor (ipre ++ ps[q] :: ipost) a.dims < a.count := by
    rw [h.count_eq]
    exact rowMajor_lt hpos
  have ht : rowMajor ipost (a.dims.drop (dim + 1)) < a.run dim := run_eq a dim ▸ rowMajor_lt hpost
  refine ⟨a.items[rowMajor (ipre ++ ps[q] :: ipost) a.dims], ?_,
    itemAt_of_getElem? hpos (List.getElem?_eq_getElem hlt)⟩
  rw [h.getElem?_gather hdim hps (rowMajor_lt hpre) hq ht, ← hoff, List.getElem?_eq_getElem hlt]

/-- A slice with a position in it is the selected positions gathered under the new shape. -/
theorem slice_of_pos {a : ItemArray} {dim : Nat} {s : Selection} (hs : ∀ x ∈ s.indices, 0 ≤ x)
    (hpos : 0 < (a.dims.set dim s.width).prod) :
    a.slice dim s = { new a.itemSize (a.dims.set dim s.width) with
      items := a.gather dim (s.indices.map Int.toNat) } := by
  unfold slice
  dsimp only
  rw [if_neg (by rw [count_new, ← List.prod_eq_foldr]; exact Nat.pos_iff_ne_zero.1 hpos),
    sliceItems_eq_gather a dim hs]

/-- A projection with a position in it is the fixed position gathered under the new shape. -/
theorem project_of_pos {a : ItemArray} {dim index : Nat} (hpos : 0 < (a.dims.eraseIdx dim).prod) :
    a.project dim index = { new a.itemSize (a.dims.eraseIdx dim) with
      items := a.gather dim [index] } := by
  unfold project
  dsimp only
  rw [if_neg (by rw [count_new, ← List.prod_eq_foldr]; exact Nat.pos_iff_ne_zero.1 hpos)]

/-- The item of a slice at a position inside its shape is the item of the source at the same
position, with the selected index put in at the sliced dimension. -/
theorem LaidOut.item_slice {a : ItemArray} (h : a.LaidOut) {dim : Nat} (hdim : dim < a.dims.length)
    {s : Selection} (hs : ∀ x ∈ s.indices, 0 ≤ x ∧ x < a.dims[dim]) {idx : List Nat}
    (hidx : List.Forall₂ (· < ·) idx (a.dims.set dim s.width)) :
    ∃ v, ((a.slice dim s).linearIndex idx >>= (a.slice dim s).item) = .ok v ∧
      (a.linearIndex (idx.set dim (s.indices.getD (idx.getD dim 0) 0).toNat) >>= a.item) =
        .ok v := by
  have hps := toNat_lt_of_indices hs
  have hlen : (s.indices.map Int.toNat).length = s.width := by simp
  have hi : dim < idx.length := by
    rw [hidx.length_eq, List.length_set]
    exact hdim
  -- split the position and the new shape around the sliced dimension
  have hsplit : idx = idx.take dim ++ idx[dim] :: idx.drop (dim + 1) := by simp
  have hset : a.dims.set dim s.width = a.dims.take dim ++ s.width :: a.dims.drop (dim + 1) := by
    rw [List.set_eq_take_append_cons_drop, if_pos hdim]
  have hpre : List.Forall₂ (· < ·) (idx.take dim) (a.dims.take dim) := by
    have := List.forall₂_take dim hidx
    rwa [List.take_set_of_le le_rfl] at this
  have hpost : List.Forall₂ (· < ·) (idx.drop (dim + 1)) (a.dims.drop (dim + 1)) := by
    have := List.forall₂_drop (dim + 1) hidx
    rwa [List.drop_set, if_pos (Nat.lt_succ_self dim)] at this
  have hq : idx[dim] < (s.indices.map Int.toNat).length := by
    have := hidx.get hi (by rw [List.length_set]; exact hdim)
    simpa [hlen] using this
  obtain ⟨v, hg, ha⟩ := h.gather_at hdim hps hpre hpost hq
  have hoff : rowMajor idx (a.dims.set dim s.width) =
      (rowMajor (idx.take dim) (a.dims.take dim) * (s.indices.map Int.toNat).length + idx[dim]) *
        a.run dim + rowMajor (idx.drop (dim + 1)) (a.dims.drop (dim + 1)) := by
    rw [hlen, run_eq, hset]
    conv_lhs => rw [hsplit]
    exact rowMajor_middle hpre.length_eq hpost.length_eq _ _
  have hpick : idx.set dim (s.indices.getD (idx.getD dim 0) 0).toNat =
      idx.take dim ++ (s.indices.map Int.toNat)[idx[dim]] :: idx.drop (dim + 1) := by
    rw [List.set_eq_take_append_cons_drop, if_pos hi, List.getD_eq_getElem _ _ hi,
      List.getD_eq_getElem _ _ (by simpa using hq), List.getElem_map]
  refine ⟨v, ?_, hpick ▸ ha⟩
  rw [slice_of_pos (fun x hx => (hs x hx).1) (Nat.zero_lt_of_lt (rowMajor_lt hidx))]
  refine itemAt_of_getElem? hidx ?_
  show (a.gather dim (s.indices.map Int.toNat))[rowMajor idx (a.dims.set dim s.width)]? = some v
  rw [hoff]
  exact hg

/-- The item of a projection at a position inside its shape is the item of the source at that
position with the fixed index inserted at the dropped dimension. -/
theorem LaidOut.item_project {a : ItemArray} (h : a.LaidOut) {dim index : Nat}
    (hdim : dim < a.dims.length) (hindex : index < a.dims[dim]) {idx : List Nat}
    (hidx : List.Forall₂ (· < ·) idx (a.dims.eraseIdx dim)) :
    ∃ v, ((a.project dim index).linearIndex idx >>= (a.project dim index).item) = .ok v ∧
      (a.linearIndex (idx.take dim ++ index :: idx.drop dim) >>= a.item) = .ok v := by
  have hps : ∀ p ∈ [index], p < a.dims[dim] := by
    intro p hp
    rw [List.mem_singleton.1 hp]
    exact hindex
  have herase : a.dims.eraseIdx dim = a.dims.take dim ++ a.dims.drop (dim + 1) :=
    List.eraseIdx_eq_take_drop_succ a.dims dim
  have htake : (a.dims.take dim).length = dim := List.length_take_of_le hdim.le
  -- the position splits where the dropped dimension was
  have hpre : List.Forall₂ (· < ·) (idx.take dim) (a.dims.take dim) := by
    have := List.forall₂_take dim hidx
    rwa [herase, List.take_left' htake] at this
  have hpost : List.Forall₂ (· < ·) (idx.drop dim) (a.dims.drop (dim + 1)) := by
    have := List.forall₂_drop dim hidx
    rwa [herase, List.drop_left' htake] at this
  obtain ⟨v, hg, ha⟩ := h.gather_at hdim hps hpre hpost (List.length_singleton ▸ Nat.zero_lt_one)
  have hoff : rowMajor idx (a.dims.eraseIdx dim) =
      (rowMajor (idx.take dim) (a.dims.take dim) * [index].length + 0) * a.run dim +
        rowMajor (idx.drop dim) (a.dims.drop (dim + 1)) := by
    rw [List.length_singleton, Nat.mul_one, Nat.add_zero, run_eq, herase]
    conv_lhs => rw [← List.take_append_drop dim idx]
    exact rowMajor_append hpre.length_eq hpost.length_eq
  refine ⟨v, ?_, ha⟩
  rw [project_of_pos (Nat.zero_lt_of_lt (rowMajor_lt hidx))]
  refine itemAt_of_getElem? hidx ?_
  show (a.gather dim [index])[rowMajor idx (a.dims.eraseIdx dim)]? = some v
  rw [hoff]
  exact hg

@[simp] theorem itemSize_slice (a : ItemArray) (dim : Nat) (s : Selection) :
    (a.slice dim s).itemSize = a.itemSize := by
  unfold slice
  dsimp only
  split <;> rfl

@[simp] theorem dims_slice (a : ItemArray) (dim : Nat) (s : Selection) :
    (a.slice dim s).dims = a.dims.set dim s.width := by
  unfold slice
  dsimp only
  split <;> rfl

@[simp] theorem itemSize_project (a : ItemArray) (dim index : Nat) :
    (a.project dim index).itemSize = a.itemSize := by
  unfold project
  dsimp only
  split <;> rfl

@[simp] theorem dims_project (a : ItemArray) (dim index : Nat) :
    (a.project dim index).dims = a.dims.eraseIdx dim := by
  unfold project
  dsimp only
  split <;> rfl

/-- A selection of every position of a dimension in order picks each index for itself. -/
theorem getD_indices_whole {s : Selection} (hstep : s.step = 1) (hstart : s.start = 0) {i : Nat}
    (hi : i < s.width) : (s.indices.getD i 0).toNat = i := by
  rw [List.getD_eq_getElem _ _ (by simpa using hi)]
  simp [Selection.indices, hstep, hstart]

/-- A laid-out array has an item at every position inside its extents. -/
theorem LaidOut.item_at {a : ItemArray} (h : a.LaidOut) {idx : List Nat}
    (hidx : List.Forall₂ (· < ·) idx a.dims) : ∃ v, (a.linearIndex idx >>= a.item) = .ok v := by
  have hlt : rowMajor idx a.dims < a.count := by
    rw [h.count_eq]
    exact rowMajor_lt hidx
  exact ⟨_, itemAt_of_getElem? hidx (List.getElem?_eq_getElem hlt)⟩

/-- What a slice request stores, whichever path it takes: the source copied when the selection
is every position of the dimension in order, the slice otherwise. Either way it has the source's
item size, owns no qubits, has the sliced shape, and holds at every position the source's item
at the selected position. -/
theorem LaidOut.sliced {a : ItemArray} (h : a.LaidOut) {dim : Nat} (hdim : dim < a.dims.length)
    {s : Selection} (hs : ∀ x ∈ s.indices, 0 ≤ x ∧ x < a.dims[dim]) :
    let b := if s.step = 1 && s.start = 0 && (s.width : Int) = (a.dims.getD dim 0 : Int) then
      a.copy else a.slice dim s
    b.itemSize = a.itemSize ∧ b.ownsQubits = false ∧ b.dims = a.dims.set dim s.width ∧
      ∀ idx, List.Forall₂ (· < ·) idx b.dims → ∃ v, (b.linearIndex idx >>= b.item) = .ok v ∧
        (a.linearIndex (idx.set dim (s.indices.getD (idx.getD dim 0) 0).toNat) >>= a.item) =
          .ok v := by
  intro b
  have hget : a.dims.getD dim 0 = a.dims[dim] := List.getD_eq_getElem _ _ hdim
  by_cases hwhole : s.step = 1 && s.start = 0 && (s.width : Int) = (a.dims.getD dim 0 : Int)
  · -- the whole dimension in order: the copy, whose positions are the source's own
    have hb : b = a.copy := if_pos hwhole
    simp only [Bool.and_eq_true, decide_eq_true_eq] at hwhole
    obtain ⟨⟨hstep, hstart⟩, hwidth⟩ := hwhole
    have hw : s.width = a.dims[dim] := by omega
    have hset : a.dims.set dim s.width = a.dims := by rw [hw, List.set_getElem_self]
    refine ⟨by rw [hb]; rfl, by rw [hb]; rfl, by rw [hb, hset]; rfl, fun idx hidx => ?_⟩
    rw [hb] at hidx ⊢
    change List.Forall₂ (· < ·) idx a.dims at hidx
    have hi : dim < idx.length := hidx.length_eq ▸ hdim
    have hpick : idx.set dim (s.indices.getD (idx.getD dim 0) 0).toNat = idx := by
      have hlt : idx[dim] < s.width := by
        have := hidx.get hi hdim
        simpa [hw] using this
      rw [List.getD_eq_getElem _ _ hi, getD_indices_whole hstep hstart hlt, List.set_getElem_self]
    obtain ⟨v, hv⟩ := h.item_at hidx
    rw [hpick]
    exact ⟨v, hv, hv⟩
  · have hb : b = a.slice dim s := if_neg hwhole
    rw [hb]
    refine ⟨itemSize_slice a dim s, ownsQubits_slice a dim s, dims_slice a dim s,
      fun idx hidx => ?_⟩
    rw [dims_slice] at hidx
    exact h.item_slice hdim hs hidx

end ItemArray

/-- Below `2 ^ 63` the signed 64-bit reading of an extent is the extent itself. -/
theorem toInt_toInt64_of_lt {n : Nat} (h : n < 2 ^ 63) : (Int.ofNat n).toInt64.toInt = n := by
  have h' : (Int.ofNat n).toInt64.toInt = (n : Int).bmod (2 ^ 64) := by simp
  rw [h', Int.bmod]
  split <;> omega

namespace Machine

variable {m m' : Machine}

/-- Reading the element at a position of a stored array gives the array's item there. -/
theorem arrayElementNd_of_item {id : Nat} {a : ItemArray}
    (ha : m.object? ⟨.array, id⟩ = some (.array a)) {idx : List Nat} {v : List UInt8}
    (hv : (a.linearIndex idx >>= a.item) = .ok v) : arrayElementNd id idx m = .ok v m := by
  unfold Machine.arrayElementNd
  rw [run_bind, getArray_eq, (object?_eq_some.1 ha).1]
  dsimp only
  cases hl : a.linearIndex idx with
  | error e =>
    rw [hl] at hv
    cases hv
  | ok i =>
    rw [hl] at hv
    change a.item i = .ok v at hv
    simp [check, hv]

/-- `m'` is `m` with one more array, `b`, stored under an id that no object of `m` has; `b` owns
no qubits. -/
structure AddsArray (m m' : Machine) (id : Nat) (b : ItemArray) : Prop where
  fresh : m.objects.lookup id = none
  objects : m'.objects = m.objects ++ [(id, .array b)]
  disowned : b.ownsQubits = false

theorem AddsArray.object?_self {id : Nat} {b : ItemArray} (h : AddsArray m m' id b) :
    m'.object? ⟨.array, id⟩ = some (.array b) := by
  refine object?_eq_some.2 ⟨?_, rfl⟩
  rw [h.objects, List.lookup_append, h.fresh]
  simp [List.lookup]

/-- Adding an array leaves the objects of every other id as they were. -/
theorem AddsArray.object?_ne {id : Nat} {b : ItemArray} (h : AddsArray m m' id b) {k : ObjectKey}
    (hk : k.id ≠ id) : m'.object? k = m.object? k := by
  rw [object?_eq, object?_eq, h.objects, List.lookup_append]
  simp [List.lookup, beq_eq_false_iff_ne.2 hk]

/-- After an array is added, the program reads at a position of it the item that the array
holds there, and at a position of an array stored before the item that array holds there. -/
theorem AddsArray.reads {id id' : Nat} {a b : ItemArray} (h : AddsArray m m' id' b)
    (ha : m.object? ⟨.array, id⟩ = some (.array a)) {idx idx' : List Nat} {v : List UInt8}
    (hb : (b.linearIndex idx >>= b.item) = .ok v) (ha' : (a.linearIndex idx' >>= a.item) = .ok v) :
    arrayElementNd id' idx m' = .ok v m' ∧ arrayElementNd id idx' m' = .ok v m' := by
  have hne : id ≠ id' := by
    rintro rfl
    have hfresh := h.fresh
    rw [(object?_eq_some.1 ha).1] at hfresh
    exact Option.some_ne_none _ hfresh
  exact ⟨arrayElementNd_of_item h.object?_self hb,
    arrayElementNd_of_item ((h.object?_ne hne).trans ha) ha'⟩

/-- On a machine whose tracker, if any, agrees with its objects, storing an object succeeds under
the next id and appends the object to the store. -/
theorem insert_fresh (hm : ∀ t, m.tracker = some t → Agrees t m) (o : Obj) :
    ∃ m', Machine.insert o m = .ok m.nextId m' ∧ m'.objects = m.objects ++ [(m.nextId, o)] := by
  cases ht : m.tracker with
  | none =>
    refine ⟨{ m with nextId := m.nextId + 1, objects := m.objects ++ [(m.nextId, o)] }, ?_, rfl⟩
    simp [Machine.insert, freshId, onTracker, ht]
  | some t => exact ⟨_, insert_eq ht o ((hm t ht).count?_fresh o.kind), rfl⟩

/-- A slice request on a stored array, on a machine whose tracker agrees with its objects. It
fails, leaving the machine as it was, when the dimension is missing or the range is refused
against the 64-bit reading of the extent. Otherwise it stores the copy or the slice under the next
id. -/
theorem arraySlice_cases (hm : ∀ t, m.tracker = some t → Agrees t m) {id : Nat} {a : ItemArray}
    (ha : m.object? ⟨.array, id⟩ = some (.array a)) (dim : Nat) (r : Range) :
    match arraySlice id dim r m with
    | .ok id' m' => ∃ s, dim < a.dims.length ∧
        r.select (Int.ofNat (a.dims.getD dim 0)).toInt64.toInt = .ok s ∧ id' = m.nextId ∧
        m'.objects = m.objects ++ [(m.nextId, .array (if s.step = 1 && s.start = 0 &&
          (s.width : Int) = (a.dims.getD dim 0 : Int) then a.copy else a.slice dim s))]
    | .error e m' => m' = m ∧
        ((a.dims.length ≤ dim ∧ e = .dimensionOutOfBounds dim a.dims.length) ∨
          ∃ re, r.select (Int.ofNat (a.dims.getD dim 0)).toInt64.toInt = .error re ∧
            e = .range re) := by
  unfold Machine.arraySlice
  rw [run_bind, getArray_eq, (object?_eq_some.1 ha).1]
  dsimp only
  rw [run_bind]
  by_cases hd : a.dims.length ≤ dim
  · have hcheck : a.checkDim dim = .error (.dimensionOutOfBounds dim a.dims.length) := if_pos hd
    rw [hcheck]
    exact ⟨rfl, .inl ⟨hd, rfl⟩⟩
  · have hcheck : a.checkDim dim = .ok () := if_neg hd
    rw [hcheck]
    simp only [check, run_pure]
    rw [run_bind]
    cases hsel : r.select (Int.ofNat (a.dims.getD dim 0)).toInt64.toInt with
    | error re => exact ⟨rfl, .inr ⟨re, rfl, rfl⟩⟩
    | ok s =>
      simp only [Except.mapError, run_pure]
      rw [← apply_ite insertArray]
      obtain ⟨m', hins, hobj⟩ := insert_fresh hm (.array (if s.step = 1 && s.start = 0 &&
        (s.width : Int) = (a.dims.getD dim 0 : Int) then a.copy else a.slice dim s))
      rw [insertArray, hins]
      exact ⟨s, Nat.lt_of_not_le hd, rfl, rfl, hobj⟩

/-- A projection request on a stored array of rank at least two, at a position inside an existing
dimension, on a machine whose tracker agrees with its objects, stores the projection under the
next id. -/
theorem arrayProject_ok (hm : ∀ t, m.tracker = some t → Agrees t m) {id : Nat} {a : ItemArray}
    (ha : m.object? ⟨.array, id⟩ = some (.array a)) {dim index : Nat} (hrank : 2 ≤ a.dims.length)
    (hdim : dim < a.dims.length) (hindex : index < a.dims.getD dim 0) :
    ∃ m', arrayProject id dim index m = .ok m.nextId m' ∧
      m'.objects = m.objects ++ [(m.nextId, .array (a.project dim index))] := by
  obtain ⟨m', hins, hobj⟩ := insert_fresh hm (.array (a.project dim index))
  refine ⟨m', ?_, hobj⟩
  have hcheck : a.checkDim dim = .ok () := if_neg (Nat.not_le.2 hdim)
  unfold Machine.arrayProject
  rw [run_bind, getArray_eq, (object?_eq_some.1 ha).1]
  dsimp only
  rw [if_neg (Nat.not_lt.2 hrank), run_bind, hcheck]
  simp only [check, run_pure]
  rw [if_neg (Nat.not_le.2 hindex)]
  exact hins

/-- Slicing and projecting agree with positions. Take any list of requests from a fresh program,
on any backend, with or without tracking, and an array `a` stored at its end. Slicing `a` along a
dimension whose extent is below `2 ^ 63` fails, and leaves the machine as it was, exactly when the
dimension does not exist or the range does not select positions inside the extent. Otherwise the
slice is stored under an id that was free. It has the item size of `a`, owns no qubits, has the
selected width as the extent of the sliced dimension, and leaves every other object as it was. At
every position of it the program reads the element of `a` at the same position, with the
selected index put in. Projecting `a`, when it has rank at least two, at a position inside an
existing dimension succeeds and stores the array without that dimension. At every position of it
the program reads the element of `a` with the fixed index inserted. -/
theorem slicing_by_positions (backend : Backend) (track : Bool) (rs : List ObjectRequest) :
    let m := (Machine.new backend track).serveAll rs
    ∀ id a, m.object? ⟨.array, id⟩ = some (.array a) →
      (∀ dim r, a.dims.getD dim 0 < 2 ^ 63 →
        match arraySlice id dim r m with
        | .ok id' m' => dim < a.dims.length ∧ ∃ s b, r.select (a.dims.getD dim 0 : Int) = .ok s ∧
            AddsArray m m' id' b ∧ b.itemSize = a.itemSize ∧ b.dims = a.dims.set dim s.width ∧
            ∀ idx, List.Forall₂ (· < ·) idx b.dims → ∃ v, arrayElementNd id' idx m' = .ok v m' ∧
              arrayElementNd id (idx.set dim (s.indices.getD (idx.getD dim 0) 0).toNat) m' =
                .ok v m'
        | .error e m' => m' = m ∧
            ((a.dims.length ≤ dim ∧ e = .dimensionOutOfBounds dim a.dims.length) ∨
              ∃ re, r.select (a.dims.getD dim 0 : Int) = .error re ∧ e = .range re)) ∧
      (∀ dim index, 2 ≤ a.dims.length → dim < a.dims.length → index < a.dims.getD dim 0 →
        ∃ id' m' b, arrayProject id dim index m = .ok id' m' ∧ AddsArray m m' id' b ∧
          b.itemSize = a.itemSize ∧ b.dims = a.dims.eraseIdx dim ∧
          ∀ idx, List.Forall₂ (· < ·) idx b.dims → ∃ v, arrayElementNd id' idx m' = .ok v m' ∧
            arrayElementNd id (idx.take dim ++ index :: idx.drop dim) m' = .ok v m') := by
  intro m id a ha
  have hlaid : ArraysLaidOut m := laidOut_serveAll (laidOut_new backend track) rs
  have hm : ∀ t, m.tracker = some t → Agrees t m := agrees_serveAll backend track rs
  have h : a.LaidOut := hlaid.object? ha
  refine ⟨fun dim r hext => ?_, fun dim index hrank hdim hindex => ?_⟩
  · -- below `2 ^ 63` the request checks the range against the extent itself
    have hc := arraySlice_cases hm ha dim r
    rw [toInt_toInt64_of_lt hext] at hc
    split
    · next id' m' hx =>
      rw [hx] at hc
      obtain ⟨s, hd, hsel, rfl, hobj⟩ := hc
      have hs : ∀ x ∈ s.indices, 0 ≤ x ∧ x < a.dims[dim] := by
        have := Range.select_indices hsel
        rwa [List.getD_eq_getElem _ _ hd] at this
      obtain ⟨hsize, hown, hdims, hitems⟩ := h.sliced hd hs
      have hadd := AddsArray.mk hlaid.lookup_nextId hobj hown
      refine ⟨hd, s, _, hsel, hadd, hsize, hdims, fun idx hidx => ?_⟩
      obtain ⟨v, hv, hv'⟩ := hitems idx hidx
      exact ⟨v, hadd.reads ha hv hv'⟩
    · next e m' hx =>
      rw [hx] at hc
      exact hc
  · obtain ⟨m', hx, hobj⟩ := arrayProject_ok hm ha hrank hdim hindex
    have hadd := AddsArray.mk hlaid.lookup_nextId hobj (ItemArray.ownsQubits_project a dim index)
    have hindex' : index < a.dims[dim] := by rwa [List.getD_eq_getElem _ _ hdim] at hindex
    refine ⟨_, m', _, hx, hadd, ItemArray.itemSize_project a dim index,
      ItemArray.dims_project a dim index,
      fun idx hidx => ?_⟩
    rw [ItemArray.dims_project] at hidx
    obtain ⟨v, hv, hv'⟩ := h.item_project hdim hindex' hidx
    exact ⟨v, hadd.reads ha hv hv'⟩

/-- An extent of `2 ^ 63` reads as `-2 ^ 63` in 64 bits. An array of shape `[0, 2 ^ 63]` can be
made, since it has no items, and the range `0..0` selects position 0 of its second dimension;
the slice there is refused all the same, against the wrapped extent. -/
theorem slice_wraps_extent_two_pow_63 :
    ∃ id m, arrayCreate 1 [0, 2 ^ 63] (Machine.new (.recorder {}) false) = .ok id m ∧
      Range.select ⟨0, 1, 0⟩ (2 ^ 63) = .ok ⟨0, 1, 1, 1⟩ ∧
      arraySlice id 1 ⟨0, 1, 0⟩ m = .error (.range (.outOfBounds ⟨0, 1, 0⟩ (-2 ^ 63))) m := by
  refine ⟨1, _, rfl, ?_, ?_⟩
  · decide
  · rfl

end Machine

end QuantumRuntime
