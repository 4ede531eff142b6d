import Mathlib
import QuantumRuntime.Proofs.Machine.Ownership

/-!
# How arrays are laid out

An array keeps its items in row-major order, and its buffer is every item followed by zeros up
to the element stride. That layout holds together when every item has the item size, the items
are as many as the product of the extents, and an array that owns qubits is a one-dimensional
array of words: `ItemArray.LaidOut`. Everything else follows from it. The buffer is the count
times the stride long, every padding byte is zero, the item at an index is the item-size bytes
found at the index times the stride, and writing an item changes no byte outside it.

Every request keeps every stored array laid out, whether it succeeds or fails; the requests are
specified with the rules of `Lays`, following their own steps. Concatenation, slicing and
projection compute the shape of the new array apart from its items, so for them the count is
a real fact about the positions they gather; the flattened controls of a nested controlled call
are words copied out of word arrays into a fresh word array of the right length. The main
statement, `arrays_laid_out`, runs any list of requests from a fresh program.
-/

namespace QuantumRuntime

/-! ### Lists cut into pieces of one length -/

section Pieces

variable {β γ : Type} {f : β → List γ} {s : Nat}

theorem length_flatMap_of_length {l : List β} (hl : ∀ x ∈ l, (f x).length = s) :
    (l.flatMap f).length = l.length * s := by
  rw [List.length_flatMap, List.map_congr_left hl]
  simp

/-- Position `i * s + k` of pieces of length `s` is position `k` of piece `i`. -/
theorem getElem?_flatMap_mul_add {l : List β} (hl : ∀ x ∈ l, (f x).length = s) (i : Nat)
    {k : Nat} (hk : k < s) : (l.flatMap f)[i * s + k]? = l[i]?.bind fun x => (f x)[k]? := by
  induction l generalizing i with
  | nil => simp
  | cons x l ih =>
    have hx : (f x).length = s := hl x List.mem_cons_self
    rw [List.flatMap_cons]
    cases i with
    | zero =>
      rw [Nat.zero_mul, Nat.zero_add, List.getElem?_append_left (by omega)]
      simp
    | succ i =>
      have hle : (f x).length ≤ (i + 1) * s + k := by
        rw [Nat.succ_mul, hx]
        omega
      have hidx : (i + 1) * s + k - (f x).length = i * s + k := by
        rw [Nat.succ_mul, hx]
        omega
      rw [List.getElem?_append_right hle, hidx, ih fun y hy => hl y (List.mem_cons_of_mem _ hy)]
      simp

end Pieces

/-! ### Positions a checked range selects -/

namespace Range

/-- Under the bounds check, every position from the first to the last lies in the dimension. -/
theorem mem_of_inside {r : Range} {bound : Int}
    (hin : (if 0 < r.step then decide (0 ≤ r.start) && decide (r.last < bound)
      else decide (0 ≤ r.last) && decide (r.start < bound)) = true)
    {i : Int} (hi : 0 ≤ i) (hic : i ≤ r.count - 1) :
    0 ≤ r.start + i * r.step ∧ r.start + i * r.step < bound := by
  unfold last at hin
  split at hin
  · next hstep =>
    simp only [Bool.and_eq_true, decide_eq_true_eq] at hin
    have h0 : 0 ≤ i * r.step := Int.mul_nonneg hi hstep.le
    have h1 : i * r.step ≤ (r.count - 1) * r.step := Int.mul_le_mul_of_nonneg_right hic hstep.le
    omega
  · next hstep =>
    simp only [Bool.and_eq_true, decide_eq_true_eq] at hin
    have h0 : i * r.step ≤ 0 := Int.mul_nonpos_of_nonneg_of_nonpos hi (by omega)
    have h1 : (r.count - 1) * r.step ≤ i * r.step :=
      Int.mul_le_mul_of_nonpos_right hic (by omega)
    omega

/-- A range that passes the check selects positions inside the dimension only. -/
theorem select_indices {r : Range} {bound : Int} {s : Selection} (h : r.select bound = .ok s) :
    ∀ x ∈ s.indices, 0 ≤ x ∧ x < bound := by
  unfold select at h
  dsimp only at h
  -- a zero step is refused and a backwards range selects nothing
  split at h
  · cases h
  split at h
  · cases h
    simp [Selection.empty, Selection.indices]
  -- a value that leaves 64 bits is refused
  split at h
  · cases h
  split at h
  · cases h
  split at h
  · cases h
  generalize hinside : (if 0 < r.step then decide (0 ≤ r.start) && decide (r.last < bound)
    else decide (0 ≤ r.last) && decide (r.start < bound)) = inside at h
  split at h
  · cases h
  · next hin =>
    rw [Bool.not_eq_true', Bool.not_eq_false] at hin
    subst hin
    split at h
    · next hone =>
      -- a single position is the first one
      cases h
      intro x hx
      simp only [Selection.indices, List.range_one, List.map_cons, List.map_nil,
        List.mem_singleton] at hx
      have := mem_of_inside hinside (le_refl 0) (by omega)
      simpa [hx] using this
    split at h
    · cases h
    · cases h
      intro x hx
      obtain ⟨i, hi, rfl⟩ := List.mem_map.1 hx
      rw [List.mem_range] at hi
      dsimp only at hi
      exact mem_of_inside hinside (Int.natCast_nonneg i) (by omega)

end Range

/-- The signed 64-bit reading of an extent, against which ranges are checked, is never above the
extent. -/
theorem toInt_toInt64_le (n : Nat) : (Int.ofNat n).toInt64.toInt ≤ n := by
  have h : (Int.ofNat n).toInt64.toInt = (n : Int).bmod (2 ^ 64) := by simp
  rw [h, Int.bmod]
  split <;> omega

namespace ItemArray

/-! ### The layout of one array -/

/-- The layout of an array holds together: every item has the item size, the items are as many
as the product of the extents, and an array that owns qubits is a one-dimensional array of
words. -/
structure LaidOut (a : ItemArray) : Prop where
  length_item : ∀ item ∈ a.items, item.length = a.itemSize
  count_eq : a.count = a.dims.prod
  owner : a.ownsQubits = true → a.dims.length = 1 ∧ a.itemSize = Word.size

theorem itemSize_le_stride (a : ItemArray) : a.itemSize ≤ a.stride := le_elementStride a.itemSize

/-- An item followed by its padding fills one stride. -/
theorem length_padded {a : ItemArray} {item : List UInt8} (h : item.length = a.itemSize) :
    (item ++ Bytes.zeros (a.stride - a.itemSize)).length = a.stride := by
  have := itemSize_le_stride a
  simp only [List.length_append, Bytes.length_zeros, h]
  omega

/-- Overwriting the start of an item keeps its length. -/
theorem length_overwrite_zero (data src : List UInt8) :
    (Bytes.overwrite data 0 src).length = data.length := by
  simp only [Bytes.overwrite, List.length_take, List.length_append, List.length_drop]
  omega

@[simp] theorem items_writeItem (a : ItemArray) (i : Nat) (bytes : List UInt8) :
    (a.writeItem i bytes).items = a.items.modify i fun old => Bytes.overwrite old 0 bytes := rfl

@[simp] theorem itemSize_writeItem (a : ItemArray) (i : Nat) (bytes : List UInt8) :
    (a.writeItem i bytes).itemSize = a.itemSize := rfl

@[simp] theorem stride_writeItem (a : ItemArray) (i : Nat) (bytes : List UInt8) :
    (a.writeItem i bytes).stride = a.stride := rfl

/-- `a'` is `a` with at most the bytes of item `index` rewritten: the same item size, shape
and buffer length, and the same byte at every offset of the buffer outside that item. -/
structure Rewrites (a a' : ItemArray) (index : Nat) : Prop where
  itemSize_eq : a'.itemSize = a.itemSize
  dims_eq : a'.dims = a.dims
  length_buffer : a'.buffer.length = a.buffer.length
  outside : ∀ j, j < index * a.stride ∨ index * a.stride + a.itemSize ≤ j →
    a'.buffer[j]? = a.buffer[j]?

namespace LaidOut

variable {a : ItemArray}

theorem length_buffer (h : a.LaidOut) : a.buffer.length = a.count * a.stride :=
  length_flatMap_of_length fun _ hx => length_padded (h.length_item _ hx)

theorem getElem?_buffer (h : a.LaidOut) (i : Nat) {k : Nat} (hk : k < a.stride) :
    a.buffer[i * a.stride + k]? =
      a.items[i]?.bind fun item => (item ++ Bytes.zeros (a.stride - a.itemSize))[k]? :=
  getElem?_flatMap_mul_add (fun _ hx => length_padded (h.length_item _ hx)) i hk

/-- Every padding byte is zero. -/
theorem buffer_padding (h : a.LaidOut) {i k : Nat} (hi : i < a.count) (hk : a.itemSize ≤ k)
    (hks : k < a.stride) : a.buffer[i * a.stride + k]? = some 0 := by
  have hl := h.length_item _ (List.getElem_mem hi)
  rw [h.getElem?_buffer i hks, List.getElem?_eq_getElem hi, Option.bind_some,
    List.getElem?_append_right (by omega), Bytes.zeros, List.getElem?_replicate, if_pos (by omega)]

/-- The item at an index is the item-size bytes of the buffer at the index times the stride. -/
theorem item_eq (h : a.LaidOut) {i : Nat} (hi : i < a.count) :
    a.item i = .ok ((a.buffer.drop (i * a.stride)).take a.itemSize) := by
  have hl := h.length_item _ (List.getElem_mem hi)
  have hbytes : (a.buffer.drop (i * a.stride)).take a.itemSize = a.items[i] := by
    apply List.ext_getElem?
    intro k
    rw [List.getElem?_take, List.getElem?_drop]
    split
    · next hk =>
      rw [h.getElem?_buffer i (lt_of_lt_of_le hk (itemSize_le_stride a)),
        List.getElem?_eq_getElem hi, Option.bind_some, List.getElem?_append_left (by omega)]
    · next hk => exact (List.getElem?_eq_none (by omega)).symm
  rw [item, List.getElem?_eq_getElem hi, hbytes]

/-- Writing an item keeps the layout. -/
theorem writeItem (h : a.LaidOut) (i : Nat) (bytes : List UInt8) :
    (a.writeItem i bytes).LaidOut where
  length_item item hm := by
    obtain ⟨j, hj⟩ := List.mem_iff_getElem?.1 hm
    simp only [items_writeItem, List.getElem?_modify] at hj
    cases ho : a.items[j]? with
    | none => simp [ho] at hj
    | some old =>
      have hl := h.length_item old (List.mem_of_getElem? ho)
      simp only [ho, Option.map_eq_map, Option.map_some, Option.some.injEq] at hj
      subst hj
      split
      · rw [length_overwrite_zero, hl]
        rfl
      · exact hl
  count_eq := (List.length_modify _ _ _).trans h.count_eq
  owner := h.owner

/-- Writing an item changes no byte of the buffer outside that item. -/
theorem getElem?_buffer_writeItem (h : a.LaidOut) {i : Nat} (bytes : List UInt8) {j : Nat}
    (hj : j < i * a.stride ∨ i * a.stride + a.itemSize ≤ j) :
    (a.writeItem i bytes).buffer[j]? = a.buffer[j]? := by
  have h' := h.writeItem i bytes
  rcases Nat.eq_zero_or_pos a.stride with hs | hs
  · -- with a zero stride both buffers are empty
    have h₁ := h.length_buffer
    have h₂ := h'.length_buffer
    have hs' : (a.writeItem i bytes).stride = 0 := hs
    rw [List.getElem?_eq_none (by rw [h₂, hs', Nat.mul_zero]; exact Nat.zero_le j),
      List.getElem?_eq_none (by rw [h₁, hs, Nat.mul_zero]; exact Nat.zero_le j)]
  · obtain ⟨q, r, hr, rfl⟩ : ∃ q r, r < a.stride ∧ j = q * a.stride + r :=
      ⟨j / a.stride, j % a.stride, Nat.mod_lt _ hs, (Nat.div_add_mod' j a.stride).symm⟩
    refine (h'.getElem?_buffer q hr).trans ?_
    rw [h.getElem?_buffer q hr]
    simp only [items_writeItem, stride_writeItem, itemSize_writeItem, List.getElem?_modify]
    by_cases hq : i = q
    · subst hq
      -- the offset lies in the padding of the written item
      have hpad : a.itemSize ≤ r := by
        rcases hj with hj | hj <;> omega
      cases ho : a.items[i]? with
      | none => rfl
      | some old =>
        have hl := h.length_item old (List.mem_of_getElem? ho)
        have hl' : (Bytes.overwrite old 0 bytes).length = a.itemSize := by
          rw [length_overwrite_zero, hl]
        simp only [Option.map_eq_map, Option.map_some, ↓reduceIte, Option.bind_some]
        rw [List.getElem?_append_right (by omega), List.getElem?_append_right (by omega), hl, hl']
    · simp only [hq, if_false, Option.map_eq_map, Option.map_id']

/-- Writing an item rewrites that item only. -/
theorem rewrites_writeItem (h : a.LaidOut) (i : Nat) (bytes : List UInt8) :
    a.Rewrites (a.writeItem i bytes) i where
  itemSize_eq := rfl
  dims_eq := rfl
  length_buffer := by
    rw [(h.writeItem i bytes).length_buffer, h.length_buffer]
    exact congrArg (· * a.stride) (List.length_modify _ _ _)
  outside _ hj := h.getElem?_buffer_writeItem bytes hj

end LaidOut

/-! ### Arrays the requests make -/

theorem run_eq (a : ItemArray) (dim : Nat) : a.run dim = (a.dims.drop (dim + 1)).prod :=
  List.prod_eq_foldr.symm

/-- The product of the extents splits at a dimension. -/
theorem prod_eq_take_mul (l : List Nat) {dim : Nat} (hdim : dim < l.length) :
    l.prod = (l.take dim).prod * l[dim] * (l.drop (dim + 1)).prod := by
  have h := List.prod_set l dim l[dim]
  rwa [List.set_getElem_self, if_pos hdim] at h

theorem laidOut_new (itemSize : Nat) (dims : List Nat) : (new itemSize dims).LaidOut where
  length_item item hm := by
    obtain ⟨-, rfl⟩ := List.mem_replicate.1 hm
    exact Bytes.length_zeros _
  count_eq := (count_new itemSize dims).trans List.prod_eq_foldr.symm
  owner h := absurd h Bool.false_ne_true

theorem LaidOut.copy {a : ItemArray} (h : a.LaidOut) : a.copy.LaidOut where
  length_item := h.length_item
  count_eq := h.count_eq
  owner h' := absurd h' Bool.false_ne_true

/-- A concatenation is one-dimensional, with its count as its extent. -/
theorem dims_append {a : ItemArray} (b : ItemArray) (hrank : a.dims.length = 1) :
    (a.append b).dims = [(a.append b).count] := by
  obtain ⟨d, hd⟩ := List.length_eq_one_iff.1 hrank
  simp [append, hd, count]

theorem LaidOut.append {a b : ItemArray} (ha : a.LaidOut) (hb : b.LaidOut)
    (hrank : a.dims.length = 1) (hsize : b.itemSize = a.itemSize) : (a.append b).LaidOut where
  length_item item hm := by
    rcases List.mem_append.1 hm with hm | hm
    · exact ha.length_item item hm
    · exact (hb.length_item item hm).trans hsize
  count_eq := by
    rw [dims_append b hrank, List.prod_singleton]
  owner h := by
    rw [dims_append b hrank]
    exact ⟨rfl, (ha.owner h).2⟩

theorem mem_gather {a : ItemArray} {dim : Nat} {ps : List Nat} {item : List UInt8}
    (h : item ∈ a.gather dim ps) : item ∈ a.items := by
  simp only [gather, List.mem_flatMap] at h
  obtain ⟨r, -, p, -, hm⟩ := h
  exact List.mem_of_mem_drop (List.mem_of_mem_take hm)

/-- A chunk of `width` runs is the runs at its `width` positions, one after another. -/
theorem take_mul_eq_flatMap {α : Type} (l : List α) (run : Nat) :
    ∀ width, l.take (run * width) = (List.range width).flatMap fun i => (l.drop (i * run)).take run
  | 0 => by simp
  | width + 1 => by
    rw [Nat.mul_succ, List.take_add, take_mul_eq_flatMap l run width, List.range_succ,
      List.flatMap_append, List.flatMap_singleton, Nat.mul_comm run width]

/-- A step of one selects the positions from its start on, one after another. -/
theorem indices_toNat_of_step_one {s : Selection} (hstep : s.step = 1) (hstart : 0 ≤ s.start) :
    s.indices.map Int.toNat = (List.range s.width).map (s.start.toNat + ·) := by
  simp only [Selection.indices, List.map_map]
  refine List.map_congr_left fun i _ => ?_
  simp only [Function.comp_apply, hstep]
  omega

/-- Copying each row as one chunk, as a step-one selection does, copies the runs of the selected
positions. -/
theorem chunks_eq_gather (a : ItemArray) (dim : Nat) {s : Selection} (hstep : s.step = 1)
    (hs : ∀ x ∈ s.indices, 0 ≤ x) :
    a.chunks dim s.start.toNat s.width = a.gather dim (s.indices.map Int.toNat) := by
  rcases Nat.eq_zero_or_pos s.width with hw | hw
  · -- no positions: every row contributes nothing either way
    simp [chunks, gather, Selection.indices, hw]
  · have hstart : 0 ≤ s.start := hs _ (List.mem_map.2 ⟨0, List.mem_range.2 hw, by simp⟩)
    unfold chunks gather
    dsimp only
    rw [indices_toNat_of_step_one hstep hstart]
    refine List.flatMap_congr fun r _ => ?_
    rw [take_mul_eq_flatMap, List.flatMap_map]
    refine List.flatMap_congr fun i _ => ?_
    rw [List.drop_drop]
    congr 2
    ring

/-- Whichever way a slice copies the rows, it holds the runs of the selected positions. -/
theorem sliceItems_eq_gather (a : ItemArray) (dim : Nat) {s : Selection}
    (hs : ∀ x ∈ s.indices, 0 ≤ x) :
    a.sliceItems dim s = a.gather dim (s.indices.map Int.toNat) := by
  unfold sliceItems
  split
  · next hstep => exact a.chunks_eq_gather dim hstep hs
  · rfl

/-- The items are `(a.dims.take dim).prod` rows of `a.run dim * a.dims[dim]` items each. -/
theorem LaidOut.count_eq_rows {a : ItemArray} (h : a.LaidOut) {dim : Nat}
    (hdim : dim < a.dims.length) : a.count = (a.dims.take dim).prod * (a.run dim * a.dims[dim]) := by
  rw [h.count_eq, prod_eq_take_mul _ hdim, ← run_eq, Nat.mul_comm (a.run dim), Nat.mul_assoc]

/-- Gathering positions of a dimension takes, from every row, the run at each position. -/
theorem LaidOut.gather_eq {a : ItemArray} (h : a.LaidOut) {dim : Nat} (hdim : dim < a.dims.length)
    (hrow : 0 < a.run dim * a.dims[dim]) (ps : List Nat) :
    a.gather dim ps = (List.range (a.dims.take dim).prod).flatMap fun r =>
      ps.flatMap fun p =>
        (a.items.drop (r * (a.run dim * a.dims[dim]) + p * a.run dim)).take (a.run dim) := by
  have hget : a.dims.getD dim 0 = a.dims[dim] := by
    simp [List.getD_eq_getElem?_getD, hdim]
  unfold gather
  dsimp only
  rw [hget, h.count_eq_rows hdim, Nat.mul_div_cancel _ hrow]

/-- The run at a position of a row lies inside the items. -/
theorem LaidOut.length_run {a : ItemArray} (h : a.LaidOut) {dim : Nat} (hdim : dim < a.dims.length)
    {r p : Nat} (hr : r < (a.dims.take dim).prod) (hp : p < a.dims[dim]) :
    ((a.items.drop (r * (a.run dim * a.dims[dim]) + p * a.run dim)).take (a.run dim)).length =
      a.run dim := by
  have h₁ : p * a.run dim + a.run dim ≤ a.run dim * a.dims[dim] := by
    rw [← Nat.succ_mul, Nat.mul_comm (a.run dim)]
    exact Nat.mul_le_mul_right _ hp
  have h₂ : (r + 1) * (a.run dim * a.dims[dim]) ≤ a.count := by
    rw [h.count_eq_rows hdim]
    exact Nat.mul_le_mul_right _ hr
  rw [Nat.succ_mul] at h₂
  rw [List.length_take, List.length_drop]
  simp only [count] at h₂
  omega

/-- Gathering positions inside a dimension takes one run per position from every row. -/
theorem LaidOut.length_gather {a : ItemArray} (h : a.LaidOut) {dim : Nat}
    (hdim : dim < a.dims.length) {ps : List Nat} (hps : ∀ p ∈ ps, p < a.dims[dim])
    (hrow : 0 < a.run dim * a.dims[dim]) :
    (a.gather dim ps).length = (a.dims.take dim).prod * ps.length * a.run dim := by
  rw [h.gather_eq hdim hrow, length_flatMap_of_length fun r hr => length_flatMap_of_length
    fun p hp => h.length_run hdim (List.mem_range.1 hr) (hps p hp), List.length_range, Nat.mul_assoc]

/-- Selected positions inside an extent, as indices. -/
theorem toNat_lt_of_indices {s : Selection} {e : Nat} (hs : ∀ x ∈ s.indices, 0 ≤ x ∧ x < e) :
    ∀ p ∈ s.indices.map Int.toNat, p < e := by
  intro p hp
  obtain ⟨x, hx, rfl⟩ := List.mem_map.1 hp
  have := hs x hx
  omega

/-- A slice along an existing dimension at positions inside it is laid out. -/
theorem LaidOut.slice {a : ItemArray} (h : a.LaidOut) {dim : Nat} (hdim : dim < a.dims.length)
    {s : Selection} (hs : ∀ x ∈ s.indices, 0 ≤ x ∧ x < a.dims[dim]) : (a.slice dim s).LaidOut := by
  unfold ItemArray.slice
  dsimp only
  split
  · exact laidOut_new _ _
  · next hne =>
    have hprod : (a.dims.set dim s.width).prod = (a.dims.take dim).prod * s.width * a.run dim := by
      rw [List.prod_set, if_pos hdim, run_eq]
    rw [count_new, ← List.prod_eq_foldr, hprod] at hne
    have hps := toNat_lt_of_indices hs
    have hlen : (s.indices.map Int.toNat).length = s.width := by simp
    -- a nonzero count makes the run and the extent positive
    have hrun : 0 < a.run dim := Nat.pos_of_ne_zero fun h0 => hne (by rw [h0, Nat.mul_zero])
    have hext : 0 < a.dims[dim] := by
      have hw : 0 < (s.indices.map Int.toNat).length := by
        rw [hlen]
        exact Nat.pos_of_ne_zero fun h0 => hne (by rw [h0, Nat.mul_zero, Nat.zero_mul])
      obtain ⟨p, hp⟩ := List.exists_mem_of_length_pos hw
      exact Nat.lt_of_le_of_lt (Nat.zero_le p) (hps p hp)
    rw [sliceItems_eq_gather a dim fun x hx => (hs x hx).1]
    refine ⟨fun item hm => h.length_item _ (mem_gather hm), ?_,
      fun h' => absurd h' Bool.false_ne_true⟩
    show (a.gather dim _).length = (a.dims.set dim s.width).prod
    rw [h.length_gather hdim hps (Nat.mul_pos hrun hext), hlen, hprod]

/-- A projection at a position inside an existing dimension is laid out. -/
theorem LaidOut.project {a : ItemArray} (h : a.LaidOut) {dim index : Nat}
    (hdim : dim < a.dims.length) (hidx : index < a.dims[dim]) : (a.project dim index).LaidOut := by
  unfold ItemArray.project
  dsimp only
  split
  · exact laidOut_new _ _
  · next hne =>
    have hprod : (a.dims.eraseIdx dim).prod = (a.dims.take dim).prod * a.run dim := by
      rw [List.eraseIdx_eq_take_drop_succ, List.prod_append, run_eq]
    rw [count_new, ← List.prod_eq_foldr, hprod] at hne
    have hrun : 0 < a.run dim := Nat.pos_of_ne_zero fun h0 => hne (by rw [h0, Nat.mul_zero])
    have hps : ∀ p ∈ [index], p < a.dims[dim] := by
      intro p hp
      rw [List.mem_singleton.1 hp]
      exact hidx
    refine ⟨fun item hm => h.length_item _ (mem_gather hm), ?_,
      fun h' => absurd h' Bool.false_ne_true⟩
    show (a.gather dim [index]).length = (a.dims.eraseIdx dim).prod
    rw [h.length_gather hdim hps (Nat.mul_pos hrun (Nat.lt_of_le_of_lt (Nat.zero_le _) hidx)),
      hprod,
      List.length_singleton, Nat.mul_one]

/-- An array of freshly allocated qubits is a one-dimensional array of words. -/
theorem laidOut_qubits {n : Nat} {qs : List Qubit} (hlen : qs.length = n) :
    ({ new Word.size [n] with
        items := qs.map fun q => Word.encode q.index, ownsQubits := true } :
      ItemArray).LaidOut where
  length_item item hm := by
    obtain ⟨q, -, rfl⟩ := List.mem_map.1 hm
    exact Word.length_encode _
  count_eq := by simp [ItemArray.count, new, hlen]
  owner _ := ⟨rfl, rfl⟩

/-- A fresh one-dimensional word array filled with words is laid out. -/
theorem laidOut_words {words : List (List UInt8)} (hw : ∀ w ∈ words, w.length = Word.size) :
    ({ new Word.size [words.length] with items := words } : ItemArray).LaidOut where
  length_item := hw
  count_eq := by simp [ItemArray.count, new]
  owner h := absurd h Bool.false_ne_true

/-- Giving its qubits up keeps an array laid out. -/
theorem LaidOut.disown {a : ItemArray} (h : a.LaidOut) :
    { a with ownsQubits := false }.LaidOut where
  length_item := h.length_item
  count_eq := h.count_eq
  owner h' := absurd h' Bool.false_ne_true

theorem checkDim_ok {a : ItemArray} {dim : Nat} {u : Unit} (h : a.checkDim dim = .ok u) :
    dim < a.dims.length := by
  unfold checkDim at h
  split at h
  · cases h
  · omega

end ItemArray

namespace Obj

/-- An object is laid out when it is a laid-out array, or not an array at all. -/
def LaidOut : Obj → Prop
  | array a => a.LaidOut
  | tuple _ => True
  | callable _ => True

theorem LaidOut.withCounts {o : Obj} (h : o.LaidOut) (n : Counts) : (o.withCounts n).LaidOut := by
  cases o with
  | array a =>
    have h : a.LaidOut := h
    exact ⟨h.length_item, h.count_eq, h.owner⟩
  | tuple _ => trivial
  | callable _ => trivial

end Obj

namespace Machine

/-! ### Every stored array is laid out -/

/-- Every stored array is laid out, and every stored id was issued before the next one. -/
structure ArraysLaidOut (m : Machine) : Prop where
  below : ∀ p ∈ m.objects, p.1 < m.nextId
  laid : ∀ p ∈ m.objects, p.2.LaidOut

namespace ArraysLaidOut

variable {m m' : Machine}

theorem object? (h : ArraysLaidOut m) {k : ObjectKey} {o : Obj} (hk : m.object? k = some o) :
    o.LaidOut :=
  h.laid _ (mem_of_lookup (object?_eq_some.1 hk).1)

theorem lookup_nextId (h : ArraysLaidOut m) : m.objects.lookup m.nextId = none := by
  cases hl : m.objects.lookup m.nextId with
  | none => rfl
  | some o => exact absurd (h.below _ (mem_of_lookup hl)) (Nat.lt_irrefl _)

/-- A store whose entries are old entries, or old ids with laid-out objects, keeps the arrays
laid out. -/
theorem of_entries (h : ArraysLaidOut m) (hn : m.nextId ≤ m'.nextId)
    (hm : ∀ p ∈ m'.objects, p ∈ m.objects ∨ p.2.LaidOut ∧ ∃ u, (p.1, u) ∈ m.objects) :
    ArraysLaidOut m' where
  below p hp := by
    rcases hm p hp with hp | ⟨-, u, hu⟩
    · exact Nat.lt_of_lt_of_le (h.below p hp) hn
    · exact Nat.lt_of_lt_of_le (h.below (p.1, u) hu) hn
  laid p hp := by
    rcases hm p hp with hp | ⟨ho, -⟩
    · exact h.laid p hp
    · exact ho

theorem of_objects (h : ArraysLaidOut m) (ho : m'.objects = m.objects) (hn : m.nextId ≤ m'.nextId) :
    ArraysLaidOut m' :=
  h.of_entries hn fun _ hp => .inl (ho ▸ hp)

theorem of_store (h : ArraysLaidOut m) (hs : store m' = store m) : ArraysLaidOut m' :=
  h.of_objects (congrArg (·.2.2) hs) (congrArg (·.2.1) hs).ge

theorem setObject (h : ArraysLaidOut m) {id : Nat} {o : Obj} (ho : o.LaidOut) {u : Unit}
    (hx : Machine.setObject id o m = .ok u m') : ArraysLaidOut m' := by
  rw [setObject_eq] at hx
  cases hx
  refine h.of_entries le_rfl ?_
  rintro ⟨i, w⟩ hp
  rcases mem_map_update hp with ⟨-, rfl, u, hu⟩ | ⟨-, hu⟩
  · exact .inr ⟨ho, u, hu⟩
  · exact .inl hu

/-- A change of reference counts that destroys nothing keeps the arrays laid out. -/
theorem of_recount (h : ArraysLaidOut m) {k : ObjectKey} (hr : Recount k m m') :
    ArraysLaidOut m' := by
  rcases hr.objects with ho | ⟨o, n, hk, ho⟩
  · exact h.of_objects ho hr.nextId.ge
  · refine h.of_entries hr.nextId.ge ?_
    rintro ⟨i, w⟩ hp
    rw [ho] at hp
    rcases mem_map_update hp with ⟨-, rfl, u, hu⟩ | ⟨-, hu⟩
    · exact .inr ⟨(h.object? hk).withCounts n, u, hu⟩
    · exact .inl hu

end ArraysLaidOut

theorem laidOut_new (backend : Backend) (track : Bool) :
    ArraysLaidOut (Machine.new backend track) where
  below _ hp := absurd hp List.not_mem_nil
  laid _ hp := absurd hp List.not_mem_nil

/-- Run from a machine whose arrays are laid out and that satisfies `P`, a request leaves the
arrays laid out, whether it succeeds or fails; when it succeeds, its value and the machine
satisfy `Q`. -/
def Lays {α : Type} (P : Machine → Prop) (x : Exec α) (Q : α → Machine → Prop) : Prop :=
  ∀ m, ArraysLaidOut m → P m → match x m with
    | .ok a m' => ArraysLaidOut m' ∧ Q a m'
    | .error _ m' => ArraysLaidOut m'

/-! ### Structural rules -/

section Rules

variable {α β : Type} {P : Machine → Prop}

theorem Lays.throw {Q : α → Machine → Prop} (e : MachineError) : Lays P (throw e : Exec α) Q :=
  fun _ h _ => h

theorem Lays.throw_bind {f : α → Exec β} {Q : β → Machine → Prop} (e : MachineError) :
    Lays P (MonadExcept.throw e >>= f) Q :=
  fun _ h _ => h

theorem Lays.bind {x : Exec α} {f : α → Exec β} {R : α → Machine → Prop} {Q : β → Machine → Prop}
    (hx : Lays P x R) (hf : ∀ a, Lays (R a) (f a) Q) : Lays P (x >>= f) Q := by
  intro m h hp
  have h₁ := hx m h hp
  rw [run_bind]
  cases hxm : x m with
  | ok a s =>
    rw [hxm] at h₁
    exact hf a s h₁.1 h₁.2
  | error e s =>
    rw [hxm] at h₁
    exact h₁

/-- The rule of consequence: a stronger precondition and a weaker postcondition. -/
theorem Lays.mono {x : Exec α} {Q Q' : α → Machine → Prop} {P' : Machine → Prop}
    (h : Lays P x Q) (hP : ∀ m, P' m → P m) (hQ : ∀ a m, Q a m → Q' a m) : Lays P' x Q' := by
  intro m hm hp
  have hx := h m hm (hP m hp)
  split at hx
  · next a m' hxm => exact ⟨hx.1, hQ a m' hx.2⟩
  · next e m' hxm => exact hx

theorem Lays.forget {x : Exec α} {Q : α → Machine → Prop} (h : Lays P x Q) :
    Lays P x fun _ _ => True :=
  h.mono (fun _ h => h) fun _ _ _ => trivial

theorem Lays.of_true {x : Exec α} {Q : α → Machine → Prop} (h : Lays (fun _ => True) x Q) :
    Lays P x Q :=
  h.mono (fun _ _ => trivial) fun _ _ h => h

/-- A fact the precondition implies may be used to choose how to prove the request. -/
theorem Lays.given {c : Prop} {x : Exec α} {Q : α → Machine → Prop} (hc : ∀ m, P m → c)
    (h : c → Lays P x Q) : Lays P x Q :=
  fun m hm hp => h (hc m hp) m hm hp

theorem Lays.get : Lays P (get : Exec Machine) fun a m => P m ∧ a = m :=
  fun _ h hp => ⟨h, hp, rfl⟩

/-- A returned value satisfies what the precondition gives it. -/
theorem Lays.pure_of {a : α} {Q : α → Machine → Prop} (h : ∀ m, P m → Q a m) :
    Lays P (Pure.pure a : Exec α) Q :=
  fun m hm hp => ⟨hm, h m hp⟩

theorem Lays.ret (a : α) : Lays P (Pure.pure a : Exec α) fun _ _ => True :=
  Lays.pure_of fun _ _ => trivial

theorem Lays.check (e : Except MachineError α) : Lays P (check e) fun a m => P m ∧ e = .ok a := by
  cases e with
  | error e => exact Lays.throw e
  | ok a => exact Lays.pure_of fun _ hp => ⟨hp, rfl⟩

theorem Lays.ite {c : Prop} [Decidable c] {x y : Exec α} {Q : α → Machine → Prop}
    (hx : c → Lays P x Q) (hy : ¬c → Lays P y Q) : Lays P (if c then x else y) Q := by
  split
  · next h => exact hx h
  · next h => exact hy h

theorem Lays.attempt {x : Exec α} {Q : α → Machine → Prop} (h : Lays P x Q) :
    Lays P (attempt x) fun _ _ => True := by
  intro m hm hp
  have hx := h m hm hp
  unfold Machine.attempt
  cases hxm : x m with
  | ok a s =>
    rw [hxm] at hx
    exact ⟨hx.1, trivial⟩
  | error e s =>
    rw [hxm] at hx
    exact ⟨hx, trivial⟩

theorem Lays.map {x : Exec α} {Q : α → Machine → Prop} (f : α → β) (h : Lays P x Q) :
    Lays P (f <$> x) fun _ _ => True := by
  intro m hm hp
  have hx := h m hm hp
  rw [run_map]
  cases hxm : x m with
  | ok a s =>
    rw [hxm] at hx
    exact ⟨hx.1, trivial⟩
  | error e s =>
    rw [hxm] at hx
    exact hx

/-- A request that leaves the store alone keeps the arrays laid out. -/
theorem Lays.of_frames {x : Exec α} (hf : Frames x) : Lays P x fun _ _ => True := by
  intro m h _
  have hs := hf m
  cases hxm : x m with
  | ok a s =>
    rw [hxm] at hs
    exact ⟨h.of_store hs, trivial⟩
  | error e s =>
    rw [hxm] at hs
    exact h.of_store hs

/-- Run from a machine whose arrays are laid out, a request leaves them laid out, whichever way
it ends. -/
theorem Lays.laidOut_final {x : Exec α} {Q : α → Machine → Prop} (hx : Lays (fun _ => True) x Q)
    {m : Machine} (h : ArraysLaidOut m) : ArraysLaidOut (final (x m)) := by
  have hr := hx m h trivial
  cases hxm : x m with
  | ok a s =>
    rw [hxm] at hr
    exact hr.1
  | error e s =>
    rw [hxm] at hr
    exact hr

end Rules

/-! ### The store primitives as requests -/

section Specs

variable {P : Machine → Prop}

theorem Lays.getObject (k : ObjectKey) :
    Lays P (getObject k) fun o m => P m ∧ m.object? k = some o ∧ o.LaidOut := by
  intro m h hp
  rw [getObject_eq]
  cases hk : m.object? k with
  | none => exact h
  | some o => exact ⟨h, hp, hk, h.object? hk⟩

theorem Lays.getArray (id : Nat) :
    Lays P (getArray id) fun a m => P m ∧ m.object? ⟨.array, id⟩ = some (.array a) ∧ a.LaidOut := by
  unfold Machine.getArray
  refine Lays.bind (Lays.getObject _) fun o => ?_
  cases o with
  | array a => exact Lays.pure_of fun _ hp => hp
  | tuple _ => exact Lays.throw _
  | callable _ => exact Lays.throw _

theorem Lays.getTuple (id : Nat) : Lays P (getTuple id) fun _ m => P m := by
  unfold Machine.getTuple
  refine Lays.bind (Lays.getObject _) fun o => ?_
  cases o with
  | tuple _ => exact Lays.pure_of fun _ hp => hp.1
  | array _ => exact Lays.throw _
  | callable _ => exact Lays.throw _

theorem Lays.getCallable (id : Nat) : Lays P (getCallable id) fun _ m => P m := by
  unfold Machine.getCallable
  refine Lays.bind (Lays.getObject _) fun o => ?_
  cases o with
  | callable _ => exact Lays.pure_of fun _ hp => hp.1
  | array _ => exact Lays.throw _
  | tuple _ => exact Lays.throw _

theorem Lays.tupleData (id : Nat) : Lays P (tupleData id) fun _ m => P m :=
  Lays.bind (Lays.getTuple id) fun _ => Lays.pure_of fun _ hp => hp

theorem Lays.tupleReadHandle (id offset : Nat) :
    Lays P (tupleReadHandle id offset) fun _ m => P m :=
  Lays.bind (Lays.getTuple id) fun _ => (Lays.check _).mono (fun _ h => h) fun _ _ h => h.1

/-- Storing a laid-out object keeps the arrays laid out, and the new id holds the object. -/
theorem Lays.insert {o : Obj} (ho : o.LaidOut) :
    Lays P (Machine.insert o) fun id m => m.object? ⟨o.kind, id⟩ = some o := by
  intro m h _
  have hs := insert_spec o m
  have hfresh := h.lookup_nextId
  cases hx : Machine.insert o m with
  | ok id m' =>
    rw [hx] at hs
    obtain ⟨rfl, hobj, hn, -, -⟩ := hs
    refine ⟨⟨fun p hp => ?_, fun p hp => ?_⟩, ?_⟩
    · rw [hobj, List.mem_append, List.mem_singleton] at hp
      rw [hn]
      rcases hp with hp | rfl
      · exact Nat.lt_succ_of_lt (h.below p hp)
      · exact Nat.lt_succ_self _
    · rw [hobj, List.mem_append, List.mem_singleton] at hp
      rcases hp with hp | rfl
      · exact h.laid p hp
      · exact ho
    · show m'.object? ⟨o.kind, m.nextId⟩ = some o
      rw [object?_eq_some, hobj, List.lookup_append, hfresh]
      simp
  | error e m' =>
    rw [hx] at hs
    exact h.of_objects hs.1 (by omega)

theorem Lays.insertArray {a : ItemArray} (ha : a.LaidOut) :
    Lays P (insertArray a) fun id m => m.object? ⟨.array, id⟩ = some (.array a) :=
  Lays.insert ha

theorem Lays.setObject {id : Nat} {o : Obj} (ho : o.LaidOut) :
    Lays P (Machine.setObject id o) fun _ _ => True := by
  intro m h _
  have hx : Machine.setObject id o m = .ok () (final (Machine.setObject id o m)) := rfl
  rw [hx]
  exact ⟨h.setObject ho hx, trivial⟩

theorem Lays.updateRefs (k : ObjectKey) (increment : Int) :
    Lays P (updateRefs k increment) fun _ _ => True := by
  intro m h _
  have hs := updateRefs_spec k increment m
  cases hx : Machine.updateRefs k increment m with
  | ok r m' =>
    rw [hx] at hs
    cases r with
    | some o =>
      -- a destroyed object leaves the store
      refine ⟨h.of_entries hs.2.2.2.1.ge fun p hp => ?_, trivial⟩
      rw [hs.2.1] at hp
      exact .inl (List.mem_of_mem_filter hp)
    | none => exact ⟨h.of_recount hs, trivial⟩
  | error e m' =>
    rw [hx] at hs
    exact h.of_recount hs

theorem Lays.updateAliases (k : ObjectKey) (increment : Int) :
    Lays P (updateAliases k increment) fun _ _ => True := by
  unfold Machine.updateAliases
  refine Lays.bind (Lays.getObject k) fun o => ?_
  dsimp only
  refine Lays.ite (fun _ => Lays.throw_bind _) fun _ => ?_
  exact Lays.given (fun _ h => h.2.2) fun ho => Lays.setObject (ho.withCounts _)

end Specs

/-! ### Requests on arrays -/

section Arrays

variable {P : Machine → Prop}

theorem Lays.arrayUpdateRefs (id : Option Nat) (increment : Int) :
    Lays P (arrayUpdateRefs id increment) fun _ _ => True := by
  unfold Machine.arrayUpdateRefs
  cases id with
  | none => exact Lays.ret _
  | some id =>
    refine Lays.bind (Lays.updateRefs _ _) fun r => ?_
    -- a destroyed array gives its qubits back to the backend, which leaves the store alone
    rcases r with _ | (a | _ | _)
    · exact Lays.ret _
    · exact Lays.ite (fun _ => Lays.of_frames (Frames.releaseQubitsOf a)) fun _ => Lays.ret _
    · exact Lays.ret _
    · exact Lays.ret _

theorem Lays.arrayUpdateAliases (id : Option Nat) (increment : Int) :
    Lays P (arrayUpdateAliases id increment) fun _ _ => True := by
  unfold Machine.arrayUpdateAliases
  cases id with
  | none => exact Lays.ret _
  | some id => exact Lays.updateAliases _ _

/-- A new array is zeroed in its shape, under the id the request returns. -/
theorem Lays.arrayCreate (itemSize : Nat) (dims : List Nat) :
    Lays P (arrayCreate itemSize dims) fun id m =>
      m.object? ⟨.array, id⟩ = some (.array (ItemArray.new itemSize dims)) := by
  unfold Machine.arrayCreate
  dsimp only
  refine Lays.ite (fun _ => Lays.throw_bind _) fun _ => ?_
  refine Lays.ite (fun _ => Lays.throw_bind _) fun _ => ?_
  exact Lays.bind (Lays.of_frames (Frames.checkBuffer _ _)) fun _ =>
    Lays.insertArray (ItemArray.laidOut_new _ _)

theorem Lays.arrayCopy (id : Nat) (force : Bool) : Lays P (arrayCopy id force) fun _ _ => True := by
  unfold Machine.arrayCopy
  refine Lays.bind (Lays.getArray id) fun a => ?_
  dsimp only
  refine Lays.ite (fun _ => Lays.bind (Lays.arrayUpdateRefs _ _) fun _ => Lays.ret _) fun _ => ?_
  refine Lays.ite (fun _ => Lays.throw_bind _) fun _ => ?_
  exact Lays.given (fun _ h => h.2.2) fun ha => (Lays.insertArray ha.copy).forget

/-- A concatenation is stored as a one-dimensional array whose extent is its count. -/
theorem Lays.arrayConcat (head tail : Nat) :
    Lays P (arrayConcat head tail) fun id m =>
      ∃ a, m.object? ⟨.array, id⟩ = some (.array a) ∧ a.dims = [a.count] := by
  unfold Machine.arrayConcat
  refine Lays.bind (Lays.getArray head) fun a => ?_
  refine Lays.bind (Lays.getArray tail) fun b => ?_
  dsimp only
  refine Lays.ite (fun _ => Lays.throw_bind _) fun hrank => ?_
  refine Lays.ite (fun _ => Lays.throw_bind _) fun hsize => ?_
  have hrank' : a.dims.length = 1 := by
    simp only [Bool.or_eq_true, decide_eq_true_eq, not_or, Decidable.not_not] at hrank
    exact hrank.1
  refine Lays.given (fun _ h => And.intro h.1.2.2 h.2.2) fun hab => ?_
  have hc := hab.1.copy.append hab.2 hrank' (Decidable.not_not.1 hsize).symm
  exact (Lays.insertArray hc).mono (fun _ _ => trivial) fun _ _ hk =>
    ⟨_, hk, ItemArray.dims_append _ hrank'⟩

/-- The positions a checked range selects along an existing dimension lie inside it. -/
theorem slice_positions {a : ItemArray} {dim : Nat} {r : Range} {s : Selection} {u : Unit}
    (hdim : a.checkDim dim = .ok u)
    (hs : (r.select (Int.ofNat (a.dims.getD dim 0)).toInt64.toInt).mapError MachineError.range =
      .ok s) :
    ∃ hd : dim < a.dims.length, ∀ x ∈ s.indices, 0 ≤ x ∧ x < a.dims[dim] := by
  have hd := ItemArray.checkDim_ok hdim
  have hget : a.dims.getD dim 0 = a.dims[dim] := by
    simp [List.getD_eq_getElem?_getD, hd]
  have hsel : r.select (Int.ofNat (a.dims.getD dim 0)).toInt64.toInt = .ok s := by
    cases he : r.select (Int.ofNat (a.dims.getD dim 0)).toInt64.toInt with
    | error e =>
      rw [he] at hs
      cases hs
    | ok s' =>
      rw [he] at hs
      cases hs
      rfl
  refine ⟨hd, fun x hx => ?_⟩
  have hin := Range.select_indices hsel x hx
  have hle := toInt_toInt64_le (a.dims.getD dim 0)
  rw [hget] at hin hle
  omega

theorem Lays.arraySlice (id dim : Nat) (r : Range) :
    Lays P (arraySlice id dim r) fun _ _ => True := by
  unfold Machine.arraySlice
  refine Lays.bind (Lays.getArray id) fun a => ?_
  refine Lays.bind (Lays.check _) fun _ => ?_
  refine Lays.bind (Lays.check _) fun s => ?_
  refine Lays.given (fun _ h => And.intro h.1.1.2.2 (And.intro h.1.2 h.2)) fun hfacts => ?_
  obtain ⟨ha, hdim, hs⟩ := hfacts
  obtain ⟨hd, hpos⟩ := slice_positions hdim hs
  exact Lays.ite (fun _ => (Lays.insertArray ha.copy).forget) fun _ =>
    (Lays.insertArray (ha.slice hd hpos)).forget

theorem Lays.arrayProject (id dim index : Nat) :
    Lays P (arrayProject id dim index) fun _ _ => True := by
  unfold Machine.arrayProject
  refine Lays.bind (Lays.getArray id) fun a => ?_
  dsimp only
  refine Lays.ite (fun _ => Lays.throw_bind _) fun _ => ?_
  refine Lays.bind (Lays.check _) fun _ => ?_
  refine Lays.ite (fun _ => Lays.throw_bind _) fun hidx => ?_
  refine Lays.given (fun _ h => And.intro h.1.2.2 h.2) fun hfacts => ?_
  obtain ⟨ha, hdim⟩ := hfacts
  have hd := ItemArray.checkDim_ok hdim
  have hidx' : index < a.dims[dim] := by
    simp only [List.getD_eq_getElem?_getD, List.getElem?_eq_getElem hd, Option.getD_some] at hidx
    omega
  exact (Lays.insertArray (ha.project hd hidx')).forget

theorem Lays.arraySetElement (id index : Nat) (bytes : List UInt8) :
    Lays P (arraySetElement id index bytes) fun _ _ => True := by
  unfold Machine.arraySetElement
  refine Lays.bind (Lays.getArray id) fun a => ?_
  refine Lays.bind (Lays.check _) fun _ => ?_
  exact Lays.given (fun _ h => h.1.2.2) fun ha => Lays.setObject (ha.writeItem _ _)

theorem Lays.arrayWriteHandle (id index handle : Nat) :
    Lays P (arrayWriteHandle id index handle) fun _ _ => True := by
  unfold Machine.arrayWriteHandle
  refine Lays.bind (Lays.getArray id) fun a => ?_
  refine Lays.bind (Lays.check _) fun _ => ?_
  dsimp only
  refine Lays.ite (fun _ => Lays.throw_bind _) fun _ => ?_
  exact Lays.given (fun _ h => h.1.2.2) fun ha => Lays.setObject (ha.writeItem _ _)

/-- Allocating qubits one per position gives as many qubits as positions. -/
theorem Lays.allocateQubits (count : Nat) :
    Lays P ((List.range count).mapM fun _ => onBackend fun b => b.allocateQubit)
      fun qs _ => qs.length = count := by
  intro m h _
  obtain ⟨b, -, hr⟩ := mapM_allocateQubit (List.range count) m
  cases hx : (List.range count).mapM (fun _ => onBackend fun b => b.allocateQubit) m with
  | ok qs m' =>
    rw [hx] at hr
    obtain ⟨rfl, hlen⟩ := hr
    exact ⟨h.of_objects rfl le_rfl, show qs.length = count by rw [hlen, List.length_range]⟩
  | error e m' =>
    rw [hx] at hr
    subst hr
    exact h.of_objects rfl le_rfl

theorem Lays.qubitAllocateArray (count : Nat) :
    Lays P (qubitAllocateArray count) fun _ _ => True := by
  unfold Machine.qubitAllocateArray
  refine Lays.bind (Lays.of_frames (Frames.checkBuffer _ _)) fun _ => ?_
  refine Lays.bind (Lays.allocateQubits count) fun qs => ?_
  exact Lays.given (fun _ h => h) fun hlen =>
    (Lays.insertArray (ItemArray.laidOut_qubits hlen)).forget

theorem Lays.qubitReleaseArray (id : Nat) : Lays P (qubitReleaseArray id) fun _ _ => True := by
  unfold Machine.qubitReleaseArray
  refine Lays.bind (Lays.getArray id) fun a => ?_
  dsimp only
  refine Lays.ite (fun _ => Lays.throw_bind _) fun _ => ?_
  refine Lays.given (fun _ h => h.2.2) fun ha => ?_
  refine Lays.bind (Lays.setObject ha.disown) fun _ => ?_
  exact Lays.bind (Lays.of_frames (Frames.releaseQubitsOf a)) fun _ => Lays.arrayUpdateRefs _ _

end Arrays

/-! ### Requests on tuples and callables -/

section Tuples

variable {P : Machine → Prop}

theorem Lays.tupleUpdateRefs (id : Option Nat) (increment : Int) :
    Lays P (tupleUpdateRefs id increment) fun _ _ => True := by
  unfold Machine.tupleUpdateRefs
  cases id with
  | none => exact Lays.ret _
  | some id => exact Lays.bind (Lays.updateRefs _ _) fun _ => Lays.ret _

theorem Lays.tupleUpdateAliases (id : Option Nat) (increment : Int) :
    Lays P (tupleUpdateAliases id increment) fun _ _ => True := by
  unfold Machine.tupleUpdateAliases
  cases id with
  | none => exact Lays.ret _
  | some id => exact Lays.updateAliases _ _

theorem Lays.callableUpdateRefs (id : Option Nat) (increment : Int) :
    Lays P (callableUpdateRefs id increment) fun _ _ => True := by
  unfold Machine.callableUpdateRefs
  cases id with
  | none => exact Lays.ret _
  | some id => exact Lays.bind (Lays.updateRefs _ _) fun _ => Lays.ret _

theorem Lays.callableUpdateAliases (id : Option Nat) (increment : Int) :
    Lays P (callableUpdateAliases id increment) fun _ _ => True := by
  unfold Machine.callableUpdateAliases
  cases id with
  | none => exact Lays.ret _
  | some id => exact Lays.updateAliases _ _

theorem Lays.tupleCreate (size : Nat) : Lays P (tupleCreate size) fun _ _ => True :=
  (Lays.insert (by trivial)).forget

theorem Lays.tupleCopy (id : Nat) (force : Bool) : Lays P (tupleCopy id force) fun _ _ => True := by
  unfold Machine.tupleCopy
  refine Lays.bind (Lays.getTuple id) fun t => ?_
  exact Lays.ite (fun _ => Lays.bind (Lays.tupleUpdateRefs _ _) fun _ => Lays.ret _)
    fun _ => (Lays.insert (by trivial)).forget

theorem Lays.tupleWrite (id offset : Nat) (bytes : List UInt8) :
    Lays P (tupleWrite id offset bytes) fun _ _ => True := by
  unfold Machine.tupleWrite
  exact Lays.bind (Lays.getTuple id) fun _ => Lays.setObject (by trivial)

theorem Lays.tupleWriteHandle (id offset handle : Nat) :
    Lays P (tupleWriteHandle id offset handle) fun _ _ => True := by
  unfold Machine.tupleWriteHandle
  refine Lays.bind (Lays.getTuple id) fun t => ?_
  exact Lays.bind (Lays.check _) fun _ => Lays.setObject (by trivial)

theorem Lays.callableCreate (table : FunctionTable Routine)
    (hooks : Option (Option Hook × Option Hook)) (capture : Option Nat) :
    Lays P (callableCreate table hooks capture) fun _ _ => True := by
  unfold Machine.callableCreate
  dsimp only
  exact Lays.ite (fun _ => Lays.throw_bind _) fun _ => (Lays.insert (by trivial)).forget

theorem Lays.callableCopy (id : Nat) (force : Bool) :
    Lays P (callableCopy id force) fun _ _ => True := by
  unfold Machine.callableCopy
  refine Lays.bind (Lays.getCallable id) fun c => ?_
  exact Lays.ite (fun _ => Lays.bind (Lays.callableUpdateRefs _ _) fun _ => Lays.ret _)
    fun _ => (Lays.insert (by trivial)).forget

theorem Lays.applyFunctor (f : Callable → Callable × Except MachineError Unit) (id : Nat) :
    Lays P (applyFunctor f id) fun _ _ => True := by
  unfold Machine.applyFunctor
  refine Lays.bind (Lays.getCallable id) fun c => ?_
  exact Lays.bind (Lays.setObject (by trivial)) fun _ =>
    (Lays.check _).mono (fun _ h => h) fun _ _ _ => trivial

theorem Lays.makeAdjoint (id : Nat) : Lays P (makeAdjoint id) fun _ _ => True :=
  Lays.applyFunctor _ id

theorem Lays.makeControlled (id : Nat) : Lays P (makeControlled id) fun _ _ => True :=
  Lays.applyFunctor _ id

end Tuples

/-! ### Invocation -/

section Invocation

variable {P : Machine → Prop}

/-- The ids name word arrays of the machine. -/
def WordArrays (m : Machine) (ids : List Nat) : Prop :=
  ∀ id ∈ ids, ∃ a, m.object? ⟨.array, id⟩ = some (.array a) ∧ a.itemSize = Word.size

/-- The levels of a nested controlled argument tuple are word arrays, read without changing
anything, so whatever held before still holds. -/
theorem Lays.controlLevels : ∀ (remaining level current : Nat) (P : Machine → Prop),
    Lays P (controlLevels remaining level current) fun r m => P m ∧ WordArrays m r.1
  | 0, _, _, _ => Lays.pure_of fun _ hp => ⟨hp, fun _ hid => absurd hid List.not_mem_nil⟩
  | remaining + 1, level, current, P => by
    unfold Machine.controlLevels
    dsimp only
    refine Lays.bind (Lays.tupleData current) fun data => ?_
    refine Lays.ite (fun _ => Lays.throw_bind _) fun _ => ?_
    refine Lays.bind (Lays.tupleReadHandle current 0) fun controls => ?_
    refine Lays.bind (Lays.getArray controls) fun a => ?_
    refine Lays.ite (fun _ => Lays.throw_bind _) fun hsize => ?_
    have hword : a.itemSize = Word.size := Decidable.not_not.1 hsize
    refine Lays.ite (fun _ => Lays.pure_of fun _ hp => ⟨hp.1, ?_⟩) fun _ => ?_
    · intro id hid
      rw [List.mem_singleton.1 hid]
      exact ⟨a, hp.2.1, hword⟩
    -- the deeper levels are read under this level's facts
    refine Lays.bind (Lays.tupleReadHandle current _) fun next => ?_
    refine Lays.bind (Lays.controlLevels remaining (level + 1) next _) fun p => ?_
    obtain ⟨rest, innermost⟩ := p
    refine Lays.pure_of fun _ hp => ⟨hp.1.1, fun id hid => ?_⟩
    rcases List.mem_cons.1 hid with rfl | hid
    · exact ⟨a, hp.1.2.1, hword⟩
    · exact hp.2 id hid

/-- The items of word arrays are words. -/
theorem Lays.gatherWords (levels : List Nat) :
    Lays (fun m => WordArrays m levels)
      (levels.flatMapM fun id => do pure (← Machine.getArray id).items)
      fun words _ => ∀ w ∈ words, w.length = Word.size := by
  -- the loop carries the lists gathered so far, all of words
  suffices ∀ (l : List Nat) (acc : List (List (List UInt8))),
      (∀ ws ∈ acc, ∀ w ∈ ws, w.length = Word.size) →
      Lays (fun m => WordArrays m l)
        (List.flatMapM.loop (fun id => do pure (← Machine.getArray id).items) l acc)
        fun words _ => ∀ w ∈ words, w.length = Word.size from
    this levels [] fun _ hws => absurd hws List.not_mem_nil
  intro l
  induction l with
  | nil =>
    intro acc hacc
    refine Lays.pure_of fun _ _ w hw => ?_
    simp only [List.mem_flatten, List.mem_reverse] at hw
    obtain ⟨ws, hws, hw⟩ := hw
    exact hacc ws hws w hw
  | cons id l ih =>
    intro acc hacc
    have hread : Lays (fun m => WordArrays m (id :: l)) (do pure (← Machine.getArray id).items)
        fun ws m => WordArrays m l ∧ ∀ w ∈ ws, w.length = Word.size := by
      refine Lays.bind (Lays.getArray id) fun a => Lays.pure_of fun _ hp =>
        ⟨fun id' hid' => hp.1 id' (List.mem_cons_of_mem _ hid'), fun w hw => ?_⟩
      obtain ⟨a', ha', hsize⟩ := hp.1 id List.mem_cons_self
      rw [hp.2.1] at ha'
      cases ha'
      exact (hp.2.2.length_item w hw).trans hsize
    refine Lays.bind hread fun ws => ?_
    refine Lays.given (fun _ h => h.2) fun hws => ?_
    refine (ih (ws :: acc) fun ws' hws' => ?_).mono (fun _ h => h.1) fun _ _ h => h
    rcases List.mem_cons.1 hws' with rfl | hws'
    · exact hws
    · exact hacc ws' hws'

/-- Flattening nested controls fills a fresh word array with the words of the levels' word
arrays, one word per item, as many items as words. -/
theorem Lays.flattenControls (args depth : Nat) :
    Lays P (flattenControls args depth) fun _ _ => True := by
  unfold Machine.flattenControls
  refine Lays.bind (Lays.controlLevels depth 0 args P) fun p => ?_
  obtain ⟨levels, innermost⟩ := p
  dsimp only
  refine Lays.bind ((Lays.gatherWords levels).mono (fun _ h => h.2) fun _ _ h => h) fun words => ?_
  refine Lays.given (fun _ h => h) fun hw => ?_
  refine Lays.bind (Lays.arrayCreate _ _) fun controls => ?_
  refine Lays.bind (Lays.getArray controls) fun a => ?_
  refine Lays.given (fun _ h => Obj.array.inj (Option.some.inj (h.1.symm.trans h.2.1)))
    fun hnew => ?_
  subst hnew
  refine Lays.bind (Lays.setObject (ItemArray.laidOut_words hw)) fun _ => ?_
  refine Lays.bind (Lays.attempt (Lays.tupleCopy _ _)) fun r => ?_
  cases r with
  | error e => exact Lays.bind (Lays.arrayUpdateRefs _ _) fun _ => Lays.throw _
  | ok flat =>
    refine Lays.bind (Lays.attempt (Lays.tupleWriteHandle _ _ _)) fun r => ?_
    cases r with
    | error e =>
      exact Lays.bind (Lays.tupleUpdateRefs _ _) fun _ =>
        Lays.bind (Lays.arrayUpdateRefs _ _) fun _ => Lays.throw _
    | ok u => exact Lays.ret _

/-- A routine keeps the arrays laid out as long as the callables it may call back do: the other
routines write a tuple, drop a reference to a tuple, print or trace. -/
theorem Lays.runRoutine {call : Nat → Option Nat → Option Nat → Exec Unit}
    (hcall : ∀ i a r, Lays (fun _ => True) (call i a r) fun _ _ => True) (r : Routine)
    (capture args result : Option Nat) :
    Lays P (runRoutine call r capture args result) fun _ _ => True := by
  unfold Machine.runRoutine
  refine Lays.bind Lays.get fun m => ?_
  dsimp only
  refine Lays.bind (Lays.of_frames (Frames.note _)) fun _ => ?_
  cases r with
  | mark s =>
    dsimp only
    cases result with
    | none => exact Lays.ret _
    | some res =>
      exact Lays.bind (Lays.tupleData res) fun _ =>
        Lays.ite (fun _ => Lays.tupleWrite _ _ _) fun _ => Lays.ret _
  | controls =>
    dsimp only
    cases args with
    | none => exact Lays.throw _
    | some a =>
      refine Lays.of_frames (Frames.bind (Frames.tupleReadHandle a 0) fun array => ?_)
      refine Frames.bind (Frames.qubits array) fun qs => ?_
      refine Frames.bind (Frames.tupleData a) fun d => ?_
      exact Frames.ite
        (Frames.bind (Frames.map _ (Frames.tupleReadHandle a _)) fun _ => Frames.note _)
        (Frames.bind (Frames.pure _) fun _ => Frames.note _)
  | fail => exact Lays.throw _
  | delegate =>
    dsimp only
    refine Lays.bind (Lays.of_frames (Frames.needCapture capture)) fun c => ?_
    exact Lays.bind (Lays.of_frames (Frames.tupleReadHandle c 0)) fun h =>
      (hcall h args result).of_true
  | releaseArgs => exact Lays.tupleUpdateRefs args (-1)
  | message =>
    refine Lays.of_frames (Frames.bind (Frames.needCapture _) fun c => ?_)
    exact Frames.bind (Frames.tupleReadHandle c 0) fun h => Frames.message h
  | trace =>
    refine Lays.of_frames (Frames.bind (Frames.needCapture _) fun c => ?_)
    refine Frames.bind (Frames.tupleData c) fun data => Frames.ite (Frames.throw_bind _) ?_
    intro m
    rw [final_asFailure]
    exact store_traceSingleOp _ _ _ m

/-- Invocation keeps the arrays laid out, by induction on the fuel that bounds how deeply
routines call back. -/
theorem Lays.invokeWith : ∀ (fuel id : Nat) (args result : Option Nat),
    Lays (fun _ => True) (invokeWith fuel id args result) fun _ _ => True
  | 0, _, _, _ => Lays.throw _
  | fuel + 1, id, args, result => by
    unfold Machine.invokeWith
    refine Lays.bind (Lays.getCallable id) fun c => ?_
    refine Lays.bind (Lays.check _) fun r => ?_
    dsimp only
    have hrun : ∀ (Q : Machine → Prop) (a res : Option Nat),
        Lays Q (Machine.runRoutine (Machine.invokeWith fuel) r c.capture a res) fun _ _ => True :=
      fun _ a res => Lays.runRoutine (fun i a r => Lays.invokeWith fuel i a r) r c.capture a res
    refine Lays.ite (fun _ => hrun _ _ _) fun _ => ?_
    cases args with
    | none => exact Lays.throw _
    | some a =>
      refine Lays.ite (fun _ => hrun _ _ _) fun _ => ?_
      refine Lays.bind (Lays.flattenControls _ _) fun flat => ?_
      refine Lays.bind (Lays.attempt (hrun _ _ _)) fun outcome => ?_
      refine Lays.bind (Lays.tupleReadHandle _ _) fun controls => ?_
      refine Lays.bind (Lays.arrayUpdateRefs _ _) fun _ => ?_
      refine Lays.bind (Lays.tupleUpdateRefs _ _) fun _ => ?_
      exact (Lays.check _).forget

theorem Lays.invoke (id : Nat) (args result : Option Nat) :
    Lays P (invoke id args result) fun _ _ => True :=
  (Lays.invokeWith _ id args result).of_true

end Invocation

/-! ### Runs -/

section Runs

variable {m : Machine}

/-- Every request keeps every stored array laid out. -/
theorem laidOut_serve (h : ArraysLaidOut m) (r : ObjectRequest) : ArraysLaidOut (m.serve r) := by
  cases r with
  | arrayCreate itemSize dims => exact (Lays.arrayCreate _ _).laidOut_final h
  | arrayCreate1d itemSize count => exact (Lays.arrayCreate _ _).laidOut_final h
  | arrayCopy id force => exact (Lays.arrayCopy _ _).laidOut_final h
  | arrayConcat head tail => exact (Lays.arrayConcat _ _).laidOut_final h
  | arraySlice id dim r => exact (Lays.arraySlice _ _ _).laidOut_final h
  | arrayProject id dim index => exact (Lays.arrayProject _ _ _).laidOut_final h
  | arraySetElement id index bytes => exact (Lays.arraySetElement _ _ _).laidOut_final h
  | arrayWriteHandle id index handle => exact (Lays.arrayWriteHandle _ _ _).laidOut_final h
  | arrayUpdateRefs id increment => exact (Lays.arrayUpdateRefs _ _).laidOut_final h
  | arrayUpdateAliases id increment => exact (Lays.arrayUpdateAliases _ _).laidOut_final h
  | qubitAllocateArray count => exact (Lays.qubitAllocateArray _).laidOut_final h
  | qubitReleaseArray id => exact (Lays.qubitReleaseArray _).laidOut_final h
  | tupleCreate size => exact (Lays.tupleCreate _).laidOut_final h
  | tupleCopy id force => exact (Lays.tupleCopy _ _).laidOut_final h
  | tupleWrite id offset bytes => exact (Lays.tupleWrite _ _ _).laidOut_final h
  | tupleWriteHandle id offset handle => exact (Lays.tupleWriteHandle _ _ _).laidOut_final h
  | tupleUpdateRefs id increment => exact (Lays.tupleUpdateRefs _ _).laidOut_final h
  | tupleUpdateAliases id increment => exact (Lays.tupleUpdateAliases _ _).laidOut_final h
  | callableCreate table hooks capture =>
    exact (Lays.callableCreate _ _ _).laidOut_final h
  | callableCopy id force => exact (Lays.callableCopy _ _).laidOut_final h
  | makeAdjoint id => exact (Lays.makeAdjoint _).laidOut_final h
  | makeControlled id => exact (Lays.makeControlled _).laidOut_final h
  | callableUpdateRefs id increment => exact (Lays.callableUpdateRefs _ _).laidOut_final h
  | callableUpdateAliases id increment =>
    exact (Lays.callableUpdateAliases _ _).laidOut_final h
  | invoke id args result => exact (Lays.invoke _ _ _).laidOut_final h

theorem laidOut_serveAll (h : ArraysLaidOut m) (rs : List ObjectRequest) :
    ArraysLaidOut (m.serveAll rs) := by
  -- the machine a run starts from changes with each request
  induction rs generalizing m with
  | nil => exact h
  | cons r rs ih => exact ih (laidOut_serve h r)

end Runs

/-! ### Writes into an array -/

section Writes

variable {m m' : Machine}

theorem getArray_ok {id : Nat} {a : ItemArray} (hx : getArray id m = .ok a m') :
    m' = m ∧ m.object? ⟨.array, id⟩ = some (.array a) := by
  rw [getArray_eq] at hx
  split at hx
  · next a' hl =>
    cases hx
    exact ⟨rfl, object?_eq_some.2 ⟨hl, rfl⟩⟩
  · cases hx

theorem check_ok {α : Type} {e : Except MachineError α} {x : α} (hx : check e m = .ok x m') :
    m' = m ∧ e = .ok x := by
  cases e with
  | error e' => cases hx
  | ok y =>
    cases hx
    exact ⟨rfl, rfl⟩

/-- Writing back over a stored id stores the object under its kind. -/
theorem object?_setObject {id : Nat} {o p : Obj} {u : Unit} (hp : m.objects.lookup id = some p)
    (hx : setObject id o m = .ok u m') : m'.object? ⟨o.kind, id⟩ = some o := by
  rw [setObject_eq] at hx
  cases hx
  exact object?_eq_some.2 ⟨(lookup_update_of_lookup hp o id).trans (if_pos rfl), rfl⟩

/-- A request that reads an item of an array and goes on succeeds only if the array is stored and
the rest succeeds from the same machine. -/
theorem readItem_ok {α : Type} {id index : Nat} {k : ItemArray → List UInt8 → Exec α} {x : α}
    (hx : (getArray id >>= fun a => check (a.item index) >>= k a) m = .ok x m') :
    ∃ a it, m.object? ⟨.array, id⟩ = some (.array a) ∧ k a it m = .ok x m' := by
  rw [run_bind] at hx
  cases hg : getArray id m with
  | error e s =>
    rw [hg] at hx
    cases hx
  | ok a s =>
    rw [hg] at hx
    obtain ⟨rfl, ha⟩ := getArray_ok hg
    dsimp only at hx
    rw [run_bind] at hx
    cases hc : check (a.item index) s with
    | error e s' =>
      rw [hc] at hx
      cases hx
    | ok it s' =>
      rw [hc] at hx
      obtain ⟨rfl, -⟩ := check_ok hc
      exact ⟨a, it, ha, hx⟩

/-- A successful element write stores the array it read with that item overwritten. -/
theorem object?_of_arraySetElement {id index : Nat} {bytes : List UInt8} {u : Unit}
    (hx : arraySetElement id index bytes m = .ok u m') :
    ∃ a, m.object? ⟨.array, id⟩ = some (.array a) ∧
      m'.object? ⟨.array, id⟩ = some (.array (a.writeItem index bytes)) := by
  obtain ⟨a, -, ha, hx⟩ := readItem_ok hx
  exact ⟨a, ha, object?_setObject (object?_eq_some.1 ha).1 hx⟩

/-- A successful handle write stores the array it read with the handle's word written into
that item. -/
theorem object?_of_arrayWriteHandle {id index handle : Nat} {u : Unit}
    (hx : arrayWriteHandle id index handle m = .ok u m') :
    ∃ a, m.object? ⟨.array, id⟩ = some (.array a) ∧
      m'.object? ⟨.array, id⟩ = some (.array (a.writeItem index (Word.encode handle))) := by
  obtain ⟨a, it, ha, hx⟩ := readItem_ok hx
  dsimp only at hx
  -- an item that is not one word is refused before anything is written
  split at hx
  · cases hx
  · exact ⟨a, ha, object?_setObject (object?_eq_some.1 ha).1 hx⟩

end Writes

/-- Arrays stay laid out: after any run from a fresh program, every stored array has its count,
stride, zero padding and items where its buffer says, a concatenation is one-dimensional, and an
element or handle write changes only the item written. -/
theorem arrays_laid_out (backend : Backend) (track : Bool) (rs : List ObjectRequest) :
    let m := (Machine.new backend track).serveAll rs
    (∀ id a, m.object? ⟨.array, id⟩ = some (.array a) →
      a.itemSize ≤ a.stride ∧ a.count = a.dims.prod ∧ a.buffer.length = a.count * a.stride ∧
      (∀ i k, i < a.count → a.itemSize ≤ k → k < a.stride → a.buffer[i * a.stride + k]? = some 0) ∧
      (a.ownsQubits = true → a.dims.length = 1 ∧ a.itemSize = Word.size) ∧
      ∀ i, i < a.count → a.item i = .ok ((a.buffer.drop (i * a.stride)).take a.itemSize)) ∧
    (∀ head tail id m', arrayConcat head tail m = .ok id m' →
      ∃ a, m'.object? ⟨.array, id⟩ = some (.array a) ∧ a.dims = [a.count]) ∧
    (∀ id index bytes m', arraySetElement id index bytes m = .ok () m' →
      ∃ a a', m.object? ⟨.array, id⟩ = some (.array a) ∧
        m'.object? ⟨.array, id⟩ = some (.array a') ∧ a.Rewrites a' index) ∧
    (∀ id index handle m', arrayWriteHandle id index handle m = .ok () m' →
      ∃ a a', m.object? ⟨.array, id⟩ = some (.array a) ∧
        m'.object? ⟨.array, id⟩ = some (.array a') ∧ a.Rewrites a' index) := by
  dsimp only
  have h := laidOut_serveAll (laidOut_new backend track) rs
  -- a stored array is laid out; everything else about it follows from that
  have hlaid : ∀ id a, ((Machine.new backend track).serveAll rs).object? ⟨.array, id⟩ =
      some (.array a) → a.LaidOut := fun _ _ ha => h.object? ha
  refine ⟨fun id a ha => ?_, fun head tail id m' hx => ?_, fun id index bytes m' hx => ?_,
    fun id index handle m' hx => ?_⟩
  · have hl := hlaid id a ha
    exact ⟨a.itemSize_le_stride, hl.count_eq, hl.length_buffer,
      fun _ _ hi hk hks => hl.buffer_padding hi hk hks, hl.owner, fun _ hi => hl.item_eq hi⟩
  · have hc := (Lays.arrayConcat head tail : Lays (fun _ => True) _ _) _ h trivial
    rw [hx] at hc
    exact hc.2
  · obtain ⟨a, ha, ha'⟩ := object?_of_arraySetElement hx
    exact ⟨a, _, ha, ha', (hlaid id a ha).rewrites_writeItem index bytes⟩
  · obtain ⟨a, ha, ha'⟩ := object?_of_arrayWriteHandle hx
    exact ⟨a, _, ha, ha', (hlaid id a ha).rewrites_writeItem index _⟩

end Machine

end QuantumRuntime
