import Mathlib
import QuantumRuntime.Proofs.Machine.Slicing

/-!
# How large an array can be

Creating an array checks, before anything is stored, that the item size is positive, that the
shape has a dimension and that the buffer can be addressed. The last check multiplies the element
stride by the extents from left to right in 64-bit words: it refuses an item size whose power of
two is not a word, a partial product that overflows a word, and a final length above the largest
signed 64-bit value (`bufferLength?_eq_none_iff`).

When no extent is zero the partial products only grow, so the check refuses exactly the shapes
whose buffer, counted without bound, exceeds the limit (`bufferLength?_eq_none_iff_of_pos`). A
zero extent after large ones makes the buffer empty, yet an earlier partial product can still
overflow, and the shape is refused (`empty_shape_refused_as_too_large`). Allocating qubits into an
array checks its one extent the same way before it takes any qubit. The main statement is
`Machine.array_size_check`.
-/

namespace QuantumRuntime

/-! ### Products checked in words -/

section Checked

/-- One step of a product checked against a bound: the next partial product, unless it exceeds
the bound. -/
theorem foldlM_checked_cons (B a e : Nat) (es : List Nat) :
    (e :: es).foldlM (fun len extent => if len * extent ≤ B then some (len * extent) else none) a =
      if a * e ≤ B then
        es.foldlM (fun len extent => if len * extent ≤ B then some (len * extent) else none) (a * e)
      else none := by
  simp only [List.foldlM_cons]
  split <;> rfl

/-- A product checked against a bound, started at `a`, fails exactly when one of its partial
products past `a` exceeds the bound, and otherwise gives the whole product. -/
theorem foldlM_checked (B : Nat) :
    ∀ (dims : List Nat) (a : Nat),
      dims.foldlM (fun len extent => if len * extent ≤ B then some (len * extent) else none) a =
        if ∃ j < dims.length, B < a * (dims.take (j + 1)).prod then none
        else some (a * dims.prod)
  | [], a => by simp
  | e :: es, a => by
    rw [foldlM_checked_cons, foldlM_checked B es (a * e)]
    -- a partial product of `e :: es` past `a` is the first step or one of `es` past `a * e`
    have hsplit : (∃ j < (e :: es).length, B < a * ((e :: es).take (j + 1)).prod) ↔
        B < a * e ∨ ∃ j < es.length, B < a * e * (es.take (j + 1)).prod := by
      constructor
      · rintro ⟨j, hj, hlt⟩
        cases j with
        | zero => exact .inl (by simpa using hlt)
        | succ j =>
          refine .inr ⟨j, by simpa using hj, ?_⟩
          simpa [List.take_succ_cons, List.prod_cons, Nat.mul_assoc] using hlt
      · rintro (hlt | ⟨j, hj, hlt⟩)
        · exact ⟨0, by simp, by simpa using hlt⟩
        · refine ⟨j + 1, by simpa using hj, ?_⟩
          simpa [List.take_succ_cons, List.prod_cons, Nat.mul_assoc] using hlt
    by_cases hfirst : a * e ≤ B
    · rw [if_pos hfirst, List.prod_cons, ← Nat.mul_assoc]
      by_cases hrest : ∃ j < es.length, B < a * e * (es.take (j + 1)).prod
      · rw [if_pos hrest, if_pos (hsplit.2 (.inr hrest))]
      · rw [if_neg hrest, if_neg fun h => (hsplit.1 h).elim (fun h' => absurd h' (by omega)) hrest]
    · rw [if_neg hfirst, if_pos (hsplit.2 (.inl (by omega)))]

end Checked

/-- The buffer length is refused exactly when the item size's power of two is not a word, a
partial product of the stride and the extents overflows a word, or the whole product exceeds the
limit. -/
theorem bufferLength?_eq_none_iff (itemSize : Nat) (dims : List Nat) :
    bufferLength? itemSize dims = none ↔
      Nat.pow 2 63 < itemSize ∨
      (∃ j < dims.length, wordLimit < elementStride itemSize * (dims.take (j + 1)).prod) ∨
      bufferLimit < elementStride itemSize * dims.prod := by
  unfold bufferLength?
  by_cases hsize : Nat.pow 2 63 < itemSize
  · simp [hsize]
  · simp only [hsize, if_false, false_or]
    rw [foldlM_checked]
    by_cases hover : ∃ j < dims.length, wordLimit < elementStride itemSize * (dims.take (j + 1)).prod
    · simp [hover]
    · simp only [hover, if_false, false_or]
      split <;> simp_all

/-- The stride grows with the extents when none of them is zero. -/
theorem mul_prod_take_le {dims : List Nat} (hpos : ∀ d ∈ dims, 0 < d) (a j : Nat) :
    a * (dims.take j).prod ≤ a * dims.prod := by
  apply Nat.mul_le_mul_left
  rw [← List.take_append_drop j dims, List.prod_append, List.take_append_drop]
  have : 0 < (dims.drop j).prod :=
    List.prod_pos fun d hd => hpos d (List.mem_of_mem_drop hd)
  exact Nat.le_mul_of_pos_right _ this

/-- With no zero extent the check refuses exactly the shapes whose buffer, counted without bound,
exceeds the limit. -/
theorem bufferLength?_eq_none_iff_of_pos {itemSize : Nat} {dims : List Nat}
    (hpos : ∀ d ∈ dims, 0 < d) :
    bufferLength? itemSize dims = none ↔ bufferLimit < elementStride itemSize * dims.prod := by
  rw [bufferLength?_eq_none_iff]
  have hprod : 0 < dims.prod := List.prod_pos hpos
  constructor
  · rintro (hsize | ⟨j, -, hover⟩ | hlimit)
    · -- an item size past `2 ^ 63` has a stride past the limit on its own
      have hstride := le_elementStride itemSize
      calc bufferLimit < itemSize := by simp only [bufferLimit]; simp at hsize; omega
        _ ≤ elementStride itemSize := hstride
        _ ≤ elementStride itemSize * dims.prod := Nat.le_mul_of_pos_right _ hprod
    · calc bufferLimit < wordLimit := by decide
        _ < elementStride itemSize * (dims.take (j + 1)).prod := hover
        _ ≤ elementStride itemSize * dims.prod := mul_prod_take_le hpos _ _
    · exact hlimit
  · exact fun h => .inr (.inr h)

/-- A zeroed array's buffer is all zeros: each zero item is padded with zeros to the stride. -/
theorem flatMap_zeros_padded {s st : Nat} (hle : s ≤ st) :
    ∀ c : Nat, (List.replicate c (Bytes.zeros s)).flatMap (fun item => item ++ Bytes.zeros (st - s)) =
      Bytes.zeros (c * st)
  | 0 => by simp [Bytes.zeros]
  | c + 1 => by
    rw [List.replicate_succ, List.flatMap_cons, flatMap_zeros_padded hle c]
    simp only [Bytes.zeros, List.replicate_append_replicate]
    congr 1
    rw [Nat.succ_mul]
    omega

namespace ItemArray

theorem buffer_new (itemSize : Nat) (dims : List Nat) :
    (new itemSize dims).buffer = Bytes.zeros ((new itemSize dims).count * elementStride itemSize) := by
  simp only [buffer, new, count, stride, List.length_replicate]
  exact flatMap_zeros_padded (le_elementStride itemSize) _

end ItemArray

namespace Machine

/-! ### Creating an array -/

section Create

variable {m : Machine} {itemSize : Nat} {dims : List Nat}

theorem arrayCreate_zero (dims : List Nat) (m : Machine) :
    arrayCreate 0 dims m = .error (.invalidItemSize 0) m := by
  simp [arrayCreate]

theorem arrayCreate_nil (hs : itemSize ≠ 0) (m : Machine) :
    arrayCreate itemSize [] m =
      .error (.dimensionMismatch "an array needs at least one dimension") m := by
  simp [arrayCreate, hs]

theorem arrayCreate_of_none (hs : itemSize ≠ 0) (hd : dims ≠ [])
    (hb : bufferLength? itemSize dims = none) (m : Machine) :
    arrayCreate itemSize dims m = .error (.arrayTooLarge itemSize dims) m := by
  simp [arrayCreate, hs, hd, checkBuffer, hb]

/-- Past the three checks, on a machine whose tracker agrees with its objects and whose next id is
free, the zeroed array is stored under the next id. -/
theorem arrayCreate_of_some (hm : ∀ t, m.tracker = some t → Agrees t m)
    (hfresh : m.objects.lookup m.nextId = none) (hs : itemSize ≠ 0) (hd : dims ≠ []) {n : Nat}
    (hb : bufferLength? itemSize dims = some n) :
    ∃ m', arrayCreate itemSize dims m = .ok m.nextId m' ∧
      AddsArray m m' m.nextId (ItemArray.new itemSize dims) := by
  obtain ⟨m', hins, hobj⟩ := insert_fresh hm (.array (ItemArray.new itemSize dims))
  refine ⟨m', ?_, ⟨hfresh, hobj, rfl⟩⟩
  have hcreate : arrayCreate itemSize dims m = insertArray (ItemArray.new itemSize dims) m := by
    simp [arrayCreate, hs, hd, checkBuffer, hb]
  rw [hcreate, insertArray, hins]

/-- A creation request passes its checks in order: the item size, the rank, the buffer length.
Each refusal leaves the machine as it was; past all three the zeroed array is stored. -/
theorem arrayCreate_cases (hm : ∀ t, m.tracker = some t → Agrees t m)
    (hfresh : m.objects.lookup m.nextId = none) (itemSize : Nat) (dims : List Nat) :
    (itemSize = 0 ∧ arrayCreate itemSize dims m = .error (.invalidItemSize itemSize) m) ∨
    (itemSize ≠ 0 ∧ dims = [] ∧ arrayCreate itemSize dims m =
      .error (.dimensionMismatch "an array needs at least one dimension") m) ∨
    (itemSize ≠ 0 ∧ dims ≠ [] ∧ bufferLength? itemSize dims = none ∧
      arrayCreate itemSize dims m = .error (.arrayTooLarge itemSize dims) m) ∨
    (itemSize ≠ 0 ∧ dims ≠ [] ∧ (bufferLength? itemSize dims).isSome ∧ ∃ m',
      arrayCreate itemSize dims m = .ok m.nextId m' ∧
      AddsArray m m' m.nextId (ItemArray.new itemSize dims)) := by
  by_cases hs : itemSize = 0
  · subst hs
    exact .inl ⟨rfl, arrayCreate_zero dims m⟩
  by_cases hd : dims = []
  · subst hd
    exact .inr (.inl ⟨hs, rfl, arrayCreate_nil hs m⟩)
  cases hb : bufferLength? itemSize dims with
  | none => exact .inr (.inr (.inl ⟨hs, hd, rfl, arrayCreate_of_none hs hd hb m⟩))
  | some n => exact .inr (.inr (.inr ⟨hs, hd, rfl, arrayCreate_of_some hm hfresh hs hd hb⟩))

/-- The raw storage of a stored array: its buffer, or nothing when it has no items. -/
theorem arrayBuffer_of {id : Nat} {a : ItemArray} (ha : m.object? ⟨.array, id⟩ = some (.array a)) :
    arrayBuffer id m = .ok (if 0 < a.count then some a.buffer else none) m := by
  unfold Machine.arrayBuffer
  rw [run_bind, getArray_eq, (object?_eq_some.1 ha).1]
  rfl

/-- The program hands out no buffer exactly for an array with no items. -/
theorem arrayBuffer_eq_none_iff {id : Nat} {a : ItemArray}
    (ha : m.object? ⟨.array, id⟩ = some (.array a)) :
    arrayBuffer id m = .ok none m ↔ a.count = 0 := by
  rw [arrayBuffer_of ha]
  by_cases hc : 0 < a.count
  · simp [hc, Nat.pos_iff_ne_zero.1 hc]
  · simp [Nat.eq_zero_of_not_pos hc]

/-! ### Allocating qubits into an array -/

/-- A qubit array of `count` words is refused exactly when its buffer exceeds the limit; its one
extent is the whole product, so the check is exact even for no qubits. -/
theorem bufferLength?_word_eq_none_iff (count : Nat) :
    bufferLength? Word.size [count] = none ↔ bufferLimit < Word.size * count := by
  have hstride : elementStride Word.size = Word.size := by decide
  rcases Nat.eq_zero_or_pos count with rfl | hpos
  · decide
  · rw [bufferLength?_eq_none_iff_of_pos (by simpa using hpos), hstride, List.prod_singleton]

/-- Allocating one qubit per item never fails: every backend hands out a qubit, and only the
backend changes. -/
theorem mapM_allocateQubit_ok {γ : Type} (l : List γ) (m : Machine) :
    ∃ qs b, l.mapM (fun _ => onBackend fun b => b.allocateQubit) m = .ok qs { m with backend := b } := by
  induction l generalizing m with
  | nil => exact ⟨[], m.backend, rfl⟩
  | cons x l ih =>
    have hq : ∃ q b₁, m.backend.allocateQubit = .ok (q, b₁) := by
      cases m.backend <;> exact ⟨_, _, rfl⟩
    obtain ⟨q, b₁, hq⟩ := hq
    obtain ⟨qs, b, hr⟩ := ih { m with backend := b₁ }
    refine ⟨q :: qs, b, ?_⟩
    rw [List.mapM_cons, run_bind, onBackend_eq, hq]
    dsimp only
    rw [run_bind, hr]
    rfl

theorem qubitAllocateArray_of_none {count : Nat} (hb : bufferLength? Word.size [count] = none)
    (m : Machine) : qubitAllocateArray count m = .error (.arrayTooLarge Word.size [count]) m := by
  simp [qubitAllocateArray, checkBuffer, hb]

/-- Past the size check, on a machine whose tracker agrees with its objects, the qubits are
allocated and the array is stored. -/
theorem qubitAllocateArray_ok (hm : ∀ t, m.tracker = some t → Agrees t m) {count n : Nat}
    (hb : bufferLength? Word.size [count] = some n) :
    ∃ id m', qubitAllocateArray count m = .ok id m' := by
  obtain ⟨qs, b, hqs⟩ := mapM_allocateQubit_ok (List.range count) m
  -- the allocations touch only the backend, so the tracker still agrees with the objects
  have hm' : ∀ t, ({ m with backend := b } : Machine).tracker = some t →
      Agrees t { m with backend := b } := fun t ht =>
    let h := hm t ht
    ⟨h.ids_increase, h.ids_lt, h.ids_nodup, h.stored, h.removed⟩
  obtain ⟨m', hins, -⟩ := insert_fresh hm' (.array { ItemArray.new Word.size [count] with
    items := qs.map fun q => Word.encode q.index, ownsQubits := true })
  refine ⟨m.nextId, m', ?_⟩
  unfold Machine.qubitAllocateArray Machine.checkBuffer
  simp only [run_bind, hb, run_pure, hqs]
  exact hins

end Create

/-! ### The size check on a reachable machine -/

/-- Creating an array checks its size before anything is stored. Take any list of requests from a
fresh program, on any backend, with or without tracking. Creating an array fails, leaving the
machine as it was, only with one of three refusals, in order: an item size of zero, a shape with
no dimension, a buffer that cannot be addressed; the first two are given exactly when their
condition holds. When no extent is zero the buffer is refused exactly when the element stride
times the number of items exceeds the largest signed 64-bit value, and otherwise the array is
created. A created array is stored under a free id. It has the given item size and shape, as many
items as the product of the extents, and a zeroed buffer of that many strides, which the program
hands out unless there are no items. Allocating `count` qubits into an array is refused before
any qubit is taken exactly when `count` words exceed the same limit, and succeeds otherwise. -/
theorem array_size_check (backend : Backend) (track : Bool) (rs : List ObjectRequest)
    (itemSize : Nat) (dims : List Nat) (count : Nat) :
    let m := (Machine.new backend track).serveAll rs
    (∀ e m', arrayCreate itemSize dims m = .error e m' → m' = m ∧
      ((itemSize = 0 ∧ e = .invalidItemSize itemSize) ∨
        (itemSize ≠ 0 ∧ dims = [] ∧
          e = .dimensionMismatch "an array needs at least one dimension") ∨
        (itemSize ≠ 0 ∧ dims ≠ [] ∧ e = .arrayTooLarge itemSize dims))) ∧
    (itemSize = 0 → arrayCreate itemSize dims m = .error (.invalidItemSize itemSize) m) ∧
    (itemSize ≠ 0 → dims = [] → arrayCreate itemSize dims m =
      .error (.dimensionMismatch "an array needs at least one dimension") m) ∧
    (itemSize ≠ 0 → dims ≠ [] → (∀ d ∈ dims, 0 < d) →
      (bufferLimit < elementStride itemSize * dims.prod →
        arrayCreate itemSize dims m = .error (.arrayTooLarge itemSize dims) m) ∧
      (elementStride itemSize * dims.prod ≤ bufferLimit →
        ∃ id m', arrayCreate itemSize dims m = .ok id m')) ∧
    (∀ id m', arrayCreate itemSize dims m = .ok id m' → ∃ a, AddsArray m m' id a ∧
      a.itemSize = itemSize ∧ a.dims = dims ∧ a.count = dims.prod ∧
      a.buffer = Bytes.zeros (a.count * elementStride itemSize) ∧
      (arrayBuffer id m' = .ok none m' ↔ a.count = 0)) ∧
    (bufferLimit < Word.size * count →
      qubitAllocateArray count m = .error (.arrayTooLarge Word.size [count]) m) ∧
    (Word.size * count ≤ bufferLimit → ∃ id m', qubitAllocateArray count m = .ok id m') := by
  intro m
  have hm : ∀ t, m.tracker = some t → Agrees t m := agrees_serveAll backend track rs
  have hfresh : m.objects.lookup m.nextId = none :=
    (laidOut_serveAll (laidOut_new backend track) rs).lookup_nextId
  have hcases := arrayCreate_cases hm hfresh itemSize dims
  refine ⟨fun e m' he => ?_, fun hs => ?_, fun hs hd => ?_, fun hs hd hpos => ⟨fun hlt => ?_, fun hle => ?_⟩,
    fun id m' hok => ?_, fun hlt => ?_, fun hle => ?_⟩
  · -- a refusal is the first check that fails, and it returns the machine it was given
    rcases hcases with ⟨hs, hx⟩ | ⟨hs, hd, hx⟩ | ⟨hs, hd, -, hx⟩ | ⟨-, -, -, m'', hx, -⟩ <;>
      rw [hx] at he <;> cases he
    · exact ⟨rfl, .inl ⟨hs, rfl⟩⟩
    · exact ⟨rfl, .inr (.inl ⟨hs, hd, rfl⟩)⟩
    · exact ⟨rfl, .inr (.inr ⟨hs, hd, rfl⟩)⟩
  · subst hs
    exact arrayCreate_zero dims m
  · subst hd
    exact arrayCreate_nil hs m
  · exact arrayCreate_of_none hs hd ((bufferLength?_eq_none_iff_of_pos hpos).2 hlt) m
  · obtain ⟨n, hb⟩ := Option.ne_none_iff_exists'.1
      (mt (bufferLength?_eq_none_iff_of_pos hpos).1 (Nat.not_lt.2 hle))
    obtain ⟨m', hx, -⟩ := arrayCreate_of_some hm hfresh hs hd hb
    exact ⟨_, m', hx⟩
  · -- only the last case succeeds, with the zeroed array of the requested shape
    rcases hcases with ⟨-, hx⟩ | ⟨-, -, hx⟩ | ⟨-, -, -, hx⟩ | ⟨-, -, -, m'', hx, hadd⟩ <;>
      rw [hx] at hok <;> cases hok
    refine ⟨_, hadd, rfl, rfl, ?_, ItemArray.buffer_new itemSize dims,
      arrayBuffer_eq_none_iff hadd.object?_self⟩
    rw [ItemArray.count_new, List.prod_eq_foldr]
  · exact qubitAllocateArray_of_none ((bufferLength?_word_eq_none_iff count).2 hlt) m
  · obtain ⟨n, hb⟩ := Option.ne_none_iff_exists'.1
      (mt (bufferLength?_word_eq_none_iff count).1 (Nat.not_lt.2 hle))
    exact qubitAllocateArray_ok hm hb

/-- An array of shape `[2 ^ 32, 2 ^ 32, 0]` has no items and its buffer is empty, far below the
limit, yet the checked product overflows a word at the second extent and the creation is refused
as too large. -/
theorem empty_shape_refused_as_too_large :
    elementStride 1 * [4294967296, 4294967296, 0].prod = 0 ∧
      arrayCreate 1 [4294967296, 4294967296, 0] (Machine.new (.recorder {}) false) =
        .error (.arrayTooLarge 1 [4294967296, 4294967296, 0]) (Machine.new (.recorder {}) false) :=
  ⟨by decide, arrayCreate_of_none (by decide) (by decide) (by decide) _⟩

end Machine

end QuantumRuntime
