import Mathlib
import QuantumRuntime.Proofs.Machine.Flattening

/-!
# Word fields of tuples

A word field of a tuple is the eight bytes from an offset on. Reading and writing one first
computes the end `offset + 8` of the field in a machine word, then checks that the field lies in
the payload. For every offset whose end is a word, the check is exact
(`word_fields_bounds_checked`). The field is read or written when it fits, and the read gives the
word those eight bytes spell. The write changes those eight bytes and nothing else in the
program. A field that does not fit is refused with the offset and the payload length less seven,
and the program is left as it was.

Only the eight offsets whose end passes the largest word escape the check: the end overflows and
the program aborts (`word_field_end_overflows`), whatever the size of the tuple.
-/

namespace QuantumRuntime

namespace Bytes

/-- Overwriting bytes that fit changes exactly the bytes from the offset on, as many as written. -/
theorem getElem?_overwrite {data src : List UInt8} {offset : Nat}
    (h : offset + src.length ≤ data.length) (j : Nat) :
    (overwrite data offset src)[j]? =
      if offset ≤ j ∧ j < offset + src.length then src[j - offset]? else data[j]? := by
  have hlen : (data.take offset ++ src ++ data.drop (offset + src.length)).length = data.length := by
    simp only [List.length_append, List.length_take, List.length_drop]
    omega
  rw [overwrite, List.take_of_length_le hlen.le]
  by_cases h₁ : j < offset
  · rw [if_neg (by omega), List.getElem?_append_left (by simp; omega),
      List.getElem?_append_left (by simp; omega), List.getElem?_take_of_lt h₁]
  by_cases h₂ : j < offset + src.length
  · have hleft : j < (data.take offset ++ src).length := by simp; omega
    rw [if_pos ⟨by omega, h₂⟩, List.getElem?_append_left hleft,
      List.getElem?_append_right (by simp; omega), List.length_take, Nat.min_eq_left (by omega)]
  · rw [if_neg (by omega), List.getElem?_append_right (by simp; omega), List.getElem?_drop]
    congr 1
    simp only [List.length_append, List.length_take]
    omega

end Bytes

namespace ByteTuple

variable {t : ByteTuple} {offset : Nat}

/-- An offset whose field ends past the largest word aborts the program, whatever the payload. -/
theorem field_of_overflow (h : wordLimit < offset + Word.size) :
    t.field offset = .error (.panic "attempt to add with overflow") := by
  simp [field, h]

/-- A field that ends in a word but past the payload is refused with the offset and the first
offset that has no room. -/
theorem field_of_short (hw : offset + Word.size ≤ wordLimit) (h : t.data.length < offset + Word.size) :
    t.field offset = .error (.indexOutOfBounds offset (t.data.length - (Word.size - 1))) := by
  simp [field, Nat.not_lt.2 hw, Nat.not_le.2 h]

end ByteTuple

namespace Machine

variable {m : Machine} {id : Nat} {t : ByteTuple}

/-- Reading a word field of a stored tuple runs the field check on it and changes nothing. -/
theorem tupleReadHandle_stored (ht : m.object? ⟨.tuple, id⟩ = some (.tuple t)) (offset : Nat) :
    tupleReadHandle id offset m = check ((t.field offset).map Word.decode) m := by
  unfold Machine.tupleReadHandle
  rw [run_bind, getTuple_of_object? ht]
  rfl

/-- Writing a word field of a stored tuple runs the field check on it and, when it passes, stores
the tuple with the word written in place. -/
theorem tupleWriteHandle_stored (ht : m.object? ⟨.tuple, id⟩ = some (.tuple t))
    (offset handle : Nat) :
    tupleWriteHandle id offset handle m =
      match t.field offset with
      | .ok _ =>
        setObject id (.tuple { t with data := Bytes.overwrite t.data offset (Word.encode handle) }) m
      | .error e => .error e m := by
  unfold Machine.tupleWriteHandle
  rw [run_bind, getTuple_of_object? ht]
  show (check (t.writeWord offset handle) >>= fun t' => setObject id (.tuple t')) m = _
  unfold ByteTuple.writeWord
  cases t.field offset <;> rfl

/-- Writing back the object of a stored id leaves every other id's object as it was. -/
theorem object?_setObject_ne {o : Obj} {u : Unit} {m' : Machine} (hx : setObject id o m = .ok u m')
    {k : ObjectKey} (hk : k.id ≠ id) : m'.object? k = m.object? k := by
  rw [setObject_eq] at hx
  cases hx
  rw [object?_eq, object?_eq]
  dsimp only
  rw [lookup_update, if_neg hk]

/-- Word fields are checked against the payload exactly, for every offset whose field ends in a
machine word: a field inside the payload is read or replaced in place, and any other is refused
with the offset and `n - 7`, changing nothing. -/
theorem word_fields_bounds_checked (ht : m.object? ⟨.tuple, id⟩ = some (.tuple t))
    (offset handle : Nat) (hend : offset + Word.size ≤ wordLimit) :
    (offset + Word.size ≤ t.data.length →
      tupleReadHandle id offset m = .ok (Word.decode ((t.data.drop offset).take Word.size)) m ∧
      ∃ m' data, tupleWriteHandle id offset handle m = .ok () m' ∧
        m'.object? ⟨.tuple, id⟩ = some (.tuple { t with data }) ∧
        data.length = t.data.length ∧
        (∀ j, data[j]? = if offset ≤ j ∧ j < offset + Word.size then
          (Word.encode handle)[j - offset]? else t.data[j]?) ∧
        (∀ k : ObjectKey, k.id ≠ id → m'.object? k = m.object? k) ∧
        { m' with objects := m.objects } = m) ∧
    (t.data.length < offset + Word.size →
      tupleReadHandle id offset m =
        .error (.indexOutOfBounds offset (t.data.length - (Word.size - 1))) m ∧
      tupleWriteHandle id offset handle m =
        .error (.indexOutOfBounds offset (t.data.length - (Word.size - 1))) m) := by
  have hlen := Word.length_encode handle
  refine ⟨fun hfit => ?_, fun hshort => ?_⟩
  · have hfield := ByteTuple.field_ok hend hfit
    refine ⟨by rw [tupleReadHandle_stored ht, hfield]; rfl, ?_⟩
    have hx := tupleWriteHandle_stored ht offset handle
    rw [hfield] at hx
    let o : Obj := .tuple { t with data := Bytes.overwrite t.data offset (Word.encode handle) }
    have hset : setObject id o m = .ok () (final (setObject id o m)) := rfl
    refine ⟨_, Bytes.overwrite t.data offset (Word.encode handle), hx.trans hset, ?_, ?_,
      fun j => ?_, fun k hk => object?_setObject_ne hset hk, rfl⟩
    · exact object?_setObject (object?_eq_some.1 ht).1 hset
    · exact Bytes.length_overwrite _ _ _ (by rw [hlen]; exact hfit)
    · rw [Bytes.getElem?_overwrite (by rw [hlen]; exact hfit), hlen]
  · have hfield := ByteTuple.field_of_short hend hshort
    refine ⟨by rw [tupleReadHandle_stored ht, hfield]; rfl, ?_⟩
    rw [tupleWriteHandle_stored ht, hfield]

/-- The check at a word field of a fresh tuple of sixteen bytes, at its second word. -/
theorem word_fields_bounds_checked_second_word :
    ∃ m, tupleCreate 16 (Machine.new (.recorder {}) false) = .ok 1 m ∧
      m.object? ⟨.tuple, 1⟩ = some (.tuple { data := Bytes.zeros 16 }) ∧ 8 + Word.size ≤ wordLimit ∧
      (8 + Word.size ≤ (Bytes.zeros 16).length →
        tupleReadHandle 1 8 m = .ok (Word.decode (((Bytes.zeros 16).drop 8).take Word.size)) m ∧
        ∃ m' data, tupleWriteHandle 1 8 9 m = .ok () m' ∧
          m'.object? ⟨.tuple, 1⟩ = some (.tuple { data }) ∧
          data.length = (Bytes.zeros 16).length ∧
          (∀ j, data[j]? = if 8 ≤ j ∧ j < 8 + Word.size then
            (Word.encode 9)[j - 8]? else (Bytes.zeros 16)[j]?) ∧
          (∀ k : ObjectKey, k.id ≠ 1 → m'.object? k = m.object? k) ∧
          { m' with objects := m.objects } = m) ∧
      ((Bytes.zeros 16).length < 8 + Word.size →
        tupleReadHandle 1 8 m =
          .error (.indexOutOfBounds 8 ((Bytes.zeros 16).length - (Word.size - 1))) m ∧
        tupleWriteHandle 1 8 9 m =
          .error (.indexOutOfBounds 8 ((Bytes.zeros 16).length - (Word.size - 1))) m) := by
  refine ⟨_, rfl, rfl, by decide, ?_⟩
  exact word_fields_bounds_checked (t := { data := Bytes.zeros 16 }) rfl 8 9 (by decide)

/-- An offset whose field would end past the largest word aborts both requests on a stored tuple,
before the payload is looked at, and the program is left as it was. -/
theorem word_field_overflow_aborts (ht : m.object? ⟨.tuple, id⟩ = some (.tuple t))
    {offset : Nat} (handle : Nat) (hover : wordLimit < offset + Word.size) :
    tupleReadHandle id offset m = .error (.panic "attempt to add with overflow") m ∧
      tupleWriteHandle id offset handle m = .error (.panic "attempt to add with overflow") m := by
  have hfield := ByteTuple.field_of_overflow (t := t) hover
  refine ⟨by rw [tupleReadHandle_stored ht, hfield]; rfl, ?_⟩
  rw [tupleWriteHandle_stored ht, hfield]

/-- The largest offset on a fresh tuple of sixteen bytes. The field lies outside the payload, so a
bounds check alone would refuse it with `IndexOutOfBounds`; but its end `2 ^ 64 + 7` overflows a
word, and both requests abort the program. -/
theorem word_field_end_overflows :
    ∃ m, tupleCreate 16 (Machine.new (.recorder {}) false) = .ok 1 m ∧
      tupleReadHandle 1 (2 ^ 64 - 1) m = .error (.panic "attempt to add with overflow") m ∧
      tupleWriteHandle 1 (2 ^ 64 - 1) 0 m = .error (.panic "attempt to add with overflow") m :=
  ⟨_, rfl, word_field_overflow_aborts (t := { data := Bytes.zeros 16 }) rfl 0 (by decide)⟩

end Machine

end QuantumRuntime
