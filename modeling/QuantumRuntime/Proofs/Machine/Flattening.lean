import Mathlib
import QuantumRuntime.Proofs.Machine.Functors
import QuantumRuntime.Proofs.Machine.Slicing

/-!
# Flattening nested controls

A callable controlled `d` times takes its arguments as a chain of `d` tuples: each level before
the last is a tuple of two words, an array of control qubits and the next level, and the last
level is the tuple of the real arguments with its control array in its first word
(`Machine.ControlChain`). Before invoking such a callable with `d ≥ 2` the runtime flattens the
chain: it gathers the controls of every level, in order, into one new array and copies the
innermost tuple with that array in its first word. The entry runs once on the copy, and then both
temporaries are released, whatever the entry returned.

Reading the chain changes nothing and succeeds exactly on a well-formed chain; any other chain is
refused, as an invalid tuple or as a released object, before anything is created
(`controlLevels_cases`). On a well-formed chain the flattening stores exactly the two temporaries
under the next two ids (`flattenControls_of_chain`), and when the entry leaves the copy's first
word and the two reference counts as it found them, the cleanup removes exactly the two
(`invokeWith_of_chain`). The main statement is `control_flattening`.

All of it is about machines a program can reach (`Machine.Sound`): ids below the next one and a
tracker, if any, in agreement with the objects.
-/

namespace QuantumRuntime

namespace Word

theorem pow256_succ (i : Nat) : Nat.pow 256 (i + 1) = 256 * Nat.pow 256 i := Nat.mul_comm _ _

/-- The first `k` little-endian bytes of `n` spell `n` modulo `256 ^ k`. -/
theorem decode_map_range (n k : Nat) :
    decode ((List.range k).map fun i => UInt8.ofNat (n / Nat.pow 256 i)) = n % Nat.pow 256 k := by
  -- on `k + 1` the first byte is `n % 256` and the rest spell `n / 256` on `k` bytes
  induction k generalizing n with
  | zero => exact (Nat.mod_one n).symm
  | succ k ih =>
    have hshift : ∀ i, n / Nat.pow 256 (i + 1) = n / 256 / Nat.pow 256 i := fun i => by
      rw [Nat.div_div_eq_div_mul, pow256_succ]
    rw [List.range_succ_eq_map, List.map_cons, List.map_map, decode]
    simp only [Function.comp_def, Nat.succ_eq_add_one, hshift, ih]
    rw [pow256_succ, Nat.mod_mul]
    simp

/-- A word reads back the number it encodes, modulo `2 ^ 64`. -/
theorem decode_encode (n : Nat) : decode (encode n) = n % 2 ^ 64 := by
  rw [encode, decode_map_range]
  rfl

end Word

namespace Machine

variable {m : Machine}

/-! ### Machines a program can reach -/

/-- A machine a program can reach: its objects have ids below the next id, arrays hold their
qubits in shape, and the tracker, if any, agrees with the objects. -/
structure Sound (m : Machine) : Prop where
  owned : Owned m
  agrees : ∀ t, m.tracker = some t → Agrees t m

theorem Owned.id_lt_of_mem (h : Owned m) {p : Nat × Obj} (hp : p ∈ m.objects) :
    p.1 < m.nextId := by
  obtain ⟨o, ho⟩ := Option.isSome_iff_exists.1
    (List.lookup_isSome_iff.2 ⟨p, hp, beq_self_eq_true _⟩)
  exact h.ids_lt _ o ho

/-- Every machine a program builds from a fresh one is sound. -/
theorem sound_serveAll (backend : Backend) (track : Bool) (rs : List ObjectRequest) :
    Sound ((Machine.new backend track).serveAll rs) :=
  ⟨owned_serveAll (owned_new backend track) rs, agrees_serveAll backend track rs⟩

/-- A request that keeps both the ownership of qubits and the agreement of the tracker keeps a
machine sound, whether it succeeds or fails. -/
theorem Sound.final {α : Type} {x : Exec α} {P P' : Machine → Prop} {Q Q' : α → Machine → Prop}
    (hk : Keeps [] P x Q) (hh : Hands P' x Q') (hs : Sound m) (hp : P m) (hp' : P' m) :
    Sound (Machine.final (x m)) := by
  obtain ⟨gone, hover⟩ := hh.handover_final hs.owned hp'
  refine ⟨hover.owned, fun t ht => ?_⟩
  cases hm : m.tracker with
  | none =>
    rw [hover.untracked hm] at ht
    cases ht
  | some t₀ =>
    have hkeep := hk m ⟨t₀, hm, hs.agrees t₀ hm, List.nil_prefix⟩ hp
    have htrack : Tracking [] (Machine.final (x m)) := by
      cases hx : x m with
      | ok a m' =>
        rw [hx] at hkeep
        exact hkeep.1
      | error e m' =>
        rw [hx] at hkeep
        exact hkeep
    obtain ⟨t', ht', hag, -⟩ := htrack
    rw [ht] at ht'
    cases ht'
    exact hag

/-- The same, read at a known result. -/
theorem Sound.of_eq {α : Type} {x : Exec α} {P P' : Machine → Prop} {Q Q' : α → Machine → Prop}
    (hk : Keeps [] P x Q) (hh : Hands P' x Q') (hs : Sound m) (hp : P m) (hp' : P' m)
    {r : EStateM.Result MachineError Machine α} (hx : x m = r) : Sound (Machine.final r) :=
  hx ▸ Sound.final hk hh hs hp hp'

/-! ### Reading tuples and arrays -/

theorem attempt_of_ok {α : Type} {x : Exec α} {a : α} {m' : Machine} (h : x m = .ok a m') :
    attempt x m = .ok (.ok a) m' := by
  simp [attempt, h]

theorem attempt_of_error {α : Type} {x : Exec α} {e : MachineError} {m' : Machine}
    (h : x m = .error e m') : attempt x m = .ok (.error e) m' := by
  simp [attempt, h]

theorem getTuple_of_object? {id : Nat} {t : ByteTuple}
    (h : m.object? ⟨.tuple, id⟩ = some (.tuple t)) : getTuple id m = .ok t m := by
  unfold Machine.getTuple
  rw [run_bind, getObject_eq, h]
  rfl

theorem tupleData_of_object? {id : Nat} {t : ByteTuple}
    (h : m.object? ⟨.tuple, id⟩ = some (.tuple t)) : tupleData id m = .ok t.data m := by
  unfold Machine.tupleData
  rw [run_bind, getTuple_of_object? h]
  rfl

theorem tupleReadHandle_of_object? {id offset w : Nat} {t : ByteTuple}
    (h : m.object? ⟨.tuple, id⟩ = some (.tuple t)) (hw : t.readWord offset = .ok w) :
    tupleReadHandle id offset m = .ok w m := by
  unfold Machine.tupleReadHandle
  rw [run_bind, getTuple_of_object? h]
  show check (t.readWord offset) m = _
  rw [hw]
  rfl

theorem getCallable_of_object? {id : Nat} {c : Callable}
    (h : m.object? ⟨.callable, id⟩ = some (.callable c)) : getCallable id m = .ok c m := by
  unfold Machine.getCallable
  rw [run_bind, getObject_eq, h]
  rfl

theorem getArray_of_object? {id : Nat} {a : ItemArray}
    (h : m.object? ⟨.array, id⟩ = some (.array a)) : getArray id m = .ok a m := by
  rw [getArray_eq, (object?_eq_some.1 h).1]

/-- Reading a tuple changes nothing: it gives the stored tuple, or fails as released. -/
theorem getTuple_cases (id : Nat) (m : Machine) :
    (∃ t, m.object? ⟨.tuple, id⟩ = some (.tuple t) ∧ getTuple id m = .ok t m) ∨
      getTuple id m = .error (.released ⟨.tuple, id⟩) m := by
  unfold Machine.getTuple
  rw [run_bind, getObject_eq]
  cases ho : m.object? ⟨.tuple, id⟩ with
  | none => exact .inr rfl
  | some o =>
    cases o with
    | tuple t => exact .inl ⟨t, rfl, rfl⟩
    | array _ => exact .inr rfl
    | callable _ => exact .inr rfl

/-- Reading an array changes nothing: it gives the stored array, or fails as released. -/
theorem getArray_cases (id : Nat) (m : Machine) :
    (∃ a, m.object? ⟨.array, id⟩ = some (.array a) ∧ getArray id m = .ok a m) ∨
      getArray id m = .error (.released ⟨.array, id⟩) m := by
  unfold Machine.getArray
  rw [run_bind, getObject_eq]
  cases ho : m.object? ⟨.array, id⟩ with
  | none => exact .inr rfl
  | some o =>
    cases o with
    | array a => exact .inl ⟨a, rfl, rfl⟩
    | tuple _ => exact .inr rfl
    | callable _ => exact .inr rfl

/-- A word field that fits, at an offset whose end is a word, is read. -/
theorem readWord_of_le {t : ByteTuple} {offset : Nat} (hw : offset + Word.size ≤ wordLimit)
    (h : offset + Word.size ≤ t.data.length) : ∃ w, t.readWord offset = .ok w :=
  ⟨_, by rw [ByteTuple.readWord, ByteTuple.field_ok hw h]; rfl⟩

/-! ### Chains of controlled arguments -/

/-- `a` heads a well-formed chain of `d` levels of controlled arguments with the control arrays
`levels`, level by level, and the innermost tuple `inner` stored under `innerId`. A level before
the last is a tuple of two words, its control array and the next level; the last is a tuple of
at least one word, its control array first; every control array holds words. -/
inductive ControlChain (m : Machine) :
    Nat → Nat → List (Nat × ItemArray) → Nat → ByteTuple → Prop
  | last {a c : Nat} {t : ByteTuple} {arr : ItemArray} :
      m.object? ⟨.tuple, a⟩ = some (.tuple t) → Word.size ≤ t.data.length →
      t.readWord 0 = .ok c → m.object? ⟨.array, c⟩ = some (.array arr) →
      arr.itemSize = Word.size → ControlChain m 1 a [(c, arr)] a t
  | level {a c next d innerId : Nat} {t inner : ByteTuple} {arr : ItemArray}
      {levels : List (Nat × ItemArray)} :
      m.object? ⟨.tuple, a⟩ = some (.tuple t) → t.data.length = 2 * Word.size →
      t.readWord 0 = .ok c → m.object? ⟨.array, c⟩ = some (.array arr) →
      arr.itemSize = Word.size → t.readWord Word.size = .ok next →
      ControlChain m (d + 1) next levels innerId inner →
      ControlChain m (d + 2) a ((c, arr) :: levels) innerId inner

/-- The controls of a chain, level after level. -/
def controlWords (levels : List (Nat × ItemArray)) : List (List UInt8) :=
  levels.flatMap fun p => p.2.items

/-- The one-dimensional array of all the controls of a chain. -/
def joinedControls (levels : List (Nat × ItemArray)) : ItemArray :=
  { itemSize := Word.size, dims := [(controlWords levels).length], items := controlWords levels }

/-- The arguments the entry gets: the innermost tuple with the handle of the joined controls in
its first word. -/
def flatTuple (controls : Nat) (inner : ByteTuple) : ByteTuple :=
  { data := Word.encode controls ++ inner.data.drop Word.size }

/-- The first word of the flat copy names the joined controls, as far as a word can. -/
@[simp] theorem readWord_flatTuple (controls : Nat) (inner : ByteTuple) :
    (flatTuple controls inner).readWord 0 = .ok (controls % 2 ^ 64) := by
  have hlen : 0 + Word.size ≤ (flatTuple controls inner).data.length := by
    simp [flatTuple, Word.length_encode]
  have hfirst : ((flatTuple controls inner).data.drop 0).take Word.size = Word.encode controls := by
    simp [flatTuple, ← Word.length_encode controls]
  rw [ByteTuple.readWord, ByteTuple.field_ok (by decide) hlen, hfirst]
  exact congrArg Except.ok (Word.decode_encode controls)

/-- After its first word the flat copy holds the bytes of the innermost tuple. -/
@[simp] theorem drop_flatTuple (controls : Nat) (inner : ByteTuple) :
    (flatTuple controls inner).data.drop Word.size = inner.data.drop Word.size := by
  simp [flatTuple, ← Word.length_encode controls]

/-- Reading a well-formed chain gives its control arrays and its innermost tuple, and changes
nothing. -/
theorem controlLevels_of_chain {d a innerId : Nat} {levels : List (Nat × ItemArray)}
    {inner : ByteTuple} (h : ControlChain m d a levels innerId inner) (level : Nat) :
    controlLevels d level a m = .ok (levels.map Prod.fst, innerId) m := by
  induction h generalizing level with
  | last ht hsize hc harr hitem =>
    have hlt : ¬ _ < Word.size := Nat.not_lt.2 hsize
    rw [controlLevels]
    simp [tupleData_of_object? ht, tupleReadHandle_of_object? ht hc,
      getArray_of_object? harr, hitem, hlt]
  | level ht hsize hc harr hitem hnext _ ih =>
    have hlt : ¬ 2 * Word.size < Word.size := by decide
    rw [controlLevels]
    simp [tupleData_of_object? ht, tupleReadHandle_of_object? ht hc,
      getArray_of_object? harr, hitem, hsize, hlt, tupleReadHandle_of_object? ht hnext, ih]

/-! ### The store after flattening -/

theorem lookup_append_fresh {l : List (Nat × Obj)} {n : Nat} (hl : l.lookup n = none) (o : Obj) :
    (l ++ [(n, o)]).lookup n = some o := by
  rw [List.lookup_append, hl]
  simp

theorem lookup_append_of_ne {l : List (Nat × Obj)} {n i : Nat} (hi : i ≠ n) (o : Obj) :
    (l ++ [(n, o)]).lookup i = l.lookup i := by
  rw [List.lookup_append]
  cases l.lookup i with
  | some p => rfl
  | none =>
    have hne : (i == n) = false := beq_false_of_ne hi
    simp [List.lookup_cons, hne]

/-- Writing back under an id above every other leaves the others alone. -/
theorem map_update_append {l : List (Nat × Obj)} {n : Nat} (hl : ∀ p ∈ l, p.1 < n) (o o' : Obj) :
    (l ++ [(n, o)]).map (fun (i, p) => if i = n then (i, o') else (i, p)) = l ++ [(n, o')] := by
  rw [List.map_append]
  congr 1
  · conv_rhs => rw [← List.map_id l]
    refine List.map_congr_left fun p hp => ?_
    have hlt := hl p hp
    simp [Nat.ne_of_lt hlt]
  · simp

/-- Gathering the items of the arrays of a list of ids reads them in turn and changes nothing. -/
theorem flatMapM_of_reads {β γ : Type} {f : Nat → Exec (List γ)} {g : β → List γ}
    (ps : List (Nat × β)) (h : ∀ p ∈ ps, f p.1 m = .ok (g p.2) m) :
    (ps.map Prod.fst).flatMapM f m = .ok (ps.flatMap fun p => g p.2) m := by
  -- the loop carries the lists gathered so far, most recent first
  suffices hloop : ∀ acc, List.flatMapM.loop f (ps.map Prod.fst) acc m =
      .ok (acc.reverse.flatten ++ ps.flatMap fun p => g p.2) m by
    unfold List.flatMapM
    rw [hloop []]
    simp
  induction ps with
  | nil =>
    intro acc
    simp [List.flatMapM.loop]
  | cons p ps ih =>
    intro acc
    simp only [List.map_cons, List.flatMapM.loop, run_bind, h p List.mem_cons_self]
    rw [ih (fun q hq => h q (List.mem_cons_of_mem p hq))]
    simp

/-- With room for the buffer, a one-dimensional array of words is stored under the next id. -/
theorem arrayCreate1d_fresh (hs : Sound m) {n : Nat} (hfit : (bufferLength? Word.size [n]).isSome) :
    ∃ m', arrayCreate1d Word.size n m = .ok m.nextId m' ∧
      m'.objects = m.objects ++ [(m.nextId, .array (ItemArray.new Word.size [n]))] ∧
      m'.nextId = m.nextId + 1 := by
  obtain ⟨m', hins, hobj⟩ := insert_fresh hs.agrees (.array (ItemArray.new Word.size [n]))
  have hspec := insert_spec (.array (ItemArray.new Word.size [n])) m
  rw [hins] at hspec
  refine ⟨m', ?_, hobj, hspec.2.2.1⟩
  obtain ⟨len, hlen⟩ := Option.isSome_iff_exists.1 hfit
  have h8 : Word.size ≠ 0 := by decide
  simp [arrayCreate1d, arrayCreate, checkBuffer, hlen, insertArray, h8, hins]

theorem lookup_eq_none_of_lt {l : List (Nat × Obj)} {n : Nat} (hl : ∀ p ∈ l, p.1 < n) :
    l.lookup n = none := by
  cases hx : l.lookup n with
  | none => rfl
  | some o => exact absurd (hl _ (mem_of_lookup hx)) (Nat.lt_irrefl n)

/-- Writing a handle into the first word of a payload puts its eight bytes before the rest. -/
theorem overwrite_encode {data : List UInt8} (h : Word.size ≤ data.length) (w : Nat) :
    Bytes.overwrite data 0 (Word.encode w) = Word.encode w ++ data.drop Word.size := by
  have hlen := Word.length_encode w
  unfold Bytes.overwrite
  rw [List.take_zero, List.nil_append, Nat.zero_add, hlen, List.take_of_length_le]
  rw [List.length_append, List.length_drop, hlen]
  omega

/-- A forced copy of a stored tuple is a new tuple with its bytes under the next id. -/
theorem tupleCopy_fresh (hs : Sound m) {id : Nat} {t : ByteTuple}
    (ht : m.object? ⟨.tuple, id⟩ = some (.tuple t)) :
    ∃ m', tupleCopy id true m = .ok m.nextId m' ∧
      m'.objects = m.objects ++ [(m.nextId, .tuple { data := t.data })] ∧
      m'.nextId = m.nextId + 1 := by
  obtain ⟨m', hins, hobj⟩ := insert_fresh hs.agrees (.tuple { data := t.data })
  have hspec := insert_spec (.tuple { data := t.data }) m
  rw [hins] at hspec
  refine ⟨m', ?_, hobj, hspec.2.2.1⟩
  simp [tupleCopy, getTuple_of_object? ht, insertTuple, hins]

/-- Writing a handle into the first word of the tuple stored last, under an id above every other,
changes that tuple only. -/
theorem tupleWriteHandle_last {l : List (Nat × Obj)} {j : Nat} {t : ByteTuple}
    (hl : ∀ p ∈ l, p.1 < j) (hm : m.objects = l ++ [(j, .tuple t)])
    (hsize : Word.size ≤ t.data.length) (w : Nat) :
    tupleWriteHandle j 0 w m = .ok ()
      { m with
        objects := l ++ [(j, .tuple { t with data := Bytes.overwrite t.data 0 (Word.encode w) })] } := by
  have ht : m.object? ⟨.tuple, j⟩ = some (.tuple t) := by
    rw [object?_eq_some, hm, lookup_append_fresh (lookup_eq_none_of_lt hl)]
    exact ⟨rfl, rfl⟩
  have hw : t.writeWord 0 w = .ok { t with data := Bytes.overwrite t.data 0 (Word.encode w) } := by
    rw [ByteTuple.writeWord, ByteTuple.field_ok (by decide) (by omega)]
    rfl
  unfold Machine.tupleWriteHandle
  rw [run_bind, getTuple_of_object? ht]
  show (check (t.writeWord 0 w) >>= fun t' => setObject j (.tuple t')) m = _
  rw [hw, run_bind]
  show setObject j _ m = _
  rw [setObject_eq, hm, map_update_append hl]

/-! ### Chains of controlled arguments, continued -/

/-- The innermost tuple of a chain is stored and holds at least its first word. -/
theorem ControlChain.inner {d a innerId : Nat} {levels : List (Nat × ItemArray)}
    {inner : ByteTuple} (h : ControlChain m d a levels innerId inner) :
    m.object? ⟨.tuple, innerId⟩ = some (.tuple inner) ∧ Word.size ≤ inner.data.length := by
  induction h with
  | last ht hsize => exact ⟨ht, hsize⟩
  | level _ _ _ _ _ _ _ ih => exact ih

/-- Every control array of a chain is stored. -/
theorem ControlChain.arrays {d a innerId : Nat} {levels : List (Nat × ItemArray)}
    {inner : ByteTuple} (h : ControlChain m d a levels innerId inner) :
    ∀ p ∈ levels, m.object? ⟨.array, p.1⟩ = some (.array p.2) := by
  induction h with
  | last _ _ _ harr =>
    intro p hp
    rw [List.mem_singleton.1 hp]
    exact harr
  | level _ _ _ harr _ _ _ ih =>
    intro p hp
    rcases List.mem_cons.1 hp with rfl | hp
    · exact harr
    · exact ih p hp

/-- Reading the levels of a chain changes nothing: it succeeds exactly on a well-formed chain,
and refuses any other as an invalid tuple or as a released object. -/
theorem controlLevels_cases : ∀ (d level a : Nat),
    match controlLevels (d + 1) level a m with
    | .ok v m' => m' = m ∧ ∃ levels innerId inner,
        ControlChain m (d + 1) a levels innerId inner ∧ v = (levels.map Prod.fst, innerId)
    | .error e m' => m' = m ∧ (e.kind = "InvalidTuple" ∨ e.kind = "ReleasedObject") := by
  intro d
  induction d with
  | zero =>
    intro level a
    rw [controlLevels]
    obtain ⟨t, ht, -⟩ | hg := getTuple_cases a m
    · by_cases hs : t.data.length < Word.size
      · simp [tupleData_of_object? ht, hs, MachineError.kind]
      obtain ⟨c, hc⟩ : ∃ c, t.readWord 0 = .ok c := readWord_of_le (by decide) (by omega)
      obtain ⟨arr, harr, -⟩ | hga := getArray_cases c m
      · by_cases hi : arr.itemSize = Word.size
        · simp [tupleData_of_object? ht, tupleReadHandle_of_object? ht hc,
            getArray_of_object? harr, hi, hs]
          exact ⟨_, ⟨_, .last ht (Nat.not_lt.1 hs) hc harr hi⟩, rfl⟩
        · simp [tupleData_of_object? ht, tupleReadHandle_of_object? ht hc,
            getArray_of_object? harr, hi, hs, MachineError.kind]
      · simp [tupleData_of_object? ht, tupleReadHandle_of_object? ht hc, hga, hs,
          MachineError.kind]
    · simp [tupleData, hg, MachineError.kind]
  | succ d ih =>
    intro level a
    rw [controlLevels]
    obtain ⟨t, ht, -⟩ | hg := getTuple_cases a m
    · by_cases hs : t.data.length = 2 * Word.size
      · have hlt : ¬ 2 * Word.size < Word.size := by decide
        obtain ⟨c, hc⟩ : ∃ c, t.readWord 0 = .ok c :=
          readWord_of_le (by decide) (by rw [hs]; decide)
        obtain ⟨next, hnext⟩ : ∃ next, t.readWord Word.size = .ok next :=
          readWord_of_le (by decide) (by rw [hs]; rfl)
        obtain ⟨arr, harr, -⟩ | hga := getArray_cases c m
        · by_cases hi : arr.itemSize = Word.size
          · -- a level before the last: the rest of the chain is read from its second word
            have hrec := ih (level + 1) next
            cases hx : controlLevels (d + 1) (level + 1) next m with
            | ok v m' =>
              rw [hx] at hrec
              obtain ⟨rfl, levels, innerId, inner, hchain, rfl⟩ := hrec
              simp [tupleData_of_object? ht, tupleReadHandle_of_object? ht hc,
                getArray_of_object? harr, hi, hs, hlt, tupleReadHandle_of_object? ht hnext, hx]
              exact ⟨_, ⟨_, .level ht hs hc harr hi hnext hchain⟩, rfl⟩
            | error e m' =>
              rw [hx] at hrec
              obtain ⟨rfl, hkind⟩ := hrec
              simp [tupleData_of_object? ht, tupleReadHandle_of_object? ht hc,
                getArray_of_object? harr, hi, hs, hlt, tupleReadHandle_of_object? ht hnext, hx]
              exact hkind
          · simp [tupleData_of_object? ht, tupleReadHandle_of_object? ht hc,
              getArray_of_object? harr, hi, hs, hlt, MachineError.kind]
        · simp [tupleData_of_object? ht, tupleReadHandle_of_object? ht hc, hga, hs, hlt,
            MachineError.kind]
      · simp [tupleData_of_object? ht, hs, MachineError.kind]
    · simp [tupleData, hg, MachineError.kind]

/-! ### Flattening a well-formed chain -/

/-- The joined array is created under the next id as a zeroed array of words and then filled with
the controls, whatever the flattening does next. -/
theorem storeJoined (hs : Sound m) (levels : List (Nat × ItemArray))
    (hfit : (bufferLength? Word.size [(controlWords levels).length]).isSome) :
    ∃ mb, (∀ {β : Type} (k : Nat → Exec β), (do
        let controls ← arrayCreate1d Word.size (controlWords levels).length
        let a ← getArray controls
        setObject controls (.array { a with items := controlWords levels })
        k controls) m = k m.nextId mb) ∧
      mb.objects = m.objects ++ [(m.nextId, .array (joinedControls levels))] ∧
      mb.nextId = m.nextId + 1 ∧ Sound mb := by
  have hids : ∀ p ∈ m.objects, p.1 < m.nextId := fun p hp => hs.owned.id_lt_of_mem hp
  obtain ⟨ma, hca, hobja, hnexta⟩ := arrayCreate1d_fresh hs hfit
  have hsa : Sound ma :=
    Sound.of_eq (Keeps.arrayCreate1d (P := fun _ => True) _ _)
      (Hands.arrayCreate1d (P := fun _ => True) _ _) hs trivial trivial hca
  have hla : ma.objects.lookup m.nextId =
      some (.array (ItemArray.new Word.size [(controlWords levels).length])) := by
    rw [hobja]
    exact lookup_append_fresh (lookup_eq_none_of_lt hids) _
  have hga : ma.object? ⟨.array, m.nextId⟩ =
      some (.array (ItemArray.new Word.size [(controlWords levels).length])) :=
    object?_eq_some.2 ⟨hla, rfl⟩
  -- the controls are written over the zeroed items of the new array
  have hjoined : ({ ItemArray.new Word.size [(controlWords levels).length] with
      items := controlWords levels } : ItemArray) = joinedControls levels := rfl
  have hset := setObject_eq m.nextId (.array (joinedControls levels)) ma
  rw [hobja, map_update_append hids] at hset
  refine ⟨{ ma with objects := m.objects ++ [(m.nextId, .array (joinedControls levels))] },
    fun k => ?_, rfl, hnexta, ?_⟩
  · rw [run_bind, hca]
    dsimp only
    rw [run_bind, getArray_of_object? hga]
    dsimp only
    rw [run_bind, hjoined, hset]
  · exact Sound.of_eq
      (Keeps.writeBack (Q := fun _ => True) (o := .array (joinedControls levels))
        (p := .array (ItemArray.new Word.size [(controlWords levels).length])) rfl rfl)
      (Hands.setItems (a := ItemArray.new Word.size [(controlWords levels).length])
        (controlWords levels)) hsa ⟨trivial, hga⟩
      ⟨by simp [heldQubits, hla, Obj.held, ItemArray.new], hga⟩ hset

/-- Flattening a well-formed chain whose controls fit in an array stores exactly two objects
under the next two ids: the array of all the controls, level after level, and a copy of the
innermost tuple whose first word names that array. Nothing stored before changes. -/
theorem flattenControls_of_chain (hs : Sound m) {d a innerId : Nat}
    {levels : List (Nat × ItemArray)} {inner : ByteTuple}
    (hchain : ControlChain m d a levels innerId inner)
    (hfit : (bufferLength? Word.size [(controlWords levels).length]).isSome) :
    ∃ m₁, flattenControls a d m = .ok (m.nextId + 1) m₁ ∧ m₁.nextId = m.nextId + 2 ∧
      m₁.objects = m.objects ++ [(m.nextId, .array (joinedControls levels)),
        (m.nextId + 1, .tuple (flatTuple m.nextId inner))] ∧ Sound m₁ := by
  obtain ⟨hinner, hsize⟩ := hchain.inner
  have hids : ∀ p ∈ m.objects, p.1 < m.nextId := fun p hp => hs.owned.id_lt_of_mem hp
  -- the control arrays are read in turn, and nothing changes
  have hwords : List.flatMapM (fun id => (getArray id >>= fun a => pure a.items :
      Exec (List (List UInt8)))) (levels.map Prod.fst) m = .ok (controlWords levels) m :=
    flatMapM_of_reads levels fun p hp => by simp [getArray_of_object? (hchain.arrays p hp)]
  obtain ⟨mb, hjoin, hobjb, hnextb, hsb⟩ := storeJoined hs levels hfit
  -- the innermost tuple is copied under the id after
  have hinnerLt : innerId < m.nextId := hs.owned.ids_lt _ _ (object?_eq_some.1 hinner).1
  have hib : mb.object? ⟨.tuple, innerId⟩ = some (.tuple inner) := by
    rw [object?_eq_some, hobjb, lookup_append_of_ne (Nat.ne_of_lt hinnerLt)]
    exact object?_eq_some.1 hinner
  obtain ⟨mc, hcc, hobjc, hnextc⟩ := tupleCopy_fresh hsb hib
  rw [hnextb] at hcc hobjc hnextc
  have hidsb : ∀ p ∈ mb.objects, p.1 < m.nextId + 1 := by
    intro p hp
    rw [hobjb] at hp
    rcases List.mem_append.1 hp with hp | hp
    · exact Nat.lt_succ_of_lt (hids p hp)
    · rw [List.mem_singleton.1 hp]
      exact Nat.lt_succ_self _
  -- and its first word is set to the joined array
  have hwc := tupleWriteHandle_last hidsb hobjc hsize m.nextId
  rw [overwrite_encode hsize] at hwc
  have hflat : flattenControls a d m = .ok (m.nextId + 1)
      { mc with objects := mb.objects ++ [(m.nextId + 1, .tuple (flatTuple m.nextId inner))] } := by
    unfold Machine.flattenControls
    rw [run_bind, controlLevels_of_chain hchain]
    dsimp only
    rw [run_bind, hwords]
    dsimp only
    rw [hjoin]
    rw [run_bind, attempt_of_ok hcc]
    dsimp only
    rw [run_bind, attempt_of_ok hwc]
    rfl
  refine ⟨_, hflat, hnextc, ?_,
    Sound.of_eq (Keeps.flattenControls (P := fun _ => True) a d)
      (Hands.flattenControls (P := fun _ => True) a d) hs trivial trivial hflat⟩
  simp [hobjb]

/-! ### Releasing the temporaries -/

/-- The machine with the object of `k` removed and a tracker, if any, counting it as released. -/
def discard (k : ObjectKey) (m : Machine) : Machine :=
  { m with
    tracker := m.tracker.map fun t => t.put k 0
    objects := m.objects.filter fun p => p.1 ≠ k.id }

theorem lookup_discard_of_ne {k : ObjectKey} {i : Nat} (h : i ≠ k.id) :
    (m.discard k).objects.lookup i = m.objects.lookup i :=
  lookup_filter_ne h m.objects

theorem object?_discard_of_ne {k k' : ObjectKey} (h : k'.id ≠ k.id) :
    (m.discard k).object? k' = m.object? k' := by
  simp only [object?, lookup_discard_of_ne h]

/-- Dropping the one reference of an object removes it. -/
theorem releaseRefs_one (hs : Sound m) {k : ObjectKey} {o : Obj} (ho : m.object? k = some o)
    (h1 : o.counts.refs = 1) : releaseRefs k 1 m = .ok (some o) (m.discard k) := by
  cases hm : m.tracker with
  | some t =>
    have h := releaseRefs_eq_remove hm (hs.agrees t hm) ho (n := 0) h1
    simpa [discard, hm] using h
  | none => simp [releaseRefs, ho, hm, h1, removeObject_eq, discard]

/-- Dropping the one reference of an array that owns no qubits removes it and nothing else. -/
theorem arrayUpdateRefs_release (hs : Sound m) {id : Nat} {a : ItemArray}
    (ha : m.object? ⟨.array, id⟩ = some (.array a)) (h1 : a.counts.refs = 1)
    (hown : a.ownsQubits = false) :
    arrayUpdateRefs (some id) (-1) m = .ok () (m.discard ⟨.array, id⟩) := by
  simp [arrayUpdateRefs, updateRefs, releaseRefs_one hs ha h1, hown]

/-- Dropping the one reference of a tuple removes it. -/
theorem tupleUpdateRefs_release (hs : Sound m) {id : Nat} {t : ByteTuple}
    (ht : m.object? ⟨.tuple, id⟩ = some (.tuple t)) (h1 : t.counts.refs = 1) :
    tupleUpdateRefs (some id) (-1) m = .ok () (m.discard ⟨.tuple, id⟩) := by
  simp [tupleUpdateRefs, updateRefs, releaseRefs_one hs ht h1]

/-- An array that holds no qubits in the sense of the handover owns none. -/
theorem ownsQubits_of_heldQubits {id : Nat} {a : ItemArray}
    (ha : m.object? ⟨.array, id⟩ = some (.array a)) (h : m.heldQubits id = none) :
    a.ownsQubits = false := by
  have hl := (object?_eq_some.1 ha).1
  simpa [heldQubits, hl, Obj.held] using h

/-! ### Invoking with a chain of controls -/

/-- What the cleanup after an entry relies on: the copy under `n + 1` still names the array `n`
in its first word, and both still hold only the reference the flattening gave them. -/
structure Temporaries (n : Nat) (m : Machine) : Prop where
  copy : ∃ t, m.object? ⟨.tuple, n + 1⟩ = some (.tuple t) ∧ t.readWord 0 = .ok n ∧
    t.counts.refs = 1
  controls : ∃ a, m.object? ⟨.array, n⟩ = some (.array a) ∧ a.counts.refs = 1

/-- Right after the flattening the copy names the joined array in its first word and both hold
their one reference, as long as ids fit in a word: an entry that leaves the two alone leaves the
cleanup what it relies on. -/
theorem temporaries_of_flatten (hs : Sound m) (hid : m.nextId < 2 ^ 64) {m₁ : Machine}
    {levels : List (Nat × ItemArray)} {inner : ByteTuple}
    (hobj : m₁.objects = m.objects ++ [(m.nextId, .array (joinedControls levels)),
      (m.nextId + 1, .tuple (flatTuple m.nextId inner))]) :
    Temporaries m.nextId m₁ := by
  have hfresh : m.objects.lookup m.nextId = none := hs.owned.lookup_nextId
  have hfresh' : m.objects.lookup (m.nextId + 1) = none :=
    lookup_eq_none_of_lt fun p hp => Nat.lt_succ_of_lt (hs.owned.id_lt_of_mem hp)
  refine ⟨⟨flatTuple m.nextId inner, ?_, ?_, rfl⟩, ⟨joinedControls levels, ?_, rfl⟩⟩
  · have hne : (m.nextId + 1 == m.nextId) = false := beq_false_of_ne (Nat.succ_ne_self _)
    rw [object?_eq_some, hobj]
    simp [List.lookup_append, hfresh', List.lookup, Obj.kind, hne]
  · rw [readWord_flatTuple, Nat.mod_eq_of_lt hid]
  · rw [object?_eq_some, hobj]
    simp [List.lookup_append, hfresh, List.lookup, Obj.kind]

/-- The cleanup after the entry: the copy's first word is read back and both temporaries lose
their one reference, so both are removed; the array owns no qubits, so no qubit is freed. -/
theorem release_temporaries (hs : Sound m) {n : Nat} (ht : Temporaries n m)
    (hheld : m.heldQubits n = none) {β : Type} (k : Exec β) :
    (do
      let controls ← tupleReadHandle (n + 1) 0
      arrayUpdateRefs (some controls) (-1)
      tupleUpdateRefs (some (n + 1)) (-1)
      k) m = k ((m.discard ⟨.array, n⟩).discard ⟨.tuple, n + 1⟩) := by
  obtain ⟨⟨t, ht, hw, hrt⟩, ⟨a, ha, hra⟩⟩ := ht
  have hrel := arrayUpdateRefs_release hs ha hra (ownsQubits_of_heldQubits ha hheld)
  have hs' : Sound (m.discard ⟨.array, n⟩) :=
    Sound.of_eq (Keeps.arrayUpdateRefs (P := fun _ => True) _ _)
      (Hands.arrayUpdateRefs (P := fun _ => True) _ _) hs trivial trivial hrel
  -- the array goes first, and the copy is still there when its turn comes
  have hcopy : (m.discard ⟨.array, n⟩).object? ⟨.tuple, n + 1⟩ = some (.tuple t) :=
    (object?_discard_of_ne (Nat.succ_ne_self n)).trans ht
  rw [run_bind, tupleReadHandle_of_object? ht hw]
  dsimp only
  rw [run_bind, hrel]
  dsimp only
  rw [run_bind, tupleUpdateRefs_release hs' hcopy hrt]

/-- Invoking a callable controlled at least twice flattens the arguments, runs the entry on the
flat copy, and releases both temporaries before giving the entry's outcome. -/
theorem invokeWith_flattens {fuel id a : Nat} {result : Option Nat} {c : Callable} {r : Routine}
    (hc : m.object? ⟨.callable, id⟩ = some (.callable c)) (hr : c.routine = .ok r)
    (hd : 2 ≤ c.depth) :
    invokeWith (fuel + 1) id (some a) result m = (do
      let flat ← flattenControls a c.depth
      let outcome ← attempt (runRoutine (invokeWith fuel) r c.capture (some flat) result)
      let controls ← tupleReadHandle flat 0
      arrayUpdateRefs (some controls) (-1)
      tupleUpdateRefs (some flat) (-1)
      check outcome) m := by
  rw [invokeWith, run_bind, getCallable_of_object? hc]
  dsimp only
  rw [run_bind, hr]
  simp only [check, run_pure]
  rw [if_neg (by omega), if_neg (by omega)]

/-- Invoking a callable controlled at least twice on a well-formed chain whose controls fit in an
array, on a machine whose ids fit in a word. The flattening stores the joined array and the flat
copy under the next two ids and changes nothing stored before; the entry runs once, on the copy;
and, provided it left the copy's first word and both counts as it found them, both temporaries
are released after it, whether it succeeded or failed, and its outcome is given back. -/
theorem invokeWith_of_chain (hs : Sound m) {fuel id a : Nat} {result : Option Nat} {c : Callable}
    {r : Routine} (hc : m.object? ⟨.callable, id⟩ = some (.callable c)) (hr : c.routine = .ok r)
    (hd : 2 ≤ c.depth) {levels : List (Nat × ItemArray)} {innerId : Nat} {inner : ByteTuple}
    (hchain : ControlChain m c.depth a levels innerId inner)
    (hfit : (bufferLength? Word.size [(controlWords levels).length]).isSome)
    (hid : m.nextId < 2 ^ 64) :
    ∃ m₁, m₁.objects = m.objects ++ [(m.nextId, .array (joinedControls levels)),
        (m.nextId + 1, .tuple (flatTuple m.nextId inner))] ∧ m₁.nextId = m.nextId + 2 ∧
      Temporaries m.nextId m₁ ∧ ∀ res, runRoutine (invokeWith fuel) r c.capture (some (m.nextId + 1)) result m₁ = res →
        Temporaries m.nextId (Machine.final res) →
        invokeWith (fuel + 1) id (some a) result m = match res with
          | .ok _ m₂ => .ok () ((m₂.discard ⟨.array, m.nextId⟩).discard ⟨.tuple, m.nextId + 1⟩)
          | .error e m₂ =>
            .error e ((m₂.discard ⟨.array, m.nextId⟩).discard ⟨.tuple, m.nextId + 1⟩) := by
  obtain ⟨m₁, hflat, hnext, hobj, hs₁⟩ := flattenControls_of_chain hs hchain hfit
  refine ⟨m₁, hobj, hnext, temporaries_of_flatten hs hid hobj, fun res hres hleft => ?_⟩
  have hk : Keeps [] (fun _ => True)
      (runRoutine (invokeWith fuel) r c.capture (some (m.nextId + 1)) result) fun _ _ => True :=
    Keeps.runRoutine (fun i args out => Keeps.invokeWith fuel i args out) r _ _ _
  have hh := Hands.runRoutine (P := fun _ => True)
    (fun i args out => Hands.invokeWith fuel i args out) r c.capture (some (m.nextId + 1)) result
  have hs₂ : Sound (Machine.final res) := Sound.of_eq hk hh hs₁ trivial trivial hres
  -- the joined array owns no qubits after the flattening, and the entry cannot make it own any
  have hheld₁ : m₁.heldQubits m.nextId = none := by
    simp [heldQubits, hobj, List.lookup_append, hs.owned.lookup_nextId, joinedControls, Obj.held]
  have hheld₂ : (Machine.final res).heldQubits m.nextId = none := by
    obtain ⟨gone, hover⟩ := hh.handover_final hs₁.owned trivial
    rw [hres] at hover
    cases h : (Machine.final res).heldQubits m.nextId with
    | none => rfl
    | some qs =>
      rw [hover.held_of_held _ _ h] at hheld₁
      cases hheld₁
  rw [invokeWith_flattens hc hr hd, run_bind, hflat]
  dsimp only
  rw [run_bind]
  cases res with
  | ok u m₂ =>
    rw [attempt_of_ok hres]
    exact release_temporaries hs₂ hleft hheld₂ _
  | error e m₂ =>
    rw [attempt_of_error hres]
    exact release_temporaries hs₂ hleft hheld₂ _

/-- Flattening a chain that is not well formed fails, as an invalid tuple or as a released
object, and leaves the machine as it was: nothing is created. -/
theorem flattenControls_of_malformed {d a : Nat}
    (hbad : ∀ levels innerId inner, ¬ ControlChain m (d + 1) a levels innerId inner) :
    ∃ e, flattenControls a (d + 1) m = .error e m ∧
      (e.kind = "InvalidTuple" ∨ e.kind = "ReleasedObject") := by
  have hcases := controlLevels_cases (m := m) d 0 a
  unfold Machine.flattenControls
  rw [run_bind]
  cases hx : controlLevels (d + 1) 0 a m with
  | ok v m' =>
    rw [hx] at hcases
    obtain ⟨-, levels, innerId, inner, hchain, -⟩ := hcases
    exact absurd hchain (hbad levels innerId inner)
  | error e m' =>
    rw [hx] at hcases
    obtain ⟨rfl, hkind⟩ := hcases
    exact ⟨e, rfl, hkind⟩

/-- A callable controlled at least twice refuses a chain that is not well formed before its entry
runs, and leaves the machine as it was. -/
theorem invokeWith_of_malformed {fuel id a : Nat} {result : Option Nat} {c : Callable}
    {r : Routine} (hc : m.object? ⟨.callable, id⟩ = some (.callable c)) (hr : c.routine = .ok r)
    (hd : 2 ≤ c.depth)
    (hbad : ∀ levels innerId inner, ¬ ControlChain m c.depth a levels innerId inner) :
    ∃ e, invokeWith (fuel + 1) id (some a) result m = .error e m ∧
      (e.kind = "InvalidTuple" ∨ e.kind = "ReleasedObject") := by
  obtain ⟨d, hdd⟩ : ∃ d, c.depth = d + 1 := ⟨c.depth - 1, by omega⟩
  rw [hdd] at hbad
  obtain ⟨e, hf, hkind⟩ := flattenControls_of_malformed hbad
  refine ⟨e, ?_, hkind⟩
  rw [invokeWith_flattens hc hr hd, run_bind, hdd, hf]

/-! ### Callables controlled at most once -/

section Shallow

variable {fuel id : Nat} {result : Option Nat} {c : Callable} {r : Routine}

/-- A callable that is not controlled gets its arguments as they are. -/
theorem invokeWith_depth_zero (hc : m.object? ⟨.callable, id⟩ = some (.callable c))
    (hr : c.routine = .ok r) (hd : c.depth = 0) (args : Option Nat) :
    invokeWith (fuel + 1) id args result m =
      runRoutine (invokeWith fuel) r c.capture args result m := by
  simp only [invokeWith, run_bind, getCallable_of_object? hc, hr, check, run_pure, hd, if_true]

/-- A callable controlled once gets its tuple of controls and arguments as it is. -/
theorem invokeWith_depth_one (hc : m.object? ⟨.callable, id⟩ = some (.callable c))
    (hr : c.routine = .ok r) (hd : c.depth = 1) (a : Nat) :
    invokeWith (fuel + 1) id (some a) result m =
      runRoutine (invokeWith fuel) r c.capture (some a) result m := by
  simp only [invokeWith, run_bind, getCallable_of_object? hc, hr, check, run_pure, hd, if_true,
    one_ne_zero, if_false]

/-- A controlled callable invoked without arguments is refused, and nothing changes. -/
theorem invokeWith_without_args (hc : m.object? ⟨.callable, id⟩ = some (.callable c))
    (hr : c.routine = .ok r) (hd : c.depth ≠ 0) :
    invokeWith (fuel + 1) id none result m =
      .error (.invalidTuple "controlled callable invoked without arguments") m := by
  simp only [invokeWith, run_bind, getCallable_of_object? hc, hr, check, run_pure, hd, if_false]
  rfl

end Shallow

/-! ### Invocation by depth -/

/-- How a callable's entry gets its arguments, by how many times the callable was controlled.
Not controlled, it gets them as they are; controlled once, it gets the tuple of controls and
arguments as it is; controlled at all, it is refused without arguments. Controlled at least twice, a chain that is not well
formed is refused, as an invalid tuple or as a released object, before the entry runs and with
nothing created. On a well-formed chain whose controls fit in an array, with ids that fit in a
word, the joined controls and the flat copy are stored under the next two ids and nothing stored
before changes; the entry runs once, on the copy, which then names the joined array in its first
word; and when the entry left that word and both counts alone, both temporaries are released
after it, whatever it returned. -/
theorem control_flattening (hs : Sound m) {fuel id : Nat} {result : Option Nat} {c : Callable}
    {r : Routine} (hc : m.object? ⟨.callable, id⟩ = some (.callable c)) (hr : c.routine = .ok r) :
    (c.depth = 0 → ∀ args, invokeWith (fuel + 1) id args result m =
        runRoutine (invokeWith fuel) r c.capture args result m) ∧
    (c.depth = 1 → ∀ a, invokeWith (fuel + 1) id (some a) result m =
        runRoutine (invokeWith fuel) r c.capture (some a) result m) ∧
    (c.depth ≠ 0 → ∃ e, invokeWith (fuel + 1) id none result m = .error e m ∧
        e.kind = "InvalidTuple") ∧
    (2 ≤ c.depth → ∀ a, (∀ levels innerId inner, ¬ ControlChain m c.depth a levels innerId inner) →
      ∃ e, invokeWith (fuel + 1) id (some a) result m = .error e m ∧
        (e.kind = "InvalidTuple" ∨ e.kind = "ReleasedObject")) ∧
    (2 ≤ c.depth → ∀ a levels innerId inner, ControlChain m c.depth a levels innerId inner →
      (bufferLength? Word.size [(controlWords levels).length]).isSome → m.nextId < 2 ^ 64 →
      ∃ m₁, m₁.objects = m.objects ++ [(m.nextId, .array (joinedControls levels)),
          (m.nextId + 1, .tuple (flatTuple m.nextId inner))] ∧ m₁.nextId = m.nextId + 2 ∧
        Temporaries m.nextId m₁ ∧
        ∀ res, runRoutine (invokeWith fuel) r c.capture (some (m.nextId + 1)) result m₁ = res →
          Temporaries m.nextId (Machine.final res) →
          invokeWith (fuel + 1) id (some a) result m = match res with
            | .ok _ m₂ => .ok () ((m₂.discard ⟨.array, m.nextId⟩).discard ⟨.tuple, m.nextId + 1⟩)
            | .error e m₂ =>
              .error e ((m₂.discard ⟨.array, m.nextId⟩).discard ⟨.tuple, m.nextId + 1⟩)) :=
  ⟨fun hd args => invokeWith_depth_zero hc hr hd args,
    fun hd a => invokeWith_depth_one hc hr hd a,
    fun hd => ⟨_, invokeWith_without_args hc hr hd, rfl⟩,
    fun hd _ hbad => invokeWith_of_malformed hc hr hd hbad,
    fun hd _ _ _ _ hchain hfit hid => invokeWith_of_chain hs hc hr hd hchain hfit hid⟩

/-- The statement at a callable created with a body and a controlled entry that both fail, and
controlled twice. -/
theorem control_flattening_twice_controlled :
    let m := (Machine.new (.recorder {}) false).serveAll
      [.callableCreate { body := some .fail, controlled := some .fail } none none,
        .makeControlled 1, .makeControlled 1]
    let c : Callable :=
      { table := { body := some .fail, controlled := some .fail }, applied := 2, depth := 2 }
    (c.depth = 0 → ∀ args, invokeWith 4 1 args none m =
        runRoutine (invokeWith 3) .fail c.capture args none m) ∧
    (c.depth = 1 → ∀ a, invokeWith 4 1 (some a) none m =
        runRoutine (invokeWith 3) .fail c.capture (some a) none m) ∧
    (c.depth ≠ 0 → ∃ e, invokeWith 4 1 none none m = .error e m ∧ e.kind = "InvalidTuple") ∧
    (2 ≤ c.depth → ∀ a, (∀ levels innerId inner, ¬ ControlChain m c.depth a levels innerId inner) →
      ∃ e, invokeWith 4 1 (some a) none m = .error e m ∧
        (e.kind = "InvalidTuple" ∨ e.kind = "ReleasedObject")) ∧
    (2 ≤ c.depth → ∀ a levels innerId inner, ControlChain m c.depth a levels innerId inner →
      (bufferLength? Word.size [(controlWords levels).length]).isSome → m.nextId < 2 ^ 64 →
      ∃ m₁, m₁.objects = m.objects ++ [(m.nextId, .array (joinedControls levels)),
          (m.nextId + 1, .tuple (flatTuple m.nextId inner))] ∧ m₁.nextId = m.nextId + 2 ∧
        Temporaries m.nextId m₁ ∧
        ∀ res, runRoutine (invokeWith 3) .fail c.capture (some (m.nextId + 1)) none m₁ = res →
          Temporaries m.nextId (Machine.final res) →
          invokeWith 4 1 (some a) none m = match res with
            | .ok _ m₂ => .ok () ((m₂.discard ⟨.array, m.nextId⟩).discard ⟨.tuple, m.nextId + 1⟩)
            | .error e m₂ =>
              .error e ((m₂.discard ⟨.array, m.nextId⟩).discard ⟨.tuple, m.nextId + 1⟩)) :=
  control_flattening (sound_serveAll _ _ _) (by decide) rfl

end Machine

end QuantumRuntime
