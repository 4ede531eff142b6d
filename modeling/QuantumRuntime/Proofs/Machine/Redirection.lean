import Mathlib
import QuantumRuntime.Machine.Messages
import QuantumRuntime.Proofs.Machine.Keeps

/-!
# Redirected output nests

Messages go to the sink on top of the redirect stack, when it takes them. A redirect pushes a
sink and hands back a token holding the depth it created; restoring a token flushes the sink on
top and pops it when the token's depth is the current depth, and is refused otherwise.
`withOutput` pushes a sink for as long as a body runs and restores it on every exit path; a
sink whose flush fails stays on the stack, and the flush's error is passed on.

A program that redirects its output is an `OutputScript`: it redirects, restores the tokens it
holds, sends messages, fails, and runs blocks under `withOutput`. The tokens a program
holds stay in step with the stack (`Held`): each names the sink at the position its depth gives.
So restoring a held token pops exactly its own sink or fails, and a block can never
reach below its sink: it leaves the older sinks' texts alone, and its sink receives exactly the
messages the block sends while that sink is on top (`OutputScript.heard`). The main statement is
`Machine.output_redirection_nests`.
-/

namespace QuantumRuntime

namespace Output

/-! ### The redirect stack -/

section Stack

variable (o : Output) (s : Sink)

@[simp] theorem push_fst : (o.push s).1 = (o.sinks.length, ⟨o.stack.length + 1⟩) := rfl

@[simp] theorem stack_push : (o.push s).2.stack = o.stack ++ [o.sinks.length] := rfl

@[simp] theorem sinks_push : (o.push s).2.sinks = o.sinks ++ [s] := rfl

/-- A push keeps the text of every sink; the new one holds what the sink held. -/
theorem text_push (j : Nat) :
    (o.push s).2.text j = if j = o.sinks.length then s.text else o.text j := by
  simp only [text, sinks_push]
  rcases Nat.lt_trichotomy j o.sinks.length with h | rfl | h
  · rw [List.getD_append _ _ _ _ h, if_neg (Nat.ne_of_lt h)]
  · simp
  · rw [if_neg (Nat.ne_of_gt h), List.getD_eq_default _ _ (by simp; omega),
      List.getD_eq_default _ _ (by omega)]

theorem text_push_of_lt {j : Nat} (h : j < o.sinks.length) : (o.push s).2.text j = o.text j := by
  rw [text_push, if_neg (Nat.ne_of_lt h)]

/-- What an accepted write does: it appends the text to the sink on top, or to the console, and
keeps the stack and the number of sinks. -/
structure Wrote (o : Output) (t : String) (o' : Output) : Prop where
  stack_eq : o'.stack = o.stack
  length_sinks : o'.sinks.length = o.sinks.length
  text_eq : (∀ k ∈ o.stack, k < o.sinks.length) →
    ∀ j, o'.text j = if o.stack.getLast? = some j then o.text j ++ t else o.text j

/-- A write is accepted when the current sink takes writes, and refused with its error
otherwise. -/
theorem write_cases (t : String) :
    (o.current.writeError = none ∧ ∃ o', o.write t = .ok o' ∧ o.Wrote t o') ∨
      ∃ d, o.current.writeError = some d ∧ o.write t = .error (.io d) := by
  cases hw : o.current.writeError with
  | some d =>
    refine .inr ⟨d, rfl, ?_⟩
    unfold write
    split <;> simp [Sink.write, hw, Except.map]
  | none =>
    refine .inl ⟨rfl, ?_⟩
    have hwrite : o.current.write t = .ok { o.current with text := o.current.text ++ t } := by
      simp [Sink.write, hw]
    cases htop : o.stack.getLast? with
    | none =>
      refine ⟨{ o with console := { o.current with text := o.current.text ++ t } }, ?_,
        ⟨rfl, rfl, fun _ j => by simp [text, htop]⟩⟩
      simp only [write, htop, hwrite, Except.map]
    | some k =>
      refine ⟨{ o with sinks := o.sinks.set k { o.current with text := o.current.text ++ t } },
        ?_, ⟨rfl, by simp, fun hlt j => ?_⟩⟩
      · simp only [write, htop, hwrite, Except.map]
      -- the written sink is the one on top, which is a sink that was pushed
      have hk : k < o.sinks.length := hlt k (List.mem_of_getLast? htop)
      have hcur : o.current = o.sinks.getD k {} := by simp [current, htop]
      by_cases hkj : k = j
      · subst hkj
        simp [text, hcur, hk, htop]
      · simp [text, htop, hkj]

/-- A restore pops the top sink when the token's depth is the current depth and the sink on top
flushes. A failed flush gives its error and a refused token an `outputRedirect` error. -/
theorem restore_cases (r : Redirect) :
    (r.depth = o.stack.length ∧ o.current.flush = .ok () ∧ ∃ k, o.stack.getLast? = some k ∧
      o.restore r = .ok (k, { o with stack := o.stack.dropLast })) ∨
    (r.depth = o.stack.length ∧ ∃ e, o.current.flush = .error e ∧ o.restore r = .error e) ∨
    ((r.depth ≠ o.stack.length ∨ o.stack = []) ∧
      ∃ text, o.restore r = .error (.outputRedirect text)) := by
  unfold restore
  by_cases hd : r.depth = o.stack.length
  · rw [if_neg (not_not.2 hd)]
    cases hf : o.current.flush with
    | error e => exact .inr (.inl ⟨hd, e, rfl, rfl⟩)
    | ok u =>
      cases hk : o.stack.getLast? with
      | none => exact .inr (.inr ⟨.inr (List.getLast?_eq_none_iff.1 hk), _, rfl⟩)
      | some k => exact .inl ⟨hd, rfl, k, rfl, rfl⟩
  · rw [if_pos hd]
    exact .inr (.inr ⟨.inl hd, _, rfl⟩)

/-- A restore either pops the sink on top, at the token's depth, or fails and changes nothing. -/
theorem restore_pops_or_fails (r : Redirect) :
    (r.depth = o.stack.length ∧ ∃ k, o.stack.getLast? = some k ∧
      o.restore r = .ok (k, { o with stack := o.stack.dropLast })) ∨
    ∃ e, o.restore r = .error e := by
  rcases o.restore_cases r with ⟨hd, -, k, hk, hr⟩ | ⟨-, e, -, hr⟩ | ⟨-, text, hr⟩
  · exact .inl ⟨hd, k, hk, hr⟩
  · exact .inr ⟨e, hr⟩
  · exact .inr ⟨_, hr⟩

/-- A restore of the sink on top, with the token its push handed out: it pops the sink when the
sink flushes, and gives the flush's error otherwise. -/
theorem restore_top {st : List Nat} {k : Nat} (hs : o.stack = st ++ [k]) :
    o.restore ⟨st.length + 1⟩ = match o.current.flush with
      | .ok () => .ok (k, { o with stack := st })
      | .error e => .error e := by
  have hd : (⟨st.length + 1⟩ : Redirect).depth = o.stack.length := by simp [hs]
  rcases o.restore_cases ⟨st.length + 1⟩ with ⟨-, hf, k', hk', hr⟩ | ⟨-, e, hf, hr⟩ | ⟨hd', -, -⟩
  · rw [hs, List.getLast?_append, List.getLast?_singleton, Option.some_or,
      Option.some.injEq] at hk'
    subst hk'
    rw [hr, hf, hs, List.dropLast_concat]
  · rw [hr, hf]
  · rcases hd' with hd' | hd'
    · exact absurd hd hd'
    · simp [hs] at hd'

end Stack

/-! ### Tokens in step with the stack -/

/-- The tokens a program holds, each with the sink it restores, are in step with the stack: the
stack holds sinks that were pushed, each once, and each token's sink is on the stack at the
position its depth gives. -/
structure Held (o : Output) (ts : List (Nat × Redirect)) : Prop where
  nodup : o.stack.Nodup
  lt : ∀ k ∈ o.stack, k < o.sinks.length
  at_depth : ∀ k r, (k, r) ∈ ts → 0 < r.depth ∧ o.stack[r.depth - 1]? = some k

section Held

variable {o o' : Output} {ts : List (Nat × Redirect)}

theorem held_nil (hs : o.stack = []) : o.Held [] where
  nodup := by simp [hs]
  lt k hk := by simp [hs] at hk
  at_depth _ _ h := absurd h List.not_mem_nil

theorem Held.depth_le (h : o.Held ts) {k : Nat} {r : Redirect} (hk : (k, r) ∈ ts) :
    r.depth ≤ o.stack.length := by
  obtain ⟨hpos, hat⟩ := h.at_depth k r hk
  have := (List.getElem?_eq_some_iff.1 hat).1
  omega

theorem Held.mono (h : o.Held ts) {ts' : List (Nat × Redirect)} (hs : ∀ t ∈ ts', t ∈ ts) :
    o.Held ts' :=
  ⟨h.nodup, h.lt, fun k r hk => h.at_depth k r (hs _ hk)⟩

/-- A push keeps every token in step, and the token it hands out restores the new sink. -/
theorem Held.push (h : o.Held ts) (s : Sink) : (o.push s).2.Held (ts ++ [(o.push s).1]) where
  nodup := by
    have hfresh : o.sinks.length ∉ o.stack := fun hm => Nat.lt_irrefl _ (h.lt _ hm)
    simp only [stack_push, List.nodup_append, h.nodup, List.nodup_singleton, List.mem_singleton,
      true_and]
    intro k hk j hj hkj
    exact hfresh (hj ▸ hkj ▸ hk)
  lt k hk := by
    rw [stack_push, List.mem_append, List.mem_singleton] at hk
    rcases hk with hk | rfl
    · simpa using Nat.lt_succ_of_lt (h.lt k hk)
    · simp
  at_depth k r hk := by
    rw [List.mem_append, List.mem_singleton] at hk
    rcases hk with hk | hk
    · obtain ⟨hpos, hat⟩ := h.at_depth k r hk
      have hlt := (List.getElem?_eq_some_iff.1 hat).1
      exact ⟨hpos, by rw [stack_push, List.getElem?_append_left hlt, hat]⟩
    · simp only [push_fst, Prod.mk.injEq] at hk
      obtain ⟨rfl, rfl⟩ := hk
      simp

theorem Held.write {t : String} (h : o.Held ts) (hw : o.Wrote t o') : o'.Held ts := by
  refine ⟨?_, ?_, ?_⟩ <;> rw [hw.stack_eq]
  · exact h.nodup
  · rw [hw.length_sinks]
    exact h.lt
  · exact h.at_depth

/-- Popping the top sink keeps in step every token that restores a sink below it. -/
theorem Held.pop (h : o.Held ts) (hd : ∀ k r, (k, r) ∈ ts → r.depth < o.stack.length) :
    ({ o with stack := o.stack.dropLast } : Output).Held ts where
  nodup := h.nodup.sublist (List.dropLast_sublist _)
  lt k hk := h.lt k ((List.dropLast_sublist _).subset hk)
  at_depth k r hk := by
    obtain ⟨hpos, hat⟩ := h.at_depth k r hk
    have hlt := hd k r hk
    refine ⟨hpos, ?_⟩
    rw [List.getElem?_dropLast, if_pos (by omega), hat]

/-- Restoring a held token at the current depth finds its own sink on top, and pops it when it
flushes. Otherwise the restore is refused. -/
theorem Held.restore (h : o.Held ts) {k : Nat} {r : Redirect} (hk : (k, r) ∈ ts) :
    (r.depth = o.stack.length ∧ o.stack.getLast? = some k ∧
      o.restore r = match o.current.flush with
        | .ok () => .ok (k, { o with stack := o.stack.dropLast })
        | .error e => .error e) ∨
    (r.depth ≠ o.stack.length ∧ ∃ text, o.restore r = .error (.outputRedirect text)) := by
  obtain ⟨hpos, hat⟩ := h.at_depth k r hk
  rcases o.restore_cases r with ⟨hd, hf, k', hk', hr⟩ | ⟨hd, e, hf, hr⟩ | ⟨hd, text, hr⟩
  · -- the token's sink sits at the top position, so it is the sink on top
    have htop : o.stack.getLast? = some k := by rw [List.getLast?_eq_getElem?, ← hd, hat]
    rw [htop, Option.some.injEq] at hk'
    subst hk'
    exact .inl ⟨hd, htop, by rw [hr, hf]⟩
  · have htop : o.stack.getLast? = some k := by rw [List.getLast?_eq_getElem?, ← hd, hat]
    exact .inl ⟨hd, htop, by rw [hr, hf]⟩
  · refine .inr ⟨fun hd' => ?_, text, hr⟩
    rcases hd with hd | hd
    · exact hd hd'
    · simp [hd] at hat

/-- After a restore of a held token, the tokens left are in step with the popped stack. -/
theorem Held.restore_filter (h : o.Held ts) {k : Nat} {r : Redirect} (hk : (k, r) ∈ ts)
    (hd : r.depth = o.stack.length) :
    ({ o with stack := o.stack.dropLast } : Output).Held (ts.filter fun t => t.1 != k) := by
  refine (h.mono fun t ht => List.mem_of_mem_filter ht).pop fun k' r' hk' => ?_
  have hne : k' ≠ k := by simpa using (List.mem_filter.1 hk').2
  have hk'' := (List.mem_filter.1 hk').1
  rcases Nat.lt_or_eq_of_le (h.depth_le hk'') with hlt | heq
  · exact hlt
  · -- a second token at the top depth would name the same sink
    have h₁ := (h.at_depth k' r' hk'').2
    have h₂ := (h.at_depth k r hk).2
    rw [heq, ← hd, h₂, Option.some.injEq] at h₁
    exact absurd h₁.symm hne

end Held

/-! ### Runs that keep the bottom of the stack -/

/-- The stack keeps its first `F` sinks for as long as the program runs: the sinks above them were
pushed after the first `n` sinks, and no token held restores the `F`-th, the top kept one. -/
structure Within (o : Output) (F n : Nat) (ts : List (Nat × Redirect)) : Prop where
  floor : F ≤ o.stack.length
  fresh : ∀ i k, F ≤ i → o.stack[i]? = some k → n ≤ k
  le_length : n ≤ o.sinks.length
  depth_ne : ∀ k r, (k, r) ∈ ts → r.depth ≠ F

/-- What a run that keeps the first `F` sinks of the stack leaves: those sinks, and the text of
each of the first `n` sinks except the top kept one, the only old sink it may write to. -/
structure Confined (F n : Nat) (o o' : Output) : Prop where
  kept : o'.stack.take F = o.stack.take F
  floor : F ≤ o'.stack.length
  texts : ∀ j < n, (o.stack.take F).getLast? ≠ some j → o'.text j = o.text j

section Confined

variable {o o' o₁ o₂ : Output} {F n : Nat} {ts : List (Nat × Redirect)}

theorem Confined.refl (h : F ≤ o.stack.length) : Confined F n o o := ⟨rfl, h, fun _ _ _ => rfl⟩

theorem Confined.trans (h₁ : Confined F n o o₁) (h₂ : Confined F n o₁ o₂) : Confined F n o o₂ where
  kept := h₂.kept.trans h₁.kept
  floor := h₂.floor
  texts j hj hk := by
    rw [h₂.texts j hj (by rwa [h₁.kept]), h₁.texts j hj hk]

theorem confined_push (h : F ≤ o.stack.length) (hn : n ≤ o.sinks.length) (s : Sink) :
    Confined F n o (o.push s).2 where
  kept := by rw [stack_push, List.take_append_of_le_length h]
  floor := by simp; omega
  texts _ hj _ := text_push_of_lt o s (by omega)

/-- A message written to the top sink leaves every other sink alone: the top is the top kept sink
or one pushed after the first `n`. -/
theorem Within.confined_write {t : String} (hw : o.Within F n ts) (hh : o.Held ts)
    (hwr : o.Wrote t o') : Confined F n o o' where
  kept := by rw [hwr.stack_eq]
  floor := by rw [hwr.stack_eq]; exact hw.floor
  texts j hj hk := by
    rw [hwr.text_eq hh.lt j]
    cases htop : o.stack.getLast? with
    | none => simp
    | some k =>
      have hkj : k ≠ j := by
        rcases Nat.lt_or_eq_of_le hw.floor with hlt | heq
        · -- the top sits above the kept sinks, so it was pushed after the first `n`
          have hnk := hw.fresh (o.stack.length - 1) k (by omega)
            (by rwa [List.getLast?_eq_getElem?] at htop)
          omega
        · rintro rfl
          rw [heq, List.take_length] at hk
          exact hk htop
      simp [hkj]

/-- Popping a sink above the kept ones keeps them and every text. -/
theorem confined_pop (h : F < o.stack.length) :
    Confined F n o { o with stack := o.stack.dropLast } where
  kept := by rw [List.dropLast_eq_take, List.take_take, Nat.min_eq_left (by omega)]
  floor := by simp; omega
  texts _ _ _ := rfl

/-- A run one level up, from the stack with a sink pushed and keeping all of it, keeps the
first `F` sinks of the stack below; when it has come back to that level, the stack is the one it
started from. -/
theorem Confined.of_pushed {s : Sink}
    (h : Confined (o.stack.length + 1) (o.sinks.length + 1) (o.push s).2 o₂)
    (hF : F ≤ o.stack.length) (hn : n ≤ o.sinks.length) :
    Confined F n o o₂ ∧
      (o₂.stack.length = o.stack.length + 1 → o₂.stack = o.stack ++ [o.sinks.length]) := by
  have hkept : o₂.stack.take (o.stack.length + 1) = o.stack ++ [o.sinks.length] := by
    rw [h.kept, stack_push, List.take_of_length_le (by simp)]
  refine ⟨⟨?_, ?_, fun j hj hk => ?_⟩, fun hlen => ?_⟩
  · have htake := congrArg (List.take F) hkept
    rwa [List.take_take, Nat.min_eq_left (by omega), List.take_append_of_le_length hF] at htake
  · have := h.floor
    omega
  · -- the old sinks lie below the pushed one, which is the only one the run may write to
    rw [h.texts j (by omega) (by simp [stack_push, List.take_of_length_le]; omega),
      text_push_of_lt o s (by omega)]
  · rwa [← hlen, List.take_length] at hkept

/-- The tokens a program holds keep the first `F` sinks after a push that hands out a new token. -/
theorem Within.push (hw : o.Within F n ts) (s : Sink) :
    (o.push s).2.Within F n (ts ++ [(o.push s).1]) where
  floor := by have := hw.floor; simp; omega
  fresh i k hi hk := by
    rw [stack_push] at hk
    rcases Nat.lt_or_ge i o.stack.length with hlt | hge
    · rw [List.getElem?_append_left hlt] at hk
      exact hw.fresh i k hi hk
    · have hi' : i = o.stack.length := by
        have := (List.getElem?_eq_some_iff.1 hk).1
        simp at this
        omega
      subst hi'
      simp at hk
      exact hk ▸ hw.le_length
  le_length := by have := hw.le_length; simp; omega
  depth_ne k r hk := by
    rw [List.mem_append, List.mem_singleton] at hk
    rcases hk with hk | hk
    · exact hw.depth_ne k r hk
    · simp only [push_fst, Prod.mk.injEq] at hk
      obtain ⟨-, rfl⟩ := hk
      have := hw.floor
      simp only
      omega

theorem Within.write {t : String} (hw : o.Within F n ts) (hwr : o.Wrote t o') :
    o'.Within F n ts := by
  refine ⟨?_, ?_, ?_, hw.depth_ne⟩
  · rw [hwr.stack_eq]
    exact hw.floor
  · rw [hwr.stack_eq]
    exact hw.fresh
  · rw [hwr.length_sinks]
    exact hw.le_length

theorem Within.mono (hw : o.Within F n ts) {ts' : List (Nat × Redirect)} (hs : ∀ t ∈ ts', t ∈ ts) :
    o.Within F n ts' :=
  ⟨hw.floor, hw.fresh, hw.le_length, fun k r hk => hw.depth_ne k r (hs _ hk)⟩

/-- A sink popped by a held token lies above the kept ones. -/
theorem Within.floor_lt (hw : o.Within F n ts) {k : Nat} {r : Redirect} (hk : (k, r) ∈ ts)
    (hd : r.depth = o.stack.length) : F < o.stack.length :=
  lt_of_le_of_ne hw.floor fun h => hw.depth_ne k r hk (hd.trans h.symm)

theorem Within.pop (hw : o.Within F n ts) (hF : F < o.stack.length) :
    ({ o with stack := o.stack.dropLast } : Output).Within F n ts where
  floor := by simp; omega
  fresh i k hi hk := by
    rw [List.getElem?_dropLast] at hk
    split at hk
    · exact hw.fresh i k hi hk
    · cases hk
  le_length := hw.le_length
  depth_ne := hw.depth_ne

end Confined

end Output

namespace Machine

/-! ### The requests on output -/

section Requests

variable {α : Type} (s : Sink)

theorem redirectOutput_eq (m : Machine) :
    redirectOutput s m = .ok (m.output.push s).1 { m with output := (m.output.push s).2 } := rfl

theorem restoreOutput_eq (r : Redirect) (m : Machine) :
    restoreOutput r m = match m.output.restore r with
      | .ok (k, o) => .ok k { m with output := o }
      | .error e => .error e m := by
  unfold restoreOutput
  rw [run_bind, run_get]
  dsimp only
  cases m.output.restore r with
  | ok p => rfl
  | error e => rfl

theorem message_eq (id : Nat) (m : Machine) :
    message id m = match m.strings.lookup id with
      | some e => match m.output.write (e.text ++ "\n") with
        | .ok o => .ok () { m with output := o }
        | .error err => .error err m
      | none => .error (.released ⟨.string, id⟩) m := by
  unfold message stringText getString
  simp only [run_bind, run_get]
  cases m.strings.lookup id with
  | none => rfl
  | some e =>
    simp only [run_pure]
    cases m.output.write (e.text ++ "\n") with
    | ok o => simp only [check, run_pure, run_modify]
    | error err => simp only [check, run_throw]

theorem failWith_eq (id : Nat) (m : Machine) : ∃ e, (failWith id : Exec α) m = .error e m := by
  unfold failWith stringText getString
  simp only [run_bind, run_get]
  cases m.strings.lookup id with
  | some e => exact ⟨_, rfl⟩
  | none => exact ⟨_, rfl⟩

/-- A scoped body runs on the machine with the sink pushed, and the sink is restored after it
whatever the body gives; the body's error wins over the restore's. -/
theorem withOutput_eq (f : Exec α) (m : Machine) :
    withOutput s f m = match f { m with output := (m.output.push s).2 } with
      | .ok a m₂ => match restoreOutput ⟨m.output.stack.length + 1⟩ m₂ with
        | .ok _ m₃ => .ok (a, m.output.sinks.length) m₃
        | .error e m₃ => .error e m₃
      | .error e m₂ => .error e (final (restoreOutput ⟨m.output.stack.length + 1⟩ m₂)) := by
  cases hf : f { m with output := (m.output.push s).2 } with
  | ok a m₂ =>
    cases hr : restoreOutput ⟨m.output.stack.length + 1⟩ m₂ <;>
      simp [withOutput, underRedirect, attempt, redirectOutput_eq, hf, hr, check, Except.map]
  | error e m₂ =>
    cases hr : restoreOutput ⟨m.output.stack.length + 1⟩ m₂ <;>
      simp [withOutput, underRedirect, attempt, redirectOutput_eq, hf, hr, check, Except.map, final]

/-- The restore after a body that leaves the stack as it found it pops the sink when the sink
flushes, and otherwise fails with the flush's error and leaves the sink on the stack. -/
theorem restoreOutput_balanced {m m₂ : Machine}
    (hs : m₂.output.stack = m.output.stack ++ [m.output.sinks.length]) :
    restoreOutput ⟨m.output.stack.length + 1⟩ m₂ = match m₂.output.current.flush with
      | .ok () => .ok m.output.sinks.length
          { m₂ with output := { m₂.output with stack := m.output.stack } }
      | .error e => .error e m₂ := by
  rw [restoreOutput_eq, Output.restore_top _ hs]
  cases m₂.output.current.flush <;> rfl

/-- A body that leaves the stack as it found it and succeeds gets its value with the sink, on
the machine it left with the sink popped, once the sink flushes. -/
theorem withOutput_ok_of_balanced {f : Exec α} {m m₂ : Machine} {a : α}
    (hf : f { m with output := (m.output.push s).2 } = .ok a m₂)
    (hs : m₂.output.stack = m.output.stack ++ [m.output.sinks.length]) :
    withOutput s f m = match m₂.output.current.flush with
      | .ok () => .ok (a, m.output.sinks.length)
          { m₂ with output := { m₂.output with stack := m.output.stack } }
      | .error e => .error e m₂ := by
  rw [withOutput_eq, hf]
  dsimp only
  rw [restoreOutput_balanced hs]
  cases m₂.output.current.flush <;> rfl

/-- A body that leaves the stack as it found it and fails has its error passed on, on the
machine it left with the sink popped once the sink flushes. -/
theorem withOutput_error_of_balanced {f : Exec α} {m m₂ : Machine} {e : MachineError}
    (hf : f { m with output := (m.output.push s).2 } = .error e m₂)
    (hs : m₂.output.stack = m.output.stack ++ [m.output.sinks.length]) :
    withOutput s f m = .error e (match m₂.output.current.flush with
      | .ok () => { m₂ with output := { m₂.output with stack := m.output.stack } }
      | .error _ => m₂) := by
  rw [withOutput_eq, hf]
  dsimp only
  rw [restoreOutput_balanced hs]
  cases m₂.output.current.flush <;> rfl

/-- Whichever way the body ends, `withOutput` ends on the machine the restore after the body
leaves. -/
theorem final_withOutput (f : Exec α) (m : Machine) :
    final (withOutput s f m) =
      final (restoreOutput ⟨m.output.stack.length + 1⟩
        (final (f { m with output := (m.output.push s).2 }))) := by
  rw [withOutput_eq]
  cases f { m with output := (m.output.push s).2 } with
  | ok a m₂ =>
    change _ = final (restoreOutput ⟨m.output.stack.length + 1⟩ m₂)
    dsimp only
    cases restoreOutput ⟨m.output.stack.length + 1⟩ m₂ <;> rfl
  | error e m₂ => rfl

/-- After a body that leaves the stack as it found it, the sink is popped exactly when it
flushes. -/
theorem stack_final_withOutput {f : Exec α} {m : Machine}
    (hs : (final (f { m with output := (m.output.push s).2 })).output.stack =
      m.output.stack ++ [m.output.sinks.length]) :
    (final (withOutput s f m)).output.stack =
      match (final (f { m with output := (m.output.push s).2 })).output.current.flush with
      | .ok () => m.output.stack
      | .error _ => m.output.stack ++ [m.output.sinks.length] := by
  rw [final_withOutput, restoreOutput_balanced hs]
  cases (final (f { m with output := (m.output.push s).2 })).output.current.flush with
  | ok u => rfl
  | error e => exact hs

/-- A restore writes to no sink. -/
theorem text_final_restoreOutput (r : Redirect) (m : Machine) (j : Nat) :
    (final (restoreOutput r m)).output.text j = m.output.text j := by
  rw [restoreOutput_eq]
  rcases m.output.restore_pops_or_fails r with ⟨-, k, -, h⟩ | ⟨e, h⟩ <;> rw [h] <;> rfl

/-- The texts after `withOutput` are those the body left. -/
theorem text_final_withOutput (f : Exec α) (m : Machine) (j : Nat) :
    (final (withOutput s f m)).output.text j =
      (final (f { m with output := (m.output.push s).2 })).output.text j := by
  rw [final_withOutput, text_final_restoreOutput]

end Requests

end Machine

/-! ### Programs that redirect their output -/

/-- A program that sends messages and redirects them. Tokens are named by the sink they restore; a
block runs its body with output sent to a sink, the way `withOutput` does, and then goes on. -/
inductive OutputScript where
  | done
  | redirect (s : Sink) (rest : OutputScript)
  | restore (sink : Nat) (rest : OutputScript)
  | message (id : Nat) (rest : OutputScript)
  | fail (id : Nat)
  | block (s : Sink) (body rest : OutputScript)
deriving DecidableEq, Repr

namespace OutputScript

/-- Redirects output to a sink and keeps the token. -/
def redirectStep (s : Sink) (ts : List (Nat × Redirect)) : Exec (List (Nat × Redirect)) := do
  let (sink, r) ← Machine.redirectOutput s
  pure (ts ++ [(sink, r)])

/-- Gives back the token of a sink and uses it up. A token the program does not hold cannot be
given back, and nothing happens. -/
def restoreStep (sink : Nat) (ts : List (Nat × Redirect)) : Exec (List (Nat × Redirect)) :=
  match ts.lookup sink with
  | some r => do
    let _ ← Machine.restoreOutput r
    pure (ts.filter fun t => t.1 != sink)
  | none => pure ts

/-- Sends the text of a string. -/
def messageStep (id : Nat) (ts : List (Nat × Redirect)) : Exec (List (Nat × Redirect)) := do
  Machine.message id
  pure ts

/-- Runs a body with output sent to a sink, and keeps the tokens the body ends with. -/
def scopedStep (s : Sink) (body : List (Nat × Redirect) → Exec (List (Nat × Redirect)))
    (ts : List (Nat × Redirect)) : Exec (List (Nat × Redirect)) := do
  let (ts, _) ← Machine.withOutput s (body ts)
  pure ts

/-- Runs a program holding the tokens `ts`, up to its first failure; gives the tokens it holds at
the end. -/
def run : OutputScript → List (Nat × Redirect) → Exec (List (Nat × Redirect))
  | done, ts => pure ts
  | redirect s rest, ts => redirectStep s ts >>= rest.run
  | restore sink rest, ts => restoreStep sink ts >>= rest.run
  | message id rest, ts => messageStep id ts >>= rest.run
  | fail id, _ => Machine.failWith id
  | block s body rest, ts => scopedStep s body.run ts >>= rest.run

section Steps

variable {ts : List (Nat × Redirect)} {m : Machine}

theorem redirectStep_eq (s : Sink) (ts : List (Nat × Redirect)) (m : Machine) :
    redirectStep s ts m =
      .ok (ts ++ [(m.output.push s).1]) { m with output := (m.output.push s).2 } := rfl

theorem messageStep_eq (id : Nat) (ts : List (Nat × Redirect)) (m : Machine) :
    messageStep id ts m = match m.strings.lookup id with
      | some e => match m.output.write (e.text ++ "\n") with
        | .ok o => .ok ts { m with output := o }
        | .error err => .error err m
      | none => .error (.released ⟨.string, id⟩) m := by
  unfold messageStep
  rw [Machine.run_bind, Machine.message_eq]
  cases m.strings.lookup id with
  | none => rfl
  | some e =>
    dsimp only
    cases m.output.write (e.text ++ "\n") <;> rfl

/-- Restoring a held token at the current depth pops its own sink and uses the token up when the
sink flushes. Every other restore fails and leaves the machine as it was. -/
theorem restoreStep_of_held (hh : m.output.Held ts) {k : Nat} {r : Redirect}
    (hl : ts.lookup k = some r) :
    (r.depth = m.output.stack.length ∧ m.output.stack.getLast? = some k ∧
      restoreStep k ts m = .ok (ts.filter fun t => t.1 != k)
        { m with output := { m.output with stack := m.output.stack.dropLast } }) ∨
    ∃ e, restoreStep k ts m = .error e m := by
  unfold restoreStep
  rw [hl]
  dsimp only
  rw [Machine.run_bind, Machine.restoreOutput_eq]
  rcases hh.restore (mem_of_lookup hl) with ⟨hd, htop, hr⟩ | ⟨-, text, hr⟩
  · rw [hr]
    cases m.output.current.flush with
    | ok u => exact .inl ⟨hd, htop, rfl⟩
    | error e => exact .inr ⟨e, rfl⟩
  · rw [hr]
    exact .inr ⟨_, rfl⟩

end Steps

/-! ### Programs keep the stack below them -/

/-- A request, run on the tokens a program holds, keeps the first `F` sinks of the stack. From
tokens in step with the stack that keep them, it leaves the output confined above them, whether it
succeeds or fails; when it succeeds, its tokens are still in step and keep them, and each was held
before or restores a sink above them. -/
def Confines (F n : Nat) (x : List (Nat × Redirect) → Exec (List (Nat × Redirect))) : Prop :=
  ∀ ts m, m.output.Held ts → m.output.Within F n ts →
    Output.Confined F n m.output (Machine.final (x ts m)).output ∧
    ∀ ts' m', x ts m = .ok ts' m' →
      m'.output.Held ts' ∧ m'.output.Within F n ts' ∧ ∀ t ∈ ts', t ∈ ts ∨ F < t.2.depth

section Confines

variable {F n : Nat}

theorem confines_pure : Confines F n pure := by
  intro ts m hh hw
  refine ⟨.refl hw.floor, fun ts' m' h => ?_⟩
  cases h
  exact ⟨hh, hw, fun t ht => .inl ht⟩

theorem Confines.bind {x y : List (Nat × Redirect) → Exec (List (Nat × Redirect))}
    (hx : Confines F n x) (hy : Confines F n y) : Confines F n fun ts => x ts >>= y := by
  intro ts m hh hw
  obtain ⟨hc, hok⟩ := hx ts m hh hw
  simp only [Machine.run_bind]
  cases hxr : x ts m with
  | ok ts₁ m₁ =>
    obtain ⟨hh₁, hw₁, ho₁⟩ := hok ts₁ m₁ hxr
    obtain ⟨hc₁, hok₁⟩ := hy ts₁ m₁ hh₁ hw₁
    rw [hxr] at hc
    refine ⟨hc.trans hc₁, fun ts' m' h => ?_⟩
    obtain ⟨hh', hw', ho'⟩ := hok₁ ts' m' h
    refine ⟨hh', hw', fun t ht => ?_⟩
    rcases ho' t ht with h₁ | h₁
    · exact ho₁ t h₁
    · exact .inr h₁
  | error e m₁ =>
    rw [hxr] at hc
    exact ⟨hc, fun ts' m' h => by cases h⟩

theorem confines_redirectStep (s : Sink) : Confines F n (redirectStep s) := by
  intro ts m hh hw
  rw [redirectStep_eq]
  refine ⟨Output.confined_push hw.floor hw.le_length s, fun ts' m' h => ?_⟩
  cases h
  refine ⟨hh.push s, hw.push s, fun t ht => ?_⟩
  rcases List.mem_append.1 ht with h | h
  · exact .inl h
  · -- the new token restores the sink just pushed, above the kept ones
    rw [List.mem_singleton] at h
    subst h
    have := hw.floor
    simp only [Output.push_fst]
    omega

theorem confines_restoreStep (sink : Nat) : Confines F n (restoreStep sink) := by
  intro ts m hh hw
  cases hl : ts.lookup sink with
  | none =>
    have hstep : restoreStep sink ts = pure ts := by simp [restoreStep, hl]
    rw [hstep]
    exact confines_pure ts m hh hw
  | some r =>
    have hk := mem_of_lookup hl
    rcases restoreStep_of_held hh hl with ⟨hd, -, hr⟩ | ⟨e, hr⟩
    · have hF := hw.floor_lt hk hd
      rw [hr]
      refine ⟨Output.confined_pop hF, fun ts' m' h => ?_⟩
      cases h
      have hsub : ∀ t ∈ ts.filter (fun t => t.1 != sink), t ∈ ts :=
        fun t ht => List.mem_of_mem_filter ht
      exact ⟨hh.restore_filter hk hd, (hw.pop hF).mono hsub, fun t ht => .inl (hsub t ht)⟩
    · rw [hr]
      exact ⟨.refl hw.floor, fun ts' m' h => by cases h⟩

theorem confines_messageStep (id : Nat) : Confines F n (messageStep id) := by
  intro ts m hh hw
  rw [messageStep_eq]
  cases m.strings.lookup id with
  | some e =>
    dsimp only
    rcases m.output.write_cases (e.text ++ "\n") with ⟨-, o', hwr, hwrote⟩ | ⟨d, -, hwr⟩
    · rw [hwr]
      refine ⟨hw.confined_write hh hwrote, fun ts' m' h => ?_⟩
      cases h
      exact ⟨hh.write hwrote, hw.write hwrote, fun t ht => .inl ht⟩
    · rw [hwr]
      exact ⟨.refl hw.floor, fun ts' m' h => by cases h⟩
  | none => exact ⟨.refl hw.floor, fun ts' m' h => by cases h⟩

theorem confines_failWith (id : Nat) : Confines F n fun _ => Machine.failWith id := by
  intro ts m hh hw
  obtain ⟨e, he⟩ := Machine.failWith_eq (α := List (Nat × Redirect)) id m
  dsimp only
  rw [he]
  exact ⟨.refl hw.floor, fun ts' m' h => by cases h⟩

/-- A block runs its body one level up: on the stack with the block's sink pushed, all of which
the body keeps, from tokens that are still in step. -/
theorem held_pushed {ts : List (Nat × Redirect)} {o : Output} (hh : o.Held ts) (s : Sink) :
    (o.push s).2.Held ts :=
  (hh.push s).mono fun _ ht => List.mem_append_left _ ht

theorem within_pushed {ts : List (Nat × Redirect)} {o : Output} (hh : o.Held ts) (s : Sink) :
    (o.push s).2.Within (o.stack.length + 1) (o.sinks.length + 1) ts where
  floor := by simp
  fresh i k hi hk := absurd (List.getElem?_eq_some_iff.1 hk).1 (by simp; omega)
  le_length := by simp
  depth_ne k r hk := by have := hh.depth_le hk; omega

/-- The restore that closes a block keeps what the body kept below the block's sink. It pops the
sink only when the body came back to the block's level, and the stack is then the one the block
started from; a refused restore or a failed flush changes nothing. -/
theorem confined_restore_block {F n : Nat} {o : Output} {s : Sink} {m₂ : Machine}
    (h : Output.Confined (o.stack.length + 1) (o.sinks.length + 1) (o.push s).2 m₂.output)
    (hF : F ≤ o.stack.length) (hn : n ≤ o.sinks.length) :
    Output.Confined F n o (Machine.final (Machine.restoreOutput ⟨o.stack.length + 1⟩ m₂)).output := by
  rw [Machine.restoreOutput_eq]
  rcases m₂.output.restore_pops_or_fails ⟨o.stack.length + 1⟩ with ⟨hd, k, -, hr⟩ | ⟨e, hr⟩
  · have hs : m₂.output.stack = o.stack ++ [o.sinks.length] := (h.of_pushed hF hn).2 hd.symm
    rw [hr]
    exact (h.of_pushed hF hn).1.trans (Output.confined_pop (by rw [hs]; simp; omega))
  · rw [hr]
    exact (h.of_pushed hF hn).1

/-- Whatever its body does, a block keeps the stack below its sink and the text of every older
sink. When it succeeds, the stack is the one it started from, and the tokens are in step with it:
the body's tokens, each held before or restoring a sink the body pushed. -/
theorem scopedStep_spec {ts : List (Nat × Redirect)} {m : Machine} {s : Sink}
    {body : List (Nat × Redirect) → Exec (List (Nat × Redirect))}
    (hb : Confines (m.output.stack.length + 1) (m.output.sinks.length + 1) body)
    (hh : m.output.Held ts) :
    (∀ F n, F ≤ m.output.stack.length → n ≤ m.output.sinks.length →
      Output.Confined F n m.output (Machine.final (scopedStep s body ts m)).output) ∧
    ∀ ts' m', scopedStep s body ts m = .ok ts' m' →
      m'.output.stack = m.output.stack ∧ m'.output.Held ts' ∧
      m.output.sinks.length < m'.output.sinks.length ∧
      ∀ t ∈ ts', t ∈ ts ∨ m.output.stack.length + 1 < t.2.depth := by
  obtain ⟨hc, hok⟩ :=
    hb ts { m with output := (m.output.push s).2 } (held_pushed hh s) (within_pushed hh s)
  have hfinal : Machine.final (scopedStep s body ts m) =
      Machine.final (Machine.withOutput s (body ts) m) := by
    unfold scopedStep
    rw [Machine.run_bind]
    cases Machine.withOutput s (body ts) m <;> rfl
  refine ⟨fun F n hF hn => ?_, fun ts' m' h => ?_⟩
  · rw [hfinal, Machine.final_withOutput]
    exact confined_restore_block hc hF hn
  · -- a block succeeds only when its body succeeds and the restore pops the block's sink
    unfold scopedStep at h
    rw [Machine.run_bind, Machine.withOutput_eq] at h
    cases hbr : body ts { m with output := (m.output.push s).2 } with
    | error e m₂ =>
      rw [hbr] at h
      cases h
    | ok ts₂ m₂ =>
      rw [hbr] at h hc
      obtain ⟨hh₂, hw₂, ho₂⟩ := hok ts₂ m₂ hbr
      dsimp only at h
      rw [Machine.restoreOutput_eq] at h
      rcases m₂.output.restore_pops_or_fails ⟨m.output.stack.length + 1⟩ with
        ⟨hd, k, -, hr⟩ | ⟨e, hr⟩
      · rw [hr] at h
        cases h
        have hs : m₂.output.stack = m.output.stack ++ [m.output.sinks.length] :=
          (hc.of_pushed (Nat.le_refl _) (Nat.le_refl _)).2 hd.symm
        refine ⟨by simp [hs], hh₂.pop fun k r hk => ?_, ?_, ho₂⟩
        · exact lt_of_le_of_ne (hh₂.depth_le hk) fun h => hw₂.depth_ne k r hk (h.trans hd.symm)
        · have := hw₂.le_length
          simp only
          omega
      · rw [hr] at h
        cases h

theorem confines_scopedStep {s : Sink} {body : List (Nat × Redirect) → Exec (List (Nat × Redirect))}
    (hb : ∀ F n, Confines F n body) : Confines F n (scopedStep s body) := by
  intro ts m hh hw
  obtain ⟨hc, hok⟩ := scopedStep_spec (s := s) (hb _ _) hh
  refine ⟨hc F n hw.floor hw.le_length, fun ts' m' h => ?_⟩
  obtain ⟨hs, hh', hlen, ho⟩ := hok ts' m' h
  have hF := hw.floor
  refine ⟨hh', ⟨?_, ?_, hw.le_length.trans hlen.le, fun k r hk => ?_⟩, fun t ht => ?_⟩
  · rw [hs]
    exact hF
  · rw [hs]
    exact hw.fresh
  · rcases ho (k, r) hk with h | h
    · exact hw.depth_ne k r h
    · dsimp only at h
      omega
  · rcases ho t ht with h | h
    · exact .inl h
    · exact .inr (by omega)

/-- Every program keeps the first `F` sinks of the stack, for every `F`: its tokens can only reach
the sinks it pushed itself. -/
theorem run_confines (b : OutputScript) : ∀ F n, Confines F n b.run := by
  induction b with
  | done => intro F n; exact confines_pure
  | redirect s rest ih => intro F n; exact (confines_redirectStep s).bind (ih F n)
  | restore sink rest ih => intro F n; exact (confines_restoreStep sink).bind (ih F n)
  | message id rest ih => intro F n; exact (confines_messageStep id).bind (ih F n)
  | fail id => intro F n; exact confines_failWith id
  | block s body rest ihb ihr => intro F n; exact (confines_scopedStep ihb).bind (ihr F n)

end Confines

/-! ### What a sink receives -/

/-- The text the rest of a program sends after a request, or nothing once the request has
failed. -/
def heardAfter (x : EStateM.Result MachineError Machine (List (Nat × Redirect)))
    (rest : List (Nat × Redirect) → Machine → String) : String :=
  match x with
  | .ok ts m => rest ts m
  | .error _ _ => ""

/-- The text a program sends to sink `k` while `k` is on top and takes writes, up to its first
failure: its messages, without those it sends inside its own redirections and blocks. -/
def heard (k : Nat) : OutputScript → List (Nat × Redirect) → Machine → String
  | done, _, _ => ""
  | redirect s rest, ts, m => heardAfter (redirectStep s ts m) (rest.heard k)
  | restore sink rest, ts, m => heardAfter (restoreStep sink ts m) (rest.heard k)
  | message id rest, ts, m =>
    (match m.strings.lookup id with
      | some e =>
        if m.output.stack.getLast? = some k ∧ m.output.current.writeError = none then
          e.text ++ "\n"
        else ""
      | none => "") ++ heardAfter (messageStep id ts m) (rest.heard k)
  | fail _, _, _ => ""
  | block s body rest, ts, m => heardAfter (scopedStep s body.run ts m) (rest.heard k)

/-- A sink receives exactly what a program sends it while it is on top. Messages go to the sink on
top when it takes them, a redirect or a restore writes nothing, and a block leaves every sink
older than it alone. -/
theorem text_run (k : Nat) (b : OutputScript) :
    ∀ ts (m : Machine), m.output.Held ts → k < m.output.sinks.length →
      (Machine.final (b.run ts m)).output.text k = m.output.text k ++ b.heard k ts m := by
  induction b with
  | done =>
    intro ts m _ _
    simp [run, heard, Machine.final]
  | redirect s rest ih =>
    intro ts m hh hk
    simp only [run, heard, Machine.run_bind, redirectStep_eq, heardAfter]
    rw [ih _ _ (hh.push s) (by simp; omega), Output.text_push_of_lt _ _ hk]
  | restore sink rest ih =>
    intro ts m hh hk
    cases hl : ts.lookup sink with
    | none =>
      have hstep : restoreStep sink ts m = .ok ts m := by simp [restoreStep, hl]
      simp only [run, heard, Machine.run_bind, hstep, heardAfter]
      exact ih ts m hh hk
    | some r =>
      rcases restoreStep_of_held hh hl with ⟨hd, -, hr⟩ | ⟨e, hr⟩
      · simp only [run, heard, Machine.run_bind, hr, heardAfter]
        exact ih _ _ (hh.restore_filter (mem_of_lookup hl) hd) hk
      · simp [run, heard, Machine.run_bind, hr, heardAfter, Machine.final]
  | message id rest ih =>
    intro ts m hh hk
    simp only [run, heard, Machine.run_bind, messageStep_eq]
    cases m.strings.lookup id with
    | some e =>
      dsimp only
      -- the message reaches the sink on top only when that sink takes the write
      rcases m.output.write_cases (e.text ++ "\n") with ⟨hwe, o', hwr, hwrote⟩ | ⟨d, hwe, hwr⟩
      · simp only [hwr, heardAfter, hwe, and_true]
        rw [ih _ _ (hh.write hwrote) (by rw [hwrote.length_sinks]; exact hk)]
        show o'.text k ++ _ = _
        rw [hwrote.text_eq hh.lt]
        split_ifs <;> simp [String.append_assoc]
      · simp [hwr, hwe, heardAfter, Machine.final]
    | none => simp [Machine.final, heardAfter]
  | fail id =>
    intro ts m _ _
    obtain ⟨e, he⟩ := Machine.failWith_eq (α := List (Nat × Redirect)) id m
    simp [run, heard, he, Machine.final]
  | block s body rest _ ihr =>
    intro ts m hh hk
    -- the block leaves every sink older than it alone, the sink `k` among them
    obtain ⟨hc, hok⟩ := scopedStep_spec (s := s) (run_confines body _ _) hh
    have hold := (hc 0 m.output.sinks.length (Nat.zero_le _) le_rfl).texts k hk (by simp)
    simp only [run, heard, Machine.run_bind, heardAfter]
    cases hx : scopedStep s body.run ts m with
    | ok ts' m' =>
      obtain ⟨-, hh', hlen, -⟩ := hok ts' m' hx
      rw [hx] at hold
      dsimp only
      rw [ihr _ _ hh' (by omega), show m'.output.text k = m.output.text k from hold]
    | error e m' =>
      rw [hx] at hold
      simpa [Machine.final] using hold

end OutputScript

namespace Machine

/-- Output redirection is a stack: `withOutput` gives a balanced body's stack back exactly when
the sink on top flushes, a held token restores its own sink or is refused with `outputRedirect`,
and a block's sink receives exactly the messages its body sends. -/
theorem output_redirection_nests (s : Sink) (m : Machine) :
    (∀ {α : Type} (f : Exec α),
      (final (f { m with output := (m.output.push s).2 })).output.stack =
          m.output.stack ++ [m.output.sinks.length] →
        (final (withOutput s f m)).output.stack =
          (match (final (f { m with output := (m.output.push s).2 })).output.current.flush with
            | .ok () => m.output.stack
            | .error _ => m.output.stack ++ [m.output.sinks.length]) ∧
        (∀ a m', f { m with output := (m.output.push s).2 } = .ok a m' →
          withOutput s f m = match m'.output.current.flush with
            | .ok () => .ok (a, m.output.sinks.length)
                { m' with output := { m'.output with stack := m.output.stack } }
            | .error e => .error e m') ∧
        (∀ e m', f { m with output := (m.output.push s).2 } = .error e m' →
          withOutput s f m = .error e (match m'.output.current.flush with
            | .ok () => { m' with output := { m'.output with stack := m.output.stack } }
            | .error _ => m'))) ∧
    (m.output.stack = [] → m.output.Held []) ∧
    (∀ (b : OutputScript) ts, m.output.Held ts →
      ∀ ts' m', b.run ts m = .ok ts' m' → m'.output.Held ts') ∧
    (∀ ts, m.output.Held ts → ∀ k r, (k, r) ∈ ts →
      (r.depth = m.output.stack.length →
        m.output.stack.getLast? = some k ∧
        restoreOutput r m = match m.output.current.flush with
          | .ok () => .ok k { m with output := { m.output with stack := m.output.stack.dropLast } }
          | .error e => .error e m) ∧
      (r.depth ≠ m.output.stack.length →
        ∃ text, restoreOutput r m = .error (.outputRedirect text) m)) ∧
    (∀ (b : OutputScript) ts, m.output.Held ts →
      (final (withOutput s (b.run ts) m)).output.text m.output.sinks.length =
          s.text ++ b.heard m.output.sinks.length ts { m with output := (m.output.push s).2 } ∧
        ∀ j < m.output.sinks.length,
          (final (withOutput s (b.run ts) m)).output.text j = m.output.text j) := by
  refine ⟨fun f hbal => ⟨stack_final_withOutput s hbal, fun a m' hf => ?_, fun e m' hf => ?_⟩,
    Output.held_nil, fun b ts hh ts' m' h => ?_, fun ts hh k r hk => ?_,
    fun b ts hh => ⟨?_, fun j hj => ?_⟩⟩
  · -- the restore finds the body's stack at the depth it pushed, whichever way the body ended
    rw [hf] at hbal
    exact withOutput_ok_of_balanced s hf hbal
  · rw [hf] at hbal
    exact withOutput_error_of_balanced s hf hbal
  · -- a run keeping no sink of the stack still keeps its tokens in step
    have hw : m.output.Within 0 0 ts :=
      ⟨Nat.zero_le _, fun _ _ _ _ => Nat.zero_le _, Nat.zero_le _,
        fun k r hk => (hh.at_depth k r hk).1.ne'⟩
    exact ((OutputScript.run_confines b 0 0 ts m hh hw).2 ts' m' h).1
  · rcases hh.restore hk with ⟨hd, htop, hr⟩ | ⟨hd, text, hr⟩
    · refine ⟨fun _ => ⟨htop, ?_⟩, fun h => absurd hd h⟩
      rw [restoreOutput_eq, hr]
      cases m.output.current.flush <;> rfl
    · exact ⟨fun h => absurd h hd, fun _ => ⟨text, by rw [restoreOutput_eq, hr]⟩⟩
  · -- the block's sink starts with the sink's text, and the restore after the body writes nothing
    rw [text_final_withOutput, OutputScript.text_run _ b ts _ (OutputScript.held_pushed hh s)
      (by simp), Output.text_push, if_pos rfl]
  · -- the body runs one level up and keeps the whole stack with the block's sink on top
    have hc := (OutputScript.run_confines b _ _ ts { m with output := (m.output.push s).2 }
      (OutputScript.held_pushed hh s) (OutputScript.within_pushed hh s)).1
    rw [text_final_withOutput, hc.texts j (by omega)
      (by rw [List.take_of_length_le (by simp)]; simp; omega), Output.text_push_of_lt _ _ hj]

/-- A sink whose flush fails stays on the stack after `withOutput`, even around a body that
does nothing: the restore gives the flush's error before it pops. -/
theorem failing_flush_keeps_redirect :
    ∃ m', withOutput { flushError := some "disk full" } (pure () : Exec Unit)
        (Machine.new (.recorder {}) false) = .error (.io "disk full") m' ∧
      m'.output.stack = [0] :=
  ⟨_, rfl, rfl⟩

end Machine

end QuantumRuntime
