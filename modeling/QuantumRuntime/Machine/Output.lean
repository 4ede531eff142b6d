import QuantumRuntime.Machine.Error

/-!
# Output sinks

Messages go to the innermost redirected sink, or to the console when nothing is redirected.
Every redirect pushes a sink and hands back a token that remembers the depth of the stack it
created. Redirects nest: restoring a token is refused unless its depth is the current depth,
and a refused restore leaves the stack as it was. A restore flushes the sink on top before it
pops it, and a sink whose flush fails stays on the stack. Sinks keep what they received after
they are popped, so their text can still be read.
-/

namespace QuantumRuntime

/-- The token of a redirect: the depth of the sink stack right after the push. -/
structure Redirect where
  depth : Nat
deriving DecidableEq, Repr, Inhabited

/-- A sink: the text it received, and the error a write to it or a flush of it meets, if any (a
closed file, a full disk). The sinks the runtime makes in memory meet none. -/
structure Sink where
  text : String := ""
  writeError : Option String := none
  flushError : Option String := none
deriving DecidableEq, Repr, Inhabited

namespace Sink

/-- Appends text, unless the sink refuses writes. -/
def write (s : Sink) (text : String) : Except MachineError Sink :=
  match s.writeError with
  | some e => .error (.io e)
  | none => .ok { s with text := s.text ++ text }

/-- Flushes the sink. -/
def flush (s : Sink) : Except MachineError Unit :=
  match s.flushError with
  | some e => .error (.io e)
  | none => .ok ()

end Sink

/-- Every sink ever pushed, the stack of active ones and the console. -/
structure Output where
  sinks : List Sink := []
  stack : List Nat := []
  console : Sink := {}
deriving DecidableEq, Repr, Inhabited

namespace Output

/-- Pushes a sink; gives its number and the token that restores it. -/
def push (o : Output) (s : Sink) : (Nat × Redirect) × Output :=
  let sink := o.sinks.length
  ((sink, ⟨o.stack.length + 1⟩), { o with sinks := o.sinks ++ [s], stack := o.stack ++ [sink] })

/-- The sink messages go to: the innermost redirected one, or the console. -/
def current (o : Output) : Sink :=
  match o.stack.getLast? with
  | some sink => o.sinks.getD sink {}
  | none => o.console

/-- Appends text to the current sink. -/
def write (o : Output) (text : String) : Except MachineError Output :=
  match o.stack.getLast? with
  | some sink => (o.current.write text).map fun s => { o with sinks := o.sinks.set sink s }
  | none => (o.current.write text).map fun s => { o with console := s }

/-- Flushes the current sink, then pops the innermost one if a token's depth is the current
depth; gives the sink popped. -/
def restore (o : Output) (r : Redirect) : Except MachineError (Nat × Output) :=
  if r.depth ≠ o.stack.length then
    .error (.outputRedirect
      s!"output redirect restored at depth {r.depth} while depth {o.stack.length} is active")
  else
    o.current.flush.bind fun _ =>
      match o.stack.getLast? with
      | some sink => .ok (sink, { o with stack := o.stack.dropLast })
      | none => .error (.outputRedirect "no output redirect is active")

/-- The text a sink received. -/
def text (o : Output) (sink : Nat) : String := (o.sinks.getD sink {}).text

end Output

end QuantumRuntime
