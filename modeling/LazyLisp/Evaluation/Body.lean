import LazyLisp.Printer

/-!
Bodies of forms, closures and macros. A body yields the outcome of its last form; a function
starts its body over, with new values in the same frame, as long as that asks for another round.
-/

namespace LazyLisp.Evaluation
set_option autoImplicit false

/-- Forms in order; only the last may ask for another round. -/
def body (e : Engine) (scope : Scope) : List Value → Eval Outcome
  | [] => return .value .nil
  | [last] => e.evaluate scope last
  | form :: rest => do
    let _ ← e.value scope form
    body e scope rest

/-- Runs a body until it yields a value. Another round has to bring one value per binding. -/
def rounds (e : Engine) (frame : FrameId) (expected : Nat) (forms : List Value) : Nat → Eval Value
  | 0 => throw .exhausted
  | n + 1 => do
    match ← body e (some frame) forms with
    | .value v => return v
    | .again values =>
      if values.length != expected then fail (.arity "recur" (.exactly expected) values.length)
      Eval.rebind frame values
      rounds e frame expected forms n

/-- A frame for a call: parameters over a frame for the closure's own name, if it has one. -/
def callFrame (c : Closure) (self : Value) (bindings : List (Symbol × Value)) : Eval FrameId := do
  let scope ← match c.name with
    | none => pure c.scope
    | some name =>
      let outer ← Eval.newFrame c.scope
      Eval.push outer (.plain name.name) self
      pure (some outer)
  let frame ← Eval.newFrame scope
  bindings.forM fun (s, v) => Eval.push frame s v
  return frame

/-- The name under which a closure reports errors. -/
def closureLabel (w : World) (c : Closure) (unnamed : String) : String :=
  match c.name with
  | some s => w.symbolText s
  | none => unnamed

/-- Runs the clause that fits the arguments, in the scope where the closure was made. -/
def invoke (e : Engine) (id : ClosureId) (self : Value) (args : List Value) : Eval Value := do
  let w ← get
  match w.closures[id]? with
  | none => return .nil
  | some c =>
    match c.select? args.length with
    | none => fail (.arity (closureLabel w c "fn") c.arity args.length)
    | some clause =>
      let frame ← callFrame c self (clause.bindings args)
      rounds e frame clause.bindingCount clause.body e.bound

/-- The form that a macro puts in the place of a call. -/
def expand (e : Engine) (id : ClosureId) (forms : List Value) : Eval Value := do
  let expansion ← invoke e id (.transformer id) forms
  if (← get).log.expand then Eval.note (.expanded (← expansion.textOrType e))
  return expansion

end LazyLisp.Evaluation
