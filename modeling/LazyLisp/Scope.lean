import LazyLisp.World

/-!
Working on a chain of frames from outside the evaluator. Only the innermost frame changes.
-/

namespace LazyLisp.Scope
set_option autoImplicit false

/-- A scope with a fresh frame on top. -/
def child (scope : Scope) : Eval Scope := return some (← Eval.newFrame scope)

/-- Binds a symbol in the innermost frame, which is made if there is none. -/
def push (scope : Scope) (s : Symbol) (v : Value) : Eval Scope := do
  let id ← match scope with
    | some id => pure id
    | none => Eval.newFrame none
  Eval.push id s v
  return some id

/-- Replaces the newest binding of a symbol in the innermost frame, and tells whether there
was one. -/
def update (scope : Scope) (s : Symbol) (v : Value) : Eval Bool := modifyGet fun w =>
  match scope.bind fun id => (w.frames[id]?).bind fun f => (f.update? s v).map fun g => (id, g) with
  | some (id, g) => (true, { w with frames := w.frames.setIfInBounds id g })
  | none => (false, w)

/-- Replaces the values of the innermost frame in order. -/
def rebind (scope : Scope) (values : List Value) : Eval Unit :=
  match scope with
  | some id => Eval.rebind id values
  | none => return ()

/-- The number of bindings in the innermost frame. -/
def size (scope : Scope) : Eval Nat :=
  match scope with
  | some id => Eval.frameSize id
  | none => return 0

end LazyLisp.Scope
