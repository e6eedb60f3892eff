import LazyLisp.World

/-!
What the parts of evaluation need of each other. Every recursive demand is a request handed to
an engine, which also bounds the rounds of a single loop. Operations are written against an
engine, so each can be read on its own; the evaluator ties the knot.
-/

namespace LazyLisp
set_option autoImplicit false

/-- What a form evaluates to: a value, or values for another round of the enclosing loop or
function body. -/
inductive Outcome
  | value (v : Value)
  | again (values : List Value)

/-- Another round where a value is needed is an error. -/
def Outcome.toValue : Outcome → Eval Value
  | value v => return v
  | again _ => fail .misplacedRecur

inductive Request
  /-- Evaluate a form in a scope; only the head of a list may denote a macro. -/
  | evaluate (scope : Scope) (form : Value) (asHead : Bool)
  /-- Apply a value to arguments on behalf of code in a scope. -/
  | apply (scope : Scope) (callee : Value) (args : List Value)

structure Engine where
  call : Request → Eval Outcome
  bound : Nat

namespace Engine

def evaluate (e : Engine) (scope : Scope) (form : Value) : Eval Outcome :=
  e.call (.evaluate scope form false)

/-- Evaluates where only a value will do. -/
def value (e : Engine) (scope : Scope) (form : Value) : Eval Value := do
  (← e.evaluate scope form).toValue

/-- Applies where only a value will do. -/
def apply (e : Engine) (scope : Scope) (callee : Value) (args : List Value) : Eval Value := do
  (← e.call (.apply scope callee args)).toValue

end Engine

end LazyLisp
