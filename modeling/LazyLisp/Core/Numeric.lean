import LazyLisp.Engine
import LazyLisp.Number

/-!
The built-in functions on numbers.
-/

namespace LazyLisp.Core
set_option autoImplicit false

/-- A result that needs no state. -/
def lift {α : Type} (r : Except EvalError α) : Eval α :=
  match r with
  | .ok a => return a
  | .error e => fail e

def number (r : Except EvalError Number) : Eval Value := return (← lift r).toValue

def compareChain (function : String) (accept : Ordering → Bool) (args : List Value) : Eval Value := do
  let numbers ← lift (args.mapM (Number.ofValue function))
  return .bool (Number.chain accept numbers)

def extreme (function : String) (wanted : Ordering) (args : List Value) : Eval Value := do
  match ← lift (args.mapM (Number.ofValue function)) with
  | [] => return .nil
  | n :: ns => return (Number.extremum wanted n ns).toValue

def toInt : Value → Eval Value
  | .int n => return .int n
  | .float x => return .int (← lift (Number.toInt x))
  | .char c => return .int (Int64.ofNat c.toNat)
  | v => fail (.notNumeric "int" v.typeName)

def toDouble (v : Value) : Eval Value := return .float (← lift (Number.ofValue "double" v)).toFloat

end LazyLisp.Core
