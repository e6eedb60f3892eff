import LazyLisp.Arity

/-!
The ways in which evaluation fails, their short tags and their wording.
-/

namespace LazyLisp
set_option autoImplicit false

inductive EvalError
  | arity (function : String) (expected : Arity) (got : Nat)
  | invalidArgument (function message : String)
  | unresolved (symbol : String)
  /-- A definition names a namespace that is not the current one. -/
  | foreignDefinition (symbol ns : String)
  | unevenBindings (form : String)
  | duplicateArity (function : String) (arity : Nat)
  | duplicateVariadic (function : String)
  | fixedBeyondVariadic (function : String) (fixed variadic : Nat)
  | misplacedRecur
  | notCallable (found : String)
  | macroAsValue (name : String)
  | specialAsValue (form : String)
  | divideByZero
  | overflow (operation : String)
  | outOfBounds (index : Int) (length : Nat)
  | notNumeric (function found : String)
  /-- A name already refers to another var. -/
  | rebinding (symbol ns : String)
  | noNamespace (ns : String)
  /-- Text handed to the reader at run time does not read. -/
  | unreadable (message : String)
  /-- A lazy sequence was forced after its interpreter had gone. -/
  | detached
deriving DecidableEq, Repr

namespace EvalError

def kind : EvalError → String
  | arity .. => "arity"
  | invalidArgument .. => "invalid-argument"
  | unresolved .. => "invalid-symbol"
  | foreignDefinition .. => "qualified-symbol-misuse"
  | unevenBindings .. => "binding-mismatch"
  | duplicateArity .. => "duplicate-arity"
  | duplicateVariadic .. => "duplicate-variadic-arity"
  | fixedBeyondVariadic .. => "fixed-arity-exceeds-variadic"
  | misplacedRecur => "recur-misuse"
  | notCallable .. => "not-evaluable"
  | macroAsValue .. => "evaluating-macro"
  | specialAsValue .. => "evaluating-special-form"
  | divideByZero => "divide-by-zero"
  | overflow .. => "integer-overflow"
  | outOfBounds .. => "out-of-bounds"
  | notNumeric .. => "non-numeric-argument"
  | rebinding .. => "var-rebinding"
  | noNamespace .. => "invalid-namespace"
  | unreadable .. => "read"
  | detached => "detached-lazy-seq"

def message : EvalError → String
  | arity function expected got =>
    function ++ " expects " ++ expected.text ++ " argument(s), got " ++ toString got
  | invalidArgument function text => function ++ ": " ++ text
  | unresolved symbol => "Unable to resolve symbol: " ++ symbol
  | foreignDefinition symbol ns =>
    "Cannot define qualified symbol " ++ symbol ++ " outside namespace " ++ ns
  | unevenBindings form => form ++ " requires an even number of forms in its binding vector"
  | duplicateArity function n => function ++ " defines arity " ++ toString n ++ " more than once"
  | duplicateVariadic function => function ++ " can only have one variadic arity"
  | fixedBeyondVariadic function fixed variadic =>
    function ++ " has a fixed arity of " ++ toString fixed ++
      ", which is not below its variadic arity of " ++ toString variadic
  | misplacedRecur => "recur can only be used in tail position"
  | notCallable found => found ++ " cannot be called as a function"
  | macroAsValue name => "Cannot take the value of a macro: " ++ name
  | specialAsValue form => "Cannot take the value of a special form: " ++ form
  | divideByZero => "Divide by zero"
  | overflow operation => "Integer overflow in " ++ operation
  | outOfBounds index length =>
    "Index " ++ toString index ++ " out of bounds for length " ++ toString length
  | notNumeric function found => function ++ " expects numeric arguments, got " ++ found
  | rebinding symbol ns =>
    symbol ++ " already refers to a different var in namespace " ++ ns
  | noNamespace ns => "No namespace: " ++ ns
  | unreadable text => "Read error: " ++ text
  | detached => "Lazy sequence was realized after its interpreter was dropped"

end EvalError

end LazyLisp
