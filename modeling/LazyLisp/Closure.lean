import LazyLisp.EvalError
import LazyLisp.Value

/-!
Closures with clauses for several numbers of arguments, shared by functions and macros.
-/

namespace LazyLisp
set_option autoImplicit false

abbrev FrameId := Nat

/-- The innermost lexical frame, if there is one. -/
abbrev Scope := Option FrameId

/-- Parameters with an optional rest parameter, and the body forms. -/
structure Clause where
  params : List Symbol
  rest : Option Symbol
  body : List Value

/-- How many values a new round of the body takes. -/
def Clause.bindingCount (c : Clause) : Nat := c.params.length + (if c.rest.isSome then 1 else 0)

/-- The bindings of a call: the rest parameter gets a list of the remaining arguments, or `nil`
if none remain. -/
def Clause.bindings (c : Clause) (args : List Value) : List (Symbol × Value) :=
  let fixed := c.params.zip args
  match c.rest with
  | none => fixed
  | some s =>
    let more := args.drop c.params.length
    fixed ++ [(s, if more.isEmpty then .nil else .list more)]

structure Closure where
  name : Option Symbol
  fixed : List Clause
  variadic : Option Clause
  scope : Scope

namespace Closure

/-- The clauses without and with a rest parameter. At most one may have one, and no two others
the same number of parameters. -/
def sortClauses (label : String) (fixed : List Clause) (variadic : Option Clause) :
    List Clause → Except EvalError (List Clause × Option Clause)
  | [] => .ok (fixed, variadic)
  | c :: rest =>
    if c.rest.isSome then
      if variadic.isSome then .error (.duplicateVariadic label)
      else sortClauses label fixed (some c) rest
    else if fixed.any fun f => f.params.length == c.params.length then
      .error (.duplicateArity label c.params.length)
    else sortClauses label (fixed ++ [c]) variadic rest

def counts (clauses : List Clause) : List Nat := clauses.map fun c => c.params.length

/-- A closure of the clauses, if no number of arguments fits two of them. -/
def make (name : Option Symbol) (clauses : List Clause) (scope : Scope) (label : String) :
    Except EvalError Closure :=
  match sortClauses label [] none clauses with
  | .error e => .error e
  | .ok (fixed, variadic) =>
    match variadic, (counts fixed).max? with
    | some v, some widest =>
      if v.params.length ≤ widest then .error (.fixedBeyondVariadic label widest v.params.length)
      else .ok ⟨name, fixed, variadic, scope⟩
    | _, _ => .ok ⟨name, fixed, variadic, scope⟩

/-- The clause with exactly that many parameters, else the one with a rest parameter. -/
def select? (c : Closure) (count : Nat) : Option Clause :=
  (c.fixed.find? fun f => f.params.length == count).or
    (c.variadic.filter fun v => v.params.length ≤ count)

/-- The numbers of arguments as they are reported. -/
def arity (c : Closure) : Arity :=
  match c.variadic, (counts c.fixed).min?, (counts c.fixed).max? with
  | some v, some least, _ => .atLeast (min least v.params.length)
  | some v, none, _ => .atLeast v.params.length
  | none, some least, some most => if least = most then .exactly least else .between least most
  | none, _, _ => .exactly 0

end Closure

end LazyLisp
