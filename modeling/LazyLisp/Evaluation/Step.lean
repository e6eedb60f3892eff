import LazyLisp.Core.Call
import LazyLisp.Evaluation.Special

/-!
Evaluation and application. One step serves a request and hands every recursive demand to an
engine; running within a budget gives each demand a smaller budget.
-/

namespace LazyLisp.Evaluation
set_option autoImplicit false

/-- A macro stands for a value nowhere but at the head of a list. -/
def macroAsValue (id : ClosureId) : Eval Outcome := do
  let w ← get
  fail (.macroAsValue (((w.closures[id]?).map fun c => closureLabel w c "macro").getD "macro"))

def evaluateSymbol (scope : Scope) (s : Symbol) (asHead : Bool) : Eval Outcome := do
  let w ← get
  match w.resolve? scope s with
  | none => fail (.unresolved (w.symbolText s))
  | some (.transformer id) => if asHead then return .value (.transformer id) else macroAsValue id
  | some v => return .value v

/-- Evaluates keys and values in order. -/
def evaluateEntries (e : Engine) (scope : Scope) : Entries → Entries → Eval Entries
  | done, [] => return done
  | done, (k, v) :: rest => do
    let k ← e.value scope k
    let v ← e.value scope v
    evaluateEntries e scope (← done.put e k v) rest

/-- The argument of a lookup in a map, and the value for a missing key. -/
def lookupArgs (label : String) (args : List Value) : Eval (Value × Value) :=
  match args with
  | [x] => return (x, .nil)
  | [x, fallback] => return (x, fallback)
  | args => fail (.arity label (.between 1 2) args.length)

/-- Applies a value: functions run, macros expand first, vectors and maps look their argument up,
and names look themselves up in it. -/
def applyValue (e : Engine) (scope : Scope) (callee : Value) (args : List Value) : Eval Outcome := do
  match callee with
  | .builtin b => return .value (← Core.call e scope b args)
  | .function id => return .value (← invoke e id callee args)
  | .transformer id => e.evaluate scope (← expand e id args)
  | .vector items =>
    match args with
    | [.int i] =>
      match Core.item? items i with
      | some v => return .value v
      | none => fail (.outOfBounds i.toInt items.length)
    | [v] => fail (.invalidArgument "vector" ("index must be an integer, got " ++ v.typeName))
    | args => fail (.arity "vector" (.exactly 1) args.length)
  | .map entries =>
    let (key, fallback) ← lookupArgs "map" args
    return .value ((← Entries.get? e entries key).getD fallback)
  | .keyword _ | .symbol _ =>
    let (v, fallback) ← lookupArgs callee.typeName args
    match v with
    | .map entries => return .value ((← Entries.get? e entries callee).getD fallback)
    | _ => return .value fallback
  | v => fail (.notCallable (← v.textOrType e))

/-- Evaluates a list: special forms get their arguments as they are, macros are expanded, all
else is applied to the values of the arguments. -/
def evaluateList (e : Engine) (scope : Scope) (s : Seq) : Eval Outcome := do
  match ← s.uncons e with
  | none => return .value (.seq s)
  | some (head, tail) =>
    if (← get).log.eval then Eval.note (.evaluating (← (Value.seq s).textOrType e))
    match head with
    | .special f => special e scope f (← tail.toList e)
    | head =>
      let callee ← (← e.call (.evaluate scope head true)).toValue
      match callee with
      | .transformer id => e.evaluate scope (← expand e id (← tail.toList e))
      | callee =>
        let args ← tail.fold e (fun (acc : Array Value) form => return acc.push (← e.value scope form)) #[]
        applyValue e scope callee args.toList

/-- Evaluates a form. Most values stand for themselves. -/
def evaluateForm (e : Engine) (scope : Scope) (form : Value) (asHead : Bool) : Eval Outcome := do
  match form with
  | .symbol s => evaluateSymbol scope s asHead
  | .transformer id => if asHead then return .value form else macroAsValue id
  | .special f => fail (.specialAsValue f.text)
  | .marked m _ => fail (.invalidArgument "eval" ("unexpanded reader macro " ++ m.text))
  | .vector items => return .value (.vector (← items.mapM (e.value scope)))
  | .map entries => return .value (.map (← evaluateEntries e scope [] entries))
  | .seq s => evaluateList e scope s
  | v => return .value v

def step (e : Engine) : Request → Eval Outcome
  | .evaluate scope form asHead => evaluateForm e scope form asHead
  | .apply scope callee args => applyValue e scope callee args

/-- Serves a request within a budget. -/
def run : Nat → Request → Eval Outcome
  | 0, _ => throw .exhausted
  | n + 1, r => step ⟨run n, n⟩ r

end LazyLisp.Evaluation

namespace LazyLisp

/-- The engine with a given budget. -/
def Engine.ofBudget (n : Nat) : Engine := ⟨Evaluation.run n, n⟩

end LazyLisp
