import LazyLisp.Core.Spaces
import LazyLisp.Core.Textual

/-!
Calling built-in functions: the number of arguments is checked, then the function runs.
-/

namespace LazyLisp.Core
set_option autoImplicit false

/-- Reads a source in the current state and traces the forms. -/
def readSource (e : Engine) (source : String) : Eval (Except ReadError (List Value)) := do
  let result : Except ReadError (List Value) ← modifyGet fun w =>
    match readForms source w.names with
    | .ok forms names => (Except.ok forms, { w with names := names })
    | .error err names => (Except.error err, { w with names := names })
  if (← MonadState.get).log.read then
    match result with
    | .ok forms => forms.forM fun form => do Eval.note (.readForm (← form.textOrType e))
    | .error _ => pure ()
  return result

/-- The first form of a text. -/
def readString (e : Engine) (v : Value) : Eval Value := do
  match v with
  | .string source =>
    match ← readSource e source with
    | .error err => fail (.unreadable err.message)
    | .ok [] => fail (.unreadable "EOF while reading")
    | .ok (form :: _) => return form
  | v => fail (.invalidArgument "read-string" ("expected a string, got " ++ v.typeName))

/-- Whether a value belongs to the type that a predicate tests. -/
def isOfType (b : Builtin) (v : Value) : Bool :=
  match b, v with
  | .isNil, .nil => true
  | .isBoolean, .bool _ => true
  | .isNumber, .int _ => true
  | .isNumber, .float _ => true
  | .isInt, .int _ => true
  | .isFloat, .float _ => true
  | .isString, .string _ => true
  | .isChar, .char _ => true
  | .isSymbol, .symbol _ => true
  | .isKeyword, .keyword _ => true
  | .isFn, .function _ => true
  | .isFn, .builtin _ => true
  | .isMacro, .transformer _ => true
  | .isSeq, .seq _ => true
  | .isVector, .vector _ => true
  | .isMap, .map _ => true
  | .isVar, .var _ => true
  | .isNamespace, .space _ => true
  | _, _ => false

/-- The error for a number of arguments that a function does not take. -/
def misfit (b : Builtin) (args : List Value) : Eval Value :=
  fail (.arity b.text b.arity args.length)

def one (b : Builtin) (args : List Value) (f : Value → Eval Value) : Eval Value :=
  match args with
  | [x] => f x
  | _ => misfit b args

def two (b : Builtin) (args : List Value) (f : Value → Value → Eval Value) : Eval Value :=
  match args with
  | [x, y] => f x y
  | _ => misfit b args

/-- Two arguments and an optional third one. -/
def twoOrThree (b : Builtin) (args : List Value) (f : Value → Value → Option Value → Eval Value) :
    Eval Value :=
  match args with
  | [x, y] => f x y none
  | [x, y, z] => f x y (some z)
  | _ => misfit b args

/-- One argument and any number of further ones. -/
def oneAndMore (b : Builtin) (args : List Value) (f : Value → List Value → Eval Value) :
    Eval Value :=
  match args with
  | x :: more => f x more
  | [] => misfit b args

/-- Runs a function on arguments whose number it accepts. -/
def perform (e : Engine) (scope : Scope) (b : Builtin) (args : List Value) : Eval Value :=
  match b with
  | .add => number (Number.foldl "+" Number.add (.int 0) args)
  | .multiply => number (Number.foldl "*" Number.mul (.int 1) args)
  | .subtract => number (Number.foldFrom "-" Number.sub 0 args)
  | .divide => number (Number.foldFrom "/" Number.div 1 args)
  | .quot => two b args fun x y => number (Number.binary "quot" Number.quot x y)
  | .rem => two b args fun x y => number (Number.binary "rem" Number.rem x y)
  | .mod => two b args fun x y => number (Number.binary "mod" Number.mod x y)
  | .inc => one b args fun x => number (Number.binary "inc" Number.add x (.int 1))
  | .dec => one b args fun x => number (Number.binary "dec" Number.sub x (.int 1))
  | .max => extreme "max" .gt args
  | .min => extreme "min" .lt args
  | .numEqual => compareChain "==" (· == .eq) args
  | .less => compareChain "<" (· == .lt) args
  | .lessEqual => compareChain "<=" (· != .gt) args
  | .greater => compareChain ">" (· == .gt) args
  | .greaterEqual => compareChain ">=" (· != .lt) args
  | .equal => return .bool (← allEqual e args)
  | .list => return .list args
  | .vector => return .vector args
  | .vec => one b args fun v => return .vector (← (← seqOf "vec" v).toList e)
  | .hashMap => hashMap e args
  | .cons => two b args fun head tail => return .seq (.cons head (← seqOf "cons" tail))
  | .first => one b args fun v => return (← (← seqOf "first" v).first? e).getD .nil
  | .rest => one b args fun v => return .seq (← (← seqOf "rest" v).rest e)
  | .next => one b args fun v => do seqOrNil e (← (← seqOf "next" v).rest e)
  | .seq => one b args fun v => do seqOrNil e (← seqOf "seq" v)
  | .concat => return .seq (.concat .empty (← args.mapM (seqOf "concat")))
  | .nth => twoOrThree b args fun v i fallback => nth e v i fallback
  | .get => twoOrThree b args fun v key fallback => get e v key (fallback.getD .nil)
  | .count => one b args (count e)
  | .assoc => oneAndMore b args (assoc e)
  | .dissoc => oneAndMore b args (dissoc e)
  | .conj => oneAndMore b args (conj e)
  | .keys => one b args (mapPart "keys" (·.1))
  | .vals => one b args (mapPart "vals" (·.2))
  | .contains => two b args (contains e)
  | .lazySeq => one b args fun thunk => return .seq (← Eval.newLazy thunk)
  | .reduce => twoOrThree b args fun f x y =>
      match y with
      | none => reduce e scope f none x
      | some v => reduce e scope f (some x) v
  | .str => str e args
  | .subs => twoOrThree b args subs
  | .print => printValues e .human "" args
  | .println => printValues e .human "\n" args
  | .pr => printValues e .readable "" args
  | .prn => printValues e .readable "\n" args
  | .symbol => return .symbol (← symbolOf "symbol" args)
  | .keyword => keyword args
  | .name => one b args name
  | .gensym => gensym args.head?
  | .int => one b args toInt
  | .double => one b args toDouble
  | .readString => one b args (readString e)
  | .eval => one b args (e.value none)
  | .deref => one b args deref
  | .nsSet => one b args nsSet
  | .nsRefer => one b args nsRefer
  | .nsRemove => one b args nsRemove
  | .nsUnmap => two b args nsUnmap
  | .nsName => one b args nsName
  | .rePattern => one b args fun v => return .pattern (← patternOf "re-pattern" v)
  | .reFind => two b args reFind
  | .reMatches => two b args reMatches
  | .isNil | .isBoolean | .isNumber | .isInt | .isFloat | .isString | .isChar | .isSymbol
  | .isKeyword | .isFn | .isMacro | .isSeq | .isVector | .isMap | .isVar | .isNamespace =>
    one b args fun v => return .bool (isOfType b v)

/-- Calls a built-in function. -/
def call (e : Engine) (scope : Scope) (b : Builtin) (args : List Value) : Eval Value :=
  if b.arity.accepts args.length then perform e scope b args
  else misfit b args

end LazyLisp.Core
