import LazyLisp.Evaluation.Body

/-!
The special forms. Each checks the shape of its arguments, which are forms, before it evaluates
any of them.
-/

namespace LazyLisp.Evaluation
set_option autoImplicit false

def quote : List Value → Eval Outcome
  | [] => return .value .nil
  | [form] => return .value form
  | args => fail (.arity "quote" (.between 0 1) args.length)

/-- Evaluates one branch. -/
def choose (e : Engine) (scope : Scope) : List Value → Eval Outcome
  | [test, thenForm] => do
    if (← e.value scope test).isTruthy then e.evaluate scope thenForm else return .value .nil
  | [test, thenForm, elseForm] => do
    if (← e.value scope test).isTruthy then e.evaluate scope thenForm
    else e.evaluate scope elseForm
  | args => fail (.arity "if" (.between 2 3) args.length)

/-- The name that a definition defines. A qualified one has to name the current namespace. -/
def definitionTarget (label : String) (form : Value) : Eval NameId := do
  match form with
  | .symbol s =>
    let w ← get
    if s.ns.any (· != w.current) then
      fail (.foreignDefinition (w.symbolText s) (w.nameText w.current))
    return s.name
  | v => fail (.invalidArgument label ("first argument must be a symbol, got " ++ v.typeName))

def noteDefinition (id : VarId) : Eval Unit := do
  let w ← get
  if w.log.eval then
    Eval.note (.defined (w.symbolText (w.varName id)) ((w.spaces.var? id).any Var.isBound))

/-- Declares a var, and binds it if there is an initial value. -/
def define (e : Engine) (scope : Scope) (args : List Value) : Eval Outcome := do
  match args with
  | [target] =>
    let name ← definitionTarget "def" target
    let id ← Eval.declare name
    noteDefinition id
    return .value (.var id)
  | [target, form] =>
    let name ← definitionTarget "def" target
    let value ← e.value scope form
    let id ← Eval.define name value
    noteDefinition id
    return .value (.var id)
  | args => fail (.arity "def" (.between 1 2) args.length)

/-- Splits a binding vector into symbols and the forms of their values. -/
def pairs (label : String) : List Value → Eval (List (Symbol × Value))
  | target :: form :: rest => do
    match target with
    | .symbol ⟨none, name⟩ => return (⟨none, name⟩, form) :: (← pairs label rest)
    | v => fail (.invalidArgument label
        ("binding target must be an unqualified symbol, got " ++ v.typeName))
  | _ => return []

def bindingPairs (label : String) (form : Option Value) : Eval (List (Symbol × Value)) := do
  match form with
  | some (.vector items) =>
    if items.length % 2 != 0 then fail (.unevenBindings label)
    pairs label items
  | _ => fail (.invalidArgument label "first argument must be a binding vector")

/-- Binds from left to right in a new frame; each value sees the bindings before it. -/
def bindAll (e : Engine) (frame : FrameId) : List (Symbol × Value) → Eval Unit
  | [] => return ()
  | (s, form) :: rest => do
    let v ← e.value (some frame) form
    Eval.push frame s v
    bindAll e frame rest

def letIn (e : Engine) (scope : Scope) (args : List Value) : Eval Outcome := do
  let bindings ← bindingPairs "let" args.head?
  let frame ← Eval.newFrame scope
  bindAll e frame bindings
  body e (some frame) args.tail

def looping (e : Engine) (scope : Scope) (args : List Value) : Eval Outcome := do
  let bindings ← bindingPairs "loop" args.head?
  let frame ← Eval.newFrame scope
  bindAll e frame bindings
  return .value (← rounds e frame bindings.length args.tail e.bound)

def varOf : List Value → Eval Outcome
  | [.symbol s] => do
    let w ← get
    match w.lookupVar? s with
    | some id => return .value (.var id)
    | none => fail (.unresolved (w.symbolText s))
  | [v] => fail (.invalidArgument "var" ("expected a symbol, got " ++ v.typeName))
  | args => fail (.arity "var" (.exactly 1) args.length)

/-- The parameters up to `&`, and the rest parameter behind it. -/
def parseParams (label : String) (params : List Symbol) : List Value →
    Eval (List Symbol × Option Symbol)
  | [] => return (params, none)
  | item :: rest =>
    match item with
    | .symbol ⟨none, name⟩ =>
      if name = Names.ampersand then
        match rest with
        | [.symbol ⟨none, more⟩] => return (params, some ⟨none, more⟩)
        | _ => fail (.invalidArgument label "& must be followed by exactly one symbol")
      else parseParams label (params ++ [⟨none, name⟩]) rest
    | v => fail (.invalidArgument label
        ("parameters must be unqualified symbols, got " ++ v.typeName))

def parseClause (label : String) (params : Value) (forms : List Value) : Eval Clause := do
  match params with
  | .vector items =>
    let (fixed, rest) ← parseParams label [] items
    return ⟨fixed, rest, forms⟩
  | v => fail (.invalidArgument label ("parameter list must be a vector, got " ++ v.typeName))

/-- A parameter vector and a body, or a list of them per clause. -/
def parseClauses (e : Engine) (label : String) (forms : List Value) : Eval (List Clause) := do
  match forms with
  | [] => fail (.invalidArgument label "missing parameter vector")
  | .vector items :: rest => return [← parseClause label (.vector items) rest]
  | _ =>
    forms.mapM fun form => do
      match form with
      | .seq s =>
        match ← s.toList e with
        | params :: rest => parseClause label params rest
        | [] => fail (.invalidArgument label "empty arity clause")
      | v => fail (.invalidArgument label ("expected an arity clause, got " ++ v.typeName))

/-- A closure of the clauses in a scope. -/
def makeClosure (e : Engine) (scope : Scope) (name : Option Symbol) (label : String)
    (forms : List Value) : Eval ClosureId := do
  let clauses ← parseClauses e label forms
  match Closure.make name clauses scope label with
  | .ok c => Eval.newClosure c
  | .error err => fail err

def lambda (e : Engine) (scope : Scope) (args : List Value) : Eval Outcome := do
  match args with
  | .symbol ⟨none, name⟩ :: rest =>
    let label := (← get).nameText name
    return .value (.function (← makeClosure e scope (some ⟨none, name⟩) label rest))
  | _ => return .value (.function (← makeClosure e scope none "fn" args))

/-- Clauses behind a description, if there is one. -/
def skipDescription : List Value → List Value
  | .string _ :: next :: rest => next :: rest
  | forms => forms

def defineMacro (e : Engine) (scope : Scope) (args : List Value) : Eval Outcome := do
  match args with
  | [] => fail (.arity "defmacro" (.atLeast 2) 0)
  | target :: rest =>
    let name ← definitionTarget "defmacro" target
    let label := (← get).nameText name
    let id ← makeClosure e scope (some (.plain name)) label (skipDescription rest)
    return .value (.var (← Eval.define name (.transformer id)))

def recur (e : Engine) (scope : Scope) (args : List Value) : Eval Outcome :=
  return .again (← args.mapM (e.value scope))

/-- Calls a function with arguments of which the last is a collection of further ones. -/
def apply (e : Engine) (scope : Scope) (args : List Value) : Eval Outcome := do
  match args with
  | f :: first :: more =>
    let f ← e.value scope f
    let forms := first :: more
    let leading ← forms.dropLast.mapM (e.value scope)
    let spread ← e.value scope (forms.getLast?.getD .nil)
    match spread.toSeq? with
    | none => fail (.invalidArgument "apply"
        ("last argument must be a collection or nil, got " ++ spread.typeName))
    | some s => e.call (.apply scope f (leading ++ (← s.toList e)))
  | args => fail (.arity "apply" (.atLeast 2) args.length)

/-- The value of the first form that has one; if none has, the last failure. -/
def attempt (e : Engine) (scope : Scope) (failure : EvalError) : List Value → Eval Outcome
  | [] => fail failure
  | form :: rest => fun w =>
    match e.evaluate scope form w with
    | .ok (.value v) w => .ok (.value v) w
    | .ok (.again _) w => attempt e scope .misplacedRecur rest w
    | .error (.error err) w => attempt e scope err rest w
    | .error .exhausted w => .error .exhausted w

def special (e : Engine) (scope : Scope) (f : SpecialForm) (args : List Value) : Eval Outcome :=
  match f with
  | .quote => quote args
  | .ifElse => choose e scope args
  | .block => body e scope args
  | .define => define e scope args
  | .letIn => letIn e scope args
  | .varOf => varOf args
  | .lambda => lambda e scope args
  | .defineMacro => defineMacro e scope args
  | .looping => looping e scope args
  | .recur => recur e scope args
  | .apply => apply e scope args
  | .attempt => attempt e scope (.arity "attempt" (.atLeast 1) 0) args

end LazyLisp.Evaluation
