import LazyLisp.Core.Collection
import LazyLisp.Form.Reading
import LazyLisp.Printer

/-!
The built-in functions on strings, symbols and patterns, and those that print.
-/

namespace LazyLisp.Core
set_option autoImplicit false

/-- The texts of all values but `nil`, joined. -/
def str (e : Engine) (args : List Value) : Eval Value := do
  let parts ← args.mapM fun v =>
    match v with
    | .nil => return ""
    | v => v.text e .human
  return .string (String.join parts)

/-- Prints the values with blanks between them. -/
def printValues (e : Engine) (style : Style) (ending : String) (args : List Value) : Eval Value := do
  let parts ← args.mapM fun v => v.text e style
  Eval.print (" ".intercalate parts ++ ending)
  return .nil

/-- The characters from one index up to another. -/
def subs (v start : Value) (stop : Option Value) : Eval Value := do
  match v with
  | .string s =>
    let cs := s.toList
    let length := cs.length
    let a ← indexOf "subs" start
    let b ← match stop with
      | some v => pure (← indexOf "subs" v).toInt
      | none => pure (length : Int)
    let inRange := fun (i : Int) => decide (0 ≤ i ∧ i ≤ length)
    if !inRange a.toInt then fail (.outOfBounds a.toInt length)
    if !inRange b then fail (.outOfBounds b length)
    if b < a.toInt then fail (.outOfBounds a.toInt b.toNat)
    return .string (String.ofList ((cs.drop a.toInt.toNat).take (b - a.toInt).toNat))
  | v => fail (.invalidArgument "subs" ("expected a string, got " ++ v.typeName))

/-- The text of a string or a name. -/
def nameText (function : String) (v : Value) : Eval String := do
  match v with
  | .string s => return s
  | .symbol s => return (← MonadState.get).symbolText s
  | .keyword s => return (← MonadState.get).symbolText s
  | v => fail (.invalidArgument function ("expected a string or symbol, got " ++ v.typeName))

/-- A symbol of one text, which a slash may part, or of a namespace and a name. -/
def symbolOf (function : String) (args : List Value) : Eval Symbol := do
  match args with
  | [name] =>
    let text ← nameText function name
    match Text.splitAtFirst (· == '/') text.toList with
    | some (ns@(_ :: _), local_@(_ :: _)) =>
      let ns ← Eval.intern (String.ofList ns)
      return .qualified ns (← Eval.intern (String.ofList local_))
    | _ => return .plain (← Eval.intern text)
  | [ns, name] =>
    let local_ ← nameText function name
    match ns with
    | .nil => return .plain (← Eval.intern local_)
    | ns =>
      let ns ← Eval.intern (← nameText function ns)
      return .qualified ns (← Eval.intern local_)
  | _ => return .plain 0

def keyword (args : List Value) : Eval Value := do
  match args with
  | [.keyword s] => return .keyword s
  | _ => return .keyword (← symbolOf "keyword" args)

def name : Value → Eval Value
  | .symbol s => return .string ((← MonadState.get).nameText s.name)
  | .keyword s => return .string ((← MonadState.get).nameText s.name)
  | .string s => return .string s
  | v => fail (.invalidArgument "name"
      ("expected a symbol, keyword or string, got " ++ v.typeName))

/-- A symbol that was never seen before. -/
def gensym (stem : Option Value) : Eval Value := do
  let stem ← match stem with
    | none => pure "G"
    | some (.string s) => pure s
    | some (.symbol s) => pure ((← MonadState.get).nameText s.name)
    | some v => fail (.invalidArgument "gensym" ("prefix must be a string, got " ++ v.typeName))
  modifyGet fun w =>
    let (id, names) := w.names.fresh stem none
    (.symbol (.plain id), { w with names := names })

/-- The source of a pattern, compiled once to see that it is one. -/
def patternOf (function : String) (v : Value) : Eval String :=
  match v with
  | .pattern source => return source
  | .string source =>
    match Pattern.compile source with
    | .ok _ => return source
    | .error err => fail (.invalidArgument function err.message)
  | v => fail (.invalidArgument function ("expected a pattern or string, got " ++ v.typeName))

def textOf (function : String) : Value → Eval String
  | .string s => return s
  | v => fail (.invalidArgument function ("expected a string, got " ++ v.typeName))

/-- The whole match alone, or a vector of it and the groups. -/
def matchValue : Option (List (Option String)) → Value
  | none => .nil
  | some groups =>
    let group := fun (g : Option String) => (g.map Value.string).getD .nil
    match groups with
    | [whole] => group whole
    | _ => .vector (groups.map group)

def reFind (pattern text : Value) : Eval Value := do
  let text ← textOf "re-find" text
  let source ← patternOf "re-find" pattern
  return matchValue (Pattern.find? source text)

def reMatches (pattern text : Value) : Eval Value := do
  let text ← textOf "re-matches" text
  let source ← patternOf "re-matches" pattern
  return matchValue (Pattern.matchAll? source text)

end LazyLisp.Core
