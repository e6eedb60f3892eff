import LazyLisp.Form.Shorthand
import LazyLisp.Pattern.Matching
import LazyLisp.Token.Lexer

/-!
Reading forms from tokens. The reader keeps a stack of what is open: collections that await their
closing delimiter and marks that await their form. A form that completes while nothing is open
is a top-level form, and its marks are replaced before reading goes on.
-/

namespace LazyLisp
set_option autoImplicit false

/-- Tokens that make no forms. -/
structure ParseError where
  message : String
  span : Span
  /-- The tokens ended inside an open form. -/
  incomplete : Bool := false
deriving DecidableEq, Repr

/-- Why a source cannot be read. -/
inductive ReadError
  | lex (e : LexError)
  | parse (e : ParseError)
deriving DecidableEq, Repr

namespace ReadError

/-- More text could complete the source. -/
def incomplete : ReadError → Bool
  | lex e => e.incomplete
  | parse e => e.incomplete

/-- The kind of error, its line and column, and its wording. -/
def parts : ReadError → String × Nat × Nat × String
  | lex e => ("Lexical error", e.line, e.column, e.message)
  | parse e => ("Parse error", e.span.line, e.span.column, e.message)

def message (e : ReadError) : String :=
  let (kind, line, column, text) := e.parts
  s!"{kind} at line {line}, column {column}: {text}"

end ReadError

abbrev Reading := EStateM ParseError Names

namespace Reading

def intern (text : String) : Reading NameId := do
  let (id, names) := (← get).intern text
  set names
  return id

/-- The symbol of a text: `ns/name` is qualified if both sides of the first slash are there. -/
def symbolNamed (text : String) : Reading Symbol := do
  match Text.splitAtFirst (· == '/') text.toList with
  | some (ns@(_ :: _), name@(_ :: _)) =>
    let ns ← intern (String.ofList ns)
    return .qualified ns (← intern (String.ofList name))
  | _ => return .plain (← intern text)

/-- The form of a single token. -/
def atom (kind : TokenKind) (span : Span) : Reading Value :=
  match kind with
  | .bool b => return .bool b
  | .integer n => return .int n
  | .float x => return .float x
  | .string s => return .string s
  | .char c => return .char c
  | .keyword text => return .keyword (← symbolNamed text)
  | .symbol text =>
    match SpecialForm.ofName? text with
    | some f => return .special f
    | none => return .symbol (← symbolNamed text)
  | .pattern source =>
    match Pattern.compile source with
    | .ok _ => return .pattern source
    | .error e => throw { message := "Invalid regex: " ++ e.message, span := span }
  | .nil | .mark _ | .opening _ | .closing _ | .ending => return .nil

/-- What waits to be completed. -/
inductive Pending
  /-- An open collection with its items, newest first. -/
  | opened (d : Delimiter) (span : Span) (items : List Value)
  | marked (m : Mark)

/-- The form of a closed collection. -/
def collection (d : Delimiter) (span : Span) (items : List Value) : Reading Value :=
  match d with
  | .paren => return .list items
  | .bracket => return .vector items
  | .brace =>
    if items.length % 2 = 0 then return .map (Value.entriesOf items)
    else throw { message := "Map literal must contain an even number of forms", span := span }

/-- Hands a complete form to what awaits it: the marks in front take it, then the innermost open
collection, if there is one. -/
def deliver (form : Value) : List Pending → Value ⊕ List Pending
  | [] => .inl form
  | .marked m :: below => deliver (.marked m form) below
  | .opened d span items :: below => .inr (.opened d span (form :: items) :: below)

/-- Replaces the marks of a top-level form whose first token has the given span. -/
def lowered (span : Span) (form : Value) : Reading Value := fun names =>
  match Shorthand.lower form { names := names } with
  | .ok v st => .ok v st.names
  | .error message st => .error { message := message, span := span } st.names

/-- The end of the tokens. -/
def finish (pending : List Pending) (span : Span) : Reading Unit :=
  match pending with
  | [] => return ()
  | .marked _ :: _ => throw { message := "Unexpected end of input", span := span, incomplete := true }
  | .opened d opened _ :: _ =>
    throw { message := s!"Expected '" ++ d.closing.toString ++ "' before end of input",
            span := opened, incomplete := true }

/-- A closing delimiter completes the innermost open collection. -/
def close (d : Delimiter) (span : Span) : List Pending → Reading (Value × List Pending)
  | .opened e opened items :: below =>
    if d = e then return (← collection d opened items.reverse, below)
    else throw { message := "Unexpected '" ++ d.closing.toString ++ "', expected '" ++
                   e.closing.toString ++ "'", span := span }
  | _ => throw { message := "Unexpected '" ++ d.closing.toString ++ "'", span := span }

/-- Reads the forms of the tokens. `start` is the span of the first token of the current
top-level form. -/
def forms (pending : List Pending) (start : Span) : List Token → Reading (List Value)
  | [] => do
    finish pending start
    return []
  | ⟨.ending, span⟩ :: _ => do
    finish pending span
    return []
  | ⟨.mark m, span⟩ :: rest =>
    forms (.marked m :: pending) (if pending.isEmpty then span else start) rest
  | ⟨.opening d, span⟩ :: rest =>
    forms (.opened d span [] :: pending) (if pending.isEmpty then span else start) rest
  | ⟨.closing d, span⟩ :: rest => do
    let (form, below) ← close d span pending
    match deliver form below with
    | .inr pending => forms pending start rest
    | .inl form =>
      let form ← lowered start form
      return form :: (← forms [] start rest)
  | ⟨kind, span⟩ :: rest => do
    let start := if pending.isEmpty then span else start
    let form ← atom kind span
    match deliver form pending with
    | .inr pending => forms pending start rest
    | .inl form =>
      let form ← lowered start form
      return form :: (← forms [] start rest)

end Reading

/-- Every top-level form of a source, marks replaced. Names met before a failure stay known. -/
def readForms (source : String) : EStateM ReadError Names (List Value) := fun names =>
  match Token.tokens source with
  | .error e => .error (.lex e) names
  | .ok tokens =>
    match Reading.forms [] ⟨0, 0, 1, 1⟩ tokens names with
    | .ok forms names => .ok forms names
    | .error e names => .error (.parse e) names

end LazyLisp
