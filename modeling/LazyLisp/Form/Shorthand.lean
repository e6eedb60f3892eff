import LazyLisp.Form.Alike

/-!
Replacing marked forms by plain ones. A quoted or dereferenced form becomes a list; a template
becomes an expression that builds the form it shows, with the unquoted parts evaluated in place.
The built-in functions it calls are put in as values, so no binding can change what it means.
-/

namespace LazyLisp.Shorthand
set_option autoImplicit false

/-- The store of names, and the fresh symbols of the current template by the names they stand
for. -/
structure State where
  names : Names
  fresh : List (NameId × NameId) := []

abbrev Lower := EStateM String State

/-- The plain form of a part of a template: one element, or a sequence of elements. -/
inductive Piece
  | one (form : Value)
  | spliced (form : Value)

/-- The expression for the elements that a piece contributes. -/
def Piece.elements : Piece → Value
  | one form => .list [.builtin .list, form]
  | spliced form => form

/-- The expression for the piece itself. -/
def Piece.form : Piece → Value
  | one form => form
  | spliced form => form

def quoted (form : Value) : Value := .list [.special .quote, form]

/-- An expression for the elements of all pieces in order. -/
def concatenation (parts : List Value) : Value := .list (.builtin .concat :: parts)

def listOf (parts : List Value) : Value :=
  if parts.isEmpty then .list [.builtin .list] else .list [.builtin .seq, concatenation parts]

def vectorOf (parts : List Value) : Value := .list [.builtin .vec, concatenation parts]

def mapOf (parts : List Value) : Value :=
  .list [.special .apply, .builtin .hashMap, concatenation parts]

/-- The text before a closing `#`, if there is some. -/
def freshStem? (text : String) : Option String :=
  let cs := text.toList
  if cs.getLast? = some '#' ∧ 1 < cs.length then some (String.ofList cs.dropLast) else none

/-- A plain symbol `stem#` stands for one fresh symbol throughout a template. -/
def resolve (s : Symbol) : Lower Symbol := do
  let st ← get
  if s.isQualified then return s
  match freshStem? (st.names.text s.name) with
  | none => return s
  | some stem =>
    match st.fresh.lookup s.name with
    | some id => return .plain id
    | none =>
      let (id, names) := st.names.fresh stem (some "auto")
      set { names := names, fresh := (s.name, id) :: st.fresh : State }
      return .plain id

mutual

/-- The template of a form that holds no marks. -/
def plainTemplate : Value → Lower Value
  | .symbol s => return quoted (.symbol (← resolve s))
  | .special f => return quoted (.special f)
  | .seq s => return listOf (← plainSeq s)
  | .vector items => return vectorOf (← plainItems items)
  | .map entries => return mapOf (← plainEntries entries)
  | v => return v

def plainSeq : Seq → Lower (List Value)
  | .cons h t => do
    let part ← plainTemplate h
    return (Piece.one part).elements :: (← plainSeq t)
  | _ => return []

def plainItems : List Value → Lower (List Value)
  | [] => return []
  | v :: vs => do
    let part ← plainTemplate v
    return (Piece.one part).elements :: (← plainItems vs)

def plainEntries : List (Value × Value) → Lower (List Value)
  | [] => return []
  | (k, v) :: rest => do
    let key ← plainTemplate k
    let value ← plainTemplate v
    return (Piece.one key).elements :: (Piece.one value).elements :: (← plainEntries rest)

end

/-- Runs with no fresh symbols known and forgets those that it made. -/
def ownTemplate {α : Type} (body : Lower α) : Lower α := do
  let outer := (← get).fresh
  modify fun st => { st with fresh := [] }
  let a ← body
  modify fun st => { st with fresh := outer }
  return a

mutual

/-- Replaces every mark outside of templates. -/
def lower : Value → Lower Value
  | .marked .quote f => return quoted (← lower f)
  | .marked .varQuote f => return .list [.special .varOf, ← lower f]
  | .marked .deref f => return .list [.builtin .deref, ← lower f]
  | .marked .template f => return (← ownTemplate (template false f)).form
  | .marked .unquote _ => throw "Unquote (~) outside of syntax-quote"
  | .marked .splice _ => throw "Unquote-splice (~@) outside of syntax-quote"
  | .seq s => return .seq (← lowerSeq s)
  | .vector items => return .vector (← lowerItems items)
  | .map entries => do
    let lowered ← lowerEntries entries
    return .map (lowered.foldl (fun acc e => Value.putForm acc e.1 e.2) [])
  | v => return v

def lowerSeq : Seq → Lower Seq
  | .cons h t => do
    let h ← lower h
    return .cons h (← lowerSeq t)
  | s => return s

def lowerItems : List Value → Lower (List Value)
  | [] => return []
  | v :: vs => do
    let v ← lower v
    return v :: (← lowerItems vs)

def lowerEntries : List (Value × Value) → Lower (List (Value × Value))
  | [] => return []
  | (k, v) :: rest => do
    let k ← lower k
    let v ← lower v
    return (k, v) :: (← lowerEntries rest)

/-- The template of a form. `inside` tells whether it stands in a collection, the only place
where elements can be spliced in. -/
def template (inside : Bool) : Value → Lower Piece
  | .marked .unquote f => return .one (← lower f)
  | .marked .splice f => do
    if inside then return .spliced (← lower f)
    else throw "Unquote-splice (~@) must appear inside a collection"
  | .marked .quote f => do
    let part ← template true f
    return .one (listOf [(Piece.one (quoted (.special .quote))).elements, part.elements])
  | .marked .varQuote f => do
    let part ← template true f
    return .one (listOf [(Piece.one (quoted (.special .varOf))).elements, part.elements])
  | .marked .deref f => do
    let part ← template true f
    return .one (listOf [(Piece.one (.builtin .deref)).elements, part.elements])
  | .marked .template f => do
    let inner ← ownTemplate (template false f)
    return .one (← plainTemplate inner.form)
  | .symbol s => return .one (quoted (.symbol (← resolve s)))
  | .special f => return .one (quoted (.special f))
  | .seq s => return .one (listOf (← templateSeq s))
  | .vector items => return .one (vectorOf (← templateItems items))
  | .map entries => return .one (mapOf (← templateEntries entries))
  | v => return .one v

def templateSeq : Seq → Lower (List Value)
  | .cons h t => do
    let part ← template true h
    return part.elements :: (← templateSeq t)
  | _ => return []

def templateItems : List Value → Lower (List Value)
  | [] => return []
  | v :: vs => do
    let part ← template true v
    return part.elements :: (← templateItems vs)

def templateEntries : List (Value × Value) → Lower (List Value)
  | [] => return []
  | (k, v) :: rest => do
    let key ← template true k
    let value ← template true v
    return key.elements :: value.elements :: (← templateEntries rest)

end

end LazyLisp.Shorthand
