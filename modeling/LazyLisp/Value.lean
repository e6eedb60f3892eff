import LazyLisp.Builtin
import LazyLisp.Names
import LazyLisp.SpecialForm

/-!
The values of the language, which are also its forms. Vars, closures and lazy sequences are
shared, so a value refers to them by their place in the state of the interpreter.
-/

namespace LazyLisp
set_option autoImplicit false

/-- A name with an optional namespace; keywords have the same shape. -/
structure Symbol where
  ns : Option NameId
  name : NameId
deriving DecidableEq, Repr

namespace Symbol

def plain (name : NameId) : Symbol := ⟨none, name⟩

def qualified (ns name : NameId) : Symbol := ⟨some ns, name⟩

def isQualified (s : Symbol) : Bool := s.ns.isSome

end Symbol

/-- The shorthand marks that stand before a form. -/
inductive Mark
  | quote | template | unquote | splice | deref | varQuote
deriving DecidableEq, Repr

namespace Mark

def text : Mark → String
  | quote => "'"
  | template => "`"
  | unquote => "~"
  | splice => "~@"
  | deref => "@"
  | varQuote => "#'"

end Mark

abbrev VarId := Nat
abbrev CellId := Nat
abbrev ClosureId := Nat

mutual

inductive Value
  | nil
  | bool (b : Bool)
  | int (n : Int64)
  | float (x : Float)
  | char (c : Char)
  | string (s : String)
  | symbol (s : Symbol)
  | keyword (s : Symbol)
  | vector (items : List Value)
  | map (entries : List (Value × Value))
  | seq (s : Seq)
  | space (ns : NameId)
  | var (id : VarId)
  /-- What looking up a var without a value yields. -/
  | unbound (id : VarId)
  | function (id : ClosureId)
  /-- A macro: its closure maps argument forms to the form that takes their place. -/
  | transformer (id : ClosureId)
  | builtin (b : Builtin)
  | special (f : SpecialForm)
  /-- A marked form as it was read; reading replaces every one of them. -/
  | marked (mark : Mark) (form : Value)
  /-- A regular expression, known by its text. -/
  | pattern (source : String)

/-- Sequences: lists, views of collections from a position on, lazy cells, concatenations. -/
inductive Seq
  | empty
  | cons (head : Value) (tail : Seq)
  | vectorView (items : List Value) (index : Nat)
  /-- The characters of a text from a byte offset on. -/
  | textView (text : String) (offset : Nat)
  | entryView (entries : List (Value × Value)) (index : Nat)
  | lazy (cell : CellId)
  /-- What is left of `current`, then all of `parts`. -/
  | concat (current : Seq) (parts : List Seq)

end

instance : Inhabited Value := ⟨.nil⟩
instance : Inhabited Seq := ⟨.empty⟩

namespace Seq

/-- The list of the values in order. -/
def ofList (values : List Value) : Seq := values.foldr cons empty

/-- The elements of a sequence made of `cons` and `empty` alone. -/
def toList? : Seq → Option (List Value)
  | empty => some []
  | cons head tail => tail.toList?.map (head :: ·)
  | _ => none

@[simp] theorem toList?_ofList (values : List Value) : (ofList values).toList? = some values := by
  induction values with
  | nil => rfl
  | cons v vs ih => simp [ofList, toList?] at ih ⊢; simp [ih]

end Seq

namespace Value

def list (values : List Value) : Value := .seq (Seq.ofList values)

/-- Only `nil` and `false` count as false. -/
def isTruthy : Value → Bool
  | nil => false
  | bool b => b
  | _ => true

def typeName : Value → String
  | nil => "nil"
  | bool _ => "boolean"
  | int _ => "integer"
  | float _ => "float"
  | char _ => "char"
  | string _ => "string"
  | symbol _ => "symbol"
  | keyword _ => "keyword"
  | vector _ => "vector"
  | map _ => "map"
  | seq _ => "seq"
  | space _ => "namespace"
  | var _ => "var"
  | unbound _ => "unbound"
  | function _ => "function"
  | transformer _ => "macro"
  | builtin _ => "built-in function"
  | special _ => "special form"
  | marked _ _ => "reader macro"
  | pattern _ => "regex"

/-- The sequence that a value can be walked as: `nil` is empty, the rest are collections. -/
def toSeq? : Value → Option Seq
  | nil => some .empty
  | seq s => some s
  | vector items => some (.vectorView items 0)
  | string s => some (.textView s 0)
  | map entries => some (.entryView entries 0)
  | _ => none

end Value

end LazyLisp
