import LazyLisp.Text.Blank

/-!
Tracing: the domains that can be switched on, and the events that are noted for them.
-/

namespace LazyLisp
set_option autoImplicit false

inductive LogDomain
  | eval | read | expand
deriving DecidableEq, Repr

namespace LogDomain

def all : List LogDomain := [eval, read, expand]

def name : LogDomain → String
  | eval => "eval"
  | read => "read"
  | expand => "expand"

def ofName? (text : String) : Option LogDomain := all.find? fun d => d.name == text

end LogDomain

/-- Which domains are traced. -/
structure LogDomains where
  eval : Bool := false
  read : Bool := false
  expand : Bool := false
deriving DecidableEq, Repr

namespace LogDomains

def none : LogDomains := {}

def all : LogDomains := ⟨true, true, true⟩

def isEnabled (ds : LogDomains) : LogDomain → Bool
  | .eval => ds.eval
  | .read => ds.read
  | .expand => ds.expand

def set (ds : LogDomains) (domain : LogDomain) (on : Bool) : LogDomains :=
  match domain with
  | .eval => { ds with eval := on }
  | .read => { ds with read := on }
  | .expand => { ds with expand := on }

def any (ds : LogDomains) : Bool := ds.eval || ds.read || ds.expand

/-- The traced domains by name, or `none`. -/
def text (ds : LogDomains) : String :=
  let names := (LogDomain.all.filter ds.isEnabled).map LogDomain.name
  if names.isEmpty then "none" else ",".intercalate names

/-- One word of a list of domains: a domain is added, `all` and `none` start afresh. -/
def addNamed (ds : LogDomains) (name : String) : Except String LogDomains :=
  if name == "all" then .ok all
  else if name == "none" then .ok none
  else match LogDomain.ofName? name with
    | some d => .ok (ds.set d true)
    | .none => .error ("unknown log domain '" ++ name ++ "'")

/-- Reads a list of domains parted by commas. -/
def parse (list : String) : Except String LogDomains :=
  let words := ((Text.pieces (· == ',') list.toList).map fun w => Text.trim (String.ofList w)).filter
    fun w => !w.isEmpty
  words.foldlM addNamed none

end LogDomains

/-- What a trace tells. -/
inductive Event
  | evaluating (form : String)
  | defined (var : String) (bound : Bool)
  | readForm (form : String)
  | expanded (expansion : String)
  | loaded (file : String) (forms : Nat)
deriving DecidableEq, Repr

end LazyLisp
