/-!
The special forms: the heads of lists whose arguments are handed over unevaluated.
-/

namespace LazyLisp
set_option autoImplicit false

inductive SpecialForm
  | quote | ifElse | block | define | letIn | varOf | lambda | defineMacro | looping | recur
  | apply | attempt
deriving DecidableEq, Repr

namespace SpecialForm

def all : List SpecialForm :=
  [.quote, .ifElse, .block, .define, .letIn, .varOf, .lambda, .defineMacro, .looping, .recur,
   .apply, .attempt]

theorem mem_all (f : SpecialForm) : f ∈ all := by cases f <;> decide

def text : SpecialForm → String
  | quote => "quote"
  | ifElse => "if"
  | block => "do"
  | define => "def"
  | letIn => "let"
  | varOf => "var"
  | lambda => "fn"
  | defineMacro => "defmacro"
  | looping => "loop"
  | recur => "recur"
  | apply => "apply"
  | attempt => "attempt"

/-- The special form that a symbol's text names; such a text never becomes a symbol. -/
def ofName? (name : String) : Option SpecialForm := all.find? fun f => f.text == name

end SpecialForm

end LazyLisp
