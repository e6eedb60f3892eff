import LazyLisp.Decimal.Shortest
import LazyLisp.Sequence
import LazyLisp.Text.Literal

/-!
The text of values, for people or as it is read. Printing a sequence realizes it.
-/

namespace LazyLisp
set_option autoImplicit false

structure Style where
  /-- Write strings and characters as literals. -/
  literal : Bool
  /-- Write names; otherwise their positions in the store of names. -/
  named : Bool := true

namespace Style

/-- Literals and names. -/
def readable : Style := { literal := true }

/-- Plain text and names. -/
def human : Style := { literal := false }

/-- Literals, and positions in place of names. -/
def raw : Style := { literal := true, named := false }

def nameText (style : Style) (w : World) (id : NameId) : String :=
  if style.named then w.nameText id else "#" ++ toString id

def symbolText (style : Style) (w : World) (s : Symbol) : String :=
  match s.ns with
  | some ns => style.nameText w ns ++ "/" ++ style.nameText w s.name
  | none => style.nameText w s.name

/-- A closure by its kind and name. -/
def closureText (style : Style) (w : World) (kind : String) (id : ClosureId) : String :=
  match (w.closures[id]?).bind (·.name) with
  | some s => "#<" ++ kind ++ " " ++ style.symbolText w s ++ ">"
  | none => "#<" ++ kind ++ ">"

end Style

/-- The text of a value within a depth. -/
def Value.textWithin (e : Engine) (style : Style) : Nat → Value → Eval String
  | 0, _ => throw .exhausted
  | n + 1, v => do
    let text := Value.textWithin e style n
    let w ← get
    match v with
    | .nil => return "nil"
    | .bool b => return if b then "true" else "false"
    | .int n => return toString n.toInt
    | .float x => return Decimal.display x
    | .char c => return if style.literal then Text.charLiteral c else c.toString
    | .string s => return if style.literal then Text.stringLiteral s else s
    | .symbol s => return style.symbolText w s
    | .keyword s => return ":" ++ style.symbolText w s
    | .vector items => return "[" ++ " ".intercalate (← items.mapM text) ++ "]"
    | .map entries =>
      let parts ← entries.mapM fun (k, v) => do
        let k ← text k
        return k ++ " " ++ (← text v)
      return "\x7b" ++ ", ".intercalate parts ++ "\x7d"
    | .seq s =>
      let parts ← s.fold e (fun (acc : Array String) v => return acc.push (← text v)) #[]
      return "(" ++ " ".intercalate parts.toList ++ ")"
    | .space id => return "#<namespace " ++ style.nameText w id ++ ">"
    | .var id => return "#'" ++ style.symbolText w (w.varName id)
    | .unbound id => return "#<unbound #'" ++ style.symbolText w (w.varName id) ++ ">"
    | .function id => return style.closureText w "fn" id
    | .transformer id => return style.closureText w "macro" id
    | .builtin b => return "#<builtin " ++ b.text ++ ">"
    | .special f => return f.text
    | .marked m form => return m.text ++ (← text form)
    | .pattern source => return if style.literal then "#\"" ++ source ++ "\"" else source

/-- The text of a value. -/
def Value.text (e : Engine) (style : Style) (v : Value) : Eval String :=
  Value.textWithin e style e.bound v

/-- The text of a value, or the name of its type where it cannot be printed. -/
def Value.textOrType (e : Engine) (v : Value) : Eval String := fun w =>
  match v.text e .readable w with
  | .error (.error _) w => .ok ("#<" ++ v.typeName ++ ">") w
  | r => r

end LazyLisp
