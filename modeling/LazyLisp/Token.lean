import LazyLisp.Decimal.Shortest
import LazyLisp.Value

/-!
Tokens of source text and the places where they stand.
-/

namespace LazyLisp
set_option autoImplicit false

/-- A position in a text: bytes before it, its line, and its column in characters. Lines and columns
of texts with fewer than 2 ^ 32 - 1 characters are words of 32 bits. -/
structure Place where
  offset : Nat := 0
  line : Nat := 1
  column : Nat := 1
deriving DecidableEq, Repr

namespace Place

def step (p : Place) (c : Char) : Place :=
  if c = '\n' then ⟨p.offset + c.utf8Size, p.line + 1, 1⟩
  else ⟨p.offset + c.utf8Size, p.line, p.column + 1⟩

/-- The place behind a text that starts at `p`. -/
def after (p : Place) (text : List Char) : Place := text.foldl step p

@[simp] theorem after_nil (p : Place) : p.after [] = p := rfl

@[simp] theorem after_cons (p : Place) (c : Char) (cs : List Char) :
    p.after (c :: cs) = (p.step c).after cs := rfl

theorem after_append (p : Place) (a b : List Char) : p.after (a ++ b) = (p.after a).after b := by
  simp [after, List.foldl_append]

end Place

inductive Delimiter
  | paren | bracket | brace
deriving DecidableEq, Repr

namespace Delimiter

def opening : Delimiter → Char
  | paren => '('
  | bracket => '['
  | brace => '\x7b'

def closing : Delimiter → Char
  | paren => ')'
  | bracket => ']'
  | brace => '\x7d'

end Delimiter

inductive TokenKind
  | nil
  | bool (b : Bool)
  | integer (n : Int64)
  | float (x : Float)
  | string (s : String)
  | char (c : Char)
  | pattern (source : String)
  | symbol (text : String)
  | keyword (text : String)
  | mark (m : Mark)
  | opening (d : Delimiter)
  | closing (d : Delimiter)
  | ending

namespace TokenKind

/-- The text of a token, escapes resolved. -/
def text : TokenKind → String
  | nil => "nil"
  | bool true => "true"
  | bool false => "false"
  | integer n => toString n.toInt
  | float x => Decimal.positional x
  | string s => "\"" ++ s ++ "\""
  | char c => String.ofList ['\\', c]
  | pattern source => "#\"" ++ source ++ "\""
  | symbol s => s
  | keyword s => ":" ++ s
  | mark m => m.text
  | opening d => d.opening.toString
  | closing d => d.closing.toString
  | ending => "EOF"

end TokenKind

/-- The bytes that a token takes, and the line and column of its first character. -/
structure Span where
  start : Nat
  stop : Nat
  line : Nat
  column : Nat
deriving DecidableEq, Repr

/-- The span between two places. -/
def Span.between (a b : Place) : Span := ⟨a.offset, b.offset, a.line, a.column⟩

structure Token where
  kind : TokenKind
  span : Span

/-- A text that cannot be cut into tokens. -/
structure LexError where
  message : String
  line : Nat
  column : Nat
  /-- The text ended inside a literal that more text could complete. -/
  incomplete : Bool
deriving DecidableEq, Repr

end LazyLisp
