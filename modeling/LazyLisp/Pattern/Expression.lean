import LazyLisp.CharSet

/-!
Regular expressions as they are written, before their flags take effect.
-/

namespace LazyLisp.Pattern
set_option autoImplicit false

/-- What the letters of a flag group switch. -/
inductive Flag
  | ignoreCase | multiLine | dotNewline | swapGreed | unicode | crlf | verbose
deriving DecidableEq, Repr

/-- A character as it is written. -/
structure Letter where
  char : Char
  /-- Two hexadecimal digits write a byte; it is a character only where characters are meant. -/
  isByte : Bool := false

/-- The classes with a letter of their own. -/
inductive Family
  | digit | space | word

/-- A property of characters by its name, or by its name and a value. -/
inductive PropertyName
  | alone (name : String)
  | valued (property value : String)

/-- Sets of characters that have a name. -/
inductive NamedSet
  | family (family : Family) (negated : Bool)
  | ascii (set : CharSet) (negated : Bool)
  | property (name : PropertyName) (negated : Bool)

/-- Set operations of bracketed classes. -/
inductive SetOp
  | inter | diff | symmDiff

/-- What stands between brackets. -/
inductive ClassSet
  | empty
  | letter (l : Letter)
  | range (first last : Letter)
  | named (s : NamedSet)
  | bracketed (negated : Bool) (body : ClassSet)
  | union (items : List ClassSet)
  | operation (op : SetOp) (left right : ClassSet)

/-- Conditions on a position; what a line, a word or a text is depends on the flags. -/
inductive Position
  | start | stop | textStart | textEnd
  | wordEdge | notWordEdge | wordStart | wordEnd | wordStartHalf | wordEndHalf

inductive Expression
  | empty
  /-- Flags for the rest of the enclosing group. -/
  | flags (changes : List (Flag × Bool))
  | letter (l : Letter)
  | dot
  | position (p : Position)
  | named (s : NamedSet)
  | bracketed (negated : Bool) (body : ClassSet)
  | repeated (body : Expression) (least : Nat) (most : Option Nat) (greedy : Bool)
  | captured (index : Nat) (body : Expression)
  /-- A group that is not captured, with flags of its own. -/
  | flagged (changes : List (Flag × Bool)) (body : Expression)
  | sequence (parts : List Expression)
  | choice (parts : List Expression)

/-- Items side by side; one item needs no union. -/
def ClassSet.ofItems : List ClassSet → ClassSet
  | [] => .empty
  | [s] => s
  | items => .union items

def Expression.ofParts : List Expression → Expression
  | [] => .empty
  | [e] => e
  | parts => .sequence parts

def Expression.ofBranches : List Expression → Expression
  | [e] => e
  | branches => .choice branches

namespace ClassSet

mutual

/-- How deep the sets are nested. -/
def depth : ClassSet → Nat
  | empty | letter _ | range _ _ | named _ => 0
  | bracketed _ body => body.depth + 1
  | union items => depthAll items + 1
  | operation _ left right => max left.depth right.depth + 1

def depthAll : List ClassSet → Nat
  | [] => 0
  | s :: ss => max s.depth (depthAll ss)

end

end ClassSet

namespace Expression

mutual

/-- How deep the parts are nested. -/
def depth : Expression → Nat
  | empty | flags _ | letter _ | dot | position _ | named _ => 0
  | bracketed _ body => body.depth + 1
  | repeated body _ _ _ => body.depth + 1
  | captured _ body => body.depth + 1
  | flagged _ body => body.depth + 1
  | sequence parts => depthAll parts + 1
  | choice parts => depthAll parts + 1

def depthAll : List Expression → Nat
  | [] => 0
  | e :: es => max e.depth (depthAll es)

end

/-- Nothing is there to repeat. -/
def isBlank : Expression → Bool
  | empty | flags _ => true
  | _ => false

end Expression

end LazyLisp.Pattern
