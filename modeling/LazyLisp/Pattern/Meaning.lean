import LazyLisp.CharSet.Named
import LazyLisp.Pattern.Expression
import LazyLisp.Pattern.Tree

/-!
What a written expression means once its flags take effect. Names of properties are looked up
here, and in byte mode, where a part could match half a character, it is refused.
-/

namespace LazyLisp.Pattern
set_option autoImplicit false

/-- The switches that a flag group changes. -/
structure Flags where
  ignoreCase : Bool := false
  multiLine : Bool := false
  dotNewline : Bool := false
  swapGreed : Bool := false
  unicode : Bool := true
  crlf : Bool := false
  verbose : Bool := false

namespace Flags

def put (f : Flags) (flag : Flag) (on : Bool) : Flags :=
  match flag with
  | .ignoreCase => { f with ignoreCase := on }
  | .multiLine => { f with multiLine := on }
  | .dotNewline => { f with dotNewline := on }
  | .swapGreed => { f with swapGreed := on }
  | .unicode => { f with unicode := on }
  | .crlf => { f with crlf := on }
  | .verbose => { f with verbose := on }

def change (f : Flags) (changes : List (Flag × Bool)) : Flags :=
  changes.foldl (fun f c => f.put c.1 c.2) f

/-- A set with the other cases of its characters, if case is ignored. -/
def close (f : Flags) (s : CharSet) : CharSet :=
  if !f.ignoreCase then s else if f.unicode then s.closeCase else s.closeAsciiCase

/-- A set or its complement; a complement in byte mode could match half a character. -/
def signed? (f : Flags) (negated : Bool) (s : CharSet) : Option CharSet :=
  if !negated then some s
  else if f.unicode then some s.complement else none

/-- The character that a letter stands for. In byte mode a byte beyond ASCII is none. -/
def character? (f : Flags) (l : Letter) : Option Char :=
  if !f.unicode && l.isByte && 128 ≤ l.char.toNat then none else some l.char

/-- A letter between brackets, where byte mode knows ASCII only. -/
def member? (f : Flags) (l : Letter) : Option Nat :=
  if !f.unicode && 128 ≤ l.char.toNat then none else some l.char.toNat

end Flags

def Family.set (family : Family) (unicode : Bool) : CharSet :=
  match family, unicode with
  | .digit, true => CharSet.digit
  | .digit, false => [(48, 57)]
  | .space, true => CharSet.whiteSpace
  | .space, false => [(9, 13), (32, 32)]
  | .word, true => CharSet.word
  | .word, false => [(48, 57), (65, 90), (95, 95), (97, 122)]

def PropertyName.set? : PropertyName → Option CharSet
  | .alone name => CharSet.named? name
  | .valued property value => CharSet.valued? property value

def NamedSet.resolve? (s : NamedSet) (f : Flags) : Option CharSet :=
  match s with
  | .family kind negated => f.signed? negated (kind.set f.unicode)
  | .ascii set negated => f.signed? negated (f.close set)
  | .property name negated =>
    if !f.unicode then none else name.set?.bind fun set => f.signed? negated (f.close set)

def SetOp.apply (op : SetOp) (f : Flags) (a b : CharSet) : CharSet :=
  match op with
  | .inter => (f.close a).inter (f.close b)
  | .diff => (f.close a).diff (f.close b)
  | .symmDiff => (f.close a).symmDiff (f.close b)

namespace ClassSet

mutual

/-- The characters of a class. -/
def resolve? (f : Flags) : ClassSet → Option CharSet
  | empty => some []
  | letter l => (f.member? l).map CharSet.single
  | range first last => do return [(← f.member? first, ← f.member? last)]
  | named s => s.resolve? f
  | bracketed negated body => do f.signed? negated (f.close (← body.resolve? f))
  | union items => (resolveAll? f items).map CharSet.normal
  | operation op left right => do return op.apply f (← left.resolve? f) (← right.resolve? f)

/-- The ranges of all classes together. -/
def resolveAll? (f : Flags) : List ClassSet → Option (List (Nat × Nat))
  | [] => some []
  | s :: ss => do return (← s.resolve? f) ++ (← resolveAll? f ss)

end

end ClassSet

def Position.assertion (p : Position) (f : Flags) : Assertion :=
  let words := Family.word.set f.unicode
  match p with
  | .start => if !f.multiLine then .textStart else if f.crlf then .crlfStart else .lineStart
  | .stop => if !f.multiLine then .textEnd else if f.crlf then .crlfEnd else .lineEnd
  | .textStart => .textStart
  | .textEnd => .textEnd
  | .wordEdge => .wordEdge words
  | .notWordEdge => .notWordEdge words
  | .wordStart => .wordStart words
  | .wordEnd => .wordEnd words
  | .wordStartHalf => .wordStartHalf words
  | .wordEndHalf => .wordEndHalf words

namespace Expression

mutual

/-- The meaning of an expression under flags, and the flags for what follows it. -/
def resolve? : Expression → Flags → Option (Tree × Flags)
  | empty, f => some (.empty, f)
  | flags changes, f => some (.empty, f.change changes)
  | letter l, f => do
    let c ← f.character? l
    return (.ofSet (f.close (CharSet.single c.toNat)), f)
  | dot, f =>
    if !f.unicode then none
    else
      let stop : CharSet :=
        if f.dotNewline then [] else if f.crlf then [(10, 10), (13, 13)] else [(10, 10)]
      some (.chars stop.complement, f)
  | position p, f => some (.assertion (p.assertion f), f)
  | named s, f => do return (.ofSet (← s.resolve? f), f)
  | bracketed negated body, f => do
    return (.ofSet (← f.signed? negated (f.close (← body.resolve? f))), f)
  | repeated body least most greedy, f => do
    let (t, f) ← body.resolve? f
    return (.ofRepetition t least most (greedy != f.swapGreed), f)
  | captured index body, f => do
    let (t, _) ← body.resolve? f
    return (.group index t, f)
  | flagged changes body, f => do
    let (t, _) ← body.resolve? (f.change changes)
    return (t, f)
  | sequence parts, f => do
    let (ts, f) ← resolveAll? parts f
    return (.ofParts ts, f)
  | choice branches, f => do
    let (ts, f) ← resolveAll? branches f
    return (.ofBranches ts, f)

def resolveAll? : List Expression → Flags → Option (List Tree × Flags)
  | [], f => some ([], f)
  | e :: es, f => do
    let (t, f) ← e.resolve? f
    let (ts, f) ← resolveAll? es f
    return (t :: ts, f)

end

end Expression

end LazyLisp.Pattern
