import LazyLisp.Pattern.Tree

/-!
Regular expressions as programs of small instructions. Choices are ordered: the first way
through a choice is preferred to the second.
-/

namespace LazyLisp.Pattern
set_option autoImplicit false

inductive Instruction
  | done
  | chars (set : CharSet) (next : Nat)
  | assertion (a : Assertion) (next : Nat)
  /-- Notes the position in a slot. -/
  | save (slot next : Nat)
  | fork (first second : Nat)

/-- Instructions collected so far; code is laid out from its end. -/
abbrev Layout := StateM (Array Instruction)

namespace Layout

def emit (i : Instruction) : Layout Nat := modifyGet fun code => (code.size, code.push i)

/-- A place for an instruction that is known later. -/
def hold : Layout Nat := emit .done

def fill (address : Nat) (i : Instruction) : Layout Unit :=
  modify fun code => code.setIfInBounds address i

def branch (greedy : Bool) (inside outside : Nat) : Instruction :=
  if greedy then .fork inside outside else .fork outside inside

/-- The characters of a text one after the other. -/
def literal : List Char → Nat → Layout Nat
  | [], next => pure next
  | c :: cs, next => do emit (.chars (CharSet.single c.toNat) (← literal cs next))

/-- `n` copies of a part, the last of which continues at `next`. -/
def copies (part : Nat → Layout Nat) : Nat → Nat → Layout Nat
  | 0, next => pure next
  | n + 1, next => do copies part n (← part next)

/-- Up to `n` copies of a part, each of which may leave for `exit`. -/
def optional (part : Nat → Layout Nat) (greedy : Bool) (exit : Nat) : Nat → Nat → Layout Nat
  | 0, next => pure next
  | n + 1, next => do
    let inside ← part next
    optional part greedy exit n (← emit (branch greedy inside exit))

/-- One or more copies of a part; returns where the first of them starts. -/
def loop (part : Nat → Layout Nat) (greedy : Bool) (next : Nat) : Layout Nat := do
  let again ← hold
  let inside ← part again
  fill again (branch greedy inside next)
  return inside

/-- Any number of copies. A part that can be empty is entered through a choice of its own, so
that an empty round cannot change the preference of the others. -/
def star (part : Nat → Layout Nat) (canBeEmpty greedy : Bool) (next : Nat) : Layout Nat := do
  if canBeEmpty then
    let inside ← loop part greedy next
    emit (branch greedy inside next)
  else
    let again ← hold
    let inside ← part again
    fill again (branch greedy inside next)
    return again

end Layout

namespace Tree

mutual

/-- Lays out code that matches the expression and goes on at `next`. -/
def layout : Tree → Nat → Layout Nat
  | empty, next => pure next
  | literal text, next => Layout.literal text next
  | chars set, next => Layout.emit (.chars set next)
  | assertion a, next => Layout.emit (.assertion a next)
  | group i body, next => do
    let close ← Layout.emit (.save (2 * i + 1) next)
    Layout.emit (.save (2 * i) (← body.layout close))
  | sequence parts, next => layoutSequence parts next
  | choice parts, next => layoutChoice parts next
  | repeated body least most greedy, next =>
    match most with
    | none =>
      if least = 0 then Layout.star body.layout (!body.takesSome) greedy next
      else do Layout.copies body.layout (least - 1) (← Layout.loop body.layout greedy next)
    | some m => do
      Layout.copies body.layout least (← Layout.optional body.layout greedy next (m - least) next)

def layoutSequence : List Tree → Nat → Layout Nat
  | [], next => pure next
  | t :: ts, next => do t.layout (← layoutSequence ts next)

def layoutChoice : List Tree → Nat → Layout Nat
  | [], next => pure next
  | [t], next => t.layout next
  | t :: ts, next => do
    let others ← layoutChoice ts next
    Layout.emit (.fork (← t.layout next) others)

end

end Tree

/-- Code with its entry, and the number of groups counting the whole match. -/
structure Program where
  code : Array Instruction
  start : Nat
  groups : Nat

/-- The program of an expression; the whole match is group 0. -/
def Program.ofTree (t : Tree) : Program :=
  let (start, code) := ((Tree.group 0 t).layout 0).run #[.done]
  ⟨code, start, t.groupCount⟩

end LazyLisp.Pattern
