import LazyLisp.Decimal.Binary
import LazyLisp.Sequence

/-!
Equality of values, and maps as lists of entries with pairwise unequal keys. Lists and vectors
are equal when their elements are; functions, vars and macros only to themselves. Comparing
lazy sequences realizes them and can fail; as a key of a map, what cannot be compared is equal
to nothing.
-/

namespace LazyLisp
set_option autoImplicit false

/-- A failed comparison counts as unequal. -/
def Eval.orFalse (m : Eval Bool) : Eval Bool := fun w =>
  match m w with
  | .error (.error _) w => .ok false w
  | r => r

/-- A failed walk counts as finished. -/
def Eval.orDone (m : Eval Unit) : Eval Unit := fun w =>
  match m w with
  | .error (.error _) w => .ok () w
  | r => r

namespace Equality

/-- Element by element; the lists have the same length. -/
def allEqual (eq : Value → Value → Eval Bool) : List Value → List Value → Eval Bool
  | x :: xs, y :: ys => do
    if ← eq x y then allEqual eq xs ys else return false
  | _, _ => return true

/-- Element by element, one of each side at a time. -/
def seqEqual (e : Engine) (eq : Value → Value → Eval Bool) : Nat → Seq → Seq → Eval Bool
  | 0, _, _ => throw .exhausted
  | n + 1, s, t => do
    let a ← s.uncons e
    let b ← t.uncons e
    match a, b with
    | none, none => return true
    | some (x, s), some (y, t) => if ← eq x y then seqEqual e eq n s t else return false
    | _, _ => return false

/-- The value stored under a key. -/
def lookup (eq : Value → Value → Eval Bool) (key : Value) :
    List (Value × Value) → Eval (Option Value)
  | [] => return none
  | (k, v) :: rest => do
    if ← (eq k key).orFalse then return some v else lookup eq key rest

/-- Whether every entry is found on the other side with an equal value. -/
def entriesEqual (eq : Value → Value → Eval Bool) (other : List (Value × Value)) :
    List (Value × Value) → Eval Bool
  | [] => return true
  | (k, v) :: rest => do
    match ← lookup eq k other with
    | none => return false
    | some v' => if ← (eq v v').orFalse then entriesEqual eq other rest else return false

end Equality

/-- Equality within a depth. -/
def Value.equalWithin (e : Engine) : Nat → Value → Value → Eval Bool
  | 0, _, _ => throw .exhausted
  | n + 1, a, b =>
    let eq := Value.equalWithin e n
    match a, b with
    | .nil, .nil => return true
    | .bool a, .bool b => return a == b
    | .int a, .int b => return a == b
    | .float a, .float b => return Decimal.same a b
    | .char a, .char b => return a == b
    | .string a, .string b => return a == b
    | .symbol a, .symbol b => return a == b
    | .keyword a, .keyword b => return a == b
    | .vector xs, .vector ys =>
      if xs.length == ys.length then Equality.allEqual eq xs ys else return false
    | .seq s, .seq t => Equality.seqEqual e eq e.bound s t
    | .seq s, .vector ys => Equality.seqEqual e eq e.bound s (.vectorView ys 0)
    | .vector xs, .seq t => Equality.seqEqual e eq e.bound t (.vectorView xs 0)
    | .map xs, .map ys =>
      if xs.length == ys.length then Equality.entriesEqual eq ys xs else return false
    | .space a, .space b => return a == b
    | .var a, .var b => return a == b
    | .unbound a, .unbound b => return a == b
    | .function a, .function b => return a == b
    | .transformer a, .transformer b => return a == b
    | .builtin a, .builtin b => return a == b
    | .special a, .special b => return a == b
    | .marked m f, .marked n g => if m == n then (eq f g).orFalse else return false
    | .pattern a, .pattern b => return a == b
    | _, _ => return false

def Value.equal (e : Engine) (a b : Value) : Eval Bool := Value.equalWithin e e.bound a b

/-- Realizes the lazy parts of a value, each up to its first failure. -/
def Value.settleWithin (e : Engine) : Nat → Value → Eval Unit
  | 0, _ => throw .exhausted
  | n + 1, v =>
    let settle := Value.settleWithin e n
    match v with
    | .vector items => items.forM settle
    | .seq s => (s.fold e (fun _ item => settle item) ()).orDone
    | .map entries => entries.forM fun (k, v) => do settle k; settle v
    | .marked _ form => settle form
    | _ => return ()

/-- Realizes the lazy parts of a value, as every use as a key of a map does. -/
def Value.settle (e : Engine) (v : Value) : Eval Unit := Value.settleWithin e e.bound v

/-- Entries of a map: what is done with them by key. -/
abbrev Entries := List (Value × Value)

namespace Entries

def get? (e : Engine) (entries : Entries) (key : Value) : Eval (Option Value) := do
  key.settle e
  Equality.lookup (Value.equal e) key entries

/-- Replaces the entry with an equal key, or adds one at the end. -/
def putInto (e : Engine) (key value : Value) : Entries → Eval Entries
  | [] => return [(key, value)]
  | (k, v) :: rest => do
    if ← (Value.equal e k key).orFalse then return (key, value) :: rest
    else return (k, v) :: (← putInto e key value rest)

def put (e : Engine) (entries : Entries) (key value : Value) : Eval Entries := do
  key.settle e
  putInto e key value entries

/-- The entries without the one with an equal key. -/
def removeFrom (e : Engine) (key : Value) : Entries → Eval Entries
  | [] => return []
  | (k, v) :: rest => do
    if ← (Value.equal e k key).orFalse then return rest
    else return (k, v) :: (← removeFrom e key rest)

def remove (e : Engine) (entries : Entries) (key : Value) : Eval Entries := do
  key.settle e
  removeFrom e key entries

end Entries

end LazyLisp
