import LazyLisp.Decimal.Binary
import LazyLisp.Value

/-!
Likeness of forms as they are read: equality of values that hold no lazy part. Lists and vectors
are alike when their elements are.
-/

namespace LazyLisp
set_option autoImplicit false

mutual

def Value.alike : Value → Value → Bool
  | .nil, .nil => true
  | .bool a, .bool b => a == b
  | .int a, .int b => a == b
  | .float a, .float b => Decimal.same a b
  | .char a, .char b => a == b
  | .string a, .string b => a == b
  | .symbol a, .symbol b => a == b
  | .keyword a, .keyword b => a == b
  | .vector xs, .vector ys => Value.allAlike xs ys
  | .vector xs, .seq t => (t.toList?).any fun ys => Value.allAlike xs ys
  | .seq s, .vector ys => s.alikeTo ys
  | .seq s, .seq t => (t.toList?).any fun ys => s.alikeTo ys
  | .map xs, .map ys => xs.length == ys.length && Value.entriesAlike xs ys
  | .space a, .space b => a == b
  | .var a, .var b => a == b
  | .unbound a, .unbound b => a == b
  | .function a, .function b => a == b
  | .transformer a, .transformer b => a == b
  | .builtin a, .builtin b => a == b
  | .special a, .special b => a == b
  | .marked m f, .marked n g => m == n && f.alike g
  | .pattern a, .pattern b => a == b
  | _, _ => false
termination_by structural x => x

/-- A list against the elements of another sequence. -/
def Seq.alikeTo : Seq → List Value → Bool
  | .empty, [] => true
  | .cons h t, y :: ys => h.alike y && t.alikeTo ys
  | _, _ => false
termination_by structural x => x

def Value.allAlike : List Value → List Value → Bool
  | [], [] => true
  | x :: xs, y :: ys => x.alike y && Value.allAlike xs ys
  | _, _ => false
termination_by structural x => x

/-- Every entry has a like entry on the other side. -/
def Value.entriesAlike : List (Value × Value) → List (Value × Value) → Bool
  | [], _ => true
  | (k, v) :: rest, ys =>
    (ys.any fun e => k.alike e.1 && v.alike e.2) && Value.entriesAlike rest ys
termination_by structural x => x

end

/-- Adds an entry, in the place of the one with a like key if there is one. The entries of a map so
stand in the order in which their keys were first put; no reader may rely on it. -/
def Value.putForm (entries : List (Value × Value)) (key value : Value) : List (Value × Value) :=
  match entries with
  | [] => [(key, value)]
  | e :: rest => if key.alike e.1 then (key, value) :: rest else e :: Value.putForm rest key value

/-- The entries of a map written as alternating keys and values; a later key replaces a like
one. -/
def Value.entriesOf (items : List Value) : List (Value × Value) :=
  go items []
where
  go : List Value → List (Value × Value) → List (Value × Value)
    | key :: value :: rest, entries => go rest (Value.putForm entries key value)
    | _, entries => entries

end LazyLisp
