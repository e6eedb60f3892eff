import LazyLisp.Core.Numeric
import LazyLisp.Equality

/-!
The built-in functions on collections.
-/

namespace LazyLisp.Core
set_option autoImplicit false

/-- The sequence of a collection or `nil`. -/
def seqOf (function : String) (v : Value) : Eval Seq :=
  match v.toSeq? with
  | some s => return s
  | none => fail (.invalidArgument function ("expected a collection, got " ++ v.typeName))

def indexOf (function : String) : Value → Eval Int64
  | .int n => return n
  | v => fail (.invalidArgument function ("index must be an integer, got " ++ v.typeName))

/-- The element at an index, absent if the index is negative or too large. -/
def item? {α : Type} (items : List α) (index : Int64) : Option α :=
  if index.toInt < 0 then none else items[index.toInt.toNat]?

/-- A sequence, or `nil` in place of an empty one. -/
def seqOrNil (e : Engine) (s : Seq) : Eval Value := do
  if ← s.isEmpty e then return .nil else return .seq s

/-- Puts alternating keys and values into a map. -/
def putPairs (e : Engine) : Entries → List Value → Eval Entries
  | entries, key :: value :: rest => do putPairs e (← entries.put e key value) rest
  | entries, _ => return entries

def hashMap (e : Engine) (args : List Value) : Eval Value := do
  if args.length % 2 != 0 then
    fail (.invalidArgument "hash-map" "expects an even number of arguments")
  return .map (← putPairs e [] args)

/-- The element of a sequence with `wanted` elements between it and the current position, or the
number of elements seen. Nothing behind the element is looked at. -/
def walkTo (e : Engine) : Nat → Nat → Nat → Seq → Eval (Value ⊕ Nat)
  | 0, _, _, _ => throw .exhausted
  | n + 1, wanted, seen, s => do
    match ← s.uncons e with
    | none => return .inr seen
    | some (head, tail) =>
      if wanted = 0 then return .inl head else walkTo e n (wanted - 1) (seen + 1) tail

/-- The element at an index, or the length that an error reports. -/
def nthOf (e : Engine) (v : Value) (index : Int64) : Eval (Value ⊕ Nat) :=
  let indexed (items : List Value) : Value ⊕ Nat :=
    match item? items index with
    | some v => .inl v
    | none => .inr items.length
  match v with
  | .vector items => return indexed items
  | .string s => return indexed (s.toList.map .char)
  | v => do
    let s ← seqOf "nth" v
    if index.toInt < 0 then return .inr 0 else walkTo e e.bound index.toInt.toNat 0 s

def nth (e : Engine) (v index : Value) (fallback : Option Value) : Eval Value := do
  let i ← indexOf "nth" index
  match v with
  | .nil => return fallback.getD .nil
  | _ =>
    match ← nthOf e v i, fallback with
    | .inl v, _ => return v
    | .inr _, some v => return v
    | .inr length, none => fail (.outOfBounds i.toInt length)

def get (e : Engine) (v key : Value) (fallback : Value) : Eval Value := do
  match v, key with
  | .map entries, key => return (← Entries.get? e entries key).getD fallback
  | .vector items, .int i => return (item? items i).getD fallback
  | .string s, .int i => return ((item? s.toList i).map .char).getD fallback
  | _, _ => return fallback

/-- The number of elements. What is in memory has fewer than a word of 64 bits can count, but a
sequence that is produced while it is walked may have more. -/
def count (e : Engine) (v : Value) : Eval Value := do
  match v with
  | .nil => return .int 0
  | .vector items => return .int (Int64.ofNat items.length)
  | .map entries => return .int (Int64.ofNat entries.length)
  | .string s => return .int (Int64.ofNat s.length)
  | v =>
    let s ← seqOf "count" v
    let n ← s.fold e (fun (n : Nat) _ => return n + 1) 0
    number (Number.ofInt "count" n)

/-- Sets elements of a vector; the index behind the last element adds one. -/
def setItems : List Value → List Value → Eval (List Value)
  | items, key :: value :: rest => do
    let i ← indexOf "assoc" key
    let k := i.toInt.toNat
    if 0 ≤ i.toInt ∧ k < items.length then setItems (items.set k value) rest
    else if 0 ≤ i.toInt ∧ k = items.length then setItems (items ++ [value]) rest
    else fail (.outOfBounds i.toInt items.length)
  | items, _ => return items

def assoc (e : Engine) (v : Value) (pairs : List Value) : Eval Value := do
  if pairs.length % 2 != 0 then
    fail (.invalidArgument "assoc" "expects key/value pairs after the collection")
  match v with
  | .nil => return .map (← putPairs e [] pairs)
  | .map entries => return .map (← putPairs e entries pairs)
  | .vector items => return .vector (← setItems items pairs)
  | v => fail (.invalidArgument "assoc" ("expected a map or vector, got " ++ v.typeName))

def dissoc (e : Engine) (v : Value) (keys : List Value) : Eval Value := do
  match v with
  | .nil => return .nil
  | .map entries => return .map (← keys.foldlM (fun entries key => Entries.remove e entries key) entries)
  | v => fail (.invalidArgument "dissoc" ("expected a map, got " ++ v.typeName))

/-- Adds an entry or all entries of a map. -/
def conjEntry (e : Engine) (entries : Entries) : Value → Eval Entries
  | .vector [key, value] => entries.put e key value
  | .map others => others.foldlM (fun (acc : Entries) p => acc.put e p.1 p.2) entries
  | v => fail (.invalidArgument "conj"
      ("map entries must be [key value] vectors, got " ++ v.typeName))

/-- Vectors grow at the end, lists at the front, maps by entries. -/
def conj (e : Engine) (v : Value) (items : List Value) : Eval Value := do
  match v with
  | .nil => return .seq (items.foldl (fun s item => .cons item s) .empty)
  | .seq s => return .seq (items.foldl (fun s item => .cons item s) s)
  | .vector xs => return .vector (xs ++ items)
  | .map entries => return .map (← items.foldlM (conjEntry e) entries)
  | v => fail (.invalidArgument "conj" ("cannot add to " ++ v.typeName))

/-- The keys or the values of a map as a list, or `nil` if there are none. -/
def mapPart (function : String) (part : Value × Value → Value) (v : Value) : Eval Value :=
  match v with
  | .nil => return .nil
  | .map [] => return .nil
  | .map entries => return .list (entries.map part)
  | v => fail (.invalidArgument function ("expected a map, got " ++ v.typeName))

def contains (e : Engine) (v key : Value) : Eval Value := do
  match v, key with
  | .nil, _ => return .bool false
  | .map entries, key => return .bool (← Entries.get? e entries key).isSome
  | .vector items, .int i => return .bool (item? items i).isSome
  | .string s, .int i => return .bool (item? s.toList i).isSome
  | .vector _, _ => return .bool false
  | .string _, _ => return .bool false
  | v, _ => fail (.invalidArgument "contains?" ("not supported on " ++ v.typeName))

/-- Joins the elements by a function. Without a start the first element is it, and the function
is called with nothing if there is none. -/
def reduce (e : Engine) (scope : Scope) (f : Value) (start : Option Value) (v : Value) :
    Eval Value := do
  let s ← seqOf "reduce" v
  let step := fun (acc item : Value) => e.apply scope f [acc, item]
  match start with
  | some a => s.fold e step a
  | none =>
    match ← s.uncons e with
    | none => e.apply scope f []
    | some (head, tail) => tail.fold e step head

/-- Whether each value equals the next. -/
def allEqual (e : Engine) : List Value → Eval Bool
  | a :: b :: rest => do
    if ← Value.equal e a b then allEqual e (b :: rest) else return false
  | _ => return true

end LazyLisp.Core
