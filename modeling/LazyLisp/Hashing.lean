import LazyLisp.Equality

/-!
Hashing: what a value feeds to a hasher. Vectors and sequences feed one mark and then their
elements, so that equal ones feed the same; a sequence feeds up to its first failure. The entries of
a map are digested one by one and added up, so that their order does not count. Whatever is known by
its place only feeds the place.
-/

namespace LazyLisp
set_option autoImplicit false

/-- What is handed to a hasher at a time. -/
inductive Feed
  /-- In front of the elements of a vector or sequence. -/
  | sequential
  /-- In front of every other value: of which kind it is. -/
  | kind (name : String)
  | bool (b : Bool)
  | int (n : Int64)
  | float (code : UInt64)
  | char (c : Char)
  | text (s : String)
  | symbol (s : Symbol)
  | place (id : Nat)
  | builtin (b : Builtin)
  | special (f : SpecialForm)
  /-- The digests of the entries of a map, added up. -/
  | sum (digests : UInt64)
deriving DecidableEq

/-- What a value feeds that is neither a collection nor a marked form. -/
def Value.feedAtom (v : Value) : List Feed :=
  .kind v.typeName :: match v with
    | .bool b => [.bool b]
    | .int n => [.int n]
    | .float x => [.float (Decimal.code x)]
    | .char c => [.char c]
    | .string s => [.text s]
    | .symbol s | .keyword s => [.symbol s]
    | .space ns => [.place ns]
    | .var id | .unbound id => [.place id]
    | .function id | .transformer id => [.place id]
    | .builtin b => [.builtin b]
    | .special f => [.special f]
    | .pattern source => [.text v.typeName, .text ("#\"" ++ source ++ "\"")]
    | _ => []

/-- What the entries of a map feed, given the digest of each. -/
def Feed.ofDigests (digests : List UInt64) : List Feed :=
  [.kind (Value.map []).typeName, .sum (digests.foldr (· + ·) 0)]

/-- What a marked form feeds, given what the form feeds. -/
def Feed.ofMarked (m : Mark) (form : List Feed) : List Feed :=
  .kind (Value.marked m .nil).typeName :: .text m.text :: form

/-- What the elements of a sequence feed, up to its first failure and within a number of elements. -/
def Seq.feedWithin (e : Engine) (feed : Value → Eval (List Feed)) : Nat → Seq → Eval (List Feed)
  | 0, _ => throw .exhausted
  | n + 1, s => fun w =>
    match s.uncons e w with
    | .ok none w => .ok [] w
    | .ok (some (head, tail)) w =>
      (do return (← feed head) ++ (← Seq.feedWithin e feed n tail) : Eval (List Feed)) w
    | .error (.error _) w => .ok [] w
    | .error .exhausted w => .error .exhausted w

/-- What a value feeds to a hasher, within a depth. Entries of maps are digested by a hasher of
their own. -/
def Value.feedWithin (digest : List Feed → UInt64) (e : Engine) : Nat → Value → Eval (List Feed)
  | 0, _ => throw .exhausted
  | n + 1, v => do
    let feed := Value.feedWithin digest e n
    match v with
    | .vector items => return .sequential :: (← items.mapM feed).flatten
    | .seq s => return .sequential :: (← s.feedWithin e feed e.bound)
    | .map entries =>
      let digests ← entries.mapM fun (k, v) => return digest ((← feed k) ++ (← feed v))
      return Feed.ofDigests digests
    | .marked m form => return Feed.ofMarked m (← feed form)
    | v => return v.feedAtom

/-- What a value feeds to a hasher. -/
def Value.feed (digest : List Feed → UInt64) (e : Engine) (v : Value) : Eval (List Feed) :=
  v.feedWithin digest e e.bound

end LazyLisp
