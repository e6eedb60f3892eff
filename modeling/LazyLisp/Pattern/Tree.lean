import LazyLisp.CharSet

/-!
The structure of a regular expression after its flags have taken effect, in a simple form:
neighbouring characters are one literal, sequences and choices do not contain their own kind,
and a choice between single characters is a set.
-/

namespace LazyLisp.Pattern
set_option autoImplicit false

/-- Conditions on a position that take no character. -/
inductive Assertion
  | textStart | textEnd | lineStart | lineEnd | crlfStart | crlfEnd
  | wordEdge (words : CharSet)
  | notWordEdge (words : CharSet)
  | wordStart (words : CharSet)
  | wordEnd (words : CharSet)
  | wordStartHalf (words : CharSet)
  | wordEndHalf (words : CharSet)
deriving DecidableEq

inductive Tree
  | empty
  | literal (text : List Char)
  | chars (set : CharSet)
  | assertion (a : Assertion)
  /-- A captured group. -/
  | group (index : Nat) (body : Tree)
  | sequence (parts : List Tree)
  | choice (parts : List Tree)
  | repeated (body : Tree) (least : Nat) (most : Option Nat) (greedy : Bool)

namespace Tree

mutual

/-- Whether two expressions are written alike. -/
def same : Tree → Tree → Bool
  | empty, empty => true
  | literal a, literal b => a == b
  | chars a, chars b => a == b
  | assertion a, assertion b => a == b
  | group i a, group j b => i == j && a.same b
  | sequence a, sequence b => sameAll a b
  | choice a, choice b => sameAll a b
  | repeated a l m g, repeated b l' m' g' => l == l' && m == m' && g == g' && a.same b
  | _, _ => false

def sameAll : List Tree → List Tree → Bool
  | [], [] => true
  | a :: as, b :: bs => a.same b && sameAll as bs
  | _, _ => false

end

mutual

/-- The number of parts. -/
def size : Tree → Nat
  | empty | literal _ | chars _ | assertion _ => 1
  | group _ body => body.size + 1
  | sequence parts => sizeAll parts + 1
  | choice parts => sizeAll parts + 1
  | repeated body _ _ _ => body.size + 1

def sizeAll : List Tree → Nat
  | [] => 0
  | t :: ts => t.size + sizeAll ts

end

mutual

/-- The least number of characters that a match takes, if every part can match. -/
def minLength? : Tree → Option Nat
  | empty => some 0
  | literal text => some text.length
  | chars set => if set.isEmpty then none else some 1
  | assertion _ => some 0
  | group _ body => body.minLength?
  | sequence parts => minLengthSum? parts
  | choice parts => minLengthLeast? parts
  | repeated body least _ _ => body.minLength?.map (· * least)

def minLengthSum? : List Tree → Option Nat
  | [] => some 0
  | t :: ts => do return (← t.minLength?) + (← minLengthSum? ts)

def minLengthLeast? : List Tree → Option Nat
  | [] => none
  | [t] => t.minLength?
  | t :: ts => do return min (← t.minLength?) (← minLengthLeast? ts)

end

/-- Whether each match takes a character. -/
def takesSome (t : Tree) : Bool := t.minLength?.any (0 < ·)

mutual

/-- Whether only the empty text can match. -/
def onlyEmpty : Tree → Bool
  | empty => true
  | literal _ => false
  | chars _ => false
  | assertion _ => true
  | group _ body => body.onlyEmpty
  | sequence parts => onlyEmptyAll parts
  | choice parts => onlyEmptyAll parts
  | repeated body _ _ _ => body.onlyEmpty

def onlyEmptyAll : List Tree → Bool
  | [] => true
  | t :: ts => t.onlyEmpty && onlyEmptyAll ts

end

mutual

/-- One more than the greatest index of a group. -/
def groupCount : Tree → Nat
  | empty | literal _ | chars _ | assertion _ => 1
  | group index body => max (index + 1) body.groupCount
  | sequence parts => groupCountAll parts
  | choice parts => groupCountAll parts
  | repeated body _ _ _ => body.groupCount

def groupCountAll : List Tree → Nat
  | [] => 1
  | t :: ts => max t.groupCount (groupCountAll ts)

end

/-- A character of a set; a set of one character is that character. -/
def ofSet (s : CharSet) : Tree :=
  match s with
  | [(a, b)] => if a = b then literal [Char.ofNat a] else chars s
  | _ => chars s

/-- Repetition, simplified where the count leaves no choice. -/
def ofRepetition (body : Tree) (least : Nat) (most : Option Nat) (greedy : Bool) : Tree :=
  let least := if body.onlyEmpty then min least 1 else least
  let most := if body.onlyEmpty then some ((most.map (min · 1)).getD 1) else most
  if most == some 0 then empty
  else if least == 1 && most == some 1 then body
  else repeated body least most greedy

/-- The parts of a sequence, without empty parts. -/
def parts : Tree → List Tree
  | empty => []
  | sequence ts => ts
  | t => [t]

/-- Puts neighbouring literals together. -/
def joinLiterals : List Tree → List Tree
  | [] => []
  | t :: ts =>
    match t, joinLiterals ts with
    | literal a, literal b :: rest => literal (a ++ b) :: rest
    | t, rest => t :: rest

/-- One part after the other. -/
def ofParts (ts : List Tree) : Tree :=
  match joinLiterals (ts.flatMap parts) with
  | [] => empty
  | [t] => t
  | joined => sequence joined

def branches : Tree → List Tree
  | choice ts => ts
  | t => [t]

/-- The set of a choice between characters, or between sets. -/
def setOfBranches? (ts : List Tree) : Option CharSet :=
  let character? : Tree → Option (List (Nat × Nat))
    | literal [c] => some [(c.toNat, c.toNat)]
    | _ => none
  let set? : Tree → Option (List (Nat × Nat))
    | chars s => some s
    | _ => none
  ((ts.mapM character?).or (ts.mapM set?)).map fun sets => CharSet.normal sets.flatten

/-- The number of parts with which both lists start. -/
def commonParts : List Tree → List Tree → Nat
  | a :: as, b :: bs => if a.same b then commonParts as bs + 1 else 0
  | _, _ => 0

/-- The number of parts with which all sequences start; 0 if not all are sequences. -/
def sharedParts : List Tree → Nat
  | sequence first :: rest =>
    rest.foldl (fun n t =>
      match t with
      | sequence ts => min n (commonParts first ts)
      | _ => 0) first.length
  | _ => 0

/-- One branch or another. What all branches start with is taken in front of the choice. -/
def ofBranches (ts : List Tree) : Tree := go (sizeAll ts + 1) ts
where
  go : Nat → List Tree → Tree
    | 0, ts => choice ts
    | fuel + 1, ts =>
      match ts.flatMap branches with
      | [t] => t
      | flat =>
        match setOfBranches? flat with
        | some s => ofSet s
        | none =>
          let n := sharedParts flat
          if n = 0 then choice flat
          else
            ofParts ((flat.headD empty).parts.take n ++
              [go fuel (flat.map fun t => ofParts (t.parts.drop n))])

end Tree

end LazyLisp.Pattern
