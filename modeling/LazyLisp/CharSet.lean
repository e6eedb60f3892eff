/-!
Sets of characters as sorted, disjoint ranges of code points.
-/

namespace LazyLisp
set_option autoImplicit false

/-- Ranges with both ends included. -/
abbrev CharSet := List (Nat × Nat)

namespace CharSet

/-- The last code point. -/
def last : Nat := 0x10FFFF

def full : CharSet := [(0, last)]

def single (n : Nat) : CharSet := [(n, n)]

def meets (s : CharSet) (n : Nat) : Bool := s.any fun r => r.1 ≤ n && n ≤ r.2

def contains (s : CharSet) (c : Char) : Bool := s.meets c.toNat

/-- Joins ranges that overlap or touch; the ranges come sorted by their first point. -/
def merge : List (Nat × Nat) → CharSet
  | [] => []
  | r :: rest => go r rest
where
  go (r : Nat × Nat) : List (Nat × Nat) → CharSet
    | [] => [r]
    | next :: rest =>
      if next.1 ≤ r.2 + 1 then go (r.1, max r.2 next.2) rest else r :: go next rest

/-- Sorted and disjoint form of any list of ranges. -/
def normal (ranges : List (Nat × Nat)) : CharSet :=
  merge (ranges.mergeSort fun a b => a.1 ≤ b.1)

def union (a b : CharSet) : CharSet := normal (a ++ b)

/-- The code points outside a set. -/
def complement (s : CharSet) : CharSet := go 0 s
where
  go (start : Nat) : List (Nat × Nat) → CharSet
    | [] => if start ≤ last then [(start, last)] else []
    | (a, b) :: rest => if start < a then (start, a - 1) :: go (b + 1) rest else go (b + 1) rest

def inter (a b : CharSet) : CharSet := complement (union (complement a) (complement b))

def diff (a b : CharSet) : CharSet := inter a (complement b)

def symmDiff (a b : CharSet) : CharSet := union (diff a b) (diff b a)

/-- The number written by hexadecimal digits, the letters in upper case. -/
def ofHex (digits : List Char) : Nat :=
  digits.foldl (fun n c => 16 * n + (if c.isDigit then c.toNat - 48 else c.toNat - 55)) 0

/-- The ranges written on lines such as `41-5A 61-7A AA`. -/
def ofText (lines : List String) : CharSet :=
  (lines.flatMap fun l => l.splitOn " ").map fun word =>
    let first := word.toList.takeWhile (· != '-')
    match word.toList.drop (first.length + 1) with
    | [] => (ofHex first, ofHex first)
    | last => (ofHex first, ofHex last)

end CharSet

end LazyLisp
