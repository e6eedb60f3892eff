import LazyLisp.CharSet

/-!
Sets of characters as sequences of byte ranges. The characters between two given ones, written
in UTF-8, are those texts whose bytes lie in the ranges of one of finitely many sequences.
-/

namespace LazyLisp.Pattern
set_option autoImplicit false

/-- A range of bytes for each byte of a character. -/
abbrev ByteSequence := List (Nat × Nat)

namespace ByteSequence

/-- The bytes of a code point in UTF-8. -/
def utf8 (n : Nat) : List Nat :=
  if n < 0x80 then [n]
  else if n < 0x800 then [0xC0 + n / 64, 0x80 + n % 64]
  else if n < 0x10000 then [0xE0 + n / 4096, 0x80 + n / 64 % 64, 0x80 + n % 64]
  else [0xF0 + n / 262144, 0x80 + n / 4096 % 64, 0x80 + n / 64 % 64, 0x80 + n % 64]

/-- Where to cut a range of code points so that the last bytes of its parts vary freely: behind
the first block of `size` code points if the range starts inside it, or before the last one if
the range ends inside it. -/
def blockCut? (a b size : Nat) : Option Nat :=
  if a / size = b / size then none
  else if a % size ≠ 0 then some (a / size * size + size)
  else if b % size ≠ size - 1 then some (b / size * size)
  else none

/-- The first code point of the second part, where a range has to be cut in two. -/
def cut? (a b : Nat) : Option Nat :=
  if a ≤ 0x7F ∧ 0x7F < b then some 0x80
  else if a ≤ 0x7FF ∧ 0x7FF < b then some 0x800
  else if a ≤ 0xFFFF ∧ 0xFFFF < b then some 0x10000
  else if b ≤ 0x7F then none
  else (blockCut? a b 64).or ((blockCut? a b 4096).or (blockCut? a b 262144))

/-- The sequences of a range that holds no surrogate. A range is cut a bounded number of times
before its parts are sequences. -/
def ofRange : Nat → Nat → Nat → List ByteSequence
  | 0, _, _ => []
  | fuel + 1, a, b =>
    if b < a then []
    else match cut? a b with
      | some m => ofRange fuel a (m - 1) ++ ofRange fuel m b
      | none => [(utf8 a).zip (utf8 b)]

/-- The sequences of a set in the order of its characters. Surrogates are no characters. -/
def ofSet (s : CharSet) : List ByteSequence :=
  s.flatMap fun (a, b) => ofRange 16 a (min b 0xD7FF) ++ ofRange 16 (max a 0xE000) b

end ByteSequence

end LazyLisp.Pattern
