import LazyLisp.Decimal.Binary

/-!
The fewest decimal digits that read back as a given number, and their positional layout.
The candidates are the two neighbours of the value on each decimal grid, coarsest first.
-/

namespace LazyLisp.Decimal
set_option autoImplicit false

/-- `digits · 10 ^ exponent`. -/
structure Digits where
  digits : Nat
  exponent : Int
deriving Repr, DecidableEq

/-- Four times the value, over `4 · 2 ^ q` units scaled so that all quantities are integers:
the value is `mid / unit`, and the numbers that round to it lie between `low` and `high`. -/
structure Interval where
  low : Nat
  mid : Nat
  high : Nat
  unit : Nat
  /-- Both ends round to the value. -/
  closed : Bool

/-- The reals that round to `m · 2 ^ q`. Below a power of two the gap is half as wide. -/
def Interval.ofBinary (b : Binary) : Interval :=
  let m := b.mantissa
  let narrow := m = hiddenBit ∧ b.exponent ≠ -1074
  let scale := Nat.pow 2 b.exponent.toNat
  { low := (4 * m - (if narrow then 1 else 2)) * scale
    mid := 4 * m * scale
    high := (4 * m + 2) * scale
    unit := 4 * Nat.pow 2 (-b.exponent).toNat
    closed := m % 2 = 0 }

/-- Whether `d · 10 ^ k` rounds to the value. -/
def Interval.contains (i : Interval) (d : Nat) (k : Int) : Bool :=
  let x := d * i.unit * Nat.pow 10 k.toNat
  let s := Nat.pow 10 (-k).toNat
  if i.closed then decide (i.low * s ≤ x ∧ x ≤ i.high * s)
  else decide (i.low * s < x ∧ x < i.high * s)

/-- The nearest multiple of `10 ^ k` that rounds to the value, if one does; the upper of two
equally near ones. -/
def Interval.onGrid (i : Interval) (k : Int) : Option Digits :=
  let num := i.mid * Nat.pow 10 (-k).toNat
  let den := i.unit * Nat.pow 10 k.toNat
  let below := num / den
  let above := below + 1
  let nearer := 2 * num < (2 * below + 1) * den
  let first := if nearer then below else above
  let second := if nearer then above else below
  if i.contains first k && first != 0 then some ⟨first, k⟩
  else if i.contains second k && second != 0 then some ⟨second, k⟩
  else none

/-- Tries the grids from `10 ^ k` down, `n` of them. -/
def Interval.search (i : Interval) : Nat → Int → Digits
  | 0, k => ⟨i.mid * Nat.pow 10 (-k).toNat / (i.unit * Nat.pow 10 k.toNat), k⟩
  | n + 1, k => (i.onGrid k).getD (i.search n (k - 1))

/-- The number of decimal digits of the integer part, at least zero. -/
def Interval.magnitude (i : Interval) : Int :=
  let n := i.mid / i.unit
  if n = 0 then
    -- the value is below one: count the zeros after the point
    let inverse := i.unit / i.mid
    1 - ((Nat.toDigits 10 inverse).length : Int)
  else (Nat.toDigits 10 n).length

/-- The shortest digits of a finite positive number. -/
def shortest (x : Float) : Digits :=
  let i := Interval.ofBinary (Binary.ofFloat x)
  i.search 19 i.magnitude

/-- Writes `digits · 10 ^ exponent` positionally, without an exponent. -/
def Digits.layout (d : Digits) : String :=
  let text := Nat.repr d.digits
  if 0 ≤ d.exponent then text ++ String.ofList (List.replicate d.exponent.toNat '0')
  else
    let places := (-d.exponent).toNat
    let cs := text.toList
    if cs.length ≤ places then
      "0." ++ String.ofList (List.replicate (places - cs.length) '0') ++ text
    else
      String.ofList (cs.take (cs.length - places)) ++ "." ++ String.ofList (cs.drop (cs.length - places))

/-- Positional text of a number: no exponent ever, no fraction where there is none. -/
def positional (x : Float) : String :=
  if x.isNaN then "NaN"
  else
    let sign := if (Binary.ofFloat x).negative then "-" else ""
    if x.isInf then sign ++ "inf"
    else if x == 0.0 then sign ++ "0"
    else sign ++ (shortest x.abs).layout

/-- Text of a number as a value: an integral number below 10^16 keeps one decimal place, and
the numbers outside the reals are spelled out. -/
def display (x : Float) : String :=
  if x.isNaN then "NaN"
  else if x.isInf then (if x < 0.0 then "-Infinity" else "Infinity")
  else if x.floor == x && x.abs < 1e16 then positional x ++ ".0"
  else positional x

end LazyLisp.Decimal
