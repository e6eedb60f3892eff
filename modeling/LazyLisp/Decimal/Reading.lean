/-!
Decimal literals: digits with an optional point and an optional power of ten.
-/

namespace LazyLisp.Decimal
set_option autoImplicit false

/-- The literal `± mantissa · 10 ^ exponent`. -/
structure Literal where
  negative : Bool
  mantissa : Nat
  exponent : Int

def digitValue (c : Char) : Nat := c.toNat - '0'.toNat

def isDigit (c : Char) : Bool := '0' ≤ c && c ≤ '9'

/-- The number that decimal digits spell. -/
def natOfDigits (cs : List Char) : Nat := cs.foldl (fun n c => n * 10 + digitValue c) 0

/-- Splits off a leading sign. -/
def takeSign : List Char → Bool × List Char
  | '-' :: cs => (true, cs)
  | '+' :: cs => (false, cs)
  | cs => (false, cs)

/-- A signed run of digits and nothing else. -/
def integer? (cs : List Char) : Option Int :=
  let (negative, digits) := takeSign cs
  if !digits.isEmpty && digits.all isDigit then
    let n : Int := natOfDigits digits
    some (if negative then -n else n)
  else none

/-- The exponent part: absent, or a mark followed by a signed run of digits. -/
def exponent? : List Char → Option Int
  | [] => some 0
  | c :: cs => if c = 'e' ∨ c = 'E' then integer? cs else none

/-- Reads a literal; at least one digit stands before or after the point. -/
def Literal.parse? (cs : List Char) : Option Literal :=
  let (negative, body) := takeSign cs
  let whole := body.takeWhile isDigit
  let rest := body.dropWhile isDigit
  let (fraction, rest) := match rest with
    | '.' :: more => (more.takeWhile isDigit, more.dropWhile isDigit)
    | _ => ([], rest)
  if whole.isEmpty && fraction.isEmpty then none
  else (exponent? rest).map fun e =>
    ⟨negative, natOfDigits (whole ++ fraction), e - fraction.length⟩

/-- The nearest number. A literal beyond every finite number is infinite, one closer to zero
than half the least number is zero. -/
def Literal.toFloat (l : Literal) : Float :=
  let size : Int := (Nat.toDigits 10 l.mantissa).length + l.exponent
  let magnitude : Float :=
    if l.mantissa = 0 ∨ size < -400 then 0.0
    else if 400 < size then 1.0 / 0.0
    else if 0 ≤ l.exponent then Float.ofScientific l.mantissa false l.exponent.toNat
    else Float.ofScientific l.mantissa true (-l.exponent).toNat
  if l.negative then -magnitude else magnitude

end LazyLisp.Decimal
