/-!
Binary floating point numbers as `m · 2 ^ q`, and the operations that need the exact value:
truncation, remainder, and an equality under which every number equals itself.
-/

namespace LazyLisp.Decimal
set_option autoImplicit false

/-- The magnitude `mantissa · 2 ^ exponent` of a finite number and its sign. -/
structure Binary where
  negative : Bool
  mantissa : Nat
  exponent : Int

/-- The weight of the lowest bit above the fraction: `2 ^ 52`. -/
def hiddenBit : Nat := 4503599627370496

/-- The parts of a finite number, read off its 64 bits. -/
def Binary.ofFloat (x : Float) : Binary :=
  let bits : Nat := x.toBits.toNat
  let field : Nat := bits / hiddenBit % 2048
  let fraction : Nat := bits % hiddenBit
  { negative := 2048 * hiddenBit ≤ bits
    mantissa := if field = 0 then fraction else fraction + hiddenBit
    exponent := if field = 0 then -1074 else (field : Int) - 1075 }

/-- The number without its fraction, the sign of a zero kept. -/
def truncate (x : Float) : Float := if x < 0.0 then x.ceil else x.floor

/-- The remainder of a division that rounds toward zero, exact and with the sign of `x`. -/
def remainder (x y : Float) : Float :=
  if x.isNaN || y.isNaN || x.isInf || y == 0.0 then 0.0 / 0.0
  else if y.isInf || x == 0.0 then x
  else
    let a := Binary.ofFloat x
    let b := Binary.ofFloat y
    let q := min a.exponent b.exponent
    let r := a.mantissa * Nat.pow 2 (a.exponent - q).toNat % (b.mantissa * Nat.pow 2 (b.exponent - q).toNat)
    let magnitude := (Float.ofNat r).scaleB q
    if a.negative then -magnitude else magnitude

/-- One code per number: the bits, but one code for all NaNs and one for both zeros. -/
def code (x : Float) : UInt64 :=
  if x.isNaN then 0x7ff8000000000000
  else if x.toBits == 0x8000000000000000 then 0 else x.toBits

/-- Numbers are the same when their codes are: NaN is itself and the zeros are one. -/
def same (x y : Float) : Bool := code x == code y

@[simp] theorem same_refl (x : Float) : same x x = true := by simp [same]

end LazyLisp.Decimal
