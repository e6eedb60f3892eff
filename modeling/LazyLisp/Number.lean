import LazyLisp.Decimal.Binary
import LazyLisp.EvalError
import LazyLisp.Value

/-!
Arithmetic on integers of 64 bits and on floating point numbers. Integer results are exact or
an overflow is reported; an operation on numbers of both kinds is one on floating point numbers.
-/

namespace LazyLisp
set_option autoImplicit false

inductive Number
  | int (n : Int64)
  | float (x : Float)

namespace Number

/-- The number that a value is. -/
def ofValue (function : String) : Value → Except EvalError Number
  | .int n => .ok (.int n)
  | .float x => .ok (.float x)
  | v => .error (.notNumeric function v.typeName)

def toValue : Number → Value
  | int n => .int n
  | float x => .float x

def toFloat : Number → Float
  | int n => n.toFloat
  | float x => x

def isZero : Number → Bool
  | int n => n == 0
  | float x => x == 0.0

/-- An integer as a word of 64 bits, if it fits. -/
def ofInt (operation : String) (n : Int) : Except EvalError Number :=
  if Int64.minValue.toInt ≤ n ∧ n ≤ Int64.maxValue.toInt then .ok (.int (Int64.ofInt n))
  else .error (.overflow operation)

def add : Number → Number → Except EvalError Number
  | int a, int b => ofInt "+" (a.toInt + b.toInt)
  | a, b => .ok (.float (a.toFloat + b.toFloat))

def sub : Number → Number → Except EvalError Number
  | int a, int b => ofInt "-" (a.toInt - b.toInt)
  | a, b => .ok (.float (a.toFloat - b.toFloat))

def mul : Number → Number → Except EvalError Number
  | int a, int b => ofInt "*" (a.toInt * b.toInt)
  | a, b => .ok (.float (a.toFloat * b.toFloat))

/-- The quotient rounded toward zero. -/
def quot (a b : Number) : Except EvalError Number :=
  if b.isZero then .error .divideByZero
  else match a, b with
    | int a, int b => ofInt "quot" (a.toInt.tdiv b.toInt)
    | a, b => .ok (.float (Decimal.truncate (a.toFloat / b.toFloat)))

/-- Whether the quotient is the one that no word holds. -/
def quotientOverflows (a b : Int64) : Bool := a == Int64.minValue && b == -1

/-- The remainder with the sign of the dividend. -/
def rem (a b : Number) : Except EvalError Number :=
  if b.isZero then .error .divideByZero
  else match a, b with
    | int a, int b =>
      if quotientOverflows a b then .error (.overflow "rem") else ofInt "rem" (a.toInt.tmod b.toInt)
    | a, b => .ok (.float (Decimal.remainder a.toFloat b.toFloat))

/-- The remainder with the sign of the divisor. -/
def mod (a b : Number) : Except EvalError Number := do
  let r ← rem a b
  let adjust := match r, b with
    | int r, int d => r != 0 && decide (r.toInt < 0) != decide (d.toInt < 0)
    | r, d =>
      r.toFloat != 0.0 && decide (r.toFloat < 0.0) != decide (d.toFloat < 0.0)
  if adjust then add r b else return r

/-- Exact quotients of integers are integers, all others are floating point numbers. -/
def div (a b : Number) : Except EvalError Number :=
  if b.isZero then .error .divideByZero
  else match a, b with
    | int x, int y =>
      if quotientOverflows x y then .error (.overflow "/")
      else if x.toInt.tmod y.toInt = 0 then ofInt "/" (x.toInt.tdiv y.toInt)
      else .ok (.float (a.toFloat / b.toFloat))
    | a, b => .ok (.float (a.toFloat / b.toFloat))

/-- The order of two numbers; NaN has none. -/
def compare? : Number → Number → Option Ordering
  | int a, int b => some (Ord.compare a.toInt b.toInt)
  | a, b =>
    let x := a.toFloat
    let y := b.toFloat
    if x < y then some .lt else if y < x then some .gt else if x == y then some .eq else none

def foldl (function : String) (op : Number → Number → Except EvalError Number) :
    Number → List Value → Except EvalError Number
  | acc, [] => .ok acc
  | acc, v :: vs => do
    let n ← ofValue function v
    foldl function op (← op acc n) vs

/-- Folds the arguments; a single argument is the second operand of `unit`. -/
def foldFrom (function : String) (op : Number → Number → Except EvalError Number) (unit : Int64) :
    List Value → Except EvalError Number
  | [] => .ok (.int unit)
  | [v] => do op (.int unit) (← ofValue function v)
  | v :: vs => do foldl function op (← ofValue function v) vs

def binary (function : String) (op : Number → Number → Except EvalError Number) (a b : Value) :
    Except EvalError Number := do
  let x ← ofValue function a
  let y ← ofValue function b
  op x y

/-- Whether each number and the next are in an accepted order. -/
def chain (accept : Ordering → Bool) : List Number → Bool
  | a :: b :: rest => (compare? a b).any accept && chain accept (b :: rest)
  | _ => true

/-- The first number that no later one surpasses in the wanted direction. -/
def extremum (wanted : Ordering) (best : Number) : List Number → Number
  | [] => best
  | n :: ns => extremum wanted (if compare? n best == some wanted then n else best) ns

/-- The integer part as a word. -/
def toInt (x : Float) : Except EvalError Int64 :=
  let t := Decimal.truncate x
  if t.isFinite && -9223372036854775808.0 ≤ t && t ≤ 9223372036854775808.0 then .ok t.toInt64
  else .error (.overflow "int")

end Number

end LazyLisp
