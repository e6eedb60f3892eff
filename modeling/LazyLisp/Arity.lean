/-!
How many arguments a callable takes.
-/

namespace LazyLisp
set_option autoImplicit false

inductive Arity
  | exactly (n : Nat)
  | atLeast (n : Nat)
  | between (least most : Nat)
deriving DecidableEq, Repr

namespace Arity

def accepts : Arity → Nat → Bool
  | exactly n, k => k == n
  | atLeast n, k => n ≤ k
  | between least most, k => least ≤ k && k ≤ most

def text : Arity → String
  | exactly n => toString n
  | atLeast n => s!"at least {n}"
  | between least most => s!"{least} to {most}"

end Arity

end LazyLisp
