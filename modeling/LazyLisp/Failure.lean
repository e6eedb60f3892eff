import LazyLisp.EvalError
import LazyLisp.Form.Reading

/-!
Why a source did not run: it cannot be read, its evaluation failed, or a file of the library
did not load.
-/

namespace LazyLisp
set_option autoImplicit false

inductive Failure
  | read (e : ReadError)
  | eval (e : EvalError)
  | load (file : String) (cause : Failure)
  /-- The budget of steps is used up. -/
  | exhausted
deriving DecidableEq, Repr

namespace Failure

def message : Failure → String
  | read e => e.message
  | eval e => "Evaluation error: " ++ e.message
  | load file cause => "Failed to load " ++ file ++ ": " ++ cause.message
  | exhausted => "Evaluation error: Out of steps"

/-- More text could complete the source. -/
def incomplete : Failure → Bool
  | read e => e.incomplete
  | eval _ | load .. | exhausted => false

end Failure

end LazyLisp
