import LazyLisp.Evaluation.Step
import LazyLisp.Proofs.Running

/-!
Evaluation under a watch, which decides which symbols may be resolved, which special forms may be
evaluated and which values may be called. A run gives up at the first use that its watch refuses.
Under a watch that allows everything it is evaluation.
-/

namespace LazyLisp
set_option autoImplicit false

/-- What a step of evaluation does with names and with what they denote. -/
inductive Use
  | symbol (scope : Scope) (s : Symbol)
  | special (f : SpecialForm) (args : List Value)
  | call (callee : Value)

/-- Which uses are allowed in which states. -/
abbrev Watch := World → Use → Bool

namespace Watch

def all : Watch := fun _ _ => true

/-- A computation that starts with a use, and gives up if the use is refused. -/
def permit (watch : Watch) (use : Use) {α : Type} (m : Eval α) : Eval α := do
  if watch (← get) use then m else throw .exhausted

/-- Evaluates a list with a known head. -/
def evaluateCall (watch : Watch) (e : Engine) (scope : Scope) (head : Value) (tail : Seq) :
    Eval Outcome := do
  match head with
  | .special f =>
    let args ← tail.toList e
    watch.permit (.special f args) (Evaluation.special e scope f args)
  | head =>
    let callee ← (← e.call (.evaluate scope head true)).toValue
    match callee with
    | .transformer id => e.evaluate scope (← Evaluation.expand e id (← tail.toList e))
    | callee =>
      let args ← tail.fold e
        (fun (acc : Array Value) form => return acc.push (← e.value scope form)) #[]
      watch.permit (.call callee) (Evaluation.applyValue e scope callee args.toList)

def evaluateList (watch : Watch) (e : Engine) (scope : Scope) (s : Seq) : Eval Outcome := do
  match ← s.uncons e with
  | none => return .value (.seq s)
  | some (head, tail) =>
    if (← get).log.eval then Eval.note (.evaluating (← (Value.seq s).textOrType e))
    watch.evaluateCall e scope head tail

def evaluateForm (watch : Watch) (e : Engine) (scope : Scope) (form : Value) (asHead : Bool) :
    Eval Outcome :=
  match form with
  | .symbol s => watch.permit (.symbol scope s) (Evaluation.evaluateSymbol scope s asHead)
  | .seq s => watch.evaluateList e scope s
  | form => Evaluation.evaluateForm e scope form asHead

def step (watch : Watch) (e : Engine) : Request → Eval Outcome
  | .evaluate scope form asHead => watch.evaluateForm e scope form asHead
  | .apply scope callee args =>
    watch.permit (.call callee) (Evaluation.applyValue e scope callee args)

/-- Serves a request within a budget and under a watch. -/
def run (watch : Watch) : Nat → Request → Eval Outcome
  | 0, _ => throw .exhausted
  | n + 1, r => watch.step ⟨watch.run n, n⟩ r

theorem all_evaluateList (e : Engine) (scope : Scope) (s : Seq) :
    all.evaluateList e scope s = Evaluation.evaluateList e scope s :=
  rfl

theorem evaluateForm_other {watch : Watch} {e : Engine} {scope : Scope} {form : Value}
    {asHead : Bool} (hsymbol : ∀ s, form ≠ .symbol s) (hlist : ∀ s, form ≠ .seq s) :
    watch.evaluateForm e scope form asHead = Evaluation.evaluateForm e scope form asHead := by
  cases form with
  | symbol s => exact absurd rfl (hsymbol s)
  | seq s => exact absurd rfl (hlist s)
  | _ => rfl

theorem all_step (e : Engine) (r : Request) : all.step e r = Evaluation.step e r := by
  cases r with
  | evaluate scope form asHead => cases form <;> rfl
  | apply scope callee args => rfl

theorem all_run (n : Nat) (r : Request) : all.run n r = Evaluation.run n r := by
  induction n generalizing r with
  | zero => rfl
  | succ n ih =>
    have hsame : all.run n = Evaluation.run n := funext ih
    rw [run, Evaluation.run, all_step, hsame]

end Watch
end LazyLisp
