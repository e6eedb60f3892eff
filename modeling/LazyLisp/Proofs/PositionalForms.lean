import LazyLisp.Proofs.Positional

/-!
Special forms and applications that take their arguments by position, and an evaluator of them. Each
form checks how many arguments it has before it takes one, so no run of the evaluator crashes.
-/

namespace LazyLisp
set_option autoImplicit false

namespace Positional
open Evaluation

section
variable (crash : Crash) (e : Engine) (scope : Scope)

def quote (args : List Value) : Eval Outcome := do
  match args.length with
  | 0 => return .value .nil
  | 1 => return .value (← crash.item args 0)
  | got => fail (.arity "quote" (.between 0 1) got)

def choose (args : List Value) : Eval Outcome := do
  if args.length < 2 ∨ 3 < args.length then fail (.arity "if" (.between 2 3) args.length)
  else if (← e.value scope (← crash.item args 0)).isTruthy then
    e.evaluate scope (← crash.item args 1)
  else
    match args[2]? with
    | some elseForm => e.evaluate scope elseForm
    | none => return .value .nil

def define (args : List Value) : Eval Outcome := do
  if args.length < 1 ∨ 2 < args.length then fail (.arity "def" (.between 1 2) args.length)
  else
    let name ← definitionTarget "def" (← crash.item args 0)
    match args[1]? with
    | some form =>
      let value ← e.value scope form
      let id ← Eval.define name value
      noteDefinition id
      return .value (.var id)
    | none =>
      let id ← Eval.declare name
      noteDefinition id
      return .value (.var id)

def letIn (args : List Value) : Eval Outcome := do
  let bindings ← bindingPairs "let" args.head?
  let frame ← Eval.newFrame scope
  bindAll e frame bindings
  body e (some frame) (← crash.behind args 1)

def looping (args : List Value) : Eval Outcome := do
  let bindings ← bindingPairs "loop" args.head?
  let frame ← Eval.newFrame scope
  bindAll e frame bindings
  let forms ← crash.behind args 1
  return .value (← rounds e frame bindings.length forms e.bound)

def varOf (args : List Value) : Eval Outcome := do
  if args.length = 1 then
    match ← crash.item args 0 with
    | .symbol s =>
      let w ← get
      match w.lookupVar? s with
      | some id => return .value (.var id)
      | none => fail (.unresolved (w.symbolText s))
    | v => fail (.invalidArgument "var" ("expected a symbol, got " ++ v.typeName))
  else fail (.arity "var" (.exactly 1) args.length)

/-- A parameter vector and a body, or a list of them per clause. -/
def parseClauses (label : String) (forms : List Value) : Eval (List Clause) := do
  match forms.head? with
  | none => fail (.invalidArgument label "missing parameter vector")
  | some (.vector _) =>
    let params ← crash.item forms 0
    return [← parseClause label params (← crash.behind forms 1)]
  | some _ => Evaluation.parseClauses e label forms

def makeClosure (name : Option Symbol) (label : String) (forms : List Value) : Eval ClosureId := do
  let clauses ← parseClauses crash e label forms
  match Closure.make name clauses scope label with
  | .ok c => Eval.newClosure c
  | .error err => fail err

def lambda (args : List Value) : Eval Outcome := do
  match args.head? with
  | some (.symbol ⟨none, name⟩) =>
    let clauses ← crash.behind args 1
    let label := (← get).nameText name
    return .value (.function (← makeClosure crash e scope (some ⟨none, name⟩) label clauses))
  | _ => return .value (.function (← makeClosure crash e scope none "fn" args))

/-- Clauses behind a description, if there is one. -/
def skipDescription (forms : List Value) : Eval (List Value) :=
  match forms.head? with
  | some (.string _) => if 1 < forms.length then crash.behind forms 1 else return forms
  | _ => return forms

def defineMacro (args : List Value) : Eval Outcome := do
  match args.head? with
  | none => fail (.arity "defmacro" (.atLeast 2) 0)
  | some target =>
    let name ← definitionTarget "defmacro" target
    let clauses ← skipDescription crash (← crash.behind args 1)
    let label := (← get).nameText name
    let id ← makeClosure crash e scope (some (.plain name)) label clauses
    return .value (.var (← Eval.define name (.transformer id)))

/-- The last argument is the one in front of as many as there are. -/
def apply (args : List Value) : Eval Outcome := do
  if args.length < 2 then fail (.arity "apply" (.atLeast 2) args.length)
  else
    let f ← e.value scope (← crash.item args 0)
    let last ← crash.item args (← crash.minus args.length 1)
    let leading ← crash.between args 1 (← crash.minus args.length 1)
    let leading ← leading.mapM (e.value scope)
    let spread ← e.value scope last
    match spread.toSeq? with
    | none => fail (.invalidArgument "apply"
        ("last argument must be a collection or nil, got " ++ spread.typeName))
    | some s => e.call (.apply scope f (leading ++ (← s.toList e)))

def special (f : SpecialForm) (args : List Value) : Eval Outcome :=
  match f with
  | .quote => quote crash args
  | .ifElse => choose crash e scope args
  | .block => body e scope args
  | .define => define crash e scope args
  | .letIn => letIn crash e scope args
  | .varOf => varOf crash args
  | .lambda => lambda crash e scope args
  | .defineMacro => defineMacro crash e scope args
  | .looping => looping crash e scope args
  | .recur => recur e scope args
  | .apply => apply crash e scope args
  | .attempt => attempt e scope (.arity "attempt" (.atLeast 1) 0) args

/-! Evaluation and application. -/

/-- The value for a missing key. -/
def lookupFallback (label : String) (args : List Value) : Eval Value :=
  match args.length with
  | 1 => return .nil
  | 2 => crash.item args 1
  | got => fail (.arity label (.between 1 2) got)

def applyValue (callee : Value) (args : List Value) : Eval Outcome := do
  match callee with
  | .builtin b => return .value (← call crash e scope b args)
  | .function id => return .value (← invoke e id callee args)
  | .transformer id => e.evaluate scope (← expand e id args)
  | .vector items =>
    if args.length = 1 then
      match ← crash.item args 0 with
      | .int i =>
        match Core.item? items i with
        | some v => return .value v
        | none => fail (.outOfBounds i.toInt items.length)
      | v => fail (.invalidArgument "vector" ("index must be an integer, got " ++ v.typeName))
    else fail (.arity "vector" (.exactly 1) args.length)
  | .map entries =>
    let fallback ← lookupFallback crash "map" args
    let key ← crash.item args 0
    return .value ((← Entries.get? e entries key).getD fallback)
  | .keyword _ | .symbol _ =>
    let fallback ← lookupFallback crash callee.typeName args
    match ← crash.item args 0 with
    | .map entries => return .value ((← Entries.get? e entries callee).getD fallback)
    | _ => return .value fallback
  | v => fail (.notCallable (← v.textOrType e))

def evaluateList (s : Seq) : Eval Outcome := do
  match ← s.uncons e with
  | none => return .value (.seq s)
  | some (head, tail) =>
    if (← get).log.eval then Eval.note (.evaluating (← (Value.seq s).textOrType e))
    match head with
    | .special f => special crash e scope f (← tail.toList e)
    | head =>
      let callee ← (← e.call (.evaluate scope head true)).toValue
      match callee with
      | .transformer id => e.evaluate scope (← expand e id (← tail.toList e))
      | callee =>
        let args ← tail.fold e (fun (acc : Array Value) form => return acc.push (← e.value scope form)) #[]
        applyValue crash e scope callee args.toList

def step : Request → Eval Outcome
  | .evaluate scope (.seq s) _ => evaluateList crash e scope s
  | .evaluate scope form asHead => evaluateForm e scope form asHead
  | .apply scope callee args => applyValue crash e scope callee args

/-- Serves a request within a budget. -/
def run : Nat → Request → Eval Outcome
  | 0, _ => throw .exhausted
  | n + 1, r => step crash ⟨run n, n⟩ r

end

/-! The forms by position beside those by pattern. -/

section
variable (crash : Crash) {e : Engine} {scope : Scope}

theorem quote_eq (args : List Value) : quote crash args = Evaluation.quote args := by
  match args with
  | [] => rfl
  | [_] => rfl
  | _ :: _ :: _ => rfl

theorem choose_eq (args : List Value) : choose crash e scope args = Evaluation.choose e scope args := by
  match args with
  | [] => rfl
  | [_] => rfl
  | [_, _] => rfl
  | [_, _, _] => rfl
  | _ :: _ :: _ :: _ :: more => exact if_pos (.inr (Nat.le_add_left 4 more.length))

theorem define_eq (args : List Value) : define crash e scope args = Evaluation.define e scope args := by
  match args with
  | [] => rfl
  | [_] => rfl
  | [_, _] => rfl
  | _ :: _ :: _ :: more => exact if_pos (.inr (Nat.le_add_left 3 more.length))

theorem letIn_eq (args : List Value) : letIn crash e scope args = Evaluation.letIn e scope args := by
  cases args with
  | nil => rfl
  | cons bindings forms => simp only [letIn, Evaluation.letIn, Crash.behind_one, pure_bind, List.tail_cons]

theorem looping_eq (args : List Value) :
    looping crash e scope args = Evaluation.looping e scope args := by
  cases args with
  | nil => rfl
  | cons bindings forms =>
    simp only [looping, Evaluation.looping, Crash.behind_one, pure_bind, List.tail_cons]

theorem varOf_eq (args : List Value) : varOf crash args = Evaluation.varOf args := by
  match args with
  | [] => rfl
  | [v] => cases v <;> rfl
  | u :: v :: more =>
    rw [varOf, if_neg (length_ne_one u v more)]
    cases u <;> rfl

theorem parseClauses_eq (label : String) (forms : List Value) :
    parseClauses crash e label forms = Evaluation.parseClauses e label forms := by
  cases forms with
  | nil => rfl
  | cons params rest =>
    cases params with
    | vector items =>
      simp only [parseClauses, List.head?_cons, Crash.item_zero, Crash.behind_one, pure_bind]
      rfl
    | _ => rfl

theorem makeClosure_eq (name : Option Symbol) (label : String) (forms : List Value) :
    makeClosure crash e scope name label forms = Evaluation.makeClosure e scope name label forms := by
  simp only [makeClosure, parseClauses_eq]
  rfl

theorem lambda_eq (args : List Value) : lambda crash e scope args = Evaluation.lambda e scope args := by
  unfold lambda
  split
  · rename_i name hhead
    obtain ⟨rest, rfl⟩ := List.head?_eq_some_iff.1 hhead
    simp only [Crash.behind_one, pure_bind, makeClosure_eq]
    rfl
  · rename_i hhead
    simp only [makeClosure_eq]
    rw [Evaluation.lambda]
    intro name rest hargs
    exact hhead name (by rw [hargs, List.head?_cons])

theorem skipDescription_eq (forms : List Value) :
    skipDescription crash forms = pure (Evaluation.skipDescription forms) := by
  match forms with
  | [] => rfl
  | [v] => cases v <;> rfl
  | v :: next :: rest =>
    cases v with
    | string s =>
      have hmore : 1 < (Value.string s :: next :: rest).length := Nat.le_add_left 2 rest.length
      simp only [skipDescription, List.head?_cons, if_pos hmore, Crash.behind_one]
      rfl
    | _ => rfl

theorem defineMacro_eq (args : List Value) :
    defineMacro crash e scope args = Evaluation.defineMacro e scope args := by
  cases args with
  | nil => rfl
  | cons target rest =>
    simp only [defineMacro, Evaluation.defineMacro, List.head?_cons, Crash.behind_one, pure_bind,
      skipDescription_eq, makeClosure_eq]

theorem item_last {α : Type} (x y : α) (more : List α) (d : α) :
    crash.item (x :: y :: more) (more.length + 1) = pure ((y :: more).getLast?.getD d) := by
  have hlast : (x :: y :: more)[more.length + 1]? = (y :: more).getLast? := by
    rw [List.getLast?_eq_getElem?]
    rfl
  unfold Crash.item
  rw [hlast, List.getLast?_cons]
  rfl

theorem between_ends {α : Type} (x y : α) (more : List α) :
    crash.between (x :: y :: more) 1 (more.length + 1) = pure (y :: more).dropLast := by
  have hinside : 1 ≤ more.length + 1 ∧ more.length + 1 ≤ (x :: y :: more).length :=
    ⟨Nat.le_add_left 1 _, Nat.le_succ _⟩
  rw [Crash.between, if_pos hinside, List.dropLast_eq_take]
  rfl

theorem apply_eq (args : List Value) : apply crash e scope args = Evaluation.apply e scope args := by
  match args with
  | [] => rfl
  | [_] => rfl
  | f :: first :: more =>
    have hmore : ¬ more.length + 1 + 1 < 2 := Nat.not_lt.2 (Nat.le_add_left 2 more.length)
    simp only [apply, List.length_cons, if_neg hmore, Crash.item_zero, Crash.minus_one, pure_bind,
      item_last crash f first more .nil, between_ends]
    rfl

theorem special_eq (f : SpecialForm) (args : List Value) :
    special crash e scope f args = Evaluation.special e scope f args := by
  cases f with
  | quote => exact quote_eq crash args
  | ifElse => exact choose_eq crash args
  | define => exact define_eq crash args
  | letIn => exact letIn_eq crash args
  | varOf => exact varOf_eq crash args
  | lambda => exact lambda_eq crash args
  | defineMacro => exact defineMacro_eq crash args
  | looping => exact looping_eq crash args
  | apply => exact apply_eq crash args
  | block | recur | attempt => rfl

theorem lookup_eq {α : Type} (label : String) (args : List Value) (k : Value → Value → Eval α) :
    (do
      let fallback ← lookupFallback crash label args
      k (← crash.item args 0) fallback) =
      lookupArgs label args >>= fun found => k found.1 found.2 := by
  obtain _ | ⟨key, _ | ⟨fallback, _ | ⟨extra, more⟩⟩⟩ := args
  · rfl
  · rfl
  · rfl
  · rfl

theorem applyValue_eq (callee : Value) (args : List Value) :
    applyValue crash e scope callee args = Evaluation.applyValue e scope callee args := by
  cases callee with
  | builtin b => simp only [applyValue, Evaluation.applyValue, call_eq]
  | vector items =>
    obtain _ | ⟨index, _ | ⟨extra, more⟩⟩ := args
    · rfl
    · cases index <;> rfl
    · simp only [applyValue, if_neg (length_ne_one index extra more)]
      cases index <;> rfl
  | map | keyword | symbol => exact lookup_eq crash _ args _
  | _ => rfl

theorem evaluateList_eq (s : Seq) :
    evaluateList crash e scope s = Evaluation.evaluateList e scope s := by
  simp only [evaluateList, special_eq, applyValue_eq]
  rfl

theorem step_eq (r : Request) : step crash e r = Evaluation.step e r := by
  cases r with
  | apply scope callee args => exact applyValue_eq crash callee args
  | evaluate scope form asHead =>
    cases form with
    | seq s => exact evaluateList_eq crash s
    | _ => rfl

theorem run_eq (n : Nat) : run crash n = Evaluation.run n := by
  induction n with
  | zero => rfl
  | succ n ih =>
    funext r
    rw [run, ih, step_eq]
    rfl

end

end Positional

/-- No call of a built-in function and no special form takes an item that is not there, divides where
there is no quotient, or gets to a number of arguments that it does not expect, whatever the arguments
are; and no run does so anywhere on its way. For none of them depends on what is done in the place of
a crash, be it that the run stops there, in whatever state. -/
theorem positions_are_in_range (crash : Crash) :
    (∀ (e : Engine) (scope : Scope) (b : Builtin) (args : List Value),
      Positional.call crash e scope b args = Core.call e scope b args) ∧
    (∀ (e : Engine) (scope : Scope) (f : SpecialForm) (args : List Value),
      Positional.special crash e scope f args = Evaluation.special e scope f args) ∧
    ∀ (n : Nat) (r : Request), Positional.run crash n r = Evaluation.run n r :=
  ⟨fun _ _ => Positional.call_eq crash, fun _ _ => Positional.special_eq crash,
    fun n r => congrFun (Positional.run_eq crash n) r⟩

end LazyLisp
