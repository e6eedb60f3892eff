import LazyLisp.Evaluation.Step
import LazyLisp.Failure
import LazyLisp.Library

/-!
Interpreters: how one starts, and how it runs sources. A run that fails keeps what it did to
the state before.
-/

namespace LazyLisp
set_option autoImplicit false

/-- What is fixed when an interpreter starts. -/
structure Config where
  /-- Load the library written in the language. -/
  library : Bool := true
  log : LogDomains := {}

/-- Computations over an interpreter that read as well as evaluate. -/
abbrev Session := EStateM Failure World

/-- The state before anything is installed: an empty namespace `core`, which is current. -/
def World.blank (log : LogDomains) : World :=
  { spaces := ({} : Namespaces).create Names.core, log := log }

namespace Session

variable {α : Type}

/-- Evaluation as a part of a session. -/
def ofEval (m : Eval α) : Session α := fun w =>
  match m w with
  | .ok a w => .ok a w
  | .error (.error e) w => .error (.eval e) w
  | .error .exhausted w => .error .exhausted w

/-- A failure while a file of the library loads names the file. -/
def loading (file : String) (m : Session α) : Session α := fun w =>
  match m w with
  | .ok a w => .ok a w
  | .error f w => .error (.load file f) w

/-- All forms of a source. -/
def read (e : Engine) (source : String) : Session (List Value) := do
  match ← ofEval (Core.readSource e source) with
  | .ok forms => return forms
  | .error err => throw (.read err)

/-- Evaluates a form outside of every lexical scope. -/
def evaluate (e : Engine) (form : Value) : Session Value := ofEval (e.value none form)

/-- Evaluates forms in order and yields the last value, or `nil` if there are none. -/
def evaluateAll (e : Engine) (forms : List Value) : Session Value :=
  forms.foldlM (fun _ form => evaluate e form) .nil

/-- Reads a whole source, then evaluates its forms; yields the last value and the number of
forms. -/
def runScript (e : Engine) (source : String) : Session (Value × Nat) := do
  let forms ← read e source
  let value ← evaluateAll e forms
  return (value, forms.length)

/-- The last value of a source. -/
def evalSource (e : Engine) (source : String) : Session Value :=
  return (← runScript e source).1

/-- Applies a value outside of every lexical scope. -/
def apply (e : Engine) (callee : Value) (args : List Value) : Session Value :=
  ofEval (e.apply none callee args)

def describe (e : Engine) (style : Style) (v : Value) : Session String := ofEval (v.text e style)

/-- Reads a source once and evaluates its forms a number of times. -/
def repeatedly (e : Engine) (source : String) (times : Nat) : Session Unit := do
  let forms ← read e source
  let rec rounds : Nat → Session Unit
    | 0 => return ()
    | n + 1 => do
      let _ ← evaluateAll e forms
      rounds n
  rounds times

/-- Remembers a result: it becomes `*1`, and earlier ones move to `*2` and `*3`. Nothing is
remembered when `core` lacks one of the three vars. -/
def record (value : Value) : Session Unit := modify fun w =>
  let own := w.spaces.own? Names.core
  match own Names.result1, own Names.result2, own Names.result3 with
  | some first, some second, some third =>
    let valueOf (id : VarId) : Option Value := (w.spaces.var? id).bind (·.value)
    let move (spaces : Namespaces) (source target : VarId) : Namespaces :=
      match valueOf source with
      | some v => spaces.setVar target v
      | none => spaces
    { w with spaces := (move (move w.spaces second third) first second).setVar first value }
  | _, _, _ => w

/-- Evaluates the forms of a source one by one, remembering each result. -/
def recordAll (e : Engine) (source : String) : Session Value := do
  let forms ← read e source
  forms.foldlM (fun _ form => do
    let v ← evaluate e form
    record v
    return v) .nil

def setLog (domain : LogDomain) (on : Bool) : Session Unit :=
  modify fun w => { w with log := w.log.set domain on }

end Session

namespace Interpreter

/-- Binds every built-in function in the current namespace. -/
def installBuiltins : Eval Unit :=
  Builtin.all.forM fun b => do
    let name ← Eval.intern b.text
    let _ ← Eval.define name (.builtin b)

/-- Makes the vars of the last three results, without values. -/
def declareResults : Eval Unit :=
  [Names.result1, Names.result2, Names.result3].forM fun name => do
    let _ ← Eval.declare name

/-- Reads a file of the library and evaluates its forms. -/
def loadFile (e : Engine) (file : Library.File) : Session Unit := do
  let (_, forms) ← Session.loading file.name (Session.runScript e file.source)
  Session.ofEval (Eval.note (.loaded file.name forms))

/-- Makes `user`, from which the vars of `core` are visible, and switches to it. -/
def enterUser : Eval Unit := do
  modify fun w => { w with spaces := w.spaces.create Names.user }
  Core.refer Names.user Names.core
  modify fun w => { w with current := Names.user }

/-- Fills `core` and enters `user`. -/
def bootstrap (e : Engine) (config : Config) : Session Unit := do
  Session.ofEval installBuiltins
  Session.ofEval declareResults
  if config.library then Library.files.forM (loadFile e)
  Session.ofEval enterUser

/-- The state of a new interpreter. -/
def start (e : Engine) (config : Config) : Except Failure World :=
  match bootstrap e config (World.blank config.log) with
  | .ok _ w => .ok w
  | .error f _ => .error f

/-- The engine that programs run on: its budget is beyond what a machine gets through. -/
def engine : Engine := .ofBudget 1000000000000

end Interpreter

end LazyLisp
