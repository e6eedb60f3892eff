import LazyLisp.CommandLine
import LazyLisp.Folder
import LazyLisp.Repl
import LazyLisp.Report
import LazyLisp.Text.Json

/-!
The whole program as a function of its arguments, its input and the files it may open.
-/

namespace LazyLisp.Program
set_option autoImplicit false

/-- How a run ends and what it writes. -/
structure Response where
  exit : Nat := 0
  out : String := ""
  err : String := ""

/-- Exit code when the arguments or the source are not to be had. -/
def argumentError : Nat := 1

/-- Exit code when the source fails. -/
def runtimeError : Nat := 2

/-- Runs a script and describes its value unless that is `nil`. -/
def textResult (e : Engine) (source : String) : Session String := do
  match ← Session.evalSource e source with
  | .nil => return ""
  | v => return (← Session.describe e .readable v) ++ "\n"

def runText (e : Engine) (config : Config) (source : String) : Response :=
  match Interpreter.start e config with
  | .error f => { exit := runtimeError, err := Report.plain f source ++ "\n" }
  | .ok w =>
    match textResult e source w with
    | .ok text w => { out := w.output ++ text }
    | .error f w =>
      { exit := runtimeError, out := w.output, err := Report.plain f source ++ "\n" }

/-- The field for what the script printed, left out if it printed nothing. -/
def consoleField (console : String) : List (String × String) :=
  if console.isEmpty then [] else [("console", Text.jsonString console)]

/-- The JSON object of a script that ran. -/
def scriptJson (value : String) (milliseconds : Nat) (console : String) : String :=
  Text.jsonObject <|
    [("type", Text.jsonString "script"), ("status", Text.jsonString "ok"),
     ("value", Text.jsonString value), ("duration_ms", toString milliseconds)] ++
    consoleField console

/-- The wording of a failure, and its kind or its place. -/
def failureFields : Failure → List (String × String)
  | .read e =>
    let (_, line, column, message) := e.parts
    [("message", Text.jsonString message),
     ("location", Text.jsonObject [("line", toString line), ("column", toString column)])]
  | .eval e => [("message", Text.jsonString e.message), ("kind", Text.jsonString e.kind)]
  | f@(.load ..) | f@.exhausted => [("message", Text.jsonString f.message)]

/-- The JSON object of a failure. -/
def failureJson (f : Failure) (console : String) : String :=
  Text.jsonObject (("type", Text.jsonString "error") :: failureFields f ++ consoleField console)

/-- Runs a script and describes its value. -/
def jsonResult (e : Engine) (source : String) : Session String := do
  Session.describe e .readable (← Session.evalSource e source)

/-- Nothing here looks at a clock, so no time passes. -/
def runJson (e : Engine) (config : Config) (source : String) : Response :=
  match Interpreter.start e config with
  | .error f => { exit := runtimeError, out := failureJson f "" ++ "\n" }
  | .ok w =>
    match jsonResult e source w with
    | .ok value w => { out := scriptJson value 0 w.output ++ "\n" }
    | .error f w => { exit := runtimeError, out := failureJson f w.output ++ "\n" }

def runRepl (e : Engine) (config : Config) (input : String) : Response :=
  match Interpreter.start e config with
  | .error f => { exit := runtimeError, err := f.message ++ "\n" }
  | .ok w =>
    let reply := Repl.feedAll e ⟨w, none⟩ (Text.lines input)
    { out := Repl.banner ++ reply.out, err := reply.err }

def runSource (e : Engine) (o : CommandLine.Options) (source : String) : Response :=
  let config : Config := { library := o.library, log := o.log }
  match o.output with
  | .text => runText e config source
  | .json => runJson e config source

/-- Runs with given options. `open_` yields the text of a file, or why there is none. -/
def runOptions (e : Engine) (o : CommandLine.Options) (input : String)
    (open_ : String → Except OpenError String) : Response :=
  if o.repl then runRepl e { library := o.library, log := o.log } input
  else match o.source with
    | .inline text => runSource e o text
    | .input => runSource e o input
    | .file path =>
      match open_ path with
      | .ok text => runSource e o text
      | .error cause =>
        { exit := argumentError
          err := "Error reading file '" ++ path ++ "': " ++ cause.message ++ "\n" }

/-- Runs with given arguments. -/
def run (e : Engine) (args : List String) (input : String)
    (open_ : String → Except OpenError String) : Response :=
  match CommandLine.parse args with
  | .error message => { exit := argumentError, err := "Error: " ++ message ++ "\n" }
  | .ok .help => { out := CommandLine.help }
  | .ok (.run o) => runOptions e o input open_

end LazyLisp.Program
