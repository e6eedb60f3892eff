import LazyLisp.Decimal.Reading
import LazyLisp.Interpreter

/-!
Reading, evaluating and printing line by line. A line that leaves a form open is kept, and the
next line continues it.
-/

namespace LazyLisp.Repl
set_option autoImplicit false

/-- Lines that start with a question mark speak to the loop itself. -/
inductive Command
  | help
  | quit
  | showLog
  | log (domain : LogDomain) (on : Bool)
  | bench (iterations : Nat) (form : String)

namespace Command

/-- The text before the first blank and the text behind it, without blanks around the latter. -/
def splitWord (text : String) : Option (String × String) :=
  (Text.splitAtFirst Text.isBlank text.toList).map fun (word, rest) =>
    (String.ofList word, Text.trim (String.ofList rest))

/-- `<domain> <on|off>`. -/
def parseLog (text : String) : Except String Command :=
  match Text.words text with
  | [name, state] =>
    match LogDomain.ofName? name with
    | none => .error ("unknown log domain '" ++ name ++ "'")
    | some domain =>
      match state with
      | "on" => .ok (.log domain true)
      | "off" => .ok (.log domain false)
      | other => .error ("expected on or off, got '" ++ other ++ "'")
  | _ => .error "usage: ?log <eval|read|expand> <on|off>"

/-- A count of at most 32 bits. A plus sign may stand in front, a minus sign may not. -/
def count? (text : String) : Option Nat :=
  if text.toList.head? = some '-' then none
  else (Decimal.integer? text.toList).bind fun n => if n < UInt32.size then some n.toNat else none

/-- `<iterations> <form>`. -/
def parseBench (text : String) : Except String Command :=
  match splitWord text with
  | none => .error "usage: ?bench <iterations> <form>"
  | some (count, form) =>
    match count? count with
    | none => .error ("invalid iteration count '" ++ count ++ "'")
    | some n => .ok (.bench n form)

/-- The command on a line, absent if the line is code. -/
def parse? (line : String) : Option (Except String Command) :=
  match (Text.trim line).toList with
  | '?' :: body =>
    let body := String.ofList body
    let (name, rest) := (splitWord body).getD (body, "")
    some <| match name with
      | "help" => .ok .help
      | "quit" => .ok .quit
      | "log" => if rest.isEmpty then .ok .showLog else parseLog rest
      | "bench" => parseBench rest
      | other => .error ("unknown command ?" ++ other ++ ", try ?help")
  | _ => none

end Command

def banner : String := "Tamarind REPL. Type ?help for commands.\n"

def help : String :=
  String.join <| List.map (· ++ "\n") [
    "Enter forms to evaluate them. Incomplete forms continue on the next line.",
    "",
    "    ?help                        Show this help",
    "    ?quit                        Leave the REPL",
    "    ?log                         Show enabled trace domains",
    "    ?log <domain> <on|off>       Toggle tracing for eval, read or expand",
    "    ?bench <iterations> <form>   Time repeated evaluation of a form",
    "",
    "    *1 *2 *3                     The last three results"]

end Repl

/-- A loop between two lines: the interpreter, and the lines that await their completion. -/
structure Repl where
  world : World
  pending : Option String := none

namespace Repl

/-- What a line brings about beside the new state. -/
structure Reply where
  out : String := ""
  err : String := ""
  quit : Bool := false

def Reply.append (a b : Reply) : Reply :=
  ⟨a.out ++ b.out, a.err ++ b.err, a.quit || b.quit⟩

instance : Append Reply := ⟨Reply.append⟩

/-- Runs a part of a session; a failure is told by its message. -/
def attempt (m : Session String) (w : World) : Reply × Bool × World :=
  let (text, err, ok, w) : String × String × Bool × World :=
    match m w with
    | .ok text w => (text, "", true, w)
    | .error f w => ("", f.message ++ "\n", false, w)
  ({ out := w.output ++ text, err := err }, ok, { w with output := "" })

def logLine (w : World) : String := "log: " ++ w.log.text ++ "\n"

/-- The wording of a benchmark. Nothing here looks at a clock, so no time passes. -/
def benchLine (iterations : Nat) : String := s!"{iterations} iterations, 0ns per evaluation\n"

def runCommand (e : Engine) (c : Command) (w : World) : Reply × World :=
  match c with
  | .help => ({ out := help }, w)
  | .quit => ({ quit := true }, w)
  | .showLog => ({ out := logLine w }, w)
  | .log domain on =>
    let w := { w with log := w.log.set domain on }
    ({ out := logLine w }, w)
  | .bench n form =>
    let (reply, _, w) := attempt (do Session.repeatedly e form n; return benchLine n) w
    (reply, w)

/-- Evaluates forms, prints and remembers their values; the first failure ends the line. A value
that cannot be printed is remembered all the same. -/
def runForms (e : Engine) : List Value → World → Reply × World
  | [], w => ({}, w)
  | form :: rest, w =>
    match Session.evaluate e form w with
    | .error f w => ({ out := w.output, err := f.message ++ "\n" }, { w with output := "" })
    | .ok v w =>
      let (reply, _, w) := attempt (do return (← Session.describe e .readable v) ++ "\n") w
      let w := match Session.record v w with
        | .ok _ w | .error _ w => w
      let (more, w) := runForms e rest w
      (reply ++ more, w)

/-- Takes the next line. -/
def feed (e : Engine) (r : Repl) (line : String) : Reply × Repl :=
  let run (text : String) : Reply × Repl :=
    match Session.read e text r.world with
    | .ok forms w =>
      let (reply, w) := runForms e forms w
      (reply, ⟨w, none⟩)
    | .error f w =>
      if f.incomplete then ({}, ⟨w, some text⟩) else ({ err := f.message ++ "\n" }, ⟨w, none⟩)
  match r.pending with
  | some text => run (text ++ "\n" ++ line)
  | none =>
    if (Text.trim line).isEmpty then ({}, r)
    else match Command.parse? line with
      | some (.ok c) =>
        let (reply, w) := runCommand e c r.world
        (reply, ⟨w, none⟩)
      | some (.error message) => ({ err := message ++ "\n" }, r)
      | none => run line

/-- Takes lines until one of them asks to quit. -/
def feedAll (e : Engine) (r : Repl) : List String → Reply
  | [] => {}
  | line :: rest =>
    let (reply, r) := feed e r line
    if reply.quit then reply else reply ++ feedAll e r rest

end Repl

end LazyLisp
