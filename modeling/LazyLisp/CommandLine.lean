import LazyLisp.Trace

/-!
The command line: its options, what they ask for, and its help.
-/

namespace LazyLisp.CommandLine
set_option autoImplicit false

inductive OutputMode
  /-- What the script prints, then its value. -/
  | text
  /-- One JSON object at the end. -/
  | json
deriving DecidableEq, Repr

def OutputMode.ofName? (name : String) : Option OutputMode :=
  match name with
  | "text" => some .text
  | "json" => some .json
  | _ => none

structure Options where
  repl : Bool := false
  inline : Option String := none
  path : Option String := none
  output : OutputMode := .text
  library : Bool := true
  log : LogDomains := {}
  profile : Bool := false

inductive Command
  | help
  | run (options : Options)

/-- Where the source of a script comes from. -/
inductive Source
  | inline (text : String)
  | file (path : String)
  | input

/-- Inline text goes before a file, a file before standard input. -/
def Options.source (o : Options) : Source :=
  match o.inline, o.path with
  | some text, _ => .inline text
  | none, some path => .file path
  | none, none => .input

/-- Reads arguments from left to right; a later option replaces an earlier one. -/
def parseFrom (o : Options) : List String → Except String Command
  | [] => .ok (.run o)
  | "-h" :: _ | "--help" :: _ => .ok .help
  | "-r" :: rest | "--repl" :: rest => parseFrom { o with repl := true } rest
  | "-p" :: rest | "--profile" :: rest => parseFrom { o with profile := true } rest
  | "--no-stdlib" :: rest => parseFrom { o with library := false } rest
  | ["-e"] | ["--eval"] => .error "-e requires a script argument"
  | "-e" :: text :: rest | "--eval" :: text :: rest => parseFrom { o with inline := some text } rest
  | ["-o"] | ["--output"] => .error "-o requires a format (text or json)"
  | "-o" :: mode :: rest | "--output" :: mode :: rest =>
    match OutputMode.ofName? mode with
    | some output => parseFrom { o with output := output } rest
    | none => .error ("unknown output format '" ++ mode ++ "'")
  | ["--log"] => .error "--log requires a list of domains"
  | "--log" :: domains :: rest =>
    match LogDomains.parse domains with
    | .ok log => parseFrom { o with log := log } rest
    | .error message => .error message
  | arg :: rest =>
    if arg.toList.head? = some '-' then .error ("unknown option: " ++ arg)
    else parseFrom { o with path := some arg } rest

/-- What the arguments ask for. -/
def parse (args : List String) : Except String Command := parseFrom {} args

def help : String :=
  String.join <| List.map (· ++ "\n") [
    "Tamarind - a small Clojure-like interpreter",
    "",
    "USAGE:",
    "    tamarind-cli <SCRIPT>        Run a script file",
    "    tamarind-cli -e <CODE>       Evaluate inline code",
    "    tamarind-cli -r              Start REPL",
    "    tamarind-cli -h              Show this help",
    "    cat file | tamarind-cli      Read script from stdin",
    "",
    "OPTIONS:",
    "    -e, --eval <CODE>            Evaluate inline code",
    "    -o, --output <FORMAT>        Output format: text (default) or json",
    "        --no-stdlib              Start without the embedded stdlib",
    "        --log <DOMAINS>          Trace interpreter domains: eval,read,expand,all,none",
    "    -p, --profile                Enable CPU profiling (outputs flamegraph.svg)",
    "",
    "ENVIRONMENT:",
    "    TAMARIND_LOG                 tracing filter directives (default: warn)"]

end LazyLisp.CommandLine
