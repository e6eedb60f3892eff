import LazyLisp.Program

/-!
The command line program.
-/

namespace LazyLisp
set_option autoImplicit false

/-- Reads a file, or tells why that cannot be done. -/
def openFile (path : String) : IO (Except OpenError String) := do
  try
    return .ok (← IO.FS.readFile path)
  catch
    | .inappropriateType _ code _ => return .error (if code == 20 then .notFolder else .isFolder)
    | _ => return .error .missing

/-- Runs the loop on the lines of an input, printing as it goes. -/
def interact (e : Engine) (r : Repl) : IO Unit := do
  let input ← IO.getStdin
  let mut r := r
  repeat
    let line ← input.getLine
    if line.isEmpty then break
    let (reply, next) := r.feed e ((Text.lines line).headD "")
    IO.print reply.out
    IO.eprint reply.err
    (← IO.getStdout).flush
    if reply.quit then break
    r := next

end LazyLisp

open LazyLisp in
def main (args : List String) : IO UInt32 := do
  let e := Interpreter.engine
  let finish (response : Program.Response) : IO UInt32 := do
    IO.print response.out
    IO.eprint response.err
    return response.exit.toUInt32
  match CommandLine.parse args with
  | .ok (.run o) =>
    if o.repl then
      match Interpreter.start e { library := o.library, log := o.log } with
      | .ok w =>
        IO.print Repl.banner
        interact e ⟨w, none⟩
        return 0
      | .error _ => finish (Program.runOptions e o "" fun _ => .error .missing)
    else
      match o.source with
      | .file path =>
        let text ← openFile path
        finish (Program.runOptions e o "" fun _ => text)
      | .input => finish (Program.runOptions e o (← (← IO.getStdin).readToEnd) fun _ => .error .missing)
      | .inline _ => finish (Program.runOptions e o "" fun _ => .error .missing)
  | _ => finish (Program.run e args "" fun _ => .error .missing)
