import LazyLisp.Program
import LazyLisp.Proofs.JsonText
import LazyLisp.Proofs.Running

/-!
A script that runs in text mode and the same script that runs in JSON mode. Both evaluate the
source, then describe its value, except that text mode does not describe `nil`, which takes no
step. So what was printed, what is described and what fails are the same, and the two modes differ
only in how they say it.
-/

namespace LazyLisp.Program
set_option autoImplicit false

/-! ### The two reports -/

/-- The field for what the script printed, if it printed anything. -/
def consoleReport (console : String) : List (String × Json) :=
  if console.isEmpty then [] else [("console", .string console)]

/-- The report of a script that ran. -/
def scriptReport (value : String) (milliseconds : Nat) (console : String) : Json :=
  .object <|
    [("type", .string "script"), ("status", .string "ok"), ("value", .string value),
     ("duration_ms", .number milliseconds)] ++ consoleReport console

def failureReportFields : Failure → List (String × Json)
  | .read e =>
    let (_, line, column, message) := e.parts
    [("message", .string message),
     ("location", .object [("line", .number line), ("column", .number column)])]
  | .eval e => [("message", .string e.message), ("kind", .string e.kind)]
  | f@(.load ..) | f@.exhausted => [("message", .string f.message)]

/-- The report of a failure. -/
def failureReport (f : Failure) (console : String) : Json :=
  .object (("type", .string "error") :: failureReportFields f ++ consoleReport console)

section
variable (value console : String) (milliseconds : Nat) (f : Failure)

theorem scriptJson_eq :
    scriptJson value milliseconds console = (scriptReport value milliseconds console).text := by
  unfold scriptJson scriptReport consoleField consoleReport
  split <;> rfl

theorem failureJson_eq : failureJson f console = (failureReport f console).text := by
  unfold failureJson failureReport consoleField consoleReport
  cases f <;> split <;> rfl

/-- Whoever reads the report knows what was printed. -/
theorem console_scriptReport :
    ((scriptReport value milliseconds console).string? "console").getD "" = console := by
  unfold scriptReport consoleReport
  split
  · rename_i h
    exact (String.isEmpty_iff.1 h).symm
  · rfl

theorem console_failureReport : ((failureReport f console).string? "console").getD "" = console := by
  unfold failureReport consoleReport
  split
  · rename_i h
    obtain rfl := String.isEmpty_iff.1 h
    cases f <;> rfl
  · cases f <;> rfl

end

/-! ### The two runs -/

section
variable {e : Engine} {config : Config} {source : String} {w : World}

/-- What text mode writes of a value with a description. -/
def shown (v : Value) (description : String) : String :=
  match v with
  | .nil => ""
  | _ => description ++ "\n"

theorem shown_of_ne {v : Value} (hv : v ≠ .nil) (description : String) :
    shown v description = description ++ "\n" := by
  cases v with
  | nil => exact absurd rfl hv
  | _ => rfl

theorem describe_nil (he : 0 < e.bound) (w : World) :
    Session.describe e .readable .nil w = .ok "nil" w := by
  obtain ⟨n, hn⟩ := Nat.exists_eq_succ_of_ne_zero (Nat.ne_of_gt he)
  rw [Session.describe, Value.text, hn]
  rfl

theorem textResult_nil {v : World} (h : Session.evalSource e source w = .ok .nil v) :
    textResult e source w = .ok "" v := run_bind_ok h _

theorem textResult_describe {v : Value} {u : World} (hv : v ≠ .nil)
    (h : Session.evalSource e source w = .ok v u) :
    textResult e source w = ((· ++ "\n") <$> Session.describe e .readable v) u := by
  rw [textResult, run_bind_ok h]
  cases v with
  | nil => exact absurd rfl hv
  | _ => rfl

/-- Both modes fail in the same way, or both show the value that the source has. -/
theorem results_agree (he : 0 < e.bound) (source : String) (w : World) :
    (∃ f u, jsonResult e source w = .error f u ∧ textResult e source w = .error f u) ∨
    ∃ v after value u, Session.evalSource e source w = .ok v after ∧
      jsonResult e source w = .ok value u ∧ textResult e source w = .ok (shown v value) u := by
  cases heval : Session.evalSource e source w with
  | error f u => exact .inl ⟨f, u, run_bind_error heval _, run_bind_error heval _⟩
  | ok v after =>
    have hjson : jsonResult e source w = Session.describe e .readable v after := run_bind_ok heval _
    rw [hjson]
    by_cases hv : v = .nil
    · subst hv
      exact .inr ⟨.nil, after, "nil", after, rfl, describe_nil he after, textResult_nil heval⟩
    · have htext := textResult_describe hv heval
      cases hdescribe : Session.describe e .readable v after with
      | error f u =>
        refine .inl ⟨f, u, rfl, htext.trans ?_⟩
        rw [map_eq_pure_bind]
        exact run_bind_error hdescribe _
      | ok value u =>
        refine .inr ⟨v, after, value, u, rfl, rfl, htext.trans ?_⟩
        rw [map_eq_pure_bind, shown_of_ne hv]
        exact run_bind_ok hdescribe _

end

/-! ### The two responses -/

/-- The response of text mode, from what starting an interpreter yields. -/
def textResponse (e : Engine) (source : String) : Except Failure World → Response
  | .error f => { exit := runtimeError, err := Report.plain f source ++ "\n" }
  | .ok w =>
    match textResult e source w with
    | .ok text u => { out := u.output ++ text }
    | .error f u =>
      { exit := runtimeError, out := u.output, err := Report.plain f source ++ "\n" }

/-- The response of JSON mode, from what starting an interpreter yields. -/
def jsonResponse (e : Engine) (source : String) : Except Failure World → Response
  | .error f => { exit := runtimeError, out := failureJson f "" ++ "\n" }
  | .ok w =>
    match jsonResult e source w with
    | .ok value u => { out := scriptJson value 0 u.output ++ "\n" }
    | .error f u => { exit := runtimeError, out := failureJson f u.output ++ "\n" }

section
variable {e : Engine} {config : Config} {started : Except Failure World}

-- The functions are unfolded before they have arguments: applied to some, their unfolding is
-- checked by starting an interpreter.

theorem runText_of_start (h : Interpreter.start e config = started) (source : String) :
    runText e config source = textResponse e source started := by
  have hrun : runText = runText := rfl
  conv at hrun => rhs; delta runText
  rw [hrun]
  dsimp only
  rw [h]
  cases started <;> rfl

theorem runJson_of_start (h : Interpreter.start e config = started) (source : String) :
    runJson e config source = jsonResponse e source started := by
  have hrun : runJson = runJson := rfl
  conv at hrun => rhs; delta runJson
  rw [hrun]
  dsimp only
  rw [h]
  cases started <;> rfl

end

/-- A script ran, and text mode writes what the report has for what was printed and, unless the
value is `nil`, the value of the report on a line. -/
structure Ran (e : Engine) (config : Config) (source : String) (t : Response) (report : Json) :
    Prop where
  exit : t.exit = 0
  err : t.err = ""
  status : report.string? "status" = some "ok"
  out : ∃ w v after value, Interpreter.start e config = .ok w ∧
    Session.evalSource e source w = .ok v after ∧ report.string? "value" = some value ∧
    (v = .nil → t.out = (report.string? "console").getD "") ∧
    (v ≠ .nil → t.out = (report.string? "console").getD "" ++ value ++ "\n")

/-- A script failed, and text mode writes what the report has for what was printed. The failure is
the same one. -/
structure Failed (source : String) (t : Response) (report : Json) : Prop where
  exit : t.exit = runtimeError
  type : report.string? "type" = some "error"
  out : t.out = (report.string? "console").getD ""
  failure : ∃ f, report = failureReport f t.out ∧ t.err = Report.plain f source ++ "\n"

theorem failed (source : String) (f : Failure) (out : String) :
    Failed source { exit := runtimeError, out := out, err := Report.plain f source ++ "\n" }
      (failureReport f out) :=
  ⟨rfl, rfl, (console_failureReport out f).symm, f, rfl, rfl⟩

theorem ran {e : Engine} {config : Config} {source : String} {w after : World} {v : Value}
    (hstart : Interpreter.start e config = .ok w)
    (heval : Session.evalSource e source w = .ok v after) (value out : String) :
    Ran e config source { out := out ++ shown v value } (scriptReport value 0 out) := by
  refine ⟨rfl, rfl, rfl, w, v, after, value, hstart, heval, rfl, ?_, ?_⟩
  · rintro rfl
    rw [console_scriptReport]
    exact String.append_empty
  · intro hv
    rw [console_scriptReport, shown_of_ne hv, String.append_assoc]

/-- JSON mode writes one line, from which a reader gets a report, and text mode ends with the same
exit code. Either the script runs in both modes and they show the same, or it fails in both, be it
when its value is described. -/
theorem modes_report_one_run (e : Engine) (he : 0 < e.bound) (config : Config) (source : String) :
    let t := runText e config source
    let j := runJson e config source
    ∃ text report, j.out = text ++ "\n" ∧ Json.read? text = some report ∧ j.err = "" ∧
      t.exit = j.exit ∧ (Ran e config source t report ∨ Failed source t report) := by
  cases hstart : Interpreter.start e config with
  | error f =>
    rw [runText_of_start hstart, runJson_of_start hstart]
    refine ⟨_, _, ?_, Json.read?_text (failureReport f ""), rfl, rfl, .inr (failed source f "")⟩
    rw [← failureJson_eq]
    rfl
  | ok w =>
    rw [runText_of_start hstart, runJson_of_start hstart, textResponse, jsonResponse]
    rcases results_agree he source w with ⟨f, u, hjson, htext⟩ |
        ⟨v, after, value, u, heval, hjson, htext⟩
    · rw [htext, hjson]
      refine ⟨_, _, ?_, Json.read?_text (failureReport f u.output), rfl, rfl,
        .inr (failed source f u.output)⟩
      rw [← failureJson_eq]
    · rw [htext, hjson]
      refine ⟨_, _, ?_, Json.read?_text (scriptReport value 0 u.output), rfl, rfl,
        .inl (ran hstart heval value u.output)⟩
      rw [← scriptJson_eq]

/-- A script whose value prints and fails when it is described, in an interpreter without the
library. -/
theorem modes_report_one_run_printing :
    let e := Engine.ofBudget 12
    let config : Config := { library := false }
    let source := "(println 1) (lazy-seq* (fn [] (println 2) (first 5)))"
    0 < e.bound ∧ (runText e config source).out = "1\n2\n" ∧ ∃ text report,
      (runJson e config source).out = text ++ "\n" ∧ Json.read? text = some report ∧
      Failed source (runText e config source) report := by
  have hrun : (runText (.ofBudget 12) { library := false }
        "(println 1) (lazy-seq* (fn [] (println 2) (first 5)))").exit = runtimeError ∧
      (runText (.ofBudget 12) { library := false }
        "(println 1) (lazy-seq* (fn [] (println 2) (first 5)))").out = "1\n2\n" := by
    decide +kernel
  intro e config source
  obtain ⟨hexit, hout⟩ : (runText e config source).exit = runtimeError ∧
      (runText e config source).out = "1\n2\n" := hrun
  have he : 0 < e.bound := by decide
  obtain ⟨text, report, hline, hread, -, -, hran | hfailed⟩ :=
    modes_report_one_run e he config source
  · exact absurd (hexit.symm.trans hran.exit) (by decide)
  · exact ⟨he, hout, text, report, hline, hread, hfailed⟩

end LazyLisp.Program
