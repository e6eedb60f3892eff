import LazyLisp.Proofs.ClearEvaluation
import LazyLisp.Proofs.Transparency

/-!
That evaluation fails for marked forms is of no consequence for programs. What is read has no marks,
an interpreter starts without any, and no step makes one. So a run in which marked forms are served
in any other way is the same run.
-/

namespace LazyLisp
set_option autoImplicit false

namespace Evaluation

/-- A step that serves marked forms in another way. -/
def stepWith (other : Mark → Value → Eval Outcome) (e : Engine) : Request → Eval Outcome
  | .evaluate _ (.marked m form) _ => other m form
  | r => step e r

def runWith (other : Mark → Value → Eval Outcome) : Nat → Request → Eval Outcome
  | 0, _ => throw .exhausted
  | n + 1, r => stepWith other ⟨runWith other n, n⟩ r

theorem stepWith_unmarked (other : Mark → Value → Eval Outcome) (e : Engine) {r : Request}
    (hr : r.Unmarked) : stepWith other e r = step e r := by
  unfold stepWith
  split
  · rename_i m form _
    have hform : (Value.marked m form).Unmarked := hr
    exact absurd hform Value.not_unmarked_marked
  · rfl

end Evaluation

/-- The engine with a given budget that serves marked forms in another way. -/
def Engine.serving (other : Mark → Value → Eval Outcome) (n : Nat) : Engine :=
  ⟨Evaluation.runWith other n, n⟩

section
variable (other : Mark → Value → Eval Outcome)

theorem clear_run (n : Nat) {r : Request} (hr : r.Unmarked) :
    Clear Outcome.Unmarked (Evaluation.run n r) (Evaluation.runWith other n r) := by
  induction n generalizing r with
  | zero => exact .throw _
  | succ n ih =>
    rw [Evaluation.run, Evaluation.runWith, Evaluation.stepWith_unmarked other _ hr]
    have hengines : Engine.Clear ⟨Evaluation.run n, n⟩ ⟨Evaluation.runWith other n, n⟩ :=
      ⟨rfl, fun _ hr => ih hr⟩
    exact hengines.step hr

theorem clear_ofBudget (n : Nat) : (Engine.ofBudget n).Clear (.serving other n) :=
  ⟨rfl, fun _ hr => clear_run other n hr⟩

end

/-! Sessions. -/

section
variable {α : Type} {p : α → Prop} {e e' : Engine}

theorem clear_ofEval {m m' : Eval α} (hm : Clear p m m') :
    Clear p (Session.ofEval m) (Session.ofEval m') := by
  intro w hw
  obtain ⟨hsame, hleaves⟩ := hm w hw
  unfold Session.ofEval
  rw [hsame]
  generalize m w = ending at hleaves ⊢
  refine ⟨rfl, ?_⟩
  cases ending with
  | ok a v => exact hleaves
  | error s v => cases s <;> exact hleaves

theorem clear_loading (file : String) {m m' : Session α} (hm : Clear p m m') :
    Clear p (Session.loading file m) (Session.loading file m') := by
  intro w hw
  obtain ⟨hsame, hleaves⟩ := hm w hw
  unfold Session.loading
  rw [hsame]
  generalize m w = ending at hleaves ⊢
  refine ⟨rfl, ?_⟩
  cases ending <;> exact hleaves

/-- The vars that results are remembered in get the new value or one of each other's. -/
theorem clear_record {value : Value} (hvalue : value.Unmarked) :
    Clear (fun _ => True) (Session.record value) (Session.record value) := by
  refine .modify fun w hw => ?_
  dsimp only
  split
  · refine hw.withSpaces (Namespaces.Unmarked.setVar ?_ _ hvalue)
    -- the first result moves into the second var, and before that the second into the third
    split
    · rename_i hfirst
      refine Namespaces.Unmarked.setVar ?_ _ (hw.varValue hfirst)
      split
      · rename_i hsecond
        exact hw.spaces.setVar _ (hw.varValue hsecond)
      · exact hw.spaces
    · split
      · rename_i hsecond
        exact hw.spaces.setVar _ (hw.varValue hsecond)
      · exact hw.spaces
  · exact hw

theorem clear_installBuiltins :
    Clear (fun _ => True) Interpreter.installBuiltins Interpreter.installBuiltins := by
  refine .forM fun b _ => .bind (clear_intern b.text) fun name _ => ?_
  have hbuiltin : (Value.builtin b).Unmarked := trivial
  exact .bind (clear_define name hbuiltin) fun _ _ => .pure trivial

theorem clear_declareResults :
    Clear (fun _ => True) Interpreter.declareResults Interpreter.declareResults :=
  .forM fun name _ => .bind (clear_declare name) fun _ _ => .pure trivial

theorem clear_enterUser :
    Clear (fun _ => True) Interpreter.enterUser Interpreter.enterUser := by
  refine .bind (.modify fun w hw => hw.withSpaces ?_) fun _ _ => ?_
  · exact (Namespaces.Performs.create Names.user).unmarked hw.spaces nofun
  · refine .bind (clear_refer _ _) fun _ _ => ?_
    exact .modify fun _ hw => ⟨hw.frames, hw.cells, hw.closures, hw.spaces⟩

/-- A value and a number. -/
def ScriptUnmarked (r : Value × Nat) : Prop := r.1.Unmarked

namespace Engine.Clear

theorem read (h : e.Clear e') (source : String) :
    LazyLisp.Clear AllUnmarked (Session.read e source) (Session.read e' source) := by
  refine .bind (clear_ofEval (h.readSource source)) fun r hr => ?_
  cases r with
  | ok forms => exact .pure (hr forms rfl)
  | error err => exact .throw _

theorem evaluateOutside (h : e.Clear e') {form : Value} (hform : form.Unmarked) :
    LazyLisp.Clear Value.Unmarked (Session.evaluate e form) (Session.evaluate e' form) :=
  clear_ofEval (h.value hform)

theorem runScript (h : e.Clear e') (source : String) :
    LazyLisp.Clear ScriptUnmarked (Session.runScript e source) (Session.runScript e' source) := by
  refine .bind (h.read source) fun forms hforms => ?_
  have hall := Clear.foldlM (q := Value.Unmarked) (b := Value.nil)
    (fun _ _ form hform => h.evaluateOutside (hforms form hform)) trivial
  exact .bind hall fun _ hv => .pure hv

theorem evalSource (h : e.Clear e') (source : String) :
    LazyLisp.Clear Value.Unmarked (Session.evalSource e source) (Session.evalSource e' source) :=
  .bind (h.runScript source) fun _ hv => .pure hv

theorem recordAll (h : e.Clear e') (source : String) :
    LazyLisp.Clear Value.Unmarked (Session.recordAll e source) (Session.recordAll e' source) := by
  refine .bind (h.read source) fun forms hforms => .foldlM (fun _ _ form hform => ?_) trivial
  refine .bind (h.evaluateOutside (hforms form hform)) fun v hv => ?_
  exact .bind (clear_record hv) fun _ _ => .pure hv

theorem bootstrap (h : e.Clear e') (config : Config) :
    LazyLisp.Clear (fun _ => True) (Interpreter.bootstrap e config)
      (Interpreter.bootstrap e' config) := by
  refine .bind (clear_ofEval clear_installBuiltins) fun _ _ => ?_
  refine .bind (clear_ofEval clear_declareResults) fun _ _ => ?_
  split
  · refine .bind (.forM fun file _ => ?_) fun _ _ => clear_ofEval clear_enterUser
    refine .bind (clear_loading file.name (h.runScript file.source)) fun _ _ => ?_
    exact clear_ofEval (clear_note _)
  · exact clear_ofEval clear_enterUser

end Engine.Clear

/-- The command gives the interpreter no marked form. -/
def Command.Unmarked : Command → Prop
  | evaluate form => form.Unmarked
  | boot _ => True
  | eval _ => True
  | run _ => True
  | record _ => True

theorem Command.clear_perform (h : e.Clear e') {c : Command} (hc : c.Unmarked) :
    Clear (fun _ => True) (c.perform e) (c.perform e') := by
  cases c with
  | boot library => exact .bind (h.bootstrap _) fun _ _ => .pure trivial
  | eval source => exact .bind (h.evalSource source) fun _ _ => .pure trivial
  | run source => exact .bind (h.runScript source) fun _ _ => .pure trivial
  | record source => exact .bind (h.recordAll source) fun _ _ => .pure trivial
  | evaluate form => exact .bind (h.evaluateOutside hc) fun _ _ => .pure trivial

theorem play_clear (h : e.Clear e') {commands : List Command} (hcommands : ∀ c ∈ commands, c.Unmarked)
    {w : World} (hw : w.Unmarked) :
    play e' commands w = play e commands w ∧ (play e commands w).2.Unmarked := by
  induction commands generalizing w with
  | nil => exact ⟨rfl, hw⟩
  | cons c rest ih =>
    obtain ⟨hc, hrest⟩ := List.forall_mem_cons.1 hcommands
    obtain ⟨hsame, hleaves⟩ := Command.clear_perform h hc w hw
    simp only [play]
    rw [hsame]
    generalize c.perform e w = ending at hleaves ⊢
    cases ending with
    | ok reply v =>
      obtain ⟨hplay, hlast⟩ := ih hrest hleaves.2
      exact ⟨by simp only [hplay], hlast⟩
    | error f v =>
      obtain ⟨hplay, hlast⟩ := ih hrest hleaves
      exact ⟨by simp only [hplay], hlast⟩

end

/-- What is read has no marks at any depth, and replacing marks once more leaves it as it is. In a
state without marks, its evaluation in any scope does not depend on how marked forms are served; nor
does what an interpreter answers to any commands, those forms among them, and no command brings in a
mark. -/
theorem reading_leaves_no_marks {source : String} {names after : Names} {forms : List Value}
    (hread : readForms source names = .ok forms after) :
    (∀ form ∈ forms, form.Unmarked ∧ (∀ st, Shorthand.lower form st = .ok form st) ∧
      ∀ (e : Engine) (w : World), form.size ≤ e.bound → form.equal e form w = .ok true w) ∧
    (∀ log, (World.blank log).Unmarked) ∧
    ∀ (other : Mark → Value → Eval Outcome) (n : Nat) (w : World), w.Unmarked →
      (∀ form ∈ forms, ∀ scope asHead,
        Evaluation.runWith other n (.evaluate scope form asHead) w =
          Evaluation.run n (.evaluate scope form asHead) w) ∧
      ∀ commands : List Command, (∀ c ∈ commands, c.Unmarked) →
        play (.serving other n) (commands ++ forms.map .evaluate) w =
          play (.ofBudget n) (commands ++ forms.map .evaluate) w ∧
        (play (.ofBudget n) (commands ++ forms.map .evaluate) w).2.Unmarked := by
  have hbare : ∀ form ∈ forms, form.Bare := readForms_bare source _ _ _ hread
  refine ⟨fun form hform => ⟨(hbare form hform).unmarked, ?_, ?_⟩, World.Unmarked.blank, ?_⟩
  · exact fun st => Shorthand.lower_bare (hbare form hform) st
  · exact fun e w hsize => Value.equal_self (hbare form hform).tidy hsize w
  intro other n w hw
  refine ⟨fun form hform scope asHead => ?_, fun commands hcommands => ?_⟩
  · have hrequest : (Request.evaluate scope form asHead).Unmarked := (hbare form hform).unmarked
    exact (clear_run other n hrequest w hw).1
  · refine play_clear (clear_ofBudget other n) (List.forall_mem_append.2 ⟨hcommands, ?_⟩) hw
    intro c hc
    obtain ⟨form, hform, rfl⟩ := List.mem_map.1 hc
    exact (hbare form hform).unmarked

/-- Quotes of quotes, and templates in a template, one of them in a hole. -/
def nestedMarks : String := "''#'a `(b [\x7b:k '~c\x7d] `(d ~e ~@f) ~`(g ~@h) @i)"

theorem reading_leaves_no_marks_nested :
    ∃ forms after, readForms nestedMarks Names.initial = .ok forms after ∧ forms.length = 2 ∧
      (∀ form ∈ forms, form.Unmarked ∧ Shorthand.lower form ⟨after, []⟩ = .ok form ⟨after, []⟩) ∧
      ∀ (other : Mark → Value → Eval Outcome) (n : Nat) (log : LogDomains),
        play (.serving other n) ([.boot true] ++ forms.map .evaluate) (World.blank log) =
          play (.ofBudget n) ([.boot true] ++ forms.map .evaluate) (World.blank log) := by
  have hreads : ((readForms nestedMarks).run' Names.initial).map List.length = some 2 := by
    decide +kernel
  delta EStateM.run' EStateM.run at hreads
  cases hread : readForms nestedMarks Names.initial with
  | error err after => rw [hread] at hreads; cases hreads
  | ok forms after =>
    rw [hread] at hreads
    obtain ⟨hforms, hblank, hruns⟩ := reading_leaves_no_marks hread
    refine ⟨forms, after, rfl, by simpa using hreads, fun form hform => ?_, fun other n log => ?_⟩
    · obtain ⟨hunmarked, hlower, -⟩ := hforms form hform
      exact ⟨hunmarked, hlower _⟩
    · have hboot : ∀ c ∈ [Command.boot true], c.Unmarked := List.forall_mem_singleton.2 trivial
      exact ((hruns other n _ (hblank log)).2 _ hboot).1

end LazyLisp
