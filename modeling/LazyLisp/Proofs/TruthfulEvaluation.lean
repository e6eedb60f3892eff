import LazyLisp.Proofs.Moves
import LazyLisp.Proofs.Transparency
import LazyLisp.Proofs.TruthfulCore

/-!
Arity errors tell the truth, unless they come from a closure whose clauses leave out a number of
arguments between those that they take: one lemma for each special form, for application and for the
kinds of forms, from these a step of the evaluator, and then whatever an interpreter is asked to do.
-/

namespace LazyLisp
set_option autoImplicit false

/-! What needs no engine. -/

theorem truthful_boundFrame (parent : Scope) (bindings : List (Symbol × Value)) :
    Truthful (Evaluation.boundFrame parent bindings) := by
  refine .bind (truthful_newFrame parent) fun frame => ?_
  exact .bind (.forM (fun b => truthful_push frame b.1 b.2) bindings) fun _ => .pure _

theorem truthful_callFrame (c : Closure) (self : Value) (bindings : List (Symbol × Value)) :
    Truthful (Evaluation.callFrame c self bindings) := by
  rw [Evaluation.callFrame_eq]
  cases c.name with
  | none => exact truthful_boundFrame _ _
  | some name => exact .bind (truthful_boundFrame _ _) fun _ => truthful_boundFrame _ _

theorem truthful_quote (args : List Value) : Truthful (Evaluation.quote args) := by
  unfold Evaluation.quote
  split
  · exact .pure _
  · exact .pure _
  · rename_i hnil hone
    refine .misfit ?_
    rcases args with _ | ⟨x, _ | ⟨y, more⟩⟩
    · exact absurd rfl hnil
    · exact absurd rfl (hone x)
    · simp [Arity.accepts]

theorem truthful_definitionTarget (label : String) (form : Value) :
    Truthful (Evaluation.definitionTarget label form) := by
  unfold Evaluation.definitionTarget
  split
  · exact .get_bind fun _ => .guard (fun _ _ => trivial) (.pure _)
  · exact .fail fun _ => trivial

theorem truthful_noteDefinition (id : VarId) : Truthful (Evaluation.noteDefinition id) := by
  refine .get_bind fun w => ?_
  split
  · exact truthful_note _
  · exact .pure _

theorem truthful_pairs (label : String) (items : List Value) :
    Truthful (Evaluation.pairs label items) := by
  fun_induction Evaluation.pairs label items with
  | case1 rest name form ih => exact .bind ih fun _ => .pure _
  | case2 => exact .fail fun _ => trivial
  | case3 => exact .pure _

theorem truthful_bindingPairs (label : String) (form : Option Value) :
    Truthful (Evaluation.bindingPairs label form) := by
  unfold Evaluation.bindingPairs
  split
  · exact .guard (fun _ _ => trivial) (truthful_pairs _ _)
  · exact .fail fun _ => trivial

theorem truthful_varOf (args : List Value) : Truthful (Evaluation.varOf args) := by
  unfold Evaluation.varOf
  split
  · refine .get_bind fun w => ?_
    split
    · exact .pure _
    · exact .fail fun _ => trivial
  · exact .fail fun _ => trivial
  · rename_i hother
    exact .misfit_one hother

theorem truthful_parseParams (label : String) (params : List Symbol) (items : List Value) :
    Truthful (Evaluation.parseParams label params items) := by
  fun_induction Evaluation.parseParams label params items
  all_goals first
    | exact .pure _
    | exact .fail fun _ => trivial
    | assumption

theorem truthful_parseClause (label : String) (params : Value) (forms : List Value) :
    Truthful (Evaluation.parseClause label params forms) := by
  unfold Evaluation.parseClause
  split
  · exact .bind (truthful_parseParams _ _ _) fun _ => .pure _
  · exact .fail fun _ => trivial

theorem truthful_lookupArgs (label : String) (args : List Value) :
    Truthful (Evaluation.lookupArgs label args) := by
  unfold Evaluation.lookupArgs
  split
  · exact .pure _
  · exact .pure _
  · rename_i hone htwo
    refine .misfit ?_
    rcases args with _ | ⟨x, _ | ⟨y, _ | ⟨z, more⟩⟩⟩
    · rfl
    · exact absurd rfl (hone x)
    · exact absurd rfl (htwo x y)
    · simp [Arity.accepts]

theorem truthful_macroAsValue (id : ClosureId) : Truthful (Evaluation.macroAsValue id) :=
  .get_bind fun _ => .fail fun _ => trivial

theorem truthful_evaluateSymbol (scope : Scope) (s : Symbol) (asHead : Bool) :
    Truthful (Evaluation.evaluateSymbol scope s asHead) := by
  refine .get_bind fun w => ?_
  split
  · exact .fail fun _ => trivial
  · split
    · exact .pure _
    · exact truthful_macroAsValue _
  · exact .pure _

namespace Engine.Truthful
variable {e : Engine} {scope : Scope}

/-! Bodies and closures. -/

theorem body (h : e.Truthful) (scope : Scope) (forms : List Value) :
    LazyLisp.Truthful (Evaluation.body e scope forms) := by
  fun_induction Evaluation.body e scope forms with
  | case1 => exact .pure _
  | case2 last => exact h.evaluate scope last
  | case3 form rest hrest ih => exact .bind (h.value scope form) fun _ => ih

theorem rounds (h : e.Truthful) (frame : FrameId) (expected n : Nat) (forms : List Value) :
    LazyLisp.Truthful (Evaluation.rounds e frame expected forms n) := by
  induction n with
  | zero => exact .throw fun _ => trivial
  | succ n ih =>
    refine .bind (h.body _ forms) fun o => ?_
    cases o with
    | value v => exact .pure v
    | again values =>
      refine .guard (fun hne _ => .inl ?_) (.bind (truthful_rebind frame values) fun _ => ih)
      exact beq_eq_false_iff_ne.2 (bne_iff_ne.1 hne)

/-- A closure that has no clause for the arguments reports what does not fit, or skips their
number. -/
theorem invoke (h : e.Truthful) (id : ClosureId) (self : Value) (args : List Value) :
    LazyLisp.Truthful (Evaluation.invoke e id self args) := by
  refine .get_bind_at fun w hw => ?_
  cases hc : w.closures[id]? with
  | none => exact hw.leads
  | some c =>
    cases hclause : c.select? args.length with
    | none =>
      simp only [hclause]
      refine ⟨hw.leads, ?_⟩
      obtain ⟨clauses, hsome, hholds⟩ := hw.closures id c hc
      cases haccepts : c.arity.accepts args.length with
      | false => exact .inl haccepts
      | true => exact .inr ⟨id, c, hc, rfl, (hholds.skips_iff hsome _).2 ⟨hclause, haccepts⟩⟩
    | some clause =>
      simp only [hclause]
      have hrun : LazyLisp.Truthful (do
          let frame ← Evaluation.callFrame c self (clause.bindings args)
          Evaluation.rounds e frame clause.bindingCount clause.body e.bound) :=
        .bind (truthful_callFrame _ _ _) fun frame => h.rounds frame _ _ _
      exact hrun w hw

theorem expand (h : e.Truthful) (id : ClosureId) (forms : List Value) :
    LazyLisp.Truthful (Evaluation.expand e id forms) := by
  refine .bind (h.invoke id _ forms) fun expansion => .get_bind fun w => ?_
  dsimp only
  split
  · exact .bind (h.textOrType expansion) fun _ => .bind (truthful_note _) fun _ => .pure _
  · exact .pure _

/-! Special forms. -/

theorem bindAll (h : e.Truthful) (frame : FrameId) (bindings : List (Symbol × Value)) :
    LazyLisp.Truthful (Evaluation.bindAll e frame bindings) := by
  induction bindings with
  | nil => exact .pure _
  | cons b rest ih =>
    exact .bind (h.value (some frame) b.2) fun v => .bind (truthful_push frame b.1 v) fun _ => ih

theorem choose (h : e.Truthful) (scope : Scope) (args : List Value) :
    LazyLisp.Truthful (Evaluation.choose e scope args) := by
  unfold Evaluation.choose
  split
  · refine .bind (h.value scope _) fun v => ?_
    split
    · exact h.evaluate scope _
    · exact .pure _
  · refine .bind (h.value scope _) fun v => ?_
    split
    · exact h.evaluate scope _
    · exact h.evaluate scope _
  · rename_i htwo hthree
    refine .misfit ?_
    rcases args with _ | ⟨x, _ | ⟨y, _ | ⟨z, _ | ⟨u, more⟩⟩⟩⟩
    · rfl
    · rfl
    · exact absurd rfl (htwo x y)
    · exact absurd rfl (hthree x y z)
    · simp [Arity.accepts]

theorem define (h : e.Truthful) (scope : Scope) (args : List Value) :
    LazyLisp.Truthful (Evaluation.define e scope args) := by
  unfold Evaluation.define
  split
  · refine .bind (truthful_definitionTarget _ _) fun name => ?_
    exact .bind (truthful_declare name) fun id => .bind (truthful_noteDefinition id) fun _ => .pure _
  · refine .bind (truthful_definitionTarget _ _) fun name => .bind (h.value scope _) fun v => ?_
    exact .bind (truthful_define name v) fun id => .bind (truthful_noteDefinition id) fun _ => .pure _
  · rename_i hone htwo
    refine .misfit ?_
    rcases args with _ | ⟨x, _ | ⟨y, _ | ⟨z, more⟩⟩⟩
    · rfl
    · exact absurd rfl (hone x)
    · exact absurd rfl (htwo x y)
    · simp [Arity.accepts]

theorem letIn (h : e.Truthful) (scope : Scope) (args : List Value) :
    LazyLisp.Truthful (Evaluation.letIn e scope args) := by
  refine .bind (truthful_bindingPairs _ _) fun bindings => .bind (truthful_newFrame scope) fun frame => ?_
  exact .bind (h.bindAll frame bindings) fun _ => h.body _ _

theorem looping (h : e.Truthful) (scope : Scope) (args : List Value) :
    LazyLisp.Truthful (Evaluation.looping e scope args) := by
  refine .bind (truthful_bindingPairs _ _) fun bindings => .bind (truthful_newFrame scope) fun frame => ?_
  exact .bind (h.bindAll frame bindings) fun _ => .bind (h.rounds frame _ _ _) fun _ => .pure _

theorem parseClauses (h : e.Truthful) (label : String) (forms : List Value) :
    LazyLisp.Truthful (Evaluation.parseClauses e label forms) := by
  unfold Evaluation.parseClauses
  split
  · exact .fail fun _ => trivial
  · exact .bind (truthful_parseClause _ _ _) fun _ => .pure _
  · refine .mapM (fun form => ?_) forms
    split
    · refine .bind (h.toList _) fun items => ?_
      split
      · exact truthful_parseClause _ _ _
      · exact .fail fun _ => trivial
    · exact .fail fun _ => trivial

end Engine.Truthful

theorem parseClauses_nonempty (e : Engine) (label : String) (forms : List Value) :
    Gives (Evaluation.parseClauses e label forms) (· ≠ []) := by
  unfold Evaluation.parseClauses
  split
  · exact .throw
  · exact .bind (.any _) fun _ _ => .pure (List.cons_ne_nil _ _)
  · rename_i hsome _
    cases forms with
    | nil => exact absurd rfl hsome
    | cons form rest =>
      rw [List.mapM_cons]
      exact .bind (.any _) fun _ _ => .bind (.any _) fun _ _ => .pure (List.cons_ne_nil _ _)

namespace Engine.Truthful
variable {e : Engine}

theorem makeClosure (h : e.Truthful) (scope : Scope) (name : Option Symbol) (label : String)
    (forms : List Value) : LazyLisp.Truthful (Evaluation.makeClosure e scope name label forms) := by
  refine .bind_gives (h.parseClauses label forms) (parseClauses_nonempty e label forms)
    fun clauses hsome => ?_
  split
  · rename_i hmake
    exact truthful_newClosure hsome (Closure.make_eq_ok_iff.1 hmake).2.2
  · rename_i err hmake
    refine .fail fun w => ?_
    cases Closure.make_refusal hmake <;> trivial

theorem lambda (h : e.Truthful) (scope : Scope) (args : List Value) :
    LazyLisp.Truthful (Evaluation.lambda e scope args) := by
  unfold Evaluation.lambda
  split
  · exact .get_bind fun _ => .bind (h.makeClosure _ _ _ _) fun _ => .pure _
  · exact .bind (h.makeClosure _ _ _ _) fun _ => .pure _

theorem defineMacro (h : e.Truthful) (scope : Scope) (args : List Value) :
    LazyLisp.Truthful (Evaluation.defineMacro e scope args) := by
  unfold Evaluation.defineMacro
  split
  · exact .misfit rfl
  · refine .bind (truthful_definitionTarget _ _) fun name => .get_bind fun w => ?_
    exact .bind (h.makeClosure _ _ _ _) fun id => .bind (truthful_define name _) fun _ => .pure _

theorem recur (h : e.Truthful) (scope : Scope) (args : List Value) :
    LazyLisp.Truthful (Evaluation.recur e scope args) :=
  .bind (.mapM (h.value scope) args) fun _ => .pure _

theorem applyForm (h : e.Truthful) (scope : Scope) (args : List Value) :
    LazyLisp.Truthful (Evaluation.apply e scope args) := by
  unfold Evaluation.apply
  split
  · refine .bind (h.value scope _) fun f => .bind (.mapM (h.value scope) _) fun leading => ?_
    refine .bind (h.value scope _) fun spread => ?_
    split
    · exact .fail fun _ => trivial
    · exact .bind (h.toList _) fun items => h _
  · rename_i hmore
    refine .misfit ?_
    rcases args with _ | ⟨x, _ | ⟨y, more⟩⟩
    · rfl
    · rfl
    · exact absurd rfl (hmore x y more)

/-- The failure of one form is still borne out behind the others. -/
theorem attempt (h : e.Truthful) (scope : Scope) {failure : EvalError} (forms : List Value) {w : World}
    (hw : w.Explained) (hfailure : w.Explains failure) :
    w.Reports (Evaluation.attempt e scope failure forms w) := by
  induction forms generalizing failure w with
  | nil => exact ⟨hw.leads, hfailure⟩
  | cons form rest ih =>
    have hends := h.evaluate scope form w hw
    rw [Evaluation.attempt]
    dsimp only
    generalize e.evaluate scope form w = r at hends ⊢
    rcases r with ⟨o, v⟩ | ⟨err | _, v⟩
    · cases o with
      | value a => exact hends
      | again values => exact World.Leads.reports hends (ih hends.explained trivial)
    · exact hends.1.reports (ih hends.1.explained hends.2)
    · exact hends

theorem special (h : e.Truthful) (scope : Scope) (f : SpecialForm) (args : List Value) :
    LazyLisp.Truthful (Evaluation.special e scope f args) := by
  cases f with
  | quote => exact truthful_quote args
  | ifElse => exact h.choose scope args
  | block => exact h.body scope args
  | define => exact h.define scope args
  | letIn => exact h.letIn scope args
  | varOf => exact truthful_varOf args
  | lambda => exact h.lambda scope args
  | defineMacro => exact h.defineMacro scope args
  | looping => exact h.looping scope args
  | recur => exact h.recur scope args
  | apply => exact h.applyForm scope args
  | attempt => exact fun w hw => h.attempt scope args hw (.inl rfl)

/-! Application and the kinds of forms. -/

theorem evaluateEntries (h : e.Truthful) (scope : Scope) (done entries : Entries) :
    LazyLisp.Truthful (Evaluation.evaluateEntries e scope done entries) := by
  induction entries generalizing done with
  | nil => exact .pure _
  | cons f rest ih =>
    refine .bind (h.value scope f.1) fun k => .bind (h.value scope f.2) fun v => ?_
    exact .bind (h.put done k v) ih

theorem getOr (h : e.Truthful) (entries : Entries) (key fallback : Value) :
    LazyLisp.Truthful (do return Outcome.value ((← Entries.get? e entries key).getD fallback)) :=
  .bind (h.get? entries key) fun _ => .pure _

theorem applyValue (h : e.Truthful) (scope : Scope) (callee : Value) (args : List Value) :
    LazyLisp.Truthful (Evaluation.applyValue e scope callee args) := by
  unfold Evaluation.applyValue
  split
  · exact .bind (h.builtin _ args) fun _ => .pure _
  · exact .bind (h.invoke _ _ args) fun _ => .pure _
  · exact .bind (h.expand _ args) fun _ => h.evaluate scope _
  · split
    · split
      · exact .pure _
      · exact .fail fun _ => trivial
    · exact .fail fun _ => trivial
    · rename_i hother
      exact .misfit_one hother
  · exact .bind (truthful_lookupArgs _ args) fun p => h.getOr _ _ _
  · refine .bind (truthful_lookupArgs _ args) fun p => ?_
    dsimp only
    split
    · exact h.getOr _ _ _
    · exact .pure _
  · refine .bind (truthful_lookupArgs _ args) fun p => ?_
    dsimp only
    split
    · exact h.getOr _ _ _
    · exact .pure _
  · exact .bind (h.textOrType _) fun _ => .fail fun _ => trivial

theorem evaluateCall (h : e.Truthful) (scope : Scope) (head : Value) (tail : Seq) :
    LazyLisp.Truthful (Watch.all.evaluateCall e scope head tail) := by
  unfold Watch.evaluateCall
  split
  · exact .bind (h.toList tail) fun args => .get_bind fun _ => h.special scope _ args
  · refine .bind (h _) fun o => .bind o.truthful_toValue fun callee => ?_
    split
    · exact .bind (h.toList tail) fun forms => .bind (h.expand _ forms) fun _ => h.evaluate scope _
    · refine .bind (h.fold (fun acc form => .bind (h.value scope form) fun _ => .pure _) tail _)
        fun args => ?_
      exact .get_bind fun _ => h.applyValue scope callee _

theorem evaluateList (h : e.Truthful) (scope : Scope) (s : Seq) :
    LazyLisp.Truthful (Evaluation.evaluateList e scope s) := by
  rw [← Watch.all_evaluateList]
  refine .bind (h.uncons s) fun o => ?_
  cases o with
  | none => exact .pure _
  | some x =>
    refine .get_bind fun w => ?_
    dsimp only
    split
    · exact .bind (h.textOrType _) fun _ => .bind (truthful_note _) fun _ => h.evaluateCall scope _ _
    · exact h.evaluateCall scope _ _

theorem evaluateForm (h : e.Truthful) (scope : Scope) (form : Value) (asHead : Bool) :
    LazyLisp.Truthful (Evaluation.evaluateForm e scope form asHead) := by
  cases form with
  | symbol s => exact truthful_evaluateSymbol scope s asHead
  | transformer id =>
    unfold Evaluation.evaluateForm
    dsimp only
    split
    · exact .pure _
    · exact truthful_macroAsValue _
  | special f => exact .fail fun _ => trivial
  | marked m form => exact .fail fun _ => trivial
  | vector items => exact .bind (.mapM (h.value scope) items) fun _ => .pure _
  | map entries => exact .bind (h.evaluateEntries scope [] entries) fun _ => .pure _
  | seq s => exact h.evaluateList scope s
  | _ => exact .pure _

theorem step (h : e.Truthful) (r : Request) : LazyLisp.Truthful (Evaluation.step e r) := by
  cases r with
  | evaluate scope form asHead => exact h.evaluateForm scope form asHead
  | apply scope callee args => exact h.applyValue scope callee args

end Engine.Truthful

/-- Whatever is evaluated or applied, within any budget. -/
theorem truthful_run (n : Nat) (r : Request) : Truthful (Evaluation.run n r) := by
  induction n generalizing r with
  | zero => exact .throw fun _ => trivial
  | succ n ih =>
    have hengine : Engine.Truthful ⟨Evaluation.run n, n⟩ := ih
    exact hengine.step r

theorem truthful_ofBudget (n : Nat) : (Engine.ofBudget n).Truthful := truthful_run n

/-! Sessions. -/

def Failure.Explained (w : World) : Failure → Prop
  | eval err => w.Explains err
  | load _ cause => cause.Explained w
  | _ => True

theorem Failure.Explained.later {w v : World} {f : Failure} (h : f.Explained w)
    (hkeeps : w.KeepsClosures v) : f.Explained v := by
  induction f with
  | eval err => exact World.Explains.later h hkeeps
  | load file cause ih => exact ih h
  | _ => trivial

instance : Explainable Failure := ⟨fun w f => f.Explained w⟩

theorem World.Explained.blank (log : LogDomains) : (World.blank log).Explained := ⟨nofun, nofun⟩

section
variable {α : Type} {e : Engine}

theorem truthful_ofEval {m : Eval α} (hm : Truthful m) : Truthful (Session.ofEval m) := by
  intro w hw
  have hends := hm w hw
  unfold Session.ofEval
  generalize m w = r at hends ⊢
  rcases r with ⟨a, v⟩ | ⟨_ | _, v⟩ <;> exact hends

theorem truthful_loading (file : String) {m : Session α} (hm : Truthful m) :
    Truthful (Session.loading file m) := by
  intro w hw
  have hends := hm w hw
  unfold Session.loading
  generalize m w = r at hends ⊢
  cases r <;> exact hends

theorem truthful_record (value : Value) : Truthful (Session.record value) := by
  refine .modify fun w hw => ?_
  dsimp only
  split
  · exact hw.same rfl rfl
  · exact hw.leads

theorem truthful_installBuiltins : Truthful Interpreter.installBuiltins := by
  refine .forM (fun b : Builtin => .bind (truthful_intern b.text) fun name => ?_) _
  exact .bind (truthful_define name _) fun _ => .pure _

theorem truthful_declareResults : Truthful Interpreter.declareResults :=
  .forM (fun name => .bind (truthful_declare name) fun _ => .pure _) _

theorem truthful_enterUser : Truthful Interpreter.enterUser :=
  .bind (.modify fun _ hw => hw.same rfl rfl) fun _ =>
    .bind (truthful_refer _ _) fun _ => .modify fun _ hw => hw.same rfl rfl

namespace Engine.Truthful

theorem read (h : e.Truthful) (source : String) : LazyLisp.Truthful (Session.read e source) := by
  refine .bind (truthful_ofEval (h.readSource source)) fun r => ?_
  cases r with
  | ok forms => exact .pure _
  | error err => exact .throw fun _ => trivial

theorem evaluateOutside (h : e.Truthful) (form : Value) :
    LazyLisp.Truthful (Session.evaluate e form) := truthful_ofEval (h.value none form)

theorem runScript (h : e.Truthful) (source : String) :
    LazyLisp.Truthful (Session.runScript e source) :=
  .bind (h.read source) fun forms =>
    .bind (.foldlM (fun _ form => h.evaluateOutside form) forms _) fun _ => .pure _

theorem recordAll (h : e.Truthful) (source : String) :
    LazyLisp.Truthful (Session.recordAll e source) := by
  refine .bind (h.read source) fun forms => .foldlM (fun _ form => ?_) forms _
  exact .bind (h.evaluateOutside form) fun v => .bind (truthful_record v) fun _ => .pure _

theorem bootstrap (h : e.Truthful) (config : Config) :
    LazyLisp.Truthful (Interpreter.bootstrap e config) := by
  refine .bind (truthful_ofEval truthful_installBuiltins) fun _ => ?_
  refine .bind (truthful_ofEval truthful_declareResults) fun _ => ?_
  split
  · refine .bind (.forM (fun file => ?_) _) fun _ => truthful_ofEval truthful_enterUser
    refine .bind (truthful_loading file.name (h.runScript file.source)) fun _ => ?_
    exact truthful_ofEval (truthful_note _)
  · exact truthful_ofEval truthful_enterUser

end Engine.Truthful

theorem Command.truthful_perform (h : e.Truthful) (c : Command) : Truthful (c.perform e) := by
  cases c with
  | boot library => exact .bind (h.bootstrap _) fun _ => .pure _
  | eval source => exact .bind (.bind (h.runScript source) fun _ => .pure _) fun _ => .pure _
  | run source => exact .bind (h.runScript source) fun _ => .pure _
  | record source => exact .bind (h.recordAll source) fun _ => .pure _
  | evaluate form => exact .bind (h.evaluateOutside form) fun _ => .pure _

/-- What one command fails with is still borne out behind the last. -/
theorem play_explained (h : e.Truthful) (commands : List Command) {w : World} (hw : w.Explained) :
    w.Leads (play e commands w).2 ∧
      ∀ f, .error f ∈ (play e commands w).1 → f.Explained (play e commands w).2 := by
  induction commands generalizing w with
  | nil => exact ⟨hw.leads, nofun⟩
  | cons c rest ih =>
    have hends := Command.truthful_perform h c w hw
    simp only [play]
    generalize c.perform e w = r at hends ⊢
    cases r with
    | ok reply v =>
      obtain ⟨hlast, hfailures⟩ := ih hends.explained
      refine ⟨World.Leads.trans hends hlast, fun f hf => ?_⟩
      cases hf with
      | tail _ hf => exact hfailures f hf
    | error failure v =>
      obtain ⟨hlast, hfailures⟩ := ih hends.1.explained
      refine ⟨hends.1.trans hlast, fun f hf => ?_⟩
      cases hf with
      | head => exact Failure.Explained.later hends.2 hlast.keeps
      | tail _ hf => exact hfailures f hf

theorem Truthful.explained_after {m : Session α} (hm : Truthful m) {w : World} (hw : w.Explained) :
    (m.after w).Explained := by
  have hends := hm w hw
  unfold Session.after
  generalize m w = r at hends ⊢
  cases r with
  | ok a v => exact World.Leads.explained hends
  | error f v => exact World.Leads.explained hends.1

end

theorem Interpreter.Reached.explained {w : World} (h : Reached w) : w.Explained := by
  induction h with
  | @start n config w hstart =>
    have hboot : Truthful (bootstrap (.ofBudget n) config) := (truthful_ofBudget n).bootstrap config
    exact (hboot.leads_of_ok (.blank config.log) (start_eq_ok hstart)).explained
  | read n source _ ih => exact ((truthful_ofBudget n).read source).explained_after ih
  | evaluate n form _ ih => exact ((truthful_ofBudget n).evaluateOutside form).explained_after ih
  | apply n callee args _ ih =>
    exact (truthful_ofEval ((truthful_ofBudget n).apply none callee args)).explained_after ih
  | describe n style v _ ih =>
    exact (truthful_ofEval ((truthful_ofBudget n).text style v)).explained_after ih
  | record value _ ih => exact (truthful_record value).explained_after ih
  | setLog domain on _ ih => exact ⟨ih.closures, ih.cells⟩

/-- Wherever an interpreter evaluates or applies anything, and in every session, an error about a
number of arguments reports an arity that this number does not fit, or the arity of a closure that
skips it. The arity of a closure fits the numbers of arguments from the least to the greatest that a
clause takes, so these are just the ones that it has a clause for if none of them is skipped. -/
theorem arity_errors_bear_out (n : Nat) {w : World} (hw : Interpreter.Reached w) :
    (∀ r function expected got v,
      Evaluation.run n r w = .error (.error (.arity function expected got)) v →
      expected.accepts got = false ∨
        ∃ (id : ClosureId) (c : Closure), v.closures[id]? = some c ∧ expected = c.arity ∧
          c.Skips got) ∧
    (∀ commands log f, .error f ∈ (play (.ofBudget n) commands (World.blank log)).1 →
      f.Explained (play (.ofBudget n) commands (World.blank log)).2) ∧
    ∀ name clauses scope label c, Closure.make name clauses scope label = .ok c →
      (∀ count, c.arity.accepts count ↔ c.Spans count ∨ clauses = [] ∧ count = 0) ∧
      (clauses ≠ [] → ((∀ count, c.arity.accepts count ↔ (c.select? count).isSome) ↔
        ∀ count, ¬ c.Skips count)) := by
  refine ⟨fun r function expected got v hrun => ?_, fun commands log => ?_, ?_⟩
  · have hends := truthful_run n r w hw.explained
    rw [hrun] at hends
    exact hends.2
  · exact (play_explained (truthful_ofBudget n) commands (.blank log)).2
  · intro name clauses scope label c hmake
    obtain ⟨-, -, hholds⟩ := Closure.make_eq_ok_iff.1 hmake
    exact ⟨hholds.arity_accepts_cases, hholds.arity_exact_iff⟩

/-- `((fn ([] 0) ([a b & r] 2)) 1)`, where 7, 8 and 9 stand for the names. -/
def skippedCall : Value :=
  .list [.list [.special .lambda, .list [.vector [], .int 0],
    .list [.vector [.symbol (.plain 7), .symbol (.plain 8), .symbol (.plain Names.ampersand),
      .symbol (.plain 9)], .int 2]], .int 1]

/-- The arity and the number of arguments of an error, in an interpreter without the library. -/
def bareArityError (form : Value) : Option (Arity × Nat) :=
  match Interpreter.start (.ofBudget 9) { library := false } with
  | .ok w =>
    match Evaluation.run 9 (.evaluate none form false) w with
    | .error (.error (.arity _ expected got)) _ => some (expected, got)
    | _ => none
  | .error _ => none

theorem bareArityError_eq_some {form : Value} {expected : Arity} {got : Nat}
    (h : bareArityError form = some (expected, got)) :
    ∃ w function v, Interpreter.Reached w ∧
      Evaluation.run 9 (.evaluate none form false) w =
        .error (.error (.arity function expected got)) v := by
  unfold bareArityError at h
  split at h
  · rename_i w hstart
    split at h
    · rename_i function expected got v hrun
      cases h
      exact ⟨w, function, v, .start hstart, hrun⟩
    · cases h
  · cases h

theorem bareArityError_skippedCall : bareArityError skippedCall = some (.atLeast 0, 1) := by
  decide +kernel

theorem arity_errors_bear_out_skipped :
    ∃ w function v, Interpreter.Reached w ∧
      Evaluation.run 9 (.evaluate none skippedCall false) w =
        .error (.error (.arity function (.atLeast 0) 1)) v ∧
      ∃ (id : ClosureId) (c : Closure), v.closures[id]? = some c ∧ c.arity = .atLeast 0 ∧ c.Skips 1 := by
  obtain ⟨w, function, v, hw, hrun⟩ := bareArityError_eq_some bareArityError_skippedCall
  refine ⟨w, function, v, hw, hrun, ?_⟩
  obtain ⟨hruns, -, -⟩ := arity_errors_bear_out 9 hw
  rcases hruns _ function _ 1 v hrun with hfits | ⟨id, c, hc, harity, hskips⟩
  · cases hfits
  · exact ⟨id, c, hc, harity.symm, hskips⟩

/-- A call with one argument fails, and the arity that is reported accepts one. -/
theorem arity_error_accepts_count :
    (¬ ∀ w, Interpreter.Reached w → ∀ n r function expected got v,
      Evaluation.run n r w = .error (.error (.arity function expected got)) v →
      expected.accepts got = false) ∧
    ¬ ∀ name clauses scope label c, Closure.make name clauses scope label = .ok c →
      ∀ count, c.arity.accepts count ↔ (c.select? count).isSome := by
  constructor
  · intro h
    obtain ⟨w, function, v, hw, hrun⟩ := bareArityError_eq_some bareArityError_skippedCall
    cases h w hw 9 _ function _ 1 v hrun
  · intro h
    have hexact := h none [⟨[.plain 7], none, []⟩, ⟨[.plain 7, .plain 8, .plain 9], none, []⟩] none "fn"
      ⟨none, [⟨[.plain 7], none, []⟩, ⟨[.plain 7, .plain 8, .plain 9], none, []⟩], none, none⟩ rfl 2
    revert hexact
    decide

end LazyLisp
