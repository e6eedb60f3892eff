import LazyLisp.Proofs.CoreEffects
import LazyLisp.Proofs.Watched

/-!
Evaluation and application are paired by whatever pairs the operations that change the state: one
lemma for each form, then a step of the evaluator, then runs within any two budgets of which the
second is not smaller. A run under a watch is paired with a plain one. If the watch lets only those
uses pass that mean the same under both current namespaces, they need not be the same.
-/

namespace LazyLisp
set_option autoImplicit false

namespace Evaluation

/-- A new frame with bindings. -/
def boundFrame (parent : Scope) (bindings : List (Symbol × Value)) : Eval FrameId := do
  let frame ← Eval.newFrame parent
  bindings.forM fun (s, v) => Eval.push frame s v
  return frame

theorem callFrame_eq (c : Closure) (self : Value) (bindings : List (Symbol × Value)) :
    callFrame c self bindings =
      match c.name with
      | none => boundFrame c.scope bindings
      | some name => (do
        let outer ← boundFrame c.scope [(.plain name.name, self)]
        boundFrame (some outer) bindings) := by
  unfold callFrame boundFrame
  cases c.name with
  | none => rfl
  | some name => rfl

end Evaluation

section
variable {κ : View} {Q : World → Prop}

theorem paired_quote (args : List Value) :
    Paired κ Q (Evaluation.quote args) (Evaluation.quote args) := by
  unfold Evaluation.quote
  split
  · exact .pure _
  · exact .pure _
  · exact .fail _

theorem paired_definitionTarget (hκ : κ.current = id) (label : String) (form : Value) :
    Paired κ Q (Evaluation.definitionTarget label form)
      (Evaluation.definitionTarget label form) := by
  unfold Evaluation.definitionTarget
  split
  · refine .get_bind fun w _ => ?_
    rw [seen_current hκ]
    exact .guard (.pure _)
  · exact .fail _

theorem paired_pairs (label : String) (items : List Value) :
    Paired κ Q (Evaluation.pairs label items) (Evaluation.pairs label items) := by
  fun_induction Evaluation.pairs label items with
  | case1 rest name form ih => exact .bind ih fun _ => .pure _
  | case2 => exact .fail _
  | case3 => exact .pure _

theorem paired_bindingPairs (label : String) (form : Option Value) :
    Paired κ Q (Evaluation.bindingPairs label form) (Evaluation.bindingPairs label form) := by
  unfold Evaluation.bindingPairs
  split
  · exact .guard (paired_pairs _ _)
  · exact .fail _

theorem paired_parseParams (label : String) (params : List Symbol) (items : List Value) :
    Paired κ Q (Evaluation.parseParams label params items)
      (Evaluation.parseParams label params items) := by
  fun_induction Evaluation.parseParams label params items
  all_goals first
    | exact .pure _
    | exact .fail _
    | assumption

theorem paired_parseClause (label : String) (params : Value) (forms : List Value) :
    Paired κ Q (Evaluation.parseClause label params forms)
      (Evaluation.parseClause label params forms) := by
  unfold Evaluation.parseClause
  split
  · exact .bind (paired_parseParams _ _ _) fun _ => .pure _
  · exact .fail _

theorem paired_lookupArgs (label : String) (args : List Value) :
    Paired κ Q (Evaluation.lookupArgs label args) (Evaluation.lookupArgs label args) := by
  unfold Evaluation.lookupArgs
  split
  · exact .pure _
  · exact .pure _
  · exact .fail _

theorem paired_macroAsValue (id : ClosureId) :
    Paired κ Q (Evaluation.macroAsValue id) (Evaluation.macroAsValue id) :=
  .get_bind fun _ _ => .fail _

theorem resolve?_seen (hκ : κ.current = id) (w : World) (scope : Scope) (s : Symbol) :
    (w.seen κ).resolve? scope s = w.resolve? scope s := by
  simp only [World.resolve?, World.global?, World.lookupVar?, seen_current hκ]
  rfl

theorem evaluateSymbol_ends {w : World} (hw : Q w) {scope : Scope} {s : Symbol}
    (hs : (w.seen κ).resolve? scope s = w.resolve? scope s) (asHead : Bool) :
    Ends κ Q (Evaluation.evaluateSymbol scope s asHead w)
      (Evaluation.evaluateSymbol scope s asHead (w.seen κ)) := by
  rw [Evaluation.evaluateSymbol, run_bind_ok (run_get w), run_bind_ok (run_get (w.seen κ)), hs]
  refine Paired.ends ?_ hw
  split
  · exact .fail _
  · split
    · exact .pure _
    · exact paired_macroAsValue _
  · exact .pure _

end

/-- Whether a use means the same under another current namespace. -/
def Use.Neutral (κ : NameId → NameId) (w : World) : Use → Prop
  | symbol scope s => (w.under κ).resolve? scope s = w.resolve? scope s
  | special .define _ => False
  | special .defineMacro _ => False
  | special .varOf [.symbol s] => (w.under κ).lookupVar? s = w.lookupVar? s
  | special _ _ => True
  | call (.builtin b) => b.isReflective = false
  | call _ => True

/-- Either both sides have one current namespace and definitions keep the relation, or the use does
not depend on the current namespace. -/
def Use.Safe (κ : NameId → NameId) (P : World → World → Prop) (w : World) (use : Use) : Prop :=
  (κ = id ∧ Defining P) ∨ use.Neutral κ w

section
variable {κ : View} {P : World → World → Prop} {fits : World → Scope → Prop}
  {base : World} {e e' : Engine} {scope : Scope}

theorem varOf_ends {Q : World → Prop} {w : World} (hw : Q w) (args : List Value)
    (hargs : κ.current = id ∨ Use.Neutral κ.current w (.special .varOf args)) :
    Ends κ Q (Evaluation.varOf args w) (Evaluation.varOf args (w.seen κ)) := by
  have hsymbol : ∀ s : Symbol, (w.seen κ).lookupVar? s = w.lookupVar? s →
      Ends κ Q (Evaluation.varOf [.symbol s] w) (Evaluation.varOf [.symbol s] (w.seen κ)) := by
    intro s hs
    rw [Evaluation.varOf, run_bind_ok (run_get w), run_bind_ok (run_get (w.seen κ)), hs]
    refine Paired.ends ?_ hw
    split
    · exact .pure _
    · exact .fail _
  unfold Evaluation.varOf
  split
  · rename_i s
    refine hsymbol s ?_
    rcases hargs with hκ | hs
    · rw [World.lookupVar?, World.lookupVar?, seen_current hκ]
      rfl
    · exact hs
  · exact .error hw
  · exact .error hw

/-! Frames. -/

/-- A frame that may be changed, as long as its parent stays. -/
def Owned (Q : World → Prop) (id : FrameId) : Prop :=
  ∀ w (f : Frame → Frame), (∀ g, (f g).parent = g.parent) → Q w →
    Q { w with frames := w.frames.modify id f }

namespace Owned
variable {Q : World → Prop} {id : FrameId}

theorem push (h : Owned Q id) (s : Symbol) (v : Value) :
    Paired κ Q (Eval.push id s v) (Eval.push id s v) :=
  .modify (fun w => h w _ fun _ => rfl) fun _ => rfl

theorem rebind (h : Owned Q id) (values : List Value) :
    Paired κ Q (Eval.rebind id values) (Eval.rebind id values) :=
  .modify (fun w => h w _ fun _ => rfl) fun _ => rfl

end Owned

namespace Coupling
variable {α : Type} {f f' : FrameId → Eval α}

theorem newFrame_ends (h : Coupling P fits) {w : World} (hw : P base w) {parent : Scope}
    (hparent : fits w parent)
    (hf : ∀ inner frame, fits inner (some frame) → Owned (P inner) frame →
      Paired κ (P inner) (f frame) (f' frame)) :
    Ends κ (P base) ((Eval.newFrame parent >>= f) w)
      ((Eval.newFrame parent >>= f') (w.seen κ)) := by
  obtain ⟨inner, hstart, hfits, hback, howned⟩ := h.frame base w parent hw hparent
  exact (hf inner w.frames.size hfits howned _ hstart).weaken hback

theorem newFrame_bind (h : Coupling P fits) {parent : Scope} (hparent : fits base parent)
    (hf : ∀ inner frame, fits inner (some frame) → Owned (P inner) frame →
      Paired κ (P inner) (f frame) (f' frame)) :
    Paired κ (P base) (Eval.newFrame parent >>= f) (Eval.newFrame parent >>= f') :=
  fun w hw => h.newFrame_ends hw (h.fits_later base w parent hw hparent) hf

theorem boundFrame_ends (h : Coupling P fits) {w : World} (hw : P base w) {parent : Scope}
    (hparent : fits w parent) (bindings : List (Symbol × Value))
    (hf : ∀ inner frame, fits inner (some frame) → Owned (P inner) frame →
      Paired κ (P inner) (f frame) (f' frame)) :
    Ends κ (P base) ((Evaluation.boundFrame parent bindings >>= f) w)
      ((Evaluation.boundFrame parent bindings >>= f') (w.seen κ)) := by
  simp only [Evaluation.boundFrame, bind_assoc, pure_bind]
  refine h.newFrame_ends hw hparent fun inner frame hframe howned => ?_
  exact .bind (.forM fun b => howned.push b.1 b.2) fun _ => hf inner frame hframe howned

/-- The parameters of a call go over a frame of their own for the name, if the closure has one. -/
theorem callFrame_ends (h : Coupling P fits) {w : World} (hw : P base w) {c : Closure}
    (hscope : fits w c.scope) (self : Value) (bindings : List (Symbol × Value))
    (hf : ∀ inner frame, fits inner (some frame) → Owned (P inner) frame →
      Paired κ (P inner) (f frame) (f' frame)) :
    Ends κ (P base) ((Evaluation.callFrame c self bindings >>= f) w)
      ((Evaluation.callFrame c self bindings >>= f') (w.seen κ)) := by
  rw [Evaluation.callFrame_eq]
  cases c.name with
  | none => exact h.boundFrame_ends hw hscope bindings hf
  | some name =>
    dsimp only
    rw [bind_assoc, bind_assoc]
    refine h.boundFrame_ends hw hscope _ fun inner outer houter _ => ?_
    exact fun v hv => h.boundFrame_ends hv (h.fits_later inner v _ hv houter) bindings hf

theorem noteDefinition (h : Coupling P fits) (id : VarId) :
    Paired κ (P base) (Evaluation.noteDefinition id) (Evaluation.noteDefinition id) := by
  refine .get_bind_at fun w hw => ?_
  exact h.note_ends hw
    (.defined (w.symbolText (w.varName id)) ((w.spaces.var? id).any Var.isBound))

end Coupling

namespace Engine.Paired

theorem body (h : e.Paired κ P fits e') (hscope : fits base scope) (forms : List Value) :
    LazyLisp.Paired κ (P base) (Evaluation.body e scope forms) (Evaluation.body e' scope forms) := by
  fun_induction Evaluation.body e scope forms with
  | case1 => exact .pure _
  | case2 last => exact h.evaluate hscope last
  | case3 form rest hrest ih =>
    rw [Evaluation.body.eq_3 e' scope form rest hrest]
    exact .bind (h.value hscope form) fun _ => ih

theorem rounds (h : e.Paired κ P fits e') {frame : FrameId} (hframe : fits base (some frame))
    (howned : Owned (P base) frame) (expected : Nat) (forms : List Value) {n n' : Nat}
    (hn : n ≤ n') :
    LazyLisp.Paired κ (P base) (Evaluation.rounds e frame expected forms n)
      (Evaluation.rounds e' frame expected forms n') := by
  induction n generalizing n' with
  | zero => exact .exhausted
  | succ n ih =>
    obtain ⟨n', rfl⟩ := Nat.exists_eq_add_of_le' (Nat.le_trans (Nat.succ_pos n) hn)
    refine .bind (h.body hframe forms) fun o => ?_
    cases o with
    | value v => exact .pure v
    | again values =>
      dsimp only
      exact .guard (.bind (howned.rebind values) fun _ => ih (Nat.le_of_succ_le_succ hn))

theorem invoke (h : e.Paired κ P fits e') (id : ClosureId) (self : Value) (args : List Value) :
    LazyLisp.Paired κ (P base) (Evaluation.invoke e id self args)
      (Evaluation.invoke e' id self args) := by
  refine .get_bind_at fun w hw => ?_
  have hclosures : (w.seen κ).closures = w.closures := rfl
  rw [hclosures]
  cases hc : w.closures[id]? with
  | none => exact .ok hw
  | some c =>
    cases hclause : c.select? args.length with
    | none =>
      simp only [hclause]
      exact .error hw
    | some clause =>
      simp only [hclause]
      refine h.coupling.callFrame_ends hw (h.coupling.closure base w id c hw hc) self _ ?_
      intro inner frame hframe howned
      exact h.rounds hframe howned _ _ h.bound

theorem expand (h : e.Paired κ P fits e') (hκ : κ.Faithful) (id : ClosureId) (forms : List Value) :
    LazyLisp.Paired κ (P base) (Evaluation.expand e id forms) (Evaluation.expand e' id forms) := by
  refine .bind (h.invoke _ _ _) fun expansion => .get_bind fun w _ => ?_
  rw [seen_log hκ]
  dsimp only
  split
  · refine .bind (h.textOrType expansion) fun _ => ?_
    exact .bind (h.coupling.note hκ _) fun _ => .pure _
  · exact .pure _

/-! Special forms. -/

theorem bindAll (h : e.Paired κ P fits e') {frame : FrameId} (hframe : fits base (some frame))
    (howned : Owned (P base) frame) (bindings : List (Symbol × Value)) :
    LazyLisp.Paired κ (P base) (Evaluation.bindAll e frame bindings)
      (Evaluation.bindAll e' frame bindings) := by
  induction bindings with
  | nil => exact .pure _
  | cons b rest ih =>
    refine .bind (h.value hframe b.2) fun v => ?_
    exact .bind (howned.push b.1 v) fun _ => ih

theorem choose (h : e.Paired κ P fits e') (hscope : fits base scope) (args : List Value) :
    LazyLisp.Paired κ (P base) (Evaluation.choose e scope args)
      (Evaluation.choose e' scope args) := by
  unfold Evaluation.choose
  split
  · refine .bind (h.value hscope _) fun v => ?_
    split
    · exact h.evaluate hscope _
    · exact .pure _
  · refine .bind (h.value hscope _) fun v => ?_
    split
    · exact h.evaluate hscope _
    · exact h.evaluate hscope _
  · exact .fail _

theorem define (h : e.Paired κ P fits e') (hκ : κ.current = id) (hdefining : Defining P)
    (hscope : fits base scope) (args : List Value) :
    LazyLisp.Paired κ (P base) (Evaluation.define e scope args)
      (Evaluation.define e' scope args) := by
  unfold Evaluation.define
  split
  · refine .bind (paired_definitionTarget hκ _ _) fun name => ?_
    refine .bind (hdefining.pairedDeclare hκ name) fun id => ?_
    exact .bind (h.coupling.noteDefinition id) fun _ => .pure _
  · refine .bind (paired_definitionTarget hκ _ _) fun name => ?_
    refine .bind (h.value hscope _) fun v => ?_
    refine .bind (hdefining.pairedDefine hκ name v) fun id => ?_
    exact .bind (h.coupling.noteDefinition id) fun _ => .pure _
  · exact .fail _

theorem letIn (h : e.Paired κ P fits e') (hscope : fits base scope) (args : List Value) :
    LazyLisp.Paired κ (P base) (Evaluation.letIn e scope args) (Evaluation.letIn e' scope args) := by
  refine .bind (paired_bindingPairs _ _) fun bindings => ?_
  refine h.coupling.newFrame_bind hscope fun inner frame hframe howned => ?_
  exact .bind (h.bindAll hframe howned bindings) fun _ => h.body hframe _

theorem looping (h : e.Paired κ P fits e') (hscope : fits base scope) (args : List Value) :
    LazyLisp.Paired κ (P base) (Evaluation.looping e scope args)
      (Evaluation.looping e' scope args) := by
  refine .bind (paired_bindingPairs _ _) fun bindings => ?_
  refine h.coupling.newFrame_bind hscope fun inner frame hframe howned => ?_
  refine .bind (h.bindAll hframe howned bindings) fun _ => ?_
  exact .bind (h.rounds hframe howned _ _ h.bound) fun _ => .pure _

theorem parseClauses (h : e.Paired κ P fits e') (label : String) (forms : List Value) :
    LazyLisp.Paired κ (P base) (Evaluation.parseClauses e label forms)
      (Evaluation.parseClauses e' label forms) := by
  unfold Evaluation.parseClauses
  split
  · exact .fail _
  · exact .bind (paired_parseClause _ _ _) fun _ => .pure _
  · refine .mapM fun form => ?_
    split
    · refine .bind (h.toList _) fun items => ?_
      split
      · exact paired_parseClause _ _ _
      · exact .fail _
    · exact .fail _

theorem makeClosure (h : e.Paired κ P fits e') (hscope : fits base scope) (name : Option Symbol)
    (label : String) (forms : List Value) :
    LazyLisp.Paired κ (P base) (Evaluation.makeClosure e scope name label forms)
      (Evaluation.makeClosure e' scope name label forms) := by
  refine .bind (h.parseClauses label forms) fun clauses => ?_
  split
  · rename_i c hc
    refine .modifyGet (fun w hw => ?_) fun _ => rfl
    exact h.coupling.newClosure base w _ _ _ _ c hw (h.coupling.fits_later base w _ hw hscope) hc
  · exact .fail _

theorem lambda (h : e.Paired κ P fits e') (hscope : fits base scope) (args : List Value) :
    LazyLisp.Paired κ (P base) (Evaluation.lambda e scope args)
      (Evaluation.lambda e' scope args) := by
  unfold Evaluation.lambda
  split
  · exact .get_bind fun _ _ => .bind (h.makeClosure hscope _ _ _) fun _ => .pure _
  · exact .bind (h.makeClosure hscope _ _ _) fun _ => .pure _

theorem defineMacro (h : e.Paired κ P fits e') (hκ : κ.current = id) (hdefining : Defining P)
    (hscope : fits base scope) (args : List Value) :
    LazyLisp.Paired κ (P base) (Evaluation.defineMacro e scope args)
      (Evaluation.defineMacro e' scope args) := by
  unfold Evaluation.defineMacro
  split
  · exact .fail _
  · refine .bind (paired_definitionTarget hκ _ _) fun name => .get_bind fun _ _ => ?_
    refine .bind (h.makeClosure hscope _ _ _) fun id => ?_
    exact .bind (hdefining.pairedDefine hκ _ _) fun _ => .pure _

theorem recur (h : e.Paired κ P fits e') (hscope : fits base scope) (args : List Value) :
    LazyLisp.Paired κ (P base) (Evaluation.recur e scope args) (Evaluation.recur e' scope args) :=
  .bind (.mapM fun form => h.value hscope form) fun _ => .pure _

theorem applyForm (h : e.Paired κ P fits e') (hscope : fits base scope) (args : List Value) :
    LazyLisp.Paired κ (P base) (Evaluation.apply e scope args) (Evaluation.apply e' scope args) := by
  unfold Evaluation.apply
  split
  · refine .bind (h.value hscope _) fun f => ?_
    refine .bind (.mapM fun form => h.value hscope form) fun leading => ?_
    refine .bind (h.value hscope _) fun spread => ?_
    split
    · exact .fail _
    · exact .bind (h.toList _) fun _ => h.call base _ hscope
  · exact .fail _

theorem attempt (h : e.Paired κ P fits e') (hscope : fits base scope) (failure : EvalError)
    (forms : List Value) :
    LazyLisp.Paired κ (P base) (Evaluation.attempt e scope failure forms)
      (Evaluation.attempt e' scope failure forms) := by
  induction forms generalizing failure with
  | nil => exact .fail failure
  | cons form rest ih =>
    intro w hw
    have hends := h.evaluate hscope form w hw
    rw [Evaluation.attempt, Evaluation.attempt]
    dsimp only
    generalize e.evaluate scope form w = r, e'.evaluate scope form (w.seen κ) = r' at hends ⊢
    cases hends with
    | @ok o v hv =>
      cases o with
      | value a => exact .ok hv
      | again values => exact ih _ v hv
    | @error err v hv => exact ih err v hv
    | exhausted hv => exact .exhausted hv

theorem special_ends (h : e.Paired κ P fits e') (hscope : fits base scope) {w : World} (hw : P base w)
    (f : SpecialForm) (args : List Value) (huse : Use.Safe κ.current P w (.special f args)) :
    Ends κ (P base) (Evaluation.special e scope f args w)
      (Evaluation.special e' scope f args (w.seen κ)) := by
  cases f with
  | quote => exact paired_quote args w hw
  | ifElse => exact h.choose hscope args w hw
  | block => exact h.body hscope args w hw
  | letIn => exact h.letIn hscope args w hw
  | varOf => exact varOf_ends hw args (huse.imp And.left fun hneutral => hneutral)
  | lambda => exact h.lambda hscope args w hw
  | looping => exact h.looping hscope args w hw
  | recur => exact h.recur hscope args w hw
  | apply => exact h.applyForm hscope args w hw
  | attempt => exact h.attempt hscope _ args w hw
  | define =>
    rcases huse with ⟨hκ, hdefining⟩ | hneutral
    · exact h.define hκ hdefining hscope args w hw
    · exact hneutral.elim
  | defineMacro =>
    rcases huse with ⟨hκ, hdefining⟩ | hneutral
    · exact h.defineMacro hκ hdefining hscope args w hw
    · exact hneutral.elim

/-! Application and the other forms. -/

theorem evaluateEntries (h : e.Paired κ P fits e') (hscope : fits base scope)
    (done entries : Entries) :
    LazyLisp.Paired κ (P base) (Evaluation.evaluateEntries e scope done entries)
      (Evaluation.evaluateEntries e' scope done entries) := by
  induction entries generalizing done with
  | nil => exact .pure _
  | cons f rest ih =>
    refine .bind (h.value hscope f.1) fun k => .bind (h.value hscope f.2) fun v => ?_
    exact .bind (h.put done k v) fun done => ih done

theorem applyValue_ends (h : e.Paired κ P fits e') (hscope : fits base scope) {w : World}
    (hw : P base w) (callee : Value) (args : List Value)
    (huse : Use.Safe κ.current P w (.call callee))
    (hexpand : κ.Faithful ∨ ∀ id, callee ≠ .transformer id) :
    Ends κ (P base) (Evaluation.applyValue e scope callee args w)
      (Evaluation.applyValue e' scope callee args (w.seen κ)) := by
  refine LazyLisp.Paired.ends ?_ hw
  unfold Evaluation.applyValue
  split
  · exact .bind (h.builtin hscope _ huse _) fun _ => .pure _
  · exact .bind (h.invoke _ _ _) fun _ => .pure _
  · rcases hexpand with hκ | hnot
    · exact .bind (h.expand hκ _ _) fun _ => h.evaluate hscope _
    · exact absurd rfl (hnot _)
  · split
    · split
      · exact .pure _
      · exact .fail _
    · exact .fail _
    · exact .fail _
  · refine .bind (paired_lookupArgs _ _) fun p => ?_
    exact .bind (h.get? _ _) fun _ => .pure _
  · refine .bind (paired_lookupArgs _ _) fun p => ?_
    dsimp only
    split
    · exact .bind (h.get? _ _) fun _ => .pure _
    · exact .pure _
  · refine .bind (paired_lookupArgs _ _) fun p => ?_
    dsimp only
    split
    · exact .bind (h.get? _ _) fun _ => .pure _
    · exact .pure _
  · exact .bind (h.textOrType _) fun _ => .fail _

/-- Forms that are no symbols and no lists. -/
theorem evaluateOther (h : e.Paired κ P fits e') (hscope : fits base scope) {form : Value}
    (hsymbol : ∀ s, form ≠ .symbol s) (hlist : ∀ s, form ≠ .seq s) (asHead : Bool) :
    LazyLisp.Paired κ (P base) (Evaluation.evaluateForm e scope form asHead)
      (Evaluation.evaluateForm e' scope form asHead) := by
  cases form with
  | symbol s => exact absurd rfl (hsymbol s)
  | seq s => exact absurd rfl (hlist s)
  | transformer id =>
    unfold Evaluation.evaluateForm
    dsimp only
    split
    · exact .pure _
    · exact paired_macroAsValue _
  | special f => exact .fail _
  | marked m form => exact .fail _
  | vector items => exact .bind (.mapM fun form => h.value hscope form) fun _ => .pure _
  | map entries => exact .bind (h.evaluateEntries hscope _ _) fun _ => .pure _
  | _ => exact .pure _

end Engine.Paired

/-- Every use that the watch allows is safe. -/
def Watch.Guards (watch : Watch) (κ : NameId → NameId) (P : World → World → Prop) : Prop :=
  ∀ base w use, P base w → watch w use = true → use.Safe κ P w

/-- Every use that the watch allows is safe, and the watch over the second run allows it too. -/
def Watch.Admits (watch other : Watch) (κ : View) (P : World → World → Prop) : Prop :=
  ∀ base w use, P base w → watch w use = true →
    use.Safe κ.current P w ∧ other (w.seen κ) use = true

theorem Watch.Guards.admits {watch : Watch} (h : watch.Guards κ.current P) :
    watch.Admits .all κ P :=
  fun base w use hw hallowed => ⟨h base w use hw hallowed, rfl⟩

theorem Watch.permit_paired {watch other : Watch} {use : Use} {α : Type} {m m' : Eval α}
    (hwatch : watch.Admits other κ P)
    (hm : ∀ w, P base w → use.Safe κ.current P w → Ends κ (P base) (m w) (m' (w.seen κ))) :
    Paired κ (P base) (watch.permit use m) (other.permit use m') := by
  intro w hw
  rw [Watch.permit, Watch.permit, run_bind_ok (run_get w), run_bind_ok (run_get (w.seen κ))]
  split
  · rename_i hallowed
    obtain ⟨hsafe, hother⟩ := hwatch base w use hw hallowed
    rw [if_pos hother]
    exact hm w hw hsafe
  · exact .exhausted hw

namespace Engine.Paired
variable {watch other : Watch}

theorem evaluateCall (h : e.Paired κ P fits e') (hκ : κ.Faithful)
    (hwatch : watch.Admits other κ P) (hscope : fits base scope)
    (head : Value) (tail : Seq) :
    LazyLisp.Paired κ (P base) (watch.evaluateCall e scope head tail)
      (other.evaluateCall e' scope head tail) := by
  unfold Watch.evaluateCall
  split
  · refine .bind (h.toList tail) fun args => ?_
    exact Watch.permit_paired hwatch fun w hw huse => h.special_ends hscope hw _ args huse
  · refine .bind (h.call base _ hscope) fun o => .bind o.paired_toValue fun callee => ?_
    split
    · refine .bind (h.toList tail) fun forms => ?_
      exact .bind (h.expand hκ _ forms) fun _ => h.evaluate hscope _
    · refine .bind (h.fold (fun _ form => ?_) tail _) fun args => ?_
      · exact .bind (h.value hscope form) fun _ => .pure _
      · exact Watch.permit_paired hwatch fun w hw huse => h.applyValue_ends hscope hw _ _ huse (.inl hκ)

theorem evaluateList (h : e.Paired κ P fits e') (hκ : κ.Faithful)
    (hwatch : watch.Admits other κ P) (hscope : fits base scope)
    (s : Seq) :
    LazyLisp.Paired κ (P base) (watch.evaluateList e scope s)
      (other.evaluateList e' scope s) := by
  refine .bind (h.uncons s) fun o => ?_
  cases o with
  | none => exact .pure _
  | some p =>
    refine .get_bind fun w _ => ?_
    rw [seen_log hκ]
    dsimp only
    split
    · refine .bind (h.textOrType _) fun _ => .bind (h.coupling.note hκ _) fun _ => ?_
      exact h.evaluateCall hκ hwatch hscope p.1 p.2
    · exact h.evaluateCall hκ hwatch hscope p.1 p.2

theorem evaluateForm (h : e.Paired κ P fits e') (hκ : κ.Faithful)
    (hwatch : watch.Admits other κ P) (hscope : fits base scope)
    (form : Value) (asHead : Bool) :
    LazyLisp.Paired κ (P base) (watch.evaluateForm e scope form asHead)
      (other.evaluateForm e' scope form asHead) := by
  by_cases hsymbol : ∃ s, form = .symbol s
  · obtain ⟨s, rfl⟩ := hsymbol
    refine Watch.permit_paired hwatch fun w hw huse => evaluateSymbol_ends hw ?_ asHead
    rcases huse with ⟨hcurrent, -⟩ | hneutral
    · exact resolve?_seen hcurrent w scope s
    · exact hneutral
  by_cases hlist : ∃ s, form = .seq s
  · obtain ⟨s, rfl⟩ := hlist
    exact h.evaluateList hκ hwatch hscope s
  · have hsymbol : ∀ s, form ≠ .symbol s := fun s hs => hsymbol ⟨s, hs⟩
    have hlist : ∀ s, form ≠ .seq s := fun s hs => hlist ⟨s, hs⟩
    rw [Watch.evaluateForm_other hsymbol hlist, Watch.evaluateForm_other hsymbol hlist]
    exact h.evaluateOther hscope hsymbol hlist asHead

theorem step (h : e.Paired κ P fits e') (hκ : κ.Faithful) (hwatch : watch.Admits other κ P)
    (r : Request) (hscope : fits base r.scope) :
    LazyLisp.Paired κ (P base) (watch.step e r) (other.step e' r) := by
  cases r with
  | evaluate scope form asHead => exact h.evaluateForm hκ hwatch hscope form asHead
  | apply scope callee args =>
    refine Watch.permit_paired hwatch fun w hw huse => ?_
    exact h.applyValue_ends hscope hw callee args huse (.inl hκ)

end Engine.Paired

/-- Runs under two watches are paired if the second has no smaller budget. -/
theorem Coupling.watchedRuns (h : Coupling P fits) (hκ : κ.Faithful) {watch other : Watch}
    (hwatch : watch.Admits other κ P) {n n' : Nat} (hn : n ≤ n') (r : Request)
    (hscope : fits base r.scope) :
    Paired κ (P base) (watch.run n r) (other.run n' r) := by
  induction n generalizing n' base r with
  | zero => exact .exhausted
  | succ n ih =>
    obtain ⟨n', rfl⟩ := Nat.exists_eq_add_of_le' (Nat.le_trans (Nat.succ_pos n) hn)
    have hn : n ≤ n' := Nat.le_of_succ_le_succ hn
    have hpaired : Engine.Paired κ P fits ⟨watch.run n, n⟩ ⟨other.run n', n'⟩ :=
      ⟨h, hn, fun _ r hscope => ih hn r hscope⟩
    exact hpaired.step hκ hwatch r hscope

/-- A watched run is paired with every plain run with no smaller budget. -/
theorem Coupling.pairedRun (h : Coupling P fits) (hκ : κ.Faithful) {watch : Watch}
    (hwatch : watch.Guards κ.current P) {n n' : Nat} (hn : n ≤ n') (r : Request)
    (hscope : fits base r.scope) :
    Paired κ (P base) (watch.run n r) (Evaluation.run n' r) := by
  rw [← Watch.all_run n' r]
  exact h.watchedRuns hκ hwatch.admits hn r hscope

theorem Coupling.watchedRun {κ : NameId → NameId} (h : Coupling P fits) {watch : Watch}
    (hwatch : watch.Guards κ P) {n n' : Nat} (hn : n ≤ n') (r : Request)
    (hscope : fits base r.scope) : Tied κ (P base) (watch.run n r) (Evaluation.run n' r) :=
  h.pairedRun (View.ofCurrent_faithful κ) hwatch hn r hscope

end

/-! Runs that both have the same current namespace. -/

section
variable {P : World → World → Prop} {fits : World → Scope → Prop} {base : World}

theorem Coupling.run (h : Coupling P fits) (hdefining : Defining P) {n n' : Nat} (hn : n ≤ n')
    (r : Request) (hscope : fits base r.scope) :
    Tied id (P base) (Evaluation.run n r) (Evaluation.run n' r) := by
  rw [← Watch.all_run n r]
  exact h.watchedRun (fun _ _ _ _ _ => .inl ⟨rfl, hdefining⟩) hn r hscope

theorem Coupling.tied (h : Coupling P fits) (hdefining : Defining P) {n n' : Nat} (hn : n ≤ n') :
    (Engine.ofBudget n).Tied id P fits (Engine.ofBudget n') :=
  ⟨h, hn, fun _ r hscope => h.run hdefining hn r hscope⟩

end

/-- A relation to an earlier state that every operation keeps, whatever the scopes. -/
structure Invariant (P : World → World → Prop) : Prop
    extends Coupling P (fun _ _ => True), Defining P

/-- An engine that keeps such a relation whatever it is asked for. -/
def Engine.Keeps (P : World → World → Prop) (e : Engine) : Prop := e.Tied id P (fun _ _ => True) e

section
variable {P : World → World → Prop} {base : World} {e : Engine}

namespace Engine.Keeps

theorem value (h : e.Keeps P) (scope : Scope) (form : Value) :
    Preserves (P base) (e.value scope form) :=
  (Engine.Paired.value h trivial form).preserves

theorem body (h : e.Keeps P) (scope : Scope) (forms : List Value) :
    Preserves (P base) (Evaluation.body e scope forms) :=
  (Engine.Paired.body h trivial forms).preserves

theorem invoke (h : e.Keeps P) (id : ClosureId) (self : Value) (args : List Value) :
    Preserves (P base) (Evaluation.invoke e id self args) :=
  (Engine.Paired.invoke h id self args).preserves

end Engine.Keeps

/-- What the operations that change the state keep, a run keeps, whatever its budget. -/
theorem Invariant.run (h : Invariant P) (n : Nat) (r : Request) :
    Preserves (P base) (Evaluation.run n r) :=
  (h.toCoupling.run h.toDefining (Nat.le_refl n) r trivial).preserves

theorem Invariant.keeps (h : Invariant P) (n : Nat) : (Engine.ofBudget n).Keeps P :=
  h.toCoupling.tied h.toDefining (Nat.le_refl n)

end

/-- No relation at all, for what is said about runs alone. -/
inductive Unrelated (base w : World) : Prop
  | intro

theorem unrelated_invariant : Invariant Unrelated where
  fits_none _ := trivial
  fits_later _ _ _ _ _ := trivial
  closure _ _ _ _ _ _ := trivial
  names _ _ _ _ := .intro
  output _ _ _ _ := .intro
  events _ _ _ _ := .intro
  frame base _ _ _ _ := ⟨base, .intro, trivial, fun _ _ => .intro, fun _ _ _ _ => .intro⟩
  newClosure _ _ _ _ _ _ _ _ _ _ := .intro
  newLazy _ _ := fun _ _ => .intro
  realize base _ _ _ _ _ :=
    ⟨base, .intro, fun _ _ _ => ⟨.intro, fun _ _ => .intro, fun _ _ => .intro⟩⟩
  toDefining := .of_spaces (fun _ _ _ _ => .intro) fun _ _ _ _ => .intro

/-- What gives a value, its tied counterpart gives too. -/
theorem Unrelated.run_ok {α : Type} {m m' : Eval α} {w v : World} {a : α}
    (hm : Tied id (Unrelated w) m m') (h : m w = .ok a v) : m' w = .ok a v := by
  have hended : Ended (m w) := h ▸ .ok a v
  exact (hm.run_eq (.intro : Unrelated w w) hended).trans h

theorem Engine.tied_self (e : Engine) : e.Tied id Unrelated (fun _ _ => True) e :=
  ⟨unrelated_invariant.toCoupling, Nat.le_refl _, fun _ _ _ => Preserves.tied fun _ _ => .intro⟩

/-- A larger budget changes nothing about what ends within a smaller one. -/
theorem Engine.ofBudget_tied {n m : Nat} (h : n ≤ m) :
    (Engine.ofBudget n).Tied id Unrelated (fun _ _ => True) (Engine.ofBudget m) :=
  unrelated_invariant.toCoupling.tied unrelated_invariant.toDefining h

end LazyLisp
