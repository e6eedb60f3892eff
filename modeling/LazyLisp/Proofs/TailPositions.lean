import Mathlib.Logic.Relation
import LazyLisp.Interpreter
import LazyLisp.Proofs.Signals

/-!
Where requests for another round come from. If evaluation of a form ends in one, then it came to a
`recur` form in tail position, which is the form itself, a branch of `if`, or the last form of `do`
or `let`, one inside the other; or it expanded a macro in tail position. So calls of functions,
loops, attempts, vectors and maps never end in one, and neither does evaluation at the top level.
-/

namespace LazyLisp
set_option autoImplicit false

open Evaluation Relation

/-- A form that is evaluated in a scope, from a state and within a budget. -/
structure Point where
  budget : Nat
  scope : Scope
  form : Value
  world : World

def Point.outcome (p : Point) : EStateM.Result Stop World Outcome :=
  (Engine.ofBudget p.budget).evaluate p.scope p.form p.world

/-- Evaluation of a form hands over to a form in tail position. -/
inductive TailStep : Point → Point → Prop
  | thenBranch {n : Nat} {scope : Scope} {s : Seq} {w u v : World} {test thenForm t : Value}
      {rest : List Value} :
    Enters (.ofBudget n) s w .ifElse (test :: thenForm :: rest) u → rest.length ≤ 1 →
    (Engine.ofBudget n).value scope test u = .ok t v → t.isTruthy = true →
    TailStep ⟨n + 1, scope, .seq s, w⟩ ⟨n, scope, thenForm, v⟩
  | elseBranch {n : Nat} {scope : Scope} {s : Seq} {w u v : World} {test thenForm elseForm t : Value} :
    Enters (.ofBudget n) s w .ifElse [test, thenForm, elseForm] u →
    (Engine.ofBudget n).value scope test u = .ok t v → t.isTruthy = false →
    TailStep ⟨n + 1, scope, .seq s, w⟩ ⟨n, scope, elseForm, v⟩
  | lastOfBlock {n : Nat} {scope : Scope} {s : Seq} {w u v : World} {before values : List Value}
      {last : Value} :
    Enters (.ofBudget n) s w .block (before ++ [last]) u →
    before.mapM ((Engine.ofBudget n).value scope) u = .ok values v →
    TailStep ⟨n + 1, scope, .seq s, w⟩ ⟨n, scope, last, v⟩
  | lastOfLet {n : Nat} {scope : Scope} {s : Seq} {w u u' v v' v'' : World} {target : Value}
      {bindings : List (Symbol × Value)} {frame : FrameId} {before values : List Value}
      {last : Value} :
    Enters (.ofBudget n) s w .letIn (target :: (before ++ [last])) u →
    bindingPairs "let" (some target) u = .ok bindings u' → Eval.newFrame scope u' = .ok frame v →
    bindAll (.ofBudget n) frame bindings v = .ok () v' →
    before.mapM ((Engine.ofBudget n).value (some frame)) v' = .ok values v'' →
    TailStep ⟨n + 1, scope, .seq s, w⟩ ⟨n, some frame, last, v''⟩

/-- The form is `recur`, whose arguments have these values, from left to right. -/
inductive Point.Recurs (values : List Value) (u : World) : Point → Prop
  | intro {n : Nat} {scope : Scope} {s : Seq} {w v : World} {args : List Value} :
    Enters (.ofBudget n) s w .recur args v →
    args.mapM ((Engine.ofBudget n).value scope) v = .ok values u →
    Recurs values u ⟨n + 1, scope, .seq s, w⟩

/-- The head of the list denotes a macro, or `apply` is given one. -/
inductive Point.Expands : Point → Prop
  | head {n : Nat} {scope : Scope} {s tail : Seq} {w u v : World} {head : Value} {id : ClosureId} :
    Opened (.ofBudget n) s w head tail u →
    (Engine.ofBudget n).call (.evaluate scope head true) u = .ok (.value (.transformer id)) v →
    Expands ⟨n + 1, scope, .seq s, w⟩
  | apply {n : Nat} {scope : Scope} {s : Seq} {w u v : World} {f : Value} {forms : List Value}
      {id : ClosureId} :
    Enters (.ofBudget n) s w .apply (f :: forms) u →
    (Engine.ofBudget n).value scope f u = .ok (.transformer id) v →
    Expands ⟨n + 1, scope, .seq s, w⟩

theorem outcome_list (n : Nat) (scope : Scope) (s : Seq) (w : World) :
    Point.outcome ⟨n + 1, scope, .seq s, w⟩ = evaluateList (.ofBudget n) scope s w :=
  rfl

section
variable {e : Engine} {scope : Scope} {w u : World} {values : List Value}

theorem body_last {before vs : List Value} {last : Value} {v : World}
    (h : before.mapM (e.value scope) w = .ok vs v) :
    body e scope (before ++ [last]) w = e.evaluate scope last v := by
  rw [body_append (List.cons_ne_nil _ _), run_bind_ok h, body]

/-- Handing over changes nothing about the end. -/
theorem TailStep.outcome {p q : Point} (h : TailStep p q) : p.outcome = q.outcome := by
  cases h with
  | @thenBranch n scope s w u v test thenForm t rest henters hrest htest ht =>
    rw [outcome_list, henters.run_eq]
    show choose _ _ _ _ = _
    rcases length_le_one_cases hrest with rfl | ⟨elseForm, rfl⟩
    · rw [choose, run_bind_ok htest, if_pos ht]
      rfl
    · rw [choose, run_bind_ok htest, if_pos ht]
      rfl
  | @elseBranch n scope s w u v test thenForm elseForm t henters htest ht =>
    rw [outcome_list, henters.run_eq]
    show choose (.ofBudget n) scope [test, thenForm, elseForm] u = _
    rw [choose, run_bind_ok htest, if_neg (ht ▸ Bool.false_ne_true)]
    rfl
  | lastOfBlock henters hbefore =>
    rw [outcome_list, henters.run_eq]
    exact body_last hbefore
  | lastOfLet henters hpairs hframe hbound hbefore =>
    rw [outcome_list, henters.run_eq]
    show letIn _ _ _ _ = _
    rw [letIn, List.head?_cons, run_bind_ok hpairs, run_bind_ok hframe, run_bind_ok hbound]
    exact body_last hbefore

/-! What never ends in such a request. -/

/-- The computation gives nothing but values. -/
abbrev GivesValues (m : Eval Outcome) : Prop := Gives m fun o => ∃ v, o = .value v

theorem GivesValues.ne_again {m : Eval Outcome} (h : GivesValues m) :
    m w ≠ .ok (.again values) u := by
  intro hrun
  obtain ⟨v, hv⟩ := h w _ u hrun
  cases hv

theorem gives_value {α : Type} (m : Eval α) (f : α → Value) :
    GivesValues (do return .value (f (← m))) :=
  .bind (.any m) fun _ _ => .pure ⟨_, rfl⟩

theorem applyValue_gives {callee : Value} (hordinary : ∀ id, callee ≠ .transformer id)
    (args : List Value) : GivesValues (applyValue e scope callee args) := by
  cases callee with
  | builtin b => exact gives_value _ _
  | function id => exact gives_value _ _
  | transformer id => exact absurd rfl (hordinary id)
  | vector items =>
    unfold applyValue
    dsimp only
    split
    · split
      · exact .pure ⟨_, rfl⟩
      · exact .throw
    · exact .throw
    · exact .throw
  | map entries => exact .bind (.any _) fun _ _ => gives_value _ _
  | keyword s | symbol s =>
    unfold applyValue
    refine .bind (.any _) fun p _ => ?_
    dsimp only
    split
    · exact gives_value _ _
    · exact .pure ⟨_, rfl⟩
  | _ => exact .bind (.any _) fun _ _ => .throw

theorem call_ne_again {n : Nat} {callee : Value} (hordinary : ∀ id, callee ≠ .transformer id)
    (args : List Value) :
    (Engine.ofBudget n).call (.apply scope callee args) w ≠ .ok (.again values) u := by
  cases n with
  | zero => nofun
  | succ n => exact (applyValue_gives hordinary args).ne_again

theorem attempt_gives (failure : EvalError) (forms : List Value) :
    GivesValues (attempt e scope failure forms) := by
  induction forms generalizing failure with
  | nil => exact .throw
  | cons form rest ih =>
    intro w o u h
    rw [attempt] at h
    dsimp only at h
    split at h
    · cases h
      exact ⟨_, rfl⟩
    · exact ih _ _ _ _ h
    · exact ih _ _ _ _ h
    · cases h

theorem looping_gives (args : List Value) : GivesValues (looping e scope args) := by
  rw [looping_eq]
  exact .bind (.any _) fun _ _ => gives_value _ _

theorem define_gives (args : List Value) : GivesValues (define e scope args) := by
  unfold define
  split
  · exact .bind (.any _) fun _ _ => .bind (.any _) fun _ _ => .bind (.any _) fun _ _ => .pure ⟨_, rfl⟩
  · exact .bind (.any _) fun _ _ => .bind (.any _) fun _ _ => .bind (.any _) fun _ _ =>
      .bind (.any _) fun _ _ => .pure ⟨_, rfl⟩
  · exact .throw

/-- The special forms that may end in what a part of them ends in; `recur` asks for a round. -/
def SpecialForm.handsOn : SpecialForm → Bool
  | ifElse | block | letIn | recur | apply => true
  | _ => false

theorem special_gives {f : SpecialForm} (hf : f.handsOn = false) (args : List Value) :
    GivesValues (special e scope f args) := by
  cases f with
  | quote =>
    show GivesValues (quote args)
    unfold quote
    split
    · exact .pure ⟨_, rfl⟩
    · exact .pure ⟨_, rfl⟩
    · exact .throw
  | define => exact define_gives args
  | varOf =>
    show GivesValues (varOf args)
    unfold varOf
    split
    · refine .bind (.any _) fun w _ => ?_
      split
      · exact .pure ⟨_, rfl⟩
      · exact .throw
    · exact .throw
    · exact .throw
  | lambda =>
    show GivesValues (lambda e scope args)
    unfold lambda
    split
    · exact .bind (.any _) fun _ _ => gives_value _ _
    · exact gives_value _ _
  | defineMacro =>
    show GivesValues (defineMacro e scope args)
    unfold defineMacro
    split
    · exact .throw
    · exact .bind (.any _) fun _ _ => .bind (.any _) fun _ _ => .bind (.any _) fun _ _ => gives_value _ _
  | looping => exact looping_gives args
  | attempt => exact attempt_gives _ args
  | ifElse | block | letIn | recur | apply => cases hf

/-- Forms that are no lists. -/
theorem evaluateForm_gives {form : Value} (hlist : ∀ s, form ≠ .seq s) (asHead : Bool) :
    GivesValues (evaluateForm e scope form asHead) := by
  cases form with
  | seq s => exact absurd rfl (hlist s)
  | symbol s =>
    show GivesValues (evaluateSymbol scope s asHead)
    unfold evaluateSymbol
    refine .bind (.any _) fun w _ => ?_
    split
    · exact .throw
    · split
      · exact .pure ⟨_, rfl⟩
      · exact .bind (.any _) fun _ _ => .throw
    · exact .pure ⟨_, rfl⟩
  | transformer id =>
    unfold evaluateForm
    dsimp only
    split
    · exact .pure ⟨_, rfl⟩
    · exact .bind (.any _) fun _ _ => .throw
  | special f => exact .throw
  | marked m form => exact .throw
  | vector items => exact gives_value _ _
  | map entries => exact gives_value _ _
  | _ => exact .pure ⟨_, rfl⟩

theorem evaluate_ne_again {n : Nat} {form : Value} (hlist : ∀ s, form ≠ .seq s) (asHead : Bool) :
    (Engine.ofBudget n).call (.evaluate scope form asHead) w ≠ .ok (.again values) u := by
  cases n with
  | zero => nofun
  | succ n => exact (evaluateForm_gives hlist asHead).ne_again

/-! Requests in tail position. -/

theorem body_eq_again {forms : List Value} (h : body e scope forms w = .ok (.again values) u) :
    ∃ before last vs v, forms = before ++ [last] ∧ before.mapM (e.value scope) w = .ok vs v ∧
      e.evaluate scope last v = .ok (.again values) u := by
  rcases List.eq_nil_or_concat forms with rfl | ⟨before, last, rfl⟩
  · cases h
  · rw [List.concat_eq_append, body_append (List.cons_ne_nil _ _)] at h
    obtain ⟨vs, v, hbefore, hlast⟩ := run_bind_eq_ok.1 h
    exact ⟨before, last, vs, v, List.concat_eq_append, hbefore, hlast⟩

theorem choose_eq_again {args : List Value} (h : choose e scope args w = .ok (.again values) u) :
    ∃ test thenForm rest t v, args = test :: thenForm :: rest ∧ rest.length ≤ 1 ∧
      e.value scope test w = .ok t v ∧
      (t.isTruthy = true ∨ t.isTruthy = false ∧ ∃ elseForm, rest = [elseForm]) := by
  unfold choose at h
  split at h
  · rename_i test thenForm
    obtain ⟨t, v, htest, hbranch⟩ := run_bind_eq_ok.1 h
    split at hbranch
    · rename_i ht
      exact ⟨test, thenForm, [], t, v, rfl, Nat.zero_le 1, htest, .inl ht⟩
    · cases hbranch
  · rename_i test thenForm elseForm
    obtain ⟨t, v, htest, -⟩ := run_bind_eq_ok.1 h
    cases ht : t.isTruthy with
    | true => exact ⟨test, thenForm, [elseForm], t, v, rfl, Nat.le_refl 1, htest, .inl ht⟩
    | false =>
      exact ⟨test, thenForm, [elseForm], t, v, rfl, Nat.le_refl 1, htest, .inr ⟨ht, elseForm, rfl⟩⟩
  · cases h

theorem apply_eq_again {n : Nat} {args : List Value}
    (h : apply (.ofBudget n) scope args w = .ok (.again values) u) :
    ∃ f forms id v, args = f :: forms ∧
      (Engine.ofBudget n).value scope f w = .ok (.transformer id) v := by
  unfold apply at h
  split at h
  · rename_i f first more
    obtain ⟨callee, v, hf, hrest⟩ := run_bind_eq_ok.1 h
    refine ⟨f, first :: more, ?_⟩
    by_cases hexpands : ∃ id, callee = .transformer id
    · obtain ⟨id, rfl⟩ := hexpands
      exact ⟨id, v, rfl, hf⟩
    · -- any other value gives a value when it is called
      have hordinary : ∀ id, callee ≠ .transformer id := fun id hid => hexpands ⟨id, hid⟩
      obtain ⟨leading, v₁, -, hrest⟩ := run_bind_eq_ok.1 hrest
      obtain ⟨spread, v₂, -, hrest⟩ := run_bind_eq_ok.1 hrest
      cases hseq : spread.toSeq? with
      | none =>
        rw [hseq] at hrest
        cases hrest
      | some s =>
        rw [hseq] at hrest
        obtain ⟨items, v₃, -, hcall⟩ := run_bind_eq_ok.1 hrest
        exact absurd hcall (call_ne_again hordinary _)
  · cases h

theorem letIn_eq_again {args : List Value} (h : letIn e scope args w = .ok (.again values) u) :
    ∃ target before last bindings frame vs w₁ w₂ w₃ v, args = target :: (before ++ [last]) ∧
      bindingPairs "let" (some target) w = .ok bindings w₁ ∧ Eval.newFrame scope w₁ = .ok frame w₂ ∧
      bindAll e frame bindings w₂ = .ok () w₃ ∧
      before.mapM (e.value (some frame)) w₃ = .ok vs v := by
  cases args with
  | nil => cases h
  | cons target forms =>
    obtain ⟨bindings, w₁, hpairs, hrest⟩ := run_bind_eq_ok.1 h
    obtain ⟨frame, w₂, hframe, hrest⟩ := run_bind_eq_ok.1 hrest
    obtain ⟨⟨⟩, w₃, hbound, hbody⟩ := run_bind_eq_ok.1 hrest
    obtain ⟨before, last, vs, v, hforms, hbefore, -⟩ := body_eq_again hbody
    refine ⟨target, before, last, bindings, frame, vs, w₁, w₂, w₃, v, ?_, hpairs, hframe, hbound,
      hbefore⟩
    rw [← hforms]
    rfl

end

/-- Evaluation of a list that ends in a request hands over to a form in tail position, or the list is
a `recur` form, or a macro is expanded. -/
theorem list_eq_again {n : Nat} {scope : Scope} {s : Seq} {w u : World} {values : List Value}
    (h : Point.outcome ⟨n + 1, scope, .seq s, w⟩ = .ok (.again values) u) :
    (∃ q, TailStep ⟨n + 1, scope, .seq s, w⟩ q ∧ q.budget = n) ∨
      Point.Recurs values u ⟨n + 1, scope, .seq s, w⟩ ∨ Point.Expands ⟨n + 1, scope, .seq s, w⟩ := by
  rw [outcome_list] at h
  rcases evaluateList_eq_ok h with hvalue | ⟨head, tail, v, hopened, hcall⟩
  · cases hvalue
  by_cases hhead : ∃ f, head = .special f
  · obtain ⟨f, rfl⟩ := hhead
    rw [evaluateCall_special] at hcall
    obtain ⟨args, v', hargs, hspecial⟩ := run_bind_eq_ok.1 hcall
    have henters : Enters (.ofBudget n) s w f args v' := ⟨tail, v, hopened, hargs⟩
    -- what is left are the forms that may end in what a part of them ends in
    by_cases hf : f.handsOn = false
    · exact absurd hspecial (special_gives hf args).ne_again
    · cases f with
      | ifElse =>
        obtain ⟨test, thenForm, rest, t, v, rfl, hrest, htest, ht⟩ := choose_eq_again hspecial
        rcases ht with ht | ⟨ht, elseForm, rfl⟩
        · exact .inl ⟨_, .thenBranch henters hrest htest ht, rfl⟩
        · exact .inl ⟨_, .elseBranch henters htest ht, rfl⟩
      | block =>
        obtain ⟨before, last, vs, v, rfl, hbefore, -⟩ := body_eq_again hspecial
        exact .inl ⟨_, .lastOfBlock henters hbefore, rfl⟩
      | letIn =>
        obtain ⟨target, before, last, bindings, frame, vs, w₁, w₂, w₃, v, rfl, hpairs, hframe, hbound,
          hbefore⟩ := letIn_eq_again hspecial
        exact .inl ⟨_, .lastOfLet henters hpairs hframe hbound hbefore, rfl⟩
      | recur =>
        obtain ⟨vs, v, hvalues, hpure⟩ := run_bind_eq_ok.1 hspecial
        cases hpure
        exact .inr (.inl ⟨henters, hvalues⟩)
      | apply =>
        obtain ⟨f, forms, id, v, rfl, hexpands⟩ := apply_eq_again hspecial
        exact .inr (.inr (.apply henters hexpands))
      | _ => exact absurd rfl hf
  · have hhead : ∀ f, head ≠ .special f := fun f hf => hhead ⟨f, hf⟩
    rw [evaluateCall_other hhead] at hcall
    obtain ⟨o, v₁, ho, hrest⟩ := run_bind_eq_ok.1 hcall
    obtain ⟨callee, v₂, hcallee, hrest⟩ := run_bind_eq_ok.1 hrest
    cases o with
    | again values => cases hcallee
    | value callee =>
      cases hcallee
      by_cases hexpands : ∃ id, callee = .transformer id
      · obtain ⟨id, rfl⟩ := hexpands
        exact .inr (.inr (.head hopened ho))
      · have hordinary : ∀ id, callee ≠ .transformer id := fun id hid => hexpands ⟨id, hid⟩
        split at hrest
        · exact absurd rfl (hordinary _)
        · obtain ⟨args, v₃, -, happly⟩ := run_bind_eq_ok.1 hrest
          exact absurd happly (applyValue_gives hordinary _).ne_again

/-- A form that ends in a request leads to a `recur` form in tail position, or to a macro there. -/
theorem exists_tail {p : Point} {values : List Value} {u : World}
    (h : p.outcome = .ok (.again values) u) :
    ∃ q, ReflTransGen TailStep p q ∧ (q.Recurs values u ∨ q.Expands) := by
  -- every step towards the tail takes one off the budget
  obtain ⟨n, scope, form, w⟩ := p
  induction n generalizing scope form w with
  | zero => cases h
  | succ n ih =>
    by_cases hlist : ∃ s, form = .seq s
    · obtain ⟨s, rfl⟩ := hlist
      rcases list_eq_again h with ⟨⟨k, scope', last, v⟩, hstep, rfl⟩ | hend
      · rw [hstep.outcome] at h
        obtain ⟨q, hsteps, hq⟩ := ih scope' last v h
        exact ⟨q, .head hstep hsteps, hq⟩
      · exact ⟨_, .refl, hend⟩
    · have hlist : ∀ s, form ≠ .seq s := fun s hs => hlist ⟨s, hs⟩
      exact absurd h (evaluate_ne_again hlist false)

theorem outcome_eq_of_steps {p q : Point} (h : ReflTransGen TailStep p q) :
    p.outcome = q.outcome := by
  induction h with
  | refl => rfl
  | tail _ hstep ih => exact ih.trans hstep.outcome

section
variable {n : Nat} {scope : Scope} {w u : World} {values : List Value}

theorem Calls.ne_again {s tail : Seq} {callee : Value} {v : World}
    (h : Calls (.ofBudget n) scope s w callee tail v) :
    evaluateList (.ofBudget n) scope s w ≠ .ok (.again values) u := by
  have hgives : GivesValues (do
      let args ← tail.fold (.ofBudget n)
        (fun (acc : Array Value) form => return acc.push (← (Engine.ofBudget n).value scope form)) #[]
      applyValue (.ofBudget n) scope callee args.toList) :=
    .bind (.any _) fun _ _ => applyValue_gives h.callee_ne _
  rw [h.run_eq]
  exact hgives.ne_again

theorem Enters.ne_again {s : Seq} {f : SpecialForm} {args : List Value} {v : World}
    (h : Enters (.ofBudget n) s w f args v) (hf : f.handsOn = false) :
    evaluateList (.ofBudget n) scope s w ≠ .ok (.again values) u := by
  rw [h.run_eq]
  exact (special_gives hf args).ne_again

end

/-- If evaluation of a form ends in a request for another round, then a `recur` form with these
values of its arguments stands in tail position, where evaluation came to, unless it came to a macro
there; what is in tail position decides the end. A part that is needed for its value, in whatever
other position, makes the form that it stands in fail if it ends in such a request. So calls of
values that are no macros, loops, attempts, vectors and maps do not end in one, and at the top level
it is a failure. -/
theorem rounds_are_asked_for_in_tail_position :
    (∀ p values u, Point.outcome p = .ok (.again values) u →
      ∃ q, ReflTransGen TailStep p q ∧ (q.Recurs values u ∨ q.Expands)) ∧
    (∀ p q, ReflTransGen TailStep p q → p.outcome = q.outcome) ∧
    (∀ n scope form w inner part asHead v values u,
      Needs (.ofBudget n) scope form w inner part asHead v →
      (Engine.ofBudget n).call (.evaluate inner part asHead) v = .ok (.again values) u →
      ∀ first, (Engine.ofBudget (n + 1)).call (.evaluate scope form first) w =
        .error (.error .misplacedRecur) u) ∧
    (∀ n scope w values u,
      (∀ callee args, (∀ id, callee ≠ .transformer id) →
        (Engine.ofBudget n).call (.apply scope callee args) w ≠ .ok (.again values) u) ∧
      (∀ s callee tail v, Calls (.ofBudget n) scope s w callee tail v → ∀ first,
        (Engine.ofBudget (n + 1)).call (.evaluate scope (.seq s) first) w ≠ .ok (.again values) u) ∧
      (∀ s args v,
        Enters (.ofBudget n) s w .looping args v ∨ Enters (.ofBudget n) s w .attempt args v →
        ∀ first, (Engine.ofBudget (n + 1)).call (.evaluate scope (.seq s) first) w ≠
          .ok (.again values) u) ∧
      (∀ items first, (Engine.ofBudget (n + 1)).call (.evaluate scope (.vector items) first) w ≠
        .ok (.again values) u) ∧
      ∀ entries first, (Engine.ofBudget (n + 1)).call (.evaluate scope (.map entries) first) w ≠
        .ok (.again values) u) ∧
    ∀ n form w values u, (Engine.ofBudget n).evaluate none form w = .ok (.again values) u →
      Session.evaluate (.ofBudget n) form w = .error (.eval .misplacedRecur) u := by
  refine ⟨fun p values u h => exists_tail h, fun p q h => outcome_eq_of_steps h, ?_, ?_, ?_⟩
  · intro n scope form w inner part asHead v values u hneeds hpart first
    exact hneeds.awaits first values u hpart
  · intro n scope w values u
    refine ⟨fun callee args hordinary => call_ne_again hordinary args,
      fun s callee tail v hcalls first => hcalls.ne_again, ?_,
      fun items first => evaluate_ne_again (fun _ hs => by cases hs) first,
      fun entries first => evaluate_ne_again (fun _ hs => by cases hs) first⟩
    intro s args v henters first
    rcases henters with hloop | hattempt
    · exact hloop.ne_again rfl
    · exact hattempt.ne_again rfl
  · intro n form w values u h
    have hvalue : (Engine.ofBudget n).value none form w = .error (.error .misplacedRecur) u :=
      Awaits.value values u h
    unfold Session.evaluate Session.ofEval
    rw [hvalue]

/-- `(if true (recur nil))`. -/
theorem rounds_are_asked_for_in_tail_position_branch :
    ∃ u, Point.outcome ⟨5, none, .list [.special .ifElse, .bool true, .list [.special .recur, .nil]],
        World.blank {}⟩ = .ok (.again [.nil]) u ∧
      ∃ q, ReflTransGen TailStep ⟨5, none, .list [.special .ifElse, .bool true,
        .list [.special .recur, .nil]], World.blank {}⟩ q ∧ (q.Recurs [.nil] u ∨ q.Expands) := by
  refine ⟨World.blank {}, rfl, ?_⟩
  exact rounds_are_asked_for_in_tail_position.1 _ _ _ rfl

end LazyLisp
