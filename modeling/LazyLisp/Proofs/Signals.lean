import LazyLisp.Proofs.Capture
import LazyLisp.Proofs.Opening

/-!
Where evaluation needs a value. A form may evaluate to the request for another round of a loop or of
a function body instead of a value. Wherever evaluation of a form comes to one of its parts and goes
on with the value of that part, such a request makes the whole form fail.
-/

namespace LazyLisp
set_option autoImplicit false

open Evaluation

/-- The computation from one state comes to the form in another state and needs its value: it fails
if the form asks for another round. -/
def Awaits (e : Engine) {α : Type} (m : Eval α) (w : World) (scope : Scope) (form : Value)
    (asHead : Bool) (v : World) : Prop :=
  ∀ values u, e.call (.evaluate scope form asHead) v = .ok (.again values) u →
    m w = .error (.error .misplacedRecur) u

section
variable {e : Engine} {α β : Type} {m : Eval α} {f : α → Eval β} {w w' v : World} {scope : Scope}
  {form : Value} {asHead : Bool}

namespace Awaits

theorem toValue : Awaits e (do (← e.call (.evaluate scope form asHead)).toValue) w scope form asHead w := by
  intro values u h
  rw [run_bind_ok h]
  rfl

theorem value : Awaits e (e.value scope form) w scope form false w := toValue

theorem bind (h : Awaits e m w scope form asHead v) (f : α → Eval β) :
    Awaits e (m >>= f) w scope form asHead v :=
  fun values u hrun => run_bind_error (h values u hrun) f

theorem after {a : α} (hm : m w = .ok a w') (h : Awaits e (f a) w' scope form asHead v) :
    Awaits e (m >>= f) w scope form asHead v := by
  intro values u hrun
  rw [run_bind_ok hm]
  exact h values u hrun

theorem congr {m' : Eval α} (hm : m w = m' w') (h : Awaits e m' w' scope form asHead v) :
    Awaits e m w scope form asHead v := by
  intro values u hrun
  rw [hm]
  exact h values u hrun

/-! Parts that are evaluated one after the other. -/

theorem mapM {before rest : List Value} {values : List Value}
    (h : before.mapM (e.value scope) w = .ok values v) :
    Awaits e ((before ++ form :: rest).mapM (e.value scope)) w scope form false v := by
  rw [List.mapM_append, List.mapM_cons]
  exact .after h (.bind (.bind .value _) _)

end Awaits

theorem body_append {before rest : List Value} (hrest : rest ≠ []) :
    body e scope (before ++ rest) = (do
      let _ ← before.mapM (e.value scope)
      body e scope rest) := by
  induction before with
  | nil => simp
  | cons form before ih =>
    have hmore : before ++ rest ≠ [] := by simp [hrest]
    rw [List.cons_append, body.eq_3 e scope form (before ++ rest) hmore, ih, List.mapM_cons]
    simp only [bind_assoc, pure_bind]

theorem bindAll_append {frame : FrameId} {before rest : List (Symbol × Value)} :
    bindAll e frame (before ++ rest) = (do
      bindAll e frame before
      bindAll e frame rest) := by
  induction before with
  | nil => rfl
  | cons b before ih =>
    rw [List.cons_append, bindAll, bindAll, ih]
    simp only [bind_assoc]

theorem evaluateEntries_append {done before rest : Entries} :
    evaluateEntries e scope done (before ++ rest) = (do
      let done ← evaluateEntries e scope done before
      evaluateEntries e scope done rest) := by
  induction before generalizing done with
  | nil => rw [List.nil_append, evaluateEntries, pure_bind]
  | cons b before ih =>
    rw [List.cons_append, evaluateEntries, evaluateEntries]
    simp only [bind_assoc, ih]

namespace Awaits

theorem body {before rest values : List Value} (hrest : rest ≠ [])
    (h : before.mapM (e.value scope) w = .ok values v) :
    Awaits e (body e scope (before ++ form :: rest)) w scope form false v := by
  rw [body_append (List.cons_ne_nil _ _), body.eq_3 e scope form rest hrest]
  exact .after h (.bind .value _)

theorem bindAll {frame : FrameId} {before rest : List (Symbol × Value)} {s : Symbol}
    (h : bindAll e frame before w = .ok () v) :
    Awaits e (bindAll e frame (before ++ (s, form) :: rest)) w (some frame) form false v := by
  rw [bindAll_append]
  exact .after h (.bind .value _)

end Awaits

/-- The arguments of a call are walked and evaluated one by one, up to the given one. -/
inductive ReachesArgument (e : Engine) (scope : Scope) : Nat → Seq → World → Value → World → Prop
  | here {n : Nat} {s rest : Seq} {w v : World} {form : Value} :
    s.uncons e w = .ok (some (form, rest)) v → ReachesArgument e scope (n + 1) s w form v
  | later {n : Nat} {s rest : Seq} {w u u' v : World} {x a form : Value} :
    s.uncons e w = .ok (some (x, rest)) u → e.value scope x u = .ok a u' →
    ReachesArgument e scope n rest u' form v → ReachesArgument e scope (n + 1) s w form v

theorem ReachesArgument.awaits {n : Nat} {s : Seq} (h : ReachesArgument e scope n s w form v)
    (acc : Array Value) :
    Awaits e (s.foldWithin e (fun (acc : Array Value) form => return acc.push (← e.value scope form))
      n acc) w scope form false v := by
  induction h generalizing acc with
  | here huncons => exact .after huncons (.bind (.bind .value _) _)
  | later huncons hvalue _ ih =>
    have hstep : (do return acc.push (← e.value scope _) : Eval (Array Value)) _ = .ok _ _ :=
      run_bind_ok hvalue _
    exact .after huncons (.after hstep (ih _))

/-- In some round of a loop or of a function body, evaluation comes to a form that is not the last. -/
def ReachesInRound (e : Engine) (frame : FrameId) (expected : Nat) (forms : List Value) (w : World)
    (form : Value) (v : World) : Prop :=
  ∃ history current before rest values, Recurs e frame expected forms w history current ∧
    history.length < e.bound ∧ forms = before ++ form :: rest ∧ rest ≠ [] ∧
    before.mapM (e.value (some frame)) current = .ok values v

theorem ReachesInRound.awaits {frame : FrameId} {expected : Nat} {forms : List Value}
    (h : ReachesInRound e frame expected forms w form v) :
    Awaits e (rounds e frame expected forms e.bound) w (some frame) form false v := by
  obtain ⟨history, current, before, rest, values, hrecurs, hbound, rfl, hrest, hbefore⟩ := h
  obtain ⟨n, hn⟩ := Nat.exists_eq_add_of_lt hbound
  have hrounds := hrecurs.rounds_eq (n + 1)
  rw [← Nat.add_assoc, ← hn] at hrounds
  exact .congr hrounds (.bind (.body hrest hbefore) _)

/-- Evaluation of a list comes to a special form with its arguments. -/
def Enters (e : Engine) (s : Seq) (w : World) (f : SpecialForm) (args : List Value) (v : World) : Prop :=
  ∃ tail u, Opened e s w (.special f) tail u ∧ tail.toList e u = .ok args v

theorem Enters.run_eq {s : Seq} {f : SpecialForm} {args : List Value}
    (h : Enters e s w f args v) (scope : Scope) :
    evaluateList e scope s w = special e scope f args v := by
  obtain ⟨tail, u, hopened, hargs⟩ := h
  rw [hopened.evaluateList scope, evaluateCall_special]
  exact run_bind_ok hargs _

/-- The head of a list that is no special form denotes a value that is no macro. -/
def Calls (e : Engine) (scope : Scope) (s : Seq) (w : World) (callee : Value) (tail : Seq) (v : World) :
    Prop :=
  ∃ head u, Opened e s w head tail u ∧ (∀ t, head ≠ .special t) ∧
    e.call (.evaluate scope head true) u = .ok (.value callee) v ∧ ∀ id, callee ≠ .transformer id

theorem Calls.callee_ne {s tail : Seq} {callee : Value} (h : Calls e scope s w callee tail v) :
    ∀ id, callee ≠ .transformer id := by
  obtain ⟨head, u, -, -, -, hordinary⟩ := h
  exact hordinary

theorem Calls.run_eq {s tail : Seq} {callee : Value} (h : Calls e scope s w callee tail v) :
    evaluateList e scope s w = (do
      let args ← tail.fold e
        (fun (acc : Array Value) form => return acc.push (← e.value scope form)) #[]
      applyValue e scope callee args.toList : Eval Outcome) v := by
  obtain ⟨head, u, hopened, hhead, hcallee, hordinary⟩ := h
  rw [hopened.evaluateList scope, evaluateCall_other hhead, run_bind_ok hcallee]
  simp only [Outcome.toValue, pure_bind]

/-- The special forms that bind names in a new frame, and what they call themselves in errors. -/
inductive Binder : SpecialForm → String → Prop
  | letIn : Binder .letIn "let"
  | looping : Binder .looping "loop"

end

/-- Evaluation of a form in a scope and a state comes to one of its parts, in a scope and a state of
its own, and needs the value of that part. Of a list of forms, those before the part have been
evaluated. The parts of which evaluation hands on whatever they evaluate to are not among these: the
branches of `if`, the last form of `do`, `let`, a loop or a function body, and what `attempt` tries. -/
inductive Needs (e : Engine) (scope : Scope) :
    Value → World → Scope → Value → Bool → World → Prop
  | head {s tail : Seq} {w v : World} {head : Value} :
    Opened e s w head tail v → (∀ t, head ≠ .special t) → Needs e scope (.seq s) w scope head true v
  | argument {s tail : Seq} {w u v : World} {callee form : Value} :
    Calls e scope s w callee tail u → ReachesArgument e scope e.bound tail u form v →
    Needs e scope (.seq s) w scope form false v
  | test {s : Seq} {w v : World} {test thenForm : Value} {rest : List Value} :
    Enters e s w .ifElse (test :: thenForm :: rest) v → rest.length ≤ 1 →
    Needs e scope (.seq s) w scope test false v
  | initializer {s : Seq} {w u u' v v' : World} {f : SpecialForm} {label : String} {target : Value}
      {forms : List Value} {before rest : List (Symbol × Value)} {x : Symbol} {form : Value}
      {frame : FrameId} :
    Binder f label → Enters e s w f (target :: forms) u →
    bindingPairs label (some target) u = .ok (before ++ (x, form) :: rest) u' →
    Eval.newFrame scope u' = .ok frame v → bindAll e frame before v = .ok () v' →
    Needs e scope (.seq s) w (some frame) form false v'
  | definition {s : Seq} {w v v' : World} {target form : Value} {name : NameId} :
    Enters e s w .define [target, form] v → definitionTarget "def" target v = .ok name v' →
    Needs e scope (.seq s) w scope form false v'
  | element {before rest values : List Value} {w v : World} {form : Value} :
    before.mapM (e.value scope) w = .ok values v →
    Needs e scope (.vector (before ++ form :: rest)) w scope form false v
  | key {before rest done : Entries} {w v : World} {k x : Value} :
    evaluateEntries e scope [] before w = .ok done v →
    Needs e scope (.map (before ++ (k, x) :: rest)) w scope k false v
  | entry {before rest done : Entries} {w u v : World} {k x key : Value} :
    evaluateEntries e scope [] before w = .ok done u → e.value scope k u = .ok key v →
    Needs e scope (.map (before ++ (k, x) :: rest)) w scope x false v
  | blockForm {s : Seq} {w u v : World} {before rest values : List Value} {form : Value} :
    Enters e s w .block (before ++ form :: rest) u → rest ≠ [] →
    before.mapM (e.value scope) u = .ok values v → Needs e scope (.seq s) w scope form false v
  | letForm {s : Seq} {w u u' v v' v'' : World} {target : Value} {bindings : List (Symbol × Value)}
      {frame : FrameId} {before rest values : List Value} {form : Value} :
    Enters e s w .letIn (target :: (before ++ form :: rest)) u → rest ≠ [] →
    bindingPairs "let" (some target) u = .ok bindings u' → Eval.newFrame scope u' = .ok frame v →
    bindAll e frame bindings v = .ok () v' →
    before.mapM (e.value (some frame)) v' = .ok values v'' →
    Needs e scope (.seq s) w (some frame) form false v''
  | loopForm {s : Seq} {w u v v' : World} {target : Value} {forms : List Value}
      {bindings : List (Symbol × Value)} {frame : FrameId} {form : Value} :
    Enters e s w .looping (target :: forms) u →
    loopFrame e scope (some target) u = .ok (frame, bindings) v →
    ReachesInRound e frame bindings.length forms v form v' →
    Needs e scope (.seq s) w (some frame) form false v'
  | functionForm {s tail : Seq} {w u u' v v' : World} {id : ClosureId} {args : Array Value}
      {c : Closure} {clause : Clause} {frame : FrameId} {form : Value} :
    Calls e scope s w (.function id) tail u →
    tail.fold e (fun (acc : Array Value) form => return acc.push (← e.value scope form)) #[] u =
      .ok args u' →
    u'.closures[id]? = some c → c.select? args.toList.length = some clause →
    callFrame c (.function id) (clause.bindings args.toList) u' = .ok frame v →
    ReachesInRound e frame clause.bindingCount clause.body v form v' →
    Needs e scope (.seq s) w (some frame) form false v'
  | recurArgument {s : Seq} {w u v : World} {before rest values : List Value} {form : Value} :
    Enters e s w .recur (before ++ form :: rest) u →
    before.mapM (e.value scope) u = .ok values v → Needs e scope (.seq s) w scope form false v
  | applyFunction {s : Seq} {w v : World} {f first : Value} {more : List Value} :
    Enters e s w .apply (f :: first :: more) v → Needs e scope (.seq s) w scope f false v
  | applyArgument {s : Seq} {w u u' v : World} {f callee form : Value}
      {before rest values : List Value} :
    Enters e s w .apply (f :: (before ++ form :: rest)) u → e.value scope f u = .ok callee u' →
    before.mapM (e.value scope) u' = .ok values v → Needs e scope (.seq s) w scope form false v

section
variable {e : Engine} {scope inner : Scope} {form part : Value} {asHead : Bool} {w v : World}

theorem Enters.awaits {s : Seq} {f : SpecialForm} {args : List Value} {u : World}
    (h : Enters e s w f args u) (hpart : Awaits e (special e scope f args) u inner part asHead v) :
    Awaits e (evaluateList e scope s) w inner part asHead v :=
  .congr (h.run_eq scope) hpart

theorem Calls.awaits {s tail : Seq} {callee : Value} {u : World}
    (h : Calls e scope s w callee tail u)
    (hpart : Awaits e (do
      let args ← tail.fold e
        (fun (acc : Array Value) form => return acc.push (← e.value scope form)) #[]
      applyValue e scope callee args.toList : Eval Outcome) u inner part asHead v) :
    Awaits e (evaluateList e scope s) w inner part asHead v :=
  .congr h.run_eq hpart

/-- The leading arguments of `apply` and the last one are evaluated one after the other. -/
theorem Awaits.applyArguments {f callee : Value} {before rest values : List Value} {u : World}
    (hf : e.value scope f w = .ok callee u)
    (hbefore : before.mapM (e.value scope) u = .ok values v) :
    Awaits e (apply e scope (f :: (before ++ form :: rest))) w scope form false v := by
  rcases List.eq_nil_or_concat rest with rfl | ⟨leading, last, rfl⟩
  · rw [apply_eq]
    exact .after hf (.after hbefore (.bind .value _))
  · have hsplit : before ++ form :: leading.concat last =
        (before ++ form :: leading) ++ [last] := by simp
    rw [hsplit, apply_eq]
    exact .after hf (.bind (.mapM hbefore) _)

/-- Every part that is needed is awaited. -/
theorem Needs.awaits (h : Needs e scope form w inner part asHead v) (first : Bool) :
    Awaits e (evaluateForm e scope form first) w inner part asHead v := by
  cases h with
  | @head s tail w v head hopened hhead =>
    refine .congr (hopened.evaluateList scope) ?_
    rw [evaluateCall_other hhead, ← bind_assoc]
    exact .bind .toValue _
  | argument hcalls hargument => exact hcalls.awaits (.bind (hargument.awaits _) _)
  | @test s w v test thenForm rest henters hrest =>
    refine henters.awaits ?_
    rcases length_le_one_cases hrest with rfl | ⟨elseForm, rfl⟩
    · exact .bind .value _
    · exact .bind .value _
  | initializer hbinder henters hpairs hframe hbefore =>
    refine henters.awaits ?_
    cases hbinder with
    | letIn => exact .after hpairs (.after hframe (.bind (.bindAll hbefore) _))
    | looping => exact .after hpairs (.after hframe (.bind (.bindAll hbefore) _))
  | definition henters htarget => exact henters.awaits (.after htarget (.bind .value _))
  | element hbefore => exact .bind (.mapM hbefore) _
  | key hbefore =>
    show Awaits e (do return Outcome.value (.map (← evaluateEntries e scope [] _))) _ _ _ _ _
    rw [evaluateEntries_append]
    exact .bind (.after hbefore (.bind .value _)) _
  | entry hbefore hkey =>
    show Awaits e (do return Outcome.value (.map (← evaluateEntries e scope [] _))) _ _ _ _ _
    rw [evaluateEntries_append]
    exact .bind (.after hbefore (.after hkey (.bind .value _))) _
  | blockForm henters hrest hbefore => exact henters.awaits (.body hrest hbefore)
  | letForm henters hrest hpairs hframe hbound hbefore =>
    exact henters.awaits (.after hpairs (.after hframe (.after hbound (.body hrest hbefore))))
  | loopForm henters hframe hround =>
    refine henters.awaits ?_
    show Awaits e (looping e scope _) _ _ _ _ _
    rw [looping_eq]
    exact .after hframe (.bind hround.awaits _)
  | functionForm hcalls hargs hclosure hclause hframe hround =>
    refine hcalls.awaits (.after hargs (.bind ?_ _))
    exact .congr (invoke_eq hclosure hclause hframe e) hround.awaits
  | recurArgument henters hbefore => exact henters.awaits (.bind (.mapM hbefore) _)
  | applyFunction henters => exact henters.awaits (.bind .value _)
  | applyArgument henters hf hbefore => exact henters.awaits (.applyArguments hf hbefore)

end

end LazyLisp
