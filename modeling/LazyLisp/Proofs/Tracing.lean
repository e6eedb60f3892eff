import LazyLisp.Interpreter
import LazyLisp.Proofs.Refusing

/-!
Tracing. The text of a traced form is made by printing it, and printing runs the thunks of its lazy
parts, so a trace can change what a program does. A quiet run gives up where that would happen. What
a quiet run gets through has the same results, output, vars and namespaces whatever is traced; only
the events differ.
-/

namespace LazyLisp
set_option autoImplicit false

/-! Views of a run in which everything is traced. -/

/-- The domains that both trace. -/
def LogDomains.meet (l l' : LogDomains) : LogDomains :=
  ⟨l.eval && l'.eval, l.read && l'.read, l.expand && l'.expand⟩

theorem LogDomains.shows_meet (l l' : LogDomains) (event : Event) :
    (l.meet l').shows event = (l.shows event && l'.shows event) := by
  cases event <;> rfl

/-- Only these domains are traced. -/
def View.tracing (log : LogDomains) : View where
  current := id
  log l := l.meet log
  events seen := seen.filter log.shows
  events_noted l seen event := by
    rw [LogDomains.noted, LogDomains.noted, LogDomains.shows_meet]
    cases l.shows event with
    | false => rfl
    | true =>
      cases hshown : log.shows event with
      | false => simp [hshown]
      | true => simp [hshown]

/-- The state with other domains traced, and the events that are traced then. -/
def World.tracedWith (log : LogDomains) (w : World) : World :=
  { w with log := log, events := w.events.filter log.shows }

theorem seen_tracing (log : LogDomains) {w : World} (hw : w.log = .all) :
    w.seen (.tracing log) = w.tracedWith log := by
  have hlog : LogDomains.all.meet log = log := by cases log; rfl
  simp only [World.seen, View.tracing, World.tracedWith, hw, hlog, id]

/-- Evaluation does not change what is traced. -/
theorem log_invariant (L : LogDomains → Prop) : Invariant fun _ w => L w.log where
  fits_none _ := trivial
  fits_later _ _ _ _ _ := trivial
  closure _ _ _ _ _ _ := trivial
  names _ _ _ h := h
  output _ _ _ h := h
  events _ _ _ h := h
  frame base _ _ h _ := ⟨base, h, trivial, fun _ hv => hv, fun _ _ _ hv => hv⟩
  newClosure _ _ _ _ _ _ _ h _ _ := h
  newLazy _ _ := fun _ h => h
  realize base _ _ _ h _ := ⟨base, h, fun _ _ hv => ⟨hv, fun _ _ => hv, fun _ _ => hv⟩⟩
  toDefining := .of_spaces (fun _ _ _ h => h) fun _ _ _ h => h

/-- Everything is traced, from one state on. -/
def AllTraced (_base w : World) : Prop := w.log = .all

theorem allTraced_invariant : Invariant AllTraced := log_invariant (· = .all)

/-! Quiet evaluation. -/

/-- Notes an event about a value, if its domain is traced. -/
def traced (e : Engine) (domain : LogDomain) (event : String → Event) (v : Value) : Eval Unit := do
  if (← get).log.isEnabled domain then Eval.note (event (← v.textOrType e))

theorem traced_bind {α : Type} (e : Engine) (domain : LogDomain) (event : String → Event) (v : Value)
    (next : Eval α) :
    (do
      traced e domain event v
      next) =
    (do
      if (← get).log.isEnabled domain then Eval.note (event (← v.textOrType e))
      next) := by
  simp only [traced, bind_assoc]
  congr 1
  funext w
  split
  · rw [bind_assoc]
  · rw [pure_bind]

namespace Quiet

/-- Notes an event about a value, and gives up if a thunk has to run for its text. -/
def note (bound : Nat) (domain : LogDomain) (event : String → Event) (v : Value) : Eval Unit := do
  let w ← get
  if w.log.isEnabled domain then
    if w.attached then Eval.note (event (← v.textOrType (.refusing bound))) else throw .exhausted

def expand (e : Engine) (id : ClosureId) (forms : List Value) : Eval Value := do
  let expansion ← Evaluation.invoke e id (.transformer id) forms
  note e.bound .expand .expanded expansion
  return expansion

def applyValue (e : Engine) (scope : Scope) (callee : Value) (args : List Value) : Eval Outcome := do
  match callee with
  | .transformer id => e.evaluate scope (← expand e id args)
  | callee => Evaluation.applyValue e scope callee args

/-- Evaluates a list with a known head. -/
def evaluateCall (e : Engine) (scope : Scope) (head : Value) (tail : Seq) : Eval Outcome := do
  match head with
  | .special f => Evaluation.special e scope f (← tail.toList e)
  | head =>
    let callee ← (← e.call (.evaluate scope head true)).toValue
    match callee with
    | .transformer id => e.evaluate scope (← expand e id (← tail.toList e))
    | callee =>
      let args ← tail.fold e
        (fun (acc : Array Value) form => return acc.push (← e.value scope form)) #[]
      applyValue e scope callee args.toList

def evaluateList (e : Engine) (scope : Scope) (s : Seq) : Eval Outcome := do
  match ← s.uncons e with
  | none => return .value (.seq s)
  | some (head, tail) =>
    note e.bound .eval .evaluating (.seq s)
    evaluateCall e scope head tail

def evaluateForm (e : Engine) (scope : Scope) (form : Value) (asHead : Bool) : Eval Outcome :=
  match form with
  | .seq s => evaluateList e scope s
  | form => Evaluation.evaluateForm e scope form asHead

def step (e : Engine) : Request → Eval Outcome
  | .evaluate scope form asHead => evaluateForm e scope form asHead
  | .apply scope callee args => applyValue e scope callee args

/-- Serves a request within a budget, as long as no trace runs a thunk. -/
def run : Nat → Request → Eval Outcome
  | 0, _ => throw .exhausted
  | n + 1, r => step ⟨run n, n⟩ r

def engine (n : Nat) : Engine := ⟨run n, n⟩

section
variable {κ : View} {P : World → World → Prop} {fits : World → Scope → Prop} {base : World}
  {e e' : Engine} {scope : Scope}

/-- The event is noted in the plain run where it is traced there; its text changes nothing. -/
theorem note_paired (h : e.Paired κ P fits e') {domain : LogDomain} {event : String → Event}
    (hevent : ∀ text, (event text).domain? = some domain) (v : Value) :
    Paired κ (P base) (note e.bound domain event v) (traced e' domain event v) := by
  have hshows : ∀ (l : LogDomains) (text : String), l.shows (event text) = l.isEnabled domain := by
    intro l text
    rw [LogDomains.shows, hevent]
    rfl
  refine .get_bind_at fun w hw => ?_
  have hlog : (w.seen κ).log = κ.log w.log := rfl
  rw [hlog]
  by_cases hfirst : w.log.isEnabled domain = true
  · rw [if_pos hfirst]
    by_cases hattached : w.attached = true
    · have hrefusing : (Engine.refusing e.bound).Paired κ P fits e' :=
        Engine.refusing_paired h.coupling h.bound
      have hends : Ends κ (P base) _ _ := hrefusing.textOrType v w hw
      have hcalm : Ended (v.textOrType (.refusing e.bound) w) →
          (v.textOrType (.refusing e.bound)).after w = w :=
        (Value.sparing_textOrType e.bound v).calm w hattached
      rw [if_pos hattached]
      unfold Eval.after at hcalm
      generalize htext : v.textOrType (.refusing e.bound) w = r,
        htext' : v.textOrType e' (w.seen κ) = r' at hends hcalm
      cases hends with
      | @error err u _ => exact absurd htext (Value.textOrType_ne_error _ v w u err)
      | @exhausted u _ hu => exact run_bind_error htext _ ▸ .exhausted hu
      | @ok text u _ =>
        obtain rfl : u = w := hcalm (.ok text u)
        have hnote := h.coupling.note_ends (κ := κ) hw (event text)
        rw [hshows, hshows, if_pos hfirst] at hnote
        rw [run_bind_ok htext]
        by_cases hsecond : (κ.log u.log).isEnabled domain = true
        · rw [if_pos hsecond] at hnote ⊢
          rw [run_bind_ok htext']
          exact hnote
        · rw [if_neg hsecond] at hnote ⊢
          exact hnote
    · rw [if_neg hattached]
      exact .exhausted hw
  · have hsecond : ¬ (κ.log w.log).isEnabled domain = true := by
      rw [← hshows _ ""] at hfirst ⊢
      exact mt κ.shows_of_shows hfirst
    rw [if_neg hfirst, if_neg hsecond]
    exact .ok hw

theorem expand_paired (h : e.Paired κ P fits e') (id : ClosureId) (forms : List Value) :
    Paired κ (P base) (expand e id forms) (Evaluation.expand e' id forms) := by
  refine .bind (h.invoke _ _ _) fun expansion => ?_
  have hplain := traced_bind e' .expand .expanded expansion (pure expansion)
  refine hplain ▸ .bind (note_paired h (fun _ => rfl) expansion) fun _ => .pure _

variable (hκ : κ.current = id) (hdefining : Defining P)
include hκ hdefining

theorem applyValue_paired (h : e.Paired κ P fits e') (hscope : fits base scope) (callee : Value)
    (args : List Value) :
    Paired κ (P base) (applyValue e scope callee args)
      (Evaluation.applyValue e' scope callee args) := by
  by_cases hmacro : ∃ id, callee = .transformer id
  · obtain ⟨id, rfl⟩ := hmacro
    exact .bind (expand_paired h id args) fun _ => h.evaluate hscope _
  · have hother : ∀ id, callee ≠ .transformer id := fun id hid => hmacro ⟨id, hid⟩
    have hplain : applyValue e scope callee args = Evaluation.applyValue e scope callee args := by
      cases callee with
      | transformer id => exact absurd rfl (hother id)
      | _ => rfl
    rw [hplain]
    exact fun w hw => h.applyValue_ends hscope hw callee args (.inl ⟨hκ, hdefining⟩) (.inr hother)

theorem evaluateCall_paired (h : e.Paired κ P fits e') (hscope : fits base scope) (head : Value)
    (tail : Seq) :
    Paired κ (P base) (evaluateCall e scope head tail)
      (Watch.all.evaluateCall e' scope head tail) := by
  have hargs : ∀ callee, Paired κ (P base)
      (do
        let args ← tail.fold e
          (fun (acc : Array Value) form => return acc.push (← e.value scope form)) #[]
        applyValue e scope callee args.toList)
      (do
        let args ← tail.fold e'
          (fun (acc : Array Value) form => return acc.push (← e'.value scope form)) #[]
        Evaluation.applyValue e' scope callee args.toList) := by
    intro callee
    refine .bind (h.fold (fun _ form => ?_) tail _) fun args => ?_
    · exact .bind (h.value hscope form) fun _ => .pure _
    · exact applyValue_paired hκ hdefining h hscope callee _
  cases head with
  | special f =>
    refine .bind (h.toList tail) fun args w hw => ?_
    exact h.special_ends hscope hw f args (.inl ⟨hκ, hdefining⟩)
  | _ =>
    refine .bind (h.call base (.evaluate scope _ true) hscope) fun o => ?_
    refine .bind o.paired_toValue fun callee => ?_
    cases callee with
    | transformer id =>
      refine .bind (h.toList tail) fun forms => ?_
      exact .bind (expand_paired h id forms) fun _ => h.evaluate hscope _
    | _ => exact hargs _

theorem evaluateList_paired (h : e.Paired κ P fits e') (hscope : fits base scope) (s : Seq) :
    Paired κ (P base) (evaluateList e scope s) (Evaluation.evaluateList e' scope s) := by
  rw [← Watch.all_evaluateList]
  refine .bind (h.uncons s) fun o => ?_
  cases o with
  | none => exact .pure _
  | some p =>
    have hnote : Paired κ (P base) (note e.bound .eval .evaluating (.seq s)) _ :=
      note_paired h (fun _ => rfl) (.seq s)
    have hpaired := hnote.bind fun _ => evaluateCall_paired hκ hdefining h hscope p.1 p.2
    rw [traced_bind] at hpaired
    exact hpaired

theorem step_paired (h : e.Paired κ P fits e') (r : Request) (hscope : fits base r.scope) :
    Paired κ (P base) (step e r) (Evaluation.step e' r) := by
  cases r with
  | apply scope callee args => exact applyValue_paired hκ hdefining h hscope callee args
  | evaluate scope form asHead =>
    by_cases hlist : ∃ s, form = .seq s
    · obtain ⟨s, rfl⟩ := hlist
      exact evaluateList_paired hκ hdefining h hscope s
    · have hlist : ∀ s, form ≠ .seq s := fun s hs => hlist ⟨s, hs⟩
      have hplain : evaluateForm e scope form asHead =
          Evaluation.evaluateForm e scope form asHead := by
        cases form with
        | seq s => exact absurd rfl (hlist s)
        | _ => rfl
      show Paired κ (P base) (evaluateForm e scope form asHead) _
      rw [hplain]
      by_cases hsymbol : ∃ s, form = .symbol s
      · obtain ⟨s, rfl⟩ := hsymbol
        exact fun w hw => evaluateSymbol_ends hw (resolve?_seen hκ w scope s) asHead
      · exact h.evaluateOther hscope (fun s hs => hsymbol ⟨s, hs⟩) hlist asHead

/-- What a quiet run gets through, every plain run with no smaller budget does too. -/
theorem run_paired (h : Coupling P fits) {n n' : Nat} (hn : n ≤ n') (r : Request)
    (hscope : fits base r.scope) : Paired κ (P base) (run n r) (Evaluation.run n' r) := by
  induction n generalizing n' base r with
  | zero => exact .exhausted
  | succ n ih =>
    obtain ⟨n', rfl⟩ := Nat.exists_eq_add_of_le' (Nat.le_trans (Nat.succ_pos n) hn)
    have hn : n ≤ n' := Nat.le_of_succ_le_succ hn
    have hpaired : Engine.Paired κ P fits ⟨run n, n⟩ ⟨Evaluation.run n', n'⟩ :=
      ⟨h, hn, fun _ r hscope => ih hn r hscope⟩
    exact step_paired hκ hdefining hpaired r hscope

end
end Quiet
end LazyLisp
