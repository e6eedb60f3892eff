import LazyLisp.Evaluation.Step
import LazyLisp.Proofs.Looks

/-!
What computations leave of the state they start from, and what two of them have in common that run
side by side. A relation between a fixed earlier state and the current one is kept by a computation
if it holds behind it, be the end a result or a failure. Two computations are paired if the second
does what the first does, as long as the first stays within its budget; the states of the second
may have another current namespace and may show less of what is traced. Whatever pairs the few
operations that change the state pairs everything made of them.
-/

namespace LazyLisp
set_option autoImplicit false

/-- The state behind a computation, whether it succeeds or fails. -/
def Eval.after {α : Type} (m : Eval α) (w : World) : World :=
  match m w with
  | .ok _ w => w
  | .error _ w => w

section
variable {α β : Type}

theorem after_ok {m : Eval α} {w w' : World} {a : α} (h : m w = .ok a w') : m.after w = w' := by
  rw [Eval.after, h]

theorem after_error {m : Eval α} {w w' : World} {s : Stop} (h : m w = .error s w') :
    m.after w = w' := by
  rw [Eval.after, h]

end

/-- The end of a computation that got through within its budget. -/
def Ended {α : Type} (r : EStateM.Result Stop World α) : Prop := ∀ w, r ≠ .error .exhausted w

namespace Ended
variable {α β : Type}

theorem ok (a : α) (w : World) : Ended (.ok a w) := nofun

theorem error (err : EvalError) (w : World) :
    Ended (.error (.error err) w : EStateM.Result Stop World α) := nofun

theorem of_bind {m : Eval α} {f : α → Eval β} {w : World} (h : Ended ((m >>= f) w)) :
    Ended (m w) := by
  intro v hv
  exact h v (run_bind_error hv f)

/-- What follows a computation decides whether the whole ends. -/
theorem bind {m : Eval α} {f : α → Eval β} {w : World} (h : Ended (m w))
    (hf : ∀ a v, m w = .ok a v → Ended (f a v)) : Ended ((m >>= f) w) := by
  rw [run_bind]
  cases hrun : m w with
  | ok a v => exact hf a v hrun
  | error s v =>
    rw [hrun] at h
    intro u hu
    cases hu
    exact h v rfl

end Ended

/-- What holds of the state in front of the computation holds of the one behind it. -/
def Preserves (Q : World → Prop) {α : Type} (m : Eval α) : Prop := ∀ w, Q w → Q (m.after w)

/-- The domain that an event is traced for. -/
def Event.domain? : Event → Option LogDomain
  | evaluating _ => some .eval
  | defined _ _ => some .eval
  | readForm _ => some .read
  | expanded _ => some .expand
  | loaded _ _ => none

namespace LogDomains

def shows (log : LogDomains) (event : Event) : Bool := event.domain?.all log.isEnabled

/-- The events with one more, if that is traced. -/
def noted (log : LogDomains) (events : Array Event) (event : Event) : Array Event :=
  if log.shows event then events.push event else events

end LogDomains

/-- What the states of a second run look like beside those of a first: they may have another current
namespace, trace other domains and hold other events. -/
structure View where
  current : NameId → NameId
  log : LogDomains → LogDomains
  events : Array Event → Array Event
  events_noted : ∀ l seen event, events (l.noted seen event) = (log l).noted (events seen) event

namespace View

/-- Only the current namespace may be another one. -/
def ofCurrent (current : NameId → NameId) : View := ⟨current, id, id, fun _ _ _ => rfl⟩

def same : View := ofCurrent id

/-- What is traced in the first run is traced in the second. -/
structure Faithful (κ : View) : Prop where
  log : κ.log = id
  events_push : ∀ seen event, κ.events (seen.push event) = (κ.events seen).push event

theorem ofCurrent_faithful (current : NameId → NameId) : (ofCurrent current).Faithful :=
  ⟨rfl, fun _ _ => rfl⟩

/-- What the first run does not trace, the second does not either. -/
theorem shows_of_shows (κ : View) {l : LogDomains} {event : Event}
    (h : (κ.log l).shows event = true) : l.shows event = true := by
  cases hl : l.shows event with
  | true => rfl
  | false =>
    have hnoted := κ.events_noted l #[] event
    simp only [LogDomains.noted, h, hl, if_true, Bool.false_eq_true, if_false] at hnoted
    have hsize := congrArg Array.size hnoted
    rw [Array.size_push] at hsize
    omega

end View

/-- The state of a second run beside a state of the first. -/
def World.seen (κ : View) (w : World) : World :=
  { w with current := κ.current w.current, log := κ.log w.log, events := κ.events w.events }

/-- What is noted in the first run is noted in the second where it is traced. -/
theorem seen_note {κ : View} {w : World} {event : Event} (h : w.log.shows event = true) :
    World.seen κ { w with events := w.events.push event } =
      if (κ.log w.log).shows event then { w.seen κ with events := (κ.events w.events).push event }
      else w.seen κ := by
  have hnoted := κ.events_noted w.log w.events event
  rw [LogDomains.noted, LogDomains.noted, if_pos h] at hnoted
  simp only [World.seen, hnoted]
  split <;> rfl

/-- The same state with another current namespace. -/
def World.under (κ : NameId → NameId) (w : World) : World := { w with current := κ w.current }

/-- The end of a run and the end of the run beside it. Nothing is said about the second where the
first is out of budget. -/
inductive Ends (κ : View) (Q : World → Prop) {α : Type} :
    EStateM.Result Stop World α → EStateM.Result Stop World α → Prop
  | ok {a : α} {w : World} : Q w → Ends κ Q (.ok a w) (.ok a (w.seen κ))
  | error {err : EvalError} {w : World} : Q w →
    Ends κ Q (.error (.error err) w) (.error (.error err) (w.seen κ))
  | exhausted {w : World} {r : EStateM.Result Stop World α} : Q w → Ends κ Q (.error .exhausted w) r

theorem Ends.weaken {κ : View} {Q Q' : World → Prop} {α : Type}
    {r r' : EStateM.Result Stop World α} (h : Ends κ Q r r') (hQ : ∀ w, Q w → Q' w) :
    Ends κ Q' r r' := by
  cases h with
  | ok hw => exact .ok (hQ _ hw)
  | error hw => exact .error (hQ _ hw)
  | exhausted hw => exact .exhausted (hQ _ hw)

/-- The end of a second run beside an end of the first. -/
def endSeen (κ : View) {α : Type} : EStateM.Result Stop World α → EStateM.Result Stop World α
  | .ok a w => .ok a (w.seen κ)
  | .error s w => .error s (w.seen κ)

/-- The same end with another current namespace. -/
def endUnder (κ : NameId → NameId) {α : Type} :
    EStateM.Result Stop World α → EStateM.Result Stop World α
  | .ok a w => .ok a (w.under κ)
  | .error s w => .error s (w.under κ)

namespace Ends
variable {Q : World → Prop} {α : Type} {r r' : EStateM.Result Stop World α}

theorem eq_endSeen {κ : View} (h : Ends κ Q r r') (hr : Ended r) : r' = endSeen κ r := by
  cases h with
  | ok => rfl
  | error => rfl
  | exhausted => exact absurd rfl (hr _)

theorem eq_endUnder {κ : NameId → NameId} (h : Ends (.ofCurrent κ) Q r r') (hr : Ended r) :
    r' = endUnder κ r := by
  rw [h.eq_endSeen hr]
  cases r <;> rfl

theorem bind {κ : View} {β : Type} {m m' : Eval α} {f f' : α → Eval β} {w w' : World}
    (h : Ends κ Q (m w) (m' w'))
    (hf : ∀ a v, m w = .ok a v → Q v → Ends κ Q (f a v) (f' a (v.seen κ))) :
    Ends κ Q ((m >>= f) w) ((m' >>= f') w') := by
  rw [run_bind, run_bind]
  generalize m w = r, m' w' = r' at h hf ⊢
  cases h with
  | ok hv => exact hf _ _ rfl hv
  | error hv => exact .error hv
  | exhausted hv => exact .exhausted hv

end Ends

/-- The second computation does what the first does, and the first keeps a property of the state. -/
def Paired (κ : View) (Q : World → Prop) {α : Type} (m m' : Eval α) : Prop :=
  ∀ w, Q w → Ends κ Q (m w) (m' (w.seen κ))

/-- Paired computations whose states differ in the current namespace at most. -/
abbrev Tied (κ : NameId → NameId) (Q : World → Prop) {α : Type} (m m' : Eval α) : Prop :=
  Paired (.ofCurrent κ) Q m m'

namespace Paired
variable {κ : View} {Q : World → Prop} {α β : Type}

theorem pure (a : α) : Paired κ Q (pure a) (pure a) := fun _ h => .ok h

theorem fail (e : EvalError) : Paired κ Q (fail e : Eval α) (LazyLisp.fail e) := fun _ h => .error h

theorem exhausted {m : Eval α} : Paired κ Q (throw .exhausted) m := fun _ h => .exhausted h

/-- What follows a look at the state has to be paired from that state on only. -/
theorem get_bind_at {f f' : World → Eval β}
    (hf : ∀ w, Q w → Ends κ Q (f w w) (f' (w.seen κ) (w.seen κ))) :
    Paired κ Q (get >>= f) (get >>= f') := hf

theorem get_bind {f f' : World → Eval β} (hf : ∀ w, Q w → Paired κ Q (f w) (f' (w.seen κ))) :
    Paired κ Q (get >>= f) (get >>= f') :=
  .get_bind_at fun w h => hf w h w h

/-- What follows may depend on what is known of the result in front. -/
theorem bind_gives {m m' : Eval α} {f f' : α → Eval β} {p : α → Prop} (hm : Paired κ Q m m')
    (hp : Gives m p) (hf : ∀ a, p a → Paired κ Q (f a) (f' a)) :
    Paired κ Q (m >>= f) (m' >>= f') :=
  fun w h => (hm w h).bind fun a v hrun hv => hf a (hp w a v hrun) v hv

theorem bind {m m' : Eval α} {f f' : α → Eval β} (hm : Paired κ Q m m')
    (hf : ∀ a, Paired κ Q (f a) (f' a)) : Paired κ Q (m >>= f) (m' >>= f') :=
  hm.bind_gives (.any m) fun a _ => hf a

theorem modify {f : World → World} (h : ∀ w, Q w → Q (f w))
    (hκ : ∀ w, f (w.seen κ) = (f w).seen κ) : Paired κ Q (modify f : Eval Unit) (modify f) := by
  intro w hw
  rw [run_modify, run_modify, hκ]
  exact .ok (h w hw)

theorem modifyGet {f : World → α × World} (h : ∀ w, Q w → Q (f w).2)
    (hκ : ∀ w, f (w.seen κ) = ((f w).1, (f w).2.seen κ)) :
    Paired κ Q (modifyGet f : Eval α) (modifyGet f) := by
  intro w hw
  rw [run_modifyGet, run_modifyGet, hκ]
  exact .ok (h w hw)

theorem set {w : World} (h : Q w) : Paired κ Q (set w : Eval Unit) (set (w.seen κ)) :=
  fun _ _ => .ok h

theorem guard {c : Prop} [Decidable c] {err : EvalError} {k k' : PUnit → Eval α}
    (hk : Paired κ Q (k ⟨⟩) (k' ⟨⟩)) :
    Paired κ Q (if c then LazyLisp.fail err >>= k else k ⟨⟩)
      (if c then LazyLisp.fail err >>= k' else k' ⟨⟩) := by
  split
  · exact .bind (.fail err) fun _ => hk
  · exact hk

theorem mapM {f f' : α → Eval β} {xs : List α} (hf : ∀ x, Paired κ Q (f x) (f' x)) :
    Paired κ Q (xs.mapM f) (xs.mapM f') := by
  induction xs with
  | nil => exact .pure []
  | cons x xs ih =>
    rw [List.mapM_cons, List.mapM_cons]
    exact .bind (hf x) fun _ => .bind ih fun _ => .pure _

theorem forM {f f' : α → Eval Unit} {xs : List α} (hf : ∀ x, Paired κ Q (f x) (f' x)) :
    Paired κ Q (xs.forM f) (xs.forM f') := by
  induction xs with
  | nil => exact .pure _
  | cons x xs ih => exact .bind (hf x) fun _ => ih

theorem foldlM {f f' : β → α → Eval β} {xs : List α} {b : β}
    (hf : ∀ b x, Paired κ Q (f b x) (f' b x)) : Paired κ Q (xs.foldlM f b) (xs.foldlM f' b) := by
  induction xs generalizing b with
  | nil => exact .pure b
  | cons x xs ih =>
    rw [List.foldlM_cons, List.foldlM_cons]
    exact .bind (hf b x) fun _ => ih

theorem orFalse {m m' : Eval Bool} (hm : Paired κ Q m m') : Paired κ Q m.orFalse m'.orFalse := by
  intro w hw
  have hends := hm w hw
  unfold Eval.orFalse
  generalize m w = r, m' (w.seen κ) = r' at hends ⊢
  cases hends with
  | ok hv => exact .ok hv
  | error hv => exact .ok hv
  | exhausted hv => exact .exhausted hv

theorem orDone {m m' : Eval Unit} (hm : Paired κ Q m m') : Paired κ Q m.orDone m'.orDone := by
  intro w hw
  have hends := hm w hw
  unfold Eval.orDone
  generalize m w = r, m' (w.seen κ) = r' at hends ⊢
  cases hends with
  | ok hv => exact .ok hv
  | error hv => exact .ok hv
  | exhausted hv => exact .exhausted hv

theorem ends {m m' : Eval α} (hm : Paired κ Q m m') {w : World} (hw : Q w) :
    Ends κ Q (m w) (m' (w.seen κ)) :=
  hm w hw

theorem run_eq {m m' : Eval α} (hm : Paired .same Q m m') {w : World} (hw : Q w)
    (hended : Ended (m w)) : m' w = m w := by
  have hsame := (hm w hw).eq_endSeen hended
  generalize m w = r at hsame ⊢
  cases r <;> exact hsame

theorem preserves {m m' : Eval α} (hm : Paired κ Q m m') : Preserves Q m := by
  intro w hw
  have hends := hm w hw
  unfold Eval.after
  generalize m w = r, m' (w.seen κ) = r' at hends ⊢
  cases hends <;> assumption

/-- A property of the state may be kept for reasons of its own. -/
theorem with_preserves {m m' : Eval α} (hm : Paired κ (fun _ => True) m m') (hQ : Preserves Q m) :
    Paired κ Q m m' := by
  intro w hw
  have hafter := hQ w hw
  have hends := hm w trivial
  unfold Eval.after at hafter
  generalize m w = r, m' (w.seen κ) = r' at hends hafter ⊢
  cases hends with
  | ok => exact .ok hafter
  | error => exact .error hafter
  | exhausted => exact .exhausted hafter

end Paired

theorem Preserves.of_paired {Q : World → Prop} {α : Type} {m : Eval α} (hm : Paired .same Q m m) :
    Preserves Q m :=
  hm.preserves

theorem Preserves.tied {Q : World → Prop} {α : Type} {m : Eval α} (hm : Preserves Q m) :
    Tied id Q m m := by
  intro w hw
  have hafter := hm w hw
  show Ends .same Q (m w) (m w)
  cases hrun : m w with
  | ok a v =>
    rw [after_ok hrun] at hafter
    exact .ok hafter
  | error s v =>
    rw [after_error hrun] at hafter
    cases s with
    | error err => exact .error hafter
    | exhausted => exact .exhausted hafter

theorem Outcome.paired_toValue {κ : View} {Q : World → Prop} (o : Outcome) :
    Paired κ Q o.toValue o.toValue := by
  cases o with
  | value v => exact .pure v
  | again values => exact .fail _

/-- What the operations that change the state keep of a relation to an earlier state, `base`. Where
a computation goes on in a new frame or runs the thunk of a cell, it may keep the relation to a
state of its own. Scopes of forms and closures satisfy `fits`. -/
structure Coupling (P : World → World → Prop) (fits : World → Scope → Prop) : Prop where
  fits_none : ∀ base, fits base none
  fits_later : ∀ base w scope, P base w → fits base scope → fits w scope
  closure : ∀ base w (id : ClosureId) (c : Closure), P base w → w.closures[id]? = some c →
    fits w c.scope
  names : ∀ base w names, P base w → P base { w with names := names }
  output : ∀ base w text, P base w → P base { w with output := text }
  events : ∀ base w events, P base w → P base { w with events := events }
  frame : ∀ base w parent, P base w → fits w parent → ∃ inner,
    P inner { w with frames := w.frames.push { parent := parent } } ∧
    fits inner (some w.frames.size) ∧ (∀ v, P inner v → P base v) ∧
    ∀ v (f : Frame → Frame), (∀ g, (f g).parent = g.parent) → P inner v →
      P inner { v with frames := v.frames.modify w.frames.size f }
  newClosure : ∀ base w name clauses scope label c, P base w → fits w scope →
    Closure.make name clauses scope label = .ok c →
    P base { w with closures := w.closures.push c }
  newLazy : ∀ base thunk, Preserves (P base) (Eval.newLazy thunk)
  realize : ∀ base w (cell : CellId) thunk, P base w → w.cells[cell]? = some (.pending thunk) →
    ∃ inner, P inner (w.setCell cell .realizing) ∧ ∀ (e : Engine) v, P inner v → P base v ∧
      (∀ s, Seq.produce e thunk (w.setCell cell .realizing) = .ok s v →
        P base (v.setCell cell (.realized s))) ∧
      ∀ err, Seq.produce e thunk (w.setCell cell .realizing) = .error (.error err) v →
        P base (v.setCell cell (.failed err))

/-- What the operations on vars and namespaces keep. -/
structure Defining (P : World → World → Prop) : Prop where
  declare : ∀ base name, Preserves (P base) (Eval.declare name)
  define : ∀ base name value, Preserves (P base) (Eval.define name value)
  nsSet : ∀ base v, Preserves (P base) (Core.nsSet v)
  nsRefer : ∀ base v, Preserves (P base) (Core.nsRefer v)
  nsRemove : ∀ base v, Preserves (P base) (Core.nsRemove v)
  nsUnmap : ∀ base ns name, Preserves (P base) (Core.nsUnmap ns name)

/-- The scope that a request is served in. -/
def Request.scope : Request → Scope
  | evaluate scope _ _ => scope
  | apply scope _ _ => scope

/-- Two engines of which the second serves every request as the first does. -/
structure Engine.Paired (κ : View) (P : World → World → Prop) (fits : World → Scope → Prop)
    (e e' : Engine) : Prop where
  coupling : Coupling P fits
  bound : e.bound ≤ e'.bound
  call : ∀ base r, fits base r.scope → LazyLisp.Paired κ (P base) (e.call r) (e'.call r)

/-- Paired engines whose states differ in the current namespace at most. -/
abbrev Engine.Tied (κ : NameId → NameId) (P : World → World → Prop)
    (fits : World → Scope → Prop) (e e' : Engine) : Prop :=
  e.Paired (.ofCurrent κ) P fits e'

namespace Seq

/-- What a lazy cell keeps of the run of its thunk. -/
def kept (cell : CellId) : EStateM.Result Stop World Seq → EStateM.Result Stop World Seq
  | .ok s w => .ok s (w.setCell cell (.realized s))
  | .error (.error err) w => .error (.error err) (w.setCell cell (.failed err))
  | .error .exhausted w => .error .exhausted w

theorem run_eq (e : Engine) (cell : CellId) (thunk : Value) (w : World) :
    run e cell thunk w = kept cell (produce e thunk (w.setCell cell .realizing)) :=
  rfl

end Seq

section
variable {κ : View} {P : World → World → Prop} {fits : World → Scope → Prop}
  {base : World} {e e' : Engine} {scope : Scope} {α β : Type}

namespace Coupling

theorem intern (h : Coupling P fits) (text : String) :
    Paired κ (P base) (Eval.intern text) (Eval.intern text) :=
  .modifyGet (fun w => h.names base w _) fun _ => rfl

theorem print (h : Coupling P fits) (text : String) :
    Paired κ (P base) (Eval.print text) (Eval.print text) :=
  .modify (fun w => h.output base w _) fun _ => rfl

theorem note (h : Coupling P fits) (hκ : κ.Faithful) (event : Event) :
    Paired κ (P base) (Eval.note event) (Eval.note event) := by
  refine .modify (fun w => h.events base w _) fun w => ?_
  simp only [World.seen, hκ.events_push]

theorem note_ends (h : Coupling P fits) {w : World} (hw : P base w) (event : Event) :
    Ends κ (P base) ((if w.log.shows event then Eval.note event else pure ()) w)
      ((if (κ.log w.log).shows event then Eval.note event else pure ()) (w.seen κ)) := by
  by_cases hfirst : w.log.shows event = true
  · have hend : Ends κ (P base) (Eval.note event w)
        (.ok () (World.seen κ { w with events := w.events.push event })) :=
      .ok (h.events base w _ hw)
    rw [seen_note hfirst] at hend
    rw [if_pos hfirst]
    by_cases hsecond : (κ.log w.log).shows event = true
    · rw [if_pos hsecond] at hend ⊢
      exact hend
    · rw [if_neg hsecond] at hend ⊢
      exact hend
  · rw [if_neg hfirst, if_neg (mt κ.shows_of_shows hfirst)]
    exact .ok hw

theorem newLazyPaired (h : Coupling P fits) (thunk : Value) :
    Paired κ (P base) (Eval.newLazy thunk) (Eval.newLazy thunk) :=
  .modifyGet (h.newLazy base thunk) fun _ => rfl

end Coupling

theorem Paired.settle {isEmpty isEmpty' : Seq → Eval Bool} {Q : World → Prop}
    {more more' : List Seq → Eval (Option (Seq × List Seq))}
    (hempty : ∀ s, Paired κ Q (isEmpty s) (isEmpty' s))
    (hmore : ∀ parts, Paired κ Q (more parts) (more' parts)) (current : Seq)
    (parts : List Seq) :
    Paired κ Q (Seq.settle isEmpty more current parts)
      (Seq.settle isEmpty' more' current parts) := by
  refine .bind (hempty current) fun b => ?_
  split
  · exact hmore parts
  · exact .pure _

namespace Engine.Paired

theorem evaluate (h : e.Paired κ P fits e') (hscope : fits base scope) (form : Value) :
    LazyLisp.Paired κ (P base) (e.evaluate scope form) (e'.evaluate scope form) :=
  h.call base _ hscope

theorem value (h : e.Paired κ P fits e') (hscope : fits base scope) (form : Value) :
    LazyLisp.Paired κ (P base) (e.value scope form) (e'.value scope form) :=
  .bind (h.call base _ hscope) fun o => o.paired_toValue

theorem apply (h : e.Paired κ P fits e') (hscope : fits base scope) (callee : Value)
    (args : List Value) :
    LazyLisp.Paired κ (P base) (e.apply scope callee args) (e'.apply scope callee args) :=
  .bind (h.call base _ hscope) fun o => o.paired_toValue

/-! Sequences. -/

theorem produce (h : e.Paired κ P fits e') (thunk : Value) :
    LazyLisp.Paired κ (P base) (Seq.produce e thunk) (Seq.produce e' thunk) := by
  have hthunk := h.apply (h.coupling.fits_none base) thunk []
  refine .get_bind fun w _ => .guard (.bind hthunk fun v => ?_)
  split
  · exact .pure _
  · exact .fail _

theorem run (h : e.Paired κ P fits e') {w : World} {cell : CellId} {thunk : Value} (hw : P base w)
    (hcell : w.cells[cell]? = some (.pending thunk)) :
    Ends κ (P base) (Seq.run e cell thunk w) (Seq.run e' cell thunk (w.seen κ)) := by
  -- the thunk runs under a relation of its own, and `hend` carries what it leaves back
  obtain ⟨inner, hstart, hend⟩ := h.coupling.realize base w cell thunk hw hcell
  have hends : Ends κ (P inner) _ _ := h.produce thunk (w.setCell cell .realizing) hstart
  have hunder : (w.seen κ).setCell cell .realizing = (w.setCell cell .realizing).seen κ := rfl
  rw [Seq.run_eq, Seq.run_eq, hunder]
  have hend := hend e
  generalize Seq.produce e thunk (w.setCell cell .realizing) = r,
    Seq.produce e' thunk ((w.setCell cell .realizing).seen κ) = r' at hends hend ⊢
  cases hends with
  | @ok s v hv => exact .ok ((hend v hv).2.1 s rfl)
  | @error err v hv => exact .error ((hend v hv).2.2 err rfl)
  | @exhausted v _ hv => exact .exhausted (hend v hv).1

theorem realize (h : e.Paired κ P fits e') (cell : CellId) :
    LazyLisp.Paired κ (P base) (Seq.realize e cell) (Seq.realize e' cell) := by
  intro w hw
  rw [Seq.realize, Seq.realize, run_bind_ok (run_get w), run_bind_ok (run_get (w.seen κ))]
  have hcells : (w.seen κ).cells = w.cells := rfl
  rw [hcells]
  cases hcell : w.cells[cell]? with
  | none => exact .error hw
  | some c =>
    cases c with
    | pending thunk => exact h.run hw hcell
    | realizing => exact .error hw
    | realized s => exact .ok hw
    | failed err => exact .error hw

theorem isEmptyWithin_and_nextWithin (h : e.Paired κ P fits e') {n n' : Nat} (hn : n ≤ n') :
    (∀ s, LazyLisp.Paired κ (P base) (Seq.isEmptyWithin e n s) (Seq.isEmptyWithin e' n' s)) ∧
      ∀ parts,
        LazyLisp.Paired κ (P base) (Seq.nextWithin e n parts) (Seq.nextWithin e' n' parts) := by
  induction n generalizing n' with
  | zero =>
    refine ⟨fun s => .exhausted, fun parts => ?_⟩
    cases parts with
    | nil => cases n' <;> exact .pure _
    | cons next rest => exact .exhausted
  | succ n ih =>
    obtain ⟨n', rfl⟩ := Nat.exists_eq_add_of_le' (Nat.le_trans (Nat.succ_pos n) hn)
    have ih := ih (Nat.le_of_succ_le_succ hn)
    constructor
    · intro s
      cases s with
      | lazy cell => exact .bind (h.realize cell) ih.1
      | concat current parts => exact .bind (.settle ih.1 ih.2 current parts) fun _ => .pure _
      | _ => exact .pure _
    · intro parts
      cases parts with
      | nil => exact .pure _
      | cons next rest => exact .settle ih.1 ih.2 next rest

theorem settlePartsWithin (h : e.Paired κ P fits e') {n n' : Nat} (hn : n ≤ n') (current : Seq)
    (parts : List Seq) :
    LazyLisp.Paired κ (P base) (Seq.settleWithin e n current parts)
      (Seq.settleWithin e' n' current parts) :=
  .settle (h.isEmptyWithin_and_nextWithin hn).1 (h.isEmptyWithin_and_nextWithin hn).2 current parts

theorem firstWithin (h : e.Paired κ P fits e') {n n' : Nat} (hn : n ≤ n') (s : Seq) :
    LazyLisp.Paired κ (P base) (s.firstWithin e n) (s.firstWithin e' n') := by
  induction n generalizing n' s with
  | zero => exact .exhausted
  | succ n ih =>
    obtain ⟨n', rfl⟩ := Nat.exists_eq_add_of_le' (Nat.le_trans (Nat.succ_pos n) hn)
    have hn : n ≤ n' := Nat.le_of_succ_le_succ hn
    cases s with
    | lazy cell => exact .bind (h.realize cell) fun s => ih hn s
    | concat current parts =>
      refine .bind (h.settlePartsWithin hn current parts) fun o => ?_
      cases o with
      | none => exact .pure _
      | some p => exact ih hn p.1
    | _ => exact .pure _

theorem restWithin (h : e.Paired κ P fits e') {n n' : Nat} (hn : n ≤ n') (s : Seq) :
    LazyLisp.Paired κ (P base) (s.restWithin e n) (s.restWithin e' n') := by
  induction n generalizing n' s with
  | zero => exact .exhausted
  | succ n ih =>
    obtain ⟨n', rfl⟩ := Nat.exists_eq_add_of_le' (Nat.le_trans (Nat.succ_pos n) hn)
    have hn : n ≤ n' := Nat.le_of_succ_le_succ hn
    cases s with
    | lazy cell => exact .bind (h.realize cell) fun s => ih hn s
    | concat current parts =>
      refine .bind (h.settlePartsWithin hn current parts) fun o => ?_
      cases o with
      | none => exact .pure _
      | some p => exact .bind (ih hn p.1) fun _ => .pure _
    | _ => exact .pure _

theorem first? (h : e.Paired κ P fits e') (s : Seq) :
    LazyLisp.Paired κ (P base) (s.first? e) (s.first? e') :=
  h.firstWithin h.bound s

theorem rest (h : e.Paired κ P fits e') (s : Seq) :
    LazyLisp.Paired κ (P base) (s.rest e) (s.rest e') :=
  h.restWithin h.bound s

theorem isEmpty (h : e.Paired κ P fits e') (s : Seq) :
    LazyLisp.Paired κ (P base) (s.isEmpty e) (s.isEmpty e') :=
  (h.isEmptyWithin_and_nextWithin h.bound).1 s

theorem uncons (h : e.Paired κ P fits e') (s : Seq) :
    LazyLisp.Paired κ (P base) (s.uncons e) (s.uncons e') := by
  refine .bind (h.first? s) fun o => ?_
  cases o with
  | none => exact .pure _
  | some head => exact .bind (h.rest s) fun _ => .pure _

theorem unconsWithin (h : e.Paired κ P fits e') {n n' : Nat} (hn : n ≤ n') (s : Seq) :
    LazyLisp.Paired κ (P base) (s.unconsWithin e n) (s.unconsWithin e' n') := by
  induction n generalizing n' s with
  | zero => exact .exhausted
  | succ n ih =>
    obtain ⟨n', rfl⟩ := Nat.exists_eq_add_of_le' (Nat.le_trans (Nat.succ_pos n) hn)
    have hn : n ≤ n' := Nat.le_of_succ_le_succ hn
    cases s with
    | lazy cell => exact .bind (h.realize cell) fun s => ih hn s
    | concat current parts =>
      refine .bind (ih hn current) fun o => ?_
      cases o with
      | some p => exact .pure _
      | none =>
        cases parts with
        | nil => exact .pure _
        | cons next rest => exact ih hn _
    | _ => exact .pure _

theorem foldWithin (h : e.Paired κ P fits e') {step step' : β → Value → Eval β}
    (hstep : ∀ b v, LazyLisp.Paired κ (P base) (step b v) (step' b v)) {n n' : Nat} (hn : n ≤ n')
    (s : Seq) (b : β) :
    LazyLisp.Paired κ (P base) (s.foldWithin e step n b) (s.foldWithin e' step' n' b) := by
  induction n generalizing n' s b with
  | zero => exact .exhausted
  | succ n ih =>
    obtain ⟨n', rfl⟩ := Nat.exists_eq_add_of_le' (Nat.le_trans (Nat.succ_pos n) hn)
    refine .bind (h.uncons s) fun o => ?_
    cases o with
    | none => exact .pure b
    | some p => exact .bind (hstep b p.1) fun b => ih (Nat.le_of_succ_le_succ hn) p.2 b

theorem fold (h : e.Paired κ P fits e') {step step' : β → Value → Eval β}
    (hstep : ∀ b v, LazyLisp.Paired κ (P base) (step b v) (step' b v)) (s : Seq) (b : β) :
    LazyLisp.Paired κ (P base) (s.fold e step b) (s.fold e' step' b) :=
  h.foldWithin hstep h.bound s b

theorem toList (h : e.Paired κ P fits e') (s : Seq) :
    LazyLisp.Paired κ (P base) (s.toList e) (s.toList e') :=
  .bind (h.fold (fun _ _ => .pure _) s _) fun _ => .pure _

/-! Equality and maps. -/

section
variable {Q : World → Prop} {eq eq' : Value → Value → Eval Bool}

theorem allEqual (heq : ∀ a b, LazyLisp.Paired κ Q (eq a b) (eq' a b)) (xs ys : List Value) :
    LazyLisp.Paired κ Q (Equality.allEqual eq xs ys) (Equality.allEqual eq' xs ys) := by
  induction xs generalizing ys with
  | nil => exact .pure _
  | cons x xs ih =>
    cases ys with
    | nil => exact .pure _
    | cons y ys =>
      refine .bind (heq x y) fun b => ?_
      split
      · exact ih ys
      · exact .pure _

theorem lookup (heq : ∀ a b, LazyLisp.Paired κ Q (eq a b) (eq' a b)) (key : Value)
    (entries : List (Value × Value)) :
    LazyLisp.Paired κ Q (Equality.lookup eq key entries) (Equality.lookup eq' key entries) := by
  induction entries with
  | nil => exact .pure _
  | cons f rest ih =>
    refine .bind (heq f.1 key).orFalse fun b => ?_
    split
    · exact .pure _
    · exact ih

theorem entriesEqual (heq : ∀ a b, LazyLisp.Paired κ Q (eq a b) (eq' a b))
    (other entries : List (Value × Value)) :
    LazyLisp.Paired κ Q (Equality.entriesEqual eq other entries)
      (Equality.entriesEqual eq' other entries) := by
  induction entries with
  | nil => exact .pure _
  | cons f rest ih =>
    refine .bind (lookup heq f.1 other) fun o => ?_
    cases o with
    | none => exact .pure _
    | some v =>
      refine .bind (heq f.2 v).orFalse fun b => ?_
      split
      · exact ih
      · exact .pure _

end

theorem seqEqual (h : e.Paired κ P fits e') {eq eq' : Value → Value → Eval Bool}
    (heq : ∀ a b, LazyLisp.Paired κ (P base) (eq a b) (eq' a b)) {n n' : Nat} (hn : n ≤ n')
    (s t : Seq) :
    LazyLisp.Paired κ (P base) (Equality.seqEqual e eq n s t) (Equality.seqEqual e' eq' n' s t) := by
  induction n generalizing n' s t with
  | zero => exact .exhausted
  | succ n ih =>
    obtain ⟨n', rfl⟩ := Nat.exists_eq_add_of_le' (Nat.le_trans (Nat.succ_pos n) hn)
    refine .bind (h.uncons s) fun a => .bind (h.uncons t) fun b => ?_
    rcases a with _ | ⟨x, s'⟩ <;> rcases b with _ | ⟨y, t'⟩
    · exact .pure _
    · exact .pure _
    · exact .pure _
    · refine .bind (heq x y) fun b => ?_
      split
      · exact ih (Nat.le_of_succ_le_succ hn) s' t'
      · exact .pure _

theorem equalWithin (h : e.Paired κ P fits e') {n n' : Nat} (hn : n ≤ n') (a b : Value) :
    LazyLisp.Paired κ (P base) (a.equalWithin e n b) (a.equalWithin e' n' b) := by
  induction n generalizing n' a b with
  | zero => exact .exhausted
  | succ n ih =>
    obtain ⟨n', rfl⟩ := Nat.exists_eq_add_of_le' (Nat.le_trans (Nat.succ_pos n) hn)
    have ih := fun a b => ih (Nat.le_of_succ_le_succ hn) a b
    unfold Value.equalWithin
    split
    all_goals first
      | exact .pure _
      | exact h.seqEqual ih h.bound _ _
      | skip
    · split
      · exact allEqual ih _ _
      · exact .pure _
    · split
      · exact entriesEqual ih _ _
      · exact .pure _
    · split
      · exact (ih _ _).orFalse
      · exact .pure _

theorem equal (h : e.Paired κ P fits e') (a b : Value) :
    LazyLisp.Paired κ (P base) (a.equal e b) (a.equal e' b) :=
  h.equalWithin h.bound a b

theorem settleWithin (h : e.Paired κ P fits e') {n n' : Nat} (hn : n ≤ n') (v : Value) :
    LazyLisp.Paired κ (P base) (v.settleWithin e n) (v.settleWithin e' n') := by
  induction n generalizing n' v with
  | zero => exact .exhausted
  | succ n ih =>
    obtain ⟨n', rfl⟩ := Nat.exists_eq_add_of_le' (Nat.le_trans (Nat.succ_pos n) hn)
    have ih := fun v => ih (Nat.le_of_succ_le_succ hn) v
    cases v with
    | vector items => exact .forM ih
    | seq s => exact (h.fold (fun _ item => ih item) s ()).orDone
    | map entries => exact .forM fun f => .bind (ih f.1) fun _ => ih f.2
    | marked m form => exact ih form
    | _ => exact .pure _

theorem settle (h : e.Paired κ P fits e') (v : Value) :
    LazyLisp.Paired κ (P base) (v.settle e) (v.settle e') :=
  h.settleWithin h.bound v

theorem get? (h : e.Paired κ P fits e') (entries : Entries) (key : Value) :
    LazyLisp.Paired κ (P base) (entries.get? e key) (entries.get? e' key) :=
  .bind (h.settle key) fun _ => lookup h.equal key entries

theorem put (h : e.Paired κ P fits e') (entries : Entries) (key value : Value) :
    LazyLisp.Paired κ (P base) (entries.put e key value) (entries.put e' key value) := by
  refine .bind (h.settle key) fun _ => ?_
  induction entries with
  | nil => exact .pure _
  | cons f rest ih =>
    refine .bind (h.equal f.1 key).orFalse fun b => ?_
    split
    · exact .pure _
    · exact .bind ih fun _ => .pure _

theorem remove (h : e.Paired κ P fits e') (entries : Entries) (key : Value) :
    LazyLisp.Paired κ (P base) (entries.remove e key) (entries.remove e' key) := by
  refine .bind (h.settle key) fun _ => ?_
  induction entries with
  | nil => exact .pure _
  | cons f rest ih =>
    refine .bind (h.equal f.1 key).orFalse fun b => ?_
    split
    · exact .pure _
    · exact .bind ih fun _ => .pure _

/-! Printing. -/

theorem textWithin (h : e.Paired κ P fits e') (style : Style) {n n' : Nat} (hn : n ≤ n') (v : Value) :
    LazyLisp.Paired κ (P base) (v.textWithin e style n) (v.textWithin e' style n') := by
  induction n generalizing n' v with
  | zero => exact .exhausted
  | succ n ih =>
    obtain ⟨n', rfl⟩ := Nat.exists_eq_add_of_le' (Nat.le_trans (Nat.succ_pos n) hn)
    have ih := fun v => ih (Nat.le_of_succ_le_succ hn) v
    refine .get_bind fun w _ => ?_
    cases v with
    | vector items => exact .bind (.mapM ih) fun _ => .pure _
    | map entries =>
      refine .bind (.mapM fun f => ?_) fun _ => .pure _
      exact .bind (ih f.1) fun _ => .bind (ih f.2) fun _ => .pure _
    | seq s =>
      refine .bind (h.fold (fun acc v => ?_) s _) fun _ => .pure _
      exact .bind (ih v) fun _ => .pure _
    | marked m form => exact .bind (ih form) fun _ => .pure _
    | _ => exact .pure _

theorem text (h : e.Paired κ P fits e') (style : Style) (v : Value) :
    LazyLisp.Paired κ (P base) (v.text e style) (v.text e' style) :=
  h.textWithin style h.bound v

theorem textOrType (h : e.Paired κ P fits e') (v : Value) :
    LazyLisp.Paired κ (P base) (v.textOrType e) (v.textOrType e') := by
  intro w hw
  have hends := h.text .readable v w hw
  unfold Value.textOrType
  generalize v.text e .readable w = r, v.text e' .readable (w.seen κ) = r' at hends ⊢
  cases hends with
  | ok hv => exact .ok hv
  | error hv => exact .ok hv
  | exhausted hv => exact .exhausted hv

end Engine.Paired
end
end LazyLisp
