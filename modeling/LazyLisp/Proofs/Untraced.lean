import LazyLisp.Proofs.Tracing

/-!
Evaluation apart from its trace. What was traced is never looked at, so a computation does the same
with and without the events of the past. A computation refines a plan if it comes to the end of the
plan whenever the plan has one, and leaves the same state up to events. Calls of built-in functions
refine the evaluation of their arguments in order, followed by the function.
-/

namespace LazyLisp
set_option autoImplicit false

/-- The state without its events. -/
def World.muted (w : World) : World := { w with events := #[] }

/-- The same end without events. -/
def endMuted {α : Type} : EStateM.Result Stop World α → EStateM.Result Stop World α
  | .ok a w => .ok a w.muted
  | .error s w => .error s w.muted

/-- Forgets the events of the past, and in the end those that the computation notes. -/
def Eval.muted {α : Type} (m : Eval α) : Eval α := fun w => endMuted (m w.muted)

/-- Every large enough budget comes to this end. -/
def ComesTo {α : Type} (c : Nat → Eval α) (w : World) (r : EStateM.Result Stop World α) : Prop :=
  Ended r ∧ ∃ n, ∀ m, n ≤ m → c m w = r

namespace ComesTo
variable {α β : Type} {c : Nat → Eval α} {w v : World} {a : α} {r r' : EStateM.Result Stop World α}

theorem unique (h : ComesTo c w r) (h' : ComesTo c w r') : r = r' := by
  obtain ⟨-, n, hn⟩ := h
  obtain ⟨-, n', hn'⟩ := h'
  exact (hn (max n n') (Nat.le_max_left n n')).symm.trans (hn' _ (Nat.le_max_right n n'))

theorem always (hr : Ended r) (h : ∀ n, c n w = r) : ComesTo c w r := ⟨hr, 0, fun m _ => h m⟩

theorem pure (a : α) (w : World) : ComesTo (fun _ => pure a) w (.ok a w) :=
  always (.ok a w) fun _ => rfl

theorem bind {f : Nat → α → Eval β} {r : EStateM.Result Stop World β} (h : ComesTo c w (.ok a v))
    (hf : ComesTo (fun n => f n a) v r) : ComesTo (fun n => c n >>= f n) w r := by
  obtain ⟨-, n, hn⟩ := h
  obtain ⟨hr, n', hn'⟩ := hf
  refine ⟨hr, max n n', fun m hm => ?_⟩
  exact (run_bind_ok (hn m (by omega)) _).trans (hn' m (by omega))

theorem bind_error {f : Nat → α → Eval β} {err : EvalError}
    (h : ComesTo c w (.error (.error err) v)) :
    ComesTo (fun n => c n >>= f n) w (.error (.error err) v) := by
  obtain ⟨-, n, hn⟩ := h
  exact ⟨.error err v, n, fun m hm => run_bind_error (hn m hm) _⟩

/-- A computation that does what another does with less budget and from another state. -/
theorem later {c' : Nat → Eval α} (h : ComesTo c v r)
    (hc : ∃ n, ∀ m, n ≤ m → c' (m + 1) w = c m v) : ComesTo c' w r := by
  obtain ⟨hr, n, hn⟩ := h
  obtain ⟨n', hn'⟩ := hc
  refine ⟨hr, max n n' + 1, fun m hm => ?_⟩
  obtain ⟨m, rfl⟩ := Nat.exists_eq_add_of_le' (Nat.le_trans (Nat.succ_pos _) hm)
  exact (hn' m (by omega)).trans (hn m (by omega))

end ComesTo

/-- The computation comes to every end that the plan comes to, up to events. -/
def Refines {α : Type} (c plan : Nat → Eval α) : Prop :=
  ∀ n w, Ended (plan n w.muted) → ∃ r, ComesTo c w r ∧ endMuted r = plan n w.muted

theorem ended_endMuted {α : Type} {r : EStateM.Result Stop World α} :
    Ended (endMuted r) ↔ Ended r := by
  cases r with
  | ok a w => exact ⟨fun _ => .ok a w, fun _ => .ok a w.muted⟩
  | error s w =>
    cases s with
    | error err => exact ⟨fun _ => .error err w, fun _ => .error err w.muted⟩
    | exhausted => exact ⟨fun h => absurd rfl (h w.muted), fun h => absurd rfl (h w)⟩

namespace Refines
variable {α β : Type} {c plan : Nat → Eval α}

theorem pure (a : α) : Refines (fun _ => pure a) fun _ => pure a :=
  fun _ w _ => ⟨.ok a w, .pure a w, rfl⟩

theorem fail (err : EvalError) :
    Refines (fun _ => LazyLisp.fail err : Nat → Eval α) fun _ => LazyLisp.fail err :=
  fun _ w _ => ⟨.error (.error err) w, .always (.error err w) fun _ => rfl, rfl⟩

theorem bind {f g : Nat → α → Eval β} (h : Refines c plan)
    (hf : ∀ a, Refines (fun n => f n a) fun n => g n a) :
    Refines (fun n => c n >>= f n) fun n => plan n >>= g n := by
  intro n w hended
  obtain ⟨r, hr, hsame⟩ := h n w hended.of_bind
  dsimp only at hended ⊢
  rw [run_bind, ← hsame] at hended ⊢
  cases r with
  | ok a v =>
    obtain ⟨r, hnext, hsame⟩ := hf a n v hended
    exact ⟨r, hr.bind hnext, hsame⟩
  | error s v =>
    cases s with
    | error err => exact ⟨_, hr.bind_error, rfl⟩
    | exhausted => exact absurd rfl (hended v.muted)

/-- A computation may differ in the budget that it needs and in what it traces at first. -/
theorem later {c' : Nat → Eval α} (h : Refines c plan)
    (hc : ∀ w, ∃ v, v.muted = w.muted ∧ ∃ n, ∀ m, n ≤ m → c' (m + 1) w = c m v) :
    Refines c' plan := by
  intro n w hended
  obtain ⟨v, hv, hc⟩ := hc w
  rw [← hv] at hended ⊢
  obtain ⟨r, hr, hsame⟩ := h n v hended
  exact ⟨r, hr.later hc, hsame⟩

/-- What a plan comes to is what the computation comes to. -/
theorem comesTo (h : Refines c plan) {w : World} {r : EStateM.Result Stop World α}
    (hr : ComesTo plan w.muted r) : ∃ r', ComesTo c w r' ∧ endMuted r' = r := by
  obtain ⟨hended, n, hn⟩ := hr
  obtain ⟨r', hr', hsame⟩ := h n w (hn n (Nat.le_refl n) ▸ hended)
  exact ⟨r', hr', hsame.trans (hn n (Nat.le_refl n))⟩

end Refines

/-! The events of the past. -/

/-- The second run has further events in front. -/
def View.behind (before : Array Event) : View where
  current := id
  log := id
  events seen := before ++ seen
  events_noted l seen event := by
    show before ++ l.noted seen event = l.noted (before ++ seen) event
    unfold LogDomains.noted
    split
    · rw [Array.append_push]
    · rfl

theorem View.behind_faithful (before : Array Event) : (View.behind before).Faithful where
  log := rfl
  events_push seen event := by
    show before ++ seen.push event = (before ++ seen).push event
    rw [Array.append_push]

theorem World.muted_behind (w : World) : w.muted.seen (.behind w.events) = w := by
  show { w with events := w.events ++ #[] } = w
  rw [Array.append_empty]

theorem Engine.behind_paired (before : Array Event) {n m : Nat} (h : n ≤ m) :
    (Engine.ofBudget n).Paired (.behind before) Unrelated (fun _ _ => True) (.ofBudget m) := by
  refine ⟨unrelated_invariant.toCoupling, h, fun base r _ => ?_⟩
  show LazyLisp.Paired _ _ (Evaluation.run n r) (Evaluation.run m r)
  rw [← Watch.all_run n r]
  exact unrelated_invariant.toCoupling.pairedRun (View.behind_faithful before)
    (fun _ _ _ _ _ => .inl ⟨rfl, unrelated_invariant.toDefining⟩) h r trivial

/-- What evaluation is made of refines itself without the events of the past. -/
theorem Refines.muted {α : Type} {c : Nat → Eval α} (h : ∀ before base n m, n ≤ m →
    Paired (.behind before) (Unrelated base) (c n) (c m)) :
    Refines c fun n => (c n).muted := by
  intro n w hended
  have hended : Ended (c n w.muted) := ended_endMuted.1 hended
  refine ⟨endSeen (.behind w.events) (c n w.muted), ⟨?_, n, fun m hm => ?_⟩, ?_⟩
  · cases hr : c n w.muted with
    | ok a v => exact .ok a _
    | error s v =>
      cases s with
      | error err => exact .error err _
      | exhausted => exact absurd hr (hended v)
  · have hends := h w.events w n m hm w.muted .intro
    rw [World.muted_behind] at hends
    exact hends.eq_endSeen hended
  · show endMuted (endSeen (.behind w.events) (c n w.muted)) = endMuted (c n w.muted)
    cases c n w.muted <;> rfl

theorem refines_value (scope : Scope) (form : Value) :
    Refines (fun n => (Engine.ofBudget n).value scope form)
      fun n => ((Engine.ofBudget n).value scope form).muted :=
  .muted fun before _ _ _ h => (Engine.behind_paired before h).value trivial form

/-! Evaluation of calls of built-in functions. -/

/-- The text of a plain form is noted, if at all, and nothing else happens. -/
theorem Value.Plain.exists_traced {form : Value} (h : form.Plain) (domain : LogDomain)
    (event : String → Event) (w : World) :
    ∃ v, v.muted = w.muted ∧ ∀ n, form.size ≤ n →
      traced (.ofBudget n) domain event form w = .ok () v := by
  unfold traced
  cases hlog : w.log.isEnabled domain with
  | false =>
    refine ⟨w, rfl, fun n _ => ?_⟩
    rw [run_bind_ok (run_get w), hlog]
    rfl
  | true =>
    obtain ⟨text, htext⟩ := h.exists_textOrType (e := .ofBudget form.size) (Nat.le_refl _) w
    refine ⟨{ w with events := w.events.push (event text) }, rfl, fun n hn => ?_⟩
    have hended : Ended (form.textOrType (.ofBudget form.size) w) := htext ▸ .ok text w
    have hmore := ((Engine.ofBudget_tied hn).textOrType form).run_eq
      (Unrelated.intro : Unrelated w w) hended
    rw [run_bind_ok (run_get w), hlog, if_pos rfl, run_bind_ok (hmore.trans htext)]
    rfl

section
variable {e : Engine} {f : Value → Eval Value} {items : List Value}

theorem Seq.foldWithin_push (he : 0 < e.bound) {k : Nat} (hk : items.length < k)
    (acc : Array Value) :
    (Seq.ofList items).foldWithin e (fun (acc : Array Value) v => return acc.push (← f v)) k acc =
      do return acc ++ (← items.mapM f).toArray := by
  induction items generalizing k acc with
  | nil =>
    obtain ⟨k, rfl⟩ := Nat.exists_eq_succ_of_ne_zero (Nat.ne_of_gt hk)
    have hnone : (Seq.ofList []).uncons e = pure none := Seq.uncons_empty he
    rw [Seq.foldWithin, hnone, pure_bind, List.mapM_nil, pure_bind, Array.append_empty]
  | cons x items ih =>
    obtain ⟨k, rfl⟩ := Nat.exists_eq_succ_of_ne_zero (Nat.ne_of_gt (Nat.zero_lt_of_lt hk))
    have hpush : ∀ y (ys : List Value), acc.push y ++ ys.toArray = acc ++ (y :: ys).toArray := by
      intro y ys
      apply Array.toList_inj.1
      simp
    have hsome : (Seq.ofList (x :: items)).uncons e = pure (some (x, Seq.ofList items)) :=
      Seq.uncons_cons he x (Seq.ofList items)
    rw [Seq.foldWithin, hsome, pure_bind, List.mapM_cons]
    simp only [bind_assoc, pure_bind, ih (Nat.lt_of_succ_lt_succ hk), hpush]

/-- Collecting what a function makes of the elements of a list. -/
theorem Seq.fold_push (he : items.length < e.bound) :
    (Seq.ofList items).fold e (fun (acc : Array Value) v => return acc.push (← f v)) #[] =
      do return (← items.mapM f).toArray := by
  rw [Seq.fold, Seq.foldWithin_push (Nat.zero_lt_of_lt he) he]
  simp only [Array.empty_append]

end

section
variable {scope : Scope} {b : Builtin} {args : List Value}

theorem Engine.value_call {n : Nat} (hn : args.length < n) :
    (Engine.ofBudget (n + 1)).value scope (.list (.builtin b :: args)) = (do
      traced (.ofBudget n) .eval .evaluating (.list (.builtin b :: args))
      let vs ← args.mapM ((Engine.ofBudget n).value scope)
      Core.call (.ofBudget n) scope b vs) := by
  obtain ⟨k, rfl⟩ := Nat.exists_eq_succ_of_ne_zero (Nat.ne_of_gt (Nat.zero_lt_of_lt hn))
  have huncons : (Seq.ofList (.builtin b :: args)).uncons (.ofBudget (k + 1)) =
      pure (some (.builtin b, Seq.ofList args)) := rfl
  have hhead : (Engine.ofBudget (k + 1)).call (.evaluate scope (.builtin b) true) =
      pure (.value (.builtin b)) := rfl
  have hlist : (Engine.ofBudget (k + 1 + 1)).call
      (.evaluate scope (.list (.builtin b :: args)) false) =
      Evaluation.evaluateList (.ofBudget (k + 1)) scope (Seq.ofList (.builtin b :: args)) := rfl
  rw [Engine.value, Engine.evaluate, hlist, Evaluation.evaluateList, huncons, pure_bind]
  dsimp only
  refine (congrArg (· >>= Outcome.toValue) (traced_bind _ .eval .evaluating _ _).symm).trans ?_
  simp only [hhead, bind_assoc, pure_bind, Outcome.toValue]
  rw [Seq.fold_push hn]
  simp only [Evaluation.applyValue, Outcome.toValue, bind_assoc, pure_bind, bind_pure]
  rfl

theorem Engine.value_quoted {n : Nat} (hn : 1 < n) (form : Value) :
    (Engine.ofBudget (n + 1)).value scope (Shorthand.quoted form) = (do
      traced (.ofBudget n) .eval .evaluating (Shorthand.quoted form)
      return form) := by
  obtain ⟨k, rfl⟩ := Nat.exists_eq_add_of_le' hn
  have htail : (Seq.ofList [form]).toList (.ofBudget (k + 2)) = pure [form] := rfl
  have hlist : (Engine.ofBudget (k + 2 + 1)).call (.evaluate scope (Shorthand.quoted form) false) =
      Evaluation.evaluateList (.ofBudget (k + 2)) scope (Seq.ofList [.special .quote, form]) := rfl
  have huncons : (Seq.ofList [.special .quote, form]).uncons (.ofBudget (k + 2)) =
      pure (some (.special .quote, Seq.ofList [form])) := rfl
  rw [Engine.value, Engine.evaluate, hlist, Evaluation.evaluateList, huncons, pure_bind]
  dsimp only
  refine (congrArg (· >>= Outcome.toValue) (traced_bind _ .eval .evaluating _ _).symm).trans ?_
  simp only [htail, bind_assoc, pure_bind]
  rfl

/-- A call of a built-in function evaluates its arguments in order and calls the function. -/
theorem refines_call {plan : Nat → Eval Value} (hplain : (Value.list (.builtin b :: args)).Plain)
    (h : Refines (fun n => args.mapM ((Engine.ofBudget n).value scope) >>=
      Core.call (.ofBudget n) scope b) plan) :
    Refines (fun n => (Engine.ofBudget n).value scope (.list (.builtin b :: args))) plan := by
  refine h.later fun w => ?_
  obtain ⟨v, hv, htraced⟩ := hplain.exists_traced .eval .evaluating w
  refine ⟨v, hv, (Value.list (.builtin b :: args)).size, fun m hm => ?_⟩
  have hlong : args.length < m := by
    have hlen := Value.length_le_sizeAll (.builtin b :: args)
    rw [Value.size_list] at hm
    rw [List.length_cons] at hlen
    omega
  rw [Engine.value_call hlong, run_bind_ok (htraced m hm)]

/-- A call with one argument. -/
theorem refines_call_one {a : Value} {plan : Nat → Eval Value} {f : Nat → Value → Eval Value}
    (hplain : (Value.list [.builtin b, a]).Plain)
    (ha : Refines (fun n => (Engine.ofBudget n).value scope a) plan)
    (hcall : ∀ v, Refines (fun n => Core.call (.ofBudget n) scope b [v]) fun n => f n v) :
    Refines (fun n => (Engine.ofBudget n).value scope (.list [.builtin b, a]))
      fun n => plan n >>= f n := by
  refine refines_call hplain ?_
  simpa only [List.mapM_cons, List.mapM_nil, bind_assoc, pure_bind] using ha.bind hcall

theorem refines_quoted {form : Value} (hplain : form.Plain) :
    Refines (fun n => (Engine.ofBudget n).value scope (Shorthand.quoted form))
      fun _ => pure form := by
  refine (Refines.pure form).later fun w => ?_
  have hquoted : (Shorthand.quoted form).Plain := Shorthand.plain_quoted hplain
  obtain ⟨v, hv, htraced⟩ := hquoted.exists_traced .eval .evaluating w
  refine ⟨v, hv, max 2 (Shorthand.quoted form).size, fun m hm => ?_⟩
  rw [Engine.value_quoted (by omega), run_bind_ok (htraced m (by omega))]

end

end LazyLisp
