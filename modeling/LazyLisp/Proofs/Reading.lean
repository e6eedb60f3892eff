import LazyLisp.Form.Reading
import LazyLisp.Proofs.Lexing
import LazyLisp.Proofs.Running

/-!
The reader one token at a time. A token completes a top-level form or changes what is open, so
reading a text that is continued goes on from what its first part left.
-/

namespace LazyLisp.Reading
set_option autoImplicit false

/-- Hands over a complete form; one that nothing awaits is a top-level form. -/
def complete (form : Value) (pending : List Pending) (start : Span) :
    Reading (Option Value × List Pending × Span) :=
  match deliver form pending with
  | .inr pending => return (none, pending, start)
  | .inl form => return (some (← lowered start form), [], start)

/-- Takes one token: the top-level form that it completes, if any, what is open behind it, and the
span of the first token of the current top-level form. -/
def advance (pending : List Pending) (start : Span) (t : Token) :
    Reading (Option Value × List Pending × Span) :=
  let first := if pending.isEmpty then t.span else start
  match t.kind with
  | .mark m => return (none, .marked m :: pending, first)
  | .opening d => return (none, .opened d t.span [] :: pending, first)
  | .closing d => do
    let (form, below) ← close d t.span pending
    complete form below start
  | kind => do
    let form ← atom kind t.span
    complete form pending first

theorem forms_cons (pending : List Pending) (start : Span) {t : Token} (ht : t.kind ≠ .ending)
    (rest : List Token) :
    forms pending start (t :: rest) = do
      let (form, pending, start) ← advance pending start t
      return form.toList ++ (← forms pending start rest) := by
  obtain ⟨kind, span⟩ := t
  cases kind with
  | ending => exact absurd rfl ht
  | mark m => simp [forms, advance]
  | opening d => simp [forms, advance]
  | closing d =>
    simp only [forms, advance, complete, bind_assoc]
    congr 1
    funext x
    obtain ⟨form, below⟩ := x
    cases deliver form below <;> simp
  | _ =>
    simp only [forms, advance, complete, bind_assoc]
    congr 1
    funext form
    cases deliver form pending <;> simp

/-- Takes tokens one after the other. -/
def advanceAll (pending : List Pending) (start : Span) :
    List Token → Reading (List Value × List Pending × Span)
  | [] => return ([], pending, start)
  | t :: rest => do
    let (form, pending, start) ← advance pending start t
    let (more, pending, start) ← advanceAll pending start rest
    return (form.toList ++ more, pending, start)

/-- Reading goes on from what the tokens in front left open. -/
theorem forms_append (pending : List Pending) (start : Span) {front : List Token}
    (hfront : ∀ t ∈ front, t.kind ≠ .ending) (rest : List Token) :
    forms pending start (front ++ rest) = do
      let (done, pending, start) ← advanceAll pending start front
      return done ++ (← forms pending start rest) := by
  induction front generalizing pending start with
  | nil => simp [advanceAll]
  | cons t front ih =>
    have ht := hfront t List.mem_cons_self
    have hmore := fun u hu => hfront u (List.mem_cons_of_mem t hu)
    simp only [List.cons_append, forms_cons _ _ ht, advanceAll, ih _ _ hmore, bind_assoc, pure_bind,
      List.append_assoc]

theorem forms_ending (pending : List Pending) (start last : Span) :
    forms pending start [⟨.ending, last⟩] = do
      finish pending last
      return [] := by
  simp [forms]

/-- Whatever is open when the tokens end, more tokens could close it. -/
theorem finish_error {pending : List Pending} {span : Span} {names after : Names} {e : ParseError}
    (h : finish pending span names = .error e after) : e.incomplete = true := by
  cases pending with
  | nil => cases h
  | cons p below => cases p <;> cases h <;> rfl

theorem finish_ok {pending : List Pending} {span : Span} {names after : Names}
    (h : finish pending span names = .ok () after) : pending = [] ∧ after = names := by
  cases pending with
  | nil => cases h; exact ⟨rfl, rfl⟩
  | cons p below => cases p <;> cases h

/-- All tokens made forms and nothing stayed open. -/
theorem advanceAll_of_forms_ok {front : List Token} {start last : Span} {names after : Names}
    {done : List Value} (hfront : ∀ t ∈ front, t.kind ≠ .ending)
    (h : forms [] start (front ++ [⟨.ending, last⟩]) names = .ok done after) :
    ∃ next, advanceAll [] start front names = .ok (done, [], next) after := by
  rw [forms_append _ _ hfront, run_bind_eq_ok] at h
  obtain ⟨⟨made, pending, next⟩, between, hrun, h⟩ := h
  dsimp only at h
  rw [forms_ending, bind_assoc, run_bind_eq_ok] at h
  obtain ⟨_, _, hfinish, h⟩ := h
  obtain ⟨rfl, rfl⟩ := finish_ok hfinish
  simp only [pure_bind, run_pure, List.append_nil, EStateM.Result.ok.injEq] at h
  obtain ⟨rfl, rfl⟩ := h
  exact ⟨next, hrun⟩

/-- A failure that more tokens cannot mend happened before the tokens ended. -/
theorem advanceAll_of_forms_error {front : List Token} {start last : Span} {names after : Names}
    {e : ParseError} (hfront : ∀ t ∈ front, t.kind ≠ .ending)
    (h : forms [] start (front ++ [⟨.ending, last⟩]) names = .error e after)
    (he : e.incomplete = false) : advanceAll [] start front names = .error e after := by
  rw [forms_append _ _ hfront, run_bind_eq_error] at h
  rcases h with h | ⟨⟨made, pending, next⟩, between, hrun, h⟩
  · exact h
  · dsimp only at h
    rw [forms_ending, bind_assoc, run_bind_eq_error] at h
    rcases h with h | ⟨_, _, _, h⟩
    · rw [finish_error h] at he
      cases he
    · cases h

/-! Spans are carried along and decide nothing: without them the reader does the same. -/

def nowhere : Span := ⟨0, 0, 0, 0⟩

def Pending.bare : Pending → Pending
  | .opened d _ items => .opened d nowhere items
  | .marked m => .marked m

def bareToken (t : Token) : Token := ⟨t.kind, nowhere⟩

/-- A result with its spans taken out. -/
def bare {α β : Type} (f : α → β) : EStateM.Result ParseError Names α →
    EStateM.Result ParseError Names β
  | .ok a names => .ok (f a) names
  | .error e names => .error { e with span := nowhere } names

theorem bare_bind {α α' β β' : Type} {f : α → α'} {g : β → β'} {m : Reading α} {m' : Reading α'}
    {k : α → Reading β} {k' : α' → Reading β'} {names : Names}
    (hm : bare f (m names) = m' names)
    (hk : ∀ a names, bare g (k a names) = k' (f a) names) :
    bare g ((m >>= k) names) = (m' >>= k') names := by
  rw [run_bind, run_bind, ← hm]
  cases m names with
  | ok a after => exact hk a after
  | error e after => rfl

theorem bare_deliver (form : Value) (pending : List Pending) :
    deliver form (pending.map Pending.bare) =
      (deliver form pending).map id (List.map Pending.bare) := by
  induction pending generalizing form with
  | nil => rfl
  | cons p below ih =>
    cases p with
    | opened d span items => rfl
    | marked m => exact ih (.marked m form)

theorem bare_lowered (span : Span) (form : Value) (names : Names) :
    bare id (lowered span form names) = lowered nowhere form names := by
  unfold lowered
  cases Shorthand.lower form { names := names } <;> rfl

@[simp] theorem run_intern (text : String) (names : Names) :
    intern text names = .ok (names.intern text).1 (names.intern text).2 := rfl

theorem symbolNamed_ok (text : String) (names : Names) :
    ∃ s after, symbolNamed text names = .ok s after := by
  unfold symbolNamed
  rcases Text.splitAtFirst (· == '/') text.toList with _ | ⟨_ | ⟨a, as⟩, _ | ⟨b, bs⟩⟩
  all_goals exact ⟨_, _, rfl⟩

theorem bare_symbolNamed (text : String) (names : Names) :
    bare id (symbolNamed text names) = symbolNamed text names := by
  obtain ⟨s, after, h⟩ := symbolNamed_ok text names
  rw [h]
  rfl

theorem bare_atom (kind : TokenKind) (span : Span) (names : Names) :
    bare id (atom kind span names) = atom kind nowhere names := by
  cases kind with
  | keyword text => exact bare_bind (bare_symbolNamed text names) fun _ _ => rfl
  | symbol text =>
    simp only [atom]
    cases SpecialForm.ofName? text with
    | some f => rfl
    | none => exact bare_bind (bare_symbolNamed text names) fun _ _ => rfl
  | pattern source =>
    simp only [atom]
    cases Pattern.compile source <;> rfl
  | _ => rfl

theorem bare_finish (pending : List Pending) (span : Span) (names : Names) :
    bare id (finish pending span names) = finish (pending.map Pending.bare) nowhere names := by
  cases pending with
  | nil => rfl
  | cons p below => cases p <;> rfl

theorem bare_collection (d : Delimiter) (span : Span) (items : List Value) (names : Names) :
    bare id (collection d span items names) = collection d nowhere items names := by
  cases d with
  | brace => unfold collection; dsimp only; split <;> rfl
  | _ => rfl

theorem bare_close (d : Delimiter) (span : Span) (pending : List Pending) (names : Names) :
    bare (fun r => (r.1, r.2.map Pending.bare)) (close d span pending names) =
      close d nowhere (pending.map Pending.bare) names := by
  cases pending with
  | nil => rfl
  | cons p below =>
    cases p with
    | marked m => rfl
    | opened e opened items =>
      simp only [close, List.map_cons, Pending.bare]
      split
      · exact bare_bind (bare_collection d opened items.reverse names) fun _ _ => rfl
      · rfl

/-- What is open and where the current form starts, spans taken out. -/
def bareState (r : Option Value × List Pending × Span) : Option Value × List Pending × Span :=
  (r.1, r.2.1.map Pending.bare, nowhere)

theorem bare_complete (form : Value) (pending : List Pending) (start : Span) (names : Names) :
    bare bareState (complete form pending start names) =
      complete form (pending.map Pending.bare) nowhere names := by
  unfold complete
  rw [bare_deliver]
  cases deliver form pending with
  | inr below => rfl
  | inl form => exact bare_bind (bare_lowered start form names) fun _ _ => rfl

theorem bare_advance (pending : List Pending) (start : Span) (t : Token) (names : Names) :
    bare bareState (advance pending start t names) =
      advance (pending.map Pending.bare) nowhere (bareToken t) names := by
  obtain ⟨kind, span⟩ := t
  have hfirst : (if (pending.map Pending.bare).isEmpty then nowhere else nowhere) = nowhere := by
    split <;> rfl
  cases kind with
  | mark | opening => simp [advance, bare, bareState, bareToken, Pending.bare]
  | closing d =>
    exact bare_bind (bare_close d span pending names) fun r names =>
      bare_complete r.1 r.2 start names
  | _ =>
    refine bare_bind (bare_atom _ span names) fun form names => ?_
    simp only [bareToken, hfirst]
    exact bare_complete form pending _ names

theorem bare_forms (pending : List Pending) (start : Span) (tokens : List Token) (names : Names) :
    bare id (forms pending start tokens names) =
      forms (pending.map Pending.bare) nowhere (tokens.map bareToken) names := by
  induction tokens generalizing pending start names with
  | nil => exact bare_bind (bare_finish pending start names) fun _ _ => rfl
  | cons t rest ih =>
    by_cases ht : t.kind = .ending
    · obtain ⟨kind, span⟩ := t
      cases ht
      exact bare_bind (bare_finish pending span names) fun _ _ => rfl
    · rw [List.map_cons, forms_cons _ _ ht, forms_cons _ _ (t := bareToken t) ht]
      refine bare_bind (bare_advance pending start t names) fun r names => ?_
      exact bare_bind (ih r.2.1 r.2.2 names) fun _ _ => rfl

/-- Two lists of tokens that differ in their spans alone make the same forms, or fail with the
same words. -/
theorem forms_congr (start start' : Span) {tokens tokens' : List Token}
    (h : tokens.map (·.kind) = tokens'.map (·.kind)) (names : Names) :
    bare id (forms [] start tokens names) = bare id (forms [] start' tokens' names) := by
  have hbare : ∀ ts : List Token, ts.map bareToken = (ts.map (·.kind)).map (⟨·, nowhere⟩) := by
    intro ts
    rw [List.map_map]
    rfl
  rw [bare_forms, bare_forms, hbare, hbare, h]

end LazyLisp.Reading
