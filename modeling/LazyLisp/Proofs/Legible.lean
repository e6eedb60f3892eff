import LazyLisp.Proofs.Lines
import LazyLisp.Proofs.Templates

/-!
Everything that is read is spelled: tokens are, and the reader makes its forms of nothing else.
-/

namespace LazyLisp
set_option autoImplicit false

namespace Reading
variable {names later : Names}

/-- The forms that an open collection has so far. -/
def Pending.items : Pending → List Value
  | .opened _ _ items => items
  | .marked _ => []

def SpelledPending (names : Names) (pending : List Pending) : Prop :=
  ∀ p ∈ pending, SpelledAll names p.items

theorem SpelledPending.nil : SpelledPending names [] := by simp [SpelledPending]

theorem spelledPending_cons {p : Pending} {below : List Pending} :
    SpelledPending names (p :: below) ↔ SpelledAll names p.items ∧ SpelledPending names below :=
  List.forall_mem_cons

theorem SpelledPending.grows {pending : List Pending} (h : SpelledPending names pending)
    (hgrows : names.Grows later) : SpelledPending later pending :=
  fun p hp => (h p hp).grows hgrows

theorem atom_spelled {kind : TokenKind} {span : Span} {form : Value}
    (hkind : Token.SpelledKind kind) (h : atom kind span names = .ok form later) :
    names.Grows later ∧ Spelled later form := by
  cases kind with
  | keyword text =>
    obtain ⟨s, between, hs, h⟩ := run_bind_eq_ok.1 h
    cases h
    refine ⟨(symbolNamed_spec hs).1, ?_⟩
    simp only [Spelled, Value.leaves, List.mem_singleton, forall_eq]
    exact ⟨text, hkind, denotes_of_symbolNamed hs⟩
  | symbol text =>
    simp only [atom] at h
    cases hname : SpecialForm.ofName? text with
    | some f =>
      rw [hname] at h
      cases h
      exact ⟨.refl _, spelled_special f⟩
    | none =>
      rw [hname] at h
      obtain ⟨s, between, hs, h⟩ := run_bind_eq_ok.1 h
      cases h
      obtain ⟨c, cs, hword⟩ := hkind
      exact ⟨(symbolNamed_spec hs).1,
        spelled_symbol.2 ⟨text, c, cs, hword, hname, denotes_of_symbolNamed hs⟩⟩
  | pattern source =>
    simp only [atom] at h
    cases hcompile : Pattern.compile source with
    | error e => rw [hcompile] at h; cases h
    | ok p =>
      rw [hcompile] at h
      cases h
      exact ⟨.refl _, by simp [Spelled, Value.leaves, Legible]⟩
  | _ =>
    cases h
    exact ⟨.refl _, by simp [Spelled, Value.leaves, Legible]⟩

theorem collection_spelled {d : Delimiter} {span : Span} {items : List Value} {form : Value}
    (hitems : SpelledAll names items) (h : collection d span items names = .ok form later) :
    names = later ∧ Spelled later form := by
  cases d with
  | paren => cases h; exact ⟨rfl, spelled_list.2 hitems⟩
  | bracket => cases h; exact ⟨rfl, spelled_vector.2 hitems⟩
  | brace =>
    simp only [collection] at h
    split at h
    · cases h
      exact ⟨rfl, spelled_entriesOf hitems⟩
    · cases h

theorem close_spelled {d : Delimiter} {span : Span} {pending below : List Pending} {form : Value}
    (hpending : SpelledPending names pending)
    (h : close d span pending names = .ok (form, below) later) :
    names = later ∧ Spelled later form ∧ SpelledPending later below := by
  cases pending with
  | nil => cases h
  | cons p rest =>
    obtain ⟨hp, hrest⟩ := spelledPending_cons.1 hpending
    cases p with
    | marked m => cases h
    | opened e opened items =>
      simp only [close] at h
      split at h
      · obtain ⟨f, between, hf, h⟩ := run_bind_eq_ok.1 h
        cases h
        have hitems : SpelledAll names items.reverse := fun v hv => hp v (List.mem_reverse.1 hv)
        obtain ⟨rfl, hform⟩ := collection_spelled hitems hf
        exact ⟨rfl, hform, hrest⟩
      · cases h

theorem lowered_spelled {span : Span} {form result : Value} (hform : Spelled names form)
    (h : lowered span form names = .ok result later) :
    names.Grows later ∧ Spelled later result := by
  unfold lowered at h
  have hlower := Shorthand.lower_spelled form names hform { names := names } (.refl _)
    (by simp [Shorthand.FreshSpelled])
  cases hrun : Shorthand.lower form { names := names } with
  | error message st => rw [hrun] at h; cases h
  | ok v st =>
    rw [hrun] at h
    cases h
    exact ⟨(hlower _ _ hrun).1, (hlower _ _ hrun).2.2⟩

theorem deliver_spelled {form : Value} {pending : List Pending} (hform : Spelled names form)
    (hpending : SpelledPending names pending) :
    match deliver form pending with
    | .inl result => Spelled names result
    | .inr pending => SpelledPending names pending := by
  induction pending generalizing form with
  | nil => exact hform
  | cons p below ih =>
    obtain ⟨hp, hbelow⟩ := spelledPending_cons.1 hpending
    cases p with
    | marked m => exact ih (spelled_marked.2 hform) hbelow
    | opened d span items => exact spelledPending_cons.2 ⟨.cons hform hp, hbelow⟩

theorem complete_spelled {form : Value} {pending pending' : List Pending} {start start' : Span}
    {done : Option Value} (hform : Spelled names form) (hpending : SpelledPending names pending)
    (h : complete form pending start names = .ok (done, pending', start') later) :
    names.Grows later ∧ SpelledAll later done.toList ∧ SpelledPending later pending' := by
  have hdeliver := deliver_spelled hform hpending
  unfold complete at h
  cases hd : deliver form pending with
  | inr below =>
    rw [hd] at h hdeliver
    cases h
    exact ⟨.refl _, .nil, hdeliver⟩
  | inl result =>
    rw [hd] at h hdeliver
    obtain ⟨v, between, hv, h⟩ := run_bind_eq_ok.1 h
    cases h
    obtain ⟨hgrows, hresult⟩ := lowered_spelled hdeliver hv
    exact ⟨hgrows, .cons hresult .nil, .nil⟩

/-- Taking a token keeps everything that is open spelled, and so is the form it completes. -/
theorem advance_spelled {pending pending' : List Pending} {start start' : Span} {t : Token}
    {done : Option Value} (hpending : SpelledPending names pending) (ht : Token.SpelledKind t.kind)
    (h : advance pending start t names = .ok (done, pending', start') later) :
    names.Grows later ∧ SpelledAll later done.toList ∧ SpelledPending later pending' := by
  obtain ⟨kind, span⟩ := t
  cases kind with
  | mark m | opening d =>
    cases h
    exact ⟨.refl _, .nil, spelledPending_cons.2 ⟨.nil, hpending⟩⟩
  | closing d =>
    obtain ⟨⟨form, below⟩, between, hclose, h⟩ := run_bind_eq_ok.1 h
    obtain ⟨rfl, hform, hbelow⟩ := close_spelled hpending hclose
    exact complete_spelled hform hbelow h
  | _ =>
    obtain ⟨form, between, hatom, h⟩ := run_bind_eq_ok.1 h
    obtain ⟨hgrows, hform⟩ := atom_spelled ht hatom
    obtain ⟨hgrows', hdone⟩ := complete_spelled hform (hpending.grows hgrows) h
    exact ⟨hgrows.trans hgrows', hdone⟩

theorem forms_spelled {tokens : List Token} {pending : List Pending} {start : Span}
    {done : List Value} (hpending : SpelledPending names pending)
    (htokens : ∀ t ∈ tokens, Token.SpelledKind t.kind)
    (h : forms pending start tokens names = .ok done later) :
    names.Grows later ∧ SpelledAll later done := by
  induction tokens generalizing pending start done names with
  | nil =>
    obtain ⟨_, between, hfinish, hdone⟩ := run_bind_eq_ok.1 h
    obtain ⟨_, rfl⟩ := finish_ok hfinish
    cases hdone
    exact ⟨.refl _, .nil⟩
  | cons t rest ih =>
    obtain ⟨ht, hrest⟩ := List.forall_mem_cons.1 htokens
    by_cases hend : t.kind = .ending
    · obtain ⟨kind, span⟩ := t
      cases hend
      obtain ⟨_, between, hfinish, hdone⟩ := run_bind_eq_ok.1 h
      obtain ⟨_, rfl⟩ := finish_ok hfinish
      cases hdone
      exact ⟨.refl _, .nil⟩
    · rw [forms_cons _ _ hend] at h
      obtain ⟨⟨first, pending', start'⟩, between, hadvance, h⟩ := run_bind_eq_ok.1 h
      obtain ⟨more, after, hmore, h⟩ := run_bind_eq_ok.1 h
      cases h
      obtain ⟨hgrows, hfirst, hpending'⟩ := advance_spelled hpending ht hadvance
      obtain ⟨hgrows', hspelled⟩ := ih hpending' hrest hmore
      refine ⟨hgrows.trans hgrows', ?_⟩
      intro v hv
      rcases List.mem_append.1 hv with hv | hv
      · exact (hfirst v hv).grows hgrows'
      · exact hspelled v hv

end Reading

/-- Whatever is read, its symbols and keywords are spelled so that they read as themselves. -/
theorem readForms_spelled {source : String} {before after : Names} {forms : List Value}
    (h : readForms source before = .ok forms after) :
    before.Grows after ∧ Reading.SpelledAll after forms := by
  obtain ⟨tokens, htokens, hforms⟩ := readForms_eq_ok.1 h
  exact Reading.forms_spelled .nil (Token.tokensFrom_spelled htokens) hforms

end LazyLisp
