import LazyLisp.Proofs.RoundTrip
import LazyLisp.Proofs.Showing

/-!
How forms are written. A form is one token, a mark in front of a form, or forms between a pair of
delimiters. A source that writes one form is read as what the form becomes when its marks are
replaced, and all names in it are known by then.
-/

namespace LazyLisp
set_option autoImplicit false

namespace Reading

/-- A form with marks in front. -/
def withMarks (ms : List Mark) (form : Value) : Value := ms.foldr .marked form

/-- The tokens write the forms; reading them takes one store of names to another. -/
inductive Writes : Names → List TokenKind → List Value → Names → Prop
  | nil {names : Names} : Writes names [] [] names
  | atom {names between after : Names} {kind : TokenKind} {v : Value} {kinds : List TokenKind}
      {vs : List Value} (ms : List Mark) (hkind : isAtomic kind = true)
      (hv : atom kind nowhere names = .ok v between) (hs : Writes between kinds vs after) :
      Writes names (ms.map .mark ++ [kind] ++ kinds) (withMarks ms v :: vs) after
  | collection {names between after : Names} {d : Delimiter} {inner kinds : List TokenKind}
      {items vs : List Value} {v : Value} (ms : List Mark) (h : Writes names inner items between)
      (hv : collection d nowhere items between = .ok v between) (hs : Writes between kinds vs after) :
      Writes names (ms.map .mark ++ (.opening d :: (inner ++ [.closing d])) ++ kinds)
        (withMarks ms v :: vs) after

section
variable {names after : Names} {kinds : List TokenKind} {vs : List Value}

theorem Writes.goesOn (h : Writes names kinds vs after) : ∀ kind ∈ kinds, kind ≠ .ending := by
  have hmarks : ∀ ms : List Mark, ∀ kind ∈ ms.map TokenKind.mark, kind ≠ .ending := fun ms =>
    List.forall_mem_map.2 fun _ _ => TokenKind.noConfusion
  induction h with
  | nil => exact List.forall_mem_nil _
  | atom ms hkind _ _ ih =>
    refine List.forall_mem_append.2 ⟨List.forall_mem_append.2 ⟨hmarks ms, ?_⟩, ih⟩
    refine List.forall_mem_cons.2 ⟨?_, List.forall_mem_nil _⟩
    rintro rfl
    cases hkind
  | collection ms _ _ _ ihitems ih =>
    refine List.forall_mem_append.2 ⟨List.forall_mem_append.2 ⟨hmarks ms, ?_⟩, ih⟩
    refine List.forall_mem_cons.2 ⟨TokenKind.noConfusion, List.forall_mem_append.2 ⟨ihitems, ?_⟩⟩
    exact List.forall_mem_cons.2 ⟨TokenKind.noConfusion, List.forall_mem_nil _⟩

/-! What is written is plain, and its names are in the store. -/

theorem plain_withMarks (ms : List Mark) {form : Value} (h : form.Plain) :
    (withMarks ms form).Plain := by
  induction ms with
  | nil => exact h
  | cons m ms ih => exact .marked m ih

theorem Writes.plain (h : Writes names kinds vs after) : AllPlain vs := by
  induction h with
  | nil => exact .nil
  | atom ms _ hv _ ih => exact .cons (plain_withMarks ms (atom_plain _ _ _ _ _ hv)) ih
  | collection ms _ hv _ ihitems ih =>
    exact .cons (plain_withMarks ms (collection_plain ihitems _ _ _ hv)) ih

theorem spelled_withMarks (ms : List Mark) {form : Value} (h : Spelled names form) :
    Spelled names (withMarks ms form) := by
  induction ms with
  | nil => exact h
  | cons m ms ih => exact spelled_marked.2 ih

theorem Writes.spelled (h : Writes names kinds vs after)
    (hkinds : ∀ kind ∈ kinds, Token.SpelledKind kind) :
    names.Grows after ∧ SpelledAll after vs := by
  induction h with
  | nil => exact ⟨.refl _, .nil⟩
  | atom ms _ hv _ ih =>
    obtain ⟨hfirst, hrest⟩ := List.forall_mem_append.1 hkinds
    have hkind := (List.forall_mem_append.1 hfirst).2 _ List.mem_cons_self
    obtain ⟨hgrows, hspelled⟩ := atom_spelled hkind hv
    obtain ⟨hgrows', hvs⟩ := ih hrest
    exact ⟨hgrows.trans hgrows', .cons ((spelled_withMarks ms hspelled).grows hgrows') hvs⟩
  | collection ms _ hv _ ihitems ih =>
    obtain ⟨hfirst, hrest⟩ := List.forall_mem_append.1 hkinds
    have hclosed := (List.forall_mem_cons.1 (List.forall_mem_append.1 hfirst).2).2
    obtain ⟨hgrows, hitems⟩ := ihitems (List.forall_mem_append.1 hclosed).1
    have hspelled := (collection_spelled hitems hv).2
    obtain ⟨hgrows', hvs⟩ := ih hrest
    exact ⟨hgrows.trans hgrows', .cons ((spelled_withMarks ms hspelled).grows hgrows') hvs⟩

end

theorem Legible.knows {names : Names} {s : Symbol} (h : Legible names (.symbol s)) :
    names.Knows s := by
  obtain ⟨text, c, cs, -, -, hdenotes⟩ := h
  have hspec := (symbolNamed_spec hdenotes).2
  intro hns
  cases hsides : sides? text with
  | some sides =>
    rw [hsides] at hspec
    obtain ⟨i, j, rfl, -⟩ := hspec
    cases hns
  | none =>
    rw [hsides] at hspec
    obtain ⟨i, rfl, hi⟩ := hspec
    exact Names.lt_of_find? hi

/-! Reading what is written. -/

section
variable {names after : Names} {kinds : List TokenKind} {v : Value}

/-- Marks in front are taken by the form behind them. -/
theorem advanceAll_withMarks (ms : List Mark)
    (h : ∀ pending, advanceAll pending nowhere (bareTokens kinds) names = handOver v pending after)
    (pending : List Pending) :
    advanceAll pending nowhere (bareTokens (ms.map .mark ++ kinds)) names =
      handOver (withMarks ms v) pending after := by
  induction ms generalizing pending with
  | nil => exact h pending
  | cons m ms ih =>
    have hadvance : advance pending nowhere ⟨.mark m, nowhere⟩ =
        pure (none, .marked m :: pending, nowhere) := by
      simp [advance]
    have hsplit : bareTokens ((m :: ms).map .mark ++ kinds) =
        ⟨.mark m, nowhere⟩ :: bareTokens (ms.map .mark ++ kinds) := rfl
    rw [hsplit, advanceAll, hadvance, pure_bind]
    exact (congrFun (bind_pure _) names).trans (ih (.marked m :: pending))

/-- The forms are added to an open collection one after the other. -/
theorem Writes.inside {vs : List Value} (h : Writes names kinds vs after) (d : Delimiter)
    (items : List Value) (pending : List Pending) :
    advanceAll (.opened d nowhere items :: pending) nowhere (bareTokens kinds) names =
      .ok ([], .opened d nowhere (vs.reverse ++ items) :: pending, nowhere) after := by
  induction h generalizing d items pending with
  | nil => rfl
  | atom ms hkind hv _ ih =>
    exact advanceAll_inside (advanceAll_withMarks ms (advanceAll_atom hkind hv)) ih d items pending
  | @collection _ _ _ e _ _ _ _ _ ms _ hv _ ihitems ih =>
    have hitems := fun pending => ihitems e [] pending
    simp only [List.append_nil] at hitems
    exact advanceAll_inside (advanceAll_withMarks ms (advanceAll_collection hitems hv)) ih d items
      pending

/-- The tokens of one form hand it over, whatever is open. -/
theorem Writes.one (h : Writes names kinds [v] after) (pending : List Pending) :
    advanceAll pending nowhere (bareTokens kinds) names = handOver v pending after := by
  cases h with
  | atom ms hkind hv hs =>
    cases hs
    rw [List.append_nil]
    exact advanceAll_withMarks ms (advanceAll_atom hkind hv) pending
  | @collection _ _ _ e _ _ _ _ _ ms hitems hv hs =>
    cases hs
    have hitems := fun pending => hitems.inside e [] pending
    simp only [List.append_nil] at hitems ⊢
    exact advanceAll_withMarks ms (advanceAll_collection hitems hv) pending

end

end Reading

/-- The source consists of the form. -/
def Written (source : String) (names : Names) (form : Value) (after : Names) : Prop :=
  ∃ tokens kinds, Token.tokens source = .ok tokens ∧ tokens.map (·.kind) = kinds ++ [.ending] ∧
    Reading.Writes names kinds [form] after

namespace Written
open Reading
variable {source : String} {names after : Names} {form : Value}

theorem plain (h : Written source names form after) : form.Plain := by
  obtain ⟨_, _, -, -, hwrites⟩ := h
  exact hwrites.plain form List.mem_cons_self

theorem spelled (h : Written source names form after) : Spelled after form := by
  obtain ⟨tokens, kinds, htokens, hkinds, hwrites⟩ := h
  refine (hwrites.spelled fun kind hkind => ?_).2 form List.mem_cons_self
  have hmem : kind ∈ tokens.map (·.kind) := hkinds ▸ List.mem_append_left _ hkind
  obtain ⟨t, ht, rfl⟩ := List.mem_map.1 hmem
  exact Token.tokensFrom_spelled htokens t ht

/-- The source is read as what the form becomes. -/
theorem readForms (h : Written source names form after) {code : Value} {st : Shorthand.State}
    (hlower : Shorthand.lower form { names := after } = .ok code st) :
    readForms source names = .ok [code] st.names := by
  obtain ⟨tokens, kinds, htokens, hkinds, hwrites⟩ := h
  exact readForms_of_handOver htokens hkinds hwrites.goesOn (hwrites.one []) hlower

end Written
end LazyLisp
