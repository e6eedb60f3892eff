import LazyLisp.Proofs.Reading
import LazyLisp.Repl
import Mathlib

/-!
Reading a source line by line. A source that reads, or that fails for good, does so whatever lines
follow it; so a loop that waits for more lines only while its text is incomplete loses nothing.
-/

namespace LazyLisp
set_option autoImplicit false

/-- What a read error says, its place aside: its kind, its words, and whether more text could
complete the source. -/
def ReadError.wording (e : ReadError) : String × String × Bool :=
  (e.parts.1, e.parts.2.2.2, e.incomplete)

theorem toList_line (line more : String) :
    (line ++ "\n" ++ more).toList = line.toList ++ '\n' :: more.toList := by
  simp

theorem ok_of_bare {α : Type} {r r' : EStateM.Result ParseError Names α} {a : α} {names : Names}
    (h : Reading.bare id r = Reading.bare id r') (hr : r' = .ok a names) : r = .ok a names := by
  subst hr
  cases r <;> simp_all [Reading.bare]

theorem error_of_bare {α : Type} {r r' : EStateM.Result ParseError Names α} {e : ParseError}
    {names : Names} (h : Reading.bare id r = Reading.bare id r') (hr : r' = .error e names) :
    ∃ e', r = .error e' names ∧ e'.message = e.message ∧ e'.incomplete = e.incomplete := by
  subst hr
  cases r <;> simp_all [Reading.bare]

theorem tokensFrom_ok (place : Place) {text : List Char} {tokens : List Token}
    (h : Token.tokensFrom {} text = .ok tokens) :
    ∃ tokens', Token.tokensFrom place text = .ok tokens' ∧
      tokens'.map (·.kind) = tokens.map (·.kind) := by
  have hout := Token.outline_tokensFrom place {} text
  rw [h] at hout
  cases hp : Token.tokensFrom place text <;> simp_all [Token.outline]

theorem tokensFrom_error (place : Place) {text : List Char} {e : LexError}
    (h : Token.tokensFrom {} text = .error e) :
    ∃ e', Token.tokensFrom place text = .error e' ∧ e'.message = e.message ∧
      e'.incomplete = e.incomplete := by
  have hout := Token.outline_tokensFrom place {} text
  rw [h] at hout
  cases hp : Token.tokensFrom place text <;> simp_all [Token.outline]

/-- The span that reading starts with. -/
def origin : Span := ⟨0, 0, 1, 1⟩

theorem readForms_eq_ok {source : String} {names after : Names} {forms : List Value} :
    readForms source names = .ok forms after ↔
      ∃ tokens, Token.tokensFrom {} source.toList = .ok tokens ∧
        Reading.forms [] origin tokens names = .ok forms after := by
  unfold readForms Token.tokens
  cases Token.tokensFrom {} source.toList with
  | error e => simp
  | ok tokens =>
    rw [show (⟨0, 0, 1, 1⟩ : Span) = origin from rfl]
    cases hf : Reading.forms [] origin tokens names <;> simp [hf]

theorem readForms_eq_error {source : String} {names after : Names} {e : ReadError} :
    readForms source names = .error e after ↔
      (∃ l, Token.tokensFrom {} source.toList = .error l ∧ e = .lex l ∧ after = names) ∨
      ∃ tokens p, Token.tokensFrom {} source.toList = .ok tokens ∧
        Reading.forms [] origin tokens names = .error p after ∧ e = .parse p := by
  unfold readForms Token.tokens
  cases Token.tokensFrom {} source.toList with
  | error l => simp [eq_comm]
  | ok tokens =>
    rw [show (⟨0, 0, 1, 1⟩ : Span) = origin from rfl]
    cases hf : Reading.forms [] origin tokens names <;> simp [hf, eq_comm, and_comm]

/-- The tokens of a source that reads, and how reading goes on behind them. -/
theorem readForms_line_cut {line : String} {names after : Names} {forms : List Value}
    (h : readForms line names = .ok forms after) (more : String) :
    ∃ front place next, (∀ t ∈ front, t.kind ≠ .ending) ∧
      Token.tokensFrom {} (line ++ "\n" ++ more).toList =
        (Token.tokensFrom place more.toList).map (front ++ ·) ∧
      Reading.advanceAll [] origin front names = .ok (forms, [], next) after := by
  obtain ⟨tokens, hline, hforms⟩ := readForms_eq_ok.1 h
  obtain ⟨front, last, rfl, hfront, hcut⟩ := Token.tokensFrom_line_ok hline more.toList
  obtain ⟨next, hnext⟩ := Reading.advanceAll_of_forms_ok hfront hforms
  rw [← toList_line] at hcut
  exact ⟨front, _, next, hfront, hcut, hnext⟩

/-- Lines that follow a source are read as they are on their own, from the names it left. -/
theorem readForms_line_ok {line more : String} {names after final : Names}
    {forms rest : List Value} (h : readForms line names = .ok forms after)
    (hmore : readForms more after = .ok rest final) :
    readForms (line ++ "\n" ++ more) names = .ok (forms ++ rest) final := by
  obtain ⟨front, place, next, hfront, hcut, hnext⟩ := readForms_line_cut h more
  obtain ⟨tokens, htokens, hforms⟩ := readForms_eq_ok.1 hmore
  obtain ⟨tokens', htokens', hkinds⟩ := tokensFrom_ok place htokens
  have hsame := Reading.forms_congr next origin hkinds after
  rw [htokens'] at hcut
  refine readForms_eq_ok.2 ⟨_, hcut, ?_⟩
  rw [Reading.forms_append _ _ hfront, run_bind_ok hnext]
  dsimp only
  rw [run_bind_ok (ok_of_bare hsame hforms), run_pure]

/-- Lines that do not read on their own do not read behind a source, for the same reason. -/
theorem readForms_line_fail {line more : String} {names after final : Names}
    {forms : List Value} {e : ReadError} (h : readForms line names = .ok forms after)
    (hmore : readForms more after = .error e final) :
    ∃ e' final', readForms (line ++ "\n" ++ more) names = .error e' final' ∧
      e'.wording = e.wording := by
  obtain ⟨front, place, next, hfront, hcut, hnext⟩ := readForms_line_cut h more
  rcases readForms_eq_error.1 hmore with ⟨l, hlex, rfl, rfl⟩ | ⟨tokens, p, htokens, hforms, rfl⟩
  · obtain ⟨l', hlex', hmessage, hincomplete⟩ := tokensFrom_error place hlex
    rw [hlex'] at hcut
    refine ⟨.lex l', names, readForms_eq_error.2 (.inl ⟨l', hcut, rfl, rfl⟩), ?_⟩
    simp only [ReadError.wording, ReadError.parts, ReadError.incomplete, hmessage, hincomplete]
  · obtain ⟨tokens', htokens', hkinds⟩ := tokensFrom_ok place htokens
    have hsame := Reading.forms_congr next origin hkinds after
    obtain ⟨p', hforms', hmessage, hincomplete⟩ := error_of_bare hsame hforms
    rw [htokens'] at hcut
    refine ⟨.parse p', final, readForms_eq_error.2 (.inr ⟨_, p', hcut, ?_, rfl⟩), ?_⟩
    · rw [Reading.forms_append _ _ hfront, run_bind_ok hnext]
      dsimp only
      rw [run_bind_error hforms']
    · simp only [ReadError.wording, ReadError.parts, ReadError.incomplete, hmessage, hincomplete]

/-- A source that fails for good fails whatever lines follow it. -/
theorem readForms_line_error {line : String} {names after : Names} {e : ReadError}
    (h : readForms line names = .error e after) (he : e.incomplete = false) (more : String) :
    ∃ e' final, readForms (line ++ "\n" ++ more) names = .error e' final := by
  rcases readForms_eq_error.1 h with ⟨l, hlex, rfl, rfl⟩ | ⟨tokens, p, htokens, hforms, rfl⟩
  · have hcut := Token.tokensFrom_line_error hlex he more.toList
    rw [← toList_line] at hcut
    exact ⟨_, _, readForms_eq_error.2 (.inl ⟨l, hcut, rfl, rfl⟩)⟩
  · obtain ⟨front, last, rfl, hfront, hcut⟩ := Token.tokensFrom_line_ok htokens more.toList
    have hrun := Reading.advanceAll_of_forms_error hfront hforms he
    rw [← toList_line] at hcut
    cases hm : Token.tokensFrom (Place.after {} (line.toList ++ ['\n'])) more.toList with
    | error l =>
      rw [hm] at hcut
      exact ⟨_, _, readForms_eq_error.2 (.inl ⟨l, hcut, rfl, rfl⟩)⟩
    | ok rest =>
      rw [hm] at hcut
      refine ⟨.parse p, after, readForms_eq_error.2 (.inr ⟨_, p, hcut, ?_, rfl⟩)⟩
      rw [Reading.forms_append _ _ hfront, run_bind_error hrun]

/-- A source that reads once lines are added either reads already or is incomplete. -/
theorem readForms_of_line_ok {line more : String} {names final : Names} {forms : List Value}
    (h : readForms (line ++ "\n" ++ more) names = .ok forms final) :
    (∃ front after, readForms line names = .ok front after) ∨
      ∃ e after, readForms line names = .error e after ∧ e.incomplete = true := by
  cases hline : readForms line names with
  | ok front after => exact .inl ⟨front, after, rfl⟩
  | error e after =>
    cases he : e.incomplete with
    | true => exact .inr ⟨e, after, rfl, he⟩
    | false =>
      obtain ⟨e', final', hfail⟩ := readForms_line_error hline he more
      rw [hfail] at h
      cases h

namespace Repl

/-- The text that the loop reads when it takes a line, absent if the line is blank or a command. -/
def source? (r : Repl) (line : String) : Option String :=
  match r.pending with
  | some text => some (text ++ "\n" ++ line)
  | none =>
    if (Text.trim line).isEmpty || (Command.parse? line).isSome then none else some line

theorem readSource_error (e : Engine) {text : String} {w : World} {err : ReadError} {names : Names}
    (h : readForms text w.names = .error err names) :
    Core.readSource e text w = .ok (.error err) { w with names := names } := by
  unfold Core.readSource
  simp only [run_bind, run_modifyGet, run_get, h]
  split <;> rfl

theorem read_error (e : Engine) {text : String} {w : World} {err : ReadError} {names : Names}
    (h : readForms text w.names = .error err names) :
    Session.read e text w = .error (.read err) { w with names := names } := by
  unfold Session.read
  rw [run_bind_ok (a := .error err) (t := { w with names := names })]
  · rfl
  · rw [Session.ofEval, readSource_error e h]

/-- An incomplete text is kept for the next line. -/
theorem feed_of_incomplete (e : Engine) {r : Repl} {line text : String} {err : ReadError}
    {names : Names} (hsource : r.source? line = some text)
    (h : readForms text r.world.names = .error err names) (herr : err.incomplete = true) :
    (feed e r line).2.pending = some text := by
  unfold source? at hsource
  unfold feed
  cases hp : r.pending with
  | some front =>
    simp only [hp, Option.some.injEq] at hsource ⊢
    rw [hsource, read_error e h]
    simp [Failure.incomplete, herr]
  | none =>
    simp only [hp] at hsource ⊢
    split at hsource
    · cases hsource
    · rename_i hcode
      cases hsource
      simp only [Bool.or_eq_true, not_or, Bool.not_eq_true, Option.isSome_eq_false_iff,
        Option.isNone_iff_eq_none] at hcode
      simp only [hcode.1, hcode.2, read_error e h]
      simp [Failure.incomplete, herr]

end Repl

/-- Reading is compositional at line breaks. One order of map entries is fixed for all the readings
compared, that in which keys were first put: fresh names are given out by it where a template is
lowered, so hashers that choose different orders would give them out differently. -/
theorem readForms_lines (line more : String) (names : Names) :
    (∀ forms after, readForms line names = .ok forms after →
      (∀ rest final, readForms (line ++ "\n" ++ more) names = .ok (forms ++ rest) final ↔
        readForms more after = .ok rest final) ∧
      (∀ e final, readForms more after = .error e final →
        ∃ e' final', readForms (line ++ "\n" ++ more) names = .error e' final' ∧
          e'.wording = e.wording)) ∧
    (∀ e after, readForms line names = .error e after → e.incomplete = false →
      ∃ e' final, readForms (line ++ "\n" ++ more) names = .error e' final) ∧
    (∀ (engine : Engine) (r : Repl) (input : String) forms final, r.world.names = names →
      r.source? input = some line → readForms (line ++ "\n" ++ more) names = .ok forms final →
      (∃ front after, readForms line names = .ok front after) ∨
        (r.feed engine input).2.pending = some line) := by
  refine ⟨?_, ?_, ?_⟩
  · intro forms after h
    refine ⟨fun rest final => ⟨fun hwhole => ?_, readForms_line_ok h⟩,
      fun e final => readForms_line_fail h⟩
    cases hmore : readForms more after with
    | ok rest' final' =>
      rw [readForms_line_ok h hmore] at hwhole
      simpa using hwhole
    | error e final' =>
      obtain ⟨e', final'', hfail, _⟩ := readForms_line_fail h hmore
      rw [hfail] at hwhole
      cases hwhole
  · intro e after h he
    exact readForms_line_error h he more
  · rintro engine r input forms final rfl hsource hwhole
    rcases readForms_of_line_ok hwhole with hok | ⟨e, after, herror, he⟩
    · exact .inl hok
    · exact .inr (Repl.feed_of_incomplete engine hsource herror he)

/-- A comment is cut off by the line break, a stray delimiter stays one, and the loop keeps an open
list. -/
theorem readForms_lines_comment_stray_open :
    readForms ("a ; note" ++ "\n" ++ ":b") Names.initial =
      .ok ([.symbol (.plain 7)] ++ [.keyword (.plain 8)])
        (Names.initial.internAll ["a", "b"]) ∧
    (∃ e final, readForms (")" ++ "\n" ++ ":b") Names.initial = .error e final) ∧
    ∀ engine, ((⟨{}, none⟩ : Repl).feed engine "(a").2.pending = some "(a" := by
  refine ⟨?_, ?_, fun engine => ?_⟩
  · have hline : readForms "a ; note" Names.initial =
        .ok [.symbol (.plain 7)] (Names.initial.internAll ["a"]) := by cbv
    have hmore : readForms ":b" (Names.initial.internAll ["a"]) =
        .ok [.keyword (.plain 8)] (Names.initial.internAll ["a", "b"]) := by cbv
    exact (((readForms_lines _ _ _).1 _ _ hline).1 _ _).2 hmore
  · have hline : readForms ")" Names.initial =
        .error (.parse { message := "Unexpected ')'", span := ⟨0, 1, 1, 1⟩ }) Names.initial := by cbv
    exact (readForms_lines _ _ _).2.1 _ _ hline rfl
  · have hline : readForms "(a" Names.initial =
        .error (.parse ⟨"Expected ')' before end of input", ⟨0, 1, 1, 1⟩, true⟩)
          (Names.initial.internAll ["a"]) := by cbv
    have hwhole : readForms ("(a" ++ "\n" ++ ")") Names.initial =
        .ok [.list [.symbol (.plain 7)]] (Names.initial.internAll ["a"]) := by cbv
    have hsource : (⟨{}, none⟩ : Repl).source? "(a" = some "(a" := by decide
    rcases (readForms_lines _ _ _).2.2 engine ⟨{}, none⟩ _ _ _ rfl hsource hwhole with
      ⟨front, after, hok⟩ | hkept
    · rw [hline] at hok
      cases hok
    · exact hkept

end LazyLisp
