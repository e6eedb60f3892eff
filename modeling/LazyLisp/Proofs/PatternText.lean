import LazyLisp.Proofs.Pointing
import LazyLisp.Proofs.RoundTrip

/-!
Regular expressions as text. The reader takes the escapes of a literal apart, and the printer puts
the pattern between quotes as it is. A pattern without a quote prints as a literal that reads as it;
of one with a quote the literal ends too early, so that nothing reads as it.
-/

namespace LazyLisp
set_option autoImplicit false

namespace Token

/-- Patterns have no escaped quotes: the reader makes them plain ones. -/
def PatternCode (code : Char) : Prop := code ≠ '"'

theorem Enclosed.quote_not_mem {cs : List Char} (h : Enclosed PatternCode cs) : '"' ∉ cs := by
  induction h with
  | nil => exact List.not_mem_nil
  | plain hquote hslash _ ih => exact List.not_mem_cons_of_ne_of_not_mem (Ne.symm hquote) ih
  | escape hcode _ ih =>
    exact List.not_mem_cons_of_ne_of_not_mem (by decide)
      (List.not_mem_cons_of_ne_of_not_mem (Ne.symm hcode) ih)

/-- The content ends at the first quote, and is taken as it is. -/
theorem patternBody_enclosed {body : List Char} (h : Enclosed PatternCode body) (read : Nat)
    (rest : List Char) :
    patternBody read (body ++ '"' :: rest) = .ok (body, read + body.length + 1) := by
  induction h generalizing read with
  | nil => rfl
  | plain hquote hslash _ ih =>
    rw [List.cons_append, patternBody_plain read hquote hslash, ih]
    simp [Except.map]
    omega
  | escape hcode _ ih =>
    rw [List.cons_append, List.cons_append, patternBody, ih]
    simp [Except.map, if_neg hcode]
    omega

/-- What the reader makes of a literal either could stand in one, or does so up to a quote. -/
theorem enclosed_of_patternBody {read n : Nat} {cs s : List Char}
    (h : patternBody read cs = .ok (s, n)) :
    Enclosed PatternCode s ∨
      ∃ front back, Enclosed PatternCode front ∧ s = front ++ '"' :: back := by
  fun_induction patternBody read cs generalizing s n with
  | case1 | case3 => cases h
  | case2 => cases h; exact .inl .nil
  | case4 read code cs ih =>
    obtain ⟨⟨t, m⟩, hb, heq⟩ := map_eq_ok.1 h
    cases heq
    by_cases hcode : code = '"'
    · rw [if_pos hcode]
      exact .inr ⟨[], t, .nil, rfl⟩
    · rw [if_neg hcode]
      obtain ht | ⟨front, back, hfront, rfl⟩ := ih hb
      · exact .inl (.escape hcode ht)
      · exact .inr ⟨'\\' :: code :: front, back, .escape hcode hfront, rfl⟩
  | case5 read c cs hq hend hcode ih =>
    obtain ⟨⟨t, m⟩, hb, heq⟩ := map_eq_ok.1 h
    cases heq
    have hslash : c ≠ '\\' := by cases cs <;> grind
    obtain ht | ⟨front, back, hfront, rfl⟩ := ih hb
    · exact .inl (.plain hq hslash ht)
    · exact .inr ⟨c :: front, back, .plain hq hslash hfront, rfl⟩

theorem scan_pattern (cs : List Char) :
    scan '#' ('"' :: cs) =
      (patternBody 1 cs).map fun (s, n) => (.pattern (String.ofList s), n) := rfl

/-- The first token of a text that starts as a pattern does. -/
theorem tokens_pattern {cs : List Char} {ts : List Token}
    (h : tokensFrom {} ('#' :: '"' :: cs) = .ok ts) :
    ∃ s n span more, patternBody 1 cs = .ok (s, n) ∧
      ts = ⟨.pattern (String.ofList s), span⟩ :: more := by
  have hgap : gap false ('#' :: '"' :: cs) = 0 := gap_eq_zero (by decide) (by decide) _
  rw [tokensFrom_eq, hgap, List.drop_zero, tokensAt, scan_pattern] at h
  cases hbody : patternBody 1 cs with
  | error f =>
    rw [hbody] at h
    cases h
  | ok r =>
    rw [hbody] at h
    obtain ⟨more, -, rfl⟩ := map_eq_ok.1 h
    exact ⟨r.1, r.2, _, more, rfl, rfl⟩

end Token

/-- The first form of a text that starts as a pattern does. -/
theorem readForms_pattern {cs : List Char} {names after : Names} {forms : List Value}
    (h : readForms (String.ofList ('#' :: '"' :: cs)) names = .ok forms after) :
    ∃ s n more regex, Token.patternBody 1 cs = .ok (s, n) ∧
      Pattern.compile (String.ofList s) = .ok regex ∧
      forms = .pattern (String.ofList s) :: more := by
  obtain ⟨tokens, htokens, hforms⟩ := readForms_eq_ok.1 h
  rw [String.toList_ofList] at htokens
  obtain ⟨s, n, span, rest, hbody, rfl⟩ := Token.tokens_pattern htokens
  refine ⟨s, n, ?_⟩
  simp only [Reading.forms, Reading.atom] at hforms
  cases hcompile : Pattern.compile (String.ofList s) with
  | error e =>
    rw [hcompile] at hforms
    cases hforms
  | ok regex =>
    simp only [hcompile, pure_bind, Reading.deliver] at hforms
    obtain ⟨form, names, hlowered, hrest⟩ := run_bind_eq_ok.1 hforms
    obtain ⟨more, _, -, hpure⟩ := run_bind_eq_ok.1 hrest
    cases hlowered
    cases hpure
    exact ⟨more, regex, hbody, rfl, rfl⟩

/-- Between quotes, a pattern that compiles and could stand in a literal reads as itself. -/
theorem readForms_enclosed {s : List Char} (hs : Token.Enclosed Token.PatternCode s)
    {regex : Pattern.Program} (hcompile : Pattern.compile (String.ofList s) = .ok regex)
    (names : Names) :
    readForms (String.ofList ('#' :: '"' :: (s ++ ['"']))) names =
      .ok [.pattern (String.ofList s)] names := by
  have hscan : Token.scan '#' ('"' :: (s ++ ['"'])) =
      .ok (.pattern (String.ofList s), ('"' :: (s ++ ['"'])).length) := by
    rw [Token.scan_pattern, Token.patternBody_enclosed hs]
    simp [Except.map]
    omega
  have hatom : Reading.atom (.pattern (String.ofList s)) Reading.nowhere names =
      .ok (.pattern (String.ofList s)) names := by
    rw [Reading.atom, hcompile]
    rfl
  exact readForms_of_reads
    (Reading.reads_atom rfl (Token.lexes_of_scan (by decide) (by decide) hscan) hatom)
    (Shorthand.lower_bare (.atom rfl))

/-- Behind a quote in a pattern its literal has ended: what it reads as is another pattern. -/
theorem form_of_readForms_quote {front back : List Char}
    (hfront : Token.Enclosed Token.PatternCode front) {names after : Names} {form : Value}
    (h : readForms (String.ofList ('#' :: '"' :: (front ++ '"' :: back))) names =
      .ok [form] after) :
    form = .pattern (String.ofList front) := by
  obtain ⟨s, n, more, regex, hbody, -, hforms⟩ := readForms_pattern h
  rw [Token.patternBody_enclosed hfront] at hbody
  cases hbody
  exact (List.cons.inj hforms).1

section
variable {e : Engine} (he : 0 < e.bound) (w : World)
include he

theorem pattern_text (p : String) :
    (Value.pattern p).text e .readable w = .ok ("#\"" ++ p ++ "\"") w := by
  rw [Value.text, ← Nat.succ_pred he.ne']
  rfl

theorem pattern_equal (p q : String) :
    (Value.pattern p).equal e (.pattern q) w = .ok (p == q) w := by
  rw [Value.equal, ← Nat.succ_pred he.ne']
  rfl

/-- A pattern that the reader makes of a literal prints between quotes, without escapes. The text
reads as exactly one form that equals it if and only if no quote is in the pattern. -/
theorem pattern_text_reads {literal p : String} {names after : Names}
    (h : readForms ("#\"" ++ literal) names = .ok [.pattern p] after) :
    (Value.pattern p).text e .readable w = .ok ("#\"" ++ p ++ "\"") w ∧
      ((∃ form after, readForms ("#\"" ++ p ++ "\"") w.names = .ok [form] after ∧
        form.equal e (.pattern p) w = .ok true w) ↔ '"' ∉ p.toList) := by
  refine ⟨pattern_text he w p, ?_⟩
  have hliteral : "#\"" ++ literal = String.ofList ('#' :: '"' :: literal.toList) := by
    simp [← String.toList_inj]
  have htext : "#\"" ++ p ++ "\"" = String.ofList ('#' :: '"' :: (p.toList ++ ['"'])) := by
    simp [← String.toList_inj]
  rw [hliteral] at h
  rw [htext]
  obtain ⟨s, n, more, regex, hbody, hcompile, hforms⟩ := readForms_pattern h
  obtain rfl : p = String.ofList s := Value.pattern.inj (List.cons.inj hforms).1
  rw [String.toList_ofList]
  constructor
  · rintro ⟨form, after', hread, hequal⟩ hquote
    obtain hs | ⟨front, back, hfront, rfl⟩ := Token.enclosed_of_patternBody hbody
    · exact hs.quote_not_mem hquote
    · rw [List.append_assoc, List.cons_append] at hread
      rw [form_of_readForms_quote hfront hread, pattern_equal he] at hequal
      have hlength := congrArg (·.toList.length) (eq_of_beq (EStateM.Result.ok.inj hequal).1)
      simp at hlength
  · intro hquote
    obtain hs | ⟨front, back, -, rfl⟩ := Token.enclosed_of_patternBody hbody
    · refine ⟨_, _, readForms_enclosed hs hcompile w.names, ?_⟩
      rw [pattern_equal he, beq_self_eq_true]
    · exact absurd (by simp) hquote

end

/-- The pattern of this literal has an escaped dot. -/
theorem pattern_text_reads_dot :
    let e : Engine := ⟨fun _ => throw .exhausted, 1⟩
    readForms ("#\"" ++ "a\\.\"") Names.initial = .ok [.pattern "a\\."] Names.initial ∧
      0 < e.bound ∧ (Value.pattern "a\\.").text e .readable {} = .ok "#\"a\\.\"" {} ∧
      ∃ form after, readForms "#\"a\\.\"" Names.initial = .ok [form] after ∧
        form.equal e (.pattern "a\\.") {} = .ok true {} := by
  intro e
  have hdot : Token.Enclosed Token.PatternCode ['a', '\\', '.'] :=
    .plain (by decide) (by decide) (.escape (show '.' ≠ '"' by decide) .nil)
  have h : readForms ("#\"" ++ "a\\.\"") Names.initial = .ok [.pattern "a\\."] Names.initial :=
    readForms_enclosed hdot rfl Names.initial
  have he : 0 < e.bound := Nat.zero_lt_one
  obtain ⟨htext, hreads⟩ := pattern_text_reads he {} h
  exact ⟨h, he, htext, hreads.2 (by decide)⟩

/-- The pattern of this literal has a quote. What it prints as cannot be read. -/
theorem pattern_text_unreadable :
    let e : Engine := ⟨fun _ => throw .exhausted, 1⟩
    readForms "#\"a\\\"b\"" Names.initial = .ok [.pattern "a\"b"] Names.initial ∧
      (Value.pattern "a\"b").text e .readable {} = .ok "#\"a\"b\"" {} ∧
      ∃ e, readForms "#\"a\"b\"" Names.initial = .error (.lex e) Names.initial := by
  have hliteral : Token.tokens "#\"a\\\"b\"" =
      .ok [⟨.pattern "a\"b", 0, 7, 1, 1⟩, ⟨.ending, 7, 7, 1, 8⟩] := by cbv
  have hquote : Token.tokensFrom ⟨5, 1, 6⟩ ['"'] =
      .error ⟨"Unterminated string literal", 1, 6, true⟩ := by
    rw [Token.tokensFrom_eq]
    rfl
  have hword : Token.tokensFrom ⟨4, 1, 5⟩ ['b', '"'] =
      .error ⟨"Unterminated string literal", 1, 6, true⟩ := by
    rw [Token.tokensFrom_eq]
    exact congrArg (Except.map (⟨.symbol "b", ⟨4, 5, 1, 5⟩⟩ :: ·)) hquote
  have htext : Token.tokens "#\"a\"b\"" = .error ⟨"Unterminated string literal", 1, 6, true⟩ := by
    rw [Token.tokens, Token.tokensFrom_eq]
    exact congrArg (Except.map (⟨.pattern "a", ⟨0, 4, 1, 1⟩⟩ :: ·)) hword
  refine ⟨?_, by rfl, ⟨"Unterminated string literal", 1, 6, true⟩, ?_⟩
  · rw [readForms, hliteral]
    rfl
  · rw [readForms, htext]

end LazyLisp
