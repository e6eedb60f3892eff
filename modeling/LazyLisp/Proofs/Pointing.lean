import LazyLisp.Proofs.Tiling

/-!
Where errors of the lexer point. A text that is not cut into tokens holds a literal that cannot be
read, behind whole tokens and what stands between them. The line and column of the error are those
of the first character of the literal, and those of the backslash if an escape in a string is at
fault. The one exception is a backslash at the end of a line: its error names column zero of the
line below.
-/

namespace LazyLisp.Token
set_option autoImplicit false

/-! What stands in a literal. -/

/-- Text within quotes: no quote ends it, and each backslash stands before its code. -/
inductive Enclosed (isCode : Char → Prop) : List Char → Prop
  | nil : Enclosed isCode []
  | plain {c : Char} {cs : List Char} (hquote : c ≠ '"') (hslash : c ≠ '\\')
      (h : Enclosed isCode cs) : Enclosed isCode (c :: cs)
  | escape {code : Char} {cs : List Char} (hcode : isCode code) (h : Enclosed isCode cs) :
      Enclosed isCode ('\\' :: code :: cs)

/-- Text in which a literal within quotes does not end; a last backslash may await its code. -/
def NeverEnds (isCode : Char → Prop) (cs : List Char) : Prop :=
  Enclosed isCode cs ∨ ∃ body, Enclosed isCode body ∧ cs = body ++ ['\\']

theorem NeverEnds.plain {isCode : Char → Prop} {c : Char} {cs : List Char} (hquote : c ≠ '"')
    (hslash : c ≠ '\\') (h : NeverEnds isCode cs) : NeverEnds isCode (c :: cs) := by
  obtain h | ⟨body, h, rfl⟩ := h
  · exact .inl (.plain hquote hslash h)
  · exact .inr ⟨c :: body, .plain hquote hslash h, rfl⟩

theorem NeverEnds.escape {isCode : Char → Prop} {code : Char} {cs : List Char} (hcode : isCode code)
    (h : NeverEnds isCode cs) : NeverEnds isCode ('\\' :: code :: cs) := by
  obtain h | ⟨body, h, rfl⟩ := h
  · exact .inl (.escape hcode h)
  · exact .inr ⟨'\\' :: code :: body, .escape hcode h, rfl⟩

/-- Codes of a string. -/
def StringCode (code : Char) : Prop := (Text.unescape? code).isSome

/-- A literal that cannot be read, with the part in front of what its error is about. -/
inductive Broken : Fault → List Char → List Char → Prop
  | bareKeyword {rest : List Char} (h : symbolLength rest = 0) :
      Broken .bareKeyword [] (':' :: rest)
  | number {c : Char} {word rest : List Char} {f : Fault}
      (hstart : Decimal.isDigit c ∨ ((c = '+' ∨ c = '-') ∧ word.head?.any Decimal.isDigit))
      (hword : symbolLength (word ++ rest) = word.length) (hf : number (c :: word) = .error f) :
      Broken f [] (c :: (word ++ rest))
  | openString {body : List Char} (h : NeverEnds StringCode body) :
      Broken .openString [] ('"' :: body)
  | badEscape {inner rest : List Char} {code : Char} (hinner : Enclosed StringCode inner)
      (hcode : ¬ StringCode code) :
      Broken (.badEscape code (inner.length + 2)) ('"' :: inner)
        ('"' :: (inner ++ '\\' :: code :: rest))
  | openPattern {body : List Char} (h : NeverEnds (fun _ => True) body) :
      Broken .openPattern [] ('#' :: '"' :: body)
  | openChar : Broken .openChar [] ['\\']
  | badChar {first : Char} {more rest : List Char} {f : Fault}
      (hmore : (if first.isAlphanum then (more ++ rest).takeWhile Char.isAlphanum else []) = more)
      (hf : character first more = .error f) : Broken f [] ('\\' :: first :: (more ++ rest))

theorem stringBody_error {read : Nat} {cs : List Char} {f : Fault}
    (h : stringBody read cs = .error f) :
    (f = .openString ∧ NeverEnds StringCode cs) ∨
      ∃ inner code rest, Enclosed StringCode inner ∧ ¬ StringCode code ∧
        cs = inner ++ '\\' :: code :: rest ∧ f = .badEscape code (read + inner.length + 2) := by
  fun_induction stringBody read cs with
  | case1 => cases h; exact .inl ⟨rfl, .inl .nil⟩
  | case2 => cases h
  | case3 => cases h; exact .inl ⟨rfl, .inr ⟨[], .nil, rfl⟩⟩
  | case4 read code cs hu =>
    cases h
    exact .inr ⟨[], code, cs, .nil, by simp [StringCode, hu], rfl, rfl⟩
  | case5 read code cs c hu ih =>
    have hcode : StringCode code := by simp [StringCode, hu]
    obtain ⟨rfl, hopen⟩ | ⟨inner, bad, rest, hinner, hbad, rfl, rfl⟩ := ih (map_eq_error.1 h)
    · exact .inl ⟨rfl, hopen.escape hcode⟩
    · refine .inr ⟨'\\' :: code :: inner, bad, rest, hinner.escape hcode, hbad, rfl, ?_⟩
      rw [List.length_cons, List.length_cons]
      congr 1
      omega
  | case6 read c cs hq hend hcode ih =>
    have hslash : c ≠ '\\' := by cases cs <;> grind
    obtain ⟨rfl, hopen⟩ | ⟨inner, bad, rest, hinner, hbad, rfl, rfl⟩ := ih (map_eq_error.1 h)
    · exact .inl ⟨rfl, hopen.plain hq hslash⟩
    · refine .inr ⟨c :: inner, bad, rest, hinner.plain hq hslash, hbad, rfl, ?_⟩
      rw [List.length_cons]
      congr 1
      omega

theorem neverEnds_of_patternBody {read : Nat} {cs : List Char} {f : Fault}
    (h : patternBody read cs = .error f) : NeverEnds (fun _ => True) cs := by
  fun_induction patternBody read cs with
  | case1 => exact .inl .nil
  | case2 => cases h
  | case3 => exact .inr ⟨[], .nil, rfl⟩
  | case4 read code cs ih => exact (ih (map_eq_error.1 h)).escape trivial
  | case5 read c cs hq hend hcode ih =>
    have hslash : c ≠ '\\' := by cases cs <;> grind
    exact (ih (map_eq_error.1 h)).plain hq hslash

/-- A text without a token in front is a broken literal. -/
theorem broken_of_scan {c : Char} {cs : List Char} {f : Fault} (h : scan c cs = .error f) :
    ∃ inside, Broken f inside (c :: cs) := by
  by_cases hc : c ∈ leaders
  · simp only [leaders, List.mem_cons, List.not_mem_nil, or_false] at hc
    rcases hc with rfl | rfl | rfl | rfl | rfl | rfl | rfl | rfl | rfl | rfl | rfl | rfl | rfl
    iterate 9 cases h
    · simp only [scan] at h
      split at h <;> cases h
    · simp only [scan] at h
      split at h
      · cases h
        exact ⟨[], .bareKeyword ‹_›⟩
      · cases h
    · rw [scan_string] at h
      obtain ⟨rfl, hopen⟩ | ⟨inner, code, rest, hinner, hcode, rfl, rfl⟩ :=
        stringBody_error (map_eq_error.1 h)
      · exact ⟨[], .openString hopen⟩
      · rw [Nat.zero_add]
        exact ⟨_, .badEscape hinner hcode⟩
    · cases cs with
      | nil => cases h; exact ⟨[], .openChar⟩
      | cons first cs =>
        have hf := map_eq_error.1 h
        cases hfirst : first.isAlphanum with
        | false =>
          rw [if_neg (by simp [hfirst])] at hf
          exact ⟨[], @Broken.badChar first [] cs f (by simp [hfirst]) hf⟩
        | true =>
          rw [if_pos hfirst] at hf
          rw [← List.takeWhile_append_dropWhile (p := Char.isAlphanum) (l := cs)]
          refine ⟨[], .badChar ?_ hf⟩
          rw [if_pos hfirst, List.takeWhile_append_dropWhile]
  · rw [scan_of_not_leader hc] at h
    split_ifs at h with h1 h2 h3
    · obtain ⟨rfl, hhead⟩ := h2
      obtain ⟨rest, rfl⟩ := List.head?_eq_some_iff.1 hhead
      have herror := map_eq_error.1 h
      rw [patternBody_error herror]
      exact ⟨[], .openPattern (neverEnds_of_patternBody herror)⟩
    · have hword : (cs.take (symbolLength cs)).length = symbolLength cs := by
        simp [symbolLength_le]
      rw [← List.take_append_drop (symbolLength cs) cs]
      refine ⟨[], .number ?_ ?_ (map_eq_error.1 h)⟩
      · rwa [head?_take_word_any]
      · rw [List.take_append_drop, hword]

/-! The way to the literal. -/

/-- The way through a text to where a token starts, `front`, and what stands there, `rest`. -/
inductive Reached : List Char → List Char → Prop
  | start {blanks rest : List Char} (hgap : gap false (blanks ++ rest) = blanks.length) :
      Reached blanks rest
  | token {front body blanks rest : List Char} {c : Char} {kind : TokenKind}
      (h : Reached front (c :: (body ++ (blanks ++ rest))))
      (hscan : scan c (body ++ (blanks ++ rest)) = .ok (kind, body.length))
      (hgap : gap false (blanks ++ rest) = blanks.length) :
      Reached (front ++ c :: (body ++ blanks)) rest

theorem gap_split (text : List Char) :
    gap false (text.take (gap false text) ++ text.drop (gap false text)) =
      (text.take (gap false text)).length := by
  rw [List.take_append_drop, List.length_take_of_le (gap_le false text)]

theorem Reached.next {front cs : List Char} {c : Char} {kind : TokenKind} {k : Nat}
    (h : Reached front (c :: cs)) (hscan : scan c cs = .ok (kind, k)) :
    Reached (front ++ c :: (cs.take k ++ (cs.drop k).take (gap false (cs.drop k))))
      ((cs.drop k).drop (gap false (cs.drop k))) := by
  refine .token ?_ (?_ : scan _ _ = .ok (kind, _)) (gap_split (cs.drop k))
  · rwa [List.take_append_drop, List.take_append_drop]
  · rwa [List.take_append_drop, List.take_append_drop, List.length_take_of_le (scan_le hscan)]

/-- Reading goes wrong at a place that it comes to, where no token starts. -/
theorem fault_of_tokensAt {front rest : List Char} {e : LexError} (hreached : Reached front rest)
    (h : tokensAt (({} : Place).after front) rest = .error e) :
    ∃ before c cs f, front ++ rest = before ++ c :: cs ∧ Reached before (c :: cs) ∧
      scan c cs = .error f ∧ e = f.error (({} : Place).after before) (c :: cs) := by
  -- each token takes at least its first character, so less and less is left
  induction hn : rest.length using Nat.strongRecOn generalizing front rest with
  | ind n ih =>
    cases rest with
    | nil => cases h
    | cons c cs =>
      rw [tokensAt] at h
      cases hscan : scan c cs with
      | error f =>
        rw [hscan] at h
        cases h
        exact ⟨front, c, cs, f, rfl, hreached, hscan, rfl⟩
      | ok r =>
        obtain ⟨kind, k⟩ := r
        rw [hscan] at h
        have herror := map_eq_error.1 h
        rw [tokensFrom_eq, ← Place.after_append, ← Place.after_append] at herror
        obtain ⟨before, c', cs', f, htext, hfault⟩ :=
          ih _ (by simp [← hn]) (hreached.next hscan) herror rfl
        refine ⟨before, c', cs', f, ?_, hfault⟩
        rw [← htext, List.append_assoc, List.cons_append, List.append_assoc,
          List.take_append_drop, List.take_append_drop]

/-- The line and the column, counted from one, of the first character behind a text. -/
def PointsBehind (before : List Char) (e : LexError) : Prop :=
  e.line = 1 + before.count '\n' ∧ e.column = 1 + (before.reverse.takeWhile (· != '\n')).length

/-- A backslash at the end of a line is the fault. -/
def Fault.endsLine : Fault → Prop
  | .badEscape code _ => code = '\n'
  | _ => False

/-- All but bad escapes are reported where the literal starts. -/
theorem points_to_start {f : Fault} (h : ∀ code n, f ≠ .badEscape code n)
    (before literal : List Char) :
    PointsBehind before (f.error (({} : Place).after before) literal) := by
  rw [Place.after_start]
  cases f with
  | badEscape code n => exact absurd rfl (h code n)
  | _ => exact ⟨rfl, rfl⟩

/-- The error of a bad escape names the place behind its code, two columns back. -/
theorem badEscape_error (before inner rest : List Char) (code : Char) :
    Fault.error (.badEscape code (inner.length + 2)) (({} : Place).after before)
        ('"' :: (inner ++ '\\' :: code :: rest)) =
      let passed := before ++ '"' :: inner ++ ['\\', code]
      { message := Fault.message (.badEscape code (inner.length + 2))
        line := 1 + passed.count '\n'
        column := 1 + (passed.reverse.takeWhile (· != '\n')).length - 2
        incomplete := false } := by
  have htake : ('"' :: (inner ++ '\\' :: code :: rest)).take (inner.length + 2 + 1) =
      '"' :: inner ++ ['\\', code] := by
    rw [List.take_succ_cons, List.take_length_add_append]
    rfl
  rw [Fault.error, htake, ← Place.after_append, Place.after_start, ← List.append_assoc]
  rfl

theorem points_to_backslash (before inner rest : List Char) {code : Char} (h : code ≠ '\n') :
    PointsBehind (before ++ '"' :: inner)
      (Fault.error (.badEscape code (inner.length + 2)) (({} : Place).after before)
        ('"' :: (inner ++ '\\' :: code :: rest))) := by
  rw [badEscape_error]
  generalize before ++ '"' :: inner = passed
  have hreverse : (passed ++ ['\\', code]).reverse = code :: '\\' :: passed.reverse := by simp
  constructor
  · simp [h]
  · simp only [hreverse, List.takeWhile_cons, bne_iff_ne.2 h, if_true, List.length_cons]
    rw [if_pos (by decide), List.length_cons]
    omega

theorem points_below_line (before inner rest : List Char) :
    let e := Fault.error (.badEscape '\n' (inner.length + 2)) (({} : Place).after before)
      ('"' :: (inner ++ '\\' :: '\n' :: rest))
    e.line = 2 + (before ++ '"' :: inner).count '\n' ∧ e.column = 0 := by
  rw [badEscape_error]
  generalize before ++ '"' :: inner = passed
  have hreverse : (passed ++ ['\\', '\n']).reverse = '\n' :: '\\' :: passed.reverse := by simp
  constructor
  · simp [List.count_append]
    omega
  · simp only [hreverse, List.takeWhile_cons, bne_self_eq_false]
    rfl

namespace Broken
variable {f : Fault} {inside literal : List Char}

theorem points (h : Broken f inside literal) (hline : ¬ f.endsLine) (front : List Char) :
    PointsBehind (front ++ inside) (f.error (({} : Place).after front) literal) := by
  cases h with
  | badEscape hinner hcode => exact points_to_backslash front _ _ hline
  | number hstart hword hf =>
    rw [List.append_nil]
    exact points_to_start (number_error hf) ..
  | badChar hmore hf =>
    rw [List.append_nil]
    exact points_to_start (character_error hf) ..
  | bareKeyword | openString | openPattern | openChar =>
    rw [List.append_nil]
    exact points_to_start (by simp) ..

theorem points_below (h : Broken f inside literal) (hline : f.endsLine) (front : List Char) :
    let e := f.error (({} : Place).after front) literal
    e.line = 2 + (front ++ inside).count '\n' ∧ e.column = 0 := by
  cases h with
  | badEscape hinner hcode =>
    obtain rfl := hline
    exact points_below_line front _ _
  | number hstart hword hf =>
    cases f with
    | badEscape code n => exact absurd rfl (number_error hf code n)
    | _ => exact hline.elim
  | badChar hmore hf =>
    cases f with
    | badEscape code n => exact absurd rfl (character_error hf code n)
    | _ => exact hline.elim
  | _ => exact hline.elim

end Broken

/-- How a text fails to be cut into tokens, and what its error says. -/
structure Misread (source : List Char) (e : LexError) (f : Fault)
    (front inside literal : List Char) : Prop where
  source : source = front ++ literal
  /-- Whole tokens and what stands between them are in front of the literal. -/
  reached : Reached front literal
  broken : Broken f inside literal
  message : e.message = f.message
  incomplete : e.incomplete = f.incomplete
  points : ¬ f.endsLine → PointsBehind (front ++ inside) e
  /-- A backslash at the end of a line is not pointed at, but the line below it. -/
  line : f.endsLine → e.line = 2 + (front ++ inside).count '\n' ∧ e.column = 0

/-- In a text of fewer than 2 ^ 32 - 1 characters, line and column of an error are words of 32
bits. -/
theorem error_lt_size {source : String} {e : LexError} (h : tokens source = .error e)
    (hsize : source.toList.length + 1 < UInt32.size) :
    e.line < UInt32.size ∧ e.column < UInt32.size := by
  rw [tokens, tokensFrom_eq] at h
  obtain ⟨front, c, cs, f, hsource, -, -, rfl⟩ :=
    fault_of_tokensAt (.start (gap_split source.toList)) h
  rw [List.take_append_drop] at hsource
  have hlength : source.toList.length = front.length + (c :: cs).length := by
    rw [hsource, List.length_append]
  have hstart : front.length + 1 < UInt32.size := by omega
  cases f with
  | badEscape code read =>
    have hread : (front ++ (c :: cs).take (read + 1)).length + 1 < UInt32.size := by
      have htake := List.length_take_le' (read + 1) (c :: cs)
      rw [List.length_append]
      omega
    have hbehind := Place.after_start_lt hread
    rw [Fault.error, ← Place.after_append]
    exact ⟨hbehind.1, Nat.lt_of_le_of_lt (Nat.sub_le _ 2) hbehind.2⟩
  | _ => exact Place.after_start_lt hstart

/-- The error of a text that is not cut into tokens points at the literal that cannot be read, or at
the backslash of a bad escape, unless that backslash ends its line. -/
theorem misread_of_tokens {source : String} {e : LexError} (h : tokens source = .error e) :
    ∃ f front inside literal, Misread source.toList e f front inside literal := by
  rw [tokens, tokensFrom_eq] at h
  obtain ⟨front, c, cs, f, hsource, hreached, hscan, rfl⟩ :=
    fault_of_tokensAt (.start (gap_split source.toList)) h
  rw [List.take_append_drop] at hsource
  obtain ⟨inside, hbroken⟩ := broken_of_scan hscan
  exact ⟨f, front, inside, c :: cs, hsource, hreached, hbroken, Fault.error_message ..,
    Fault.error_incomplete .., (hbroken.points · front), (hbroken.points_below · front)⟩

/-- A bad escape in the second line, behind a bracket that opens in the first. -/
theorem misread_in_second_line :
    tokens "(\n \"\u00e9\\q\")" = .error ⟨"Invalid escape sequence: \\q", 2, 4, false⟩ ∧
      ∃ f front inside literal, Misread "(\n \"\u00e9\\q\")".toList
        ⟨"Invalid escape sequence: \\q", 2, 4, false⟩ f front inside literal := by
  have hsecond : tokensFrom ⟨1, 1, 2⟩ "\n \"\u00e9\\q\")".toList =
      .error ⟨"Invalid escape sequence: \\q", 2, 4, false⟩ := by
    rw [tokensFrom_eq]
    rfl
  have h : tokens "(\n \"\u00e9\\q\")" =
      .error ⟨"Invalid escape sequence: \\q", 2, 4, false⟩ := by
    rw [tokens, tokensFrom_eq]
    exact congrArg (Except.map (⟨.opening .paren, ⟨0, 1, 1, 1⟩⟩ :: ·)) hsecond
  exact ⟨h, misread_of_tokens h⟩

/-- The error of a backslash at the end of a line stands at no character of any text. -/
theorem misread_without_place :
    ∃ e, tokens "\"a\\\n\"" = .error e ∧ e.line = 2 ∧ e.column = 0 ∧
      ∀ before, ¬ PointsBehind before e := by
  refine ⟨⟨"Invalid escape sequence: \\\n", 2, 0, false⟩, ?_, rfl, rfl, ?_⟩
  · rw [tokens, tokensFrom_eq]
    rfl
  · rintro before ⟨-, hcolumn⟩
    dsimp only at hcolumn
    omega

end LazyLisp.Token
