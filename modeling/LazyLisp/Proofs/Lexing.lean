import LazyLisp.Token.Lexer
import Mathlib.Data.List.Basic

/-!
How the cutting of a text into tokens depends on what follows the text. A token ends where a
character stands that cannot continue it, so the tokens of a line stay the same when lines are
added, unless the line ends inside a literal.
-/

namespace LazyLisp.Token
set_option autoImplicit false

/-- Characters at which every token in front ends. -/
def stops (c : Char) : Bool := !isSymbolChar c && c != '@' && c != '\'' && c != '"'

/-- A text behind which no token in front goes on. -/
def Ends (rest : List Char) : Prop := ∀ c ∈ rest.head?, stops c = true

/-- An answer that more text does not change: a token, or a fault that nothing completes. -/
def Definite {α : Type} (r : Except Fault α) : Prop := ∀ f, r = .error f → f.incomplete = false

@[simp] theorem definite_ok {α : Type} (a : α) : Definite (.ok a : Except Fault α) := by
  intro f h
  cases h

@[simp] theorem definite_error {α : Type} (f : Fault) :
    Definite (.error f : Except Fault α) ↔ f.incomplete = false :=
  ⟨fun h => h f rfl, fun h g hg => by cases hg; exact h⟩

@[simp] theorem definite_map {α β : Type} (g : α → β) (r : Except Fault α) :
    Definite (r.map g) ↔ Definite r := by
  cases r <;> simp [Except.map]

theorem takeWhile_append_ends {p : Char → Bool} {rest : List Char}
    (h : ∀ c ∈ rest.head?, p c = false) (cs : List Char) :
    (cs ++ rest).takeWhile p = cs.takeWhile p := by
  induction cs with
  | nil =>
    cases rest with
    | nil => rfl
    | cons c rest => simp [h c rfl]
  | cons c cs ih => simp only [List.cons_append, List.takeWhile_cons, ih]

theorem isSymbolChar_of_isAlphanum {c : Char} (h : c.isAlphanum = true) : isSymbolChar c = true := by
  have hn : (48 ≤ c.toNat ∧ c.toNat ≤ 57) ∨ (65 ≤ c.toNat ∧ c.toNat ≤ 90) ∨
      (97 ≤ c.toNat ∧ c.toNat ≤ 122) := by
    have hv : c.toNat = c.val.toNat := rfl
    have hclasses : (decide (c.val ≥ 65 ∧ c.val ≤ 90) ||
        decide (c.val ≥ 97) && decide (c.val ≤ 122) ||
        decide (c.val ≥ 48) && decide (c.val ≤ 57)) = true := h
    simp [UInt32.le_iff_toNat_le] at hclasses
    omega
  have hd : ("()[]\x7b\x7d\";'`~@,\\".toList.all fun d => !d.isAlphanum) = true := by decide
  have hb : Text.isBlank c = false := by
    simp [Text.isBlank]
    omega
  simp only [isSymbolChar, hb, Bool.not_false, Bool.true_and, Bool.not_eq_true',
    List.contains_eq_mem, decide_eq_false_iff_not]
  intro hm
  have hc := List.all_eq_true.1 hd c hm
  rw [h] at hc
  cases hc

theorem stop_not_symbolChar {rest : List Char} (hr : Ends rest) :
    ∀ c ∈ rest.head?, isSymbolChar c = false := by
  intro c hc
  have h := hr c hc
  simp only [stops, Bool.and_eq_true, Bool.not_eq_true'] at h
  exact h.1.1.1

theorem stop_not_alphanum {rest : List Char} (hr : Ends rest) :
    ∀ c ∈ rest.head?, c.isAlphanum = false := by
  intro c hc
  have h := stop_not_symbolChar hr c hc
  cases ha : c.isAlphanum with
  | false => rfl
  | true => rw [isSymbolChar_of_isAlphanum ha] at h; cases h

theorem isAlphanum_of_isDigit {c : Char} (h : Decimal.isDigit c = true) : c.isAlphanum = true := by
  simp only [Decimal.isDigit, Bool.and_eq_true, decide_eq_true_eq] at h
  simp [Char.isAlphanum, Char.isDigit]
  exact Or.inr h

theorem stop_not_digit {rest : List Char} (hr : Ends rest) :
    ∀ c ∈ rest.head?, Decimal.isDigit c = false := by
  intro c hc
  have h := stop_not_alphanum hr c hc
  cases hd : Decimal.isDigit c with
  | false => rfl
  | true => rw [isAlphanum_of_isDigit hd] at h; cases h

@[simp] theorem symbolLength_append {rest : List Char} (hr : Ends rest) (cs : List Char) :
    symbolLength (cs ++ rest) = symbolLength cs := by
  rw [symbolLength, takeWhile_append_ends (stop_not_symbolChar hr), symbolLength]

theorem symbolLength_le (cs : List Char) : symbolLength cs ≤ cs.length :=
  (List.takeWhile_prefix _).length_le

theorem take_symbolLength_append {rest : List Char} (cs : List Char) :
    (cs ++ rest).take (symbolLength cs) = cs.take (symbolLength cs) :=
  List.take_append_of_le_length (symbolLength_le cs)

/-- A character that no text behind can start with is looked for in the text in front alone. -/
theorem head?_append_ne {rest : List Char} {d : Char} (hd : d ∉ rest.head?) (cs : List Char) :
    (cs ++ rest).head? = some d ↔ cs.head? = some d := by
  cases cs with
  | nil => simpa using hd
  | cons c cs => rfl

theorem head?_append_any {rest : List Char} {p : Char → Bool} (h : ∀ c ∈ rest.head?, p c = false)
    (cs : List Char) : (cs ++ rest).head?.any p = cs.head?.any p := by
  cases cs with
  | nil => cases rest <;> simp_all
  | cons c cs => rfl

theorem stringBody_plain (read : Nat) {c : Char} (hq : c ≠ '"') (hb : c ≠ '\\') (cs : List Char) :
    stringBody read (c :: cs) = (stringBody (read + 1) cs).map fun (s, n) => (c :: s, n) := by
  rw [stringBody]
  all_goals simp [hq, hb]

theorem patternBody_plain (read : Nat) {c : Char} (hq : c ≠ '"') (hb : c ≠ '\\') (cs : List Char) :
    patternBody read (c :: cs) = (patternBody (read + 1) cs).map fun (s, n) => (c :: s, n) := by
  rw [patternBody]
  all_goals simp [hq, hb]

theorem stringBody_append (read : Nat) (cs rest : List Char) (h : Definite (stringBody read cs)) :
    stringBody read (cs ++ rest) = stringBody read cs := by
  fun_induction stringBody read cs with
  | case1 | case3 => simp [Fault.incomplete] at h
  | case2 => simp [stringBody]
  | case4 read code cs hu => simp [stringBody, hu]
  | case5 read code cs c hu ih =>
    simp only [definite_map] at h
    simp [stringBody, hu, ih h]
  | case6 read c cs hq hend hcode ih =>
    have hb : c ≠ '\\' := by cases cs <;> grind
    simp only [definite_map] at h
    rw [List.cons_append, stringBody_plain read hq hb, ih h]

theorem patternBody_append (read : Nat) (cs rest : List Char) (h : Definite (patternBody read cs)) :
    patternBody read (cs ++ rest) = patternBody read cs := by
  fun_induction patternBody read cs with
  | case1 | case3 => simp [Fault.incomplete] at h
  | case2 => simp [patternBody]
  | case4 read code cs ih =>
    simp only [definite_map] at h
    simp [patternBody, ih h]
  | case5 read c cs hq hend hcode ih =>
    have hb : c ≠ '\\' := by cases cs <;> grind
    simp only [definite_map] at h
    rw [List.cons_append, patternBody_plain read hq hb, ih h]

/-- The characters that start tokens other than words and numbers. -/
def leaders : List Char :=
  ['(', ')', '[', ']', '\x7b', '\x7d', '\'', '\x60', '@', '~', ':', '"', '\\']

/-- The token of any other first character: a mark or pattern behind `#`, a number, or a word. -/
theorem scan_of_not_leader {c : Char} (hc : c ∉ leaders) (cs : List Char) :
    scan c cs =
      if c = '#' ∧ cs.head? = some '\'' then .ok (.mark .varQuote, 1)
      else if c = '#' ∧ cs.head? = some '"' then
        (patternBody 1 cs.tail).map fun (s, n) => (.pattern (String.ofList s), n)
      else if Decimal.isDigit c ∨ ((c = '+' ∨ c = '-') ∧ cs.head?.any Decimal.isDigit) then
        (number (c :: cs.take (symbolLength cs))).map fun kind => (kind, symbolLength cs)
      else .ok (symbol (c :: cs.take (symbolLength cs)), symbolLength cs) := by
  unfold scan
  split
  all_goals first | rfl | exact absurd (by decide) hc

theorem scan_string (cs : List Char) :
    scan '"' cs = (stringBody 0 cs).map fun (s, n) => (.string (String.ofList s), n) := rfl

theorem scan_append {c : Char} {cs rest : List Char} (hr : Ends rest) (h : Definite (scan c cs)) :
    scan c (cs ++ rest) = scan c cs := by
  have hat : '@' ∉ rest.head? := fun hm => absurd (hr _ hm) (by decide)
  have hquote : '\'' ∉ rest.head? := fun hm => absurd (hr _ hm) (by decide)
  have hdouble : '"' ∉ rest.head? := fun hm => absurd (hr _ hm) (by decide)
  have hdigit := stop_not_digit hr
  by_cases hc : c ∈ leaders
  · simp only [leaders, List.mem_cons, List.not_mem_nil, or_false] at hc
    rcases hc with rfl | rfl | rfl | rfl | rfl | rfl | rfl | rfl | rfl | rfl | rfl | rfl | rfl
    iterate 9 rfl
    · simp only [scan, head?_append_ne hat]
    · simp only [scan, symbolLength_append hr, take_symbolLength_append]
    · rw [scan_string] at h ⊢
      rw [scan_string, stringBody_append 0 cs rest (by simpa using h)]
    · cases cs with
      | nil => simp [scan, Fault.incomplete] at h
      | cons first cs => simp only [scan, List.cons_append, takeWhile_append_ends (stop_not_alphanum hr)]
  · rw [scan_of_not_leader hc] at h
    rw [scan_of_not_leader hc, scan_of_not_leader hc]
    simp only [symbolLength_append hr, take_symbolLength_append, head?_append_ne hquote, head?_append_ne hdouble,
      head?_append_any hdigit]
    split_ifs at h ⊢ with h1 h2 h3
    · rfl
    · cases cs with
      | nil => simp at h2
      | cons d cs =>
        simp only [definite_map, List.tail_cons] at h
        simp only [List.cons_append, List.tail_cons, patternBody_append 1 cs rest h]
    · rfl
    · rfl

theorem gap_le (inComment : Bool) (cs : List Char) : gap inComment cs ≤ cs.length := by
  fun_induction gap inComment cs <;> simp_all

theorem gap_append_of_lt {inComment : Bool} {cs : List Char} (rest : List Char)
    (h : gap inComment cs < cs.length) : gap inComment (cs ++ rest) = gap inComment cs := by
  fun_induction gap inComment cs <;> simp_all [gap]

theorem gap_line (inComment : Bool) (rest : List Char) :
    gap inComment ('\n' :: rest) = gap false rest + 1 := by
  have hb : Text.isBlank '\n' = true := by decide
  cases inComment <;> simp [gap, hb]

/-- A line feed ends a comment, so blanks and comments up to it stay what they are. -/
theorem gap_append_line {inComment : Bool} {cs : List Char} (rest : List Char)
    (h : gap inComment cs = cs.length) :
    gap inComment (cs ++ '\n' :: rest) = cs.length + 1 + gap false rest := by
  induction cs generalizing inComment with
  | nil =>
    rw [List.nil_append, gap_line, List.length_nil]
    omega
  | cons c cs ih =>
    simp only [gap, List.cons_append, List.length_cons] at h ⊢
    split_ifs at h ⊢ with hcomment hblank hsemi
    · rw [ih (by omega)]
      omega
    · rw [ih (by omega)]
      omega
    · rw [ih (by omega)]
      omega

/-- The tokens that start where the blanks in front end. -/
def tokensAt (start : Place) : List Char → Except LexError (List Token)
  | [] => .ok [⟨.ending, .between start start⟩]
  | c :: cs =>
    match scan c cs with
    | .error f => .error (f.error start (c :: cs))
    | .ok (kind, k) =>
      let stop := start.after (c :: cs.take k)
      (tokensFrom stop (cs.drop k)).map (⟨kind, .between start stop⟩ :: ·)

theorem tokensFrom_eq (place : Place) (text : List Char) :
    tokensFrom place text =
      tokensAt (place.after (text.take (gap false text))) (text.drop (gap false text)) := by
  rw [tokensFrom]
  split
  · rename_i h
    rw [h, tokensAt]
  · rename_i c cs h
    rw [h, tokensAt]
    cases scan c cs with
    | error f => rfl
    | ok r =>
      obtain ⟨kind, k⟩ := r
      dsimp only
      cases tokensFrom _ (cs.drop k) <;> rfl

/-- The tokens behind a part of the blanks and comments in front. -/
theorem tokensFrom_drop (place : Place) (text : List Char) (n : Nat)
    (h : gap false text = n + gap false (text.drop n)) :
    tokensFrom place text = tokensFrom (place.after (text.take n)) (text.drop n) := by
  rw [tokensFrom_eq, tokensFrom_eq, List.drop_drop, ← Place.after_append, ← List.take_add, ← h]

theorem tokensFrom_of_gap (place : Place) {text : List Char} (h : gap false text = text.length) :
    tokensFrom place text =
      .ok [⟨.ending, .between (place.after text) (place.after text)⟩] := by
  rw [tokensFrom_eq, h, List.drop_length, List.take_length, tokensAt]

theorem map_eq_ok {ε α β : Type} {r : Except ε α} {g : α → β} {b : β} :
    r.map g = .ok b ↔ ∃ a, r = .ok a ∧ g a = b := by
  cases r <;> simp [Except.map]

theorem map_eq_error {ε α β : Type} {r : Except ε α} {g : α → β} {e : ε} :
    r.map g = .error e ↔ r = .error e := by
  cases r <;> simp [Except.map]

theorem stringBody_le {read : Nat} {cs s : List Char} {n : Nat}
    (h : stringBody read cs = .ok (s, n)) : n ≤ read + cs.length := by
  fun_induction stringBody read cs generalizing s n with
  | case1 | case3 | case4 => cases h
  | case2 => cases h; simp
  | case5 read code cs c hu ih =>
    obtain ⟨r, hb, heq⟩ := map_eq_ok.1 h
    have hle := ih hb
    cases heq
    simp only [List.length_cons]
    omega
  | case6 read c cs hq hend hcode ih =>
    obtain ⟨r, hb, heq⟩ := map_eq_ok.1 h
    have hle := ih hb
    cases heq
    simp only [List.length_cons]
    omega

theorem stringBody_badEscape_le {read : Nat} {cs : List Char} {code : Char} {n : Nat}
    (h : stringBody read cs = .error (.badEscape code n)) : n ≤ read + cs.length := by
  fun_induction stringBody read cs with
  | case1 | case2 | case3 => cases h
  | case4 read code cs hu => cases h; simp
  | case5 read code cs c hu ih =>
    have hle := ih (map_eq_error.1 h)
    simp only [List.length_cons]
    omega
  | case6 read c cs hq hend hcode ih =>
    have hle := ih (map_eq_error.1 h)
    simp only [List.length_cons]
    omega

theorem patternBody_le {read : Nat} {cs s : List Char} {n : Nat}
    (h : patternBody read cs = .ok (s, n)) : n ≤ read + cs.length := by
  fun_induction patternBody read cs generalizing s n with
  | case1 | case3 => cases h
  | case2 => cases h; simp
  | case4 read code cs ih =>
    obtain ⟨r, hb, heq⟩ := map_eq_ok.1 h
    have hle := ih hb
    cases heq
    simp only [List.length_cons]
    omega
  | case5 read c cs hq hend hcode ih =>
    obtain ⟨r, hb, heq⟩ := map_eq_ok.1 h
    have hle := ih hb
    cases heq
    simp only [List.length_cons]
    omega

theorem number_kind {text : List Char} {kind : TokenKind} (h : number text = .ok kind) :
    (∃ n, kind = .integer n) ∨ ∃ x, kind = .float x := by
  unfold number at h
  split at h
  · split at h <;> cases h
    exact .inl ⟨_, rfl⟩
  · split at h
    · cases h
    · split at h <;> cases h
      exact .inr ⟨_, rfl⟩

theorem character_kind {first : Char} {more : List Char} {kind : TokenKind}
    (h : character first more = .ok kind) : ∃ c, kind = .char c := by
  unfold character at h
  split at h
  · cases h
    exact ⟨_, rfl⟩
  · dsimp only at h
    split at h
    · cases h
      exact ⟨_, rfl⟩
    · split at h <;> cases h
      exact ⟨_, rfl⟩

/-- A text that reads as a word: neither a number nor one of the marked tokens starts it. -/
structure StartsWord (c : Char) (cs : List Char) : Prop where
  notLeader : c ∉ leaders
  notVarQuote : ¬ (c = '#' ∧ cs.head? = some '\'')
  notPattern : ¬ (c = '#' ∧ cs.head? = some '"')
  notNumber : ¬ (Decimal.isDigit c ∨ ((c = '+' ∨ c = '-') ∧ cs.head?.any Decimal.isDigit))

theorem StartsWord.scan {c : Char} {cs : List Char} (h : StartsWord c cs) :
    scan c cs = .ok (symbol (c :: cs.take (symbolLength cs)), symbolLength cs) := by
  rw [scan_of_not_leader h.notLeader, if_neg h.notVarQuote, if_neg h.notPattern, if_neg h.notNumber]

/-- What a token can be, and what it takes of the text behind its first character. -/
inductive Scanned (c : Char) (cs : List Char) : TokenKind → Nat → Prop
  | opening (d : Delimiter) : Scanned c cs (.opening d) 0
  | closing (d : Delimiter) : Scanned c cs (.closing d) 0
  | mark (m : Mark) : Scanned c cs (.mark m) 0
  | longMark (m : Mark) (hcs : cs ≠ []) : Scanned c cs (.mark m) 1
  | string {s : List Char} {n : Nat} (h : stringBody 0 cs = .ok (s, n)) :
      Scanned c cs (.string (String.ofList s)) n
  | pattern {s : List Char} {n : Nat} (hcs : cs ≠ []) (h : patternBody 1 cs.tail = .ok (s, n)) :
      Scanned c cs (.pattern (String.ofList s)) n
  | char (d : Char) {n : Nat} (h : n ≤ cs.length) : Scanned c cs (.char d) n
  | keyword (h : symbolLength cs ≠ 0) :
      Scanned c cs (.keyword (String.ofList (cs.take (symbolLength cs)))) (symbolLength cs)
  | integer (n : Int64) : Scanned c cs (.integer n) (symbolLength cs)
  | float (x : Float) : Scanned c cs (.float x) (symbolLength cs)
  | word (h : StartsWord c cs) :
      Scanned c cs (symbol (c :: cs.take (symbolLength cs))) (symbolLength cs)

theorem scanned {c : Char} {cs : List Char} {kind : TokenKind} {k : Nat}
    (h : scan c cs = .ok (kind, k)) : Scanned c cs kind k := by
  by_cases hc : c ∈ leaders
  · simp only [leaders, List.mem_cons, List.not_mem_nil, or_false] at hc
    rcases hc with rfl | rfl | rfl | rfl | rfl | rfl | rfl | rfl | rfl | rfl | rfl | rfl | rfl
    iterate 9 (cases h; constructor)
    · cases cs with
      | nil => cases h; constructor
      | cons d cs =>
        simp only [scan] at h
        split at h <;> cases h <;> constructor
        simp
    · simp only [scan] at h
      split at h <;> cases h
      exact .keyword ‹_›
    · obtain ⟨_, hb, heq⟩ := map_eq_ok.1 h
      cases heq
      exact .string hb
    · cases cs with
      | nil => cases h
      | cons first cs =>
        obtain ⟨_, hk, heq⟩ := map_eq_ok.1 h
        obtain ⟨d, rfl⟩ := character_kind hk
        cases heq
        have hle := (List.takeWhile_prefix (l := cs) Char.isAlphanum).length_le
        refine .char d ?_
        split <;> simp_all
  · by_cases hw : StartsWord c cs
    · rw [hw.scan] at h
      cases h
      exact .word hw
    · rw [scan_of_not_leader hc] at h
      split_ifs at h with h1 h2 h3
      · cases h
        exact .longMark _ (by rintro rfl; simp at h1)
      · obtain ⟨_, hb, heq⟩ := map_eq_ok.1 h
        cases heq
        exact .pattern (by rintro rfl; simp at h2) hb
      · obtain ⟨_, hk, heq⟩ := map_eq_ok.1 h
        rcases number_kind hk with ⟨n, rfl⟩ | ⟨x, rfl⟩ <;> cases heq <;> constructor
      · exact absurd ⟨hc, h1, h2, h3⟩ hw

/-- A token takes no more than the text that is there. -/
theorem scan_le {c : Char} {cs : List Char} {kind : TokenKind} {k : Nat}
    (h : scan c cs = .ok (kind, k)) : k ≤ cs.length := by
  cases scanned h with
  | opening | closing | mark => exact Nat.zero_le _
  | longMark _ hcs => exact List.length_pos_iff.2 hcs
  | string hb =>
    have hle := stringBody_le hb
    omega
  | pattern hcs hb =>
    have hle := patternBody_le hb
    have hpos := List.length_pos_iff.2 hcs
    rw [List.length_tail] at hle
    omega
  | char _ hle => exact hle
  | keyword | integer | float | word => exact symbolLength_le cs

theorem symbol_ne_ending (text : List Char) : symbol text ≠ .ending := by
  unfold symbol
  split <;> simp

theorem scan_ne_ending {c : Char} {cs : List Char} {kind : TokenKind} {k : Nat}
    (h : scan c cs = .ok (kind, k)) : kind ≠ .ending := by
  cases scanned h with
  | word => exact symbol_ne_ending _
  | _ => simp

theorem number_error {text : List Char} {f : Fault} (h : number text = .error f) (code : Char)
    (n : Nat) : f ≠ .badEscape code n := by
  unfold number at h
  split at h
  · split at h <;> cases h
    simp
  · split at h
    · cases h
      simp
    · split at h <;> cases h
      simp

theorem character_error {first : Char} {more : List Char} {f : Fault}
    (h : character first more = .error f) (code : Char) (n : Nat) : f ≠ .badEscape code n := by
  unfold character at h
  split at h
  · cases h
  · dsimp only at h
    split at h
    · cases h
    · split at h <;> cases h
      simp

theorem patternBody_error {read : Nat} {cs : List Char} {f : Fault}
    (h : patternBody read cs = .error f) : f = .openPattern := by
  fun_induction patternBody read cs with
  | case1 | case3 => cases h; rfl
  | case2 => cases h
  | case4 read code cs ih => exact ih (map_eq_error.1 h)
  | case5 read c cs hq hend hcode ih => exact ih (map_eq_error.1 h)

/-- Only strings have bad escapes, and these stand within the text. -/
theorem scan_badEscape_le {c : Char} {cs : List Char} {code : Char} {n : Nat}
    (h : scan c cs = .error (.badEscape code n)) : n ≤ cs.length := by
  by_cases hc : c ∈ leaders
  · simp only [leaders, List.mem_cons, List.not_mem_nil, or_false] at hc
    rcases hc with rfl | rfl | rfl | rfl | rfl | rfl | rfl | rfl | rfl | rfl | rfl | rfl | rfl
    iterate 9 cases h
    · simp only [scan] at h
      split at h <;> cases h
    · simp only [scan] at h
      split at h <;> cases h
    · have hle := stringBody_badEscape_le (map_eq_error.1 h)
      omega
    · cases cs with
      | nil => cases h
      | cons first cs => exact absurd rfl (character_error (map_eq_error.1 h) code n)
  · rw [scan_of_not_leader hc] at h
    split_ifs at h with h1 h2 h3
    · cases patternBody_error (map_eq_error.1 h)
    · exact absurd rfl (number_error (map_eq_error.1 h) code n)

@[simp] theorem Fault.error_message (f : Fault) (start : Place) (text : List Char) :
    (f.error start text).message = f.message := by
  cases f <;> rfl

@[simp] theorem Fault.error_incomplete (f : Fault) (start : Place) (text : List Char) :
    (f.error start text).incomplete = f.incomplete := by
  cases f <;> rfl

/-- The place of a fault depends on the text of its literal alone. -/
theorem Fault.error_append {c : Char} {cs : List Char} {f : Fault} (h : scan c cs = .error f)
    (start : Place) (rest : List Char) :
    f.error start (c :: (cs ++ rest)) = f.error start (c :: cs) := by
  cases f with
  | badEscape code n =>
    have hle := scan_badEscape_le h
    simp only [Fault.error, List.take_succ_cons, List.take_append_of_le_length hle]
  | _ => rfl

/-- What a text is cut into or why it cannot be, places aside. -/
def outline : Except LexError (List Token) → Except (String × Bool) (List TokenKind)
  | .ok tokens => .ok (tokens.map (·.kind))
  | .error e => .error (e.message, e.incomplete)

theorem outline_map_cons (t : Token) (r : Except LexError (List Token)) :
    outline (r.map (t :: ·)) = (outline r).map (t.kind :: ·) := by
  cases r <;> rfl

/-- The tokens do not depend on where the text starts. -/
theorem outline_tokensFrom (p q : Place) (text : List Char) :
    outline (tokensFrom p text) = outline (tokensFrom q text) := by
  induction hn : text.length using Nat.strongRecOn generalizing p q text with
  | ind n ih =>
    rw [tokensFrom_eq p, tokensFrom_eq q]
    cases hd : text.drop (gap false text) with
    | nil => rfl
    | cons c cs =>
      simp only [tokensAt]
      cases hs : scan c cs with
      | error f => simp [outline]
      | ok r =>
        obtain ⟨kind, k⟩ := r
        have hlen := congrArg List.length hd
        simp only [List.length_drop, List.length_cons] at hlen
        simp only [outline_map_cons]
        rw [ih (cs.drop k).length (by rw [List.length_drop]; omega) _ _ _ rfl]

theorem tokensFrom_append (place : Place) {text cs : List Char} {c : Char}
    (h : text.drop (gap false text) = c :: cs) (rest : List Char) :
    tokensFrom place (text ++ rest) =
      tokensAt (place.after (text.take (gap false text))) (c :: (cs ++ rest)) := by
  have hlen := congrArg List.length h
  simp only [List.length_drop, List.length_cons] at hlen
  have hle : gap false text ≤ text.length := gap_le false text
  rw [tokensFrom_eq, gap_append_of_lt rest (by omega), List.take_append_of_le_length hle,
    List.drop_append_of_le_length hle, h, List.cons_append]

theorem tokensFrom_gap_line (place : Place) {line : List Char} (h : gap false line = line.length)
    (more : List Char) : tokensFrom place (line ++ '\n' :: more) =
      tokensFrom (place.after (line ++ ['\n'])) more := by
  have hline : line ++ '\n' :: more = (line ++ ['\n']) ++ more := by simp
  have hlen : (line ++ ['\n']).length = line.length + 1 := by simp
  rw [tokensFrom_drop place _ (line.length + 1), hline, ← hlen, List.take_left, List.drop_left]
  rw [gap_append_line more h, hline, ← hlen, List.drop_left]

theorem ends_line (more : List Char) : Ends ('\n' :: more) := by
  intro c hc
  cases hc
  decide

/-- The place behind a text is the place behind what follows its first token. -/
theorem after_token (place : Place) {text cs : List Char} {c : Char}
    (h : text.drop (gap false text) = c :: cs) (k : Nat) (rest : List Char) :
    ((place.after (text.take (gap false text))).after (c :: cs.take k)).after (cs.drop k ++ rest) =
      place.after (text ++ rest) := by
  have hcs : (c :: cs.take k) ++ (cs.drop k ++ rest) = (c :: cs) ++ rest := by
    rw [List.cons_append, ← List.append_assoc, List.take_append_drop, List.cons_append]
  rw [← Place.after_append, ← Place.after_append, hcs, ← h,
    ← List.append_assoc, List.take_append_drop]

/-- A line that is cut into tokens stays so whatever lines follow it. -/
theorem tokensFrom_line_ok {place : Place} {line : List Char} {tokens : List Token}
    (h : tokensFrom place line = .ok tokens) (more : List Char) :
    ∃ front last, tokens = front ++ [⟨.ending, last⟩] ∧ (∀ t ∈ front, t.kind ≠ .ending) ∧
      tokensFrom place (line ++ '\n' :: more) =
        (tokensFrom (place.after (line ++ ['\n'])) more).map (front ++ ·) := by
  induction hn : line.length using Nat.strongRecOn generalizing place line tokens with
  | ind n ih =>
    rw [tokensFrom_eq] at h
    cases hd : line.drop (gap false line) with
    | nil =>
      have hgap : gap false line = line.length :=
        Nat.le_antisymm (gap_le false line) (List.drop_eq_nil_iff.1 hd)
      rw [hd, tokensAt] at h
      cases h
      refine ⟨[], _, rfl, by simp, ?_⟩
      rw [tokensFrom_gap_line place hgap]
      cases tokensFrom _ more <;> rfl
    | cons c cs =>
      have hlen := congrArg List.length hd
      simp only [List.length_drop, List.length_cons] at hlen
      rw [hd, tokensAt] at h
      rw [tokensFrom_append place hd, tokensAt]
      cases hs : scan c cs with
      | error f => simp [hs] at h
      | ok r =>
        obtain ⟨kind, k⟩ := r
        have hle := scan_le hs
        rw [scan_append (ends_line more) (by simp [hs]), hs]
        simp only [hs] at h ⊢
        obtain ⟨rest, hrest, rfl⟩ := map_eq_ok.1 h
        obtain ⟨front, last, rfl, hfront, hmore⟩ :=
          ih (cs.drop k).length (by rw [List.length_drop]; omega) hrest rfl
        refine ⟨_ :: front, last, rfl, ?_, ?_⟩
        · intro t ht
          rcases List.mem_cons.1 ht with rfl | ht
          · exact scan_ne_ending hs
          · exact hfront t ht
        · rw [List.take_append_of_le_length hle, List.drop_append_of_le_length hle, hmore,
            after_token place hd]
          cases tokensFrom _ more <;> rfl

/-- A line that is faulty for good stays so whatever lines follow it. -/
theorem tokensFrom_line_error {place : Place} {line : List Char} {e : LexError}
    (h : tokensFrom place line = .error e) (he : e.incomplete = false) (more : List Char) :
    tokensFrom place (line ++ '\n' :: more) = .error e := by
  induction hn : line.length using Nat.strongRecOn generalizing place line with
  | ind n ih =>
    rw [tokensFrom_eq] at h
    cases hd : line.drop (gap false line) with
    | nil =>
      rw [hd, tokensAt] at h
      cases h
    | cons c cs =>
      have hlen := congrArg List.length hd
      simp only [List.length_drop, List.length_cons] at hlen
      rw [hd, tokensAt] at h
      rw [tokensFrom_append place hd, tokensAt]
      cases hs : scan c cs with
      | error f =>
        simp only [hs, Except.error.injEq] at h
        have hf : f.incomplete = false := by rw [← Fault.error_incomplete, h, he]
        rw [scan_append (ends_line more) (by simp [hs, hf]), hs]
        simp only [Fault.error_append hs, h]
      | ok r =>
        obtain ⟨kind, k⟩ := r
        have hle := scan_le hs
        rw [scan_append (ends_line more) (by simp [hs]), hs]
        simp only [hs] at h ⊢
        rw [List.take_append_of_le_length hle, List.drop_append_of_le_length hle,
          ih (cs.drop k).length (by rw [List.length_drop]; omega) (map_eq_error.1 h) rfl]
        rfl

end LazyLisp.Token
