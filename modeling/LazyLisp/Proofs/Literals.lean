import LazyLisp.Proofs.Lexing
import LazyLisp.Proofs.Spelling

/-!
Literals as they are written are the tokens they came from, whatever follows that ends a token.
-/

namespace LazyLisp.Token
set_option autoImplicit false

/-- The text makes these tokens in front of every text that ends a token. -/
def Lexes (text : List Char) (kinds : List TokenKind) : Prop :=
  ∀ rest, Ends rest →
    outline (tokensFrom {} (text ++ rest)) = (outline (tokensFrom {} rest)).map (kinds ++ ·)

/-- The text makes these tokens in front of every text. -/
def LexesAny (text : List Char) (kinds : List TokenKind) : Prop :=
  ∀ rest, outline (tokensFrom {} (text ++ rest)) =
    (outline (tokensFrom {} rest)).map (kinds ++ ·)

theorem map_append_append {ε : Type} (r : Except ε (List TokenKind)) (a b : List TokenKind) :
    (r.map (b ++ ·)).map (a ++ ·) = r.map (a ++ b ++ ·) := by
  cases r <;> simp [Except.map]

theorem LexesAny.append_lexes {a b : List Char} {ka kb : List TokenKind} (ha : LexesAny a ka)
    (hb : Lexes b kb) : Lexes (a ++ b) (ka ++ kb) := by
  intro rest hrest
  rw [List.append_assoc, ha, hb rest hrest, map_append_append]

theorem ends_cons {c : Char} (hc : stops c = true) (cs : List Char) : Ends (c :: cs) := by
  intro d hd
  cases hd
  exact hc

theorem Lexes.append {a b : List Char} {c : Char} {ka kb : List TokenKind} (ha : Lexes a ka)
    (hc : stops c = true) (hb : Lexes (c :: b) kb) : Lexes (a ++ c :: b) (ka ++ kb) := by
  intro rest hrest
  have hends : Ends (c :: b ++ rest) := ends_cons hc (b ++ rest)
  rw [List.append_assoc, ha _ hends, hb rest hrest, map_append_append]

theorem map_nil_append (r : Except (String × Bool) (List TokenKind)) :
    r.map (([] : List TokenKind) ++ ·) = r := by
  cases r <;> rfl

theorem lexesAny_nil : LexesAny [] [] := by
  intro rest
  rw [map_nil_append, List.nil_append]

/-- A blank or a comma makes no token. -/
theorem lexesAny_blank {c : Char} (hc : (Text.isBlank c || c == ',') = true) :
    LexesAny [c] [] := by
  intro rest
  have hgap : gap false (c :: rest) = gap false rest + 1 := by
    rw [gap, if_neg (by decide), if_pos hc]
  rw [map_nil_append, List.singleton_append,
    tokensFrom_drop {} (c :: rest) 1 (by rw [hgap, List.drop_one, List.tail_cons, Nat.add_comm])]
  exact outline_tokensFrom _ _ rest

/-- The tokens of a text that starts with one, from the answer of its scanner. -/
theorem outline_of_scan {c : Char} {cs rest : List Char} {kind : TokenKind}
    (hgap : gap false (c :: (cs ++ rest)) = 0)
    (hscan : scan c (cs ++ rest) = .ok (kind, cs.length)) :
    outline (tokensFrom {} ((c :: cs) ++ rest)) =
      (outline (tokensFrom {} rest)).map ([kind] ++ ·) := by
  rw [List.cons_append, tokensFrom_eq, hgap, List.drop_zero, tokensAt, hscan]
  dsimp only
  rw [outline_map_cons, List.drop_left, outline_tokensFrom _ {} rest]
  rfl

theorem gap_eq_zero {c : Char} (hc : (Text.isBlank c || c == ',') = false) (hsemi : c ≠ ';')
    (cs : List Char) : gap false (c :: cs) = 0 := by
  simp [gap, hc, hsemi]

theorem lexes_of_scan {c : Char} {cs : List Char} {kind : TokenKind}
    (hc : (Text.isBlank c || c == ',') = false) (hsemi : c ≠ ';')
    (hscan : scan c cs = .ok (kind, cs.length)) : Lexes (c :: cs) [kind] := by
  intro rest hrest
  apply outline_of_scan (gap_eq_zero hc hsemi _)
  rw [scan_append hrest (by simp [hscan]), hscan]

theorem lexesAny_opening (d : Delimiter) : LexesAny [d.opening] [.opening d] := by
  intro rest
  cases d <;> exact outline_of_scan (gap_eq_zero (by decide) (by decide) _) rfl

theorem lexesAny_closing (d : Delimiter) : LexesAny [d.closing] [.closing d] := by
  intro rest
  cases d <;> exact outline_of_scan (gap_eq_zero (by decide) (by decide) _) rfl

theorem stops_closing (d : Delimiter) : stops d.closing = true := by
  cases d <;> decide

/-- Texts with a separator between them, in front of what ends the last one. -/
theorem outline_intercalate {sep : List Char} {c : Char} {parts : List (List Char × List TokenKind)}
    {rest : List Char} (hparts : ∀ p ∈ parts, Lexes p.1 p.2) (hsep : LexesAny (c :: sep) [])
    (hc : stops c = true) (hrest : Ends rest) :
    outline (tokensFrom {} ((c :: sep).intercalate (parts.map (·.1)) ++ rest)) =
      (outline (tokensFrom {} rest)).map (parts.flatMap (·.2) ++ ·) := by
  induction parts with
  | nil => exact lexesAny_nil rest
  | cons p more ih =>
    obtain ⟨hp, hmore⟩ := List.forall_mem_cons.1 hparts
    cases more with
    | nil =>
      simp only [List.map_cons, List.map_nil, List.intercalate_singleton, List.flatMap_cons,
        List.flatMap_nil, List.append_nil]
      exact hp rest hrest
    | cons q more =>
      have ih := ih hmore
      rw [List.map_cons] at ih
      rw [List.map_cons, List.map_cons, List.intercalate_cons_cons, List.append_assoc,
        List.append_assoc, List.cons_append, hp _ (ends_cons hc _), ← List.cons_append, hsep,
        map_nil_append, ih, map_append_append]
      simp only [List.flatMap_cons]

theorem symbolLength_eq {cs : List Char} (h : ∀ d ∈ cs, isSymbolChar d = true) :
    symbolLength cs = cs.length := by
  rw [symbolLength, List.takeWhile_eq_self_iff.2 h]

theorem isSymbolChar_starts {c : Char} (h : isSymbolChar c = true) :
    (Text.isBlank c || c == ',') = false ∧ c ≠ ';' := by
  simp only [isSymbolChar, Bool.and_eq_true, Bool.not_eq_true', List.contains_eq_mem,
    decide_eq_false_iff_not] at h
  refine ⟨?_, ?_⟩
  · rw [h.1, Bool.false_or, beq_eq_false_iff_ne]
    rintro rfl
    exact h.2 (by decide)
  · rintro rfl
    exact h.2 (by decide)

theorem lexes_word {text : String} {c : Char} {cs : List Char} (h : Word text c cs) :
    Lexes text.toList [.symbol text] := by
  obtain ⟨hblank, hsemi⟩ := isSymbolChar_starts h.head
  rw [h.toList]
  apply lexes_of_scan hblank hsemi
  rw [h.starts.scan, symbolLength_eq h.tail, List.take_length, h.notConstant]

theorem lexes_keyword {text : String} (h : KeyText text) :
    Lexes (':' :: text.toList) [.keyword text] := by
  apply lexes_of_scan (by decide) (by decide)
  have hlen : text.toList.length ≠ 0 := fun hzero => h.nonempty (List.length_eq_zero_iff.1 hzero)
  simp only [scan, symbolLength_eq h.all, if_neg hlen, List.take_length, String.ofList_toList]

theorem lexes_nil : Lexes "nil".toList [.nil] :=
  lexes_of_scan (by decide) (by decide) (by rfl)

theorem lexes_bool (b : Bool) : Lexes (if b then "true" else "false").toList [.bool b] := by
  cases b <;> exact lexes_of_scan (by decide) (by decide) (by rfl)

theorem lexes_special (f : SpecialForm) : Lexes f.text.toList [.symbol f.text] := by
  cases f <;> exact lexes_of_scan (by decide) (by decide) (by rfl)

theorem scan_namedChar {p : Char × String} (hp : p ∈ Text.namedChars) :
    scan '\\' p.2.toList = .ok (.char p.1, p.2.toList.length) := by
  simp only [Text.namedChars, List.mem_cons, List.not_mem_nil, or_false] at hp
  rcases hp with rfl | rfl | rfl | rfl | rfl | rfl
  all_goals rfl

theorem lexes_char (c : Char) : Lexes (Text.charLiteral c).toList [.char c] := by
  unfold Text.charLiteral
  cases hname : Text.nameOfChar? c with
  | some name =>
    obtain ⟨p, hp, rfl⟩ := Option.map_eq_some_iff.1 hname
    have hc : p.1 = c := by simpa using List.find?_some hp
    rw [String.toList_append, ← hc]
    exact lexes_of_scan (by decide) (by decide) (scan_namedChar (List.mem_of_find?_eq_some hp))
  | none =>
    rw [String.toList_ofList]
    exact lexes_of_scan (by decide) (by decide) (by simp [scan, character, Except.map])

theorem stringBody_escaped (read : Nat) (s rest : List Char) :
    stringBody read (Text.escaped s ++ '"' :: rest) =
      .ok (s, read + (Text.escaped s).length + 1) := by
  induction s generalizing read with
  | nil => rfl
  | cons c cs ih =>
    rw [Text.escaped]
    cases hcode : Text.escape? c with
    | some code =>
      rw [List.cons_append, List.cons_append, stringBody, Text.unescape?_of_escape? hcode]
      dsimp only
      rw [ih]
      simp only [Except.map, List.length_cons, Except.ok.injEq, Prod.mk.injEq, true_and]
      omega
    | none =>
      have hquote : c ≠ '"' := by rintro rfl; cases hcode
      have hslash : c ≠ '\\' := by rintro rfl; cases hcode
      dsimp only
      rw [List.cons_append, stringBody_plain read hquote hslash, ih]
      simp only [Except.map, List.length_cons, Except.ok.injEq, Prod.mk.injEq, true_and]
      omega

theorem lexes_string (s : String) : Lexes (Text.stringLiteral s).toList [.string s] := by
  rw [Text.stringLiteral, String.toList_ofList, List.cons_append]
  apply lexes_of_scan (by decide) (by decide)
  rw [scan_string, stringBody_escaped]
  simp [Except.map]

/-! Numbers are written with the digits that their reading adds up. -/

theorem natOfDigits_toDigits (n : Nat) : Decimal.natOfDigits (Nat.toDigits 10 n) = n := by
  have hfold : Decimal.natOfDigits (Nat.toDigits 10 n) = Nat.ofDigitChars 10 (Nat.toDigits 10 n) 0 := by
    simp only [Decimal.natOfDigits, Nat.ofDigitChars, Decimal.digitValue, Nat.mul_comm]
  rw [hfold, Nat.ofDigitChars_ten_toDigits]

theorem isDigit_of_mem_toDigits {n : Nat} {c : Char} (h : c ∈ Nat.toDigits 10 n) :
    Decimal.isDigit c = true := by
  have hdigit := Nat.isDigit_of_mem_toDigits (by decide) (by decide) h
  simp only [Char.isDigit, Bool.and_eq_true, decide_eq_true_eq] at hdigit
  simp only [Decimal.isDigit, Bool.and_eq_true, decide_eq_true_eq]
  exact hdigit

theorem integer?_digits {cs : List Char} (hne : cs ≠ []) (hall : ∀ c ∈ cs, Decimal.isDigit c = true) :
    Decimal.integer? cs = some (Decimal.natOfDigits cs : Int) := by
  obtain ⟨c, rest, rfl⟩ := List.exists_cons_of_ne_nil hne
  have hc := hall c List.mem_cons_self
  have hsign : Decimal.takeSign (c :: rest) = (false, c :: rest) := by
    unfold Decimal.takeSign
    split
    · simp_all [Decimal.isDigit]
    · simp_all [Decimal.isDigit]
    · rfl
  simp [Decimal.integer?, hsign, List.all_eq_true.2 hall]

theorem integer?_negative {cs : List Char} (hne : cs ≠ [])
    (hall : ∀ c ∈ cs, Decimal.isDigit c = true) :
    Decimal.integer? ('-' :: cs) = some (-(Decimal.natOfDigits cs : Int)) := by
  have hempty : cs.isEmpty = false := by simp [hne]
  simp [Decimal.integer?, Decimal.takeSign, hempty, List.all_eq_true.2 hall]

theorem number_of_integer? {text : List Char} {n : Int64} (h : Decimal.integer? text = some n.toInt) :
    number text = .ok (.integer n) := by
  simp only [number, h, if_pos (And.intro n.minValue_le_toInt n.toInt_le), Int64.ofInt_toInt]

theorem isDigit_isSymbolChar {c : Char} (h : Decimal.isDigit c = true) : isSymbolChar c = true :=
  isSymbolChar_of_isAlphanum (isAlphanum_of_isDigit h)

theorem scan_number {c : Char} {cs : List Char} {kind : TokenKind}
    (hc : Decimal.isDigit c = true ∨ c = '-' ∧ cs ≠ [])
    (hcs : ∀ d ∈ cs, Decimal.isDigit d = true) (h : number (c :: cs) = .ok kind) :
    scan c cs = .ok (kind, cs.length) := by
  have hleader : c ∉ leaders := by
    rcases hc with hc | ⟨rfl, _⟩
    · intro hmem
      have hall : (leaders.all fun d => !Decimal.isDigit d) = true := by decide
      have hnone := List.all_eq_true.1 hall c hmem
      rw [hc] at hnone
      cases hnone
    · decide
  have hhash : c ≠ '#' := by
    rcases hc with hc | ⟨rfl, _⟩
    · rintro rfl
      cases hc
    · decide
  have hnumber : Decimal.isDigit c = true ∨
      ((c = '+' ∨ c = '-') ∧ cs.head?.any Decimal.isDigit = true) := by
    rcases hc with hc | ⟨rfl, hne⟩
    · exact .inl hc
    · obtain ⟨d, ds, rfl⟩ := List.exists_cons_of_ne_nil hne
      exact .inr ⟨.inr rfl, hcs d List.mem_cons_self⟩
  rw [scan_of_not_leader hleader, if_neg (fun hq => hhash hq.1), if_neg (fun hp => hhash hp.1),
    if_pos hnumber, symbolLength_eq fun d hd => isDigit_isSymbolChar (hcs d hd), List.take_length, h]
  rfl

theorem lexes_int (n : Int64) : Lexes (toString n.toInt).toList [.integer n] := by
  have hall : ∀ k : Nat, ∀ d ∈ Nat.toDigits 10 k, Decimal.isDigit d = true :=
    fun k d hd => isDigit_of_mem_toDigits hd
  rw [Int.toString_eq_repr, Int.repr_eq_if]
  split
  · rename_i hpos
    rw [Nat.toList_repr]
    have hint := integer?_digits Nat.toDigits_ne_nil (hall n.toInt.toNat)
    rw [natOfDigits_toDigits, Int.toNat_of_nonneg hpos] at hint
    have hdigits := hall n.toInt.toNat
    obtain ⟨c, cs, hcs⟩ := List.exists_cons_of_ne_nil (Nat.toDigits_ne_nil (n := n.toInt.toNat) (b := 10))
    rw [hcs] at hint hdigits ⊢
    have hc := hdigits c List.mem_cons_self
    obtain ⟨hblank, hsemi⟩ := isSymbolChar_starts (isDigit_isSymbolChar hc)
    exact lexes_of_scan hblank hsemi (scan_number (.inl hc)
      (fun d hd => hdigits d (List.mem_cons_of_mem c hd)) (number_of_integer? hint))
  · rename_i hneg
    rw [String.toList_append, Nat.toList_repr]
    have hint := integer?_negative Nat.toDigits_ne_nil (hall (-n.toInt).toNat)
    rw [natOfDigits_toDigits, Int.toNat_of_nonneg (by omega), Int.neg_neg] at hint
    exact lexes_of_scan (by decide) (by decide) (scan_number (.inr ⟨rfl, Nat.toDigits_ne_nil⟩)
      (hall (-n.toInt).toNat) (number_of_integer? hint))

end LazyLisp.Token
