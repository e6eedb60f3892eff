import LazyLisp.Proofs.Literals
import LazyLisp.Text.Bytes
import Mathlib

/-!
Tokens tile their text. The bytes of a text that no token takes are blanks, commas and comments, the
line and column of a token are those of its first character, and the characters of a token are that
token again when they stand alone.
-/

namespace LazyLisp
set_option autoImplicit false

namespace Text

/-- The characters that fill the first `n` bytes, if some do. -/
def takeBytes : List Char → Nat → Option (List Char)
  | _, 0 => some []
  | [], _ + 1 => none
  | c :: cs, n + 1 =>
    if c.utf8Size ≤ n + 1 then (takeBytes cs (n + 1 - c.utf8Size)).map (c :: ·) else none

/-- The characters between two byte offsets, if both are boundaries. -/
def slice? (cs : List Char) (start stop : Nat) : Option (List Char) :=
  if start ≤ stop then (dropBytes cs start).bind (takeBytes · (stop - start)) else none

theorem takeBytes_byteLength (a b : List Char) : takeBytes (a ++ b) (byteLength a) = some a := by
  induction a with
  | nil => cases b <;> rfl
  | cons c cs ih =>
    have hpos := Char.utf8Size_pos c
    obtain ⟨k, hk⟩ : ∃ k, c.utf8Size + byteLength cs = k + 1 :=
      ⟨c.utf8Size + byteLength cs - 1, by omega⟩
    have hsub : k + 1 - c.utf8Size = byteLength cs := by omega
    rw [List.cons_append, byteLength_cons, hk, takeBytes, if_pos (by omega), hsub, ih]
    rfl

theorem slice?_append (a b c : List Char) :
    slice? (a ++ (b ++ c)) (byteLength a) (byteLength (a ++ b)) = some b := by
  have hsub : byteLength (a ++ b) - byteLength a = byteLength b := by simp
  rw [slice?, if_pos (by simp), dropBytes_byteLength, hsub]
  exact takeBytes_byteLength b c

theorem isBoundary_append (a b : List Char) : IsBoundary (a ++ b) (byteLength a) :=
  ⟨a, b, rfl, rfl⟩

theorem byteLength_pos {cs : List Char} (h : cs ≠ []) : 0 < byteLength cs := by
  cases cs with
  | nil => exact absurd rfl h
  | cons c cs =>
    have hpos := Char.utf8Size_pos c
    rw [byteLength_cons]
    omega

end Text

/-- A place counts the bytes, the lines, and the characters of the last line. -/
theorem Place.after_start (cs : List Char) :
    ({} : Place).after cs =
      ⟨Text.byteLength cs, 1 + cs.count '\n', 1 + (cs.reverse.takeWhile (· != '\n')).length⟩ := by
  induction cs using List.reverseRecOn with
  | nil => rfl
  | append_singleton cs c ih =>
    rw [Place.after_append, ih, Place.after_cons, Place.after_nil, Place.step]
    by_cases hc : c = '\n'
    · subst hc
      simp [Nat.add_assoc]
    · simp [hc, Nat.add_comm]

/-- As long as the number of characters read is a word of 32 bits with room for one more, so are
line and column. -/
theorem Place.after_start_lt {cs : List Char} (h : cs.length + 1 < UInt32.size) :
    (({} : Place).after cs).line < UInt32.size ∧ (({} : Place).after cs).column < UInt32.size := by
  have hline : cs.count '\n' ≤ cs.length := List.count_le_length
  have hcolumn : (cs.reverse.takeWhile (· != '\n')).length ≤ cs.length := by
    have hle := (List.takeWhile_prefix (· != '\n') (l := cs.reverse)).length_le
    rwa [List.length_reverse] at hle
  rw [Place.after_start]
  dsimp only
  omega

/-- The span of a text behind another. -/
def Span.behind (before body : List Char) : Span :=
  ⟨Text.byteLength before, Text.byteLength (before ++ body), 1 + before.count '\n',
    1 + (before.reverse.takeWhile (· != '\n')).length⟩

theorem Span.between_after (before body : List Char) :
    .between (({} : Place).after before) ((({} : Place).after before).after body) =
      Span.behind before body := by
  rw [← Place.after_append, Place.after_start, Place.after_start]
  rfl

namespace Token

/-! What stands between tokens. -/

/-- Blanks, commas and comments. A comment runs to a line feed; where the text ends behind it, one
may run to the end. -/
inductive Skipped (atEnd : Prop) : List Char → Prop
  | nil : Skipped atEnd []
  | blank {c : Char} {cs : List Char} (hc : Text.isBlank c = true ∨ c = ',')
      (h : Skipped atEnd cs) : Skipped atEnd (c :: cs)
  | comment {body cs : List Char} (hbody : '\n' ∉ body) (h : Skipped atEnd cs) :
      Skipped atEnd (';' :: (body ++ '\n' :: cs))
  | lastComment {body : List Char} (hend : atEnd) (hbody : '\n' ∉ body) :
      Skipped atEnd (';' :: body)

theorem Skipped.mono {p q : Prop} (hpq : p → q) {cs : List Char} (h : Skipped p cs) :
    Skipped q cs := by
  induction h with
  | nil => exact .nil
  | blank hc _ ih => exact .blank hc ih
  | comment hbody _ ih => exact .comment hbody ih
  | lastComment hend hbody => exact .lastComment (hpq hend) hbody

/-- What is left of a comment, and what is skipped behind it. -/
inductive Commented (atEnd : Prop) : List Char → Prop
  | line {body cs : List Char} (hbody : '\n' ∉ body) (h : Skipped atEnd cs) :
      Commented atEnd (body ++ '\n' :: cs)
  | last {body : List Char} (hend : atEnd) (hbody : '\n' ∉ body) : Commented atEnd body

theorem Commented.cons {atEnd : Prop} {c : Char} {cs : List Char} (hc : c ≠ '\n')
    (h : Commented atEnd cs) : Commented atEnd (c :: cs) := by
  cases h with
  | @line body cs hbody h =>
    rw [← List.cons_append]
    exact .line (by simp [hc.symm, hbody]) h
  | last hend hbody => exact .last hend (by simp [hc.symm, hbody])

theorem Commented.skipped {atEnd : Prop} {cs : List Char} (h : Commented atEnd cs) :
    Skipped atEnd (';' :: cs) := by
  cases h with
  | line hbody h => exact .comment hbody h
  | last hend hbody => exact .lastComment hend hbody

/-- Both states of the walk over a gap, by induction on the text: in a comment and outside. -/
theorem gap_skips (text : List Char) :
    Skipped (text.drop (gap false text) = []) (text.take (gap false text)) ∧
      Commented (text.drop (gap true text) = []) (text.take (gap true text)) := by
  induction text with
  | nil => exact ⟨.nil, .last rfl (by simp)⟩
  | cons c cs ih =>
    obtain ⟨houtside, hinside⟩ := ih
    constructor
    · rw [gap, if_neg (by decide)]
      split_ifs with hblank hsemi
      · rw [List.take_succ_cons, List.drop_succ_cons]
        exact .blank (by simpa using hblank) houtside
      · obtain rfl : c = ';' := by simpa using hsemi
        rw [List.take_succ_cons, List.drop_succ_cons]
        exact hinside.skipped
      · exact .nil
    · rw [gap, if_pos rfl, List.take_succ_cons, List.drop_succ_cons]
      by_cases hc : c = '\n'
      · subst hc
        rw [bne_self_eq_false, ← List.nil_append ('\n' :: _)]
        exact .line List.not_mem_nil houtside
      · rw [bne_iff_ne.2 hc]
        exact hinside.cons hc

/-! A token alone. -/

theorem head?_of_take {n : Nat} {cs : List Char} {c : Char} (h : (cs.take n).head? = some c) :
    cs.head? = some c := by
  cases n <;> cases cs <;> simp_all

theorem takeWhile_take (p : Char → Bool) (cs : List Char) :
    (cs.take (cs.takeWhile p).length).takeWhile p = cs.takeWhile p := by
  have htake : cs.take (cs.takeWhile p).length = cs.takeWhile p :=
    (List.prefix_iff_eq_take.1 (List.takeWhile_prefix p)).symm
  rw [htake, List.takeWhile_takeWhile]
  simp

theorem symbolLength_take (cs : List Char) :
    symbolLength (cs.take (symbolLength cs)) = symbolLength cs := by
  rw [symbolLength, symbolLength, takeWhile_take]

/-- A string ends at its closing quote, and what stands behind does not matter. -/
theorem stringBody_take {read : Nat} {cs s : List Char} {n : Nat}
    (h : stringBody read cs = .ok (s, n)) :
    ∃ k, n = read + (k + 1) ∧ stringBody read (cs.take (k + 1)) = .ok (s, n) := by
  fun_induction stringBody read cs generalizing s n with
  | case1 | case3 | case4 => cases h
  | case2 read cs =>
    cases h
    exact ⟨0, rfl, by simp [stringBody]⟩
  | case5 read code cs c hu ih =>
    obtain ⟨r, hb, heq⟩ := map_eq_ok.1 h
    obtain ⟨k, hn, htake⟩ := ih hb
    cases heq
    refine ⟨k + 2, by omega, ?_⟩
    simp only [List.take_succ_cons, stringBody, hu] at htake ⊢
    rw [htake]
    rfl
  | case6 read c cs hq hend hcode ih =>
    obtain ⟨r, hb, heq⟩ := map_eq_ok.1 h
    obtain ⟨k, hn, htake⟩ := ih hb
    cases heq
    have hslash : c ≠ '\\' := by cases cs <;> grind
    refine ⟨k + 1, by omega, ?_⟩
    rw [List.take_succ_cons, stringBody_plain read hq hslash, htake]
    rfl

theorem patternBody_take {read : Nat} {cs s : List Char} {n : Nat}
    (h : patternBody read cs = .ok (s, n)) :
    ∃ k, n = read + (k + 1) ∧ patternBody read (cs.take (k + 1)) = .ok (s, n) := by
  fun_induction patternBody read cs generalizing s n with
  | case1 | case3 => cases h
  | case2 read cs =>
    cases h
    exact ⟨0, rfl, by simp [patternBody]⟩
  | case4 read code cs ih =>
    obtain ⟨r, hb, heq⟩ := map_eq_ok.1 h
    obtain ⟨k, hn, htake⟩ := ih hb
    cases heq
    refine ⟨k + 2, by omega, ?_⟩
    simp only [List.take_succ_cons, patternBody] at htake ⊢
    rw [htake]
    rfl
  | case5 read c cs hq hend hcode ih =>
    obtain ⟨r, hb, heq⟩ := map_eq_ok.1 h
    obtain ⟨k, hn, htake⟩ := ih hb
    cases heq
    have hslash : c ≠ '\\' := by cases cs <;> grind
    refine ⟨k + 1, by omega, ?_⟩
    rw [List.take_succ_cons, patternBody_plain read hq hslash, htake]
    rfl

/-- A digit in front belongs to the word. -/
theorem head?_take_word_any (cs : List Char) :
    (cs.take (symbolLength cs)).head?.any Decimal.isDigit = cs.head?.any Decimal.isDigit := by
  cases cs with
  | nil => rfl
  | cons c cs =>
    cases hc : Decimal.isDigit c with
    | false => cases hn : symbolLength (c :: cs) <;> simp [hc]
    | true =>
      have hsym := isDigit_isSymbolChar hc
      simp [symbolLength, hsym, hc]

theorem scan_take {c : Char} {cs : List Char} {kind : TokenKind} {k : Nat}
    (h : scan c cs = .ok (kind, k)) : scan c (cs.take k) = .ok (kind, k) := by
  by_cases hc : c ∈ leaders
  · simp only [leaders, List.mem_cons, List.not_mem_nil, or_false] at hc
    rcases hc with rfl | rfl | rfl | rfl | rfl | rfl | rfl | rfl | rfl | rfl | rfl | rfl | rfl
    iterate 9 (cases h; rfl)
    · simp only [scan] at h
      split at h
      · rename_i hhead
        obtain ⟨rest, rfl⟩ := List.head?_eq_some_iff.1 hhead
        cases h
        rfl
      · cases h
        rfl
    · simp only [scan] at h
      split at h
      · cases h
      · rename_i hword
        cases h
        simp only [scan, symbolLength_take, if_neg hword, List.take_take, min_self]
    · rw [scan_string] at h
      obtain ⟨r, hb, heq⟩ := map_eq_ok.1 h
      obtain ⟨j, hn, htake⟩ := stringBody_take hb
      cases heq
      rw [scan_string, show r.2 = j + 1 by omega, htake]
      exact congrArg (fun n => Except.ok (_, n)) (by omega)
    · cases cs with
      | nil => cases h
      | cons first cs =>
        obtain ⟨r, hk, heq⟩ := map_eq_ok.1 h
        cases heq
        simp only [scan, List.take_succ_cons]
        split_ifs at hk ⊢ with hfirst
        · rw [takeWhile_take, hk]
          rfl
        · rw [hk]
          rfl
  · rw [scan_of_not_leader hc] at h
    split_ifs at h with h1 h2 h3
    · obtain ⟨rfl, hhead⟩ := h1
      obtain ⟨rest, rfl⟩ := List.head?_eq_some_iff.1 hhead
      cases h
      rfl
    · obtain ⟨rfl, hhead⟩ := h2
      obtain ⟨rest, rfl⟩ := List.head?_eq_some_iff.1 hhead
      obtain ⟨r, hb, heq⟩ := map_eq_ok.1 h
      obtain ⟨j, hn, htake⟩ := patternBody_take hb
      cases heq
      rw [List.tail_cons] at htake
      rw [hn, Nat.add_comm 1, List.take_succ_cons, scan_of_not_leader hc, if_neg (by simp),
        if_pos (by simp), List.tail_cons, htake]
      exact congrArg (fun n => Except.ok (_, n)) (by omega)
    · obtain ⟨kind, hk, heq⟩ := map_eq_ok.1 h
      cases heq
      rw [scan_of_not_leader hc, if_neg fun hm => h1 (hm.imp_right head?_of_take),
        if_neg fun hm => h2 (hm.imp_right head?_of_take), head?_take_word_any, if_pos h3,
        symbolLength_take, List.take_take, min_self, hk]
      rfl
    · cases h
      rw [scan_of_not_leader hc, if_neg fun hm => h1 (hm.imp_right head?_of_take),
        if_neg fun hm => h2 (hm.imp_right head?_of_take), head?_take_word_any, if_neg h3,
        symbolLength_take, List.take_take, min_self]

/-- The kinds of the tokens of a text that holds one token. -/
def aloneKinds : TokenKind → List TokenKind
  | .ending => [.ending]
  | kind => [kind, .ending]

theorem aloneKinds_of_ne {kind : TokenKind} (h : kind ≠ .ending) :
    aloneKinds kind = [kind, .ending] := by
  cases kind <;> first | rfl | exact absurd rfl h

/-- The characters of a token make that token and no other. -/
theorem outline_token {text cs : List Char} {c : Char} {kind : TokenKind} {k : Nat}
    (hdrop : text.drop (gap false text) = c :: cs) (hscan : scan c cs = .ok (kind, k)) :
    outline (tokensFrom {} (c :: cs.take k)) = .ok (aloneKinds kind) := by
  obtain ⟨hblank, hcomma, hsemi⟩ := not_gap_of_drop hdrop
  have hgap : gap false (c :: (cs.take k ++ [])) = 0 :=
    gap_eq_zero (by simp [hblank, hcomma]) hsemi _
  have hlen : (cs.take k).length = k := by simp [scan_le hscan]
  have hout := outline_of_scan hgap (by rw [List.append_nil, scan_take hscan, hlen])
  rw [List.append_nil] at hout
  rw [hout, aloneKinds_of_ne (scan_ne_ending hscan), tokensFrom_of_gap {} rfl]
  rfl

/-! The text as a row of gaps and tokens. -/

/-- The text behind `front` is cut into the tokens, each behind its gap. -/
inductive Tiles : List Char → List Char → List Token → Prop
  | ending {front blanks : List Char} (hgap : Skipped True blanks) :
      Tiles front blanks [⟨.ending, .behind (front ++ blanks) []⟩]
  | token {front blanks body rest : List Char} {kind : TokenKind} {ts : List Token}
      (hgap : Skipped False blanks) (hbody : body ≠ []) (hkind : kind ≠ .ending)
      (halone : outline (tokensFrom {} body) = .ok (aloneKinds kind))
      (h : Tiles (front ++ blanks ++ body) rest ts) :
      Tiles front (blanks ++ (body ++ rest)) (⟨kind, .behind (front ++ blanks) body⟩ :: ts)

theorem tiles_of_tokensFrom {front text : List Char} {ts : List Token}
    (h : tokensFrom (({} : Place).after front) text = .ok ts) : Tiles front text ts := by
  induction hn : text.length using Nat.strongRecOn generalizing front text ts with
  | ind n ih =>
    have hskips := (gap_skips text).1
    have hsplit := (List.take_append_drop (gap false text) text).symm
    rw [tokensFrom_eq, ← Place.after_append] at h
    cases hd : text.drop (gap false text) with
    | nil =>
      rw [hd, List.append_nil] at hsplit
      have hspan := Span.between_after (front ++ text) []
      rw [Place.after_nil] at hspan
      rw [hd, tokensAt, ← hsplit, hspan] at h
      rw [← hsplit] at hskips
      cases h
      exact .ending (hskips.mono fun _ => trivial)
    | cons c cs =>
      have hlen := congrArg List.length hd
      simp only [List.length_drop, List.length_cons] at hlen
      rw [hd, tokensAt] at h
      cases hs : scan c cs with
      | error f => simp [hs] at h
      | ok r =>
        obtain ⟨kind, k⟩ := r
        simp only [hs] at h
        obtain ⟨more, hmore, rfl⟩ := map_eq_ok.1 h
        rw [Span.between_after]
        rw [← Place.after_append] at hmore
        have htiles := ih (cs.drop k).length (by rw [List.length_drop]; omega) hmore rfl
        have htext : text = text.take (gap false text) ++ ((c :: cs.take k) ++ cs.drop k) := by
          rw [List.cons_append, List.take_append_drop, ← hd, List.take_append_drop]
        have htile := Tiles.token (hskips.mono (by simp [hd])) (by simp) (scan_ne_ending hs)
          (outline_token hd hs) htiles
        rwa [← htext] at htile

namespace Tiles
variable {front text : List Char} {ts : List Token}

theorem ends (h : Tiles front text ts) :
    ∃ init line column,
      ts = init ++ [⟨.ending, Text.byteLength (front ++ text), Text.byteLength (front ++ text),
        line, column⟩] ∧
      ∀ t ∈ init, t.kind ≠ .ending ∧ t.span.start < t.span.stop := by
  induction h with
  | @ending front blanks hgap =>
    rw [Span.behind, List.append_nil]
    exact ⟨[], _, _, rfl, by simp⟩
  | @token front blanks body rest kind ts hgap hbody hkind halone h ih =>
    obtain ⟨init, line, column, rfl, hinit⟩ := ih
    simp only [List.append_assoc] at hinit ⊢
    refine ⟨_ :: init, line, column, rfl, ?_⟩
    intro t ht
    rcases List.mem_cons.1 ht with rfl | ht
    · have hpos := Text.byteLength_pos hbody
      refine ⟨hkind, ?_⟩
      simp only [Span.behind, Text.byteLength_append]
      omega
    · exact hinit t ht

/-- Every token has a part of the text to itself. -/
theorem part (h : Tiles front text ts) {t : Token} (ht : t ∈ ts) :
    ∃ before body behind, front ++ text = before ++ (body ++ behind) ∧
      t.span = .behind before body ∧
      outline (tokensFrom {} body) = .ok (aloneKinds t.kind) := by
  induction h with
  | @ending front blanks hgap =>
    cases List.mem_singleton.1 ht
    refine ⟨front ++ blanks, [], [], by simp, rfl, ?_⟩
    rw [tokensFrom_of_gap {} rfl]
    rfl
  | @token front blanks body rest kind ts hgap hbody hkind halone h ih =>
    rcases List.mem_cons.1 ht with rfl | ht
    · exact ⟨front ++ blanks, body, rest, by simp, rfl, halone⟩
    · simpa using ih ht

theorem le_start (h : Tiles front text ts) : ∀ t ∈ ts, Text.byteLength front ≤ t.span.start := by
  induction h with
  | ending hgap => simp [Span.behind]
  | token hgap hbody hkind halone h ih =>
    intro t ht
    rcases List.mem_cons.1 ht with rfl | ht
    · simp [Span.behind]
    · have hle := ih t ht
      simp only [Text.byteLength_append] at hle
      omega

theorem ordered (h : Tiles front text ts) : ts.Pairwise fun a b => a.span.stop ≤ b.span.start := by
  induction h with
  | ending hgap => exact List.pairwise_singleton _ _
  | token hgap hbody hkind halone h ih => exact List.pairwise_cons.2 ⟨h.le_start, ih⟩

theorem gaps (h : Tiles front text ts) :
    ∀ p ∈ (Text.byteLength front :: ts.map (·.span.stop)).zip ts,
      ∃ blanks, Text.slice? (front ++ text) p.1 p.2.span.start = some blanks ∧
        Skipped (p.2.kind = .ending) blanks := by
  induction h with
  | @ending front blanks hgap =>
    intro p hp
    cases List.mem_singleton.1 hp
    refine ⟨blanks, ?_, hgap.mono fun _ => rfl⟩
    have hslice := Text.slice?_append front blanks []
    rwa [List.append_nil] at hslice
  | @token front blanks body rest kind ts hgap hbody hkind halone h ih =>
    intro p hp
    rw [List.map_cons, List.zip_cons_cons] at hp
    rcases List.mem_cons.1 hp with rfl | hp
    · exact ⟨blanks, Text.slice?_append front blanks (body ++ rest), hgap.mono False.elim⟩
    · simpa using ih p hp

end Tiles

/-- In a text of fewer than 2 ^ 32 - 1 characters, lines and columns of tokens are words of 32
bits. -/
theorem tokens_lt_size {source : String} {ts : List Token} (h : tokens source = .ok ts)
    (hsize : source.toList.length + 1 < UInt32.size) :
    ∀ t ∈ ts, t.span.line < UInt32.size ∧ t.span.column < UInt32.size := by
  intro t ht
  have htiles : Tiles [] source.toList ts := tiles_of_tokensFrom h
  obtain ⟨before, body, behind, hsource, hspan, -⟩ := htiles.part ht
  have hlength : source.toList.length = before.length + (body ++ behind).length := by
    rw [← List.length_append, ← hsource, List.nil_append]
  rw [hspan, ← Span.between_after]
  exact Place.after_start_lt (by omega)

/-- How the tokens of a text lie in it. -/
structure Tiling (source : List Char) (ts : List Token) : Prop where
  /-- The last token alone marks the end and takes nothing; all others take something. -/
  ends : ∃ init line column,
    ts = init ++ [⟨.ending, Text.byteLength source, Text.byteLength source, line, column⟩] ∧
    ∀ t ∈ init, t.kind ≠ .ending ∧ t.span.start < t.span.stop
  ordered : ts.Pairwise fun a b => a.span.stop ≤ b.span.start
  boundaries : ∀ t ∈ ts,
    Text.IsBoundary source t.span.start ∧ Text.IsBoundary source t.span.stop
  /-- Between the end of a token, or of nothing, and the start of the next one. -/
  gaps : ∀ p ∈ (0 :: ts.map (·.span.stop)).zip ts,
    ∃ blanks, Text.slice? source p.1 p.2.span.start = some blanks ∧
      Skipped (p.2.kind = .ending) blanks
  places : ∀ t ∈ ts, ∃ before, Text.slice? source 0 t.span.start = some before ∧
    t.span.line = 1 + before.count '\n' ∧
    t.span.column = 1 + (before.reverse.takeWhile (· != '\n')).length
  alone : ∀ t ∈ ts, ∃ body, Text.slice? source t.span.start t.span.stop = some body ∧
    outline (tokens (String.ofList body)) = .ok (aloneKinds t.kind)

theorem tokens_tile {source : String} {ts : List Token} (h : tokens source = .ok ts) :
    Tiling source.toList ts := by
  have htiles : Tiles [] source.toList ts := tiles_of_tokensFrom h
  refine ⟨htiles.ends, htiles.ordered, ?_, htiles.gaps, ?_, ?_⟩
  all_goals
    intro t ht
    obtain ⟨before, body, behind, hsource, hspan, halone⟩ := htiles.part ht
    rw [List.nil_append] at hsource
    rw [hsource, hspan]
  · refine ⟨Text.isBoundary_append _ _, ?_⟩
    rw [← List.append_assoc]
    exact Text.isBoundary_append _ _
  · exact ⟨before, Text.slice?_append [] before _, rfl, rfl⟩
  · refine ⟨body, Text.slice?_append before body behind, ?_⟩
    rwa [tokens, String.toList_ofList]

theorem tokens_tile_two_lines :
    tokens "\u03bb; to the end\n,\"a\n\u00e9\" 'x ;" = .ok
      [⟨.symbol "\u03bb", 0, 2, 1, 1⟩, ⟨.string "a\n\u00e9", 16, 22, 2, 2⟩,
        ⟨.mark .quote, 23, 24, 3, 4⟩, ⟨.symbol "x", 24, 25, 3, 5⟩, ⟨.ending, 27, 27, 3, 8⟩] ∧
    Tiling "\u03bb; to the end\n,\"a\n\u00e9\" 'x ;".toList
      [⟨.symbol "\u03bb", 0, 2, 1, 1⟩, ⟨.string "a\n\u00e9", 16, 22, 2, 2⟩,
        ⟨.mark .quote, 23, 24, 3, 4⟩, ⟨.symbol "x", 24, 25, 3, 5⟩, ⟨.ending, 27, 27, 3, 8⟩] :=
  ⟨by cbv, tokens_tile (by cbv)⟩

end Token
end LazyLisp
