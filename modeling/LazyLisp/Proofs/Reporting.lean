import LazyLisp.Proofs.Literals
import LazyLisp.Report
import Mathlib.Algebra.Ring.Nat

/-!
Plain and coloured reports. Each of the two texts can be laid out by a walk of its own over the
lines around the place, with numbers that a machine has: whatever line and column an error names, no
step of a walk goes wrong, and what it lays out is the report. Without its colour sequences the
coloured report is the plain one.
-/

namespace LazyLisp.Report
set_option autoImplicit false

/-! Colour sequences. -/

/-- The text without its colour sequences. Such a sequence starts with an escape character and goes
up to the next `m`; `inSequence` tells whether the text starts inside of one. -/
def bleach (inSequence : Bool) : List Char → List Char
  | [] => []
  | c :: cs =>
    if inSequence then bleach (c != 'm') cs
    else if c = '\x1b' then bleach true cs
    else c :: bleach false cs

/-- No character of the text is an escape character. -/
def Clean (text : List Char) : Prop := '\x1b' ∉ text

instance (text : List Char) : Decidable (Clean text) := inferInstanceAs (Decidable (¬ _ ∈ text))

theorem bleach_append {text : List Char} (h : Clean text) (rest : List Char) :
    bleach false (text ++ rest) = text ++ bleach false rest := by
  induction text with
  | nil => rfl
  | cons c cs ih =>
    obtain ⟨hc, hcs⟩ := List.ne_and_not_mem_of_not_mem_cons h
    rw [List.cons_append, bleach, if_neg Bool.false_ne_true, if_neg hc.symm, ih hcs,
      List.cons_append]

theorem bleach_start (t : Tint) (rest : List Char) :
    bleach false (t.start ++ rest) = bleach false rest := by
  cases t <;> rfl

theorem bleach_reset (rest : List Char) : bleach false (reset ++ rest) = bleach false rest := rfl

/-- A tint is switched on again behind an escape character only. -/
theorem restart_eq (start : List Char) {text : List Char} (h : Clean text) :
    restart start text = text := by
  fun_induction restart start text with
  | case1 rest ih => exact absurd List.mem_cons_self h
  | case2 c rest hc ih => rw [ih (List.not_mem_of_not_mem_cons h)]
  | case3 => rfl

theorem bleach_coloured {p : Piece} (h : Clean p.text.toList) (rest : List Char) :
    bleach false (p.coloured.toList ++ rest) = p.text.toList ++ bleach false rest := by
  obtain ⟨text, tint⟩ := p
  cases tint with
  | none => exact bleach_append h rest
  | some t =>
    rw [Piece.coloured, String.toList_ofList, restart_eq _ h, List.append_assoc, List.append_assoc,
      bleach_start, bleach_append h, bleach_reset]

theorem bleach_pieces {ps : List Piece} (h : ∀ p ∈ ps, Clean p.text.toList) :
    bleach false (String.join (ps.map Piece.coloured)).toList =
      (String.join (ps.map (·.text))).toList := by
  induction ps with
  | nil => rfl
  | cons p ps ih =>
    obtain ⟨hp, hps⟩ := List.forall_mem_cons.1 h
    rw [List.map_cons, List.map_cons, String.join_cons, String.join_cons, String.toList_append,
      String.toList_append, bleach_coloured hp, ih hps]

/-! Texts of reports have only the escape characters that the source and the message have. -/

theorem clean_append {a b : List Char} : Clean (a ++ b) ↔ Clean a ∧ Clean b := by
  rw [Clean, List.mem_append, not_or]
  rfl

theorem clean_toString (n : Nat) : Clean (toString n).toList := by
  intro h
  have hdigit := Token.isDigit_of_mem_toDigits (n := n) (by simpa using h)
  exact absurd hdigit (by decide)

theorem subset_of_mem_pieces {p : Char → Bool} {cs piece : List Char}
    (h : piece ∈ Text.pieces p cs) : piece ⊆ cs := by
  fun_induction Text.pieces p cs generalizing piece with
  | case1 => simp_all
  | case2 c cs hc ih =>
    rcases List.mem_cons.1 h with rfl | h
    · exact List.nil_subset _
    · exact List.Subset.trans (ih h) (List.subset_cons_self c cs)
  | case3 c cs hc hnil ih =>
    rw [List.mem_singleton.1 h]
    exact List.cons_subset_cons c (List.nil_subset cs)
  | case4 c cs hc w ws hcons ih =>
    rcases List.mem_cons.1 h with rfl | h
    · exact List.cons_subset_cons c (ih (hcons ▸ List.mem_cons_self))
    · exact List.Subset.trans (ih (hcons ▸ List.mem_cons_of_mem w h)) (List.subset_cons_self c cs)

theorem subset_of_mem_lines {source line : String} (h : line ∈ Text.lines source) :
    line.toList ⊆ source.toList := by
  simp only [Text.lines, List.mem_map, List.mem_append] at h
  obtain ⟨cs, h | h, rfl⟩ := h
  · obtain ⟨l, hl, rfl⟩ := h
    have hsub := subset_of_mem_pieces (List.dropLast_subset _ hl)
    rw [String.toList_ofList]
    split
    · exact List.Subset.trans (List.dropLast_subset l) hsub
    · exact hsub
  · split at h
    · next c cs' hlast =>
      rw [List.mem_singleton.1 h, String.toList_ofList]
      exact subset_of_mem_pieces (List.mem_of_getLast? hlast)
    · exact absurd h List.not_mem_nil

theorem clean_numbered {mark line : String} (number : Nat) (hmark : Clean mark.toList)
    (hline : Clean line.toList) : Clean (numbered mark number line).toList := by
  have hpad : Clean (List.leftpad 4 ' ' (toString number).toList) := by
    rw [List.leftpad, clean_append]
    refine ⟨fun h => ?_, clean_toString number⟩
    exact absurd (List.eq_of_mem_replicate h) (by decide)
  simp only [numbered, String.toList_append, clean_append, String.toList_ofList]
  exact ⟨⟨⟨⟨hmark, hpad⟩, by decide⟩, hline⟩, by decide⟩

theorem clean_contextLine {place column index : Nat} {line : String} (hline : Clean line.toList)
    {p : Piece} (h : p ∈ contextLine place column index line) : Clean p.text.toList := by
  unfold contextLine at h
  split at h
  · rcases List.mem_cons.1 h with rfl | h
    · exact clean_numbered _ (by decide) hline
    · unfold caret at h
      split at h
      · simp only [List.mem_cons, List.not_mem_nil, or_false] at h
        rcases h with rfl | rfl | rfl | rfl
        · decide
        · rw [String.toList_ofList]
          exact fun h => absurd (List.eq_of_mem_replicate h) (by decide)
        · decide
        · decide
      · exact absurd h List.not_mem_nil
  · split at h
    · rw [List.mem_singleton.1 h]
      exact clean_numbered _ (by decide) hline
    · exact absurd h List.not_mem_nil

theorem clean_heading {kind message : String} {line column : Nat} (hkind : Clean kind.toList)
    (hmessage : Clean message.toList) {p : Piece} (h : p ∈ heading kind line column message) :
    Clean p.text.toList := by
  simp only [heading, List.mem_append, List.mem_cons, List.not_mem_nil, or_false] at h
  rcases h with ((rfl | rfl) | h) | rfl | rfl | rfl
  · decide
  · change Clean (kind ++ " at line " ++ toString line).toList
    simp only [String.toList_append, clean_append]
    exact ⟨⟨hkind, by decide⟩, clean_toString line⟩
  · split at h
    · rw [List.mem_singleton.1 h]
      change Clean (", column " ++ toString column).toList
      simp only [String.toList_append, clean_append]
      exact ⟨by decide, clean_toString column⟩
    · exact absurd h List.not_mem_nil
  · decide
  · exact hmessage
  · decide

/-- The words of a failure that cannot be read are a part of its message. -/
theorem clean_parts {e : ReadError} (h : Clean e.message.toList) :
    Clean e.parts.1.toList ∧ Clean e.parts.2.2.2.toList := by
  change Clean (e.parts.1 ++ " at line " ++ toString e.parts.2.1 ++ ", column " ++
    toString e.parts.2.2.1 ++ ": " ++ e.parts.2.2.2).toList at h
  simp only [String.toList_append, clean_append] at h
  exact ⟨h.1.1.1.1.1.1, h.2⟩

theorem clean_pieces {failure : Failure} {source : String} (hsource : Clean source.toList)
    (hmessage : Clean failure.message.toList) {p : Piece} (h : p ∈ pieces failure source) :
    Clean p.text.toList := by
  have hother : p ∈ [⟨"\n", none⟩, ⟨failure.message, some .alarm⟩, ⟨"\n", none⟩] →
      Clean p.text.toList := by
    simp only [List.mem_cons, List.not_mem_nil, or_false]
    rintro (rfl | rfl | rfl)
    · decide
    · exact hmessage
    · decide
  cases failure with
  | read e =>
    obtain ⟨hkind, htext⟩ := clean_parts hmessage
    rcases List.mem_append.1 h with h | h
    · exact clean_heading hkind htext h
    · obtain ⟨⟨line, index⟩, hline, h⟩ := List.mem_flatMap.1 h
      have hmem := List.fst_mem_of_mem_zipIdx hline
      exact clean_contextLine (fun hc => hsource (subset_of_mem_lines hmem hc)) h
  | eval e => exact hother h
  | load file cause => exact hother h
  | exhausted => exact hother h

/-! The two walks, with numbers of a machine. A step that such numbers do not allow goes wrong. -/

/-- The sum of two numbers, unless it is too large. -/
def plus? (a b : Nat) : Option Nat :=
  if a + b < 2 ^ 64 then some (a + b) else none

/-- The difference of two numbers, unless it is negative. -/
def minus? (a b : Nat) : Option Nat :=
  if b ≤ a then some (a - b) else none

/-- Blanks, unless they are more than a text can hold. -/
def blanks? (n : Nat) : Option String :=
  if n < 2 ^ 63 then some (String.ofList (List.replicate n ' ')) else none

/-- The lines around a place, with their indices: two on either side. -/
def window? (place : Nat) (lines : List String) : Option (List (String × Nat)) := do
  let stop ← plus? place 3
  return (lines.zipIdx.take (min stop lines.length)).drop (place - 2)

/-- A line of the plain report. -/
def plainLine? (place column : Nat) (line : String × Nat) : Option String := do
  let number ← plus? line.2 1
  if line.2 = place then
    let shown := numbered " → " number line.1
    if 0 < column then
      let indent ← blanks? (← minus? column 1)
      return shown ++ "        | " ++ indent ++ "^\n"
    else return shown
  else return numbered "   " number line.1

/-- What the plain report says first. -/
def plainHead (kind : String) (line column : Nat) (message : String) : String :=
  let title := "\n" ++ s!"{kind} at line {line}"
  let shown := if 0 < column then title ++ s!", column {column}" else title
  shown ++ ": " ++ message ++ "\n\n"

/-- The plain report, laid out line by line. -/
def plainText? (failure : Failure) (source : String) : Option String :=
  match failure with
  | .read e => do
    let (kind, line, column, message) := e.parts
    let place := line - 1
    let shown ← (← window? place (Text.lines source)).mapM (plainLine? place column)
    return plainHead kind line column message ++ String.join shown
  | .eval _ | .load .. | .exhausted => some ("\n" ++ failure.message ++ "\n")

/-- Text in a tint, between its two colour sequences. -/
def painted (t : Tint) (text : String) : String :=
  ({ text := text, tint := some t } : Piece).coloured

/-- A line of the coloured report. -/
def colouredLine? (place column : Nat) (line : String × Nat) : Option String := do
  let number ← plus? line.2 1
  if line.2 = place then
    let shown := painted .warning (numbered " → " number line.1)
    if 0 < column then
      let indent ← blanks? (← minus? column 1)
      return shown ++ painted .warning "        | " ++ indent ++ painted .alarm "^" ++ "\n"
    else return shown
  else return painted .faint (numbered "   " number line.1)

/-- What the coloured report says first. -/
def colouredHead (kind : String) (line column : Nat) (message : String) : String :=
  let title := "\n" ++ painted .alarm s!"{kind} at line {line}"
  let shown := if 0 < column then title ++ painted .alarm s!", column {column}" else title
  shown ++ ": " ++ painted .warning message ++ "\n\n"

/-- The coloured report, laid out line by line. -/
def colouredText? (failure : Failure) (source : String) : Option String :=
  match failure with
  | .read e => do
    let (kind, line, column, message) := e.parts
    let place := line - 1
    let shown ← (← window? place (Text.lines source)).mapM (colouredLine? place column)
    return colouredHead kind line column message ++ String.join shown
  | .eval _ | .load .. | .exhausted => some ("\n" ++ painted .alarm failure.message ++ "\n")

/-- The line and the column of the failure are words of 32 bits. -/
def Placed : Failure → Prop
  | .read e => e.parts.2.1 < 2 ^ 32 ∧ e.parts.2.2.1 < 2 ^ 32
  | .eval _ | .load .. | .exhausted => True

theorem plus?_eq_some {a b : Nat} (h : a + b < 2 ^ 64) : plus? a b = some (a + b) := if_pos h

theorem minus?_eq_some {a b : Nat} (h : b ≤ a) : minus? a b = some (a - b) := if_pos h

theorem blanks?_eq_some {n : Nat} (h : n < 2 ^ 63) :
    blanks? n = some (String.ofList (List.replicate n ' ')) := if_pos h

theorem mapM_eq_some_map {α β : Type} {f : α → Option β} {g : α → β} {xs : List α}
    (h : ∀ x ∈ xs, f x = some (g x)) : xs.mapM f = some (xs.map g) := by
  induction xs with
  | nil => rfl
  | cons x xs ih =>
    obtain ⟨hx, hxs⟩ := List.forall_mem_cons.1 h
    rw [List.mapM_cons, hx, ih hxs]
    rfl

/-- The indices of the lines around a place. -/
theorem bounds_of_mem_window {place : Nat} {lines : List String} {x : String × Nat}
    (h : x ∈ (lines.zipIdx.take (min (place + 3) lines.length)).drop (place - 2)) :
    place ≤ x.2 + 2 ∧ x.2 < place + 3 := by
  obtain ⟨i, hi, rfl⟩ := List.mem_drop_iff_getElem.1 h
  rw [List.getElem_take, List.getElem_zipIdx]
  rw [List.length_take] at hi
  dsimp only
  omega

/-- What makes nothing of lines out of the window can be told for the window alone. -/
theorem flatMap_window {α : Type} {f : String × Nat → List α} {place : Nat}
    (h : ∀ x, ¬ (place ≤ x.2 + 2 ∧ x.2 < place + 3) → f x = []) (lines : List String) :
    lines.zipIdx.flatMap f =
      ((lines.zipIdx.take (min (place + 3) lines.length)).drop (place - 2)).flatMap f := by
  have hbefore : ((lines.zipIdx.take (min (place + 3) lines.length)).take (place - 2)).flatMap f =
      [] := by
    refine List.flatMap_eq_nil_iff.2 fun x hx => h x fun hin => ?_
    obtain ⟨i, hi, rfl⟩ := List.mem_take_iff_getElem.1 hx
    rw [List.getElem_take, List.getElem_zipIdx] at hin
    dsimp only at hin
    omega
  have hbehind : (lines.zipIdx.drop (min (place + 3) lines.length)).flatMap f = [] := by
    refine List.flatMap_eq_nil_iff.2 fun x hx => h x fun hin => ?_
    obtain ⟨i, hi, rfl⟩ := List.mem_drop_iff_getElem.1 hx
    rw [List.getElem_zipIdx] at hin
    rw [List.length_zipIdx] at hi
    dsimp only at hin
    omega
  -- the lines before the window, those in it, those behind it
  conv_lhs => rw [← List.take_append_drop (min (place + 3) lines.length) lines.zipIdx,
    ← List.take_append_drop (place - 2) (lines.zipIdx.take _)]
  rw [List.flatMap_append, List.flatMap_append, hbefore, hbehind, List.nil_append, List.append_nil]

theorem contextLine_outside {place column : Nat} {x : String × Nat}
    (h : ¬ (place ≤ x.2 + 2 ∧ x.2 < place + 3)) : contextLine place column x.2 x.1 = [] := by
  rw [contextLine, if_neg (by omega), if_neg h]

/-- A walk over the window lays out the context if it lays out each of its lines. -/
theorem context_of_lines (place : Nat) {column : Nat} {line? : String × Nat → Option String}
    {text : Piece → String} (hplace : place < 2 ^ 32)
    (h : ∀ x : String × Nat, place ≤ x.2 + 2 ∧ x.2 < place + 3 →
      line? x = some (String.join ((contextLine place column x.2 x.1).map text)))
    (lines : List String) :
    ∃ window shown, window? place lines = some window ∧ window.mapM line? = some shown ∧
      String.join shown = String.join ((context place column lines).map text) := by
  have hstop : plus? place 3 = some (place + 3) := plus?_eq_some (by omega)
  refine ⟨_, _, by rw [window?, hstop]; rfl,
    mapM_eq_some_map fun x hx => h x (bounds_of_mem_window hx), ?_⟩
  rw [context, flatMap_window fun x => contextLine_outside]
  simp only [← String.toList_inj, String.toList_join, List.map_flatMap, List.flatMap_map,
    List.flatMap_assoc]

theorem plainLine?_eq_some {place column : Nat} (hplace : place < 2 ^ 32)
    (hcolumn : column < 2 ^ 32) {x : String × Nat} (hx : place ≤ x.2 + 2 ∧ x.2 < place + 3) :
    plainLine? place column x =
      some (String.join ((contextLine place column x.2 x.1).map (·.text))) := by
  obtain ⟨line, index⟩ := x
  rw [plainLine?, plus?_eq_some (by omega)]
  by_cases hi : index = place
  · by_cases hc : 0 < column
    · simp [contextLine, caret, hi, hc, minus?_eq_some (Nat.succ_le_iff.2 hc),
        blanks?_eq_some (n := column - 1) (by omega), String.append_assoc]
    · simp [contextLine, caret, hi, hc]
  · simp [contextLine, hi, hx]

theorem colouredLine?_eq_some {place column : Nat} (hplace : place < 2 ^ 32)
    (hcolumn : column < 2 ^ 32) {x : String × Nat} (hx : place ≤ x.2 + 2 ∧ x.2 < place + 3) :
    colouredLine? place column x =
      some (String.join ((contextLine place column x.2 x.1).map Piece.coloured)) := by
  obtain ⟨line, index⟩ := x
  rw [colouredLine?, plus?_eq_some (by omega)]
  by_cases hi : index = place
  · by_cases hc : 0 < column
    · simp [contextLine, caret, hi, hc, minus?_eq_some (Nat.succ_le_iff.2 hc),
        blanks?_eq_some (n := column - 1) (by omega), String.append_assoc, painted, Piece.coloured]
    · simp [contextLine, caret, hi, hc, painted]
  · simp [contextLine, hi, hx, painted]

theorem plainHead_eq (kind : String) (line column : Nat) (message : String) :
    plainHead kind line column message =
      String.join ((heading kind line column message).map (·.text)) := by
  by_cases hc : 0 < column <;> simp [plainHead, heading, hc, String.append_assoc]

theorem colouredHead_eq (kind : String) (line column : Nat) (message : String) :
    colouredHead kind line column message =
      String.join ((heading kind line column message).map Piece.coloured) := by
  by_cases hc : 0 < column <;>
    simp [colouredHead, heading, hc, String.append_assoc, painted, Piece.coloured]

theorem plainText?_eq_some {failure : Failure} (placed : Placed failure) (source : String) :
    plainText? failure source = some (plain failure source) := by
  cases failure with
  | read e =>
    obtain ⟨hline, hcolumn⟩ := placed
    obtain ⟨window, shown, hwindow, hshown, hjoin⟩ :=
      context_of_lines (e.parts.2.1 - 1) (by omega)
        (fun x hx => plainLine?_eq_some (by omega) hcolumn hx) (Text.lines source)
    simp only [plainText?, hwindow, Option.bind_eq_bind, Option.bind_some, hshown, hjoin, plain,
      pieces, List.map_append, String.join_append, plainHead_eq]
    rfl
  | eval e => simp [plainText?, plain, pieces, String.append_assoc]
  | load file cause => simp [plainText?, plain, pieces, String.append_assoc]
  | exhausted => simp [plainText?, plain, pieces, String.append_assoc]

theorem colouredText?_eq_some {failure : Failure} (placed : Placed failure) (source : String) :
    colouredText? failure source = some (coloured failure source) := by
  cases failure with
  | read e =>
    obtain ⟨hline, hcolumn⟩ := placed
    obtain ⟨window, shown, hwindow, hshown, hjoin⟩ :=
      context_of_lines (e.parts.2.1 - 1) (by omega)
        (fun x hx => colouredLine?_eq_some (by omega) hcolumn hx) (Text.lines source)
    simp only [colouredText?, hwindow, Option.bind_eq_bind, Option.bind_some, hshown, hjoin,
      coloured, pieces, List.map_append, String.join_append, colouredHead_eq]
    rfl
  | eval e => simp [colouredText?, coloured, pieces, String.append_assoc, painted, Piece.coloured]
  | load file cause =>
    simp [colouredText?, coloured, pieces, String.append_assoc, painted, Piece.coloured]
  | exhausted =>
    simp [colouredText?, coloured, pieces, String.append_assoc, painted, Piece.coloured]

/-- Of a failure at any line and column, and of any source, both walks lay out the reports and
nothing in them goes wrong. Where neither the source nor the message has an escape character, the
coloured report without its colour sequences is the plain one. -/
theorem reports_say_the_same (failure : Failure) (source : String) :
    (Placed failure → plainText? failure source = some (plain failure source) ∧
      colouredText? failure source = some (coloured failure source)) ∧
    (Clean source.toList → Clean failure.message.toList →
      bleach false (coloured failure source).toList = (plain failure source).toList) :=
  ⟨fun placed => ⟨plainText?_eq_some placed source, colouredText?_eq_some placed source⟩,
    fun hsource hmessage => bleach_pieces fun _ => clean_pieces hsource hmessage⟩

/-- A failure two lines behind the only line of its source, in column zero. -/
theorem reports_behind_the_end :
    let failure := Failure.read (.lex ⟨"no end", 3, 0, true⟩)
    Placed failure ∧ Clean "(a".toList ∧ Clean failure.message.toList ∧
      plainText? failure "(a" = some "\nLexical error at line 3: no end\n\n      1 | (a\n" ∧
      colouredText? failure "(a" = some (coloured failure "(a") ∧
      bleach false (coloured failure "(a").toList = (plain failure "(a").toList := by
  intro failure
  obtain ⟨hwalks, hbleach⟩ := reports_say_the_same failure "(a"
  have placed : Placed failure := ⟨by decide, by decide⟩
  have hsource : Clean "(a".toList := by decide
  have hmessage : Clean failure.message.toList := by decide +kernel
  obtain ⟨hplain, hcoloured⟩ := hwalks placed
  have hvalue : plain failure "(a" = "\nLexical error at line 3: no end\n\n      1 | (a\n" := by
    decide +kernel
  exact ⟨placed, hsource, hmessage, hvalue ▸ hplain, hcoloured, hbleach hsource hmessage⟩

end LazyLisp.Report
