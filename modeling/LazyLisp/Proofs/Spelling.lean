import LazyLisp.Proofs.NameStore
import LazyLisp.Proofs.Reading
import LazyLisp.World
import Mathlib.Data.List.TakeWhile

/-!
How the symbols and keywords that the reader makes are spelled. Every one of them has a text that
is a token of its own and reads as the same symbol again; this holds for the fresh symbols of
templates too.
-/

namespace LazyLisp
set_option autoImplicit false

namespace Text

theorem splitAtFirst_eq_some {p : Char → Bool} {cs a b : List Char}
    (h : splitAtFirst p cs = some (a, b)) : ∃ c, p c = true ∧ cs = a ++ c :: b := by
  unfold splitAtFirst at h
  split at h
  · cases h
  · rename_i c rest hdrop
    cases h
    refine ⟨c, ?_, ?_⟩
    · have hne : cs.dropWhile (fun d => !p d) ≠ [] := by simp [hdrop]
      have hc := List.head_dropWhile_not (fun d => !p d) hne
      simpa [hdrop] using hc
    · rw [← hdrop, List.takeWhile_append_dropWhile]

theorem splitAtFirst_eq_none {p : Char → Bool} {cs : List Char} (h : splitAtFirst p cs = none) :
    ∀ c ∈ cs, p c = false := by
  unfold splitAtFirst at h
  split at h
  · rename_i hdrop
    intro c hc
    have hall := List.dropWhile_eq_nil_iff.1 hdrop c hc
    simpa using hall
  · cases h

end Text

namespace Reading

/-- The texts on both sides of the first slash, if both are there. -/
def sides? (text : String) : Option (String × String) :=
  match Text.splitAtFirst (· == '/') text.toList with
  | some (ns@(_ :: _), name@(_ :: _)) => some (String.ofList ns, String.ofList name)
  | _ => none

theorem eq_of_sides? {text ns name : String} (h : sides? text = some (ns, name)) :
    text = ns ++ "/" ++ name := by
  unfold sides? at h
  split at h
  · rename_i hsplit
    obtain ⟨c, hc, htext⟩ := Text.splitAtFirst_eq_some hsplit
    cases h
    have hslash : c = '/' := by simpa using hc
    subst hslash
    apply String.toList_inj.1
    simpa using htext
  · cases h

theorem symbolNamed_eq (text : String) :
    symbolNamed text = match sides? text with
      | some (ns, name) => do
        let ns ← intern ns
        return .qualified ns (← intern name)
      | none => return .plain (← intern text) := by
  unfold symbolNamed sides?
  generalize Text.splitAtFirst (· == '/') text.toList = split
  rcases split with _ | ⟨_ | ⟨a, as⟩, _ | ⟨b, bs⟩⟩ <;> rfl

/-- The text stands for the symbol: reading it again makes the same symbol and no new name. -/
def Denotes (names : Names) (text : String) (s : Symbol) : Prop :=
  symbolNamed text names = .ok s names

theorem symbolNamed_spec {text : String} {names after : Names} {s : Symbol}
    (h : symbolNamed text names = .ok s after) :
    names.Grows after ∧
      match sides? text with
      | some (ns, name) => ∃ i j, s = .qualified i j ∧ after.find? ns = some i ∧
          after.find? name = some j
      | none => ∃ i, s = .plain i ∧ after.find? text = some i := by
  rw [symbolNamed_eq] at h
  cases hsides : sides? text with
  | none =>
    rw [hsides] at h
    cases h
    exact ⟨names.grows_intern text, _, rfl, names.find?_intern text⟩
  | some p =>
    obtain ⟨ns, name⟩ := p
    rw [hsides] at h
    cases h
    have hgrows := Names.grows_intern (names.intern ns).2 name
    exact ⟨(names.grows_intern ns).trans hgrows, _, _, rfl, hgrows.find? (names.find?_intern ns),
      Names.find?_intern _ name⟩

/-- A text denotes a symbol as soon as the names that it is made of are found. -/
theorem denotes_of_find? {text : String} {names : Names} {s : Symbol}
    (h : match sides? text with
      | some (ns, name) => ∃ i j, s = .qualified i j ∧ names.find? ns = some i ∧
          names.find? name = some j
      | none => ∃ i, s = .plain i ∧ names.find? text = some i) : Denotes names text s := by
  rw [Denotes, symbolNamed_eq]
  cases hsides : sides? text with
  | none =>
    rw [hsides] at h
    obtain ⟨i, rfl, hi⟩ := h
    simp only [run_bind, run_intern, run_pure, Names.intern_of_find? hi]
  | some p =>
    obtain ⟨ns, name⟩ := p
    rw [hsides] at h
    obtain ⟨i, j, rfl, hi, hj⟩ := h
    simp only [run_bind, run_intern, run_pure, Names.intern_of_find? hi, Names.intern_of_find? hj]

theorem denotes_of_symbolNamed {text : String} {names after : Names} {s : Symbol}
    (h : symbolNamed text names = .ok s after) : Denotes after text s :=
  denotes_of_find? (symbolNamed_spec h).2

theorem Denotes.grows {text : String} {names after : Names} {s : Symbol}
    (h : Denotes names text s) (hgrows : names.Grows after) : Denotes after text s := by
  have hspec := (symbolNamed_spec h).2
  apply denotes_of_find?
  cases hsides : sides? text with
  | none =>
    rw [hsides] at hspec
    obtain ⟨i, rfl, hi⟩ := hspec
    exact ⟨i, rfl, hgrows.find? hi⟩
  | some p =>
    obtain ⟨ns, name⟩ := p
    rw [hsides] at hspec
    obtain ⟨i, j, rfl, hi, hj⟩ := hspec
    exact ⟨i, j, rfl, hgrows.find? hi, hgrows.find? hj⟩

/-- A symbol prints as the text that denotes it. -/
theorem Denotes.symbolText {text : String} {w : World} {s : Symbol}
    (h : Denotes w.names text s) : w.symbolText s = text := by
  have hspec := (symbolNamed_spec h).2
  cases hsides : sides? text with
  | none =>
    rw [hsides] at hspec
    obtain ⟨i, rfl, hi⟩ := hspec
    exact Names.text_of_find? hi
  | some p =>
    obtain ⟨ns, name⟩ := p
    rw [hsides] at hspec
    obtain ⟨i, j, rfl, hi, hj⟩ := hspec
    simp only [World.symbolText, Symbol.qualified, World.nameText, Names.text_of_find? hi,
      Names.text_of_find? hj, eq_of_sides? hsides]

end Reading

namespace Token

/-- The first character behind blanks and comments belongs to neither. -/
theorem not_gap_of_drop {inComment : Bool} {text cs : List Char} {c : Char}
    (h : text.drop (gap inComment text) = c :: cs) :
    Text.isBlank c = false ∧ c ≠ ',' ∧ c ≠ ';' := by
  fun_induction gap inComment text with
  | case1 => cases h
  | case2 | case3 | case4 => simp_all
  | case5 => simp_all

theorem isSymbolChar_of_not_leader {c : Char} (hc : c ∉ leaders) (hb : Text.isBlank c = false)
    (hcomma : c ≠ ',') (hsemi : c ≠ ';') : isSymbolChar c = true := by
  simp only [leaders, List.mem_cons, List.not_mem_nil, or_false, not_or] at hc
  simp [isSymbolChar, hb, hcomma, hsemi, hc]

/-- A text that is one word of the reader's, and not the word of a constant. -/
structure Word (text : String) (c : Char) (cs : List Char) : Prop where
  toList : text.toList = c :: cs
  starts : StartsWord c cs
  head : isSymbolChar c = true
  tail : ∀ d ∈ cs, isSymbolChar d = true
  notConstant : symbol (c :: cs) = .symbol text

/-- What a keyword is called: at least one character, and only those of symbols. -/
structure KeyText (text : String) : Prop where
  nonempty : text.toList ≠ []
  all : ∀ d ∈ text.toList, isSymbolChar d = true

/-- The text of a token reads as the token again, if it is one of a symbol or a keyword. -/
def SpelledKind : TokenKind → Prop
  | .symbol text => ∃ c cs, Word text c cs
  | .keyword text => KeyText text
  | _ => True

theorem mem_take_symbolLength {cs : List Char} {d : Char} (h : d ∈ cs.take (symbolLength cs)) :
    isSymbolChar d = true := by
  have hpre : cs.take (symbolLength cs) = cs.takeWhile isSymbolChar :=
    (List.prefix_iff_eq_take.1 (List.takeWhile_prefix isSymbolChar)).symm
  rw [hpre] at h
  exact List.mem_takeWhile_imp h

/-- Only the next character tells whether a word starts; an underscore never prevents it. -/
theorem StartsWord.of_head {c : Char} {cs cs' : List Char} (h : StartsWord c cs)
    (hhead : ∀ d ∈ cs'.head?, d ∈ cs.head? ∨ d = '_') : StartsWord c cs' where
  notLeader := h.notLeader
  notVarQuote := by
    rintro ⟨hc, hq⟩
    rcases hhead _ hq with hq | hq
    · exact h.notVarQuote ⟨hc, hq⟩
    · cases hq
  notPattern := by
    rintro ⟨hc, hp⟩
    rcases hhead _ hp with hp | hp
    · exact h.notPattern ⟨hc, hp⟩
    · cases hp
  notNumber := by
    rintro (hd | ⟨hsign, hd⟩)
    · exact h.notNumber (.inl hd)
    · cases hcs : cs'.head? with
      | none => simp [hcs] at hd
      | some d =>
        rw [hcs, Option.any_some] at hd
        rcases hhead d hcs with hd' | rfl
        · exact h.notNumber (.inr ⟨hsign, by rw [hd', Option.any_some, hd]⟩)
        · cases hd

/-- What starts a word does so whatever is cut off behind it. -/
theorem StartsWord.take {c : Char} {cs : List Char} (h : StartsWord c cs) (n : Nat) :
    StartsWord c (cs.take n) := by
  refine h.of_head fun d hd => .inl ?_
  cases cs with
  | nil => simp at hd
  | cons e cs => cases n <;> simp_all

theorem scan_spelled {text cs : List Char} {c : Char} {kind : TokenKind} {k : Nat}
    (htext : text.drop (gap false text) = c :: cs) (h : scan c cs = .ok (kind, k)) :
    SpelledKind kind := by
  cases scanned h with
  | keyword hword =>
    refine ⟨?_, ?_⟩
    · have hle := symbolLength_le cs
      simp only [String.toList_ofList, ne_eq, List.take_eq_nil_iff, not_or]
      exact ⟨hword, by rintro rfl; simp_all⟩
    · intro d hd
      rw [String.toList_ofList] at hd
      exact mem_take_symbolLength hd
  | word hstart =>
    obtain ⟨hb, hcomma, hsemi⟩ := not_gap_of_drop htext
    generalize hkind : symbol (c :: cs.take (symbolLength cs)) = kind at *
    cases kind with
    | symbol name =>
      have hname : name = String.ofList (c :: cs.take (symbolLength cs)) := by
        unfold symbol at hkind
        split at hkind <;> cases hkind
        rfl
      refine ⟨c, cs.take (symbolLength cs), ?_, hstart.take _, ?_, ?_, hkind⟩
      · rw [hname, String.toList_ofList]
      · exact isSymbolChar_of_not_leader hstart.notLeader hb hcomma hsemi
      · exact fun d hd => mem_take_symbolLength hd
    | keyword name =>
      unfold symbol at hkind
      split at hkind <;> cases hkind
    | _ => trivial
  | _ => trivial

/-- Every token of a symbol or a keyword has a text that is one. -/
theorem tokensFrom_spelled {place : Place} {text : List Char} {tokens : List Token}
    (h : tokensFrom place text = .ok tokens) : ∀ t ∈ tokens, SpelledKind t.kind := by
  induction hn : text.length using Nat.strongRecOn generalizing place text tokens with
  | ind n ih =>
    rw [tokensFrom_eq] at h
    cases hd : text.drop (gap false text) with
    | nil =>
      rw [hd, tokensAt] at h
      cases h
      simp [SpelledKind]
    | cons c cs =>
      have hlen := congrArg List.length hd
      simp only [List.length_drop, List.length_cons] at hlen
      rw [hd, tokensAt] at h
      cases hs : scan c cs with
      | error f => simp [hs] at h
      | ok r =>
        obtain ⟨kind, k⟩ := r
        simp only [hs] at h
        obtain ⟨rest, hrest, rfl⟩ := map_eq_ok.1 h
        intro t ht
        rcases List.mem_cons.1 ht with rfl | ht
        · exact scan_spelled hd hs
        · exact ih (cs.drop k).length (by rw [List.length_drop]; omega) hrest rfl t ht

end Token
end LazyLisp

