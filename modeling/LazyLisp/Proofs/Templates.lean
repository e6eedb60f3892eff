import LazyLisp.Proofs.Leaves

/-!
Replacing marks keeps forms spelled. It moves leaves around and adds built-in functions and special
forms; the only new names are those of the fresh symbols of templates, whose texts are words again.
-/

namespace LazyLisp.Shorthand
open Reading
set_option autoImplicit false

/-- Every fresh symbol of the current template reads as itself. -/
def FreshSpelled (st : State) : Prop :=
  ∀ p ∈ st.fresh, Legible st.names (.symbol (.plain p.2))

/-- Run where at least the given names are known, the replacement keeps them and leaves fresh
symbols and a result that fit the names it ends with. -/
def Yields {α : Type} (names : Names) (m : Lower α) (result : Names → α → Prop) : Prop :=
  ∀ st, names.Grows st.names → FreshSpelled st → ∀ a after, m st = .ok a after →
    st.names.Grows after.names ∧ FreshSpelled after ∧ result after.names a

section
variable {α β : Type} {names : Names} {P : Names → α → Prop} {Q : Names → β → Prop}

theorem Yields.pure {a : α} (h : ∀ later, names.Grows later → P later a) :
    Yields names (pure a) P := by
  intro st hgrows hfresh b after hrun
  cases hrun
  exact ⟨.refl _, hfresh, h _ hgrows⟩

theorem Yields.bind {m : Lower α} {f : α → Lower β} (hm : Yields names m P)
    (hf : ∀ a later, names.Grows later → P later a → Yields later (f a) Q) :
    Yields names (m >>= f) Q := by
  intro st hgrows hfresh b after hrun
  obtain ⟨a, between, hrun, hnext⟩ := run_bind_eq_ok.1 hrun
  obtain ⟨hbetween, hfresh, ha⟩ := hm st hgrows hfresh a between hrun
  obtain ⟨hafter, hfresh, hb⟩ :=
    hf a between.names (hgrows.trans hbetween) ha between (.refl _) hfresh b after hnext
  exact ⟨hbetween.trans hafter, hfresh, hb⟩

/-- What the last step gives back is judged by the names that are known then. -/
theorem Yields.bind_pure {m : Lower α} {f : α → β} (hm : Yields names m P)
    (hf : ∀ a later, names.Grows later → P later a → Q later (f a)) :
    Yields names (m >>= fun a => Pure.pure (f a)) Q := by
  intro st hgrows hfresh b after hrun
  obtain ⟨a, between, hrun, hnext⟩ := run_bind_eq_ok.1 hrun
  obtain ⟨hbetween, hfresh, ha⟩ := hm st hgrows hfresh a between hrun
  cases hnext
  exact ⟨hbetween, hfresh, hf a _ (hgrows.trans hbetween) ha⟩

theorem Yields.throw {message : String} : Yields names (throw message : Lower α) P := by
  intro st _ _ a after hrun
  cases hrun

theorem FreshSpelled.grows {st : State} (h : FreshSpelled st) {later : Names}
    (hgrows : st.names.Grows later) : FreshSpelled { st with names := later } :=
  fun p hp => (h p hp).grows hgrows

theorem Yields.ownTemplate {m : Lower α} (hm : Yields names m P) :
    Yields names (ownTemplate m) P := by
  intro st hgrows hfresh a after hrun
  obtain ⟨b, between, hrun, hnext⟩ := run_bind_eq_ok.1 hrun
  cases hrun
  obtain ⟨b, between, hrun, hnext⟩ := run_bind_eq_ok.1 hnext
  cases hrun
  obtain ⟨b, between, hrun, hnext⟩ := run_bind_eq_ok.1 hnext
  obtain ⟨hbetween, _, hb⟩ := hm ⟨st.names, []⟩ hgrows (by simp [FreshSpelled]) b between hrun
  cases hnext
  exact ⟨hbetween, hfresh.grows hbetween, hb⟩

end

/-! The fresh symbol of a stem is spelled as a word, because the stem was. -/

theorem symbol_of_underscore {text : List Char} (h : '_' ∈ text) :
    Token.symbol text = .symbol (String.ofList text) := by
  have hne : ∀ name : String, '_' ∉ name.toList → String.ofList text ≠ name := by
    rintro name hname rfl
    exact hname (by simpa using h)
  unfold Token.symbol
  split
  · exact absurd ‹_› (hne "nil" (by decide))
  · exact absurd ‹_› (hne "true" (by decide))
  · exact absurd ‹_› (hne "false" (by decide))
  · rfl

theorem ofName?_of_underscore {text : String} (h : '_' ∈ text.toList) :
    SpecialForm.ofName? text = none := by
  rw [SpecialForm.ofName?, List.find?_eq_none]
  intro f _ hf
  have hplain : '_' ∉ f.text.toList := by cases f <;> decide
  exact hplain (by rw [eq_of_beq hf]; exact h)

theorem sides?_eq_none_of_not_mem {text : String} (h : '/' ∉ text.toList) : sides? text = none := by
  unfold sides?
  split
  · rename_i hsplit
    obtain ⟨c, hc, htext⟩ := Text.splitAtFirst_eq_some hsplit
    have hslash : c = '/' := by simpa using hc
    exact absurd (by simp [htext, hslash]) h
  · rfl

theorem sides?_eq_none_of_head {text : String} (h : text.toList.head? = some '/') :
    sides? text = none := by
  obtain ⟨cs, hcs⟩ := List.head?_eq_some_iff.1 h
  simp [sides?, hcs, Text.splitAtFirst]

/-- A text with a name behind its last slash has no namespace if it has no slash or starts with
one. -/
theorem slash_of_sides? {text : String} (h : sides? text = none)
    (hlast : text.toList.getLast? ≠ some '/') :
    '/' ∉ text.toList ∨ text.toList.head? = some '/' := by
  unfold sides? at h
  cases hsplit : Text.splitAtFirst (· == '/') text.toList with
  | none =>
    refine .inl fun hmem => ?_
    have hc := Text.splitAtFirst_eq_none hsplit '/' hmem
    simp at hc
  | some p =>
    obtain ⟨a, b⟩ := p
    obtain ⟨c, hc, htext⟩ := Text.splitAtFirst_eq_some hsplit
    have hslash : c = '/' := by simpa using hc
    subst hslash
    cases a with
    | nil => exact .inr (by simp [htext])
    | cons x a =>
      cases b with
      | nil => exact absurd (by rw [htext, List.getLast?_concat]) hlast
      | cons y b => simp [hsplit] at h

theorem sides?_of_plain {names : Names} {text : String} {id : NameId}
    (h : Denotes names text (.plain id)) : sides? text = none ∧ names.find? text = some id := by
  have hspec := (symbolNamed_spec h).2
  cases hsides : sides? text with
  | none =>
    rw [hsides] at hspec
    obtain ⟨i, hi, hfind⟩ := hspec
    cases hi
    exact ⟨rfl, hfind⟩
  | some p =>
    rw [hsides] at hspec
    obtain ⟨i, j, hij, _⟩ := hspec
    cases hij

theorem freshStem?_eq_some {text stem : String} (h : freshStem? text = some stem) :
    text.toList = stem.toList ++ ['#'] ∧ stem.toList ≠ [] := by
  simp only [freshStem?] at h
  split at h
  · rename_i hlast
    cases h
    refine ⟨?_, ?_⟩
    · have hdrop := List.dropLast_append_getLast? '#' hlast.1
      simp [hdrop]
    · intro hnil
      have hlen := congrArg List.length hnil
      simp only [String.toList_ofList, List.length_dropLast, List.length_nil] at hlen
      omega
  · cases h

theorem toList_numbered (stem : String) (n : Nat) :
    (Names.numbered stem (some "auto") n).toList =
      stem.toList ++ '_' :: '_' :: (Nat.toDigits 10 n ++ "__auto".toList) := by
  simp [Names.numbered, toString]

theorem isSymbolChar_of_mem_numbered {stem : String} {n : Nat}
    (h : ∀ d ∈ stem.toList, Token.isSymbolChar d = true) :
    ∀ d ∈ (Names.numbered stem (some "auto") n).toList, Token.isSymbolChar d = true := by
  intro d hd
  rw [toList_numbered] at hd
  simp only [List.mem_append, List.mem_cons] at hd
  rcases hd with hd | rfl | rfl | hd | hd
  · exact h d hd
  · decide
  · decide
  · have hdigit := Nat.isDigit_of_mem_toDigits (by decide) (by decide) hd
    exact Token.isSymbolChar_of_isAlphanum (by simp [Char.isAlphanum, hdigit])
  · have hall : ("__auto".toList.all Token.isSymbolChar) = true := by decide
    exact List.all_eq_true.1 hall d hd

theorem word_numbered {text stem : String} {c : Char} {cs : List Char} (hword : Token.Word text c cs)
    (hstem : freshStem? text = some stem) (n : Nat) :
    ∃ c' cs', Token.Word (Names.numbered stem (some "auto") n) c' cs' := by
  obtain ⟨htext, hne⟩ := freshStem?_eq_some hstem
  obtain ⟨d, ds, hds⟩ := List.exists_cons_of_ne_nil hne
  rw [hword.toList, hds, List.cons_append] at htext
  obtain ⟨rfl, rfl⟩ := List.cons.inj htext
  have hchars : ∀ e ∈ stem.toList, Token.isSymbolChar e = true := by
    intro e he
    rw [hds] at he
    rcases List.mem_cons.1 he with rfl | he
    · exact hword.head
    · exact hword.tail e (List.mem_append_left _ he)
  have hall := isSymbolChar_of_mem_numbered (n := n) hchars
  have hlist := toList_numbered stem n
  rw [hds, List.cons_append] at hlist
  rw [hlist] at hall
  refine ⟨c, _, hlist, hword.starts.of_head ?_, hall c List.mem_cons_self,
    fun e he => hall e (List.mem_cons_of_mem c he), ?_⟩
  · intro e he
    cases ds with
    | nil => exact .inr (by simpa using he.symm)
    | cons f ds => exact .inl (by simpa using he)
  · rw [symbol_of_underscore (by simp), ← hlist, String.ofList_toList]

theorem sides?_numbered {text stem : String} (h : sides? text = none)
    (hstem : freshStem? text = some stem) (n : Nat) :
    sides? (Names.numbered stem (some "auto") n) = none := by
  obtain ⟨htext, hne⟩ := freshStem?_eq_some hstem
  obtain ⟨d, ds, hds⟩ := List.exists_cons_of_ne_nil hne
  have hlast : text.toList.getLast? ≠ some '/' := by
    rw [htext, List.getLast?_concat]
    decide
  rcases slash_of_sides? h hlast with hnone | hhead
  · apply sides?_eq_none_of_not_mem
    rw [toList_numbered]
    intro hmem
    simp only [List.mem_append, List.mem_cons] at hmem
    rcases hmem with hmem | hmem | hmem | hmem | hmem
    · exact hnone (by rw [htext]; exact List.mem_append_left _ hmem)
    · cases hmem
    · cases hmem
    · have hdigit := Nat.isDigit_of_mem_toDigits (by decide) (by decide) hmem
      cases hdigit
    · revert hmem
      decide
  · rw [htext, hds] at hhead
    have hd : d = '/' := by simpa using hhead
    apply sides?_eq_none_of_head
    rw [toList_numbered, hds, hd, List.cons_append, List.head?_cons]

theorem legible_fresh {names : Names} {id : NameId} {stem : String}
    (h : Legible names (.symbol (.plain id))) (hstem : freshStem? (names.text id) = some stem) :
    Legible (names.fresh stem (some "auto")).2
      (.symbol (.plain (names.fresh stem (some "auto")).1)) := by
  obtain ⟨text, c, cs, hword, _, hdenotes⟩ := h
  obtain ⟨hsides, hfind⟩ := sides?_of_plain hdenotes
  rw [Names.text_of_find? hfind] at hstem
  obtain ⟨n, hn⟩ := names.find?_fresh stem (some "auto")
  obtain ⟨c', cs', hword'⟩ := word_numbered hword hstem n
  refine ⟨_, c', cs', hword', ofName?_of_underscore (by simp [toList_numbered]), ?_⟩
  apply denotes_of_find?
  rw [sides?_numbered hsides hstem]
  exact ⟨_, rfl, hn⟩

theorem Yields.resolve {names : Names} {s : Symbol} (h : Spelled names (.symbol s)) :
    Yields names (resolve s) fun later t => Spelled later (.symbol t) := by
  intro st hgrows hfresh t after hrun
  have hs := h.grows hgrows
  simp only [Shorthand.resolve, run_bind, run_get] at hrun
  obtain ⟨ns, id⟩ := s
  cases ns with
  | some ns =>
    cases hrun
    exact ⟨.refl _, hfresh, hs⟩
  | none =>
    simp only [Symbol.isQualified, Option.isSome_none, Bool.false_eq_true] at hrun
    cases hstem : freshStem? (st.names.text id) with
    | none =>
      rw [hstem] at hrun
      cases hrun
      exact ⟨.refl _, hfresh, hs⟩
    | some stem =>
      rw [hstem] at hrun
      dsimp only at hrun
      cases hlook : st.fresh.lookup id with
      | some other =>
        rw [hlook] at hrun
        cases hrun
        obtain ⟨l₁, l₂, hl, _⟩ := List.lookup_eq_some_iff.1 hlook
        have hmem : (id, other) ∈ st.fresh := by simp [hl]
        exact ⟨.refl _, hfresh, spelled_symbol.2 (hfresh _ hmem)⟩
      | none =>
        rw [hlook] at hrun
        cases hrun
        have hnew := legible_fresh (spelled_symbol.1 hs) hstem
        have hlater := st.names.grows_fresh stem (some "auto")
        refine ⟨hlater, ?_, spelled_symbol.2 hnew⟩
        intro p hp
        rcases List.mem_cons.1 hp with rfl | hp
        · exact hnew
        · exact (hfresh p hp).grows hlater

theorem spelled_elements {names : Names} {piece : Piece} (h : Spelled names piece.form) :
    Spelled names piece.elements := by
  cases piece with
  | one form =>
    exact spelled_list.2 (.cons (spelled_builtin _) (.cons h .nil))
  | spliced form => exact h

theorem spelled_quoted {names : Names} {form : Value} (h : Spelled names form) :
    Spelled names (quoted form) :=
  spelled_list.2 (.cons (spelled_special _) (.cons h .nil))

theorem spelled_concatenation {names : Names} {parts : List Value} (h : SpelledAll names parts) :
    Spelled names (concatenation parts) :=
  spelled_list.2 (.cons (spelled_builtin _) h)

theorem spelled_listOf {names : Names} {parts : List Value} (h : SpelledAll names parts) :
    Spelled names (listOf parts) := by
  unfold listOf
  split
  · exact spelled_list.2 (.cons (spelled_builtin _) .nil)
  · exact spelled_list.2 (.cons (spelled_builtin _) (.cons (spelled_concatenation h) .nil))

theorem spelled_vectorOf {names : Names} {parts : List Value} (h : SpelledAll names parts) :
    Spelled names (vectorOf parts) :=
  spelled_list.2 (.cons (spelled_builtin _) (.cons (spelled_concatenation h) .nil))

theorem spelled_mapOf {names : Names} {parts : List Value} (h : SpelledAll names parts) :
    Spelled names (mapOf parts) :=
  spelled_list.2 (.cons (spelled_special _) (.cons (spelled_builtin _)
    (.cons (spelled_concatenation h) .nil)))

mutual

theorem plainTemplate_spelled (v : Value) (names : Names) (h : Spelled names v) :
    Yields names (plainTemplate v) Spelled := by
  cases v with
  | symbol s => exact (Yields.resolve h).bind_pure fun _ _ _ ht => spelled_quoted ht
  | special f => exact .pure fun _ _ => spelled_quoted (spelled_special f)
  | seq s => exact (plainSeq_spelled s names h).bind_pure fun _ _ _ hparts => spelled_listOf hparts
  | vector items =>
    have hitems := plainItems_spelled items names (spelled_vector.1 h)
    exact hitems.bind_pure fun _ _ _ hparts => spelled_vectorOf hparts
  | map entries =>
    have hentries := plainEntries_spelled entries names (spelled_map.1 h)
    exact hentries.bind_pure fun _ _ _ hparts => spelled_mapOf hparts
  | _ => exact .pure fun _ hgrows => h.grows hgrows

theorem plainSeq_spelled (s : Seq) (names : Names) (h : Spelled names (.seq s)) :
    Yields names (plainSeq s) SpelledAll := by
  cases s with
  | cons head tail =>
    obtain ⟨hhead, htail⟩ := spelled_cons.1 h
    refine (plainTemplate_spelled head names hhead).bind fun part later hlater hpart => ?_
    refine (plainSeq_spelled tail later (htail.grows hlater)).bind_pure fun parts last hlast hparts => ?_
    exact .cons (spelled_elements (hpart.grows hlast)) hparts
  | _ => exact .pure fun _ _ => .nil

theorem plainItems_spelled (items : List Value) (names : Names) (h : SpelledAll names items) :
    Yields names (plainItems items) SpelledAll := by
  cases items with
  | nil => exact .pure fun _ _ => .nil
  | cons v vs =>
    obtain ⟨hv, hvs⟩ := spelledAll_cons.1 h
    refine (plainTemplate_spelled v names hv).bind fun part later hlater hpart => ?_
    refine (plainItems_spelled vs later (hvs.grows hlater)).bind_pure fun parts last hlast hparts => ?_
    exact .cons (spelled_elements (hpart.grows hlast)) hparts

theorem plainEntries_spelled (entries : List (Value × Value)) (names : Names)
    (h : SpelledEntries names entries) : Yields names (plainEntries entries) SpelledAll := by
  cases entries with
  | nil => exact .pure fun _ _ => .nil
  | cons e rest =>
    obtain ⟨k, v⟩ := e
    obtain ⟨⟨hk, hv⟩, hrest⟩ := List.forall_mem_cons.1 h
    refine (plainTemplate_spelled k names hk).bind fun key l₁ hl₁ hkey => ?_
    refine (plainTemplate_spelled v l₁ (hv.grows hl₁)).bind fun value l₂ hl₂ hvalue => ?_
    have hmore := SpelledEntries.grows hrest (hl₁.trans hl₂)
    refine (plainEntries_spelled rest l₂ hmore).bind_pure fun parts last hlast hparts => ?_
    exact .cons (spelled_elements (hkey.grows (hl₂.trans hlast)))
      (.cons (spelled_elements (hvalue.grows hlast)) hparts)

end

mutual

theorem lower_spelled (v : Value) (names : Names) (h : Spelled names v) :
    Yields names (lower v) Spelled := by
  cases v with
  | marked m f =>
    have hf := spelled_marked.1 h
    cases m with
    | quote => exact (lower_spelled f names hf).bind_pure fun _ _ _ hv => spelled_quoted hv
    | varQuote | deref =>
      exact (lower_spelled f names hf).bind_pure fun _ _ _ hv =>
        spelled_list.2 (.cons (by first | exact spelled_special _ | exact spelled_builtin _) (.cons hv .nil))
    | template =>
      exact (template_spelled false f names hf).ownTemplate.bind_pure fun _ _ _ hpiece => hpiece
    | unquote | splice => exact .throw
  | seq s => exact (lowerSeq_spelled s names h).bind_pure fun _ _ _ hs => hs
  | vector items =>
    have hitems := lowerItems_spelled items names (spelled_vector.1 h)
    exact hitems.bind_pure fun _ _ _ hvs => spelled_vector.2 hvs
  | map entries =>
    have hentries := lowerEntries_spelled entries names (spelled_map.1 h)
    exact hentries.bind_pure fun _ _ _ hes => spelled_foldl_putForm hes
  | _ => exact .pure fun _ hgrows => h.grows hgrows

theorem lowerSeq_spelled (s : Seq) (names : Names) (h : Spelled names (.seq s)) :
    Yields names (lowerSeq s) fun later t => Spelled later (.seq t) := by
  cases s with
  | cons head tail =>
    obtain ⟨hhead, htail⟩ := spelled_cons.1 h
    refine (lower_spelled head names hhead).bind fun v later hlater hv => ?_
    refine (lowerSeq_spelled tail later (htail.grows hlater)).bind_pure fun t last hlast ht => ?_
    exact spelled_cons.2 ⟨hv.grows hlast, ht⟩
  | _ => exact .pure fun _ hgrows => h.grows hgrows

theorem lowerItems_spelled (items : List Value) (names : Names) (h : SpelledAll names items) :
    Yields names (lowerItems items) SpelledAll := by
  cases items with
  | nil => exact .pure fun _ _ => .nil
  | cons v vs =>
    obtain ⟨hv, hvs⟩ := spelledAll_cons.1 h
    refine (lower_spelled v names hv).bind fun u later hlater hu => ?_
    refine (lowerItems_spelled vs later (hvs.grows hlater)).bind_pure fun us last hlast hus => ?_
    exact .cons (hu.grows hlast) hus

theorem lowerEntries_spelled (entries : List (Value × Value)) (names : Names)
    (h : SpelledEntries names entries) : Yields names (lowerEntries entries) SpelledEntries := by
  cases entries with
  | nil => exact .pure fun _ _ => by simp [SpelledEntries]
  | cons e rest =>
    obtain ⟨k, v⟩ := e
    obtain ⟨⟨hk, hv⟩, hrest⟩ := List.forall_mem_cons.1 h
    refine (lower_spelled k names hk).bind fun key l₁ hl₁ hkey => ?_
    refine (lower_spelled v l₁ (hv.grows hl₁)).bind fun value l₂ hl₂ hvalue => ?_
    have hmore := SpelledEntries.grows hrest (hl₁.trans hl₂)
    refine (lowerEntries_spelled rest l₂ hmore).bind_pure fun es last hlast hes => ?_
    exact List.forall_mem_cons.2 ⟨⟨hkey.grows (hl₂.trans hlast), hvalue.grows hlast⟩, hes⟩

theorem template_spelled (inside : Bool) (v : Value) (names : Names) (h : Spelled names v) :
    Yields names (template inside v) fun later piece => Spelled later piece.form := by
  cases v with
  | marked m f =>
    have hf := spelled_marked.1 h
    cases m with
    | unquote => exact (lower_spelled f names hf).bind_pure fun _ _ _ hv => hv
    | splice =>
      cases inside with
      | true => exact (lower_spelled f names hf).bind_pure fun _ _ _ hv => hv
      | false => exact .throw
    | quote | varQuote | deref =>
      refine (template_spelled true f names hf).bind_pure fun part later _ hpart => ?_
      refine spelled_listOf (.cons (spelled_elements ?_) (.cons (spelled_elements hpart) .nil))
      first | exact spelled_quoted (spelled_special _) | exact spelled_builtin _
    | template =>
      refine (template_spelled false f names hf).ownTemplate.bind fun part later _ hpart => ?_
      exact (plainTemplate_spelled part.form later hpart).bind_pure fun _ _ _ hv => hv
  | symbol s => exact (Yields.resolve h).bind_pure fun _ _ _ ht => spelled_quoted ht
  | special f => exact .pure fun _ _ => spelled_quoted (spelled_special f)
  | seq s => exact (templateSeq_spelled s names h).bind_pure fun _ _ _ hparts => spelled_listOf hparts
  | vector items =>
    have hitems := templateItems_spelled items names (spelled_vector.1 h)
    exact hitems.bind_pure fun _ _ _ hparts => spelled_vectorOf hparts
  | map entries =>
    have hentries := templateEntries_spelled entries names (spelled_map.1 h)
    exact hentries.bind_pure fun _ _ _ hparts => spelled_mapOf hparts
  | _ => exact .pure fun _ hgrows => h.grows hgrows

theorem templateSeq_spelled (s : Seq) (names : Names) (h : Spelled names (.seq s)) :
    Yields names (templateSeq s) SpelledAll := by
  cases s with
  | cons head tail =>
    obtain ⟨hhead, htail⟩ := spelled_cons.1 h
    refine (template_spelled true head names hhead).bind fun part later hlater hpart => ?_
    refine (templateSeq_spelled tail later (htail.grows hlater)).bind_pure
      fun parts last hlast hparts => ?_
    exact .cons (spelled_elements (hpart.grows hlast)) hparts
  | _ => exact .pure fun _ _ => .nil

theorem templateItems_spelled (items : List Value) (names : Names) (h : SpelledAll names items) :
    Yields names (templateItems items) SpelledAll := by
  cases items with
  | nil => exact .pure fun _ _ => .nil
  | cons v vs =>
    obtain ⟨hv, hvs⟩ := spelledAll_cons.1 h
    refine (template_spelled true v names hv).bind fun part later hlater hpart => ?_
    refine (templateItems_spelled vs later (hvs.grows hlater)).bind_pure
      fun parts last hlast hparts => ?_
    exact .cons (spelled_elements (hpart.grows hlast)) hparts

theorem templateEntries_spelled (entries : List (Value × Value)) (names : Names)
    (h : SpelledEntries names entries) : Yields names (templateEntries entries) SpelledAll := by
  cases entries with
  | nil => exact .pure fun _ _ => .nil
  | cons e rest =>
    obtain ⟨k, v⟩ := e
    obtain ⟨⟨hk, hv⟩, hrest⟩ := List.forall_mem_cons.1 h
    refine (template_spelled true k names hk).bind fun key l₁ hl₁ hkey => ?_
    refine (template_spelled true v l₁ (hv.grows hl₁)).bind fun value l₂ hl₂ hvalue => ?_
    have hmore := SpelledEntries.grows hrest (hl₁.trans hl₂)
    refine (templateEntries_spelled rest l₂ hmore).bind_pure fun parts last hlast hparts => ?_
    exact .cons (spelled_elements (hkey.grows (hl₂.trans hlast)))
      (.cons (spelled_elements (hvalue.grows hlast)) hparts)

end

end LazyLisp.Shorthand
