import LazyLisp.Proofs.Replacing
import LazyLisp.Proofs.Written

/-!
The grammar of forms without unquoted parts, and what the reader makes of it. The reader accepts the
sequences of forms, reads each form as if it stood alone, and asks for more tokens just where more
tokens can lead to a sequence of forms.
-/

namespace LazyLisp
set_option autoImplicit false

open Shorthand (Replaceable)

namespace Grammar

/-- A token that is a form of its own; a regular expression has to compile. -/
structure IsAtom (kind : TokenKind) : Prop where
  atomic : Reading.isAtomic kind = true
  compiles : ∀ source, kind = .pattern source → ∃ p, Pattern.compile source = .ok p

/-- An atom, forms between a pair of delimiters, or a form behind a mark. Braces hold pairs. -/
inductive Form : List TokenKind → Prop
  | atom {kind : TokenKind} (h : IsAtom kind) : Form [kind]
  | collection {d : Delimiter} {fs : List (List TokenKind)} (h : ∀ f ∈ fs, Form f)
      (hpairs : d = .brace → fs.length % 2 = 0) :
      Form (.opening d :: (fs.flatten ++ [.closing d]))
  | marked {m : Mark} {f : List TokenKind} (hunquote : m ≠ .unquote) (hsplice : m ≠ .splice)
      (h : Form f) : Form (.mark m :: f)

def Sentence (kinds : List TokenKind) : Prop :=
  ∃ fs : List (List TokenKind), kinds = fs.flatten ∧ ∀ f ∈ fs, Form f

theorem Sentence.nil : Sentence [] := ⟨[], rfl, List.forall_mem_nil _⟩

theorem Sentence.append {a b : List TokenKind} (ha : Sentence a) (hb : Sentence b) :
    Sentence (a ++ b) := by
  obtain ⟨fs, rfl, hfs⟩ := ha
  obtain ⟨gs, rfl, hgs⟩ := hb
  exact ⟨fs ++ gs, List.flatten_append.symm, List.forall_mem_append.2 ⟨hfs, hgs⟩⟩

theorem Form.sentence {f : List TokenKind} (h : Form f) : Sentence f :=
  ⟨[f], by simp, List.forall_mem_cons.2 ⟨h, List.forall_mem_nil _⟩⟩

theorem form_nil : Form [.nil] := .atom ⟨rfl, by simp⟩

end Grammar

namespace Reading
open Grammar

/-! Every form of the grammar is read. -/

theorem atom_eq_ok {kind : TokenKind} (h : IsAtom kind) (names : Names) :
    ∃ v after, atom kind nowhere names = .ok v after := by
  cases kind with
  | keyword text =>
    obtain ⟨s, after, hs⟩ := symbolNamed_ok text names
    exact ⟨_, _, run_bind_ok hs _⟩
  | symbol text =>
    simp only [atom]
    cases SpecialForm.ofName? text with
    | some f => exact ⟨_, _, rfl⟩
    | none =>
      obtain ⟨s, after, hs⟩ := symbolNamed_ok text names
      exact ⟨_, _, run_bind_ok hs _⟩
  | pattern source =>
    obtain ⟨p, hp⟩ := h.compiles source rfl
    simp only [atom, hp]
    exact ⟨_, _, rfl⟩
  | _ => exact ⟨_, _, rfl⟩

theorem collection_eq_ok {d : Delimiter} {items : List Value}
    (hpairs : d = .brace → items.length % 2 = 0) (names : Names) :
    ∃ v, collection d nowhere items names = .ok v names := by
  cases d with
  | paren | bracket => exact ⟨_, rfl⟩
  | brace =>
    simp only [collection, if_pos (hpairs rfl)]
    exact ⟨_, rfl⟩

theorem Writes.append {names between after : Names} {a b : List TokenKind} {us vs : List Value}
    (ha : Writes names a us between) (hb : Writes between b vs after) :
    Writes names (a ++ b) (us ++ vs) after := by
  induction ha with
  | nil => exact hb
  | atom ms hkind hv _ ih =>
    rw [List.append_assoc]
    exact .atom ms hkind hv (ih hb)
  | collection ms hitems hv _ _ ih =>
    rw [List.append_assoc]
    exact .collection ms hitems hv (ih hb)

theorem Writes.mark {names after : Names} {kinds : List TokenKind} {v : Value} {vs : List Value}
    (h : Writes names kinds (v :: vs) after) (m : Mark) :
    Writes names (.mark m :: kinds) (.marked m v :: vs) after := by
  cases h with
  | atom ms hkind hv hs => exact .atom (m :: ms) hkind hv hs
  | collection ms hitems hv hs => exact .collection (m :: ms) hitems hv hs

/-- Forms that can be written each on its own can be written one behind the other. -/
theorem exists_writes_flatten {fs : List (List TokenKind)}
    (h : ∀ f ∈ fs, ∀ names, ∃ v after, Writes names f [v] after ∧ Replaceable v) (names : Names) :
    ∃ vs after, Writes names fs.flatten vs after ∧ vs.length = fs.length ∧
      ∀ v ∈ vs, Replaceable v := by
  induction fs generalizing names with
  | nil => exact ⟨[], names, .nil, rfl, List.forall_mem_nil _⟩
  | cons f fs ih =>
    obtain ⟨hf, hfs⟩ := List.forall_mem_cons.1 h
    obtain ⟨v, between, hwrites, hv⟩ := hf names
    obtain ⟨vs, after, hmore, hlen, hvs⟩ := ih hfs between
    exact ⟨v :: vs, after, hwrites.append hmore, congrArg (· + 1) hlen,
      List.forall_mem_cons.2 ⟨hv, hvs⟩⟩

theorem exists_writes {f : List TokenKind} (h : Form f) (names : Names) :
    ∃ v after, Writes names f [v] after ∧ Replaceable v := by
  induction h generalizing names with
  | @atom kind h =>
    obtain ⟨v, after, hv⟩ := atom_eq_ok h names
    exact ⟨v, after, .atom [] h.atomic hv .nil, atom_replaceable kind nowhere names v after hv⟩
  | @collection d fs _ hpairs ih =>
    obtain ⟨items, after, hwrites, hlen, hitems⟩ := exists_writes_flatten ih names
    obtain ⟨v, hv⟩ : ∃ v, collection d nowhere items after = .ok v after :=
      collection_eq_ok (by rwa [hlen]) after
    refine ⟨v, after, ?_, collection_replaceable hitems after v after hv⟩
    have hone := Writes.collection [] hwrites hv .nil
    rwa [List.append_nil] at hone
  | @marked m f hunquote hsplice _ ih =>
    obtain ⟨v, after, hwrites, hv⟩ := ih names
    exact ⟨.marked m v, after, hwrites.mark m, hv.marked hunquote hsplice⟩

/-- One form makes one value. -/
theorem advanceAll_form {f : List TokenKind} (h : Form f) (names : Names) :
    ∃ v after, advanceAll [] nowhere (bareTokens f) names = .ok ([v], [], nowhere) after := by
  obtain ⟨form, between, hwrites, hform⟩ := exists_writes h names
  obtain ⟨v, st, hlower⟩ := hform.lowers { names := between }
  exact ⟨v, st.names, (hwrites.one []).trans (handOver_top hlower)⟩

theorem goesOn_of_sentence {kinds : List TokenKind} (h : Sentence kinds) :
    ∀ kind ∈ kinds, kind ≠ .ending := by
  obtain ⟨fs, rfl, hfs⟩ := h
  obtain ⟨vs, after, hwrites, -⟩ := 
    exists_writes_flatten (fun f hf => exists_writes (hfs f hf)) {}
  exact hwrites.goesOn

/-- What tokens without places make is what they make anywhere. -/
theorem forms_of_advanceAll {ts : List Token} {names after : Names} {vs : List Value}
    (hts : ∀ t ∈ ts, t.kind ≠ .ending)
    (h : advanceAll [] nowhere (bareTokens (ts.map (·.kind))) names = .ok (vs, [], nowhere) after)
    (start last : Span) : forms [] start (ts ++ [⟨.ending, last⟩]) names = .ok vs after := by
  have hbare : forms [] nowhere (bareTokens (ts.map (·.kind)) ++ [⟨.ending, nowhere⟩]) names =
      .ok vs after := by
    have hfront : ∀ t ∈ bareTokens (ts.map (·.kind)), t.kind ≠ .ending :=
      List.forall_mem_map.2 (List.forall_mem_map.2 hts)
    rw [forms_append _ _ hfront, run_bind_ok h]
    simp [forms_ending, finish]
  refine ok_of_bare (forms_congr start nowhere ?_ names) hbare
  rw [List.map_append, List.map_append, map_kind_bareTokens]
  rfl

/-- Every part is read alone, and knows the names of the parts in front. -/
inductive InTurn (start last : Span) : Names → List (List Token) → List Value → Names → Prop
  | nil {names : Names} : InTurn start last names [] [] names
  | cons {names between after : Names} {part : List Token} {parts : List (List Token)} {v : Value}
      {vs : List Value} (h : forms [] start (part ++ [⟨.ending, last⟩]) names = .ok [v] between)
      (hs : InTurn start last between parts vs after) :
      InTurn start last names (part :: parts) (v :: vs) after

theorem exists_inTurn {parts : List (List Token)} (h : ∀ p ∈ parts, Form (p.map (·.kind)))
    (start last : Span) (names : Names) :
    ∃ vs after, InTurn start last names parts vs after ∧
      advanceAll [] nowhere (bareTokens (parts.flatten.map (·.kind))) names =
        .ok (vs, [], nowhere) after := by
  induction parts generalizing names with
  | nil => exact ⟨[], names, .nil, rfl⟩
  | cons part parts ih =>
    obtain ⟨hpart, hparts⟩ := List.forall_mem_cons.1 h
    obtain ⟨v, between, hrun⟩ := advanceAll_form hpart names
    obtain ⟨vs, after, hturn, hruns⟩ := ih hparts between
    have hgoesOn := List.forall_mem_map.1 (goesOn_of_sentence hpart.sentence)
    refine ⟨v :: vs, after, .cons (forms_of_advanceAll hgoesOn hrun start last) hturn, ?_⟩
    rw [List.flatten_cons, List.map_append, bareTokens_append, advanceAll_append, run_bind_ok hrun]
    dsimp only
    rw [run_bind_ok hruns]
    rfl

theorem exists_parts {ts : List Token} (h : Sentence (ts.map (·.kind))) :
    ∃ parts : List (List Token), ts = parts.flatten ∧ ∀ p ∈ parts, Form (p.map (·.kind)) := by
  obtain ⟨fs, hfs, hforms⟩ := h
  induction fs generalizing ts with
  | nil =>
    rw [List.flatten_nil, List.map_eq_nil_iff] at hfs
    exact ⟨[], hfs, List.forall_mem_nil _⟩
  | cons f fs ih =>
    obtain ⟨hf, hmore⟩ := List.forall_mem_cons.1 hforms
    obtain ⟨part, rest, rfl, hpart, hrest⟩ := List.map_eq_append_iff.1 hfs
    obtain ⟨parts, rfl, hparts⟩ := ih hrest hmore
    exact ⟨part :: parts, rfl, List.forall_mem_cons.2 ⟨hpart ▸ hf, hparts⟩⟩

theorem forms_of_sentence {ts : List Token} (h : Sentence (ts.map (·.kind))) (start last : Span)
    (names : Names) :
    ∃ vs after, forms [] start (ts ++ [⟨.ending, last⟩]) names = .ok vs after := by
  obtain ⟨parts, rfl, hparts⟩ := exists_parts h
  obtain ⟨vs, after, -, hrun⟩ := exists_inTurn hparts start last names
  have hgoesOn := List.forall_mem_map.1 (goesOn_of_sentence h)
  exact ⟨vs, after, forms_of_advanceAll hgoesOn hrun start last⟩

/-! Whatever is read belongs to the grammar. -/

/-- Tokens that can stand in forms without unquoted parts. -/
structure Admitted (kind : TokenKind) : Prop where
  goesOn : kind ≠ .ending
  notUnquote : kind ≠ .mark .unquote
  notSplice : kind ≠ .mark .splice

/-- The tokens that opened what is pending, and the forms that the open collections hold. -/
inductive Opens : List Pending → List TokenKind → Prop
  | nil : Opens [] []
  | marked {m : Mark} {below : List Pending} {kinds : List TokenKind} (hunquote : m ≠ .unquote)
      (hsplice : m ≠ .splice) (h : Opens below kinds) :
      Opens (.marked m :: below) (kinds ++ [.mark m])
  | opened {d : Delimiter} {span : Span} {items : List Value} {below : List Pending}
      {kinds : List TokenKind} {fs : List (List TokenKind)} (hfs : ∀ f ∈ fs, Form f)
      (hlen : fs.length = items.length) (h : Opens below kinds) :
      Opens (.opened d span items :: below) (kinds ++ .opening d :: fs.flatten)

/-- The tokens are whole forms and then what is open. -/
def Spells (pending : List Pending) (kinds : List TokenKind) : Prop :=
  ∃ front rest, kinds = front ++ rest ∧ Sentence front ∧ Opens pending rest

theorem complete_spells {pending : List Pending} {front rest f : List TokenKind}
    (hfront : Sentence front) (hopens : Opens pending rest) (hf : Form f) (form : Value)
    (start : Span) : Gives (complete form pending start)
      fun r => Spells r.2.1 (front ++ (rest ++ f)) := by
  induction hopens generalizing form f with
  | nil =>
    refine (Gives.any _).bind fun v _ => .pure ?_
    exact ⟨front ++ f, [], by simp, hfront.append hf.sentence, .nil⟩
  | @marked m below kinds hunquote hsplice _ ih =>
    have hmarked := ih (.marked hunquote hsplice hf) (.marked m form)
    rw [List.append_assoc, List.singleton_append]
    exact hmarked
  | @opened d span items below kinds fs hfs hlen h _ =>
    refine .pure ⟨front, _, rfl, hfront, ?_⟩
    have hopened : Opens (.opened d span (form :: items) :: below)
        (kinds ++ .opening d :: (fs ++ [f]).flatten) :=
      .opened (List.forall_mem_append.2 ⟨hfs, by simpa using hf⟩) (by simpa using hlen) h
    simpa using hopened

theorem atom_isAtomKind {kind : TokenKind} (hkind : isAtomic kind = true) (span : Span) :
    Gives (atom kind span) fun _ => IsAtom kind := by
  intro names v after h
  refine ⟨hkind, ?_⟩
  rintro source rfl
  simp only [atom] at h
  cases hp : Pattern.compile source with
  | ok p => exact ⟨p, rfl⟩
  | error e => rw [hp] at h; cases h

theorem collection_pairs (d : Delimiter) (span : Span) (items : List Value) :
    Gives (collection d span items) fun _ => d = .brace → items.length % 2 = 0 := by
  intro names v after h
  rintro rfl
  simp only [collection] at h
  split at h
  · assumption
  · cases h

/-- A closing delimiter makes a form of the innermost open collection. -/
theorem close_spells {pending : List Pending} {rest : List TokenKind} (h : Opens pending rest)
    (d : Delimiter) (span : Span) : Gives (close d span pending)
      fun r => ∃ below f, rest ++ [.closing d] = below ++ f ∧ Opens r.2 below ∧ Form f := by
  cases h with
  | nil | marked => exact .throw
  | @opened e opened items below kinds fs hfs hlen h =>
    simp only [close]
    split
    · rename_i hd
      subst hd
      refine (collection_pairs d opened items.reverse).bind fun v hpairs => .pure ?_
      rw [List.length_reverse, ← hlen] at hpairs
      exact ⟨kinds, _, by simp, h, .collection hfs hpairs⟩
    · exact .throw

/-- Taking a token keeps what was read in the grammar. -/
theorem advance_spells {pending : List Pending} {kinds : List TokenKind} {t : Token}
    (h : Spells pending kinds) (ht : Admitted t.kind) (start : Span) :
    Gives (advance pending start t) fun r => Spells r.2.1 (kinds ++ [t.kind]) := by
  obtain ⟨front, rest, rfl, hfront, hopens⟩ := h
  obtain ⟨kind, span⟩ := t
  rw [List.append_assoc]
  cases kind with
  | ending => exact absurd rfl ht.goesOn
  | mark m =>
    refine .pure ⟨front, rest ++ [.mark m], rfl, hfront, .marked ?_ ?_ hopens⟩
    · rintro rfl
      exact ht.notUnquote rfl
    · rintro rfl
      exact ht.notSplice rfl
  | opening d =>
    have hopened : Opens (.opened d span [] :: pending) (rest ++ .opening d :: [].flatten) :=
      .opened (List.forall_mem_nil _) rfl hopens
    exact .pure ⟨front, rest ++ [.opening d], rfl, hfront, hopened⟩
  | closing d =>
    refine (close_spells hopens d span).bind fun r hr => ?_
    obtain ⟨below, f, hsplit, hbelow, hf⟩ := hr
    rw [hsplit]
    exact complete_spells hfront hbelow hf r.1 start
  | _ =>
    refine (atom_isAtomKind rfl span).bind fun form hatom => ?_
    exact complete_spells hfront hopens (.atom hatom) form _

theorem advanceAll_spells {ts : List Token} {pending : List Pending} {kinds : List TokenKind}
    (h : Spells pending kinds) (hts : ∀ t ∈ ts, Admitted t.kind) (start : Span) :
    Gives (advanceAll pending start ts) fun r => Spells r.2.1 (kinds ++ ts.map (·.kind)) := by
  induction ts generalizing pending kinds start with
  | nil => exact .pure (by simpa using h)
  | cons t ts ih =>
    obtain ⟨ht, hts⟩ := List.forall_mem_cons.1 hts
    refine (advance_spells h ht start).bind fun r hr => ?_
    refine (ih hr hts r.2.2).bind fun more hmore => .pure ?_
    simpa using hmore

theorem Spells.sentence {kinds : List TokenKind} (h : Spells [] kinds) : Sentence kinds := by
  obtain ⟨front, rest, rfl, hfront, hopens⟩ := h
  cases hopens
  rwa [List.append_nil]

/-- Whatever is open, and whatever form comes next, more tokens complete it all to one form. -/
theorem Opens.completes {pending : List Pending} {kinds f : List TokenKind}
    (h : Opens pending kinds) (hf : Form f) : ∃ more, Form (kinds ++ (f ++ more)) := by
  induction h generalizing f with
  | nil => exact ⟨[], by simpa using hf⟩
  | @marked m below kinds hunquote hsplice _ ih =>
    obtain ⟨more, hmore⟩ := ih (.marked hunquote hsplice hf)
    exact ⟨more, by simpa using hmore⟩
  | @opened d span items below kinds fs hfs hlen _ ih =>
    -- a collection that would hold an odd number of forms gets one more
    obtain ⟨pad, hpad, heven⟩ : ∃ pad : List (List TokenKind), (∀ g ∈ pad, Form g) ∧
        (fs ++ f :: pad).length % 2 = 0 := by
      rcases Nat.mod_two_eq_zero_or_one (fs.length + 1) with heven | hodd
      · exact ⟨[], List.forall_mem_nil _, by simpa using heven⟩
      · refine ⟨[[.nil]], List.forall_mem_singleton.2 form_nil, ?_⟩
        simp only [List.length_append, List.length_cons, List.length_nil]
        omega
    have hall : ∀ g ∈ fs ++ f :: pad, Form g :=
      List.forall_mem_append.2 ⟨hfs, List.forall_mem_cons.2 ⟨hf, hpad⟩⟩
    obtain ⟨more, hmore⟩ := ih (.collection (d := d) hall fun _ => heven)
    exact ⟨pad.flatten ++ .closing d :: more, by simpa using hmore⟩

theorem Spells.viable {pending : List Pending} {kinds : List TokenKind} (h : Spells pending kinds) :
    ∃ more, Sentence (kinds ++ more) := by
  obtain ⟨front, rest, rfl, hfront, hopens⟩ := h
  obtain ⟨more, hmore⟩ := hopens.completes form_nil
  refine ⟨[.nil] ++ more, ?_⟩
  rw [List.append_assoc]
  exact hfront.append hmore.sentence

/-! Only the end of the tokens asks for more. -/

/-- No failure is one that more tokens could mend. -/
def Final {α : Type} (m : Reading α) : Prop :=
  ∀ names e after, m names = .error e after → e.incomplete = false

namespace Final
variable {α β : Type}

theorem pure (a : α) : Final (pure a) := by
  intro names e after h
  cases h

theorem throw {e : ParseError} (he : e.incomplete = false) : Final (throw e : Reading α) := by
  intro names e after h
  cases h
  exact he

theorem bind {m : Reading α} {f : α → Reading β} (hm : Final m) (hf : ∀ a, Final (f a)) :
    Final (m >>= f) := by
  intro names e after h
  rcases run_bind_eq_error.1 h with h | ⟨a, between, -, h⟩
  · exact hm names e after h
  · exact hf a between e after h

end Final

theorem symbolNamed_final (text : String) : Final (symbolNamed text) := by
  intro names e after h
  obtain ⟨s, later, hs⟩ := symbolNamed_ok text names
  rw [hs] at h
  cases h

theorem atom_final (kind : TokenKind) (span : Span) : Final (atom kind span) := by
  cases kind with
  | keyword text => exact (symbolNamed_final text).bind fun _ => .pure _
  | symbol text =>
    simp only [atom]
    split
    · exact .pure _
    · exact (symbolNamed_final text).bind fun _ => .pure _
  | pattern source =>
    simp only [atom]
    split
    · exact .pure _
    · exact .throw rfl
  | _ => exact .pure _

theorem close_final (d : Delimiter) (span : Span) (pending : List Pending) :
    Final (close d span pending) := by
  unfold close
  split
  · split
    · refine .bind ?_ fun _ => .pure _
      unfold collection
      split
      · exact .pure _
      · exact .pure _
      · split
        · exact .pure _
        · exact .throw rfl
    · exact .throw rfl
  · exact .throw rfl

theorem complete_final (form : Value) (pending : List Pending) (start : Span) :
    Final (complete form pending start) := by
  unfold complete
  split
  · exact .pure _
  · refine .bind ?_ fun _ => .pure _
    intro names e after h
    unfold lowered at h
    split at h
    · cases h
    · cases h
      rfl

theorem advance_final (pending : List Pending) (start : Span) (t : Token) :
    Final (advance pending start t) := by
  obtain ⟨kind, span⟩ := t
  cases kind with
  | mark | opening => exact .pure _
  | closing d => exact (close_final d span pending).bind fun _ => complete_final _ _ _
  | _ => exact (atom_final _ span).bind fun _ => complete_final _ _ _

theorem advanceAll_final (ts : List Token) (pending : List Pending) (start : Span) :
    Final (advanceAll pending start ts) := by
  induction ts generalizing pending start with
  | nil => exact .pure _
  | cons t ts ih => exact (advance_final _ _ _).bind fun _ => (ih _ _).bind fun _ => .pure _

/-- A failure asks for more tokens if and only if no token was at fault. -/
theorem incomplete_iff {ts : List Token} {start last : Span} {names after : Names} {e : ParseError}
    (hts : ∀ t ∈ ts, t.kind ≠ .ending)
    (h : forms [] start (ts ++ [⟨.ending, last⟩]) names = .error e after) :
    e.incomplete = true ↔ ∃ r between, advanceAll [] start ts names = .ok r between := by
  constructor
  · intro he
    cases hrun : advanceAll [] start ts names with
    | ok r between => exact ⟨r, between, rfl⟩
    | error e' between =>
      rw [forms_append _ _ hts, run_bind_error hrun] at h
      cases h
      rw [advanceAll_final ts [] start names e after hrun] at he
      cases he
  · rintro ⟨r, between, hrun⟩
    cases he : e.incomplete with
    | true => rfl
    | false =>
      rw [advanceAll_of_forms_error hts h he] at hrun
      cases hrun

/-- A run over the tokens in front of more tokens. -/
theorem advanceAll_of_append {ts more : List Token} {pending : List Pending} {start : Span}
    {names after : Names} {r : List Value × List Pending × Span}
    (h : advanceAll pending start (ts ++ more) names = .ok r after) :
    ∃ r between, advanceAll pending start ts names = .ok r between := by
  rw [advanceAll_append] at h
  obtain ⟨r, between, hrun, -⟩ := run_bind_eq_ok.1 h
  exact ⟨r, between, hrun⟩

end Reading

open Reading Grammar

/-- The reader accepts the sequences of forms and nothing else. It makes one value of each form, in
order, and a failure asks for more tokens if and only if more tokens can lead to a sequence of
forms. -/
theorem reader_accepts_the_grammar {ts : List Token} (hts : ∀ t ∈ ts, Admitted t.kind)
    (start last : Span) (names : Names) :
    ((∃ vs after, forms [] start (ts ++ [⟨.ending, last⟩]) names = .ok vs after) ↔
      Sentence (ts.map (·.kind))) ∧
    (∀ parts : List (List Token), ts = parts.flatten → (∀ p ∈ parts, Form (p.map (·.kind))) →
      ∃ vs after, forms [] start (ts ++ [⟨.ending, last⟩]) names = .ok vs after ∧
        InTurn start last names parts vs after) ∧
    ∀ e after, forms [] start (ts ++ [⟨.ending, last⟩]) names = .error e after →
      (e.incomplete = true ↔ ∃ more, Sentence (ts.map (·.kind) ++ more)) := by
  have hgoesOn : ∀ t ∈ ts, t.kind ≠ .ending := fun t ht => (hts t ht).goesOn
  have hspells : Gives (advanceAll [] start ts) fun r => Spells r.2.1 (ts.map (·.kind)) :=
    advanceAll_spells ⟨[], [], rfl, .nil, .nil⟩ hts start
  refine ⟨⟨?_, fun h => forms_of_sentence h start last names⟩, ?_, ?_⟩
  · rintro ⟨vs, after, h⟩
    obtain ⟨next, hrun⟩ := advanceAll_of_forms_ok hgoesOn h
    exact Spells.sentence (hspells _ _ _ hrun)
  · rintro parts rfl hparts
    obtain ⟨vs, after, hturn, hrun⟩ := exists_inTurn hparts start last names
    exact ⟨vs, after, forms_of_advanceAll hgoesOn hrun start last, hturn⟩
  · intro e after h
    rw [incomplete_iff hgoesOn h]
    constructor
    · rintro ⟨r, between, hrun⟩
      exact (hspells _ _ _ hrun).viable
    · rintro ⟨more, hmore⟩
      rw [← map_kind_bareTokens more, ← List.map_append] at hmore
      obtain ⟨vs, later, hforms⟩ := forms_of_sentence hmore start last names
      have hall := List.forall_mem_map.1 (goesOn_of_sentence hmore)
      obtain ⟨next, hrun⟩ := advanceAll_of_forms_ok hall hforms
      exact advanceAll_of_append hrun

/-- In `('a {:k` a list and a map are open, and the map lacks a form. -/
theorem reader_accepts_the_grammar_open_map :
    (∀ t ∈ bareTokens [.opening .paren, .mark .quote, .symbol "a", .opening .brace, .keyword "k"],
      Admitted t.kind) ∧
    (∃ e after, forms [] nowhere (bareTokens [.opening .paren, .mark .quote, .symbol "a",
        .opening .brace, .keyword "k"] ++ [⟨.ending, nowhere⟩]) {} = .error e after ∧
      e.incomplete = true) ∧
    ∃ more, Sentence ([.opening .paren, .mark .quote, .symbol "a", .opening .brace,
      .keyword "k"] ++ more) := by
  have hts : ∀ t ∈ bareTokens [.opening .paren, .mark .quote, .symbol "a", .opening .brace,
      .keyword "k"], Admitted t.kind := by
    intro t ht
    simp only [bareTokens, List.map_cons, List.map_nil, List.mem_cons, List.not_mem_nil, or_false]
      at ht
    rcases ht with rfl | rfl | rfl | rfl | rfl <;> constructor <;> simp
  have herror : forms [] nowhere (bareTokens [.opening .paren, .mark .quote, .symbol "a",
      .opening .brace, .keyword "k"] ++ [⟨.ending, nowhere⟩]) {} =
        .error ⟨"Expected '\x7d' before end of input", nowhere, true⟩
          (Names.internAll {} ["a", "k"]) := by
    cbv
  have hmore := ((reader_accepts_the_grammar hts nowhere nowhere _).2.2 _ _ herror).1 rfl
  exact ⟨hts, ⟨_, _, herror, rfl⟩, hmore⟩

end LazyLisp
