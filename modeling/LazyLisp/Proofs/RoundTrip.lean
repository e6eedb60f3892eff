import LazyLisp.Printer
import LazyLisp.Proofs.BareForms
import LazyLisp.Proofs.Legible
import LazyLisp.Proofs.Literals
import Mathlib

/-!
Printing and reading again. A form made of literals, of symbols and keywords that the reader can
make, and of lists, vectors and maps of such forms prints as a text that reads as the same form.
-/

namespace LazyLisp
set_option autoImplicit false

/-- A leaf that reading some source makes, its names still known. -/
def Produces (names : Names) (leaf : Value) : Prop :=
  ∃ source before after forms, readForms source before = .ok forms after ∧ after.Grows names ∧
    ∃ form ∈ forms, leaf ∈ form.leaves

/-- Forms that can be written down: literals, special forms, symbols and keywords that the reader
makes, and lists, vectors and maps of such forms to any depth. -/
inductive Readable (names : Names) : Value → Prop
  | nil : Readable names .nil
  | bool (b : Bool) : Readable names (.bool b)
  | int (n : Int64) : Readable names (.int n)
  | char (c : Char) : Readable names (.char c)
  | string (s : String) : Readable names (.string s)
  | special (f : SpecialForm) : Readable names (.special f)
  | symbol {s : Symbol} (h : Produces names (.symbol s)) : Readable names (.symbol s)
  | keyword {s : Symbol} (h : Produces names (.keyword s)) : Readable names (.keyword s)
  | list {items : List Value} (h : ∀ v ∈ items, Readable names v) : Readable names (.list items)
  | vector {items : List Value} (h : ∀ v ∈ items, Readable names v) : Readable names (.vector items)
  | map {entries : List (Value × Value)} (hkeys : ∀ e ∈ entries, Readable names e.1)
      (hvalues : ∀ e ∈ entries, Readable names e.2)
      (hdistinct : entries.Pairwise fun a b => a.1.alike b.1 = false) :
      Readable names (.map entries)

theorem Produces.legible {names : Names} {leaf : Value} (h : Produces names leaf) :
    Reading.Legible names leaf := by
  obtain ⟨source, before, after, forms, hread, hgrows, form, hform, hleaf⟩ := h
  have hspelled := (readForms_spelled hread).2
  exact (hspelled form hform leaf hleaf).grows hgrows

theorem Readable.bare {names : Names} {v : Value} (h : Readable names v) : v.Bare := by
  induction h with
  | list _ ih => exact .list ih
  | vector _ ih => exact .vector ih
  | map _ _ hdistinct ihkeys ihvalues => exact .map ihkeys ihvalues hdistinct
  | _ => exact .atom rfl

theorem Readable.tidy {names : Names} {v : Value} (h : Readable names v) : v.Tidy := h.bare.tidy

/-- Entries with pairwise unlike keys are put together one behind the other. -/
theorem entriesOf_go {entries : List (Value × Value)} (front : List (Value × Value))
    (hkeys : ∀ e ∈ entries, e.1.Tidy) (hdistinct : (front ++ entries).Pairwise fun a b => a.1.alike b.1 = false) :
    Value.entriesOf.go (entries.flatMap fun e => [e.1, e.2]) front = front ++ entries := by
  induction entries generalizing front with
  | nil => simp [Value.entriesOf.go]
  | cons e rest ih =>
    obtain ⟨he, hrest⟩ := List.forall_mem_cons.1 hkeys
    rw [List.flatMap_cons, List.cons_append, List.cons_append, List.nil_append, Value.entriesOf.go,
      putForm_eq_append (unlike_front he hdistinct), ih _ hrest (by simpa using hdistinct),
      List.append_assoc]
    rfl

namespace Reading
variable {names : Names}

theorem advanceAll_append (pending : List Pending) (start : Span) (a b : List Token) :
    advanceAll pending start (a ++ b) = do
      let (done, pending, start) ← advanceAll pending start a
      let (more, pending, start) ← advanceAll pending start b
      return (done ++ more, pending, start) := by
  induction a generalizing pending start with
  | nil => simp [advanceAll]
  | cons t a ih => simp only [List.cons_append, advanceAll, ih, bind_assoc, pure_bind, List.append_assoc]

/-- Tokens without their places. -/
def bareTokens (kinds : List TokenKind) : List Token := kinds.map fun kind => ⟨kind, nowhere⟩

theorem bareTokens_append (a b : List TokenKind) :
    bareTokens (a ++ b) = bareTokens a ++ bareTokens b :=
  List.map_append

theorem map_kind_bareTokens (kinds : List TokenKind) :
    (bareTokens kinds).map Token.kind = kinds := by
  simp [bareTokens, Function.comp_def]

/-- Tokens that make a form of their own. -/
def isAtomic : TokenKind → Bool
  | .mark _ | .opening _ | .closing _ | .ending => false
  | _ => true

/-- Hands over a form behind its last token. -/
def handOver (form : Value) (pending : List Pending) :
    Reading (List Value × List Pending × Span) := do
  let (form, pending, start) ← complete form pending nowhere
  return (form.toList, pending, start)

/-- A form that nothing awaits becomes what replacing its marks makes of it. -/
theorem handOver_top {form code : Value} {st : Shorthand.State}
    (h : Shorthand.lower form { names := names } = .ok code st) :
    handOver form [] names = .ok ([code], [], nowhere) st.names := by
  have hlowered : lowered nowhere form names = .ok code st.names := by
    rw [lowered, h]
  rw [handOver, complete, deliver, bind_assoc, run_bind_ok hlowered]
  rfl

section
variable {between after : Names} {kinds : List TokenKind} {v : Value}

theorem advanceAll_atom {kind : TokenKind} (hkind : isAtomic kind = true)
    (hv : atom kind nowhere names = .ok v after) (pending : List Pending) :
    advanceAll pending nowhere (bareTokens [kind]) names = handOver v pending after := by
  have hadvance : advance pending nowhere ⟨kind, nowhere⟩ =
      (atom kind nowhere >>= fun form => complete form pending nowhere) := by
    cases kind with
    | mark | opening | closing | ending => cases hkind
    | _ => simp [advance]
  simp only [bareTokens, List.map_cons, List.map_nil, advanceAll, hadvance, bind_assoc, pure_bind,
    List.append_nil]
  rw [run_bind_ok hv, handOver]

theorem advanceAll_collection {d : Delimiter} {items : List Value}
    (hitems : ∀ pending, advanceAll (.opened d nowhere [] :: pending) nowhere (bareTokens kinds)
      names = .ok ([], .opened d nowhere items.reverse :: pending, nowhere) after)
    (hv : collection d nowhere items after = .ok v after) (pending : List Pending) :
    advanceAll pending nowhere (bareTokens (.opening d :: (kinds ++ [.closing d]))) names =
      handOver v pending after := by
  have hopen : advance pending nowhere ⟨.opening d, nowhere⟩ =
      pure (none, .opened d nowhere [] :: pending, nowhere) := by
    simp [advance]
  have hclose : close d nowhere (.opened d nowhere items.reverse :: pending) after =
      .ok (v, pending) after := by
    rw [close, if_pos rfl, List.reverse_reverse, run_bind_ok hv]
    rfl
  have hlast : advance (.opened d nowhere items.reverse :: pending) nowhere
      ⟨.closing d, nowhere⟩ after = complete v pending nowhere after := by
    simp only [advance]
    rw [run_bind_ok hclose]
  have hsplit : bareTokens (.opening d :: (kinds ++ [.closing d])) =
      ⟨.opening d, nowhere⟩ :: (bareTokens kinds ++ [⟨.closing d, nowhere⟩]) := by
    simp [bareTokens]
  rw [hsplit, advanceAll, hopen, pure_bind]
  dsimp only
  rw [advanceAll_append, bind_assoc, run_bind_ok (hitems pending)]
  simp only [advanceAll, bind_assoc, pure_bind, Option.toList_none, List.nil_append, List.append_nil]
  rw [run_bind, handOver, run_bind, hlast]

/-- A form inside of a collection is added to it, and reading goes on. -/
theorem advanceAll_inside {kinds' : List TokenKind} {vs : List Value}
    (h : ∀ pending, advanceAll pending nowhere (bareTokens kinds) names = handOver v pending between)
    (hs : ∀ d items pending, advanceAll (.opened d nowhere items :: pending) nowhere
      (bareTokens kinds') between =
        .ok ([], .opened d nowhere (vs.reverse ++ items) :: pending, nowhere) after)
    (d : Delimiter) (items : List Value) (pending : List Pending) :
    advanceAll (.opened d nowhere items :: pending) nowhere (bareTokens (kinds ++ kinds')) names =
      .ok ([], .opened d nowhere ((v :: vs).reverse ++ items) :: pending, nowhere) after := by
  have hfirst : advanceAll (.opened d nowhere items :: pending) nowhere (bareTokens kinds) names =
      .ok ([], .opened d nowhere (v :: items) :: pending, nowhere) between := by
    rw [h]
    rfl
  rw [bareTokens_append, advanceAll_append, run_bind_ok hfirst]
  dsimp only
  rw [run_bind_ok (hs d (v :: items) pending)]
  simp

end

/-- The tokens hand over one form, whatever is open. -/
def Parses (names : Names) (kinds : List TokenKind) (v : Value) : Prop :=
  ∀ pending, advanceAll pending nowhere (bareTokens kinds) names =
    (do
      let (form, pending, start) ← complete v pending nowhere
      return (form.toList, pending, start) : Reading _) names

theorem parses_atom {kind : TokenKind} {v : Value} (hkind : isAtomic kind = true)
    (hv : atom kind nowhere names = .ok v names) : Parses names [kind] v :=
  advanceAll_atom hkind hv

/-- The items of an open collection are added to it one after the other. -/
theorem advanceAll_items {items : List Value} {kindss : List (List TokenKind)}
    (h : List.Forall₂ (Parses names) kindss items) (d : Delimiter) (before : List Value)
    (pending : List Pending) :
    advanceAll (.opened d nowhere before :: pending) nowhere (bareTokens kindss.flatten) names =
      .ok ([], .opened d nowhere (items.reverse ++ before) :: pending, nowhere) names := by
  induction h generalizing d before pending with
  | nil => rfl
  | cons hv _ ih => exact advanceAll_inside hv ih d before pending

theorem parses_collection {items : List Value} {kindss : List (List TokenKind)} {d : Delimiter}
    {v : Value} (h : List.Forall₂ (Parses names) kindss items)
    (hv : collection d nowhere items names = .ok v names) :
    Parses names (.opening d :: (kindss.flatten ++ [.closing d])) v := by
  have hitems := fun pending => advanceAll_items h d [] pending
  simp only [List.append_nil] at hitems
  exact advanceAll_collection hitems hv

/-- The text is cut into tokens that hand over the form. -/
structure Reads (names : Names) (v : Value) (text : List Char) (kinds : List TokenKind) : Prop where
  lexes : Token.Lexes text kinds
  goesOn : ∀ kind ∈ kinds, kind ≠ .ending
  parses : Parses names kinds v

theorem reads_atom {v : Value} {text : List Char} {kind : TokenKind} (hkind : isAtomic kind = true)
    (hlexes : Token.Lexes text [kind]) (hatom : atom kind nowhere names = .ok v names) :
    Reads names v text [kind] where
  lexes := hlexes
  goesOn := by
    intro k hk
    rw [List.mem_singleton] at hk
    subst hk
    rintro rfl
    cases hkind
  parses := parses_atom hkind hatom

theorem reads_symbol {s : Symbol} {text : String} {c : Char} {cs : List Char}
    (hword : Token.Word text c cs) (hname : SpecialForm.ofName? text = none)
    (hdenotes : Denotes names text s) : Reads names (.symbol s) text.toList [.symbol text] := by
  refine reads_atom rfl (Token.lexes_word hword) ?_
  rw [atom, hname]
  exact run_bind_ok hdenotes _

theorem reads_keyword {s : Symbol} {text : String} (htext : Token.KeyText text)
    (hdenotes : Denotes names text s) :
    Reads names (.keyword s) (':' :: text.toList) [.keyword text] :=
  reads_atom rfl (Token.lexes_keyword htext) (run_bind_ok hdenotes _)

theorem reads_special (f : SpecialForm) :
    Reads names (.special f) f.text.toList [.symbol f.text] := by
  have hname : SpecialForm.ofName? f.text = some f := by cases f <;> decide
  refine reads_atom rfl (Token.lexes_special f) ?_
  rw [atom, hname]
  rfl

/-- A collection of forms with a separator between them. -/
theorem reads_collection {items : List Value} {v : Value} {d : Delimiter} {c : Char}
    {sep : List Char} {parts : List (List Char × List TokenKind)} {kindss : List (List TokenKind)}
    (hlexes : ∀ p ∈ parts, Token.Lexes p.1 p.2) (hgoesOn : ∀ p ∈ parts, ∀ kind ∈ p.2, kind ≠ .ending)
    (hparses : List.Forall₂ (Parses names) kindss items)
    (hkinds : parts.flatMap (·.2) = kindss.flatten)
    (hsep : Token.LexesAny (c :: sep) []) (hc : Token.stops c = true)
    (hv : collection d nowhere items names = .ok v names) :
    Reads names v (d.opening :: ((c :: sep).intercalate (parts.map (·.1)) ++ [d.closing]))
      (.opening d :: (parts.flatMap (·.2) ++ [.closing d])) where
  lexes := by
    intro rest hrest
    have hends : Token.Ends (d.closing :: rest) := Token.ends_cons (Token.stops_closing d) rest
    have hinner := Token.outline_intercalate hlexes hsep hc hends
    have hclose := Token.lexesAny_closing d rest
    have hopen := Token.lexesAny_opening d
      ((c :: sep).intercalate (parts.map (·.1)) ++ d.closing :: rest)
    rw [List.singleton_append] at hclose hopen
    rw [List.cons_append, List.append_assoc, List.singleton_append, hopen, hinner, hclose,
      Token.map_append_append, Token.map_append_append]
    simp
  goesOn := by
    intro kind hkind
    simp only [List.mem_cons, List.mem_append, List.mem_flatMap, List.not_mem_nil, or_false] at hkind
    rcases hkind with rfl | ⟨p, hp, hkind⟩ | rfl
    · simp
    · exact hgoesOn p hp kind hkind
    · simp
  parses := by
    rw [hkinds]
    exact parses_collection hparses hv

end Reading

/-- The form prints as the text, if the engine goes deep enough. -/
def Prints (names : Names) (v : Value) (text : List Char) : Prop :=
  ∀ (e : Engine) (n : Nat) (w : World), w.names = names → v.size ≤ n → v.size ≤ e.bound →
    v.textWithin e .readable n w = .ok (String.ofList text) w

/-- The form prints as a text that reads as it. -/
structure Shown (names : Names) (v : Value) (p : List Char × List TokenKind) : Prop where
  prints : Prints names v p.1
  reads : Reading.Reads names v p.1 p.2

section
variable {names : Names} {e : Engine} {n : Nat} {w : World}

theorem prints_atom {v : Value} {text : String}
    (h : ∀ e n w, w.names = names → Value.textWithin e .readable (n + 1) v w = .ok text w) :
    Prints names v text.toList := by
  intro e n w hw hn _
  have hpos := v.size_pos
  obtain ⟨n, rfl⟩ := Nat.exists_eq_succ_of_ne_zero (show n ≠ 0 by omega)
  rw [String.ofList_toList]
  exact h e n w hw

/-- The texts of several forms, each printed within the depth. -/
theorem mapM_text {items : List Value} {parts : List (List Char × List TokenKind)}
    (h : List.Forall₂ (Shown names) items parts) (hw : w.names = names)
    (hn : Value.sizeAll items ≤ n) (he : Value.sizeAll items ≤ e.bound) :
    items.mapM (Value.textWithin e .readable n) w =
      .ok (parts.map fun p => String.ofList p.1) w := by
  induction h with
  | nil => rfl
  | @cons v p items parts hv _ ih =>
    rw [Value.sizeAll] at hn he
    have hfirst := hv.prints e n w hw (by omega) (by omega)
    have hrest := ih (by omega) (by omega)
    rw [List.mapM_cons, run_bind_ok hfirst, run_bind_ok hrest]
    rfl

theorem fold_text {k : Nat} {s : Seq} {items : List Value}
    {parts : List (List Char × List TokenKind)} (hs : s.Strict items)
    (h : List.Forall₂ (Shown names) items parts) (hw : w.names = names)
    (hn : Value.sizeAll items ≤ n) (he : Value.sizeAll items ≤ e.bound) (hpos : 0 < e.bound)
    (hk : items.length < k) (acc : Array String) :
    s.foldWithin e (fun acc v => return acc.push (← Value.textWithin e .readable n v)) k acc w =
      .ok (acc ++ (parts.map fun p => String.ofList p.1)) w := by
  induction h generalizing k s acc with
  | nil =>
    obtain ⟨k, rfl⟩ := Nat.exists_eq_succ_of_ne_zero (show k ≠ 0 by omega)
    rw [Seq.foldWithin, run_bind_ok (hs.uncons_nil hpos w)]
    simp
  | @cons v p items parts hv _ ih =>
    obtain ⟨k, rfl⟩ := Nat.exists_eq_succ_of_ne_zero (show k ≠ 0 by omega)
    rw [Value.sizeAll] at hn he
    obtain ⟨t, ht, huncons⟩ := hs.uncons_cons hpos
    have hfirst := hv.prints e n w hw (by omega) (by omega)
    rw [Seq.foldWithin, run_bind_ok (huncons w)]
    dsimp only
    rw [bind_assoc, run_bind_ok hfirst, pure_bind,
      ih ht (by omega) (by omega) (Nat.lt_of_succ_lt_succ hk)]
    simp

theorem forall₂_of_exists {α β : Type} {R : α → β → Prop} {xs : List α} (h : ∀ x ∈ xs, ∃ y, R x y) :
    ∃ ys, List.Forall₂ R xs ys := by
  induction xs with
  | nil => exact ⟨[], .nil⟩
  | cons x xs ih =>
    obtain ⟨hx, hxs⟩ := List.forall_mem_cons.1 h
    obtain ⟨y, hy⟩ := hx
    obtain ⟨ys, hys⟩ := ih hxs
    exact ⟨y :: ys, .cons hy hys⟩

theorem forall₂_right {α β : Type} {R : α → β → Prop} {P : β → Prop} {xs : List α} {ys : List β}
    (h : List.Forall₂ R xs ys) (hP : ∀ x y, R x y → P y) : ∀ y ∈ ys, P y := by
  induction h with
  | nil => simp
  | @cons x y xs ys hxy _ ih => exact List.forall_mem_cons.2 ⟨hP x y hxy, ih⟩

theorem bracketed (d : Delimiter) (sep : String) (parts : List (List Char × List TokenKind)) :
    d.opening.toString ++ sep.intercalate (parts.map fun p => String.ofList p.1) ++
        d.closing.toString =
      String.ofList (d.opening :: (sep.toList.intercalate (parts.map (·.1)) ++ [d.closing])) := by
  apply String.toList_inj.1
  simp [String.toList_intercalate, Function.comp_def]

theorem lexesAny_space : Token.LexesAny [' '] [] := Token.lexesAny_blank (by decide)

theorem lexesAny_comma : Token.LexesAny [',', ' '] [] := by
  intro rest
  have hcomma := Token.lexesAny_blank (c := ',') (by decide) (' ' :: rest)
  have hspace := lexesAny_space rest
  rw [List.singleton_append, Token.map_nil_append] at hcomma hspace
  rw [Token.map_nil_append]
  exact hcomma.trans hspace

/-- The parsed items of a collection, one list of tokens for each. -/
theorem parses_parts {items : List Value} {parts : List (List Char × List TokenKind)}
    (h : List.Forall₂ (Shown names) items parts) :
    List.Forall₂ (Reading.Parses names) (parts.map (·.2)) items := by
  induction h with
  | nil => exact .nil
  | cons hv _ ih => exact .cons hv.reads.parses ih

theorem reads_items {items : List Value} {parts : List (List Char × List TokenKind)} {d : Delimiter}
    {v : Value} (h : List.Forall₂ (Shown names) items parts)
    (hv : Reading.collection d Reading.nowhere items names = .ok v names) :
    Reading.Reads names v (d.opening :: ([' '].intercalate (parts.map (·.1)) ++ [d.closing]))
      (.opening d :: (parts.flatMap (·.2) ++ [.closing d])) :=
  Reading.reads_collection (forall₂_right h fun _ _ hs => hs.reads.lexes)
    (forall₂_right h fun _ _ hs => hs.reads.goesOn) (parses_parts h) (List.flatMap_def ..)
    lexesAny_space (by decide) hv

theorem shown_list {items : List Value} {parts : List (List Char × List TokenKind)}
    (h : List.Forall₂ (Shown names) items parts) : ∃ p, Shown names (.list items) p := by
  refine ⟨(_, _), ?_, reads_items h (d := .paren) rfl⟩
  intro e n w hw hn he
  rw [Value.size_list] at hn he
  obtain ⟨n, rfl⟩ := Nat.exists_eq_succ_of_ne_zero (show n ≠ 0 by omega)
  have hlen := Value.length_le_sizeAll items
  have hfold := fold_text (e := e) (n := n) (Seq.strict_ofList items) h hw (by omega) (by omega)
    (by omega) (show items.length < e.bound by omega) #[]
  rw [Value.list, Value.textWithin, run_bind_ok (run_get w)]
  dsimp only
  rw [Seq.fold, run_bind_ok hfold]
  rw [Array.toList_appendList, List.nil_append]
  exact congrArg (EStateM.Result.ok · w) (bracketed .paren " " parts)

theorem shown_vector {items : List Value} {parts : List (List Char × List TokenKind)}
    (h : List.Forall₂ (Shown names) items parts) : ∃ p, Shown names (.vector items) p := by
  refine ⟨(_, _), ?_, reads_items h (d := .bracket) rfl⟩
  intro e n w hw hn he
  rw [Value.size] at hn he
  obtain ⟨n, rfl⟩ := Nat.exists_eq_succ_of_ne_zero (show n ≠ 0 by omega)
  have hmap := mapM_text (e := e) (n := n) h hw (by omega) (by omega)
  rw [Value.textWithin, run_bind_ok (run_get w)]
  dsimp only
  rw [run_bind_ok hmap]
  exact congrArg (EStateM.Result.ok · w) (bracketed .bracket " " parts)

/-- An entry is written as its key and its value with a blank between them. -/
def entryPart (q : (List Char × List TokenKind) × (List Char × List TokenKind)) :
    List Char × List TokenKind :=
  (q.1.1 ++ ' ' :: q.2.1, q.1.2 ++ q.2.2)

/-- Key and value of an entry print as texts that read as them. -/
def ShownEntry (names : Names) (f : Value × Value)
    (q : (List Char × List TokenKind) × (List Char × List TokenKind)) : Prop :=
  Shown names f.1 q.1 ∧ Shown names f.2 q.2

theorem lexes_entryPart {f : Value × Value}
    {q : (List Char × List TokenKind) × (List Char × List TokenKind)} (h : ShownEntry names f q) :
    Token.Lexes (entryPart q).1 (entryPart q).2 := by
  have hvalue : Token.Lexes (' ' :: q.2.1) q.2.2 :=
    lexesAny_space.append_lexes h.2.reads.lexes
  exact h.1.reads.lexes.append (by decide) hvalue

theorem parses_entries {entries : List (Value × Value)}
    {parts : List ((List Char × List TokenKind) × (List Char × List TokenKind))}
    (h : List.Forall₂ (ShownEntry names) entries parts) :
    List.Forall₂ (Reading.Parses names) (parts.flatMap fun q => [q.1.2, q.2.2])
      (entries.flatMap fun f => [f.1, f.2]) := by
  induction h with
  | nil => exact .nil
  | cons hf _ ih => exact .cons hf.1.reads.parses (.cons hf.2.reads.parses ih)

theorem mapM_entries {entries : List (Value × Value)}
    {parts : List ((List Char × List TokenKind) × (List Char × List TokenKind))}
    (h : List.Forall₂ (ShownEntry names) entries parts) (hw : w.names = names)
    (hn : Value.sizeEntries entries ≤ n) (he : Value.sizeEntries entries ≤ e.bound) :
    (entries.mapM fun (k, v) => do
        let k ← Value.textWithin e .readable n k
        return k ++ " " ++ (← Value.textWithin e .readable n v) : Eval (List String)) w =
      .ok ((parts.map entryPart).map fun p => String.ofList p.1) w := by
  induction h with
  | nil => rfl
  | @cons f q entries parts hf _ ih =>
    obtain ⟨k, v⟩ := f
    rw [Value.sizeEntries] at hn he
    have hkey := hf.1.prints e n w hw (show k.size ≤ n by omega) (show k.size ≤ e.bound by omega)
    have hvalue := hf.2.prints e n w hw (show v.size ≤ n by omega) (show v.size ≤ e.bound by omega)
    have hrest := ih (by omega) (by omega)
    have htext : String.ofList q.1.1 ++ " " ++ String.ofList q.2.1 = String.ofList (entryPart q).1 := by
      apply String.toList_inj.1
      simp [entryPart]
    rw [List.mapM_cons]
    dsimp only
    rw [bind_assoc, run_bind_ok hkey, bind_assoc, run_bind_ok hvalue, pure_bind, run_bind_ok hrest,
      htext]
    rfl

theorem collection_entries {entries : List (Value × Value)} (hkeys : ∀ f ∈ entries, f.1.Tidy)
    (hdistinct : entries.Pairwise fun a b => a.1.alike b.1 = false) :
    Reading.collection .brace Reading.nowhere (entries.flatMap fun f => [f.1, f.2]) names =
      .ok (.map entries) names := by
  have hlen : (entries.flatMap fun f => [f.1, f.2]).length = 2 * entries.length := by
    simp [List.length_flatMap, Nat.mul_comm]
  have hentries := entriesOf_go [] hkeys hdistinct
  rw [Reading.collection, if_pos (by omega), Value.entriesOf, hentries]
  rfl

theorem flatMap_entryPart (parts : List ((List Char × List TokenKind) × (List Char × List TokenKind))) :
    (parts.map entryPart).flatMap (·.2) = (parts.flatMap fun q => [q.1.2, q.2.2]).flatten := by
  induction parts with
  | nil => rfl
  | cons q parts ih =>
    rw [List.map_cons, List.flatMap_cons, ih]
    simp [entryPart]

theorem shown_map {entries : List (Value × Value)}
    {parts : List ((List Char × List TokenKind) × (List Char × List TokenKind))}
    (hkeys : ∀ f ∈ entries, f.1.Tidy)
    (hdistinct : entries.Pairwise fun a b => a.1.alike b.1 = false)
    (h : List.Forall₂ (ShownEntry names) entries parts) : ∃ p, Shown names (.map entries) p := by
  have hlexes : ∀ p ∈ parts.map entryPart, Token.Lexes p.1 p.2 := by
    intro p hp
    obtain ⟨q, hq, rfl⟩ := List.mem_map.1 hp
    exact forall₂_right (P := fun q => Token.Lexes (entryPart q).1 (entryPart q).2) h
      (fun f q => lexes_entryPart) q hq
  have hgoesOn : ∀ p ∈ parts.map entryPart, ∀ kind ∈ p.2, kind ≠ .ending := by
    intro p hp kind hkind
    obtain ⟨q, hq, rfl⟩ := List.mem_map.1 hp
    rcases List.mem_append.1 hkind with hkind | hkind
    · exact forall₂_right h (fun f q hfq => hfq.1.reads.goesOn) q hq kind hkind
    · exact forall₂_right h (fun f q hfq => hfq.2.reads.goesOn) q hq kind hkind
  refine ⟨(_, _), ?_, Reading.reads_collection hlexes hgoesOn (parses_entries h)
    (flatMap_entryPart parts) lexesAny_comma (by decide) (collection_entries hkeys hdistinct)⟩
  intro e n w hw hn he
  rw [Value.size] at hn he
  obtain ⟨n, rfl⟩ := Nat.exists_eq_succ_of_ne_zero (show n ≠ 0 by omega)
  have hmap := mapM_entries (e := e) (n := n) h hw (by omega) (by omega)
  rw [Value.textWithin, run_bind_ok (run_get w)]
  dsimp only
  rw [run_bind_ok hmap]
  exact congrArg (EStateM.Result.ok · w) (bracketed .brace ", " (parts.map entryPart))

theorem shown_atom {v : Value} {text : String} {kind : TokenKind}
    (hprints : ∀ e n w, w.names = names → Value.textWithin e .readable (n + 1) v w = .ok text w)
    (hreads : Reading.Reads names v text.toList [kind]) : ∃ p, Shown names v p :=
  ⟨(_, _), prints_atom hprints, hreads⟩

theorem Readable.shown {v : Value} (h : Readable names v) : ∃ p, Shown names v p := by
  induction h with
  | nil => exact shown_atom (fun _ _ _ _ => rfl) (Reading.reads_atom rfl Token.lexes_nil rfl)
  | bool b => exact shown_atom (fun _ _ _ _ => rfl) (Reading.reads_atom rfl (Token.lexes_bool b) rfl)
  | int n => exact shown_atom (fun _ _ _ _ => rfl) (Reading.reads_atom rfl (Token.lexes_int n) rfl)
  | char c => exact shown_atom (fun _ _ _ _ => rfl) (Reading.reads_atom rfl (Token.lexes_char c) rfl)
  | string s =>
    exact shown_atom (fun _ _ _ _ => rfl) (Reading.reads_atom rfl (Token.lexes_string s) rfl)
  | special f => exact shown_atom (fun _ _ _ _ => rfl) (Reading.reads_special f)
  | symbol hs =>
    obtain ⟨text, c, cs, hword, hname, hdenotes⟩ := hs.legible
    refine shown_atom (fun e n w hw => ?_) (Reading.reads_symbol hword hname hdenotes)
    subst hw
    exact congrArg (EStateM.Result.ok · w) hdenotes.symbolText
  | keyword hs =>
    obtain ⟨text, htext, hdenotes⟩ := hs.legible
    have hreads := Reading.reads_keyword htext hdenotes
    have hcons : ':' :: text.toList = (":" ++ text).toList := by simp
    rw [hcons] at hreads
    refine shown_atom (fun e n w hw => ?_) hreads
    subst hw
    exact congrArg (fun t => EStateM.Result.ok (":" ++ t) w) hdenotes.symbolText
  | list _ ih =>
    obtain ⟨parts, hparts⟩ := forall₂_of_exists ih
    exact shown_list hparts
  | vector _ ih =>
    obtain ⟨parts, hparts⟩ := forall₂_of_exists ih
    exact shown_vector hparts
  | @map entries hkeys hvalues hdistinct ihkeys ihvalues =>
    have hentries : ∀ f ∈ entries, ∃ q, ShownEntry names f q := by
      intro f hf
      obtain ⟨p, hp⟩ := ihkeys f hf
      obtain ⟨q, hq⟩ := ihvalues f hf
      exact ⟨(p, q), hp, hq⟩
    obtain ⟨parts, hparts⟩ := forall₂_of_exists hentries
    exact shown_map (fun f hf => (hkeys f hf).tidy) hdistinct hparts

/-- Tokens of one form, alone in a source, make what the form becomes. -/
theorem readForms_of_handOver {source : String} {tokens : List Token} {kinds : List TokenKind}
    {after : Names} {v code : Value} {st : Shorthand.State}
    (htokens : Token.tokensFrom {} source.toList = .ok tokens)
    (hkinds : tokens.map (·.kind) = kinds ++ [.ending]) (hgoesOn : ∀ kind ∈ kinds, kind ≠ .ending)
    (hrun : Reading.advanceAll [] Reading.nowhere (Reading.bareTokens kinds) names =
      Reading.handOver v [] after)
    (hlower : Shorthand.lower v { names := after } = .ok code st) :
    readForms source names = .ok [code] st.names := by
  have hforms : Reading.forms [] Reading.nowhere (Reading.bareTokens (kinds ++ [.ending])) names =
      .ok [code] st.names := by
    have hfront : ∀ t ∈ Reading.bareTokens kinds, t.kind ≠ .ending :=
      List.forall_mem_map.2 hgoesOn
    rw [Reading.bareTokens_append, Reading.forms_append _ _ hfront,
      run_bind_ok (hrun.trans (Reading.handOver_top hlower))]
    rfl
  have hbare := Reading.map_kind_bareTokens (kinds ++ [.ending])
  refine readForms_eq_ok.2 ⟨tokens, htokens, ?_⟩
  exact ok_of_bare (Reading.forms_congr origin Reading.nowhere (hkinds.trans hbare.symm) names) hforms

theorem readForms_of_reads {v : Value} {text : List Char} {kinds : List TokenKind}
    (h : Reading.Reads names v text kinds) (hlower : ∀ st, Shorthand.lower v st = .ok v st) :
    readForms (String.ofList text) names = .ok [v] names := by
  have hlexes := h.lexes [] (by simp [Token.Ends])
  rw [List.append_nil, Token.tokensFrom_of_gap {} (rfl : Token.gap false [] = 0)] at hlexes
  cases htokens : Token.tokensFrom {} text with
  | error e =>
    rw [htokens] at hlexes
    cases hlexes
  | ok tokens =>
    rw [htokens] at hlexes
    rw [← String.toList_ofList (l := text)] at htokens
    exact readForms_of_handOver htokens (Except.ok.inj hlexes) h.goesOn (h.parses []) (hlower _)

end

/-- Every readable form prints, and the text reads as exactly one form, which equals it. The engine
needs no more steps than the form has parts, and the store of names stays as it is. -/
theorem readForms_text {w : World} {v : Value} (h : Readable w.names v) (e : Engine)
    (he : v.size ≤ e.bound) :
    ∃ text, v.text e .readable w = .ok text w ∧
      ∃ form, readForms text w.names = .ok [form] w.names ∧ form.equal e v w = .ok true w := by
  obtain ⟨⟨text, kinds⟩, hprints, hreads⟩ := h.shown
  refine ⟨String.ofList text, hprints e e.bound w rfl he he, v, ?_, ?_⟩
  · exact readForms_of_reads hreads (Shorthand.lower_bare h.bare)
  · exact Value.equal_self h.tidy he w

/-- A map with a keyword, a list that starts with a qualified symbol, and literals that need
escapes, a name, or the least number. -/
theorem readForms_text_nested :
    let names : Names := Names.initial.internAll ["k", "a", "b"]
    let w : World := { names := names }
    let e : Engine := ⟨fun _ => throw .exhausted, 20⟩
    let v : Value := .map
      [(.keyword (.plain 7), .vector [.string "a\"\n\\", .char '\n', .char 'x', .int Int64.minValue]),
       (.list [.symbol (.qualified 8 9), .special .ifElse, .nil], .bool true)]
    ∃ text, v.text e .readable w = .ok text w ∧
      ∃ form, readForms text names = .ok [form] names ∧ form.equal e v w = .ok true w := by
  intro names w e v
  have hread : readForms ":k a/b" Names.initial =
      .ok [.keyword (.plain 7), .symbol (.qualified 8 9)] names := by cbv
  have hkeyword : Produces names (.keyword (.plain 7)) :=
    ⟨_, _, _, _, hread, .refl names, _, List.mem_cons_self, by simp [Value.leaves]⟩
  have hsymbol : Produces names (.symbol (.qualified 8 9)) :=
    ⟨_, _, _, _, hread, .refl names, _, List.mem_cons_of_mem _ List.mem_cons_self,
      by simp [Value.leaves]⟩
  have hv : Readable names v := by
    refine .map ?_ ?_ ?_
    · simp only [List.forall_mem_cons]
      refine ⟨.keyword hkeyword, .list ?_, by simp⟩
      simp only [List.forall_mem_cons]
      exact ⟨.symbol hsymbol, .special _, .nil, by simp⟩
    · simp only [List.forall_mem_cons]
      refine ⟨.vector ?_, .bool true, by simp⟩
      simp only [List.forall_mem_cons]
      exact ⟨.string _, .char _, .char _, .int _, by simp⟩
    · exact List.pairwise_pair.2 rfl
  exact readForms_text hv e (by decide)

end LazyLisp
