import LazyLisp.Proofs.PlainForms
import LazyLisp.Proofs.Templates
import Mathlib.Data.List.Forall2
import Mathlib.Data.List.Pairwise

/-!
What becomes of a template of atoms, symbols, lists and vectors with holes in it. Its marked
symbols get fresh ones, each hole gets the code of its expression, and the whole becomes an
expression that is made of the template part by part.
-/

namespace LazyLisp
set_option autoImplicit false

namespace Names

/-- The name of the symbol is in the store if it has no namespace. -/
def Knows (names : Names) (s : Symbol) : Prop := s.ns = none → s.name < names.size

end Names

namespace Shorthand

/-! Replacing marks only adds names, and outside of templates no fresh symbols of its own. -/

/-- Run to its end, the replacement takes a state to a related one. -/
def Moves (Q : State → State → Prop) {α : Type} (m : Lower α) : Prop :=
  ∀ st a after, m st = .ok a after → Q st after

/-- A relation that consecutive replacements keep. -/
structure Steps (Q : State → State → Prop) : Prop where
  refl : ∀ st, Q st st
  trans : ∀ {a b c}, Q a b → Q b c → Q a c

namespace Moves
variable {Q : State → State → Prop} {α β : Type}

theorem pure (hQ : Steps Q) (a : α) : Moves Q (pure a) := by
  intro st b after h
  cases h
  exact hQ.refl st

theorem throw {message : String} : Moves Q (throw message : Lower α) := by
  intro st a after h
  cases h

theorem bind (hQ : Steps Q) {m : Lower α} {f : α → Lower β} (hm : Moves Q m)
    (hf : ∀ a, Moves Q (f a)) : Moves Q (m >>= f) := by
  intro st b after h
  obtain ⟨a, between, hrun, hnext⟩ := run_bind_eq_ok.1 h
  exact hQ.trans (hm st a between hrun) (hf a between b after hnext)

end Moves

def NamesGrow (st after : State) : Prop := st.names.Grows after.names

def OnlyNamesGrow (st after : State) : Prop := NamesGrow st after ∧ after.fresh = st.fresh

theorem namesGrow_steps : Steps NamesGrow := ⟨fun st => .refl st.names, .trans⟩

theorem onlyNamesGrow_steps : Steps OnlyNamesGrow where
  refl st := ⟨.refl st.names, rfl⟩
  trans hab hbc := ⟨hab.1.trans hbc.1, hbc.2.trans hab.2⟩

theorem ownTemplate_moves {α : Type} {m : Lower α} (h : Moves NamesGrow m) :
    Moves OnlyNamesGrow (ownTemplate m) := by
  intro st a after hrun
  obtain ⟨_, _, hget, hrun⟩ := run_bind_eq_ok.1 hrun
  cases hget
  obtain ⟨_, _, hmodify, hrun⟩ := run_bind_eq_ok.1 hrun
  cases hmodify
  obtain ⟨b, between, hbody, hrun⟩ := run_bind_eq_ok.1 hrun
  cases hrun
  exact ⟨h ⟨st.names, []⟩ a between hbody, rfl⟩

/-- A plain symbol with a stem, as the fresh symbols of templates stand for. -/
def Stemmed (names : Names) (s : Symbol) : Prop :=
  s.ns = none ∧ (freshStem? (names.text s.name)).isSome = true

/-- Only a symbol with a stem is replaced, and by a new symbol only the first time. -/
theorem resolve_cases (s : Symbol) (st : State) :
    (resolve s st = .ok s st ∧ ¬ Stemmed st.names s) ∨
    (Stemmed st.names s ∧ ∃ id, st.fresh.lookup s.name = some id ∧
      resolve s st = .ok (.plain id) st) ∨
    (Stemmed st.names s ∧ st.fresh.lookup s.name = none ∧ ∃ stem id names,
      st.names.fresh stem (some "auto") = (id, names) ∧
      resolve s st = .ok (.plain id) ⟨names, (s.name, id) :: st.fresh⟩) := by
  obtain ⟨ns, name⟩ := s
  simp only [resolve, run_bind, run_get, Stemmed]
  cases ns with
  | some ns => exact .inl ⟨rfl, fun hstem => Option.some_ne_none ns hstem.1⟩
  | none =>
    simp only [Symbol.isQualified, Option.isSome_none, Bool.false_eq_true, true_and]
    cases hstem : freshStem? (st.names.text name) with
    | none => exact .inl ⟨rfl, Bool.false_ne_true⟩
    | some stem =>
      cases hlook : st.fresh.lookup name with
      | some id => exact .inr (.inl ⟨rfl, id, rfl, rfl⟩)
      | none => exact .inr (.inr ⟨rfl, rfl, stem, _, _, rfl, rfl⟩)

theorem resolve_moves (s : Symbol) : Moves NamesGrow (resolve s) := by
  intro st t after h
  rcases resolve_cases s st with ⟨hrun, -⟩ | ⟨-, id, -, hrun⟩ | ⟨-, -, stem, id, names, hfresh, hrun⟩
  · cases hrun.symm.trans h
    exact .refl st.names
  · cases hrun.symm.trans h
    exact .refl st.names
  · cases hrun.symm.trans h
    have hgrows := st.names.grows_fresh stem (some "auto")
    rw [hfresh] at hgrows
    exact hgrows

mutual

theorem plainTemplate_moves (v : Value) : Moves NamesGrow (plainTemplate v) := by
  cases v with
  | symbol s => exact .bind namesGrow_steps (resolve_moves s) fun _ => .pure namesGrow_steps _
  | seq s => exact .bind namesGrow_steps (plainSeq_moves s) fun _ => .pure namesGrow_steps _
  | vector items =>
    exact .bind namesGrow_steps (plainItems_moves items) fun _ => .pure namesGrow_steps _
  | map entries =>
    exact .bind namesGrow_steps (plainEntries_moves entries) fun _ => .pure namesGrow_steps _
  | _ => exact .pure namesGrow_steps _

theorem plainSeq_moves (s : Seq) : Moves NamesGrow (plainSeq s) := by
  cases s with
  | cons head tail =>
    refine .bind namesGrow_steps (plainTemplate_moves head) fun _ => ?_
    exact .bind namesGrow_steps (plainSeq_moves tail) fun _ => .pure namesGrow_steps _
  | _ => exact .pure namesGrow_steps _

theorem plainItems_moves (items : List Value) : Moves NamesGrow (plainItems items) := by
  cases items with
  | nil => exact .pure namesGrow_steps _
  | cons v vs =>
    refine .bind namesGrow_steps (plainTemplate_moves v) fun _ => ?_
    exact .bind namesGrow_steps (plainItems_moves vs) fun _ => .pure namesGrow_steps _

theorem plainEntries_moves (entries : List (Value × Value)) :
    Moves NamesGrow (plainEntries entries) := by
  cases entries with
  | nil => exact .pure namesGrow_steps _
  | cons e rest =>
    refine .bind namesGrow_steps (plainTemplate_moves e.1) fun _ => ?_
    refine .bind namesGrow_steps (plainTemplate_moves e.2) fun _ => ?_
    exact .bind namesGrow_steps (plainEntries_moves rest) fun _ => .pure namesGrow_steps _

end

theorem OnlyNamesGrow.moves {α : Type} {m : Lower α} (h : Moves OnlyNamesGrow m) :
    Moves NamesGrow m :=
  fun st a after hrun => (h st a after hrun).1

mutual

theorem lower_moves (v : Value) : Moves OnlyNamesGrow (lower v) := by
  cases v with
  | marked m f =>
    cases m with
    | quote | varQuote | deref =>
      exact .bind onlyNamesGrow_steps (lower_moves f) fun _ => .pure onlyNamesGrow_steps _
    | template =>
      refine .bind onlyNamesGrow_steps (ownTemplate_moves (template_moves false f)) fun _ => ?_
      exact .pure onlyNamesGrow_steps _
    | unquote | splice => exact .throw
  | seq s => exact .bind onlyNamesGrow_steps (lowerSeq_moves s) fun _ => .pure onlyNamesGrow_steps _
  | vector items =>
    exact .bind onlyNamesGrow_steps (lowerItems_moves items) fun _ => .pure onlyNamesGrow_steps _
  | map entries =>
    exact .bind onlyNamesGrow_steps (lowerEntries_moves entries) fun _ => .pure onlyNamesGrow_steps _
  | _ => exact .pure onlyNamesGrow_steps _

theorem lowerSeq_moves (s : Seq) : Moves OnlyNamesGrow (lowerSeq s) := by
  cases s with
  | cons head tail =>
    refine .bind onlyNamesGrow_steps (lower_moves head) fun _ => ?_
    exact .bind onlyNamesGrow_steps (lowerSeq_moves tail) fun _ => .pure onlyNamesGrow_steps _
  | _ => exact .pure onlyNamesGrow_steps _

theorem lowerItems_moves (items : List Value) : Moves OnlyNamesGrow (lowerItems items) := by
  cases items with
  | nil => exact .pure onlyNamesGrow_steps _
  | cons v vs =>
    refine .bind onlyNamesGrow_steps (lower_moves v) fun _ => ?_
    exact .bind onlyNamesGrow_steps (lowerItems_moves vs) fun _ => .pure onlyNamesGrow_steps _

theorem lowerEntries_moves (entries : List (Value × Value)) :
    Moves OnlyNamesGrow (lowerEntries entries) := by
  cases entries with
  | nil => exact .pure onlyNamesGrow_steps _
  | cons e rest =>
    refine .bind onlyNamesGrow_steps (lower_moves e.1) fun _ => ?_
    refine .bind onlyNamesGrow_steps (lower_moves e.2) fun _ => ?_
    exact .bind onlyNamesGrow_steps (lowerEntries_moves rest) fun _ => .pure onlyNamesGrow_steps _

theorem template_moves (inside : Bool) (v : Value) : Moves NamesGrow (template inside v) := by
  cases v with
  | marked m f =>
    cases m with
    | unquote =>
      exact .bind namesGrow_steps (OnlyNamesGrow.moves (lower_moves f)) fun _ =>
        .pure namesGrow_steps _
    | splice =>
      cases inside with
      | true =>
        exact .bind namesGrow_steps (OnlyNamesGrow.moves (lower_moves f)) fun _ =>
          .pure namesGrow_steps _
      | false => exact .throw
    | quote | varQuote | deref =>
      exact .bind namesGrow_steps (template_moves true f) fun _ => .pure namesGrow_steps _
    | template =>
      have hinner := OnlyNamesGrow.moves (ownTemplate_moves (template_moves false f))
      refine .bind namesGrow_steps hinner fun inner => ?_
      exact .bind namesGrow_steps (plainTemplate_moves inner.form) fun _ => .pure namesGrow_steps _
  | symbol s => exact .bind namesGrow_steps (resolve_moves s) fun _ => .pure namesGrow_steps _
  | seq s => exact .bind namesGrow_steps (templateSeq_moves s) fun _ => .pure namesGrow_steps _
  | vector items =>
    exact .bind namesGrow_steps (templateItems_moves items) fun _ => .pure namesGrow_steps _
  | map entries =>
    exact .bind namesGrow_steps (templateEntries_moves entries) fun _ => .pure namesGrow_steps _
  | _ => exact .pure namesGrow_steps _

theorem templateSeq_moves (s : Seq) : Moves NamesGrow (templateSeq s) := by
  cases s with
  | cons head tail =>
    refine .bind namesGrow_steps (template_moves true head) fun _ => ?_
    exact .bind namesGrow_steps (templateSeq_moves tail) fun _ => .pure namesGrow_steps _
  | _ => exact .pure namesGrow_steps _

theorem templateItems_moves (items : List Value) : Moves NamesGrow (templateItems items) := by
  cases items with
  | nil => exact .pure namesGrow_steps _
  | cons v vs =>
    refine .bind namesGrow_steps (template_moves true v) fun _ => ?_
    exact .bind namesGrow_steps (templateItems_moves vs) fun _ => .pure namesGrow_steps _

theorem templateEntries_moves (entries : List (Value × Value)) :
    Moves NamesGrow (templateEntries entries) := by
  cases entries with
  | nil => exact .pure namesGrow_steps _
  | cons e rest =>
    refine .bind namesGrow_steps (template_moves true e.1) fun _ => ?_
    refine .bind namesGrow_steps (template_moves true e.2) fun _ => ?_
    exact .bind namesGrow_steps (templateEntries_moves rest) fun _ => .pure namesGrow_steps _

end

/-! The fresh symbols of a template. -/

/-- The fresh symbols stand for symbols with a stem that were known before the template; they are
new, and no two are the same. -/
structure Table (before : Names) (st : State) : Prop where
  grows : before.Grows st.names
  stemmed : ∀ p ∈ st.fresh, Stemmed before (.plain p.1)
  new : ∀ p ∈ st.fresh, before.size ≤ p.2 ∧ p.2 < st.names.size ∧
    st.names.text p.2 ∉ before.texts
  distinct : st.fresh.Pairwise fun p q => p.2 ≠ q.2

/-- Later names are more, and what stands for a symbol stays. -/
structure Grown (st after : State) : Prop where
  names : st.names.Grows after.names
  fresh : ∀ name id, st.fresh.lookup name = some id → after.fresh.lookup name = some id

theorem grown_steps : Steps Grown where
  refl st := ⟨.refl st.names, fun _ _ h => h⟩
  trans hab hbc := ⟨hab.names.trans hbc.names, fun _ _ h => hbc.fresh _ _ (hab.fresh _ _ h)⟩

theorem OnlyNamesGrow.grown {st after : State} (h : OnlyNamesGrow st after) : Grown st after :=
  ⟨h.1, fun _ _ hlook => by rwa [h.2]⟩

/-- What stands for a symbol in the current template. -/
def State.resolved (st : State) (s : Symbol) : Symbol :=
  match s.ns, st.fresh.lookup s.name with
  | none, some id => .plain id
  | _, _ => s

theorem mem_of_lookup {fresh : List (NameId × NameId)} {name id : NameId}
    (h : fresh.lookup name = some id) : (name, id) ∈ fresh := by
  obtain ⟨l, l', rfl, -⟩ := List.lookup_eq_some_iff.1 h
  simp

namespace Table
variable {before : Names} {st after : State} {s : Symbol}

theorem empty (names : Names) : Table names ⟨names, []⟩ :=
  ⟨.refl names, List.forall_mem_nil _, List.forall_mem_nil _, .nil⟩

theorem onlyNamesGrow (h : Table before st) (hmoves : OnlyNamesGrow st after) :
    Table before after := by
  obtain ⟨hgrows, hfresh⟩ := hmoves
  refine ⟨h.grows.trans hgrows, hfresh ▸ h.stemmed, hfresh ▸ fun p hp => ?_, hfresh ▸ h.distinct⟩
  obtain ⟨hle, hlt, hnew⟩ := h.new p hp
  exact ⟨hle, Nat.lt_of_lt_of_le hlt hgrows.size_le, hgrows.text hlt ▸ hnew⟩

theorem stemmed_iff (h : Table before st) (hs : before.Knows s) :
    Stemmed st.names s ↔ Stemmed before s := by
  refine and_congr_right fun hns => ?_
  rw [h.grows.text (hs hns)]

/-- A symbol without a stem stands for itself. -/
theorem resolved_of_not_stemmed (h : Table before st) (hs : ¬ Stemmed before s) :
    st.resolved s = s := by
  obtain ⟨ns, name⟩ := s
  unfold State.resolved
  cases ns with
  | some ns => rfl
  | none =>
    cases hlook : st.fresh.lookup name with
    | none => rfl
    | some id => exact absurd (h.stemmed _ (mem_of_lookup hlook)) hs

/-- What stands for a symbol stays. -/
theorem resolved_later {later : State} (h : Table before st) (hlater : Table before later)
    (hgrown : Grown st later)
    (hs : Stemmed before s → ∃ id, st.fresh.lookup s.name = some id) :
    later.resolved s = st.resolved s := by
  by_cases hstemmed : Stemmed before s
  · obtain ⟨id, hid⟩ := hs hstemmed
    have hid' := hgrown.fresh _ _ hid
    obtain ⟨ns, name⟩ := s
    obtain rfl : ns = none := hstemmed.1
    unfold State.resolved
    rw [hid, hid']
  · rw [h.resolved_of_not_stemmed hstemmed, hlater.resolved_of_not_stemmed hstemmed]

theorem add (h : Table before st) (hs : Stemmed before s) {stem : String} {id : NameId}
    {names : Names} (hfresh : st.names.fresh stem (some "auto") = (id, names)) :
    Table before ⟨names, (s.name, id) :: st.fresh⟩ := by
  obtain ⟨hid, text, htext, htexts⟩ := st.names.fresh_new stem (some "auto")
  have hgrows := st.names.grows_fresh stem (some "auto")
  rw [hfresh] at hid htexts hgrows
  obtain rfl : id = st.names.size := hid
  have hsize : names.size = st.names.size + 1 := by
    rw [Names.size, htexts, List.length_append]
    rfl
  have hname : names.text st.names.size = text := by
    rw [Names.text, htexts, Names.size, List.getElem?_concat_length]
    rfl
  constructor
  · exact h.grows.trans hgrows
  · exact List.forall_mem_cons.2 ⟨⟨rfl, hs.2⟩, h.stemmed⟩
  · refine List.forall_mem_cons.2 ⟨⟨h.grows.size_le, ?_, ?_⟩, fun p hp => ?_⟩
    · exact hsize ▸ Nat.lt_succ_self _
    · exact hname ▸ fun hmem => htext (h.grows.subset hmem)
    · obtain ⟨hle, hlt, hnew⟩ := h.new p hp
      exact ⟨hle, Nat.lt_of_lt_of_le hlt hgrows.size_le, hgrows.text hlt ▸ hnew⟩
  · refine List.pairwise_cons.2 ⟨fun p hp => ?_, h.distinct⟩
    exact Nat.ne_of_gt (h.new p hp).2.1

theorem resolve (h : Table before st) (hs : before.Knows s) :
    ∃ after, Shorthand.resolve s st = .ok (after.resolved s) after ∧ Table before after ∧
      Grown st after ∧ (Stemmed before s → ∃ id, after.fresh.lookup s.name = some id) := by
  rcases resolve_cases s st with ⟨hrun, hnot⟩ | ⟨hstem, id, hid, hrun⟩ |
    ⟨hstem, hnone, stem, id, names, hfresh, hrun⟩
  · rw [h.stemmed_iff hs] at hnot
    refine ⟨st, ?_, h, grown_steps.refl st, fun hstem => absurd hstem hnot⟩
    rw [hrun, h.resolved_of_not_stemmed hnot]
  · obtain ⟨ns, name⟩ := s
    obtain rfl : ns = none := hstem.1
    refine ⟨st, ?_, h, grown_steps.refl st, fun _ => ⟨id, hid⟩⟩
    rw [hrun, State.resolved, hid]
  · rw [h.stemmed_iff hs] at hstem
    have hgrows := st.names.grows_fresh stem (some "auto")
    rw [hfresh] at hgrows
    have hself : ((s.name, id) :: st.fresh).lookup s.name = some id := by simp
    refine ⟨⟨names, (s.name, id) :: st.fresh⟩, ?_, h.add hstem hfresh, ⟨hgrows, ?_⟩,
      fun _ => ⟨id, hself⟩⟩
    · obtain ⟨ns, name⟩ := s
      obtain rfl : ns = none := hstem.1
      rw [hrun, State.resolved, hself]
    · intro name other hother
      have hne : (name == s.name) = false := by
        rw [beq_eq_false_iff_ne]
        rintro rfl
        rw [hnone] at hother
        cases hother
      rw [List.lookup_cons, hne]
      exact hother

end Table

end Shorthand

/-! Templates. -/

/-- A form with holes. A hole holds the expression that is written in it, the code that evaluates
the expression, or the value that the code came to. -/
inductive Template
  | literal (v : Value)
  | symbol (s : Symbol)
  | special (f : SpecialForm)
  | unquote (hole : Value)
  | splice (hole : Value)
  | list (parts : List Template)
  | vector (parts : List Template)

/-- Values that are written as one token and stand for themselves. -/
def Value.isLiteral : Value → Bool
  | .nil | .bool _ | .int _ | .float _ | .char _ | .string _ | .keyword _ | .pattern _ => true
  | _ => false

namespace Template

mutual

/-- The form that is written behind the template mark. -/
def written : Template → Value
  | literal v => v
  | symbol s => .symbol s
  | special f => .special f
  | unquote hole => .marked .unquote hole
  | splice hole => .marked .splice hole
  | list parts => .list (writtenAll parts)
  | vector parts => .vector (writtenAll parts)

def writtenAll : List Template → List Value
  | [] => []
  | p :: ps => p.written :: writtenAll ps

end

mutual

/-- Literals are literals, and elements are spliced in where there are others, or could be. -/
def Proper (inside : Bool) : Template → Prop
  | literal v => v.isLiteral = true
  | splice _ => inside = true
  | list parts => ProperAll parts
  | vector parts => ProperAll parts
  | _ => True

def ProperAll : List Template → Prop
  | [] => True
  | p :: ps => p.Proper true ∧ ProperAll ps

end

mutual

/-- The symbols that stand in the template itself. -/
def symbols : Template → List Symbol
  | symbol s => [s]
  | list parts => symbolsAll parts
  | vector parts => symbolsAll parts
  | _ => []

def symbolsAll : List Template → List Symbol
  | [] => []
  | p :: ps => p.symbols ++ symbolsAll ps

end

mutual

/-- What is in the holes, from left to right. -/
def holes : Template → List Value
  | unquote hole => [hole]
  | splice hole => [hole]
  | list parts => holesAll parts
  | vector parts => holesAll parts
  | _ => []

def holesAll : List Template → List Value
  | [] => []
  | p :: ps => p.holes ++ holesAll ps

end

mutual

/-- The template with other symbols and empty holes. -/
def blank (σ : Symbol → Symbol) : Template → Template
  | literal v => literal v
  | symbol s => symbol (σ s)
  | special f => special f
  | unquote _ => unquote .nil
  | splice _ => splice .nil
  | list parts => list (blankAll σ parts)
  | vector parts => vector (blankAll σ parts)

def blankAll (σ : Symbol → Symbol) : List Template → List Template
  | [] => []
  | p :: ps => p.blank σ :: blankAll σ ps

end

/-- What the template is apart from what is in its holes. -/
def shape (t : Template) : Template := t.blank id

/-- One element, or the elements of a collection. -/
def piece (form : Value) : Template → Shorthand.Piece
  | splice _ => .spliced form
  | _ => .one form

theorem form_piece (form : Value) (t : Template) : (t.piece form).form = form := by
  cases t <;> rfl

mutual

/-- The expression that the template becomes, once its holes hold code. -/
def expression : Template → Value
  | literal v => v
  | symbol s => Shorthand.quoted (.symbol s)
  | special f => Shorthand.quoted (.special f)
  | unquote code => code
  | splice code => code
  | list parts => Shorthand.listOf (elementsAll parts)
  | vector parts => Shorthand.vectorOf (elementsAll parts)

/-- The expressions for the elements of the parts. -/
def elementsAll : List Template → List Value
  | [] => []
  | p :: ps => (p.piece p.expression).elements :: elementsAll ps

end

end Template

namespace Shorthand
open Template

/-- The form can be read by itself: it has no unquoted part that no template surrounds. -/
def Lowers (form : Value) : Prop := ∀ st, ∃ code after, lower form st = .ok code after

/-- The code is what the form becomes, somewhere on the way from one store of names to another. -/
def LowersTo (before after : Names) (form code : Value) : Prop :=
  ∃ st later, lower form st = .ok code later ∧ before.Grows st.names ∧ later.names.Grows after

theorem LowersTo.weaken {before before' after after' : Names} {form code : Value}
    (h : LowersTo before after form code) (hbefore : before'.Grows before)
    (hafter : after.Grows after') : LowersTo before' after' form code := by
  obtain ⟨st, later, hrun, hst, hlater⟩ := h
  exact ⟨st, later, hrun, hbefore.trans hst, hlater.trans hafter⟩

/-- From one state to a later one, the symbols have got their fresh ones and the expressions their
code. -/
structure Expands (before : Names) (st after : State) (symbols : List Symbol)
    (forms codes : List Value) : Prop where
  table : Table before after
  grown : Grown st after
  covers : ∀ s ∈ symbols, Stemmed before s → ∃ id, after.fresh.lookup s.name = some id
  codes : List.Forall₂ (LowersTo st.names after.names) forms codes

namespace Expands
variable {before : Names} {st between after : State} {symbols symbols' : List Symbol}
  {forms forms' codes codes' : List Value}

theorem none (h : Table before st) : Expands before st st [] [] [] :=
  ⟨h, grown_steps.refl st, List.forall_mem_nil _, .nil⟩

theorem append (h : Expands before st between symbols forms codes)
    (h' : Expands before between after symbols' forms' codes') :
    Expands before st after (symbols ++ symbols') (forms ++ forms') (codes ++ codes') := by
  refine ⟨h'.table, grown_steps.trans h.grown h'.grown, fun s hs hstem => ?_, ?_⟩
  · rcases List.mem_append.1 hs with hs | hs
    · obtain ⟨id, hid⟩ := h.covers s hs hstem
      exact ⟨id, h'.grown.fresh _ _ hid⟩
    · exact h'.covers s hs hstem
  · refine List.rel_append ?_ ?_
    · exact h.codes.imp fun _ _ hc => hc.weaken (.refl _) h'.grown.names
    · exact h'.codes.imp fun _ _ hc => hc.weaken h.grown.names (.refl _)

/-- The code of a hole. -/
theorem hole {form : Value} (h : Table before st) (hform : Lowers form) :
    ∃ code after, lower form st = .ok code after ∧
      Expands before st after [] [form] [code] := by
  obtain ⟨code, after, hrun⟩ := hform st
  have hmoves := lower_moves form st code after hrun
  refine ⟨code, after, hrun, h.onlyNamesGrow hmoves, hmoves.grown, List.forall_mem_nil _, ?_⟩
  exact .cons ⟨st, after, hrun, .refl _, .refl _⟩ .nil

end Expands

mutual

theorem blank_congr {σ σ' : Symbol → Symbol} (t : Template) (h : ∀ s ∈ t.symbols, σ s = σ' s) :
    t.blank σ = t.blank σ' := by
  cases t with
  | symbol s => exact congrArg symbol (h s List.mem_cons_self)
  | list parts => exact congrArg list (blankAll_congr parts h)
  | vector parts => exact congrArg vector (blankAll_congr parts h)
  | _ => rfl

theorem blankAll_congr {σ σ' : Symbol → Symbol} (ps : List Template)
    (h : ∀ s ∈ symbolsAll ps, σ s = σ' s) : blankAll σ ps = blankAll σ' ps := by
  cases ps with
  | nil => rfl
  | cons p ps =>
    obtain ⟨hp, hps⟩ := List.forall_mem_append.1 h
    rw [blankAll, blankAll, blank_congr p hp, blankAll_congr ps hps]

end

mutual

/-- Replacing the marks of a template makes the expression of the same template with fresh symbols
and code. -/
theorem template_expands {before : Names} (t : Template) {inside : Bool} (hproper : t.Proper inside)
    (hknows : ∀ s ∈ t.symbols, before.Knows s) (hholes : ∀ form ∈ t.holes, Lowers form)
    (st : State) (h : Table before st) :
    ∃ (t' : Template) (after : State),
      template inside t.written st = .ok (t'.piece t'.expression) after ∧
      t'.Proper inside ∧ t'.shape = t.blank after.resolved ∧
      Expands before st after t.symbols t.holes t'.holes := by
  cases t with
  | literal v =>
    refine ⟨.literal v, st, ?_, hproper, rfl, .none h⟩
    cases v <;> first | rfl | cases hproper
  | symbol s =>
    obtain ⟨after, hrun, htable, hgrown, hcovers⟩ := h.resolve (hknows s List.mem_cons_self)
    refine ⟨.symbol (after.resolved s), after, run_bind_ok hrun _, trivial, rfl, ?_⟩
    refine ⟨htable, hgrown, ?_, .nil⟩
    exact List.forall_mem_cons.2 ⟨hcovers, List.forall_mem_nil _⟩
  | special f => exact ⟨.special f, st, rfl, trivial, rfl, .none h⟩
  | unquote form =>
    obtain ⟨code, after, hrun, hexpands⟩ := Expands.hole h (hholes form List.mem_cons_self)
    exact ⟨.unquote code, after, run_bind_ok hrun _, trivial, rfl, hexpands⟩
  | splice form =>
    obtain ⟨code, after, hrun, hexpands⟩ := Expands.hole h (hholes form List.mem_cons_self)
    obtain rfl : inside = true := hproper
    exact ⟨.splice code, after, run_bind_ok hrun _, rfl, rfl, hexpands⟩
  | list parts =>
    obtain ⟨parts', after, hrun, hproper', hshape, hexpands⟩ :=
      templateAll_expands parts hproper hknows hholes st h
    exact ⟨.list parts', after, run_bind_ok hrun.1 _, hproper', congrArg list hshape, hexpands⟩
  | vector parts =>
    obtain ⟨parts', after, hrun, hproper', hshape, hexpands⟩ :=
      templateAll_expands parts hproper hknows hholes st h
    exact ⟨.vector parts', after, run_bind_ok hrun.2 _, hproper', congrArg vector hshape, hexpands⟩

theorem templateAll_expands {before : Names} (ps : List Template) (hproper : ProperAll ps)
    (hknows : ∀ s ∈ symbolsAll ps, before.Knows s) (hholes : ∀ form ∈ holesAll ps, Lowers form)
    (st : State) (h : Table before st) :
    ∃ (ps' : List Template) (after : State),
      (templateSeq (Seq.ofList (writtenAll ps)) st = .ok (elementsAll ps') after ∧
        templateItems (writtenAll ps) st = .ok (elementsAll ps') after) ∧
      ProperAll ps' ∧ blankAll id ps' = blankAll after.resolved ps ∧
      Expands before st after (symbolsAll ps) (holesAll ps) (holesAll ps') := by
  cases ps with
  | nil => exact ⟨[], st, ⟨rfl, rfl⟩, trivial, rfl, .none h⟩
  | cons p ps =>
    obtain ⟨hp, hps⟩ := List.forall_mem_append.1 hknows
    obtain ⟨hp', hps'⟩ := List.forall_mem_append.1 hholes
    obtain ⟨p', between, hrun, hproper', hshape, hexpands⟩ :=
      template_expands p hproper.1 hp hp' st h
    obtain ⟨ps', after, ⟨hseq, hitems⟩, hpropers, hshapes, hmore⟩ :=
      templateAll_expands ps hproper.2 hps hps' between hexpands.table
    refine ⟨p' :: ps', after, ⟨?_, ?_⟩, ⟨hproper', hpropers⟩, ?_, hexpands.append hmore⟩
    · exact (run_bind_ok hrun _).trans (run_bind_ok hseq _)
    · exact (run_bind_ok hrun _).trans (run_bind_ok hitems _)
    · have hsame : p.blank between.resolved = p.blank after.resolved := by
        refine blank_congr p fun s hs => Eq.symm ?_
        exact hexpands.table.resolved_later hmore.table hmore.grown (hexpands.covers s hs)
      rw [blankAll, blankAll, hshapes, ← hsame, ← hshape]
      rfl

end

/-- Symbols with a stem get symbols that were not there before, each another one; other symbols
stay. -/
structure Freshens (before after : Names) (symbols : List Symbol) (σ : Symbol → Symbol) :
    Prop where
  kept : ∀ s ∈ symbols, ¬ Stemmed before s → σ s = s
  fresh : ∀ s ∈ symbols, Stemmed before s → ∃ id, σ s = .plain id ∧ before.size ≤ id ∧
    id < after.size ∧ after.text id ∉ before.texts
  distinct : ∀ s ∈ symbols, ∀ s' ∈ symbols, Stemmed before s → Stemmed before s' →
    σ s = σ s' → s = s'

theorem Table.freshens {before : Names} {st : State} {symbols : List Symbol} (h : Table before st)
    (hcovers : ∀ s ∈ symbols, Stemmed before s → ∃ id, st.fresh.lookup s.name = some id) :
    Freshens before st.names symbols st.resolved := by
  have hresolved : ∀ s ∈ symbols, Stemmed before s →
      ∃ id, st.resolved s = .plain id ∧ (s.name, id) ∈ st.fresh := by
    intro s hs hstem
    obtain ⟨id, hid⟩ := hcovers s hs hstem
    refine ⟨id, ?_, mem_of_lookup hid⟩
    obtain ⟨ns, name⟩ := s
    obtain rfl : ns = none := hstem.1
    rw [State.resolved, hid]
  refine ⟨fun s _ hnot => h.resolved_of_not_stemmed hnot, fun s hs hstem => ?_, ?_⟩
  · obtain ⟨id, hid, hmem⟩ := hresolved s hs hstem
    exact ⟨id, hid, h.new _ hmem⟩
  · intro s hs s' hs' hstem hstem' hsame
    obtain ⟨id, hid, hmem⟩ := hresolved s hs hstem
    obtain ⟨id', hid', hmem'⟩ := hresolved s' hs' hstem'
    obtain rfl : id = id' := congrArg Symbol.name (hid.symm.trans (hsame.trans hid'))
    have hsymm : Std.Symm fun p q : NameId × NameId => p.2 ≠ q.2 := ⟨fun _ _ => Ne.symm⟩
    have hname : (s.name, id) = (s'.name, id) := by
      by_contra hne
      exact h.distinct.forall hmem hmem' hne rfl
    obtain ⟨ns, name⟩ := s
    obtain ⟨ns', name'⟩ := s'
    obtain rfl : ns = none := hstem.1
    obtain rfl : ns' = none := hstem'.1
    exact congrArg Symbol.plain (congrArg Prod.fst hname)

/-- A template mark is replaced by the expression of the template, with fresh symbols and code. -/
theorem lower_template {t : Template} (hproper : t.Proper false) {st : State}
    (hknows : ∀ s ∈ t.symbols, st.names.Knows s) (hholes : ∀ form ∈ t.holes, Lowers form) :
    ∃ (t' : Template) (after : Names) (σ : Symbol → Symbol),
      lower (.marked .template t.written) st = .ok t'.expression ⟨after, st.fresh⟩ ∧
      Freshens st.names after t.symbols σ ∧ t'.Proper false ∧ t'.shape = t.blank σ ∧
      List.Forall₂ (LowersTo st.names after) t.holes t'.holes := by
  obtain ⟨t', last, hrun, hproper', hshape, hexpands⟩ :=
    template_expands t hproper hknows hholes ⟨st.names, []⟩ (.empty st.names)
  refine ⟨t', last.names, last.resolved, ?_, hexpands.table.freshens hexpands.covers, hproper',
    hshape, hexpands.codes⟩
  rw [lower, ownTemplate, bind_assoc, run_bind_ok (run_get st), bind_assoc,
    run_bind_ok (run_modify _ st), bind_assoc, run_bind_ok hrun, bind_assoc,
    run_bind_ok (run_modify _ last)]
  exact congrArg (EStateM.Result.ok · _) (form_piece t'.expression t')

mutual

theorem expression_plain (t : Template) {inside : Bool} (hproper : t.Proper inside)
    (hholes : ∀ code ∈ t.holes, code.Plain) : t.expression.Plain := by
  cases t with
  | literal v =>
    refine .atom ?_
    cases v <;> first | rfl | cases hproper
  | symbol s => exact plain_quoted (.atom rfl)
  | special f => exact plain_quoted (.atom rfl)
  | unquote code => exact hholes code List.mem_cons_self
  | splice code => exact hholes code List.mem_cons_self
  | list parts => exact plain_listOf (elementsAll_plain parts hproper hholes)
  | vector parts => exact plain_vectorOf (elementsAll_plain parts hproper hholes)

theorem elementsAll_plain (ps : List Template) (hproper : ProperAll ps)
    (hholes : ∀ code ∈ holesAll ps, code.Plain) : AllPlain (elementsAll ps) := by
  cases ps with
  | nil => exact .nil
  | cons p ps =>
    obtain ⟨hp, hps⟩ := List.forall_mem_append.1 hholes
    refine .cons (plain_elements _ ?_) (elementsAll_plain ps hproper.2 hps)
    rw [form_piece]
    exact expression_plain p hproper.1 hp

end

end Shorthand
end LazyLisp
