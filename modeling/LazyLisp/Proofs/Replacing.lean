import LazyLisp.Proofs.Expansion

/-!
Replacing the marks of a form goes wrong at an unquoted part only. Forms that are made without such
parts are always replaced, inside of a template as well as outside.
-/

namespace LazyLisp.Shorthand
set_option autoImplicit false

/-- Comes to a result from every state. -/
def Succeeds {α : Type} (m : Lower α) : Prop := ∀ st, ∃ a after, m st = .ok a after

namespace Succeeds
variable {α β : Type}

theorem pure (a : α) : Succeeds (pure a) := fun st => ⟨a, st, rfl⟩

theorem bind {m : Lower α} {f : α → Lower β} (hm : Succeeds m) (hf : ∀ a, Succeeds (f a)) :
    Succeeds (m >>= f) := by
  intro st
  obtain ⟨a, between, hrun⟩ := hm st
  rw [run_bind_ok hrun]
  exact hf a between

theorem ownTemplate {m : Lower α} (h : Succeeds m) : Succeeds (ownTemplate m) := by
  intro st
  obtain ⟨a, after, hrun⟩ := h { st with fresh := [] }
  refine ⟨a, { after with fresh := st.fresh }, ?_⟩
  simp only [Shorthand.ownTemplate, run_bind, run_get, run_modify, hrun, run_pure]

end Succeeds

theorem resolve_succeeds (s : Symbol) : Succeeds (resolve s) := by
  intro st
  rcases resolve_cases s st with ⟨hrun, -⟩ | ⟨-, id, -, hrun⟩ | ⟨-, -, stem, id, names, -, hrun⟩
  all_goals exact ⟨_, _, hrun⟩

mutual

theorem plainTemplate_succeeds (v : Value) : Succeeds (plainTemplate v) := by
  cases v with
  | symbol s => exact (resolve_succeeds s).bind fun _ => .pure _
  | seq s => exact (plainSeq_succeeds s).bind fun _ => .pure _
  | vector items => exact (plainItems_succeeds items).bind fun _ => .pure _
  | map entries => exact (plainEntries_succeeds entries).bind fun _ => .pure _
  | _ => exact .pure _

theorem plainSeq_succeeds (s : Seq) : Succeeds (plainSeq s) := by
  cases s with
  | cons head tail =>
    exact (plainTemplate_succeeds head).bind fun _ => (plainSeq_succeeds tail).bind fun _ => .pure _
  | _ => exact .pure _

theorem plainItems_succeeds (items : List Value) : Succeeds (plainItems items) := by
  cases items with
  | nil => exact .pure _
  | cons v vs =>
    exact (plainTemplate_succeeds v).bind fun _ => (plainItems_succeeds vs).bind fun _ => .pure _

theorem plainEntries_succeeds (entries : List (Value × Value)) :
    Succeeds (plainEntries entries) := by
  cases entries with
  | nil => exact .pure _
  | cons e rest =>
    refine (plainTemplate_succeeds e.1).bind fun _ => (plainTemplate_succeeds e.2).bind fun _ => ?_
    exact (plainEntries_succeeds rest).bind fun _ => .pure _

end

/-- The marks of the form are replaced without fail. -/
structure Replaceable (form : Value) : Prop where
  lowers : Succeeds (lower form)
  templates : ∀ inside, Succeeds (template inside form)

namespace Replaceable
variable {items : List Value}

theorem atom {v : Value} (h : v.isAtom = true) : Replaceable v := by
  cases v with
  | vector | seq | map | marked => cases h
  | symbol s => exact ⟨.pure _, fun _ => (resolve_succeeds s).bind fun _ => .pure _⟩
  | _ => exact ⟨.pure _, fun _ => .pure _⟩

theorem marked {m : Mark} (hunquote : m ≠ .unquote) (hsplice : m ≠ .splice) {form : Value}
    (h : Replaceable form) : Replaceable (.marked m form) := by
  cases m with
  | unquote => exact absurd rfl hunquote
  | splice => exact absurd rfl hsplice
  | quote | varQuote | deref =>
    exact ⟨h.lowers.bind fun _ => .pure _, fun _ => (h.templates true).bind fun _ => .pure _⟩
  | template =>
    have hinner := (h.templates false).ownTemplate
    refine ⟨hinner.bind fun _ => .pure _, fun _ => hinner.bind fun inner => ?_⟩
    exact (plainTemplate_succeeds inner.form).bind fun _ => .pure _

theorem list (h : ∀ v ∈ items, Replaceable v) : Replaceable (.list items) := by
  have hboth : Succeeds (lowerSeq (Seq.ofList items)) ∧
      Succeeds (templateSeq (Seq.ofList items)) := by
    induction items with
    | nil => exact ⟨.pure _, .pure _⟩
    | cons v vs ih =>
      obtain ⟨hv, hvs⟩ := List.forall_mem_cons.1 h
      obtain ⟨hlower, htemplate⟩ := ih hvs
      exact ⟨hv.lowers.bind fun _ => hlower.bind fun _ => .pure _,
        (hv.templates true).bind fun _ => htemplate.bind fun _ => .pure _⟩
  exact ⟨hboth.1.bind fun _ => .pure _, fun _ => hboth.2.bind fun _ => .pure _⟩

theorem vector (h : ∀ v ∈ items, Replaceable v) : Replaceable (.vector items) := by
  have hboth : Succeeds (lowerItems items) ∧ Succeeds (templateItems items) := by
    induction items with
    | nil => exact ⟨.pure _, .pure _⟩
    | cons v vs ih =>
      obtain ⟨hv, hvs⟩ := List.forall_mem_cons.1 h
      obtain ⟨hlower, htemplate⟩ := ih hvs
      exact ⟨hv.lowers.bind fun _ => hlower.bind fun _ => .pure _,
        (hv.templates true).bind fun _ => htemplate.bind fun _ => .pure _⟩
  exact ⟨hboth.1.bind fun _ => .pure _, fun _ => hboth.2.bind fun _ => .pure _⟩

theorem map {entries : List (Value × Value)}
    (h : ∀ e ∈ entries, Replaceable e.1 ∧ Replaceable e.2) : Replaceable (.map entries) := by
  have hboth : Succeeds (lowerEntries entries) ∧ Succeeds (templateEntries entries) := by
    induction entries with
    | nil => exact ⟨.pure _, .pure _⟩
    | cons e rest ih =>
      obtain ⟨⟨hkey, hvalue⟩, hrest⟩ := List.forall_mem_cons.1 h
      obtain ⟨hlower, htemplate⟩ := ih hrest
      constructor
      · exact hkey.lowers.bind fun _ => hvalue.lowers.bind fun _ => hlower.bind fun _ => .pure _
      · refine (hkey.templates true).bind fun _ => (hvalue.templates true).bind fun _ => ?_
        exact htemplate.bind fun _ => .pure _
  exact ⟨hboth.1.bind fun _ => .pure _, fun _ => hboth.2.bind fun _ => .pure _⟩

end Replaceable

end LazyLisp.Shorthand

namespace LazyLisp
open Shorthand

theorem mem_entriesOf_go {items : List Value} {entries : List (Value × Value)} {e : Value × Value}
    (h : e ∈ Value.entriesOf.go items entries) : e ∈ entries ∨ (e.1 ∈ items ∧ e.2 ∈ items) := by
  fun_induction Value.entriesOf.go items entries with
  | case1 key value rest entries ih =>
    rcases ih h with he | he
    · rcases Reading.mem_putForm he with he | rfl
      · exact .inl he
      · exact .inr (by simp)
    · exact .inr (by simp [he])
  | case2 => exact .inl h

/-- The entries of a map come from the items that it is written with. -/
theorem mem_entriesOf {items : List Value} {e : Value × Value} (h : e ∈ Value.entriesOf items) :
    e.1 ∈ items ∧ e.2 ∈ items :=
  (mem_entriesOf_go h).resolve_left List.not_mem_nil

namespace Reading

theorem atom_replaceable (kind : TokenKind) (span : Span) : Gives (atom kind span) Replaceable :=
  fun names v after h => .atom (atom_isAtom kind span names v after h)

theorem collection_replaceable {d : Delimiter} {span : Span} {items : List Value}
    (h : ∀ v ∈ items, Replaceable v) : Gives (collection d span items) Replaceable := by
  cases d with
  | paren => exact .pure (.list h)
  | bracket => exact .pure (.vector h)
  | brace =>
    unfold collection
    dsimp only
    split
    · exact .pure (.map fun e he => ⟨h e.1 (mem_entriesOf he).1, h e.2 (mem_entriesOf he).2⟩)
    · exact .throw

end Reading
end LazyLisp
