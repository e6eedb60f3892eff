import LazyLisp.Proofs.Spelling

/-!
The leaves of a form: what is left of it when collections and marks are taken apart. A form is
spelled when each of its symbols and keywords has a text that reads as itself.
-/

namespace LazyLisp
set_option autoImplicit false

mutual

/-- The parts of a form that are no collections and carry no mark. -/
def Value.leaves : Value → List Value
  | .vector items => Value.leavesAll items
  | .map entries => Value.leavesOfEntries entries
  | .seq s => s.leaves
  | .marked _ form => form.leaves
  | v => [v]

def Seq.leaves : Seq → List Value
  | .cons head tail => head.leaves ++ tail.leaves
  | _ => []

def Value.leavesAll : List Value → List Value
  | [] => []
  | v :: vs => v.leaves ++ Value.leavesAll vs

def Value.leavesOfEntries : List (Value × Value) → List Value
  | [] => []
  | (k, v) :: rest => k.leaves ++ v.leaves ++ Value.leavesOfEntries rest

end

namespace Reading

/-- A symbol or keyword whose text reads as itself; every other leaf needs no name. -/
def Legible (names : Names) : Value → Prop
  | .symbol s => ∃ text c cs, Token.Word text c cs ∧ SpecialForm.ofName? text = none ∧
      Denotes names text s
  | .keyword s => ∃ text, Token.KeyText text ∧ Denotes names text s
  | _ => True

def Spelled (names : Names) (form : Value) : Prop := ∀ leaf ∈ form.leaves, Legible names leaf

variable {names later : Names}

theorem Legible.grows {leaf : Value} (h : Legible names leaf) (hgrows : names.Grows later) :
    Legible later leaf := by
  cases leaf with
  | symbol s =>
    obtain ⟨text, c, cs, hword, hname, hs⟩ := h
    exact ⟨text, c, cs, hword, hname, hs.grows hgrows⟩
  | keyword s =>
    obtain ⟨text, htext, hs⟩ := h
    exact ⟨text, htext, hs.grows hgrows⟩
  | _ => trivial

theorem Spelled.grows {form : Value} (h : Spelled names form) (hgrows : names.Grows later) :
    Spelled later form :=
  fun leaf hleaf => (h leaf hleaf).grows hgrows

def SpelledAll (names : Names) (forms : List Value) : Prop := ∀ v ∈ forms, Spelled names v

theorem SpelledAll.nil : SpelledAll names [] := by simp [SpelledAll]

theorem spelledAll_cons {v : Value} {vs : List Value} :
    SpelledAll names (v :: vs) ↔ Spelled names v ∧ SpelledAll names vs :=
  List.forall_mem_cons

theorem SpelledAll.cons {v : Value} {vs : List Value} (hv : Spelled names v)
    (hvs : SpelledAll names vs) : SpelledAll names (v :: vs) :=
  spelledAll_cons.2 ⟨hv, hvs⟩

theorem SpelledAll.grows {forms : List Value} (h : SpelledAll names forms)
    (hgrows : names.Grows later) : SpelledAll later forms :=
  fun v hv => (h v hv).grows hgrows

theorem spelled_vector {items : List Value} :
    Spelled names (.vector items) ↔ SpelledAll names items := by
  induction items with
  | nil => exact ⟨fun _ => .nil, fun _ => List.forall_mem_nil _⟩
  | cons v vs ih =>
    exact (List.forall_mem_append.trans (and_congr_right fun _ => ih)).trans spelledAll_cons.symm

def SpelledEntries (names : Names) (entries : List (Value × Value)) : Prop :=
  ∀ e ∈ entries, Spelled names e.1 ∧ Spelled names e.2

theorem SpelledEntries.grows {entries : List (Value × Value)} (h : SpelledEntries names entries)
    (hgrows : names.Grows later) : SpelledEntries later entries :=
  fun e he => ⟨(h e he).1.grows hgrows, (h e he).2.grows hgrows⟩

theorem spelled_map {entries : List (Value × Value)} :
    Spelled names (.map entries) ↔ SpelledEntries names entries := by
  induction entries with
  | nil => exact ⟨fun _ => List.forall_mem_nil _, fun _ => List.forall_mem_nil _⟩
  | cons e rest ih =>
    have hcons : SpelledEntries names (e :: rest) ↔
        (Spelled names e.1 ∧ Spelled names e.2) ∧ SpelledEntries names rest :=
      List.forall_mem_cons
    exact (List.forall_mem_append.trans (and_congr List.forall_mem_append ih)).trans hcons.symm

theorem spelled_cons {head : Value} {tail : Seq} :
    Spelled names (.seq (.cons head tail)) ↔ Spelled names head ∧ Spelled names (.seq tail) :=
  List.forall_mem_append

theorem spelled_empty : Spelled names (.seq .empty) := List.forall_mem_nil _

theorem spelled_list {items : List Value} :
    Spelled names (.list items) ↔ SpelledAll names items := by
  induction items with
  | nil => exact ⟨fun _ => .nil, fun _ => spelled_empty⟩
  | cons v vs ih =>
    have hcons : Value.list (v :: vs) = .seq (.cons v (Seq.ofList vs)) := rfl
    rw [hcons, spelled_cons, spelledAll_cons]
    exact and_congr_right fun _ => ih

theorem spelled_marked {m : Mark} {form : Value} :
    Spelled names (.marked m form) ↔ Spelled names form :=
  Iff.rfl

theorem spelled_special (f : SpecialForm) : Spelled names (.special f) :=
  List.forall_mem_singleton.2 trivial

theorem spelled_builtin (b : Builtin) : Spelled names (.builtin b) :=
  List.forall_mem_singleton.2 trivial

theorem spelled_symbol {s : Symbol} : Spelled names (.symbol s) ↔ Legible names (.symbol s) :=
  List.forall_mem_singleton

theorem mem_putForm {entries : List (Value × Value)} {key value : Value} {e : Value × Value}
    (h : e ∈ Value.putForm entries key value) : e ∈ entries ∨ e = (key, value) := by
  induction entries with
  | nil => simpa [Value.putForm] using h
  | cons f rest ih =>
    rw [Value.putForm] at h
    split at h
    · rcases List.mem_cons.1 h with rfl | h
      · exact .inr rfl
      · exact .inl (List.mem_cons_of_mem f h)
    · rcases List.mem_cons.1 h with rfl | h
      · exact .inl List.mem_cons_self
      · exact (ih h).imp (List.mem_cons_of_mem f) id

theorem spelled_putForm {entries : List (Value × Value)} {key value : Value}
    (h : Spelled names (.map entries)) (hkey : Spelled names key) (hvalue : Spelled names value) :
    Spelled names (.map (Value.putForm entries key value)) := by
  rw [spelled_map] at h ⊢
  intro e he
  rcases mem_putForm he with he | rfl
  · exact h e he
  · exact ⟨hkey, hvalue⟩

theorem spelled_entriesOf {items : List Value} (h : SpelledAll names items) :
    Spelled names (.map (Value.entriesOf items)) := by
  have hgo : ∀ entries, Spelled names (.map entries) →
      Spelled names (.map (Value.entriesOf.go items entries)) := by
    intro entries hentries
    fun_induction Value.entriesOf.go items entries with
    | case1 key value rest entries ih =>
      have hkey := h key (by simp)
      have hvalue := h value (by simp)
      exact ih (fun v hv => h v (by simp [hv])) (spelled_putForm hentries hkey hvalue)
    | case2 => exact hentries
  exact hgo [] (by simp [spelled_map, SpelledEntries])

theorem spelled_foldl_putForm {entries : List (Value × Value)} (h : SpelledEntries names entries) :
    Spelled names (.map (entries.foldl (fun acc e => Value.putForm acc e.1 e.2) [])) := by
  have hfold : ∀ acc, Spelled names (.map acc) →
      Spelled names (.map (entries.foldl (fun acc e => Value.putForm acc e.1 e.2) acc)) := by
    induction entries with
    | nil => exact fun acc hacc => hacc
    | cons e rest ih =>
      obtain ⟨he, hrest⟩ := List.forall_mem_cons.1 h
      intro acc hacc
      exact ih hrest _ (spelled_putForm hacc he.1 he.2)
  exact hfold [] (by simp [spelled_map, SpelledEntries])

end Reading

end LazyLisp
