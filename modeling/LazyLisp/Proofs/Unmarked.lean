import LazyLisp.Proofs.BareForms
import LazyLisp.Proofs.Ownership

/-!
Values without marks, and states that hold no others: in frames, behind lazy cells, in the bodies of
closures and as values of vars.
-/

namespace LazyLisp
set_option autoImplicit false

mutual

/-- No part of the value is a marked form. -/
def Value.Unmarked : Value → Prop
  | .vector items => Value.UnmarkedAll items
  | .map entries => Value.UnmarkedEntries entries
  | .seq s => s.Unmarked
  | .marked _ _ => False
  | _ => True

def Seq.Unmarked : Seq → Prop
  | .cons head tail => head.Unmarked ∧ tail.Unmarked
  | .vectorView items _ => Value.UnmarkedAll items
  | .entryView entries _ => Value.UnmarkedEntries entries
  | .concat current parts => current.Unmarked ∧ Seq.UnmarkedAll parts
  | _ => True

def Value.UnmarkedAll : List Value → Prop
  | [] => True
  | v :: vs => v.Unmarked ∧ Value.UnmarkedAll vs

def Value.UnmarkedEntries : List (Value × Value) → Prop
  | [] => True
  | (k, v) :: rest => (k.Unmarked ∧ v.Unmarked) ∧ Value.UnmarkedEntries rest

def Seq.UnmarkedAll : List Seq → Prop
  | [] => True
  | s :: ss => s.Unmarked ∧ Seq.UnmarkedAll ss

end

def AllUnmarked (vs : List Value) : Prop := ∀ v ∈ vs, v.Unmarked

def Entries.Unmarked (entries : Entries) : Prop := ∀ e ∈ entries, e.1.Unmarked ∧ e.2.Unmarked

theorem Entries.Unmarked.nil : Entries.Unmarked [] := List.forall_mem_nil _

theorem unmarkedAll_iff {vs : List Value} : Value.UnmarkedAll vs ↔ AllUnmarked vs := by
  induction vs with
  | nil => exact ⟨fun _ => List.forall_mem_nil _, fun _ => trivial⟩
  | cons v vs ih =>
    have hcons : AllUnmarked (v :: vs) ↔ v.Unmarked ∧ AllUnmarked vs := List.forall_mem_cons
    exact (and_congr_right fun _ => ih).trans hcons.symm

theorem unmarkedEntries_iff {entries : Entries} :
    Value.UnmarkedEntries entries ↔ entries.Unmarked := by
  induction entries with
  | nil => exact ⟨fun _ => List.forall_mem_nil _, fun _ => trivial⟩
  | cons e rest ih =>
    have hcons : Entries.Unmarked (e :: rest) ↔
        (e.1.Unmarked ∧ e.2.Unmarked) ∧ Entries.Unmarked rest := List.forall_mem_cons
    exact (and_congr_right fun _ => ih).trans hcons.symm

namespace Value

@[simp] theorem unmarked_vector {items : List Value} :
    (Value.vector items).Unmarked ↔ AllUnmarked items :=
  unmarkedAll_iff

@[simp] theorem unmarked_map {entries : Entries} :
    (Value.map entries).Unmarked ↔ entries.Unmarked :=
  unmarkedEntries_iff

@[simp] theorem unmarked_seq {s : Seq} : (Value.seq s).Unmarked ↔ s.Unmarked := Iff.rfl

@[simp] theorem not_unmarked_marked {m : Mark} {form : Value} : ¬ (Value.marked m form).Unmarked :=
  not_false

end Value

namespace Seq

@[simp] theorem unmarked_cons {head : Value} {tail : Seq} :
    (Seq.cons head tail).Unmarked ↔ head.Unmarked ∧ tail.Unmarked :=
  Iff.rfl

@[simp] theorem unmarked_vectorView {items : List Value} {i : Nat} :
    (Seq.vectorView items i).Unmarked ↔ AllUnmarked items :=
  unmarkedAll_iff

@[simp] theorem unmarked_entryView {entries : Entries} {i : Nat} :
    (Seq.entryView entries i).Unmarked ↔ entries.Unmarked :=
  unmarkedEntries_iff

@[simp] theorem unmarked_concat {current : Seq} {parts : List Seq} :
    (Seq.concat current parts).Unmarked ↔ current.Unmarked ∧ ∀ s ∈ parts, s.Unmarked := by
  have hparts : UnmarkedAll parts ↔ ∀ s ∈ parts, s.Unmarked := by
    induction parts with
    | nil => exact ⟨fun _ => List.forall_mem_nil _, fun _ => trivial⟩
    | cons s ss ih => exact (and_congr_right fun _ => ih).trans List.forall_mem_cons.symm
  exact and_congr_right fun _ => hparts

@[simp] theorem unmarked_ofList {vs : List Value} : (Seq.ofList vs).Unmarked ↔ AllUnmarked vs := by
  induction vs with
  | nil => exact ⟨fun _ => List.forall_mem_nil _, fun _ => trivial⟩
  | cons v vs ih =>
    have hcons : Seq.ofList (v :: vs) = .cons v (Seq.ofList vs) := rfl
    have hall : AllUnmarked (v :: vs) ↔ v.Unmarked ∧ AllUnmarked vs := List.forall_mem_cons
    rw [hcons, unmarked_cons, ih, hall]

end Seq

namespace Value

@[simp] theorem unmarked_list {items : List Value} :
    (Value.list items).Unmarked ↔ AllUnmarked items :=
  unmarked_seq.trans Seq.unmarked_ofList

theorem Bare.unmarked {v : Value} (h : v.Bare) : v.Unmarked := by
  induction h with
  | @atom v h =>
    cases v with
    | vector | seq | map | marked => cases h
    | _ => trivial
  | list _ ih => exact unmarked_list.2 ih
  | vector _ ih => exact unmarked_vector.2 ih
  | map _ _ _ ihkeys ihvalues => exact unmarked_map.2 fun e he => ⟨ihkeys e he, ihvalues e he⟩

theorem toSeq?_unmarked {v : Value} {s : Seq} (h : v.Unmarked) (hs : v.toSeq? = some s) :
    s.Unmarked := by
  cases v with
  | nil | string => cases hs; trivial
  | seq t => cases hs; exact h
  | vector items => cases hs; exact Seq.unmarked_vectorView.2 (unmarked_vector.1 h)
  | map entries => cases hs; exact Seq.unmarked_entryView.2 (unmarked_map.1 h)
  | _ => cases hs

end Value

theorem unmarked_getD {o : Option Value} {d : Value} (h : ∀ v ∈ o, v.Unmarked) (hd : d.Unmarked) :
    (o.getD d).Unmarked := by
  cases o with
  | none => exact hd
  | some v => exact h v rfl

namespace AllUnmarked
variable {vs ws : List Value} {v : Value}

theorem nil : AllUnmarked [] := List.forall_mem_nil _

theorem cons (hv : v.Unmarked) (hvs : AllUnmarked vs) : AllUnmarked (v :: vs) :=
  List.forall_mem_cons.2 ⟨hv, hvs⟩

theorem one (hv : v.Unmarked) : AllUnmarked [v] := .cons hv .nil

theorem head (h : AllUnmarked (v :: vs)) : v.Unmarked := h v List.mem_cons_self

theorem tail (h : AllUnmarked (v :: vs)) : AllUnmarked vs := (List.forall_mem_cons.1 h).2

theorem append (hvs : AllUnmarked vs) (hws : AllUnmarked ws) : AllUnmarked (vs ++ ws) :=
  List.forall_mem_append.2 ⟨hvs, hws⟩

theorem getElem? (h : AllUnmarked vs) {i : Nat} (hv : vs[i]? = some v) : v.Unmarked :=
  h v (List.mem_of_getElem? hv)

theorem head? (h : AllUnmarked vs) (hv : vs.head? = some v) : v.Unmarked :=
  h v (List.mem_of_head? hv)

theorem getLastD (h : AllUnmarked vs) : (vs.getLast?.getD .nil).Unmarked :=
  unmarked_getD (fun v hv => h v (List.mem_of_getLast? hv)) trivial

theorem of_subset (h : AllUnmarked vs) (hsubset : ws ⊆ vs) : AllUnmarked ws :=
  fun v hv => h v (hsubset hv)

theorem push {values : Array Value} (h : AllUnmarked values.toList) (hv : v.Unmarked) :
    AllUnmarked (values.push v).toList := by
  rw [Array.toList_push]
  exact h.append (.one hv)

theorem rest (h : AllUnmarked vs) : AllUnmarked vs.tail :=
  h.of_subset fun _ => List.mem_of_mem_tail

end AllUnmarked

/-! States. -/

/-- Symbols with values that have no marks. -/
def BindingsUnmarked (bindings : List (Symbol × Value)) : Prop := ∀ b ∈ bindings, b.2.Unmarked

def Cell.Unmarked : Cell → Prop
  | pending thunk => thunk.Unmarked
  | realized s => s.Unmarked
  | realizing => True
  | failed _ => True

def Clause.Unmarked (c : Clause) : Prop := AllUnmarked c.body

def Closure.Unmarked (c : Closure) : Prop :=
  (∀ clause ∈ c.fixed, clause.Unmarked) ∧ ∀ clause ∈ c.variadic, clause.Unmarked

def Var.Unmarked (v : Var) : Prop := ∀ value ∈ v.value, value.Unmarked

def Namespaces.Unmarked (s : Namespaces) : Prop := ∀ v ∈ s.vars, v.Unmarked

/-- No value that the state holds has a mark. -/
structure World.Unmarked (w : World) : Prop where
  frames : ∀ f ∈ w.frames, BindingsUnmarked f.bindings
  cells : ∀ c ∈ w.cells, c.Unmarked
  closures : ∀ c ∈ w.closures, c.Unmarked
  spaces : w.spaces.Unmarked

theorem mem_modify {α : Type} {xs : Array α} {i : Nat} {f : α → α} {y : α} (h : y ∈ xs.modify i f) :
    y ∈ xs ∨ ∃ x ∈ xs, y = f x := by
  obtain ⟨j, hj, rfl⟩ := Array.mem_iff_getElem.1 h
  rw [Array.size_modify] at hj
  rw [Array.getElem_modify]
  split
  · exact .inr ⟨xs[j], Array.getElem_mem hj, rfl⟩
  · exact .inl (Array.getElem_mem hj)

/-! Bindings of frames and calls, and closures. -/

theorem rebindAll_unmarked {bindings : List (Symbol × Value)} {values : List Value}
    (hbindings : BindingsUnmarked bindings) (hvalues : AllUnmarked values) :
    BindingsUnmarked (Frame.rebindAll bindings values) := by
  induction bindings generalizing values with
  | nil => exact hbindings
  | cons b bs ih =>
    cases values with
    | nil => exact hbindings
    | cons v vs =>
      obtain ⟨_, hbs⟩ := List.forall_mem_cons.1 hbindings
      exact List.forall_mem_cons.2 ⟨hvalues.head, ih hbs hvalues.tail⟩

theorem bindings_unmarked (c : Clause) {args : List Value} (hargs : AllUnmarked args) :
    BindingsUnmarked (c.bindings args) := by
  have hfixed : BindingsUnmarked (c.params.zip args) :=
    fun b hb => hargs b.2 (List.of_mem_zip hb).2
  unfold Clause.bindings
  dsimp only
  split
  · exact hfixed
  · refine List.forall_mem_append.2 ⟨hfixed, List.forall_mem_singleton.2 ?_⟩
    dsimp only
    split
    · trivial
    · exact Value.unmarked_list.2 (hargs.of_subset (List.drop_subset _ _))

namespace Closure

theorem sortClauses_unmarked {label : String} {fixed clauses : List Clause}
    {variadic : Option Clause} {sorted : List Clause × Option Clause}
    (h : sortClauses label fixed variadic clauses = .ok sorted)
    (hfixed : ∀ c ∈ fixed, c.Unmarked) (hvariadic : ∀ c ∈ variadic, c.Unmarked)
    (hclauses : ∀ c ∈ clauses, c.Unmarked) :
    (∀ c ∈ sorted.1, c.Unmarked) ∧ ∀ c ∈ sorted.2, c.Unmarked := by
  induction clauses generalizing fixed variadic with
  | nil => cases h; exact ⟨hfixed, hvariadic⟩
  | cons c rest ih =>
    obtain ⟨hc, hrest⟩ := List.forall_mem_cons.1 hclauses
    rw [sortClauses] at h
    split at h
    · split at h
      · cases h
      · refine ih h hfixed ?_ hrest
        rintro _ ⟨⟩
        exact hc
    · split at h
      · cases h
      · have hmore := List.forall_mem_append.2 ⟨hfixed, List.forall_mem_singleton.2 hc⟩
        exact ih h hmore hvariadic hrest

theorem make_unmarked {name : Option Symbol} {clauses : List Clause} {scope : Scope}
    {label : String} {c : Closure} (h : make name clauses scope label = .ok c)
    (hclauses : ∀ c ∈ clauses, c.Unmarked) : c.Unmarked := by
  unfold make at h
  split at h
  · cases h
  · rename_i hsort
    have hsorted := sortClauses_unmarked hsort (List.forall_mem_nil _) nofun hclauses
    split at h
    · split at h
      · cases h
      · cases h
        exact hsorted
    · cases h
      exact hsorted

theorem select?_unmarked {c : Closure} (hc : c.Unmarked) {count : Nat} {clause : Clause}
    (h : c.select? count = some clause) : clause.Unmarked := by
  rcases Option.or_eq_some_iff.1 h with hfixed | ⟨_, hvariadic⟩
  · exact hc.1 clause (List.mem_of_find?_eq_some hfixed)
  · exact hc.2 clause (Option.filter_eq_some_iff.1 hvariadic).1

end Closure

namespace World.Unmarked
variable {w : World}

theorem blank (log : LogDomains) : (World.blank log).Unmarked where
  frames := nofun
  cells := nofun
  closures := nofun
  spaces := by
    have hvars : (World.blank log).spaces.vars = #[] := rfl
    rw [Namespaces.Unmarked, hvars]
    exact fun v hv => absurd hv (Array.not_mem_empty v)

theorem pushFrame (h : w.Unmarked) (parent : Scope) :
    World.Unmarked { w with frames := w.frames.push { parent := parent } } where
  frames := by
    intro f hf
    rcases Array.mem_push.1 hf with hf | rfl
    · exact h.frames f hf
    · exact List.forall_mem_nil _
  cells := h.cells
  closures := h.closures
  spaces := h.spaces

theorem modifyFrame (h : w.Unmarked) (id : FrameId) {f : Frame → Frame}
    (hf : ∀ g, BindingsUnmarked g.bindings → BindingsUnmarked (f g).bindings) :
    World.Unmarked { w with frames := w.frames.modify id f } where
  frames := by
    intro g hg
    rcases mem_modify hg with hold | ⟨old, hold, rfl⟩
    · exact h.frames g hold
    · exact hf old (h.frames old hold)
  cells := h.cells
  closures := h.closures
  spaces := h.spaces

theorem setCell (h : w.Unmarked) (id : CellId) {c : Cell} (hc : c.Unmarked) :
    (w.setCell id c).Unmarked where
  frames := h.frames
  cells := by
    intro d hd
    rcases Array.mem_or_eq_of_mem_setIfInBounds hd with hd | rfl
    · exact h.cells d hd
    · exact hc
  closures := h.closures
  spaces := h.spaces

theorem pushCell (h : w.Unmarked) {c : Cell} (hc : c.Unmarked) :
    World.Unmarked { w with cells := w.cells.push c } where
  frames := h.frames
  cells := by
    intro d hd
    rcases Array.mem_push.1 hd with hd | rfl
    · exact h.cells d hd
    · exact hc
  closures := h.closures
  spaces := h.spaces

theorem pushClosure (h : w.Unmarked) {c : Closure} (hc : c.Unmarked) :
    World.Unmarked { w with closures := w.closures.push c } where
  frames := h.frames
  cells := h.cells
  closures := by
    intro d hd
    rcases Array.mem_push.1 hd with hd | rfl
    · exact h.closures d hd
    · exact hc
  spaces := h.spaces

theorem withSpaces (h : w.Unmarked) {spaces : Namespaces} (hspaces : spaces.Unmarked) :
    World.Unmarked { w with spaces := spaces } :=
  ⟨h.frames, h.cells, h.closures, hspaces⟩

theorem varValue (h : w.Unmarked) {id : VarId} {v : Value}
    (hv : (w.spaces.var? id).bind (·.value) = some v) : v.Unmarked := by
  obtain ⟨var, hvar, hvalue⟩ := Option.bind_eq_some_iff.1 hv
  exact h.spaces var (Array.mem_of_getElem? hvar) v hvalue

theorem global? (h : w.Unmarked) {s : Symbol} {v : Value} (hv : w.global? s = some v) :
    v.Unmarked := by
  obtain ⟨id, _, rfl⟩ := Option.map_eq_some_iff.1 hv
  exact unmarked_getD (fun _ => h.varValue) trivial

theorem lookupFrames (h : w.Unmarked) {s : Symbol} {fuel : Nat} {scope : Scope} {v : Value}
    (hv : World.lookupFrames w.frames s fuel scope = some v) : v.Unmarked := by
  induction fuel generalizing scope with
  | zero => cases scope <;> cases hv
  | succ fuel ih =>
    cases scope with
    | none => cases hv
    | some id =>
      rw [World.lookupFrames] at hv
      cases hf : w.frames[id]? with
      | none => simp [hf] at hv
      | some f =>
        simp only [hf] at hv
        cases hlookup : f.lookup? s with
        | none => simp only [hlookup] at hv; exact ih hv
        | some u =>
          simp only [hlookup] at hv
          cases hv
          obtain ⟨b, hb, rfl⟩ := Option.map_eq_some_iff.1 hlookup
          have hmem : b ∈ f.bindings := List.mem_reverse.1 (List.mem_of_find?_eq_some hb)
          exact h.frames f (Array.mem_of_getElem? hf) b hmem

theorem resolve? (h : w.Unmarked) {scope : Scope} {s : Symbol} {v : Value}
    (hv : w.resolve? scope s = some v) : v.Unmarked := by
  rw [World.resolve?] at hv
  split at hv
  · exact h.global? hv
  · split at hv
    · rename_i u hu
      cases hv
      exact h.lookupFrames hu
    · split at hv
      · cases hv
        trivial
      · exact h.global? hv

end World.Unmarked

namespace Namespaces
variable {s t : Namespaces}

/-- A new var has no value, so only setting one can bring in a mark. -/
theorem Performs.unmarked {op : Operation} (h : Performs s op t) (hs : s.Unmarked)
    (hop : ∀ id value, op = .set id value → value.Unmarked) : t.Unmarked := by
  cases h with
  | failed | remove => exact hs
  | create ns =>
    rw [Unmarked, vars_create]
    exact hs
  | intern h =>
    obtain ⟨n, -, ⟨-, rfl⟩ | ⟨-, -, rfl⟩⟩ := intern?_cases h
    · exact hs
    · intro v hv
      rcases Array.mem_push.1 hv with hv | rfl
      · exact hs v hv
      · nofun
  | set id value =>
    intro v hv
    have hmem : v ∈ s.vars.modify id fun x => { x with value := some value } := hv
    rcases mem_modify hmem with hold | ⟨old, _, rfl⟩
    · exact hs v hold
    · rintro u ⟨⟩
      exact hop id value rfl
  | unmap h =>
    obtain ⟨n, -, rfl⟩ := unmap?_cases h
    exact hs
  | refer h =>
    obtain ⟨giver, taker, refers, -, -, -, rfl⟩ := refer_eq_ok h
    exact hs

theorem Unmarked.setVar (h : s.Unmarked) (id : VarId) {value : Value} (hvalue : value.Unmarked) :
    (s.setVar id value).Unmarked := by
  refine (Performs.set id value).unmarked h ?_
  rintro _ _ ⟨⟩
  exact hvalue

end Namespaces
end LazyLisp
