import LazyLisp.Proofs.Written

/-!
A template that was read means the form it shows. Its code evaluates the holes once each, from left
to right, and builds a value that is equal to the template with the values in the place of the
holes, whatever is bound where it is evaluated.
-/

namespace LazyLisp
open Shorthand Value
set_option autoImplicit false

namespace Template

section
variable {P : Value → Prop}

/-- The property is one of all parts if it is one of the whole. -/
structure Inherited (P : Value → Prop) : Prop where
  list : ∀ {vs}, P (.list vs) → ∀ v ∈ vs, P v
  vector : ∀ {vs}, P (.vector vs) → ∀ v ∈ vs, P v
  marked : ∀ {m v}, P (.marked m v) → P v

mutual

theorem Inherited.written (hP : Inherited P) (t : Template) (h : P t.written) :
    (∀ s ∈ t.symbols, P (.symbol s)) ∧ ∀ v ∈ t.holes, P v := by
  cases t with
  | literal | special => exact ⟨List.forall_mem_nil _, List.forall_mem_nil _⟩
  | symbol s => exact ⟨List.forall_mem_cons.2 ⟨h, List.forall_mem_nil _⟩, List.forall_mem_nil _⟩
  | unquote hole | splice hole =>
    exact ⟨List.forall_mem_nil _, List.forall_mem_cons.2 ⟨hP.marked h, List.forall_mem_nil _⟩⟩
  | list parts => exact Inherited.writtenAll hP parts (hP.list h)
  | vector parts => exact Inherited.writtenAll hP parts (hP.vector h)

theorem Inherited.writtenAll (hP : Inherited P) (ps : List Template)
    (h : ∀ v ∈ Template.writtenAll ps, P v) :
    (∀ s ∈ symbolsAll ps, P (.symbol s)) ∧ ∀ v ∈ holesAll ps, P v := by
  cases ps with
  | nil => exact ⟨List.forall_mem_nil _, List.forall_mem_nil _⟩
  | cons p ps =>
    obtain ⟨hp, hps⟩ := List.forall_mem_cons.1 h
    obtain ⟨hsymbols, hholes⟩ := Inherited.written hP p hp
    obtain ⟨hsymbols', hholes'⟩ := Inherited.writtenAll hP ps hps
    exact ⟨List.forall_mem_append.2 ⟨hsymbols, hsymbols'⟩, List.forall_mem_append.2 ⟨hholes, hholes'⟩⟩

end

end

theorem plain_inherited : Inherited Plain where
  list h := plain_list.1 h
  vector h := plain_vector.1 h
  marked h := plain_marked.1 h

theorem spelled_inherited (names : Names) : Inherited (Reading.Spelled names) where
  list h := Reading.spelled_list.1 h
  vector h := Reading.spelled_vector.1 h
  marked h := Reading.spelled_marked.1 h

/-- Evaluated in this state, the code builds a value that is equal to what the filled template
shows, in all states ahead. -/
def Builds (R : World → World → Prop) (scope : Scope) (t : Template) (w : World) : Prop :=
  ∃ f v u, ComesTo (fun n => t.fill (.ofBudget n) scope) w.muted (.ok (f, v) u.muted) ∧
    ComesTo (fun n => (Engine.ofBudget n).value scope t.expression) w (.ok v u) ∧ R w u ∧
    f.shape = t.shape ∧ (∀ z, R u z → ∃ z' x, R z z' ∧ f.Shows z' x) ∧
    ∀ z x, R u z → f.Shows z x → ∃ z', Compares z v x (.ok true z') ∧ R z z'

/-- Evaluated in this state, the code fails because spliced code yields no collection. -/
def Fails (R : World → World → Prop) (scope : Scope) (t : Template) (w : World) : Prop :=
  ∃ err u, ComesTo (fun n => (Engine.ofBudget n).value scope t.expression) w
      (.error (.error err) u) ∧ Refuses R scope w.muted t.splices err

/-- The code of a template whose holes yield finite values builds what the template shows, or
something is spliced that is no collection. -/
theorem builds_or_fails {R : World → World → Prop} (hR : QuietCourse R) {scope : Scope}
    {t : Template} (hproper : t.Proper false) (hplain : ∀ code ∈ t.holes, code.Plain) {w : World}
    (h : t.Delivers R scope w.muted) : Builds R scope t w ∨ Fails R scope t w := by
  have hrefines := refines_expression scope t hproper hplain
  have hquiet : R w w.muted := hR.quiet rfl
  rcases fill_delivers hR t hproper h with
    ⟨f, v, u, hfill, hwu, hshape, hfilled⟩ | ⟨err, u, hfill, hrefuses⟩
  · obtain ⟨r, hr, hsame⟩ := hrefines.comesTo (hfill.bind (.pure v u))
    have hshown : Shown R u f v := by
      cases hfilled with
      | spliced => cases hproper
      | shown hshown => exact hshown
    cases r with
    | error s u' => cases hsame
    | ok v' u' =>
      cases hsame
      have hback : R u'.muted u' := hR.quiet rfl
      refine .inl ⟨f, v, u', hfill, hr, hR.trans hquiet (hR.trans hwu hback), hshape, ?_, ?_⟩
      · exact fun z hz => hshown.shows z (hR.trans hback hz)
      · exact fun z x hz hx => hshown.compares hR.toCourse (hR.trans hback hz) hx
  · obtain ⟨r, hr, hsame⟩ := hrefines.comesTo (r := .error (.error err) u) hfill.bind_error
    cases r with
    | ok v' u' => cases hsame
    | error s u' =>
      cases hsame
      exact .inr ⟨err, u', hr, hrefuses⟩

end Template

open Template

/-- A template that was read keeps its meaning. -/
theorem template_keeps_meaning {source : String} {before between : Names} {t : Template}
    (hsource : Written source before (.marked .template t.written) between)
    (hproper : t.Proper false) (hholes : ∀ form ∈ t.holes, Lowers form) :
    ∃ (t' : Template) (after : Names) (σ : Symbol → Symbol),
      readForms source before = .ok [t'.expression] after ∧
      Freshens between after t.symbols σ ∧ t'.shape = t.blank σ ∧
      List.Forall₂ (LowersTo between after) t.holes t'.holes ∧
      ∀ scope,
        Refines (fun n => (Engine.ofBudget n).value scope t'.expression)
          (fun n => do return (← t'.fill (.ofBudget n) scope).2) ∧
        ∀ R, QuietCourse R → ∀ w : World, t'.Delivers R scope w.muted →
          Builds R scope t' w ∨ Fails R scope t' w := by
  have hwritten : t.written.Plain := plain_marked.1 hsource.plain
  have hspelled := Reading.spelled_marked.1 hsource.spelled
  have hknows : ∀ s ∈ t.symbols, between.Knows s := fun s hs =>
    (Reading.spelled_symbol.1 (((spelled_inherited between).written t hspelled).1 s hs)).knows
  obtain ⟨t', after, σ, hlower, hfreshens, hproper', hshape, hcodes⟩ :=
    @lower_template t hproper ⟨between, []⟩ hknows hholes
  have hplain : ∀ code ∈ t'.holes, code.Plain := by
    obtain ⟨ps, hforms, hcodes, hps⟩ := exists_pairs_iff.2 hcodes
    rw [← hcodes]
    refine List.forall_mem_map.2 fun p hp => ?_
    obtain ⟨st, later, hrun, -⟩ := hps p hp
    have hform : p.1 ∈ t.holes := hforms ▸ List.mem_map_of_mem hp
    exact lower_plain p.1 ((plain_inherited.written t hwritten).2 p.1 hform) _ _ _ hrun
  refine ⟨t', after, σ, hsource.readForms hlower, hfreshens, hshape, hcodes, fun scope => ⟨?_, ?_⟩⟩
  · exact refines_expression scope t' hproper' hplain
  · exact fun R hR w hdelivers => builds_or_fails hR hproper' hplain hdelivers

/-- States that differ in their events only. -/
def SameButEvents (w v : World) : Prop := w.muted = v.muted

theorem sameButEvents_course : QuietCourse SameButEvents where
  refl _ := rfl
  trans := Eq.trans
  later h i cell hcell := by
    have hcells := congrArg World.cells h
    exact ⟨cell, hcells ▸ hcell, .same cell⟩
  quiet h := h

/-- The template of `(a# ~@[1])`, where 7 stands for the name `a#`. -/
def splicedTemplate : Template :=
  .list [.symbol (.plain 7), .splice (.vector [.int 1])]

theorem splicedTemplate_written :
    Written "`(a# ~@[1])" Names.initial (.marked .template splicedTemplate.written)
      (Names.initial.internAll ["a#"]) := by
  have htokens : ∃ tokens, Token.tokens "`(a# ~@[1])" = .ok tokens ∧ tokens.map (·.kind) =
      [.mark .template, .opening .paren, .symbol "a#", .mark .splice, .opening .bracket, .integer 1,
        .closing .bracket, .closing .paren] ++ [.ending] := ⟨_, by cbv, by cbv⟩
  obtain ⟨tokens, htokens, hkinds⟩ := htokens
  refine ⟨tokens, _, htokens, hkinds, ?_⟩
  have hsymbol : Reading.atom (.symbol "a#") Reading.nowhere Names.initial =
      .ok (.symbol (.plain 7)) (Names.initial.internAll ["a#"]) := by cbv
  have hone : Reading.Writes (Names.initial.internAll ["a#"]) [.integer 1] [.int 1]
      (Names.initial.internAll ["a#"]) := .atom [] rfl rfl .nil
  have hspliced := Reading.Writes.collection (d := .bracket) [.splice] hone rfl .nil
  exact Reading.Writes.collection (d := .paren) [.template] (.atom [] rfl hsymbol hspliced) rfl .nil

/-- Whatever code the template has become, its hole yields a vector. -/
theorem splicedTemplate_delivers {t : Template} {s : Symbol} {before after : Names}
    (hshape : t.shape = .list [.symbol s, .splice .nil])
    (hholes : List.Forall₂ (LowersTo before after) splicedTemplate.holes t.holes) (scope : Scope)
    (w : World) : t.Delivers SameButEvents scope w := by
  obtain ⟨code, rfl⟩ : ∃ code, t = .list [.symbol s, .splice code] := by
    cases t with
    | list parts =>
      have hparts := Template.list.inj hshape
      rcases parts with _ | ⟨p, _ | ⟨q, _ | ⟨_, _⟩⟩⟩ <;>
        simp only [blankAll, List.cons.injEq, reduceCtorEq, and_false, and_true] at hparts
      obtain ⟨hp, hq⟩ := hparts
      cases p with
      | symbol _ =>
        cases q with
        | splice code => exact ⟨code, by rw [← hp]; rfl⟩
        | _ => cases hq
      | _ => cases hp
    | _ => cases hshape
  obtain ⟨⟨st, later, hlower, -⟩, -⟩ := List.forall₂_cons.1 hholes
  obtain rfl : code = .vector [.int 1] := by
    cases hlower
    rfl
  refine ⟨trivial, fun r u hfill => ⟨⟨.vector [.int 1], u.muted, ?_, rfl, ?_⟩, fun _ _ _ => trivial⟩⟩
  · refine ⟨.ok _ _, 2, fun n hn => ?_⟩
    obtain ⟨n, rfl⟩ := Nat.exists_eq_add_of_le' hn
    rfl
  · exact .vector (List.forall_mem_cons.2 ⟨.atom rfl, List.forall_mem_nil _⟩)

/-- A template with a fresh symbol and a spliced vector. -/
theorem template_keeps_meaning_spliced :
    Written "`(a# ~@[1])" Names.initial (.marked .template splicedTemplate.written)
      (Names.initial.internAll ["a#"]) ∧
    ∃ (t : Template) (after : Names), readForms "`(a# ~@[1])" Names.initial = .ok [t.expression] after ∧
      ∀ scope w, Builds SameButEvents scope t w ∨ Fails SameButEvents scope t w := by
  have hlowers : ∀ form ∈ splicedTemplate.holes, Lowers form :=
    List.forall_mem_cons.2 ⟨fun st => ⟨_, st, rfl⟩, List.forall_mem_nil _⟩
  obtain ⟨t, after, σ, hread, -, hshape, hholes, hmeans⟩ :=
    template_keeps_meaning splicedTemplate_written ⟨trivial, rfl, trivial⟩ hlowers
  refine ⟨splicedTemplate_written, t, after, hread, fun scope w => ?_⟩
  exact (hmeans scope).2 _ sameButEvents_course w (splicedTemplate_delivers hshape hholes scope _)

end LazyLisp
