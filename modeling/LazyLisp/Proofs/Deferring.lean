import LazyLisp.Proofs.Demanding

/-!
Lazy functions of the library. A call makes a lazy cell. Looking at it looks at the next element of a
collection and gives an element in front of a further cell, or passes the element over and leaves the
result to a further cell, or ends. The cells are a collection again, which offers the elements that
come of it.
-/

namespace LazyLisp
set_option autoImplicit false

namespace Evaluation
open Library
variable {R : World → World → Prop}

/-- What a lazy function makes of a collection: from a state, with this first argument and these
elements left, its cells give these elements. -/
abbrev Rule (R : World → World → Prop) := World → Value → List (Item R) → List (Item R) → Prop

/-- What a look at a cell leaves, with the elements before it and those that are to come: nothing, or
a further cell of the function for what is behind the first element, with an element in front of it
or without. -/
inductive Product (R : World → World → Prop) (e : Entry) (form : Value) (ends : Bool)
    (rule : Rule R) (w v : World) : List (Item R) → List (Item R) → Value → Prop
  | none {items : List (Item R)} (h : Proceeds R w v) : Product R e form ends rule w v items [] .nil
  | next {item a : Item R} {items outs : List (Item R)} {b : World} {c : CellId} {x f : Value}
      {t : Seq} (h : Proceeds R w b) (hx : a.holds b x) (hwaits : Waits e form b v c [f, .seq t])
      (hoffers : t.Offers R ends items b) (hrule : rule b f items outs) :
      Product R e form ends rule w v (item :: items) (a :: outs) (.seq (.cons x (.lazy c)))
  | pass {item : Item R} {items outs : List (Item R)} {b : World} {c : CellId} {f : Value} {t : Seq}
      (h : Proceeds R w b) (hwaits : Waits e form b v c [f, .seq t])
      (hoffers : t.Offers R ends items b) (hrule : rule b f items outs) :
      Product R e form ends rule w v (item :: items) outs (.seq (.lazy c))

theorem Product.after {e : Entry} {form : Value} {ends : Bool} {rule : Rule R} {w v u : World}
    {items outs : List (Item R)} {y : Value} (hR : Harmless R) (hwv : Proceeds R w v)
    (h : Product R e form ends rule v u items outs y) : Product R e form ends rule w u items outs y := by
  cases h with
  | none h => exact .none (hwv.trans hR h)
  | next h hx hwaits hoffers hrule => exact .next (hwv.trans hR h) hx hwaits hoffers hrule
  | pass h hwaits hoffers hrule => exact .pass (hwv.trans hR h) hwaits hoffers hrule

/-- The layers in which the thunk of a cell of the function runs. -/
def thunkLayers (e : Entry) (id : ClosureId) (xs : List Value) : List (List (Symbol × Value)) :=
  [[], e.bindings xs, [(.plain e.name, .function id)]]

/-- Calls of the function make cells, and a look at a cell leaves what the rule says. Of the elements
that come of it, it is known that they end there, or nothing is known of what is behind them. -/
structure Transforms (R : World → World → Prop) (e : Entry) (form : Value) (ends shown : Bool)
    (rule : Rule R) : Prop where
  defers : Defers e form
  along : ∀ {w v : World} {f : Value} {items outs : List (Item R)}, R w v → rule w f items outs →
    rule v f items outs
  gives : ∀ {w : World} {scope : Scope} {id : ClosureId} {f c : Value} {s : Seq}
    {items outs : List (Item R)}, rule w f items outs → c.toSeq? = some s →
    s.Offers R ends items w → (shown = true ∨ outs ≠ []) →
    Scene scope (thunkLayers e id [f, c]) w → w.closures[id]? = some e.closure →
    Secures (values scope form) w fun y v => Product R e form ends rule w v items outs y

/-! Cells. -/

/-- A cell of the function has not been looked at. It is newer than the state in which the elements
were offered, so that state does not know whether its thunk is running. -/
structure Suspended (R : World → World → Prop) (e : Entry) (form : Value) (ends : Bool)
    (rule : Rule R) (a v : World) (c : CellId) (items outs : List (Item R)) : Prop where
  stocked : a.Stocked Entry.all Builtin.all
  starts : R a (v.setCell c .realizing)
  cell : ∃ id f coll s, v.closures[id]? = some e.closure ∧
    Suspends v c form [e.bindings [f, coll], [(.plain e.name, .function id)]] ∧
    coll.toSeq? = some s ∧ s.Offers R ends items a ∧ rule a f items outs

/-- How far a cell of the function and those behind it have been looked at. The elements that have
been found fit their descriptions in the state in which those behind them are offered. -/
inductive Stage (R : World → World → Prop) (e : Entry) (form : Value) (ends : Bool) (rule : Rule R)
    (a v : World) : CellId → List (Item R) → Prop
  | waits {c : CellId} {items outs : List (Item R)}
      (h : Suspended R e form ends rule a v c items outs) : Stage R e form ends rule a v c outs
  | none {c : CellId} (hc : v.cells[c]? = some (.realized .empty)) :
      Stage R e form ends rule a v c []
  | next {c i : CellId} {x : Value} {item : Item R} {outs : List (Item R)}
      (hc : v.cells[c]? = some (.realized (.cons x (.lazy i)))) (hx : item.holds a x)
      (h : Stage R e form ends rule a v i outs) : Stage R e form ends rule a v c (item :: outs)
  | pass {c i : CellId} {outs : List (Item R)} (hc : v.cells[c]? = some (.realized (.lazy i)))
      (h : Stage R e form ends rule a v i outs) : Stage R e form ends rule a v c outs

/-- A cell lies behind another one, with the elements that are to come there. -/
inductive Behind {R : World → World → Prop} (v : World) :
    CellId → List (Item R) → CellId → List (Item R) → Prop
  | here (c : CellId) (outs : List (Item R)) : Behind v c outs c outs
  | next {c i j : CellId} {x : Value} {item : Item R} {outs outs' : List (Item R)}
      (hc : v.cells[c]? = some (.realized (.cons x (.lazy i)))) (h : Behind v i outs j outs') :
      Behind v c (item :: outs) j outs'
  | pass {c i j : CellId} {outs outs' : List (Item R)}
      (hc : v.cells[c]? = some (.realized (.lazy i))) (h : Behind v i outs j outs') :
      Behind v c outs j outs'

/-- What a look at a cell finds: an element with the cell behind it, or the end. -/
inductive Finds {R : World → World → Prop} (a v : World) (c : CellId) :
    List (Item R) → Option (Value × Seq) → Prop
  | none : Finds a v c [] none
  | some {item : Item R} {outs : List (Item R)} {x : Value} {i : CellId} (hx : item.holds a x)
      (h : Behind v c (item :: outs) i outs) : Finds a v c (item :: outs) (some (x, .lazy i))

/-- What a look at a cell does. Those behind it are offered their elements in a later state. -/
structure Looks (R : World → World → Prop) (e : Entry) (form : Value) (ends : Bool) (rule : Rule R)
    (a v b : World) (c : CellId) (outs : List (Item R)) (o : Option (Value × Seq)) (u : World) :
    Prop where
  look : Seq.Takes v (.lazy c) o u
  along : R a b
  onward : R b u
  stage : Stage R e form ends rule b u c outs
  finds : Finds b u c outs o

/-- A cell's thunk is running. -/
structure Running (R : World → World → Prop) (c : CellId) (a u : World) : Prop where
  along : R a u
  stocked : u.Stocked Entry.all Builtin.all
  attached : u.attached = true
  realizing : u.cells[c]? = some .realizing

variable {e : Entry} {form f coll : Value} {ends shown : Bool} {rule : Rule R} {a b w w' v u : World}
  {c i j : CellId} {s : Seq} {items outs outs' outs'' : List (Item R)} {xs : List Value}

theorem Waits.suspended (hR : Harmless R) (h : Waits e form a v c [f, coll])
    (hstocked : a.Stocked Entry.all Builtin.all) (hs : coll.toSeq? = some s)
    (hoffers : s.Offers R ends items a) (hrule : rule a f items outs) :
    Suspended R e form ends rule a v c items outs := by
  obtain ⟨id, hid, hcell⟩ := h.cell
  refine ⟨hstocked, hR.works (h.works.setCell fun old hold => ?_), id, f, coll, s, hid, hcell, hs,
    hoffers, hrule⟩
  exact absurd (Array.getElem?_eq_some_iff.1 hold).1 (Nat.not_lt.2 h.fresh)

theorem Suspended.works (hR : Harmless R) (h : Suspended R e form ends rule a w c items outs)
    (hwv : Works w v) : Suspended R e form ends rule a v c items outs := by
  obtain ⟨id, f, coll, s, hid, hcell, hrest⟩ := h.cell
  exact ⟨h.stocked, hR.trans h.starts (hR.works (hwv.setCell_both c _)), id, f, coll, s,
    hwv.closures _ _ hid, hcell.works hwv, hrest⟩

theorem Stage.works (hR : Harmless R) (h : Stage R e form ends rule a w c outs) (hwv : Works w v) :
    Stage R e form ends rule a v c outs := by
  induction h with
  | waits h => exact .waits (h.works hR hwv)
  | none hc => exact .none (hwv.realized _ _ hc)
  | next hc hx _ ih => exact .next (hwv.realized _ _ hc) hx ih
  | pass hc _ ih => exact .pass (hwv.realized _ _ hc) ih

theorem Suspended.pending (h : Suspended R e form ends rule a v c items outs) :
    ∃ thunk, v.cells[c]? = some (.pending thunk) := by
  obtain ⟨_, _, _, _, _, ⟨_, _, hc, _⟩, _⟩ := h.cell
  exact ⟨_, hc⟩

theorem Stage.of_next {x : Value} (h : Stage R e form ends rule a v c outs)
    (hc : v.cells[c]? = some (.realized (.cons x (.lazy i)))) :
    ∃ item outs', outs = item :: outs' ∧ item.holds a x ∧ Stage R e form ends rule a v i outs' := by
  cases h with
  | waits h =>
    obtain ⟨_, hpending⟩ := h.pending
    cases hc.symm.trans hpending
  | none hc' => cases hc.symm.trans hc'
  | next hc' hx h =>
    cases hc.symm.trans hc'
    exact ⟨_, _, rfl, hx, h⟩
  | pass hc' => cases hc.symm.trans hc'

theorem Stage.of_pass (h : Stage R e form ends rule a v c outs)
    (hc : v.cells[c]? = some (.realized (.lazy i))) : Stage R e form ends rule a v i outs := by
  cases h with
  | waits h =>
    obtain ⟨_, hpending⟩ := h.pending
    cases hc.symm.trans hpending
  | none hc' => cases hc.symm.trans hc'
  | next hc' => cases hc.symm.trans hc'
  | pass hc' h =>
    cases hc.symm.trans hc'
    exact h

namespace Behind

theorem realized (h : Behind w c outs i outs')
    (hwv : ∀ (c : CellId) (s : Seq), w.cells[c]? = some (.realized s) →
      v.cells[c]? = some (.realized s)) : Behind v c outs i outs' := by
  induction h with
  | here c outs => exact .here c outs
  | next hc _ ih => exact .next (hwv _ _ hc) ih
  | pass hc _ ih => exact .pass (hwv _ _ hc) ih

theorem trans (h : Behind v c outs i outs') (h' : Behind v i outs' j outs'') :
    Behind v c outs j outs'' := by
  induction h with
  | here c outs => exact h'
  | next hc _ ih => exact .next hc (ih h')
  | pass hc _ ih => exact .pass hc (ih h')

/-- The stage of the cell behind. -/
theorem stage (h : Behind v c outs i outs') (hstage : Stage R e form ends rule a v c outs) :
    Stage R e form ends rule a v i outs' := by
  induction h with
  | here => exact hstage
  | next hc _ ih =>
    obtain ⟨_, _, houts, -, hmore⟩ := hstage.of_next hc
    cases houts
    exact ih hmore
  | pass hc _ ih => exact ih (hstage.of_pass hc)

/-- The cell behind has come to a further stage. -/
theorem stage_of (h : Behind w c outs i outs') (hstage : Stage R e form ends rule a w c outs)
    (hwv : ∀ (c : CellId) (s : Seq), w.cells[c]? = some (.realized s) →
      v.cells[c]? = some (.realized s))
    (hab : R a b) (hmore : Stage R e form ends rule b v i outs') :
    Stage R e form ends rule b v c outs := by
  induction h with
  | here => exact hmore
  | next hc _ ih =>
    obtain ⟨_, _, houts, hx, hbehind⟩ := hstage.of_next hc
    cases houts
    exact .next (hwv _ _ hc) (Item.along _ hab hx) (ih hbehind hmore)
  | pass hc _ ih => exact .pass (hwv _ _ hc) (ih (hstage.of_pass hc) hmore)

end Behind

/-! Looks. -/

theorem Running.proceeds (hR : Harmless R) (h : Running R c a u) (hub : Proceeds R u b) :
    Running R c a b :=
  ⟨hR.trans h.along hub.along, hR.stocked hub.along h.stocked, hub.kept.attached.trans h.attached,
    hub.kept.realizing c h.realizing⟩

/-- The cell has come to an end. -/
theorem Running.finishes (h : Running R c a b) (hbv : Works b v) (s : Seq) :
    Works b (v.setCell c (.realized s)) :=
  hbv.setCell fun _ hold => ⟨Option.some.inj (hold.symm.trans h.realizing), s, rfl⟩

theorem Running.finished (h : Running R c a b) (hbv : Works b v) (s : Seq) :
    (v.setCell c (.realized s)).cells[c]? = some (.realized s) :=
  World.cells_setCell_self (hbv.cell_lt (Array.getElem?_eq_some_iff.1 h.realizing).1)

theorem Running.waits (h : Running R c a b) (hwaits : Waits e form b v i xs) (s : Seq) :
    Waits e form b (v.setCell c (.realized s)) i xs := by
  have hne : i ≠ c := Nat.ne_of_gt
    (Nat.lt_of_lt_of_le (Array.getElem?_eq_some_iff.1 h.realizing).1 hwaits.fresh)
  obtain ⟨id, hid, hcell⟩ := hwaits.cell
  exact ⟨h.finishes hwaits.works s, hwaits.fresh, id, hid, hcell.setCell hne _⟩

/-- The thunk has ended the cells. -/
theorem Running.looks_none (hR : Harmless R) (h : Running R c a b)
    (hlook : ∀ o u, Seq.Takes (b.setCell c (.realized .empty)) .empty o u →
      Seq.Takes v (.lazy c) o u) :
    Looks R e form ends rule a v b c [] none (b.setCell c (.realized .empty)) where
  look := hlook none _ (.empty _)
  along := h.along
  onward := hR.works (h.finishes (.refl b) .empty)
  stage := .none (h.finished (.refl b) .empty)
  finds := .none

/-- The thunk has put an element in front of a further cell. -/
theorem Running.looks_next {p : Item R} {x : Value} (hR : Harmless R) (h : Running R c a b)
    (hwaits : Waits e form b w i [f, .seq s]) (hoffers : s.Offers R ends items b)
    (hrule : rule b f items outs) (hx : p.holds b x)
    (hlook : ∀ o u, Seq.Takes (w.setCell c (.realized (.cons x (.lazy i)))) (.cons x (.lazy i)) o u →
      Seq.Takes v (.lazy c) o u) :
    Looks R e form ends rule a v b c (p :: outs) (some (x, .lazy i))
      (w.setCell c (.realized (.cons x (.lazy i)))) where
  look := hlook _ _ (.cons _ x (.lazy i))
  along := h.along
  onward := hR.works (h.finishes hwaits.works _)
  stage := .next (h.finished hwaits.works _) hx
    (.waits ((h.waits hwaits _).suspended hR h.stocked rfl hoffers hrule))
  finds := .some hx (.next (h.finished hwaits.works _) (.here i outs))

/-- The cell leaves everything to a further cell. -/
theorem Looks.pass {o : Option (Value × Seq)} (hR : Harmless R) (hab : R a b)
    (h : Looks R e form ends rule b w w' i outs o u)
    (hc : w.cells[c]? = some (.realized (.lazy i)))
    (hlook : ∀ o u, Seq.Takes w (.lazy i) o u → Seq.Takes v (.lazy c) o u) :
    Looks R e form ends rule a v w' c outs o u := by
  have hkept := h.look.kept.realized _ _ hc
  refine ⟨hlook o u h.look, hR.trans hab h.along, h.onward, .pass hkept h.stage, ?_⟩
  cases h.finds with
  | none => exact .none
  | some hx hbehind => exact .some hx (.pass hkept hbehind)

namespace Transforms
variable (hR : Harmless R) (h : Transforms R e form ends shown rule)
include hR h

/-- A look at a cell runs its thunk. -/
theorem runs (hcell : Suspended R e form ends rule a v c items outs) (hattached : v.attached = true)
    (hknown : shown = true ∨ outs ≠ []) :
    ∃ y u z, Running R c a u ∧ Product R e form ends rule u z items outs y ∧
      ∀ t, y.toSeq? = some t → ∀ o u,
        Seq.Takes (z.setCell c (.realized t)) t o u → Seq.Takes v (.lazy c) o u := by
  obtain ⟨id, f, coll, s, hid, hsuspends, hs, hoffers, hrule⟩ := hcell.cell
  have hbound : c < v.cells.size := by
    obtain ⟨_, _, hc, -⟩ := hsuspends
    exact (Array.getElem?_eq_some_iff.1 hc).1
  obtain ⟨y, z, ⟨u, hrunning, hproduct⟩, htakes⟩ := hsuspends.looks_secured hattached
    (Q := fun y z => ∃ u, Running R c a u ∧ Product R e form ends rule u z items outs y)
    fun u frame hu hlayers => by
      have hau := hR.trans hcell.starts (hR.works (.of_idle hu))
      have hrunning : Running R c a u :=
        ⟨hau, hR.stocked hau hcell.stocked, hu.attached.trans hattached,
          hu.cells ▸ World.cells_setCell_self hbound⟩
      have hscene : Scene (some frame) (thunkLayers e id [f, coll]) u :=
        ⟨hlayers, hrunning.stocked, hrunning.attached⟩
      exact (h.gives (h.along hau hrule) hs (hoffers.along hR hau) hknown hscene
        (hu.closures ▸ hid)).weaken fun y z hproduct => ⟨u, hrunning, hproduct⟩
  exact ⟨y, u, z, hrunning, hproduct, htakes⟩

/-- A look at a cell that has not been looked at. -/
theorem looks_first (hcell : Suspended R e form ends rule a v c items outs)
    (hattached : v.attached = true) (hknown : shown = true ∨ outs ≠ []) :
    ∃ b o u, Looks R e form ends rule a v b c outs o u := by
  -- each thunk takes an element off the collection
  induction items generalizing a v c outs with
  | nil =>
    obtain ⟨y, u, z, hrunning, hproduct, hlook⟩ := h.runs hR hcell hattached hknown
    cases hproduct with
    | none huz => exact ⟨_, _, _, (hrunning.proceeds hR huz).looks_none hR (hlook .empty rfl)⟩
  | cons item items ih =>
    obtain ⟨y, u, z, hrunning, hproduct, hlook⟩ := h.runs hR hcell hattached hknown
    cases hproduct with
    | none huz => exact ⟨_, _, _, (hrunning.proceeds hR huz).looks_none hR (hlook .empty rfl)⟩
    | next hub hx hwaits hoffers hrule =>
      exact ⟨_, _, _, (hrunning.proceeds hR hub).looks_next hR hwaits hoffers hrule hx (hlook _ rfl)⟩
    | @pass _ _ _ b i f t hub hwaits hoffers hrule =>
      have hrunning := hrunning.proceeds hR hub
      have hnext := (hrunning.waits hwaits (.lazy i)).suspended hR hrunning.stocked rfl hoffers hrule
      obtain ⟨b', o, u', hlooks⟩ :=
        ih hnext (hwaits.works.attached.trans hrunning.attached) hknown
      exact ⟨b', o, u', hlooks.pass hR hrunning.along (hrunning.finished hwaits.works _)
        (hlook _ rfl)⟩

/-- A look at a cell, whether or not it has been looked at. -/
theorem looks (hstage : Stage R e form ends rule a v c outs) (hav : R a v)
    (hattached : v.attached = true) (hknown : shown = true ∨ outs ≠ []) :
    ∃ b o u, Looks R e form ends rule a v b c outs o u := by
  induction hstage with
  | waits hcell => exact h.looks_first hR hcell hattached hknown
  | none hc =>
    exact ⟨a, Option.none, v, .lazy (n := 0) hc (Seq.realize_realized hc) (.empty v), hR.refl a, hav,
      .none hc, .none⟩
  | @next c i x item outs hc hx hmore =>
    exact ⟨a, _, v, .lazy (n := 0) hc (Seq.realize_realized hc) (.cons v x (.lazy i)), hR.refl a, hav,
      .next hc hx hmore, .some hx (.next hc (.here i outs))⟩
  | pass hc _ ih =>
    obtain ⟨b, o, u, hlooks⟩ := ih hknown
    exact ⟨b, o, u, hlooks.pass hR (hR.refl a) hc fun o u =>
      .lazy (n := 0) hc (Seq.realize_realized hc)⟩

end Transforms

/-! Collections of cells. -/

/-- Between two looks at a cell the others may be looked at. -/
structure Spares (R : World → World → Prop) (e : Entry) (form : Value) (ends : Bool) (rule : Rule R)
    (root : CellId) (all : List (Item R)) (w v : World) : Prop where
  attached : v.attached = w.attached
  stocked : w.Stocked Entry.all Builtin.all → v.Stocked Entry.all Builtin.all
  realized : ∀ (c : CellId) (s : Seq), w.cells[c]? = some (.realized s) →
    v.cells[c]? = some (.realized s)
  stage : ∀ a, R a w → Stage R e form ends rule a w root all →
    ∃ b, R a b ∧ R b v ∧ Stage R e form ends rule b v root all

theorem spares_harmless (hR : Harmless R) (root : CellId) (all : List (Item R)) :
    Harmless (Spares R e form ends rule root all) where
  refl w := ⟨rfl, id, fun _ _ => id, fun a haw hstage => ⟨a, hR.refl a, haw, hstage⟩⟩
  trans h h' := by
    refine ⟨h'.attached.trans h.attached, h'.stocked ∘ h.stocked,
      fun c s hc => h'.realized c s (h.realized c s hc), fun a haw hstage => ?_⟩
    obtain ⟨b, hab, hbv, hstage⟩ := h.stage a haw hstage
    obtain ⟨b', hbb', hbu, hstage⟩ := h'.stage b hbv hstage
    exact ⟨b', hR.trans hab hbb', hbu, hstage⟩
  works h := ⟨h.attached, h.stocked, h.realized, fun a haw hstage =>
    ⟨a, hR.refl a, hR.trans haw (hR.works h), hstage.works hR h⟩⟩
  stocked h := h.stocked
  realized h := h.realized

/-- The description was true at a time when the elements that are still to come were offered. -/
def found (e : Entry) (form : Value) (ends : Bool) (rule : Rule R) (root : CellId)
    (all : List (Item R)) (item : Item R) : Item (Spares R e form ends rule root all) where
  holds v x := ∃ a, R a v ∧ Stage R e form ends rule a v root all ∧ item.holds a x
  along hwv h := by
    obtain ⟨a, haw, hstage, hx⟩ := h
    obtain ⟨b, hab, hbv, hstage⟩ := hwv.stage a haw hstage
    exact ⟨b, hbv, hstage, item.along hab hx⟩

namespace Transforms
variable {root : CellId} {all left : List (Item R)} (hR : Harmless R)
  (h : Transforms R e form ends shown rule)
include hR h

theorem spares {o : Option (Value × Seq)} (hbehind : Behind v root all i left)
    (hattached : v.attached = true) (hknown : shown = true ∨ left ≠ [])
    (hlook : Seq.Takes v (.lazy i) o u) (hstocked : u.Stocked Entry.all Builtin.all) :
    Spares R e form ends rule root all v u where
  attached := hlook.kept.attached
  stocked _ := hstocked
  realized := hlook.kept.realized
  stage a hav hstage := by
    obtain ⟨b, _, _, hlooks⟩ := h.looks hR (hbehind.stage hstage) hav hattached hknown
    obtain ⟨-, rfl⟩ := hlooks.look.unique hlook
    exact ⟨b, hlooks.along, hlooks.onward,
      hbehind.stage_of hstage hlook.kept.realized hlooks.along hlooks.stage⟩

/-- The cells offer the elements that come of the collection. -/
theorem offers (hbehind : Behind w root all i left) (hattached : w.attached = true)
    (hstocked : a.Stocked Entry.all Builtin.all) (haw : R a w)
    (hstage : Stage R e form ends rule a w root all) :
    Seq.Offers (Spares R e form ends rule root all) shown
      (left.map (found e form ends rule root all)) w (.lazy i) := by
  induction left generalizing a w i with
  | nil =>
    intro hshown v hwv
    have hbehind := hbehind.realized hwv.realized
    have hattached := hwv.attached.trans hattached
    obtain ⟨b, hab, hbv, hstage⟩ := hwv.stage a haw hstage
    obtain ⟨b', o, u, hlooks⟩ := h.looks hR (hbehind.stage hstage) hbv hattached (.inl hshown)
    have hstocked : u.Stocked Entry.all Builtin.all :=
      hR.stocked (hR.trans hab (hR.trans hlooks.along hlooks.onward)) hstocked
    cases hlooks.finds
    exact ⟨u, hlooks.look, h.spares hR hbehind hattached (.inl hshown) hlooks.look hstocked⟩
  | cons item left ih =>
    intro v hwv
    have hbehind := hbehind.realized hwv.realized
    have hattached := hwv.attached.trans hattached
    obtain ⟨b, hab, hbv, hstage⟩ := hwv.stage a haw hstage
    obtain ⟨b', o, u, hlooks⟩ := h.looks hR (hbehind.stage hstage) hbv hattached (.inr nofun)
    have hstocked := hR.stocked (hR.trans hab hlooks.along) hstocked
    have hspares := h.spares hR hbehind hattached (.inr nofun) hlooks.look
      (hR.stocked hlooks.onward hstocked)
    have hkept := hlooks.look.kept
    have hstage := hbehind.stage_of hstage hkept.realized hlooks.along hlooks.stage
    cases hlooks.finds with
    | some hx hnext =>
      exact ⟨_, _, u, hlooks.look, hspares, ⟨b', hlooks.onward, hstage, hx⟩,
        ih ((hbehind.realized hkept.realized).trans hnext) (hkept.attached.trans hattached) hstocked
          hlooks.onward hstage⟩

/-- Calling a lazy function. -/
theorem delivers {id : ClosureId} (hstocked : w.Stocked Entry.all Builtin.all)
    (hattached : w.attached = true) (hid : w.closures[id]? = some e.closure)
    (hs : coll.toSeq? = some s) (hoffers : s.Offers R ends items w) (hrule : rule w f items outs) :
    Delivers R shown w (.function id) [f, coll] outs := by
  obtain ⟨c, v, happlies, hwaits⟩ := h.defers f coll hid (hstocked.subset
    (List.cons_subset.2 ⟨Entry.mem_all .lazySeq, List.nil_subset _⟩)
    (List.cons_subset.2 ⟨Builtin.mem_all .lazySeq, List.nil_subset _⟩))
  have hwv := hR.works hwaits.works
  have hstage : Stage R e form ends rule w v c outs :=
    .waits (hwaits.suspended hR hstocked hs hoffers hrule)
  have hrenews : Seq.Renews shown w v (.lazy c) outs := by
    refine ⟨_, found e form ends rule c outs, spares_harmless hR c outs, fun u hvu => ?_, ?_,
      h.offers hR (.here c outs) (hwaits.works.attached.trans hattached) hstocked hwv hstage⟩
    · obtain ⟨b, hwb, hbu, -⟩ := hvu.stage w hwv hstage
      exact hR.trans hwb hbu
    · rintro item u x ⟨b, hbu, -, hx⟩
      exact item.along hbu hx
  exact ⟨_, _, v, fun scope => comesTo_calls (happlies scope), hwv, rfl, hrenews.shows, hrenews⟩

end Transforms
end Evaluation
end LazyLisp
