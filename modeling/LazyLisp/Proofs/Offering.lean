import LazyLisp.Proofs.Concatenation
import LazyLisp.Proofs.Hiding

/-!
Collections as the library's functions meet them. Between two looks at a collection the library does
work of its own and calls the functions that it was given, so what is known of a collection has to
survive these. Its elements are described, for the thunks that make them may make new closures or
cells each time.
-/

namespace LazyLisp
set_option autoImplicit false

/-- Foreign code may do as it likes along this relation: what it looks at and calls goes on as long
as the library does no more than its own work, the library's names keep their meaning, and finished
cells stay as they are. -/
structure Harmless (R : World → World → Prop) : Prop where
  refl : ∀ w, R w w
  trans : ∀ {w v u : World}, R w v → R v u → R w u
  works : ∀ {w v : World}, Works w v → R w v
  stocked : ∀ {w v : World}, R w v → w.Stocked Library.Entry.all Builtin.all →
    v.Stocked Library.Entry.all Builtin.all
  realized : ∀ {w v : World}, R w v → ∀ (c : CellId) (s : Seq),
    w.cells[c]? = some (.realized s) → v.cells[c]? = some (.realized s)

theorem works_harmless : Harmless Works :=
  ⟨.refl, .trans, id, fun h => h.stocked, fun h => h.realized⟩

/-- A description of a value that stays true along a relation. -/
structure Item (R : World → World → Prop) where
  holds : World → Value → Prop
  along : ∀ {w v : World} {x : Value}, R w v → holds w x → holds v x

namespace Item
variable {R : World → World → Prop}

/-- The value itself. -/
def exactly (x : Value) : Item R := ⟨fun _ y => y = x, fun _ h => h⟩

/-- The value is no macro: as the value of a symbol it can be read. -/
def Readable (a : Item R) : Prop := ∀ w x, a.holds w x → ∀ id, x ≠ .transformer id

/-- The values fit the descriptions, one by one. -/
def AllHold (w : World) (items : List (Item R)) (xs : List Value) : Prop :=
  List.Forall₂ (fun a x => a.holds w x) items xs

theorem allHold_exactly (w : World) (xs ys : List Value) :
    AllHold w (xs.map (Item.exactly (R := R))) ys ↔ ys = xs := by
  rw [AllHold, List.forall₂_map_left_iff]
  constructor
  · intro h
    induction h with
    | nil => rfl
    | cons hx _ ih => exact congrArg₂ List.cons hx ih
  · rintro rfl
    exact List.forall₂_same.2 fun _ _ => rfl

end Item

namespace Seq

/-- Looks at the sequence find values that fit the descriptions, in order, each after any change
along the relation. If it is to end there, the look behind them finds that it does; otherwise
nothing is known of this look. -/
def Offers (R : World → World → Prop) (ends : Bool) : List (Item R) → World → Seq → Prop
  | [], w, s => ends = true → ∀ v, R w v → ∃ u, Takes v s none u ∧ R v u
  | a :: items, w, s => ∀ v, R w v → ∃ x t u, Takes v s (some (x, t)) u ∧ R v u ∧ a.holds u x ∧
      Offers R ends items u t

/-- A walk to the end, or a walk that may be left off anywhere. -/
def Visits (ends : Bool) (w : World) (s : Seq) (xs : List Value) (v : World) : Prop :=
  if ends then Walks w s xs v else Begins w s xs v

/-- From a state, a walk of the sequence finds values that fit the descriptions, and it goes no
further from an earlier state than the relation allows. -/
def Shows {R : World → World → Prop} (ends : Bool) (w v : World) (s : Seq)
    (items : List (Item R)) : Prop :=
  ∃ xs u, Visits ends v s xs u ∧ R w u ∧ Item.AllHold u items xs

/-- The library can look at the sequence as it looks at one that it was given. The looks and what it
may do between them go no further from an earlier state than the relation allows. -/
def Renews {R : World → World → Prop} (ends : Bool) (w v : World) (s : Seq)
    (items : List (Item R)) : Prop :=
  ∃ (R' : World → World → Prop) (again : Item R → Item R'), Harmless R' ∧
    (∀ u, R' v u → R w u) ∧ (∀ a u x, (again a).holds u x → a.holds u x) ∧
    Offers R' ends (items.map again) v s

/-- The first element has been looked at. -/
structure Fronted (R : World → World → Prop) (ends : Bool) (w : World) (s : Seq) (x : Value)
    (t : Seq) (a : Item R) (items : List (Item R)) : Prop where
  look : Takes w s (some (x, t)) w
  holds : a.holds w x
  more : Offers R ends items w t

/-- What `seq` makes of a sequence that has been looked at. -/
inductive Faces (R : World → World → Prop) (ends : Bool) (w : World) (s : Seq) :
    List (Item R) → Value → Prop
  | none : Faces R ends w s [] .nil
  | some {x : Value} {t : Seq} {a : Item R} {items : List (Item R)}
      (h : Fronted R ends w s x t a items) : Faces R ends w s (a :: items) (.seq s)

variable {R : World → World → Prop} {ends : Bool} {w v u : World} {s t : Seq} {x : Value}
  {a : Item R} {items : List (Item R)} {xs : List Value}

section
variable (hR : Harmless R)
include hR

theorem Takes.stays {o : Option (Value × Seq)} (h : Takes w s o v) (hvu : R v u) : Takes u s o u :=
  h.still (hR.realized hvu)

theorem Offers.along (h : Offers R ends items w s) (hwv : R w v) : Offers R ends items v s := by
  cases items with
  | nil => exact fun hends u hvu => h hends u (hR.trans hwv hvu)
  | cons a items => exact fun u hvu => h u (hR.trans hwv hvu)

theorem Fronted.along (h : Fronted R ends w s x t a items) (hwv : R w v) :
    Fronted R ends v s x t a items :=
  ⟨h.look.stays hR hwv, a.along hwv h.holds, h.more.along hR hwv⟩

theorem Fronted.offers (h : Fronted R ends w s x t a items) : Offers R ends (a :: items) w s := by
  intro v hwv
  have h := h.along hR hwv
  exact ⟨x, t, v, h.look, hR.refl v, h.holds, h.more⟩

theorem offers_empty (w : World) : Offers R ends [] w .empty :=
  fun _ v _ => ⟨v, .empty v, hR.refl v⟩

theorem Faces.along {y : Value} (h : Faces R ends w s items y) (hwv : R w v) :
    Faces R ends v s items y := by
  cases h with
  | none => exact .none
  | some h => exact .some (h.along hR hwv)

/-- A look at the front, where something is known of it. -/
theorem Offers.faces (h : Offers R ends items w s) (hknown : ends = true ∨ items ≠ []) :
    ∃ o u y, Takes w s o u ∧ R w u ∧ (if o.isNone then .nil else .seq s) = y ∧
      Faces R ends u s items y := by
  cases items with
  | nil =>
    obtain ⟨u, hlook, hwu⟩ := h (hknown.resolve_right (· rfl)) w (hR.refl w)
    exact ⟨none, u, .nil, hlook, hwu, rfl, .none⟩
  | cons a items =>
    obtain ⟨x, t, u, hlook, hwu, hx, hmore⟩ := h w (hR.refl w)
    exact ⟨some (x, t), u, .seq s, hlook, hwu, rfl, .some ⟨hlook.stays hR (hR.refl u), hx, hmore⟩⟩

/-- Walking a sequence that offers elements. -/
theorem Offers.shows (h : Offers R ends items w s) (hwv : R w v) : Shows ends w v s items := by
  induction items generalizing w v s with
  | nil =>
    cases ends with
    | false => exact ⟨[], v, .nil v s, hwv, .nil⟩
    | true =>
      obtain ⟨u, hlook, hvu⟩ := h rfl v hwv
      exact ⟨[], u, .nil hlook, hR.trans hwv hvu, .nil⟩
  | cons a items ih =>
    obtain ⟨x, t, u, hlook, hvu, hx, hmore⟩ := h v hwv
    obtain ⟨xs, z, hvisits, huz, hxs⟩ := ih hmore (hR.refl u)
    refine ⟨x :: xs, z, ?_, hR.trans hwv (hR.trans hvu huz), .cons (a.along huz hx) hxs⟩
    cases ends with
    | false => exact .cons hlook hvisits
    | true => exact .cons hlook hvisits

theorem Offers.renews (h : Offers R ends items v s) (hwv : R w v) : Renews ends w v s items :=
  ⟨R, id, hR, fun _ => hR.trans hwv, fun _ _ _ => id, by rwa [List.map_id]⟩

/-- A sequence that has been walked to its end goes on offering its elements. -/
theorem Holds.offers (h : Holds w s xs) (hxs : Item.AllHold w items xs) :
    Offers R true items w s := by
  induction hxs generalizing s with
  | nil =>
    cases h with
    | nil hlook => exact fun _ v hwv => ⟨v, hlook.stays hR hwv, hR.refl v⟩
  | cons hx _ ih =>
    cases h with
    | cons hlook ht =>
      intro v hwv
      exact ⟨_, _, v, hlook.stays hR hwv, hR.refl v, Item.along _ hwv hx, (ih ht).along hR hwv⟩

end

/-- Walking a sequence that can be looked at again. -/
theorem Renews.shows (h : Renews ends w v s items) : Shows ends w v s items := by
  obtain ⟨R', again, hR', hback, hholds, hoffers⟩ := h
  obtain ⟨xs, u, hvisits, hvu, hxs⟩ := hoffers.shows hR' (hR'.refl v)
  exact ⟨xs, u, hvisits, hback u hvu, (List.forall₂_map_left_iff.1 hxs).imp fun a x => hholds a u x⟩

theorem Faces.readable {y : Value} (h : Faces R ends w s items y) (id : ClosureId) :
    y ≠ .transformer id := by
  cases h <;> exact nofun

end Seq

/-! Scenes. -/

/-- The relation, and what every computation keeps. -/
structure Proceeds (R : World → World → Prop) (w v : World) : Prop where
  along : R w v
  kept : Kept w v

/-- Where code of the library runs: in a scope with these layers, in a state that knows all of the
library and can run thunks. -/
structure Scene (scope : Scope) (layers : List (List (Symbol × Value))) (w : World) : Prop where
  layers : w.Layers scope layers
  stocked : w.Stocked Library.Entry.all Builtin.all
  attached : w.attached = true

section
variable {R : World → World → Prop} {w v u : World}

namespace Proceeds

theorem refl (hR : Harmless R) (w : World) : Proceeds R w w := ⟨hR.refl w, .refl w⟩

theorem trans (hR : Harmless R) (h : Proceeds R w v) (h' : Proceeds R v u) : Proceeds R w u :=
  ⟨hR.trans h.along h'.along, h.kept.trans h'.kept⟩

theorem of_idle (hR : Harmless R) (h : Idle w v) : Proceeds R w v :=
  ⟨hR.works (.of_idle h), .of_idle h⟩

end Proceeds

namespace Scene
variable {scope : Scope} {layers : List (List (Symbol × Value))}

theorem idle (h : Scene scope layers w) (hwv : Idle w v) : Scene scope layers v :=
  ⟨h.layers.keeps hwv.frames, h.stocked.idle hwv, hwv.attached.trans h.attached⟩

/-- Another scope. -/
theorem within (h : Scene scope layers w) (hwv : Idle w v) {inner : Scope}
    {layers' : List (List (Symbol × Value))} (hlayers : v.Layers inner layers') :
    Scene inner layers' v :=
  ⟨hlayers, h.stocked.idle hwv, hwv.attached.trans h.attached⟩

theorem proceeds (hR : Harmless R) (h : Scene scope layers w) (hwv : Proceeds R w v) :
    Scene scope layers v :=
  ⟨h.layers.keeps hwv.kept.frames, hR.stocked hwv.along h.stocked,
    hwv.kept.attached.trans h.attached⟩

theorem means (h : Scene scope layers w) {name : NameId} {x : Value}
    (hx : meaningIn layers (.plain name) = some x) : w.Means scope name x :=
  h.layers.means hx

theorem means_builtin (h : Scene scope layers w) (b : Builtin)
    (hfree : meaningIn layers (.plain b.nameId) = none) : w.Means scope b.nameId (.builtin b) :=
  h.stocked.means_builtin h.layers b b.mem_all hfree

theorem provides (h : Scene scope layers w) (e : Library.Entry)
    (hfree : meaningIn layers (.plain e.name) = none) : w.Provides scope e :=
  h.stocked.provides h.layers e e.mem_all hfree

end Scene
end
end LazyLisp
