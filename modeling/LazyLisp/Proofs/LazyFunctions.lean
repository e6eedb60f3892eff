import LazyLisp.Proofs.Deferring

/-!
The library's lazy functions `map`, `filter` and `take`: the forms that their cells wait to evaluate,
and what a look at a cell makes of the collection.
-/

namespace LazyLisp
set_option autoImplicit false

namespace Evaluation
open Library
variable {R : World → World → Prop} {e : Entry} {form f coll : Value} {ends shown : Bool} {w : World}
  {s : Seq} {items : List (Item R)}

/-- What the thunk of a cell of `map` evaluates. -/
def mapForm : Value := use .when [call .seq [word collName],
  call .cons [.list [word functionName, call .first [word collName]],
    use .map [word functionName, call .rest [word collName]]]]

/-- What the thunk of a cell of `filter` evaluates where an element has been bound. -/
def filterStep : Value := .list [.special .ifElse, .list [word predName, word itemName],
  call .cons [word itemName, use .filter [word predName, call .rest [word collName]]],
  use .filter [word predName, call .rest [word collName]]]

/-- What the thunk of a cell of `filter` evaluates. -/
def filterForm : Value := use .when [call .seq [word collName],
  .list [.special .letIn, .vector [word itemName, call .first [word collName]], filterStep]]

/-- What the thunk of a cell of `take` evaluates. -/
def takeForm : Value := use .when [use .isPositive [word countName],
  use .when [call .seq [word collName],
    call .cons [call .first [word collName],
      use .take [call .dec [word countName], call .rest [word collName]]]]]

/-- The function is called for each element and gives its image. -/
def mapRule {α : Type} (f : Value) (item image : α → Item R) : Rule R := fun w g items outs =>
  g = f ∧ ∃ xs : List α, items = xs.map item ∧ outs = xs.map image ∧
    ∀ x ∈ xs, Answers R w f (item x) (image x)

/-- The function is called for each element, which can be read, and says whether to keep it. -/
def filterRule {α : Type} (f : Value) (item : α → Item R) (keep : α → Bool) : Rule R :=
  fun w g items outs => g = f ∧ ∃ xs : List α, items = xs.map item ∧ outs = (xs.filter keep).map item ∧
    ∀ x ∈ xs, (item x).Readable ∧ Answers R w f (item x) (.truth (keep x))

/-- So many elements, if it is known that the collection ends or has that many. -/
def takeRule (R : World → World → Prop) (ends shown : Bool) : Rule R := fun _ g items outs =>
  ∃ k : Int64, g = .int k ∧ (shown = true → ends = true ∨ k.toInt.toNat ≤ items.length) ∧
    outs = items.take k.toInt.toNat

/-- The code of a function whose body is a use of `lazy-seq`. -/
theorem defers_of_code {clause : Clause} (hclause : e.closure.select? 2 = some clause)
    (hbody : clause.body = [use .lazySeq [form]]) (hcode : form.isCode = true)
    (hbindings : ∀ x y, clause.bindings [x, y] = e.bindings [x, y])
    (hfree : ∀ id x y, meaningIn (thunkLayers e id [x, y]) (.plain Entry.lazySeq.name) = none)
    (hbuiltin : ∀ id x y,
      meaningIn (thunkLayers e id [x, y]) (.plain Builtin.lazySeq.nameId) = none) :
    Defers e form := by
  intro w id x y hc hw
  obtain ⟨c, v, happlies, hworks, hfresh, hsuspends⟩ := entry_suspends e [x, y] hc hw hclause hbody
    hcode (by rw [hbindings]; exact hfree id x y) (by rw [hbindings]; exact hbuiltin id x y)
  rw [hbindings] at hsuspends
  exact ⟨c, v, happlies, hworks, hfresh, id, hworks.closures _ _ hc, hsuspends⟩

theorem map_defers : Defers .map mapForm :=
  defers_of_code rfl rfl rfl (fun _ _ => rfl) (fun _ _ _ => rfl) fun _ _ _ => rfl

theorem filter_defers : Defers .filter filterForm :=
  defers_of_code rfl rfl rfl (fun _ _ => rfl) (fun _ _ _ => rfl) fun _ _ _ => rfl

theorem take_defers : Defers .take takeForm :=
  defers_of_code rfl rfl rfl (fun _ _ => rfl) (fun _ _ _ => rfl) fun _ _ _ => rfl

section
variable (hR : Harmless R) {scope : Scope} {layers : List (List (Symbol × Value))} {x : Value}
  {t : Seq} {id : ClosureId} (hs : coll.toSeq? = some s)
include hR hs

/-- What is behind the first element is known without a further look. -/
theorem behind_stays {a : Item R} (hfront : s.Fronted R ends w x t a items)
    (hscene : Scene scope layers w) (hcoll : meaningIn layers (.plain collName) = some coll)
    (hfree : meaningIn layers (.plain Builtin.rest.nameId) = none) (v : World)
    (hwv : Proceeds R w v) : Yields (values scope (call .rest [word collName])) v (.seq t) :=
  behind_yields hR (hscene.proceeds hR hwv) hcoll hs (hfront.along hR hwv.along) hfree

theorem takeCons_gives {a : Item R} {k : Int64} (hk : 0 < k.toInt)
    (hfront : s.Fronted R ends w x t a items)
    (hscene : Scene scope (thunkLayers .take id [.int k, coll]) w)
    (hid : w.closures[id]? = some Entry.take.closure)
    (hlength : shown = true → ends = true ∨ k.toInt.toNat ≤ (a :: items).length) :
    Secures (values scope (call .cons [call .first [word collName],
        use .take [call .dec [word countName], call .rest [word collName]]])) w fun y v =>
      Product R .take takeForm ends (takeRule R ends shown) w v (a :: items)
        ((a :: items).take k.toInt.toNat) y := by
  have hfirst : Yields (values scope (call .first [word collName])) w x :=
    front_yields hR hscene rfl hs hfront rfl
  have hmore : ∀ v, Proceeds R w v →
      Yields (values scope (call .dec [word countName])) v (.int (.ofInt (k.toInt - 1))) ∧
      Yields (values scope (call .rest [word collName])) v (.seq t) := fun v hwv =>
    ⟨dec_yields (hscene.proceeds hR hwv) rfl rfl hk, behind_stays hR hs hfront hscene rfl rfl v hwv⟩
  refine (cons_secures hR take_defers hscene rfl rfl hid (settles_of_yields hR hfirst hfront.holds)
    hmore rfl).weaken fun y v hy => ?_
  obtain ⟨b, c, x, hwb, rfl, hx, hwaits⟩ := hy
  have hcount : k.toInt.toNat = (k.toInt - 1).toNat + 1 := by omega
  rw [hcount, List.length_cons] at hlength
  rw [hcount, List.take_succ_cons]
  refine .next hwb hx hwaits (hfront.more.along hR hwb.along) ⟨_, rfl, fun hshown => ?_, ?_⟩
  · rw [(pred_fits hk).toInt_ofInt]
    exact (hlength hshown).imp_right Nat.le_of_succ_le_succ
  · rw [(pred_fits hk).toInt_ofInt]

variable {α : Type} {item : α → Item R} {a : α} {xs : List α}
  (hfront : s.Fronted R ends w x t (item a) (xs.map item)) (hf : ∀ id, f ≠ .transformer id)
include hfront hf

theorem mapCons_gives {image : α → Item R}
    (hscene : Scene scope (thunkLayers .map id [f, coll]) w)
    (hid : w.closures[id]? = some Entry.map.closure)
    (hanswers : ∀ b ∈ a :: xs, Answers R w f (item b) (image b)) :
    Secures (values scope (call .cons [.list [word functionName, call .first [word collName]],
        use .map [word functionName, call .rest [word collName]]])) w fun y v =>
      Product R .map mapForm ends (mapRule f item image) w v (item a :: xs.map item)
        (image a :: xs.map image) y := by
  have hfirst : Yields (values scope (call .first [word collName])) w x :=
    front_yields hR hscene rfl hs hfront rfl
  have happlied : Settles R scope w (.list [word functionName, call .first [word collName]])
      (image a) :=
    answer_settles hR hscene rfl hf hfirst rfl hfront.holds (hanswers a List.mem_cons_self)
  have hmore : ∀ v, Proceeds R w v → Yields (values scope (word functionName)) v f ∧
      Yields (values scope (call .rest [word collName])) v (.seq t) := fun v hwv =>
    ⟨((hscene.proceeds hR hwv).means rfl).yields hf, behind_stays hR hs hfront hscene rfl rfl v hwv⟩
  refine (cons_secures hR map_defers hscene rfl rfl hid happlied hmore rfl).weaken fun y v hy => ?_
  obtain ⟨b, c, x, hwb, rfl, hx, hwaits⟩ := hy
  exact .next hwb hx hwaits (hfront.more.along hR hwb.along) ⟨rfl, xs, rfl, rfl, fun b hb =>
    (hanswers b (List.mem_cons_of_mem _ hb)).along hR hwb.along⟩

theorem filterStep_gives {keep : α → Bool}
    (hscene : Scene scope ([(.plain itemName, x)] :: thunkLayers .filter id [f, coll]) w)
    (hid : w.closures[id]? = some Entry.filter.closure)
    (hanswers : ∀ b ∈ a :: xs, (item b).Readable ∧ Answers R w f (item b) (.truth (keep b))) :
    Secures (values scope filterStep) w fun y v =>
      Product R .filter filterForm ends (filterRule f item keep) w v (item a :: xs.map item)
        (((a :: xs).filter keep).map item) y := by
  obtain ⟨hreadable, hanswer⟩ := hanswers a List.mem_cons_self
  have hitem : ∀ v, Proceeds R w v → Yields (values scope (word itemName)) v x := fun v hwv =>
    ((hscene.proceeds hR hwv).means rfl).yields (hreadable w x hfront.holds)
  have htest : Settles R scope w (.list [word predName, word itemName]) (.truth (keep a)) :=
    answer_settles hR hscene rfl hf (hitem w (.refl hR w)) rfl hfront.holds hanswer
  refine secures_if (Value.isList_list _) (tellable_of_isCode _ rfl) htest fun y v hy => ?_
  obtain ⟨hwv, htruth⟩ := hy
  have hscene := hscene.proceeds hR hwv
  have hfront := hfront.along hR hwv.along
  have hid := hwv.kept.closures _ _ hid
  have hpred : ∀ u, Proceeds R v u → Yields (values scope (word predName)) u f := fun u hvu =>
    ((hscene.proceeds hR hvu).means rfl).yields hf
  have hmore := behind_stays hR hs hfront hscene rfl rfl
  have hleft : ∀ u, Proceeds R v u →
      filterRule f item keep u f (xs.map item) ((xs.filter keep).map item) := fun u hvu =>
    ⟨rfl, xs, rfl, rfl, fun b hb => (hanswers b (List.mem_cons_of_mem _ hb)).imp_right fun h =>
      h.along hR (hR.trans hwv.along hvu.along)⟩
  rw [htruth]
  cases hkeep : keep a with
  | true =>
    rw [List.filter_cons_of_pos hkeep]
    refine (cons_secures hR filter_defers hscene rfl rfl hid
      (settles_of_yields hR (hitem v hwv) hfront.holds)
      (fun u hvu => ⟨hpred u hvu, hmore u hvu⟩) rfl).weaken fun y u hy => ?_
    obtain ⟨b, c, x, hvb, rfl, hx, hwaits⟩ := hy
    exact .next (hwv.trans hR hvb) hx hwaits (hfront.more.along hR hvb.along) (hleft b hvb)
  | false =>
    rw [List.filter_cons_of_neg (by simp [hkeep])]
    refine (again_secures filter_defers hscene rfl hid (hpred v (.refl hR v))
      (hmore v (.refl hR v)) rfl).weaken fun y u hy => ?_
    obtain ⟨b, c, hvb, rfl, hwaits⟩ := hy
    have hvb := Proceeds.of_idle hR hvb
    exact .pass (hwv.trans hR hvb) hwaits (hfront.more.along hR hvb.along) (hleft b hvb)

end

section
variable (hR : Harmless R) {α : Type} (item : α → Item R)
include hR

theorem map_transforms (hf : ∀ id, f ≠ .transformer id) (image : α → Item R) :
    Transforms R .map mapForm ends ends (mapRule f item image) where
  defers := map_defers
  along hwv := fun ⟨hg, xs, hitems, houts, hanswers⟩ =>
    ⟨hg, xs, hitems, houts, fun x hx => (hanswers x hx).along hR hwv⟩
  gives := by
    rintro w scope id f coll s _ _ ⟨rfl, xs, rfl, rfl, hanswers⟩ hs hoffers hknown hscene hid
    have hknown : ends = true ∨ xs.map item ≠ [] := hknown.imp_right fun h hxs => h (by
      rw [List.map_eq_nil_iff.1 hxs, List.map_nil])
    refine when_secures hscene rfl nofun rfl (seq_secures hR hscene rfl rfl hs hoffers hknown)
      fun y v hy => ?_
    obtain ⟨hlooked, hfaces⟩ := hy
    have hwv := hlooked.toProceeds
    cases xs with
    | nil =>
      cases hfaces
      exact nil_secures fun u hvu => .none (hwv.trans hR (.of_idle hR hvu))
    | cons x xs =>
      cases hfaces with
      | some hfront =>
        exact (mapCons_gives hR hs hfront hf (hscene.proceeds hR hwv) (hwv.kept.closures _ _ hid)
          fun b hb => (hanswers b hb).along hR hwv.along).weaken fun y u hy => hy.after hR hwv

theorem filter_transforms (hf : ∀ id, f ≠ .transformer id) (keep : α → Bool) :
    Transforms R .filter filterForm ends ends (filterRule f item keep) where
  defers := filter_defers
  along hwv := fun ⟨hg, xs, hitems, houts, hanswers⟩ =>
    ⟨hg, xs, hitems, houts, fun x hx => (hanswers x hx).imp_right fun h => h.along hR hwv⟩
  gives := by
    rintro w scope id f coll s _ _ ⟨rfl, xs, rfl, rfl, hanswers⟩ hs hoffers hknown hscene hid
    have hknown : ends = true ∨ xs.map item ≠ [] := hknown.imp_right fun h hxs => h (by
      rw [List.map_eq_nil_iff.1 hxs, List.filter_nil, List.map_nil])
    refine when_secures hscene rfl nofun rfl (seq_secures hR hscene rfl rfl hs hoffers hknown)
      fun y v hy => ?_
    obtain ⟨hlooked, hfaces⟩ := hy
    have hwv := hlooked.toProceeds
    cases xs with
    | nil =>
      cases hfaces
      exact nil_secures fun u hvu => .none (hwv.trans hR (.of_idle hR hvu))
    | cons a xs =>
      cases hfaces with
      | @some x t _ _ hfront =>
        have hscene := hscene.proceeds hR hwv
        have hfirst : ∀ u frame, Idle v u →
            u.Layers (some frame) ([] :: thunkLayers .filter id [f, coll]) →
            Yields (values (some frame) (call .first [word collName])) u x :=
          fun u frame hvu hlayers => front_yields hR (hscene.within hvu hlayers) rfl hs
            (hfront.along hR (hR.works (.of_idle hvu))) rfl
        refine let_secures hscene rfl hfirst fun u frame hvu hlayers => ?_
        have hwu := hwv.trans hR (.of_idle hR hvu)
        exact (filterStep_gives hR hs (hfront.along hR (hR.works (.of_idle hvu))) hf
          (hscene.within hvu hlayers) (hwu.kept.closures _ _ hid)
          fun b hb => (hanswers b hb).imp_right fun h => h.along hR hwu.along).weaken
            fun y z hy => hy.after hR hwu

end

theorem take_transforms (hR : Harmless R) :
    Transforms R .take takeForm ends shown (takeRule R ends shown) where
  defers := take_defers
  along _ := id
  gives := by
    rintro w scope id _ coll s items outs ⟨k, rfl, hlength, rfl⟩ hs hoffers hknown hscene hid
    refine when_secures hscene rfl nofun rfl (positive_yields hscene rfl rfl).secures
      fun y v hy => ?_
    obtain ⟨rfl, hwv⟩ := hy
    have hscene := hscene.idle hwv
    have hwv := Proceeds.of_idle hR hwv
    by_cases hk : 0 < k.toInt
    · rw [decide_eq_true hk]
      have hknown : ends = true ∨ items ≠ [] := by
        rcases hknown with hshown | houts
        · refine (hlength hshown).imp_right fun hlength => ?_
          rintro rfl
          simp only [List.length_nil] at hlength
          omega
        · refine .inr fun hitems => houts ?_
          rw [hitems, List.take_nil]
      refine when_secures hscene rfl nofun rfl (seq_secures hR hscene rfl rfl hs
        (hoffers.along hR hwv.along) hknown) fun y u hy => ?_
      obtain ⟨hlooked, hfaces⟩ := hy
      have hwu := hwv.trans hR hlooked.toProceeds
      cases hfaces with
      | none =>
        rw [List.take_nil]
        exact nil_secures fun z huz => .none (hwu.trans hR (.of_idle hR huz))
      | some hfront =>
        exact (takeCons_gives hR hs hk hfront (hscene.proceeds hR hlooked.toProceeds)
          (hwu.kept.closures _ _ hid) hlength).weaken fun y z hy => hy.after hR hwu
    · rw [decide_eq_false hk, Int.toNat_of_nonpos (Int.not_lt.1 hk)]
      exact nil_secures fun u hvu => .none (hwv.trans hR (.of_idle hR hvu))

end Evaluation
end LazyLisp
