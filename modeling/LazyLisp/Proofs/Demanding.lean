import LazyLisp.Proofs.Arithmetic
import LazyLisp.Proofs.Offering

/-!
Forms of the library's code that look at a collection, call a function that the library was given, or
make the next cell of a lazy sequence.
-/

namespace LazyLisp
set_option autoImplicit false

theorem Value.readable_of_toSeq? {c : Value} {s : Seq} (hs : c.toSeq? = some s) (id : ClosureId) :
    c ≠ .transformer id := by
  rintro rfl
  cases hs

namespace Item
variable {R : World → World → Prop}

/-- The value counts as this truth value. -/
def truth (b : Bool) : Item R := ⟨fun _ y => y.isTruthy = b, fun _ h => h⟩

end Item

/-- What a look at a sequence leaves. -/
structure Looked (R : World → World → Prop) (w v : World) : Prop extends Proceeds R w v where
  hides : ∀ id : FrameId, id < w.frames.size → w.Hides id → v.Hides id

namespace Looked
variable {R : World → World → Prop} {w v u : World}

theorem of_takes {s : Seq} {o : Option (Value × Seq)} (h : Seq.Takes w s o v) (hwv : R w v) :
    Looked R w v :=
  ⟨⟨hwv, h.kept⟩, fun _ => h.hides⟩

theorem of_idle (hR : Harmless R) (h : Idle w v) : Looked R w v :=
  ⟨.of_idle hR h, fun _ _ hhides => hhides.idle h⟩

theorem trans (hR : Harmless R) (h : Looked R w v) (h' : Looked R v u) : Looked R w u :=
  ⟨h.toProceeds.trans hR h'.toProceeds, fun id hid hhides =>
    h'.hides id (Nat.lt_of_lt_of_le hid h.kept.frames.grows) (h.hides id hid hhides)⟩

end Looked

/-- The bindings of a call of the library's function, if it has one clause. -/
def Library.Entry.bindings (e : Entry) (xs : List Value) : List (Symbol × Value) :=
  (e.fixed.head?.map (·.bindings xs)).getD []

namespace Evaluation
open Library

/-- From a state on, the function gives values that fit the one description for all values that fit
the other. -/
def Answers (R : World → World → Prop) (w : World) (f : Value) (a b : Item R) : Prop :=
  ∀ v, R w v → ∀ x, a.holds v x → ∃ y u,
    (∀ scope, ComesTo (calls scope f [x]) v (.ok y u)) ∧ R v u ∧ b.holds u y

/-- A call gives a collection. A walk of it finds these elements, and it can be given to the
library's functions in turn. -/
def Delivers (R : World → World → Prop) (ends : Bool) (w : World) (f : Value) (xs : List Value)
    (outs : List (Item R)) : Prop :=
  ∃ y t v, (∀ scope, ComesTo (calls scope f xs) w (.ok y v)) ∧ R w v ∧ y.toSeq? = some t ∧
    Seq.Shows ends w v t outs ∧ Seq.Renews ends w v t outs

/-- The form gives a value that fits a description, and nothing happens beyond the relation. -/
def Settles (R : World → World → Prop) (scope : Scope) (w : World) (form : Value) (b : Item R) :
    Prop :=
  Secures (values scope form) w fun y v => Proceeds R w v ∧ b.holds v y

/-- A cell of a call of the function has been made, which waits to evaluate the form. -/
structure Waits (e : Entry) (form : Value) (w v : World) (c : CellId) (xs : List Value) : Prop where
  works : Works w v
  fresh : w.cells.size ≤ c
  cell : ∃ id, v.closures[id]? = some e.closure ∧
    Suspends v c form [e.bindings xs, [(.plain e.name, .function id)]]

/-- Calls of the function with two arguments make cells that wait to evaluate the form. -/
def Defers (e : Entry) (form : Value) : Prop :=
  ∀ {w : World} {id : ClosureId} (x y : Value), w.closures[id]? = some e.closure →
    w.Stocked [.lazySeq] [.lazySeq] →
    ∃ c v, (∀ scope, ComesTo (applications scope (.function id) [x, y]) w
      (.ok (.value (.seq (.lazy c))) v)) ∧ Waits e form w v c [x, y]

variable {R : World → World → Prop} {w v u : World} {scope : Scope}
  {layers : List (List (Symbol × Value))} {form first arg c f x y : Value} {args xs : List Value}
  {ends : Bool} {s t : Seq} {a b : Item R} {items : List (Item R)} {name : NameId}

theorem Answers.along (hR : Harmless R) (h : Answers R w f a b) (hwv : R w v) : Answers R v f a b :=
  fun u hvu => h u (hR.trans hwv hvu)

theorem Waits.idle {e : Entry} {i : CellId} (h : Waits e form w v i xs) (hvu : Idle v u) :
    Waits e form w u i xs := by
  obtain ⟨id, hid, hcell⟩ := h.cell
  exact ⟨h.works.idle hvu, h.fresh, id, hvu.closures ▸ hid,
    hcell.kept (.of_idle hvu) (by rw [hvu.cells])⟩

theorem tellable_of_isCode (log : LogDomains) (h : form.isCode = true) : form.Tellable log :=
  .of_timeless (Value.timeless_of_isCode _ h)

/-- Only a value is what a call gives. -/
theorem comesTo_applications (h : ComesTo (calls scope f xs) w (.ok y v)) :
    ComesTo (applications scope f xs) w (.ok (.value y) v) := by
  refine (applications_continue scope f xs w).comesTo ?_
  obtain ⟨-, n, hn⟩ := h
  refine ⟨.ok _ v, n, fun m hm => ?_⟩
  obtain ⟨o, u, ho, hvalue⟩ := run_bind_eq_ok.1 (hn m hm)
  cases o with
  | value z =>
    cases hvalue
    exact ho
  | again ys => cases hvalue

/-- A call of a function of the library. -/
theorem entry_calls {e : Entry} {id : ClosureId} {clause : Clause} {Q : Value → World → Prop}
    (hid : w.closures[id]? = some e.closure) (hclause : e.closure.select? xs.length = some clause)
    (hbody : clause.body = [form])
    (hform : ∀ u frame, Idle w u →
      u.Layers (some frame) [clause.bindings xs, [(.plain e.name, .function id)]] →
      ∃ y v, ComesTo (values (some frame) form) u (.ok y v) ∧ Q y v) :
    ∃ y v, (∀ scope, ComesTo (calls scope (.function id) xs) w (.ok y v)) ∧ Q y v := by
  obtain ⟨u, frame, hwu, hlayers, happlies, -, -⟩ :=
    function_applies xs hid .outermost hclause hbody
  obtain ⟨y, v, hy, hQ⟩ := hform u frame hwu hlayers
  exact ⟨y, v, fun scope => (happlies y v (comesTo_outcome hy) scope).bind (.pure y v), hQ⟩

theorem settles_of_yields (hR : Harmless R) (h : Yields (values scope form) w y)
    (hy : b.holds w y) : Settles R scope w form b := by
  refine h.secures.weaken fun _ v hv => ?_
  obtain ⟨rfl, hwv⟩ := hv
  exact ⟨.of_idle hR hwv, b.along (hR.works (.of_idle hwv)) hy⟩

/-- A call of a built-in function whose arguments are known. -/
theorem builtin_secures {b : Builtin} {Q : Value → World → Prop} (h : Scene scope layers w)
    (hfree : meaningIn layers (.plain b.nameId) = none)
    (hargs : List.Forall₂ (fun form x => Yields (values scope form) w x) args xs)
    (hcode : Value.allCode args = true)
    (hcall : ∀ v, Idle w v → ∃ y u,
      ComesTo (fun n => Core.call (.ofBudget n) scope b xs) v (.ok y u) ∧ Q y u) :
    Secures (values scope (call b args)) w Q := by
  refine secures_call (Value.isList_list _) (tellable_of_isCode _ ((Value.isCode_list _).trans hcode))
    nofun (h.means_builtin b hfree).heads nofun (yields_mapM hargs).secures fun _ v hv => ?_
  obtain ⟨rfl, hwv⟩ := hv
  obtain ⟨y, u, hy, hQ⟩ := hcall v hwv
  exact ⟨y, u, (applications_continue scope _ _ v).comesTo (hy.bind (.pure _ u)), hQ⟩

/-- A use of `when` with a body of one form. -/
theorem when_secures {test body : Value} {Q Q' : Value → World → Prop} (h : Scene scope layers w)
    (hfree : meaningIn layers (.plain Entry.when.name) = none)
    (hvalue : ∀ id, test ≠ .transformer id) (hcode : Value.allCode [test, body] = true)
    (htest : Secures (values scope test) w Q)
    (hbody : ∀ y u, Q y u → Secures (values scope (if y.isTruthy then body else .nil)) u Q') :
    Secures (values scope (use .when [test, body])) w Q' := by
  simp only [Value.allCode_cons, Bool.and_eq_true] at hcode
  obtain ⟨htestCode, hbodyCode, -⟩ := hcode
  intro v hwv
  obtain ⟨y, u, z, hQ, huz, -, hcontinues⟩ := when_continues ((h.provides .when hfree).along hwv)
    (Value.isList_list _) hvalue (tellable_of_isCode _ htestCode) (tellable_of_isCode _ hbodyCode)
    (htest.along hwv)
  obtain ⟨x, t, hx, hQ'⟩ := hbody y u hQ z huz
  exact ⟨x, t, comesTo_value (hcontinues.comesTo (comesTo_outcome hx)), hQ'⟩

theorem nil_secures {Q : Value → World → Prop} (hQ : ∀ u, Idle w u → Q .nil u) :
    Secures (values scope .nil) w Q :=
  (constant_yields (fun _ _ => rfl) w scope).secures.weaken fun _ u hu => hu.1 ▸ hQ u hu.2

/-- The empty list stands for itself. -/
theorem empty_yields (w : World) (scope : Scope) : Yields (values scope (.list [])) w (.list []) := by
  refine fun v _ => ⟨v, comesTo_value ⟨.ok _ v, 2, fun m hm => ?_⟩, .refl v⟩
  obtain ⟨m, rfl⟩ := Nat.exists_eq_add_of_le' hm
  rfl

theorem Opens.layers_open {id : FrameId} (h : Opens w scope v id) (hlayers : w.Layers scope layers) :
    v.Layers (some id) ([] :: layers) :=
  .inside h.frame (fun p hp => Nat.lt_of_lt_of_le (hlayers.has p hp) h.fresh)
    (hlayers.keeps h.idle.frames)

theorem Opens.idle_bound {id : FrameId} (h : Opens w scope v id) (hvu : Idle v u) (s : Symbol)
    (x : Value) : Idle w (u.bound id s x) :=
  (h.idle.trans hvu).modifyFrame h.fresh _

/-- A binding of a value that is found without further effects. -/
theorem let_secures {body : Value} {Q : Value → World → Prop} (h : Scene scope layers w)
    (hcode : Value.allCode [form, body] = true)
    (hform : ∀ v id, Idle w v → v.Layers (some id) ([] :: layers) →
      Yields (values (some id) form) v x)
    (hbody : ∀ v id, Idle w v → v.Layers (some id) ([(.plain name, x)] :: layers) →
      Secures (values (some id) body) v Q) :
    Secures (values scope (.list [.special .letIn, .vector [word name, form], body])) w Q := by
  simp only [Value.allCode_cons, Bool.and_eq_true] at hcode
  obtain ⟨hformCode, hbodyCode, -⟩ := hcode
  intro v hwv
  have hlet : (Value.list [.special .letIn, .vector [word name, form], body]).isCode = true := by
    simp [hformCode, hbodyCode]
  obtain ⟨u, hvu, hcontinues⟩ :=
    let_continues (Value.isList_list _) (tellable_of_isCode v.log hlet) scope
  have hopens : Opens w scope { u with frames := u.frames.push { parent := scope } } u.frames.size :=
    ⟨(hwv.trans hvu).pushFrame _, (hwv.trans hvu).frames.grows, by simp⟩
  obtain ⟨z, hz, huz⟩ := hform _ _ hopens.idle (hopens.layers_open h.layers) _ (.refl _)
  obtain ⟨y, t, hy, hQ⟩ := hbody _ _ (hopens.idle_bound huz (.plain name) x)
    (hopens.layers_bound h.layers huz.frames (.plain name) x) _ (.refl _)
  have hbound : ComesTo (fun _ => Eval.push u.frames.size (.plain name) x) z
    (.ok ⟨⟩ (z.bound u.frames.size (.plain name) x)) := .always (.ok _ _) fun _ => rfl
  exact ⟨y, t, comesTo_value (hcontinues.comesTo (hz.bind (hbound.bind (comesTo_outcome hy)))), hQ⟩

/-! Counting down. -/

theorem positive_yields {k : Int64} (h : Scene scope layers w)
    (hfree : meaningIn layers (.plain Entry.isPositive.name) = none)
    (hname : meaningIn layers (.plain name) = some (.int k)) :
    Yields (values scope (use .isPositive [word name])) w (.bool (decide (0 < k.toInt))) :=
  isPositive_yields (h.stocked.subset (List.nil_subset _)
      (List.cons_subset.2 ⟨Builtin.mem_all .greater, List.nil_subset _⟩))
    (h.provides .isPositive hfree) ((h.means hname).yields nofun) rfl

/-- The number before a positive one. -/
theorem pred_fits {k : Int64} (hk : 0 < k.toInt) : Number.Fits (k.toInt - 1) := by
  obtain ⟨-, hmost⟩ := Number.toInt_fits k
  have hleast : Int64.minValue.toInt = -2 ^ 63 := rfl
  exact ⟨by omega, by omega⟩

theorem dec_yields {k : Int64} (h : Scene scope layers w)
    (hfree : meaningIn layers (.plain Builtin.dec.nameId) = none)
    (hname : meaningIn layers (.plain name) = some (.int k)) (hk : 0 < k.toInt) :
    Yields (values scope (call .dec [word name])) w (.int (.ofInt (k.toInt - 1))) := by
  refine call_yields (h.means_builtin .dec hfree) (.cons ((h.means hname).yields nofun) .nil) rfl
    fun v _ => ?_
  have hfits : ∀ p ∈ Builtin.dec.partials [k.toInt], Number.Fits p :=
    List.forall_mem_singleton.2 (pred_fits hk)
  have hcall : ∀ n, Core.call (.ofBudget n) scope .dec [.int k] v =
      .ok (.int (.ofInt (k.toInt - 1))) v := fun n =>
    (@Builtin.call_integers v (.ofBudget n) scope .dec (by decide) [k] rfl).trans (if_pos hfits)
  exact .always (.ok _ v) hcall

section
variable (hR : Harmless R) (h : Scene scope layers w)
include hR h

/-- Looking whether a collection has elements. -/
theorem seq_secures (hfree : meaningIn layers (.plain Builtin.seq.nameId) = none)
    (hname : meaningIn layers (.plain name) = some c) (hs : c.toSeq? = some s)
    (hoffers : Seq.Offers R ends items w s) (hknown : ends = true ∨ items ≠ []) :
    Secures (values scope (call .seq [word name])) w fun y v =>
      Looked R w v ∧ Seq.Faces R ends v s items y := by
  have hword := (h.means hname).yields (Value.readable_of_toSeq? hs)
  refine builtin_secures h hfree (.cons hword .nil) rfl fun v hwv => ?_
  obtain ⟨o, u, y, hlook, hvu, rfl, hfaces⟩ :=
    (hoffers.along hR (hR.works (.of_idle hwv))).faces hR hknown
  exact ⟨_, u, Core.call_seq_takes hs hlook, (Looked.of_idle hR hwv).trans hR (.of_takes hlook hvu), hfaces⟩

variable (hname : meaningIn layers (.plain name) = some c) (hs : c.toSeq? = some s)
  (hfront : Seq.Fronted R ends w s x t a items)
include hname hs hfront

/-- Looking whether there are more elements. -/
theorem next_secures (hfree : meaningIn layers (.plain Builtin.next.nameId) = none)
    (hknown : ends = true ∨ items ≠ []) :
    Secures (values scope (call .next [word name])) w fun y v =>
      Looked R w v ∧ Seq.Faces R ends v t items y := by
  have hword := (h.means hname).yields (Value.readable_of_toSeq? hs)
  refine builtin_secures h hfree (.cons hword .nil) rfl fun v hwv => ?_
  have hfront := hfront.along hR (hR.works (.of_idle hwv))
  obtain ⟨o, u, y, hlook, hvu, rfl, hfaces⟩ := hfront.more.faces hR hknown
  exact ⟨_, u, Core.call_next_takes hs hfront.look hlook,
    (Looked.of_idle hR hwv).trans hR (.of_takes hlook hvu), hfaces⟩

theorem front_yields (hfree : meaningIn layers (.plain Builtin.first.nameId) = none) :
    Yields (values scope (call .first [word name])) w x := by
  have hword := (h.means hname).yields (Value.readable_of_toSeq? hs)
  refine call_yields (h.means_builtin .first hfree) (.cons hword .nil) rfl fun v hwv => ?_
  exact Core.call_first_takes hs (hfront.along hR (hR.works (.of_idle hwv))).look

theorem behind_yields (hfree : meaningIn layers (.plain Builtin.rest.nameId) = none) :
    Yields (values scope (call .rest [word name])) w (.seq t) := by
  have hword := (h.means hname).yields (Value.readable_of_toSeq? hs)
  refine call_yields (h.means_builtin .rest hfree) (.cons hword .nil) rfl fun v hwv => ?_
  exact Core.call_rest_takes hs (hfront.along hR (hR.works (.of_idle hwv))).look

end

/-- Calling the function that a symbol means. -/
theorem answer_settles (hR : Harmless R) (h : Scene scope layers w)
    (hname : meaningIn layers (.plain name) = some f) (hf : ∀ id, f ≠ .transformer id)
    (harg : Yields (values scope arg) w x) (hcode : arg.isCode = true)
    (hx : a.holds w x) (hanswers : Answers R w f a b) :
    Settles R scope w (.list [word name, arg]) b := by
  refine secures_call (Value.isList_list _) (tellable_of_isCode _ (by simp [hcode])) nofun
    (h.means hname).heads hf (yields_mapM (.cons harg .nil)).secures fun _ v hv => ?_
  obtain ⟨rfl, hwv⟩ := hv
  have hworks := hR.works (.of_idle hwv)
  obtain ⟨y, u, hcalls, hvu, hy⟩ := hanswers v hworks x (a.along hworks hx)
  exact ⟨y, u, comesTo_applications (hcalls scope),
    (Proceeds.of_idle hR hwv).trans hR ⟨hvu, kept_of_calls (hcalls scope)⟩, hy⟩

section
variable {e : Entry} {id : ClosureId} {arg₁ arg₂ x₁ x₂ : Value}

/-- A further use of the function. -/
theorem again_secures (hdefers : Defers e form) (h : Scene scope layers w)
    (hself : meaningIn layers (.plain e.name) = some (.function id))
    (hid : w.closures[id]? = some e.closure)
    (harg₁ : Yields (values scope arg₁) w x₁) (harg₂ : Yields (values scope arg₂) w x₂)
    (hcode : Value.allCode [arg₁, arg₂] = true) :
    Secures (values scope (use e [arg₁, arg₂])) w fun y v => ∃ b c, Idle w b ∧
      y = .seq (.lazy c) ∧ Waits e form b v c [x₁, x₂] := by
  refine secures_call (Value.isList_list _) (tellable_of_isCode _ ((Value.isCode_list _).trans hcode))
    nofun (h.means hself).heads nofun (yields_mapM (.cons harg₁ (.cons harg₂ .nil))).secures
    fun _ v hv => ?_
  obtain ⟨rfl, hwv⟩ := hv
  have hstocked := (h.stocked.idle hwv).subset
    (List.cons_subset.2 ⟨Entry.mem_all .lazySeq, List.nil_subset _⟩)
    (List.cons_subset.2 ⟨Builtin.mem_all .lazySeq, List.nil_subset _⟩)
  obtain ⟨c, u, happlies, hwaits⟩ := hdefers x₁ x₂ (hwv.closures ▸ hid) hstocked
  exact ⟨_, u, happlies scope, v, c, hwv, rfl, hwaits⟩

/-- An element in front of a further use of the function. -/
theorem cons_secures (hR : Harmless R) (hdefers : Defers e form) (h : Scene scope layers w)
    (hfree : meaningIn layers (.plain Builtin.cons.nameId) = none)
    (hself : meaningIn layers (.plain e.name) = some (.function id))
    (hid : w.closures[id]? = some e.closure) (hfirst : Settles R scope w first a)
    (hargs : ∀ v, Proceeds R w v → Yields (values scope arg₁) v x₁ ∧ Yields (values scope arg₂) v x₂)
    (hcode : Value.allCode [first, arg₁, arg₂] = true) :
    Secures (values scope (call .cons [first, use e [arg₁, arg₂]])) w fun y v => ∃ b c x,
      Proceeds R w b ∧ y = .seq (.cons x (.lazy c)) ∧ a.holds b x ∧ Waits e form b v c [x₁, x₂] := by
  simp only [Value.allCode_cons, Bool.and_eq_true] at hcode
  obtain ⟨hcode, hcode₁, hcode₂, -⟩ := hcode
  have hagain : Value.allCode [first, use e [arg₁, arg₂]] = true := by
    simp [use, hcode, hcode₁, hcode₂]
  have hboth : Secures (fun n => [first, use e [arg₁, arg₂]].mapM ((Engine.ofBudget n).value scope)) w
      fun ys v => ∃ b c x, Proceeds R w b ∧ ys = [x, .seq (.lazy c)] ∧ a.holds b x ∧
        Waits e form b v c [x₁, x₂] := by
    refine secures_arg hfirst fun x v hv => ?_
    obtain ⟨hwv, hx⟩ := hv
    obtain ⟨harg₁, harg₂⟩ := hargs v hwv
    have hused := again_secures hdefers (h.proceeds hR hwv) hself (hwv.kept.closures _ _ hid) harg₁
      harg₂ (by simp [hcode₁, hcode₂])
    refine secures_arg hused fun y z hz => secures_no_arg fun z' hz' => ?_
    obtain ⟨b, c, hvb, rfl, hwaits⟩ := hz
    exact ⟨b, c, x, hwv.trans hR (.of_idle hR hvb), rfl, a.along (hR.works (.of_idle hvb)) hx,
      hwaits.idle hz'⟩
  refine secures_call (Value.isList_list _)
    (tellable_of_isCode _ ((Value.isCode_list _).trans hagain)) nofun
    (h.means_builtin .cons hfree).heads nofun hboth fun ys v hv => ?_
  obtain ⟨b, c, x, hwb, rfl, hx, hwaits⟩ := hv
  have hcons : ComesTo (fun n => Core.call (.ofBudget n) scope .cons [x, .seq (.lazy c)]) v
    (.ok (.seq (.cons x (.lazy c))) v) := Core.call_cons_comesTo rfl x v
  exact ⟨_, v, (applications_continue scope _ _ v).comesTo (hcons.bind (.pure _ v)), b, c, x, hwb,
    rfl, hx, hwaits⟩

end
end Evaluation
end LazyLisp
