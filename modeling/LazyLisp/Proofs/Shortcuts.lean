import LazyLisp.Proofs.Booting
import LazyLisp.Proofs.Unfolding

/-!
The macros that stop early. `and` and `or` evaluate one form after the other, each in a frame of its
own that then binds its value, until a value settles the result; `cond` evaluates one test after the
other. An expansion takes care of one clause and leaves the others to a further use of the macro, so
the descriptions follow the list of clauses.
-/

namespace LazyLisp
set_option autoImplicit false

namespace Evaluation
open Library

/-- From a state on, every symbol but one means in one scope what it means in another. -/
def Agrees (s : Symbol) (w : World) (inner outer : Scope) : Prop :=
  ∀ v, KeepsFrames w v → ∀ t, t ≠ s → v.resolve? inner t = v.resolve? outer t

theorem Agrees.of_layers {s : Symbol} {w : World} {inner outer : Scope}
    {layers : List (List (Symbol × Value))} (bindings : List (Symbol × Value))
    (hbindings : ∀ t, t ≠ s → newest bindings t = none) (hinner : w.Layers inner (bindings :: layers))
    (houter : w.Layers outer layers) : Agrees s w inner outer := by
  intro v hwv t ht
  have hlookup : v.lookupScope? inner t = v.lookupScope? outer t := by
    rw [(hinner.keeps hwv).lookupScope?, (houter.keeps hwv).lookupScope?, meaningIn, hbindings t ht,
      Option.none_or]
  rw [World.resolve?, hlookup]
  rfl

namespace Opens
variable {w v u : World} {scope : Scope} {id : FrameId} {layers : List (List (Symbol × Value))}

theorem agrees (h : Opens w scope v id) (hlayers : w.Layers scope layers) (s : Symbol) :
    Agrees s v (some id) scope := by
  refine .of_layers [] (fun _ _ => rfl) ?_ (hlayers.keeps h.idle.frames)
  exact .inside h.frame (fun p hp => Nat.lt_of_lt_of_le (hlayers.has p hp) h.fresh)
    (hlayers.keeps h.idle.frames)

theorem agrees_bound (h : Opens w scope v id) (hlayers : w.Layers scope layers)
    (hvu : KeepsFrames v u) (s : Symbol) (x : Value) :
    Agrees s (u.bound id s x) (some id) scope := by
  refine .of_layers [(s, x)] (fun t ht => ?_) (h.layers_bound hlayers hvu s x)
    (hlayers.keeps (h.keepsFrames_bound hvu s x))
  have hother : (s == t) = false := by simpa using ht.symm
  simp [newest, hother]

end Opens

/-- The computation reads a value that has been bound, and goes on. A macro cannot be read: it has
no value as a symbol. -/
def ReadsBack (c : Nat → Eval Outcome) (w : World) (x : Value) (v : World) (goes : Prop) : Prop :=
  match x with
  | .transformer id => ComesTo c w (macroAsValue id v)
  | _ => goes

/-- From a state, the computation evaluates forms from the left, each but the last in a new frame
that then binds its value to the fresh symbol, so that no other symbol has another meaning for it or
for the forms behind it. It is done at the first value that stops it, and the
last form takes its place. An error of a form is the result. Once a value lets it go on, the names
must still have their meaning. -/
def ShortCircuits (fresh : NameId) (stops : Value → Bool) (absent : Value) (knows : World → Prop) :
    World → Scope → List Value → (Nat → Eval Outcome) → Prop
  | w, _, [], c => ∃ v, Idle w v ∧ ComesTo c w (.ok (.value absent) v)
  | w, scope, [form], c => ∃ v, Idle w v ∧ Continues c w (outcomes scope form) v
  | w, scope, form :: next :: rest, c => ∃ v id, Opens w scope v id ∧
      Agrees (.plain fresh) v (some id) scope ∧
      (∀ r, ComesTo c w r → ∃ r', ComesTo (values (some id) form) v r') ∧
      (∀ s u, ComesTo (values (some id) form) v (.error s u) → ComesTo c w (.error s u)) ∧
      ∀ x u, ComesTo (values (some id) form) v (.ok x u) →
        ∃ z, Idle (u.bound id (.plain fresh) x) z ∧ Agrees (.plain fresh) z (some id) scope ∧
          ReadsBack c w x z
          (if stops x then ComesTo c w (.ok (.value x) z)
          else knows u → ∃ d, Continues c w d z ∧
            ShortCircuits fresh stops absent knows z (some id) (next :: rest) d)

/-- From a state, the computation evaluates the tests of the clauses in order, and then the form of
the first true one. Without a true test the result is `nil`. An error of a test is the result. Once
a test has been false, the names must still have their meaning. -/
def Chooses (knows : World → Prop) :
    World → Scope → List (Value × Value) → (Nat → Eval Outcome) → Prop
  | w, _, [], c => ∃ v, Idle w v ∧ ComesTo c w (.ok (.value .nil) v)
  | w, scope, (test, form) :: more, c => ∃ v, Idle w v ∧
      (∀ r, ComesTo c w r → ∃ r', ComesTo (values scope test) v r') ∧
      (∀ s u, ComesTo (values scope test) v (.error s u) → ComesTo c w (.error s u)) ∧
      ∀ x u, ComesTo (values scope test) v (.ok x u) →
        if x.isTruthy then Continues c w (outcomes scope form) u
        else knows u → ∃ d, Continues c w d u ∧ Chooses knows u scope more d

variable {w v u : World} {scope : Scope} {form test a b x : Value} {fresh : NameId}
  {layers : List (List (Symbol × Value))}

theorem comesTo_error_of_bind {α : Type} {f : Nat → Value → Eval α} {s : Stop}
    (h : ComesTo (values scope form) w (.error s v)) :
    ComesTo (fun n => values scope form n >>= f n) w (.error s v) := by
  cases s with
  | error err => exact h.bind_error
  | exhausted => exact absurd rfl (h.1 v)

theorem macro_unreadable {m : ClosureId} (h : w.Means scope fresh (.transformer m)) :
    ∃ err, macroAsValue m w = .error (.error err) w ∧
      ComesTo (values scope (word fresh)) w (.error (.error err) w) := by
  refine ⟨_, rfl, comesTo_value_error ⟨.error _ w, 1, fun n hn => ?_⟩⟩
  obtain ⟨n, rfl⟩ := Nat.exists_eq_add_of_le' hn
  show evaluateSymbol scope (.plain fresh) false w = _
  rw [evaluateSymbol, run_bind_ok (run_get w), h w (.refl w)]
  rfl

/-- The form that binds a value and branches on it opens a frame, evaluates there, binds, and goes
on as one of its branches. -/
theorem branching_continues (hlayers : w.Layers scope layers) (hform : form.Tellable w.log)
    (ha : a.Tellable w.log) (hb : b.Tellable w.log) :
    ∃ v id, Opens w scope v id ∧
      (∀ r, ComesTo (outcomes scope (branching fresh form [a, b])) w r →
        ∃ r', ComesTo (values (some id) form) v r') ∧
      (∀ s u, ComesTo (values (some id) form) v (.error s u) →
        ComesTo (outcomes scope (branching fresh form [a, b])) w (.error s u)) ∧
      ∀ x u, ComesTo (values (some id) form) v (.ok x u) →
        ∃ z, Idle (u.bound id (.plain fresh) x) z ∧
          ReadsBack (outcomes scope (branching fresh form [a, b])) w x z
            (Continues (outcomes scope (branching fresh form [a, b])) w
                (outcomes (some id) (if x.isTruthy then a else b)) z ∧
              ComesTo (outcomes (some id) (word fresh)) z (.ok (.value x) z)) := by
  have hbranches : ∀ branch ∈ [a, b], branch.Tellable w.log := by simp [ha, hb]
  have hlet : (branching fresh form [a, b]).IsList [.special .letIn,
      .vector [.symbol (.plain fresh), form],
      .spliced [[.special .ifElse], [word fresh], [a], [b]]] := Value.isList_spliced _
  have hif : (Value.spliced [[.special .ifElse], [word fresh], [a], [b]]).IsList
      [.special .ifElse, word fresh, a, b] := Value.isList_spliced _
  obtain ⟨y, hwy, hcontinues⟩ := let_continues hlet (branching_tellable hform hbranches) scope
  have hopens : Opens w scope { y with frames := y.frames.push { parent := scope } }
      y.frames.size := ⟨hwy.pushFrame _, hwy.frames.grows, by simp⟩
  refine ⟨_, _, hopens, fun r hr => (persists_values _ form).ends ((hcontinues r).1 hr),
    fun s u h => hcontinues.comesTo (comesTo_error_of_bind h), fun x u hx => ?_⟩
  have hlog : (u.bound y.frames.size (.plain fresh) x).log = w.log :=
    (log_of_values hx).trans hwy.log
  have hiftell : (Value.spliced [[.special .ifElse], [word fresh], [a], [b]]).Tellable
      (u.bound y.frames.size (.plain fresh) x).log := by
    rw [hlog]
    refine .isList hif ?_
    simp [Value.Tellable.special, Value.Tellable.word, ha, hb]
  have hbound : Continues (outcomes scope (branching fresh form [a, b])) w
      (outcomes (some y.frames.size) (.spliced [[.special .ifElse], [word fresh], [a], [b]]))
      (u.bound y.frames.size (.plain fresh) x) :=
    hcontinues.trans ((Continues.bind hx).trans (.of_eq ⟨0, fun _ _ => rfl⟩))
  have hmeans : (u.bound y.frames.size (.plain fresh) x).Means (some y.frames.size) fresh x :=
    (hopens.layers_bound hlayers (frames_of_values hx) (.plain fresh) x).means
      (by simp [meaningIn, newest])
  cases x with
  | transformer m =>
    obtain ⟨z, hz, hspecial⟩ := special_continues hif hiftell (some y.frames.size)
    obtain ⟨err, hkind, hread⟩ := macro_unreadable (hmeans.along hz)
    refine ⟨z, hz, ?_⟩
    rw [ReadsBack, hkind]
    exact hbound.comesTo (hspecial.comesTo (comesTo_error_of_bind hread))
  | _ =>
    obtain ⟨_, z, ⟨rfl, hz⟩, -, hbranch⟩ := if_continues hif hiftell
      (hmeans.yields (by rintro _ ⟨⟩)).secures
    exact ⟨z, hz, hbound.trans hbranch, (hmeans.along hz).comesTo (by rintro _ ⟨⟩)⟩

theorem ReadsBack.imp {c d : Nat → Eval Outcome} {goes goes' : Prop} {z : World}
    (h : ReadsBack d v x z goes) (hc : Continues c w d v) (hgoes : goes → goes') :
    ReadsBack c w x z goes' := by
  cases x with
  | transformer id => exact hc.comesTo h
  | _ => exact hgoes h

theorem ShortCircuits.of_continues {stops : Value → Bool} {absent : Value} {knows : World → Prop}
    {forms : List Value} {c d : Nat → Eval Outcome} (hwv : Idle w v) (hc : Continues c w d v)
    (h : ShortCircuits fresh stops absent knows v scope forms d) :
    ShortCircuits fresh stops absent knows w scope forms c := by
  match forms with
  | [] =>
    obtain ⟨z, hz, hd⟩ := h
    exact ⟨z, hwv.trans hz, hc.comesTo hd⟩
  | [form] =>
    obtain ⟨z, hz, hd⟩ := h
    exact ⟨z, hwv.trans hz, hc.trans hd⟩
  | form :: next :: rest =>
    obtain ⟨z, id, hopens, hagrees, hends, herror, hvalue⟩ := h
    refine ⟨z, id, hopens.later hwv, hagrees, fun r hr => hends r ((hc r).1 hr),
      fun s u hu => hc.comesTo (herror s u hu), fun x u hx => ?_⟩
    obtain ⟨y, hy, hagrees, hreads⟩ := hvalue x u hx
    refine ⟨y, hy, hagrees, hreads.imp hc fun hgoes => ?_⟩
    cases hstops : stops x with
    | true =>
      rw [hstops] at hgoes
      exact hc.comesTo hgoes
    | false =>
      rw [hstops] at hgoes
      intro hknows
      obtain ⟨e, he, hmore⟩ := hgoes hknows
      exact ⟨e, hc.trans he, hmore⟩

theorem stocked_bound {entries : List Entry} {builtins : List Builtin}
    (h : u.Stocked entries builtins) (id : FrameId) (s : Symbol) (x : Value) :
    (u.bound id s x).Stocked entries builtins :=
  h.along (fun _ _ h => h) fun _ _ h => h

section
variable {e : Entry} {stops : Value → Bool} {absent : Value} {entries : List Entry}
  {builtins : List Builtin} (expansion : List Value → Value)

/-- A macro whose expansion binds the first form and, as its value says, gives it back or leaves the
others to a further use. -/
theorem use_short_circuits (hkind : e.isMacro = true) (hmem : e ∈ entries)
    (hfresh : (Symbol.plain fresh == Symbol.plain e.name) = false)
    (hexpands : ∀ (w : World) (id : ClosureId) (forms : List Value),
      w.closures[id]? = some e.closure → w.Stocked entries builtins →
      (∀ form ∈ forms, form.Tellable w.log) →
      Yields (fun n => expand (.ofBudget n) id forms) w (expansion forms))
    (hnone : ∀ w scope, Yields (values scope (expansion [])) w absent)
    (hone : ∀ form, expansion [form] = form)
    (hmore : ∀ form next rest, ∃ a b, expansion (form :: next :: rest) = branching fresh form [a, b] ∧
      ∀ x : Value, (if x.isTruthy then a else b) =
        if stops x then word fresh else .spliced [[word e.name], next :: rest])
    {forms : List Value} (hlayers : w.Layers scope layers)
    (hfree : meaningIn layers (.plain e.name) = none) (hw : w.Stocked entries builtins)
    (hform : form.IsList (word e.name :: forms)) (htell : ∀ form ∈ forms, form.Tellable w.log) :
    ShortCircuits fresh stops absent (·.Stocked entries builtins) w scope forms
      (outcomes scope form) := by
  induction forms generalizing w scope layers form with
  | nil =>
    have hwhole : form.Tellable w.log := .isList hform (List.forall_mem_singleton.2 (.word _))
    obtain ⟨v, hv, hcontinues⟩ := use_continues hkind (hw.provides hlayers e hmem hfree) hform
      hwhole fun id hc => hexpands w id [] hc hw htell
    obtain ⟨z, hz, hvz⟩ := hnone v scope v (.refl v)
    exact ⟨z, hv.trans hvz, hcontinues.comesTo (comesTo_outcome hz)⟩
  | cons first more ih =>
    have hwhole : form.Tellable w.log := .isList hform (List.forall_mem_cons.2 ⟨.word _, htell⟩)
    obtain ⟨v, hv, hcontinues⟩ := use_continues hkind (hw.provides hlayers e hmem hfree) hform
      hwhole fun id hc => hexpands w id _ hc hw htell
    cases more with
    | nil => exact ⟨v, hv, hone first ▸ hcontinues⟩
    | cons next rest =>
      obtain ⟨a, b, hexpansion, hbranch⟩ := hmore first next rest
      obtain ⟨hfirst, hrest⟩ := List.forall_mem_cons.1 htell
      have hagain : (Value.spliced [[word e.name], next :: rest]).Tellable v.log :=
        again_tellable (hv.log ▸ hrest)
      have hbranches : ∀ x : Value, (if x.isTruthy then a else b).Tellable v.log := by
        intro x
        rw [hbranch x]
        cases stops x
        · exact hagain
        · exact .word fresh
      rw [hexpansion] at hcontinues
      refine .of_continues hv hcontinues ?_
      have ha : a.Tellable v.log := hbranches (.bool true)
      have hb : b.Tellable v.log := hbranches (.bool false)
      obtain ⟨z, id, hopens, hends, herror, hvalue⟩ :=
        branching_continues (hlayers.keeps hv.frames) (hv.log ▸ hfirst) ha hb
      have hopens' := hopens.later hv
      refine ⟨z, id, hopens, hopens'.agrees hlayers _, hends, herror, fun x u hx => ?_⟩
      obtain ⟨y, hy, hreads⟩ := hvalue x u hx
      have hagrees := hopens'.agrees_bound hlayers (frames_of_values hx) (.plain fresh) x
      refine ⟨y, hy, fun t ht => hagrees t (hy.frames.trans ht),
        hreads.imp (.refl _ _) fun ⟨hgoes, hread⟩ => ?_⟩
      rw [hbranch x] at hgoes
      cases hstops : stops x with
      | true =>
        rw [hstops] at hgoes
        exact hgoes.comesTo hread
      | false =>
        rw [hstops] at hgoes
        intro hknows
        have hinside := (hopens'.layers_bound hlayers (frames_of_values hx) (.plain fresh) x).keeps
          hy.frames
        have hlog : y.log = w.log :=
          hy.log.trans ((log_of_values hx).trans (hopens.idle.log.trans hv.log))
        have huse : (Value.spliced [[word e.name], next :: rest]).IsList
            (word e.name :: next :: rest) := by
          simpa using Value.isList_spliced [[word e.name], next :: rest]
        have hunshadowed : meaningIn ([(.plain fresh, x)] :: layers) (.plain e.name) = none := by
          simp [meaningIn, newest, hfresh, hfree]
        exact ⟨_, hgoes, ih hinside hunshadowed ((stocked_bound hknows _ _ x).idle hy) huse
          (hlog ▸ hrest)⟩

end

theorem and_short_circuits {forms : List Value} (hlayers : w.Layers scope layers)
    (hfree : meaningIn layers (.plain Entry.and.name) = none)
    (hw : w.Stocked [.and] [.first, .next]) (hform : form.IsList (word Entry.and.name :: forms))
    (htell : ∀ form ∈ forms, form.Tellable w.log) :
    ShortCircuits andName (fun x => !x.isTruthy) (.bool true) (·.Stocked [.and] [.first, .next]) w
      scope forms (outcomes scope form) := by
  refine use_short_circuits andOf rfl (List.mem_singleton_self _) rfl
    (fun w id forms hc hw htell => and_expands hc (hw.subset (List.nil_subset _) fun _ h => h) htell)
    (constant_yields fun _ _ => rfl) (fun _ => rfl) (fun form next rest => ?_) hlayers
    hfree hw hform htell
  refine ⟨_, _, rfl, fun x => ?_⟩
  cases x.isTruthy <;> rfl

theorem or_short_circuits {forms : List Value} (hlayers : w.Layers scope layers)
    (hfree : meaningIn layers (.plain Entry.or.name) = none)
    (hw : w.Stocked [.or, .when] [.first, .next])
    (hform : form.IsList (word Entry.or.name :: forms))
    (htell : ∀ form ∈ forms, form.Tellable w.log) :
    ShortCircuits orName Value.isTruthy .nil (·.Stocked [.or, .when] [.first, .next]) w scope forms
      (outcomes scope form) := by
  refine use_short_circuits orOf rfl List.mem_cons_self rfl
    (fun w id forms hc hw htell => or_expands hc (hw.subset (by decide) fun _ h => h) htell)
    (constant_yields fun _ _ => rfl) (fun _ => rfl) (fun form next rest => ?_) hlayers hfree hw
    hform htell
  refine ⟨_, _, rfl, fun x => ?_⟩
  cases x.isTruthy <;> rfl

/-- The forms of clauses, in order. -/
def clauseForms (clauses : List (Value × Value)) : List Value := clauses.flatMap fun c => [c.1, c.2]

theorem cond_chooses {clauses : List (Value × Value)} (hlayers : w.Layers scope layers)
    (hfree : meaningIn layers (.plain Entry.cond.name) = none)
    (hw : w.Stocked [.cond, .when, .second] [.first, .next, .list, .cons])
    (hform : form.IsList (word Entry.cond.name :: clauseForms clauses))
    (htell : ∀ form ∈ clauseForms clauses, form.Tellable w.log) :
    Chooses (·.Stocked [.cond, .when, .second] [.first, .next, .list, .cons]) w scope clauses
      (outcomes scope form) := by
  induction clauses generalizing w form with
  | nil =>
    have hwhole : form.Tellable w.log := .isList hform (List.forall_mem_singleton.2 (.word _))
    obtain ⟨v, hv, hcontinues⟩ := use_continues rfl (hw.provides hlayers .cond (by decide) hfree)
      hform hwhole fun id hc => cond_expands_nil hc (hw.subset (by decide) (List.nil_subset _))
    obtain ⟨z, hz, hvz⟩ :=
      constant_yields (x := .nil) (fun _ _ => rfl) v scope v (.refl v)
    exact ⟨z, hv.trans hvz, hcontinues.comesTo (comesTo_outcome hz)⟩
  | cons clause more ih =>
    obtain ⟨test, value⟩ := clause
    have hwhole : form.Tellable w.log := .isList hform (List.forall_mem_cons.2 ⟨.word _, htell⟩)
    obtain ⟨htest, hvalue, hmore⟩ : test.Tellable w.log ∧ value.Tellable w.log ∧
        ∀ form ∈ clauseForms more, form.Tellable w.log := by
      simpa [clauseForms] using htell
    obtain ⟨v, hv, hcontinues⟩ := use_continues rfl (hw.provides hlayers .cond (by decide) hfree)
      hform hwhole fun id hc =>
        cond_expands_clause hc (hw.subset (by decide) fun _ h => h) htest hvalue hmore
    obtain ⟨z, hz, hspecial⟩ := special_continues (Value.isList_list _)
      (hv.log ▸ condForm_tellable htest hvalue hmore) scope
    have hif := hcontinues.trans hspecial
    refine ⟨z, hv.trans hz, fun r hr => (persists_values _ test).ends ((hif r).1 hr),
      fun s u h => hif.comesTo (comesTo_error_of_bind h), fun x u hx => ?_⟩
    have hbranch : Continues (outcomes scope form) w (outcomes scope (if x.isTruthy then value
        else .list (word Entry.cond.name :: clauseForms more))) u := by
      refine hif.trans ((Continues.bind hx).trans (.of_eq ⟨0, fun m _ => ?_⟩))
      cases x.isTruthy <;> rfl
    cases htruthy : x.isTruthy with
    | true =>
      rw [htruthy] at hbranch
      exact hbranch
    | false =>
      rw [htruthy] at hbranch
      intro hknows
      have hwz := hv.trans hz
      have hlog : u.log = w.log := (log_of_values hx).trans hwz.log
      exact ⟨_, hbranch, ih (hlayers.keeps (hwz.frames.trans (frames_of_values hx))) hknows
        (Value.isList_list _) (hlog ▸ hmore)⟩

/-- In a scope that does not shadow them, where they mean the library's macros: `and` and `or` stop
at the first false and at the first true value, and `cond` chooses the form behind the first true
test. -/
theorem macros_stop_early (hw : w.Scoped) (hscope : w.Has scope) :
    (∀ form forms, form.IsList (word Entry.and.name :: forms) →
      (∀ form ∈ forms, form.Tellable w.log) →
      w.lookupScope? scope (.plain Entry.and.name) = none → w.Stocked [.and] [.first, .next] →
      ShortCircuits andName (fun x => !x.isTruthy) (.bool true) (·.Stocked [.and] [.first, .next]) w
        scope forms (outcomes scope form)) ∧
    (∀ form forms, form.IsList (word Entry.or.name :: forms) →
      (∀ form ∈ forms, form.Tellable w.log) →
      w.lookupScope? scope (.plain Entry.or.name) = none →
      w.Stocked [.or, .when] [.first, .next] →
      ShortCircuits orName Value.isTruthy .nil (·.Stocked [.or, .when] [.first, .next]) w scope forms
        (outcomes scope form)) ∧
    ∀ form clauses, form.IsList (word Entry.cond.name :: clauseForms clauses) →
      (∀ form ∈ clauseForms clauses, form.Tellable w.log) →
      w.lookupScope? scope (.plain Entry.cond.name) = none →
      w.Stocked [.cond, .when, .second] [.first, .next, .list, .cons] →
      Chooses (·.Stocked [.cond, .when, .second] [.first, .next, .list, .cons]) w scope clauses
        (outcomes scope form) := by
  obtain ⟨layers, hlayers⟩ := hw.exists_layers hscope
  simp only [hlayers.lookupScope?]
  exact ⟨fun _ _ hform htell hfree hw => and_short_circuits hlayers hfree hw hform htell,
    fun _ _ hform htell hfree hw => or_short_circuits hlayers hfree hw hform htell,
    fun _ _ hform htell hfree hw => cond_chooses hlayers hfree hw hform htell⟩

/-- `(and false 2)`, `(or nil 2)` and `(cond false 1)` in a new interpreter. -/
theorem macros_stop_early_started : ∃ w, Interpreter.start (.ofBudget 60) {} = .ok w ∧
    ShortCircuits andName (fun x => !x.isTruthy) (.bool true) (·.Stocked [.and] [.first, .next]) w
      none [.bool false, .int 2] (outcomes none (use .and [.bool false, .int 2])) ∧
    ShortCircuits orName Value.isTruthy .nil (·.Stocked [.or, .when] [.first, .next]) w
      none [.nil, .int 2] (outcomes none (use .or [.nil, .int 2])) ∧
    Chooses (·.Stocked [.cond, .when, .second] [.first, .next, .list, .cons]) w none
      [(.bool false, .int 1)] (outcomes none (use .cond [.bool false, .int 1])) := by
  obtain ⟨w, hstart, -⟩ := Interpreter.samples_reached
  have hready := Interpreter.started_ready rfl hstart
  have htell : ∀ {forms : List Value}, Value.allCode forms = true →
      ∀ form ∈ forms, form.Tellable w.log := fun h form hform =>
    .of_timeless (Value.timeless_of_allCode _ h form hform)
  have houter : ∀ s, w.lookupScope? none s = none := World.Layers.outermost.lookupScope?
  have hstops := @macros_stop_early w none hready.wellScoped nofun
  exact ⟨w, hstart,
    hstops.1 _ _ (Value.isList_list _) (htell rfl) (houter _)
      (hready.stocked.subset (by decide) (by decide)),
    hstops.2.1 _ _ (Value.isList_list _) (htell rfl) (houter _)
      (hready.stocked.subset (by decide) (by decide)),
    hstops.2.2 _ [(.bool false, .int 1)] (Value.isList_list _) (htell rfl) (houter _)
      (hready.stocked.subset (by decide) (by decide))⟩

/-- In a new interpreter `(deref #'when)` has a true value, but `and` does not come to the form
behind it: the value is a macro and cannot be read back. -/
theorem and_fails_behind_macro : ∃ w, Interpreter.start (.ofBudget 60) {} = .ok w ∧
    (∃ v, Session.evalSource (.ofBudget 60) "(if (deref #'when) 1 2)" w = .ok (.int 1) v) ∧
    ∃ v, Session.evalSource (.ofBudget 60) "(and (deref #'when) 2)" w =
      .error (.eval (.macroAsValue "when")) v := by
  obtain ⟨w, hstart, hsamples⟩ := Interpreter.samples_reached
  simp only [Interpreter.samples, List.forall_mem_cons] at hsamples
  obtain ⟨v, hv, -⟩ := Interpreter.Ending.value_of_isReached hsamples.1
  exact ⟨w, hstart, ⟨v, hv⟩, Interpreter.Ending.error_of_isReached hsamples.2.1⟩

end Evaluation
end LazyLisp
