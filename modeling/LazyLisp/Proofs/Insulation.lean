import LazyLisp.Interpreter
import LazyLisp.Proofs.LazyCells

/-!
What a call depends on besides its arguments. A closure keeps its scope but no namespace: names that
are bound in no scope are looked up in the namespace that is current when the body runs. So a call
means the same in two namespaces if the names that it looks up there denote the same vars, and it
uses nothing that works on namespaces.
-/

namespace LazyLisp
set_option autoImplicit false

namespace Watch

/-- Refuses `*ns*`, definitions, and the functions on namespaces and on code that is data. -/
def insular : Watch := fun w use =>
  match use with
  | .symbol scope s => s.ns.isSome || (w.lookupScope? scope s).isSome || s.name != Names.currentNs
  | .special .define _ => false
  | .special .defineMacro _ => false
  | .special _ _ => true
  | .call (.builtin b) => !b.isReflective
  | .call _ => true

/-- Refuses to look a name up in the current namespace if it denotes one var in one of two
namespaces and not the same one in the other. -/
def agreeing (a b : NameId) : Watch := fun w use =>
  match use with
  | .symbol scope s => s.ns.isSome || (w.lookupScope? scope s).isSome ||
      w.spaces.lookup? a s.name == w.spaces.lookup? b s.name
  | .special .varOf [.symbol s] =>
    s.ns.isSome || w.spaces.lookup? a s.name == w.spaces.lookup? b s.name
  | _ => true

/-- Allows what both watches allow. -/
def both (watch other : Watch) : Watch := fun w use => watch w use && other w use

end Watch

section
variable {a b : NameId} {w : World}

theorem lookupVar?_under (hcurrent : w.current = a) {s : Symbol}
    (hs : s.ns.isSome = true ∨ w.spaces.lookup? a s.name = w.spaces.lookup? b s.name) :
    (w.under fun _ => b).lookupVar? s = w.lookupVar? s := by
  obtain ⟨ns, name⟩ := s
  cases ns with
  | some ns => rfl
  | none =>
    have hsame := hs.resolve_left Bool.false_ne_true
    show w.spaces.lookup? b name = w.spaces.lookup? w.current name
    rw [hcurrent, ← hsame]

theorem resolve?_under (hcurrent : w.current = a) {scope : Scope} {s : Symbol}
    (hs : s.ns.isSome = true ∨ (w.lookupScope? scope s).isSome = true ∨
      s.name ≠ Names.currentNs ∧ w.spaces.lookup? a s.name = w.spaces.lookup? b s.name) :
    (w.under fun _ => b).resolve? scope s = w.resolve? scope s := by
  have hglobal : s.ns.isSome = true ∨ w.spaces.lookup? a s.name = w.spaces.lookup? b s.name →
      (w.under fun _ => b).global? s = w.global? s := by
    intro hs
    rw [World.global?, World.global?, lookupVar?_under hcurrent hs]
    rfl
  have hscope : (w.under fun _ => b).lookupScope? scope s = w.lookupScope? scope s := rfl
  rw [World.resolve?, World.resolve?, hscope]
  cases hns : s.ns with
  | some ns => exact hglobal (.inl (by rw [hns]; rfl))
  | none =>
    cases hbound : w.lookupScope? scope s with
    | some v => rfl
    | none =>
      rw [hns, hbound] at hs
      obtain ⟨hname, hsame⟩ := (hs.resolve_left Bool.false_ne_true).resolve_left Bool.false_ne_true
      dsimp only
      rw [if_neg hname, if_neg hname]
      exact hglobal (.inr hsame)

end

/-- The relation to a state of a run in which one namespace stays current. -/
def StaysIn (a : NameId) (_base w : World) : Prop := w.current = a

theorem staysIn_coupling (a : NameId) : Coupling (StaysIn a) fun _ _ => True where
  fits_none _ := trivial
  fits_later _ _ _ _ _ := trivial
  closure _ _ _ _ _ _ := trivial
  names _ _ _ h := h
  output _ _ _ h := h
  events _ _ _ h := h
  frame base _ _ h _ := ⟨base, h, trivial, fun _ hv => hv, fun _ _ _ hv => hv⟩
  newClosure _ _ _ _ _ _ _ h _ _ := h
  newLazy _ _ := fun _ h => h
  realize base _ _ _ h _ := ⟨base, h, fun _ _ hv => ⟨hv, fun _ _ => hv, fun _ _ => hv⟩⟩

theorem insular_agreeing_guards (a b : NameId) :
    (Watch.insular.both (.agreeing a b)).Guards (fun _ => b) (StaysIn a) := by
  intro base w use hcurrent hallowed
  obtain ⟨hinsular, hagreeing⟩ := Bool.and_eq_true_iff.1 hallowed
  refine .inr ?_
  cases use with
  | symbol scope s =>
    refine resolve?_under hcurrent ?_
    simp only [Watch.insular, Watch.agreeing, Bool.or_eq_true, bne_iff_ne, beq_iff_eq]
      at hinsular hagreeing
    rcases hinsular with hknown | hname
    · exact hknown.imp_right .inl
    · rcases hagreeing with hknown | hsame
      · exact hknown.imp_right .inl
      · exact .inr (.inr ⟨hname, hsame⟩)
  | special f args =>
    cases f with
    | define => cases hinsular
    | defineMacro => cases hinsular
    | varOf =>
      rcases args with _ | ⟨v, _ | ⟨_, _⟩⟩
      · trivial
      · cases v with
        | symbol s =>
          refine lookupVar?_under hcurrent ?_
          simpa [Watch.agreeing] using hagreeing
        | _ => trivial
      · cases v <;> trivial
    | _ => exact trivial
  | call callee =>
    cases callee with
    | builtin f =>
      have hf : f.isReflective = false := by simpa [Watch.insular] using hinsular
      exact hf
    | _ => exact trivial

/-- A request whose run looks up only names that denote the same vars in two namespaces, and uses
nothing that works on namespaces or on code that is data, has the same outcome in both: the same
value or error, and the same state but for which namespace is current. One order of map entries is
fixed for both runs, that in which keys were first put: with hashers that choose different orders,
even two runs in one namespace need not agree. -/
theorem calls_ignore_current_namespace (a b : NameId) (n : Nat) (r : Request) {w : World}
    (hcurrent : w.current = a)
    (hended : Ended ((Watch.insular.both (.agreeing a b)).run n r w)) (m : Nat) (hm : n ≤ m) :
    Ended (Evaluation.run m r w) ∧ ((Evaluation.run m r).after w).current = a ∧
      Evaluation.run m r { w with current := b } =
        endUnder (fun _ => b) (Evaluation.run m r w) := by
  -- the watched run decides both plain runs: in the same namespace, and in the other one
  have hplain : Tied id (Unrelated w) ((Watch.insular.both (.agreeing a b)).run n r)
      (Evaluation.run m r) :=
    unrelated_invariant.toCoupling.watchedRun
      (fun _ _ _ _ _ => .inl ⟨rfl, unrelated_invariant.toDefining⟩) hm r trivial
  have hother : Tied (fun _ => b) (StaysIn a w) ((Watch.insular.both (.agreeing a b)).run n r)
      (Evaluation.run m r) :=
    (staysIn_coupling a).watchedRun (insular_agreeing_guards a b) hm r trivial
  have hsame := hplain.run_eq .intro hended
  refine ⟨hsame ▸ hended, ?_, ?_⟩
  · have hstays := hother.preserves w hcurrent
    rw [Eval.after, hsame]
    exact hstays
  · rw [hsame]
    exact (hother w hcurrent).eq_endUnder hended

/-- The state behind the forms, evaluated one after the other from the empty namespace `core` on. -/
def behindForms (forms : List Value) : World :=
  meetAll (forms.map fun form => (9, .serve (.evaluate none form false))) (World.blank {})

/-- The state behind `(def x 1)`, `(def f (fn [] x))` and `(ns-set 'user)`, where 7 and 8 stand for
the names `x` and `f`; then `core` is current again. -/
def sharedName : World :=
  { behindForms [.list [.special .define, .symbol (.plain 7), .int 1],
      .list [.special .define, .symbol (.plain 8),
        .list [.special .lambda, .vector [], .symbol (.plain 7)]],
      .list [.builtin .nsSet, .list [.special .quote, .symbol (.plain Names.user)]]] with
    current := Names.core }

theorem calls_ignore_current_namespace_shared :
    sharedName.spaces.contains Names.user = true ∧
    ∃ v, Evaluation.run 9 (.apply none (.function 0) []) sharedName = .ok (.value (.int 1)) v ∧
      Evaluation.run 9 (.apply none (.function 0) []) { sharedName with current := Names.user } =
        .ok (.value (.int 1)) { v with current := Names.user } := by
  have hwatched : ∃ v, (Watch.insular.both (.agreeing Names.core Names.user)).run 9
      (.apply none (.function 0) []) sharedName = .ok (.value (.int 1)) v := ⟨_, rfl⟩
  have hrun : ∃ v, Evaluation.run 9 (.apply none (.function 0) []) sharedName =
      .ok (.value (.int 1)) v := ⟨_, rfl⟩
  obtain ⟨_, hwatched⟩ := hwatched
  obtain ⟨v, hrun⟩ := hrun
  obtain ⟨-, -, hother⟩ := calls_ignore_current_namespace Names.core Names.user 9
    (.apply none (.function 0) []) rfl (hwatched ▸ Ended.ok _ _) 9 (Nat.le_refl 9)
  rw [hrun] at hother
  exact ⟨rfl, v, hrun, hother⟩

/-- A name that denotes different vars in the two namespaces is enough for different outcomes, even
where the function was made in the first and uses nothing that works on namespaces. -/
theorem free_names_follow_current_namespace :
    ¬ ∀ (a b : NameId) (n : Nat) (forms args : List Value) (made made' w : World) (f : Value)
      (demands : List (Nat × Demand)),
      made.current = a → Evaluation.lambda (.ofBudget n) none forms made = .ok (.value f) made' →
      w = { meetAll demands made' with current := a } → w.spaces.contains b = true →
      Ended (Watch.insular.run n (.apply none f args) w) →
      Evaluation.run n (.apply none f args) { w with current := b } =
        endUnder (fun _ => b) (Evaluation.run n (.apply none f args) w) := by
  intro h
  have hmade : ∃ made', Evaluation.lambda (.ofBudget 9) none [.vector [], .symbol (.plain 7)]
      (behindForms [.list [.special .define, .symbol (.plain 7), .int 1]]) =
        .ok (.value (.function 0)) made' := ⟨_, rfl⟩
  obtain ⟨made', hmade⟩ := hmade
  have hsame := h Names.core Names.user 9 _ [] _ made' _ (.function 0)
    [(9, .serve (.evaluate none (.list [.builtin .nsSet,
        .list [.special .quote, .symbol (.plain Names.user)]]) false)),
      (9, .serve (.evaluate none (.list [.special .define, .symbol (.plain 7), .int 2]) false))]
    rfl hmade rfl
  cases hmade
  have hended := hsame rfl (Ended.ok _ _)
  cases hended

end LazyLisp
