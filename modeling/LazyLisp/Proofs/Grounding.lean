import LazyLisp.Proofs.Clauses
import LazyLisp.Proofs.Moves

/-!
An interpreter never loses its namespace: `core` and the current namespace exist in every state that
it reaches, and whenever evaluation resolves a symbol, takes up a special form or calls a value. So
definitions always find a namespace to define into, `*ns*` names one that exists, and switching to a
namespace cannot fail.
-/

namespace LazyLisp
set_option autoImplicit false

structure Realm.Grounded (p : Realm) : Prop where
  core : p.spaces.contains Names.core = true
  current : p.spaces.contains p.current = true

instance (p : Realm) : Decidable p.Grounded :=
  decidable_of_iff (p.spaces.contains Names.core = true ∧ p.spaces.contains p.current = true)
    ⟨fun h => ⟨h.1, h.2⟩, fun h => ⟨h.core, h.current⟩⟩

def World.Grounded (w : World) : Prop := w.realm.Grounded

instance (w : World) : Decidable w.Grounded := inferInstanceAs (Decidable w.realm.Grounded)

namespace Namespaces
variable {s t : Namespaces} {ns k name : NameId} {id : VarId} {found : Bool}

theorem contains_intern (h : s.intern? ns name = some (id, t)) (k : NameId) :
    t.contains k = s.contains k := by
  obtain ⟨n, hn, ⟨-, rfl⟩ | ⟨-, -, rfl⟩⟩ := intern?_cases h
  · rfl
  · exact contains_put ⟨n, hn⟩ k

theorem contains_unmap (h : s.unmap? ns name = some (found, t)) (k : NameId) :
    t.contains k = s.contains k := by
  obtain ⟨n, hn, rfl⟩ := unmap?_cases h
  exact contains_put ⟨n, hn⟩ k

theorem contains_create_of (h : s.contains k = true) (ns : NameId) :
    (s.create ns).contains k = true := by
  rw [contains_iff, get?_create]
  split
  · exact ⟨_, rfl⟩
  · exact contains_iff.1 h

theorem contains_remove (h : s.contains k = true) (hk : k ≠ ns) :
    (s.remove ns).contains k = true := by
  rw [contains_iff, get?_remove, if_neg hk]
  exact contains_iff.1 h

end Namespaces

/-- Removal is the one move that takes a namespace away, and it spares `core` and the current one;
switching is the one that changes the current namespace, and it goes to one that is there. -/
theorem Move.grounded {p q : Realm} (h : Move p q) (hp : p.Grounded) : q.Grounded := by
  obtain ⟨hcore, hcurrent⟩ := hp
  cases h with
  | intern h =>
    have hsame := Namespaces.contains_intern h
    exact ⟨(hsame _).trans hcore, (hsame _).trans hcurrent⟩
  | setVar id v => exact ⟨hcore, hcurrent⟩
  | create ns =>
    exact ⟨Namespaces.contains_create_of hcore ns, Namespaces.contains_create_of hcurrent ns⟩
  | refer h =>
    have hsame := Namespaces.contains_refer h
    exact ⟨(hsame _).trans hcore, (hsame _).trans hcurrent⟩
  | enter h => exact ⟨hcore, h⟩
  | remove hnotCore hnotCurrent =>
    exact ⟨Namespaces.contains_remove hcore hnotCore.symm,
      Namespaces.contains_remove hcurrent hnotCurrent.symm⟩
  | unmap h =>
    have hsame := Namespaces.contains_unmap h
    exact ⟨(hsame _).trans hcore, (hsame _).trans hcurrent⟩

theorem World.blank_grounded (log : LogDomains) : (World.blank log).Grounded := ⟨rfl, rfl⟩

theorem Interpreter.Reached.grounded {w : World} (h : Reached w) : w.Grounded :=
  h.keeps World.blank_grounded fun _ _ hmove => hmove.grounded

theorem grounded_invariant : Invariant fun _ w => w.Grounded :=
  .of_moves (R := fun _ p => p.Grounded) fun _ _ _ hmove => hmove.grounded

/-- Allows everything as long as `core` and the current namespace exist. -/
def Watch.grounded : Watch := fun w _ => decide w.Grounded

section
variable {w : World}

theorem World.Grounded.after_run (h : w.Grounded) (n : Nat) (r : Request) :
    ((Evaluation.run n r).after w).Grounded :=
  @Invariant.run _ w grounded_invariant n r w h

/-- The watch has nothing to refuse. -/
theorem World.Grounded.watched (h : w.Grounded) {n : Nat} {r : Request}
    (hended : Ended (Evaluation.run n r w)) :
    Watch.grounded.run n r w = Evaluation.run n r w := by
  have hadmits : Watch.all.Admits .grounded .same fun _ w => w.Grounded :=
    fun _ w _ hw _ => ⟨.inl ⟨rfl, grounded_invariant.toDefining⟩, decide_eq_true hw⟩
  have hpaired := @Coupling.watchedRuns _ _ _ w grounded_invariant.toCoupling
    (View.ofCurrent_faithful id) _ _ hadmits _ _ (Nat.le_refl n) r trivial
  rw [Watch.all_run] at hpaired
  exact hpaired.run_eq h hended

/-! Definitions. -/

theorem declare_run (hw : w.Grounded) (name : NameId) :
    ∃ id spaces, w.spaces.intern? w.current name = some (id, spaces) ∧
      Eval.declare name w = .ok id { w with spaces := spaces } := by
  obtain ⟨n, hn⟩ := Namespaces.contains_iff.1 hw.current
  obtain ⟨⟨id, spaces⟩, hintern⟩ : ∃ p, w.spaces.intern? w.current name = some p :=
    ⟨_, congrArg (Option.map _) hn⟩
  refine ⟨id, spaces, hintern, ?_⟩
  rw [Eval.declare, run_bind_ok (run_get w), hintern]
  rfl

theorem define_run (hw : w.Grounded) (name : NameId) (value : Value) :
    ∃ id spaces, w.spaces.intern? w.current name = some (id, spaces) ∧
      Eval.define name value w = .ok id { w with spaces := spaces.setVar id value } := by
  obtain ⟨id, spaces, hintern, hdeclare⟩ := declare_run hw name
  exact ⟨id, spaces, hintern, by rw [Eval.define, run_bind_ok hdeclare]; rfl⟩

theorem definitionTarget_cases (label : String) (form : Value) (w : World) :
    (∃ s : Symbol, form = .symbol s ∧ (∀ ns, s.ns = some ns → ns = w.current) ∧
      Evaluation.definitionTarget label form w = .ok s.name w) ∨
    ∃ e, Evaluation.definitionTarget label form w = .error (.error e) w ∧
      ∀ text, e ≠ .noNamespace text := by
  unfold Evaluation.definitionTarget
  cases form with
  | symbol s =>
    dsimp only
    rw [run_bind_ok (run_get w)]
    split
    · exact .inr ⟨_, rfl, nofun⟩
    · rename_i hns
      refine .inl ⟨s, rfl, fun ns hsome => ?_, rfl⟩
      simpa [hsome] using hns
  | _ => exact .inr ⟨_, rfl, nofun⟩

theorem noteDefinition_run (id : VarId) (w : World) :
    ∃ events, Evaluation.noteDefinition id w = .ok () { w with events := events } := by
  unfold Evaluation.noteDefinition
  rw [run_bind_ok (run_get w)]
  split
  · exact ⟨_, rfl⟩
  · exact ⟨w.events, rfl⟩

/-- A definition that fails for want of a namespace has an initial value that failed so. -/
theorem define_noNamespace (hw : w.Grounded) {n : Nat} {scope : Scope} {args : List Value}
    {text : String} {v : World}
    (h : Evaluation.define (.ofBudget n) scope args w = .error (.error (.noNamespace text)) v) :
    ∃ target form, args = [target, form] ∧
      (Engine.ofBudget n).value scope form w = .error (.error (.noNamespace text)) v := by
  unfold Evaluation.define at h
  split at h
  · rename_i target
    rcases definitionTarget_cases "def" target w with ⟨s, -, -, htarget⟩ | ⟨e, htarget, he⟩
    · obtain ⟨id, spaces, -, hdeclare⟩ := declare_run hw s.name
      obtain ⟨events, hnote⟩ := noteDefinition_run id { w with spaces := spaces }
      rw [run_bind_ok htarget, run_bind_ok hdeclare, run_bind_ok hnote] at h
      cases h
    · rw [run_bind_error htarget] at h
      cases h
      exact absurd rfl (he text)
  · rename_i target form
    refine ⟨target, form, rfl, ?_⟩
    rcases definitionTarget_cases "def" target w with ⟨s, -, -, htarget⟩ | ⟨e, htarget, he⟩
    · rw [run_bind_ok htarget] at h
      rcases run_bind_eq_error.1 h with hvalue | ⟨value, u, hvalue, hdefine⟩
      · exact hvalue
      · -- whatever the initial value did, there is a current namespace behind it
        have hu : u.Grounded := by
          have hkept := @Engine.Keeps.value _ w _ (grounded_invariant.keeps n) scope form w hw
          rwa [after_ok hvalue] at hkept
        obtain ⟨id, spaces, -, hrun⟩ := define_run hu s.name value
        obtain ⟨events, hnote⟩ := noteDefinition_run id { u with spaces := spaces.setVar id value }
        rw [run_bind_ok hrun, run_bind_ok hnote] at hdefine
        cases hdefine
    · rw [run_bind_error htarget] at h
      cases h
      exact absurd rfl (he text)
  · cases h

/-! Macros: the clauses are checked before the definition, and that has its own errors. -/

theorem parseParams_cases (label : String) (params : List Symbol) (items : List Value) :
    (∃ r, Evaluation.parseParams label params items = pure r) ∨
      ∃ message, Evaluation.parseParams label params items = fail (.invalidArgument label message) := by
  fun_induction Evaluation.parseParams label params items
  all_goals first
    | exact .inl ⟨_, rfl⟩
    | exact .inr ⟨_, rfl⟩
    | assumption

theorem parseClause_cases (label : String) (params : Value) (forms : List Value) :
    (∃ c, Evaluation.parseClause label params forms = pure c) ∨
      ∃ message, Evaluation.parseClause label params forms = fail (.invalidArgument label message) := by
  unfold Evaluation.parseClause
  cases params with
  | vector items =>
    dsimp only
    rcases parseParams_cases label [] items with ⟨r, hr⟩ | ⟨message, hr⟩
    · exact .inl ⟨_, by rw [hr]; rfl⟩
    · exact .inr ⟨message, by rw [hr]; rfl⟩
  | _ => exact .inr ⟨_, rfl⟩

theorem mapM_eq_error {α β : Type} {f : α → Eval β} {xs : List α} {stop : Stop} {w v : World}
    (h : xs.mapM f w = .error stop v) : ∃ x ∈ xs, ∃ u, f x u = .error stop v := by
  induction xs generalizing w with
  | nil => cases h
  | cons x xs ih =>
    rw [List.mapM_cons] at h
    rcases run_bind_eq_error.1 h with hx | ⟨b, u, -, hrest⟩
    · exact ⟨x, .head _, w, hx⟩
    · rcases run_bind_eq_error.1 hrest with hxs | ⟨bs, u, -, hpure⟩
      · obtain ⟨y, hy, u, hrun⟩ := ih hxs
        exact ⟨y, .tail _ hy, u, hrun⟩
      · cases hpure

/-- Walking a clause that is a lazy sequence may fail with anything. -/
theorem makeClosure_noNamespace {e : Engine} {scope : Scope} {name : Option Symbol} {label : String}
    {forms : List Value} {text : String} {v : World}
    (h : Evaluation.makeClosure e scope name label forms w =
      .error (.error (.noNamespace text)) v) :
    ∃ s u, .seq s ∈ forms ∧ s.toList e u = .error (.error (.noNamespace text)) v := by
  rcases run_bind_eq_error.1 h with hparse | ⟨clauses, u, -, hmake⟩
  · unfold Evaluation.parseClauses at hparse
    split at hparse
    · cases hparse
    · rename_i items rest
      rcases parseClause_cases label (.vector items) rest with ⟨c, hc⟩ | ⟨message, hc⟩
      · rw [hc] at hparse
        cases hparse
      · rw [hc] at hparse
        cases hparse
    · obtain ⟨form, hform, u, hrun⟩ := mapM_eq_error hparse
      split at hrun
      · rename_i s
        rcases run_bind_eq_error.1 hrun with hlist | ⟨items, u, -, hclause⟩
        · exact ⟨s, _, hform, hlist⟩
        · split at hclause
          · rename_i params rest
            rcases parseClause_cases label params rest with ⟨c, hc⟩ | ⟨message, hc⟩
            · rw [hc] at hclause
              cases hclause
            · rw [hc] at hclause
              cases hclause
          · cases hclause
      · cases hrun
  · cases hclosure : Closure.make name clauses scope label with
    | ok c =>
      rw [hclosure] at hmake
      cases hmake
    | error err =>
      rw [hclosure] at hmake
      cases hmake
      cases Closure.make_refusal hclosure

theorem mem_of_mem_skipDescription {form : Value} {forms : List Value}
    (h : form ∈ Evaluation.skipDescription forms) : form ∈ forms := by
  unfold Evaluation.skipDescription at h
  split at h
  · exact .tail _ h
  · exact h

theorem defineMacro_noNamespace (hw : w.Grounded) {n : Nat} {scope : Scope} {args : List Value}
    {text : String} {v : World}
    (h : Evaluation.defineMacro (.ofBudget n) scope args w =
      .error (.error (.noNamespace text)) v) :
    ∃ s u, .seq s ∈ args.tail ∧
      s.toList (.ofBudget n) u = .error (.error (.noNamespace text)) v := by
  unfold Evaluation.defineMacro at h
  split at h
  · cases h
  · rename_i target rest
    rcases definitionTarget_cases "defmacro" target w with ⟨s, -, -, htarget⟩ | ⟨e, htarget, he⟩
    · rw [run_bind_ok htarget, run_bind_ok (run_get w)] at h
      rcases run_bind_eq_error.1 h with hmake | ⟨id, u, hmake, hdefine⟩
      · obtain ⟨s, u, hs, hlist⟩ := makeClosure_noNamespace hmake
        exact ⟨s, u, mem_of_mem_skipDescription hs, hlist⟩
      · have hu : u.Grounded := by
          have hkept := (@Engine.Paired.makeClosure _ _ _ w _ _ scope (grounded_invariant.keeps n)
            trivial (some (.plain s.name)) (w.nameText s.name)
            (Evaluation.skipDescription rest)).preserves w hw
          rwa [after_ok hmake] at hkept
        obtain ⟨id', spaces, -, hrun⟩ := define_run hu s.name (.transformer id)
        rw [run_bind_ok hrun] at hdefine
        cases hdefine
    · rw [run_bind_error htarget] at h
      cases h
      exact absurd rfl (he text)

/-! The current namespace. -/

theorem currentNs_run (w : World) {n : Nat} {scope : Scope} {asHead : Bool}
    (hfree : w.lookupScope? scope (.plain Names.currentNs) = none) :
    Evaluation.run (n + 1) (.evaluate scope (.symbol (.plain Names.currentNs)) asHead) w =
      .ok (.value (.space w.current)) w := by
  show Evaluation.evaluateSymbol scope (.plain Names.currentNs) asHead w = _
  have hresolve : w.resolve? scope (.plain Names.currentNs) = some (.space w.current) := by
    unfold World.resolve?
    rw [hfree]
    rfl
  rw [Evaluation.evaluateSymbol, run_bind_ok (run_get w), hresolve]
  rfl

/-- A namespace that was just made has no names of its own to be in conflict with those of
another one. -/
theorem refer_create {s : Namespaces} {ns source : NameId} (hns : s.contains ns = false)
    (hsource : s.contains source = true) :
    ∃ count t, (s.create ns).refer ns source = (.ok count, t) := by
  have hne : source ≠ ns := by
    rintro rfl
    rw [hns] at hsource
    cases hsource
  obtain ⟨giver, hgiver⟩ := Namespaces.contains_iff.1 hsource
  have hnone : s.get? ns = none := Option.isNone_iff_eq_none.1 (Option.isSome_eq_false_iff.1 hns)
  have htaker : (s.create ns).get? ns = some { name := ns } := by
    rw [Namespaces.get?_create, if_pos rfl, hnone]
    rfl
  have hkept : (s.create ns).get? source = some giver := by
    rw [Namespaces.get?_create, if_neg hne, hgiver]
  have hconflict : Namespaces.conflict? { name := ns } giver.own = none := by
    simp [Namespaces.conflict?, Namespace.lookup?]
  unfold Namespaces.refer
  rw [hkept, htaker]
  dsimp only
  rw [hconflict]
  exact ⟨_, _, rfl⟩

theorem nsSet_run (hw : w.Grounded) {v : Value} {ns : NameId}
    (hv : v = .space ns ∨ v = .symbol (.plain ns)) :
    ∃ u, Core.nsSet v w = .ok (.space ns) u ∧ u.current = ns := by
  have hspace : Core.spaceOf "ns-set" v = pure ns := by
    rcases hv with rfl | rfl <;> rfl
  rw [Core.nsSet, hspace, pure_bind, run_bind_ok (run_get w), run_bind_ok (run_modify _ w)]
  split
  · rename_i hnew
    simp only [Bool.and_eq_true, Bool.not_eq_true'] at hnew
    obtain ⟨count, t, hp⟩ := refer_create hnew.1 hw.core
    have hrefer := refer_run ns Names.core { w with spaces := w.spaces.create ns }
    simp only [hp] at hrefer
    rw [run_bind_ok hrefer]
    exact ⟨_, rfl, rfl⟩
  · exact ⟨_, rfl, rfl⟩

end

/-- In every state that an interpreter reaches, and in the middle of every evaluation, `core` and
the current namespace exist. Where they do, `def` and `defmacro` fail for want of a namespace only
if a form that they evaluate or walk fails so, binding a var succeeds, `*ns*` denotes a namespace
that exists, and `ns-set` switches to whatever namespace it is given. -/
theorem interpreter_keeps_namespace :
    (∀ w, Interpreter.Reached w → w.Grounded) ∧
    ∀ w, w.Grounded →
      (∀ n r, ((Evaluation.run n r).after w).Grounded ∧
        (Ended (Evaluation.run n r w) → Watch.grounded.run n r w = Evaluation.run n r w)) ∧
      (∀ name value, ∃ id v, Eval.define name value w = .ok id v) ∧
      (∀ name, ∃ id v, Eval.declare name w = .ok id v) ∧
      (∀ n scope args text v,
        Evaluation.define (.ofBudget n) scope args w = .error (.error (.noNamespace text)) v →
        ∃ target form, args = [target, form] ∧
          (Engine.ofBudget n).value scope form w = .error (.error (.noNamespace text)) v) ∧
      (∀ n scope args text v,
        Evaluation.defineMacro (.ofBudget n) scope args w =
          .error (.error (.noNamespace text)) v →
        ∃ s u, .seq s ∈ args.tail ∧
          s.toList (.ofBudget n) u = .error (.error (.noNamespace text)) v) ∧
      (∀ n scope asHead, w.lookupScope? scope (.plain Names.currentNs) = none →
        Evaluation.run (n + 1) (.evaluate scope (.symbol (.plain Names.currentNs)) asHead) w =
          .ok (.value (.space w.current)) w ∧ w.spaces.contains w.current = true) ∧
      ∀ e scope v ns, v = .space ns ∨ v = .symbol (.plain ns) →
        ∃ u, Core.call e scope .nsSet [v] w = .ok (.space ns) u ∧ u.current = ns := by
  refine ⟨fun w hw => hw.grounded, fun w hw => ⟨?_, ?_, ?_, ?_, ?_, ?_, ?_⟩⟩
  · exact fun n r => ⟨hw.after_run n r, hw.watched⟩
  · intro name value
    obtain ⟨id, spaces, -, hrun⟩ := define_run hw name value
    exact ⟨id, _, hrun⟩
  · intro name
    obtain ⟨id, spaces, -, hrun⟩ := declare_run hw name
    exact ⟨id, _, hrun⟩
  · exact fun n scope args text v h => define_noNamespace hw h
  · exact fun n scope args text v h => defineMacro_noNamespace hw h
  · exact fun n scope asHead hfree => ⟨currentNs_run w hfree, hw.current⟩
  · exact fun e scope v ns hv => nsSet_run hw hv

/-- An interpreter without the library, which then switched to a namespace of its own. -/
theorem interpreter_keeps_namespace_bare :
    ∃ w, Interpreter.start (.ofBudget 1) { library := false } = .ok w ∧ w.Grounded ∧
      ∃ u, Core.call (.ofBudget 1) none .nsSet [.symbol (.plain 9)] w = .ok (.space 9) u ∧
        u.current = 9 := by
  have hstart : (Interpreter.start (.ofBudget 1) { library := false }).isOk = true := by
    decide +kernel
  cases hw : Interpreter.start (.ofBudget 1) { library := false } with
  | error f =>
    rw [hw] at hstart
    cases hstart
  | ok w =>
    have hgrounded := interpreter_keeps_namespace.1 w (.start hw)
    obtain ⟨-, -, -, -, -, -, hset⟩ := interpreter_keeps_namespace.2 w hgrounded
    exact ⟨w, rfl, hgrounded, hset _ none _ 9 (.inr rfl)⟩

end LazyLisp
