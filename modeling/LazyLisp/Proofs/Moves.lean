import Mathlib.Logic.Relation
import LazyLisp.Interpreter
import LazyLisp.Proofs.EvaluationEffects

/-!
What can happen to namespaces and vars. There are seven moves, each with the guard that the program
checks before it makes the move. Whatever an interpreter does, be the end a result or a failure,
comes to a sequence of moves, so a property that every move keeps holds in every state that an
interpreter reaches if it holds in the one that it starts from.
-/

namespace LazyLisp
set_option autoImplicit false

open Relation

/-- The namespaces with their vars, and which of them is current. -/
structure Realm where
  spaces : Namespaces
  current : NameId

def World.realm (w : World) : Realm := ⟨w.spaces, w.current⟩

inductive Move : Realm → Realm → Prop
  | intern {s t : Namespaces} {current ns name : NameId} {id : VarId} :
    s.intern? ns name = some (id, t) → Move ⟨s, current⟩ ⟨t, current⟩
  | setVar {s : Namespaces} {current : NameId} (id : VarId) (v : Value) :
    Move ⟨s, current⟩ ⟨s.setVar id v, current⟩
  | create {s : Namespaces} {current : NameId} (ns : NameId) :
    Move ⟨s, current⟩ ⟨s.create ns, current⟩
  | refer {s t : Namespaces} {current target source : NameId} {count : Nat} :
    s.refer target source = (.ok count, t) → Move ⟨s, current⟩ ⟨t, current⟩
  | enter {s : Namespaces} {current ns : NameId} :
    s.contains ns = true → Move ⟨s, current⟩ ⟨s, ns⟩
  | remove {s : Namespaces} {current ns : NameId} :
    ns ≠ Names.core → ns ≠ current → Move ⟨s, current⟩ ⟨s.remove ns, current⟩
  | unmap {s t : Namespaces} {current ns name : NameId} {found : Bool} :
    s.unmap? ns name = some (found, t) → Move ⟨s, current⟩ ⟨t, current⟩

/-- Any number of moves. -/
abbrev Moves : Realm → Realm → Prop := ReflTransGen Move

theorem Moves.keeps {Q : Realm → Prop} (hQ : ∀ p q, Move p q → Q p → Q q) {p q : Realm}
    (h : Moves p q) (hp : Q p) : Q q := by
  induction h with
  | refl => exact hp
  | tail _ hmove ih => exact hQ _ _ hmove ih

namespace Namespaces
variable {s t : Namespaces} {ns k name target source : NameId} {id : VarId} {found : Bool}

theorem get?_create (s : Namespaces) (ns k : NameId) :
    (s.create ns).get? k = if k = ns then some ((s.get? ns).getD { name := ns }) else s.get? k := by
  unfold create contains Table.contains get?
  cases h : s.table.get? ns with
  | none => simp [Table.get?_put]
  | some n =>
    by_cases hk : k = ns
    · subst hk
      simp [h]
    · simp [hk]

theorem get?_remove (s : Namespaces) (ns k : NameId) :
    (s.remove ns).get? k = if k = ns then none else s.get? k :=
  Table.get?_remove s.table ns k

theorem contains_iff : s.contains k = true ↔ ∃ n, s.get? k = some n := Option.isSome_iff_exists

/-- Interning finds the var, or makes one at the end of the store. -/
theorem intern?_cases (h : s.intern? ns name = some (id, t)) :
    ∃ n, s.get? ns = some n ∧
      ((n.own.get? name = some id ∧ t = s) ∨
        (n.own.get? name = none ∧ id = s.vars.size ∧
          t = { table := s.table.put ns { n with own := n.own.put name id }
                vars := s.vars.push { name := .qualified n.name name } })) := by
  obtain ⟨n, hn, heq⟩ := Option.map_eq_some_iff.1 h
  refine ⟨n, hn, ?_⟩
  cases hown : n.own.get? name with
  | some id' =>
    simp only [hown, Prod.mk.injEq] at heq
    obtain ⟨rfl, rfl⟩ := heq
    exact .inl ⟨rfl, rfl⟩
  | none =>
    simp only [hown, Prod.mk.injEq] at heq
    obtain ⟨rfl, rfl⟩ := heq
    exact .inr ⟨rfl, rfl, rfl⟩

theorem unmap?_cases (h : s.unmap? ns name = some (found, t)) :
    ∃ n, s.get? ns = some n ∧
      t = { s with
        table := s.table.put ns
          { n with own := n.own.remove name, refers := n.refers.remove name } } := by
  obtain ⟨n, hn, heq⟩ := Option.map_eq_some_iff.1 h
  simp only [Prod.mk.injEq] at heq
  exact ⟨n, hn, heq.2.symm⟩

/-- Referring changes nothing but what the target refers to. -/
theorem refer_cases {count : Nat} (h : s.refer target source = (.ok count, t)) :
    ∃ n refers, s.get? target = some n ∧
      t = { s with table := s.table.put target { n with refers := refers } } := by
  unfold refer at h
  split at h
  · cases h
  · cases h
  · rename_i giver taker hgiver htaker
    split at h
    · cases h
    · cases h
      exact ⟨taker, _, htaker, rfl⟩

theorem refer_failed {e : ReferError} (h : s.refer target source = (.error e, t)) : t = s := by
  unfold refer at h
  split at h
  · cases h
    rfl
  · cases h
    rfl
  · split at h
    · cases h
      rfl
    · cases h

/-- Changing a namespace that is there adds none and removes none. -/
theorem contains_put {n : Namespace} {vars : Array Var} (hns : ∃ m, s.get? ns = some m)
    (k : NameId) :
    ({ table := s.table.put ns n, vars := vars } : Namespaces).contains k = s.contains k := by
  obtain ⟨m, hm⟩ := hns
  show ((s.table.put ns n).get? k).isSome = (s.table.get? k).isSome
  rw [Table.get?_put]
  by_cases hk : k = ns
  · subst hk
    rw [if_pos rfl]
    exact (congrArg Option.isSome hm).symm
  · rw [if_neg hk]

theorem contains_create (s : Namespaces) (ns : NameId) : (s.create ns).contains ns = true := by
  rw [contains_iff, get?_create, if_pos rfl]
  exact ⟨_, rfl⟩

theorem contains_refer {count : Nat} (h : s.refer target source = (.ok count, t)) (k : NameId) :
    t.contains k = s.contains k := by
  obtain ⟨n, refers, hn, rfl⟩ := refer_cases h
  exact contains_put ⟨n, hn⟩ k

end Namespaces

/-! The operations on vars and namespaces. -/

section
variable {α β : Type} {w v : World}

theorem after_bind_ok {m : Eval α} {f : α → Eval β} {a : α} (h : m w = .ok a v) :
    (m >>= f).after w = (f a).after v := by
  rw [Eval.after, run_bind_ok h, Eval.after]

theorem after_bind_error {m : Eval α} {f : α → Eval β} {e : Stop} (h : m w = .error e v) :
    (m >>= f).after w = v := by
  rw [Eval.after, run_bind_error h]

theorem declare_moves (name : NameId) : Moves w.realm ((Eval.declare name).after w).realm := by
  rw [Eval.declare, after_bind_ok (run_get w)]
  cases h : w.spaces.intern? w.current name with
  | none => exact .refl
  | some p => exact .single (.intern h)

theorem define_moves (name : NameId) (value : Value) :
    Moves w.realm ((Eval.define name value).after w).realm := by
  have hdeclare := declare_moves (w := w) name
  cases hrun : Eval.declare name w with
  | ok id v =>
    rw [after_ok hrun] at hdeclare
    rw [Eval.define, after_bind_ok hrun]
    have hset : Move v.realm ⟨v.spaces.setVar id value, v.current⟩ := .setVar id value
    exact hdeclare.tail hset
  | error e v =>
    rw [after_error hrun] at hdeclare
    rwa [Eval.define, after_bind_error hrun]

/-- Which namespace a value names does not depend on the state. -/
theorem spaceOf_cases (function : String) (v : Value) :
    (∃ ns, Core.spaceOf function v = pure ns) ∨ ∃ e, Core.spaceOf function v = fail e := by
  unfold Core.spaceOf
  cases v with
  | space ns => exact .inl ⟨ns, rfl⟩
  | symbol s =>
    dsimp only
    split
    · exact .inr ⟨_, rfl⟩
    · exact .inl ⟨_, rfl⟩
  | _ => exact .inr ⟨_, rfl⟩

theorem refer_run (target source : NameId) (w : World) :
    Core.refer target source w = match w.spaces.refer target source with
      | (.ok _, spaces) => .ok () { w with spaces := spaces }
      | (.error (.missing ns), _) => .error (.error (.noNamespace (w.nameText ns))) w
      | (.error (.conflict name), _) =>
        .error (.error (.rebinding (w.nameText name) (w.nameText target))) w := by
  rw [Core.refer, run_bind_ok (run_get w)]
  rcases h : w.spaces.refer target source with ⟨(e | count), spaces⟩
  · obtain rfl := Namespaces.refer_failed h
    cases e <;> rfl
  · rfl

theorem refer_moves (target source : NameId) :
    Moves w.realm ((Core.refer target source).after w).realm := by
  rw [Eval.after, refer_run]
  rcases h : w.spaces.refer target source with ⟨(e | count), spaces⟩
  · cases e <;> exact .refl
  · exact .single (.refer h)

/-- Making a namespace, letting it see another one, then switching to it. -/
theorem create_enter_moves {f : Unit → Eval α} {ns source : NameId}
    (hf : ∀ v, ((f ()).after v).realm = ⟨v.spaces, ns⟩) :
    Moves w.realm
      ((Core.refer ns source >>= f).after { w with spaces := w.spaces.create ns }).realm := by
  have hcreate : Moves w.realm ⟨w.spaces.create ns, w.current⟩ := .single (.create ns)
  have hcontains := Namespaces.contains_create w.spaces ns
  have hrun := refer_run ns source { w with spaces := w.spaces.create ns }
  rcases hrefer : (w.spaces.create ns).refer ns source with ⟨(e | count), spaces⟩
  · cases e with
    | missing k =>
      simp only [hrefer] at hrun
      rwa [after_bind_error hrun]
    | conflict name =>
      simp only [hrefer] at hrun
      rwa [after_bind_error hrun]
  · simp only [hrefer] at hrun
    rw [after_bind_ok hrun, hf]
    have henter : spaces.contains ns = true := (Namespaces.contains_refer hrefer ns).trans hcontains
    exact (hcreate.tail (.refer hrefer)).tail (.enter henter)

theorem nsSet_moves (v : Value) : Moves w.realm ((Core.nsSet v).after w).realm := by
  rcases spaceOf_cases "ns-set" v with ⟨ns, hns⟩ | ⟨e, he⟩
  · rw [Core.nsSet, hns, pure_bind, after_bind_ok (run_get w), after_bind_ok (run_modify _ w)]
    split
    · exact create_enter_moves fun _ => rfl
    · have hcreate : Moves w.realm ⟨w.spaces.create ns, w.current⟩ := .single (.create ns)
      exact hcreate.tail (.enter (Namespaces.contains_create w.spaces ns))
  · rw [Core.nsSet, he]
    exact .refl

theorem nsRefer_moves (v : Value) : Moves w.realm ((Core.nsRefer v).after w).realm := by
  rcases spaceOf_cases "ns-refer" v with ⟨ns, hns⟩ | ⟨e, he⟩
  · have hrefer := refer_moves (w := w) w.current ns
    rw [Core.nsRefer, hns, pure_bind, after_bind_ok (run_get w)]
    cases hrun : Core.refer w.current ns w with
    | ok a v =>
      rw [after_ok hrun] at hrefer
      rwa [after_bind_ok hrun]
    | error e v =>
      rw [after_error hrun] at hrefer
      rwa [after_bind_error hrun]
  · rw [Core.nsRefer, he]
    exact .refl

theorem nsRemove_moves (v : Value) : Moves w.realm ((Core.nsRemove v).after w).realm := by
  rcases spaceOf_cases "ns-remove" v with ⟨ns, hns⟩ | ⟨e, he⟩
  · rw [Core.nsRemove, hns, pure_bind, after_bind_ok (run_get w)]
    dsimp only
    split
    · exact .refl
    · rename_i hkept
      simp only [Bool.or_eq_true, beq_iff_eq, not_or] at hkept
      split
      · exact .refl
      · exact .single (.remove hkept.1 hkept.2)
  · rw [Core.nsRemove, he]
    exact .refl

theorem nsUnmap_moves (v name : Value) : Moves w.realm ((Core.nsUnmap v name).after w).realm := by
  rcases spaceOf_cases "ns-unmap" v with ⟨ns, hns⟩ | ⟨e, he⟩
  · rw [Core.nsUnmap, hns, pure_bind]
    cases name with
    | symbol s =>
      dsimp only
      rw [after_bind_ok (run_get w)]
      cases h : w.spaces.unmap? ns s.name with
      | none => exact .refl
      | some p => exact .single (.unmap h)
    | _ => exact .refl
  · rw [Core.nsUnmap, he]
    exact .refl

end

/-! Evaluation, then the operations of an interpreter. -/

/-- A relation between the namespaces of two states is kept by everything if moves keep it. -/
theorem Invariant.of_moves {R : Realm → Realm → Prop}
    (hR : ∀ base p q, Move p q → R base p → R base q) :
    Invariant fun base w => R base.realm w.realm where
  fits_none _ := trivial
  fits_later _ _ _ _ _ := trivial
  closure _ _ _ _ _ _ := trivial
  names _ _ _ h := h
  output _ _ _ h := h
  events _ _ _ h := h
  frame base _ _ h _ := ⟨base, h, trivial, fun _ hv => hv, fun _ _ _ hv => hv⟩
  newClosure _ _ _ _ _ _ _ h _ _ := h
  newLazy _ _ := fun _ h => h
  realize base _ _ _ h _ := ⟨base, h, fun _ _ hv => ⟨hv, fun _ _ => hv, fun _ _ => hv⟩⟩
  -- all above leave the namespaces alone
  declare base name := fun _ h => (declare_moves name).keeps (hR base.realm) h
  define base name value := fun _ h => (define_moves name value).keeps (hR base.realm) h
  nsSet base v := fun _ h => (nsSet_moves v).keeps (hR base.realm) h
  nsRefer base v := fun _ h => (nsRefer_moves v).keeps (hR base.realm) h
  nsRemove base v := fun _ h => (nsRemove_moves v).keeps (hR base.realm) h
  nsUnmap base ns name := fun _ h => (nsUnmap_moves ns name).keeps (hR base.realm) h

/-- The relation of a state to those that moves lead to. -/
def Onward (base w : World) : Prop := Moves base.realm w.realm

theorem onward_invariant : Invariant Onward := .of_moves fun _ _ _ hmove h => h.tail hmove

theorem Preserves.onward {α : Type} {m : Eval α} (h : ∀ base, Preserves (Onward base) m)
    (w : World) : Onward w (m.after w) :=
  h w w .refl

namespace Session
variable {α β : Type}

/-- The state behind a part of a session, whether it succeeds or fails. -/
def after (m : Session α) (w : World) : World :=
  match m w with
  | .ok _ w => w
  | .error _ w => w

/-- A part of a session that changes namespaces by moves alone. -/
def Moving (m : Session α) : Prop := ∀ w, Onward w (m.after w)

namespace Moving

theorem pure (a : α) : Moving (pure a) := fun _ => .refl

theorem throw (f : Failure) : Moving (throw f : Session α) := fun _ => .refl

theorem bind {m : Session α} {f : α → Session β} (hm : Moving m) (hf : ∀ a, Moving (f a)) :
    Moving (m >>= f) := by
  intro w
  have hfirst := hm w
  unfold Session.after at hfirst ⊢
  rw [run_bind]
  cases hrun : m w with
  | ok a v =>
    rw [hrun] at hfirst
    exact hfirst.trans (hf a v)
  | error e v =>
    rw [hrun] at hfirst
    exact hfirst

theorem ofEval {m : Eval α} (hm : ∀ base, Preserves (Onward base) m) : Moving (ofEval m) := by
  intro w
  have hafter := Preserves.onward hm w
  unfold Eval.after at hafter
  unfold Session.after Session.ofEval
  generalize m w = r at hafter ⊢
  rcases r with ⟨a, v⟩ | ⟨_ | _, v⟩ <;> exact hafter

theorem of_ok {m : Session α} (hm : Moving m) {w v : World} {a : α} (h : m w = .ok a v) :
    Onward w v := by
  have hafter := hm w
  rwa [Session.after, h] at hafter

theorem loading {m : Session α} (file : String) (hm : Moving m) : Moving (loading file m) := by
  intro w
  have hafter := hm w
  unfold Session.after at hafter ⊢
  unfold Session.loading
  generalize m w = r at hafter ⊢
  cases r <;> exact hafter

theorem forM {f : α → Session Unit} {xs : List α} (hf : ∀ x, Moving (f x)) :
    Moving (xs.forM f) := by
  induction xs with
  | nil => exact .pure _
  | cons x xs ih => exact .bind (hf x) fun _ => ih

theorem foldlM {f : β → α → Session β} {xs : List α} {b : β} (hf : ∀ b x, Moving (f b x)) :
    Moving (xs.foldlM f b) := by
  induction xs generalizing b with
  | nil => exact .pure b
  | cons x xs ih =>
    rw [List.foldlM_cons]
    exact .bind (hf b x) fun _ => ih

end Moving

variable {n : Nat}

theorem read_moving (source : String) : Moving (read (.ofBudget n) source) := by
  refine .bind (.ofEval fun _ => ?_) fun r => ?_
  · exact ((onward_invariant.keeps n).readSource source).preserves
  · cases r with
    | ok forms => exact .pure _
    | error err => exact .throw _

theorem evaluate_moving (form : Value) : Moving (evaluate (.ofBudget n) form) :=
  .ofEval fun _ => (onward_invariant.keeps n).value none form

theorem apply_moving (callee : Value) (args : List Value) :
    Moving (apply (.ofBudget n) callee args) :=
  .ofEval fun _ => (Engine.Paired.apply (onward_invariant.keeps n) trivial callee args).preserves

theorem describe_moving (style : Style) (v : Value) : Moving (describe (.ofBudget n) style v) :=
  .ofEval fun _ => ((onward_invariant.keeps n).text style v).preserves

theorem runScript_moving (source : String) : Moving (runScript (.ofBudget n) source) :=
  .bind (read_moving source) fun _ =>
    .bind (.foldlM fun _ form => evaluate_moving form) fun _ => .pure _

/-- Results are remembered in vars that are there. -/
theorem record_moving (value : Value) : Moving (record value) := by
  intro w
  have hset : ∀ (s : Namespaces) (id : VarId) (v : Value),
      Moves ⟨s, w.current⟩ ⟨s.setVar id v, w.current⟩ := fun _ id v => .single (.setVar id v)
  unfold Session.after record
  rw [run_modify]
  dsimp only
  split
  · rename_i first second third _ _ _
    cases (w.spaces.var? second).bind (·.value) with
    | none =>
      cases (w.spaces.var? first).bind (·.value) with
      | none => exact hset _ first value
      | some v => exact (hset _ second v).trans (hset _ first value)
    | some v' =>
      cases (w.spaces.var? first).bind (·.value) with
      | none => exact (hset _ third v').trans (hset _ first value)
      | some v => exact (hset _ third v').trans ((hset _ second v).trans (hset _ first value))
  · exact .refl

end Session

namespace Interpreter
open Session (Moving)

theorem enterUser_moves (w : World) : Onward w (enterUser.after w) := by
  rw [enterUser, after_bind_ok (run_modify _ w)]
  exact create_enter_moves fun _ => rfl

theorem bootstrap_moving (n : Nat) (config : Config) : Moving (bootstrap (.ofBudget n) config) := by
  have henter : Moving (Session.ofEval enterUser) :=
    .ofEval fun _ w hw => hw.trans (enterUser_moves w)
  have hload : ∀ file, Moving (loadFile (.ofBudget n) file) := fun file =>
    .bind (.loading file.name (Session.runScript_moving file.source)) fun _ =>
      .ofEval fun _ _ hw => hw
  refine .bind (.ofEval fun _ => .of_paired (.forM fun b => ?_)) fun _ => ?_
  · refine .bind (onward_invariant.toCoupling.intern b.text) fun name => ?_
    exact .bind (onward_invariant.toDefining.pairedDefine rfl name _) fun _ => .pure _
  refine .bind (.ofEval fun _ => .of_paired (.forM fun name => ?_)) fun _ => ?_
  · exact .bind (onward_invariant.toDefining.pairedDeclare rfl name) fun _ => .pure _
  split
  · exact .bind (.forM hload) fun _ => henter
  · exact henter

/-- The states of an interpreter: the one that it starts in, and those behind what it was asked to
do, with or without success and within whatever budgets. -/
inductive Reached : World → Prop
  | start {n : Nat} {config : Config} {w : World} :
    start (.ofBudget n) config = .ok w → Reached w
  | read {w : World} (n : Nat) (source : String) :
    Reached w → Reached ((Session.read (.ofBudget n) source).after w)
  | evaluate {w : World} (n : Nat) (form : Value) :
    Reached w → Reached ((Session.evaluate (.ofBudget n) form).after w)
  | apply {w : World} (n : Nat) (callee : Value) (args : List Value) :
    Reached w → Reached ((Session.apply (.ofBudget n) callee args).after w)
  | describe {w : World} (n : Nat) (style : Style) (v : Value) :
    Reached w → Reached ((Session.describe (.ofBudget n) style v).after w)
  | record {w : World} (value : Value) : Reached w → Reached ((Session.record value).after w)
  | setLog {w : World} (domain : LogDomain) (on : Bool) :
    Reached w → Reached ((Session.setLog domain on).after w)

theorem start_eq_ok {e : Engine} {config : Config} {w : World} (h : start e config = .ok w) :
    bootstrap e config (World.blank config.log) = .ok () w := by
  unfold start at h
  split at h
  · rename_i hrun
    cases h
    exact hrun
  · cases h

theorem Reached.moves {w : World} (h : Reached w) : ∃ log, Moves (World.blank log).realm w.realm := by
  induction h with
  | @start n config w hstart =>
    exact ⟨config.log, (bootstrap_moving n config).of_ok (start_eq_ok hstart)⟩
  | read n source _ ih => exact ih.imp fun _ h => h.trans (Session.read_moving source _)
  | evaluate n form _ ih => exact ih.imp fun _ h => h.trans (Session.evaluate_moving form _)
  | apply n callee args _ ih => exact ih.imp fun _ h => h.trans (Session.apply_moving callee args _)
  | describe n style v _ ih => exact ih.imp fun _ h => h.trans (Session.describe_moving style v _)
  | record value _ ih => exact ih.imp fun _ h => h.trans (Session.record_moving value _)
  | setLog domain on _ ih => exact ih

/-- What holds of an empty `core` and is kept by every move holds in all states of an
interpreter. -/
theorem Reached.keeps {Q : Realm → Prop} (hblank : ∀ log, Q (World.blank log).realm)
    (hQ : ∀ p q, Move p q → Q p → Q q) {w : World} (h : Reached w) : Q w.realm := by
  obtain ⟨log, hmoves⟩ := h.moves
  exact hmoves.keeps hQ (hblank log)

end Interpreter

end LazyLisp
