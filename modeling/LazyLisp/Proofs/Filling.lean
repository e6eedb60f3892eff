import LazyLisp.Proofs.Expansion
import LazyLisp.Proofs.Untraced

/-!
Filling a template: its holes are evaluated once each, from left to right, and the collections are
built from what came of them. Evaluating the expression that the template became does the same,
whatever names the scope binds, because it holds the built-in functions themselves.
-/

namespace LazyLisp.Template
open Shorthand
set_option autoImplicit false

/-- The elements of the collections, one after the other. -/
def joined (pieces : List Value) : Eval Seq := do
  return .concat .empty (← pieces.mapM (Core.seqOf "concat"))

/-- A list of the elements of the collections, but `nil` if all of them are empty. -/
def listed (e : Engine) (pieces : List Value) : Eval Value := do
  if pieces.isEmpty then return .list []
  else (Core.seqOrNil e (← joined pieces)).muted

/-- A vector of the elements of the collections. -/
def vectored (e : Engine) (pieces : List Value) : Eval Value := do
  return .vector (← ((← joined pieces).toList e).muted)

/-- The collection that a part with this value contributes to the one around it. -/
def contribution (v : Value) : Template → Value
  | splice _ => v
  | _ => .list [v]

mutual

/-- Evaluates the holes and builds the form. The template is given back with what came of its
holes. Nothing of it is traced. -/
def fill (e : Engine) (scope : Scope) : Template → Eval (Template × Value)
  | literal v => return (literal v, v)
  | symbol s => return (symbol s, .symbol s)
  | special f => return (special f, .special f)
  | unquote code => do
    let v ← (e.value scope code).muted
    return (unquote v, v)
  | splice code => do
    let v ← (e.value scope code).muted
    return (splice v, v)
  | list parts => do
    let filled ← fillAll e scope parts
    let v ← listed e (filled.map fun p => p.1.contribution p.2)
    return (list (filled.map (·.1)), v)
  | vector parts => do
    let filled ← fillAll e scope parts
    let v ← vectored e (filled.map fun p => p.1.contribution p.2)
    return (vector (filled.map (·.1)), v)

def fillAll (e : Engine) (scope : Scope) : List Template → Eval (List (Template × Value))
  | [] => return []
  | p :: ps => do
    let filled ← p.fill e scope
    return filled :: (← fillAll e scope ps)

end

section
variable {scope : Scope}

theorem refines_joined (pieces : List Value) : Refines (fun _ => joined pieces) fun _ => joined pieces := by
  have hseqOf : ∀ v, Refines (fun _ => Core.seqOf "concat" v) fun _ => Core.seqOf "concat" v := by
    intro v
    unfold Core.seqOf
    cases v.toSeq? with
    | some s => exact .pure s
    | none => exact .fail _
  refine .bind ?_ fun _ => .pure _
  induction pieces with
  | nil => exact .pure []
  | cons v vs ih =>
    simp only [List.mapM_cons]
    exact .bind (hseqOf v) fun _ => .bind ih fun _ => .pure _

theorem refines_builtin (b : Builtin) (args : List Value) :
    Refines (fun n => Core.call (.ofBudget n) scope b args)
      fun n => (Core.call (.ofBudget n) scope b args).muted :=
  .muted fun before _ _ _ h => (Engine.behind_paired before h).builtin trivial b
    (.inl ⟨rfl, unrelated_invariant.toDefining⟩) args

theorem muted_map {α β : Type} (f : α → β) (m : Eval α) :
    (do return f (← m) : Eval β).muted = do return f (← m.muted) := by
  funext w
  show endMuted ((m >>= fun a => pure (f a)) w.muted) = (m.muted >>= fun a => pure (f a)) w
  have hmuted : m.muted w = endMuted (m w.muted) := rfl
  rw [run_bind, run_bind, hmuted]
  cases m w.muted <;> rfl

variable {parts : List Value} {plan : Nat → Eval (List Value)}

theorem refines_concatenation (hplain : AllPlain parts)
    (h : Refines (fun n => parts.mapM ((Engine.ofBudget n).value scope)) plan) :
    Refines (fun n => (Engine.ofBudget n).value scope (concatenation parts))
      fun n => do return .seq (← joined (← plan n)) := by
  refine refines_call (plain_concatenation hplain) (h.bind fun vs => ?_)
  have hcall : ∀ n, Core.call (.ofBudget n) scope .concat vs = do return .seq (← joined vs) := by
    intro n
    simp [Core.call, Core.perform, Builtin.arity, Arity.accepts, joined]
  simp only [hcall]
  exact (refines_joined vs).bind fun _ => .pure _

/-- Listing the elements of the parts, of which there are some. -/
theorem refines_seq (hplain : AllPlain parts)
    (h : Refines (fun n => parts.mapM ((Engine.ofBudget n).value scope)) plan) :
    Refines (fun n => (Engine.ofBudget n).value scope (.list [.builtin .seq, concatenation parts]))
      fun n => plan n >>= joined >>= fun s => (Core.seqOrNil (.ofBudget n) s).muted := by
  have hseq := refines_call_one (b := .seq)
    (Value.plain_list.2 (.cons (.atom rfl) (.cons (plain_concatenation hplain) .nil)))
    (refines_concatenation hplain h) fun v => refines_builtin .seq [v]
  simp only [bind_assoc, pure_bind] at hseq ⊢
  exact hseq

theorem refines_vectorOf (hplain : AllPlain parts)
    (h : Refines (fun n => parts.mapM ((Engine.ofBudget n).value scope)) plan) :
    Refines (fun n => (Engine.ofBudget n).value scope (vectorOf parts))
      fun n => plan n >>= vectored (.ofBudget n) := by
  have hvec := refines_call_one (b := .vec) (plain_vectorOf hplain) (refines_concatenation hplain h)
    fun v => refines_builtin .vec [v]
  have hcall : ∀ s n, (Core.call (.ofBudget n) scope .vec [.seq s]).muted =
      do return .vector (← (s.toList (.ofBudget n)).muted) :=
    fun s n => muted_map Value.vector (s.toList (.ofBudget n))
  simp only [bind_assoc, pure_bind, hcall] at hvec
  exact hvec

end

/-- A filled part contributes as the part itself. -/
theorem contribution_fill {α : Type} (e : Engine) (scope : Scope) (p : Template)
    (f : Value → Eval α) :
    (p.fill e scope >>= fun r => f (r.1.contribution r.2)) =
      p.fill e scope >>= fun r => f (p.contribution r.2) := by
  cases p <;> simp only [fill, bind_assoc, pure_bind, contribution]

mutual

/-- Evaluating the expression of a template does what filling the template does. -/
theorem refines_expression (scope : Scope) (t : Template) {inside : Bool} (hproper : t.Proper inside)
    (hplain : ∀ code ∈ t.holes, code.Plain) :
    Refines (fun n => (Engine.ofBudget n).value scope t.expression)
      fun n => do return (← t.fill (.ofBudget n) scope).2 := by
  cases t with
  | literal v =>
    refine (Refines.pure v).later fun w => ⟨w, rfl, 0, fun m _ => ?_⟩
    cases v <;> first | rfl | cases hproper
  | symbol s => exact refines_quoted (.atom rfl)
  | special f => exact refines_quoted (.atom rfl)
  | unquote code =>
    simp only [fill, expression, bind_assoc, pure_bind, bind_pure]
    exact refines_value scope code
  | splice code =>
    simp only [fill, expression, bind_assoc, pure_bind, bind_pure]
    exact refines_value scope code
  | list parts =>
    cases parts with
    | nil =>
      have hplain : (Value.list [.builtin .list]).Plain := Value.plain_list.2 (.cons (.atom rfl) .nil)
      exact refines_call hplain (Refines.pure (Value.list []))
    | cons p ps =>
      have hparts := refines_elements scope (p :: ps) hproper hplain
      have hseq := refines_seq (elementsAll_plain (p :: ps) hproper hplain) hparts
      simp only [fillAll, bind_assoc, pure_bind, List.map_cons] at hseq
      simp only [fill, fillAll, bind_assoc, pure_bind, bind_pure, List.map_cons, listed]
      exact hseq
  | vector parts =>
    have hparts := refines_elements scope parts hproper hplain
    have hvec := refines_vectorOf (elementsAll_plain parts hproper hplain) hparts
    simp only [bind_assoc, pure_bind] at hvec
    simp only [fill, bind_assoc, pure_bind, bind_pure]
    exact hvec

theorem refines_elements (scope : Scope) (ps : List Template) (hproper : ProperAll ps)
    (hplain : ∀ code ∈ holesAll ps, code.Plain) :
    Refines (fun n => (elementsAll ps).mapM ((Engine.ofBudget n).value scope))
      fun n => do return (← fillAll (.ofBudget n) scope ps).map fun p => p.1.contribution p.2 := by
  cases ps with
  | nil => exact .pure []
  | cons p ps =>
    obtain ⟨hp, hps⟩ := List.forall_mem_append.1 hplain
    have hrest := refines_elements scope ps hproper.2 hps
    have hfirst : Refines (fun n => (Engine.ofBudget n).value scope (p.piece p.expression).elements)
        fun n => do return p.contribution (← p.fill (.ofBudget n) scope).2 := by
      have hvalue := refines_expression scope p hproper.1 hp
      have hone : Refines (fun n => (Engine.ofBudget n).value scope (.list [.builtin .list, p.expression]))
          fun n => do return .list [(← p.fill (.ofBudget n) scope).2] := by
        have hcall := refines_call_one (b := .list)
          (plain_elements (.one p.expression) (expression_plain p hproper.1 hp)) hvalue
          fun v => Refines.pure (Value.list [v])
        simp only [bind_assoc, pure_bind] at hcall
        exact hcall
      cases p with
      | splice code => exact hvalue
      | _ => exact hone
    have hboth := hfirst.bind fun v => hrest.bind fun vs => Refines.pure (v :: vs)
    simp only [bind_assoc, pure_bind] at hboth
    simp only [elementsAll, List.mapM_cons, fillAll, bind_assoc, pure_bind, List.map_cons]
    have hplan := fun n => contribution_fill (.ofBudget n) scope p fun v => do
      return v :: (← fillAll (.ofBudget n) scope ps).map fun p => p.1.contribution p.2
    simp only [hplan]
    exact hboth

end

end LazyLisp.Template
