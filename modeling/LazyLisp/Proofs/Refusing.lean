import LazyLisp.Proofs.EvaluationEffects
import LazyLisp.Proofs.Walking

/-!
Printing without running thunks. An engine that serves no request gives up where a thunk would have
to run. What it gets through it does without changing the state, and every engine does it the same
way; where it gives up, every other engine that comes to an end has run a thunk.
-/

namespace LazyLisp
set_option autoImplicit false

/-! An engine that serves no request. -/

/-- Every request is refused, as if the budget were used up. -/
def Engine.refusing (bound : Nat) : Engine := ⟨fun _ => throw .exhausted, bound⟩

/-- If the computation gets through where lazy cells can run, it leaves the state as it was. -/
def Calm {α : Type} (m : Eval α) : Prop :=
  ∀ w, w.attached = true → Ended (m w) → m.after w = w

namespace Calm
variable {α β : Type}

theorem pure (a : α) : Calm (pure a) := fun _ _ _ => rfl

theorem fail (err : EvalError) : Calm (fail err : Eval α) := fun _ _ _ => rfl

theorem exhausted : Calm (throw .exhausted : Eval α) := fun w _ h => absurd rfl (h w)

theorem bind {m : Eval α} {f : α → Eval β} (hm : Calm m) (hf : ∀ a, Calm (f a)) :
    Calm (m >>= f) := by
  intro w hw hended
  have hfirst := hm w hw hended.of_bind
  cases hrun : m w with
  | error s v =>
    rw [after_error hrun] at hfirst
    rw [after_error (run_bind_error hrun f), hfirst]
  | ok a v =>
    rw [after_ok hrun] at hfirst
    subst hfirst
    rw [Eval.after, run_bind_ok hrun]
    exact hf a v hw (run_bind_ok hrun f ▸ hended)

theorem get_bind {f : World → Eval β} (hf : ∀ w, w.attached = true → Calm (f w)) :
    Calm (get >>= f) :=
  fun w hw hended => hf w hw w hw hended

variable {bound : Nat}

theorem realize (c : CellId) : Calm (Seq.realize (.refusing bound) c) := by
  refine .get_bind fun w hw => ?_
  split
  · exact .pure _
  · exact .fail _
  · exact .fail _
  · -- the thunk would be the first request
    rename_i thunk _
    intro v hv hended
    refine absurd ?_ (hended (v.setCell c .realizing))
    have hattached : (v.setCell c .realizing).attached = true := hv
    rw [Seq.run_eq, Seq.produce, run_bind_ok (run_get _), hattached]
    rfl
  · exact .fail _

end Calm

/-- An engine that serves no request is paired with every engine. -/
theorem Engine.refusing_paired {κ : View} {P : World → World → Prop} {fits : World → Scope → Prop}
    (h : Coupling P fits) {bound : Nat} {e : Engine} (hbound : bound ≤ e.bound) :
    (Engine.refusing bound).Paired κ P fits e :=
  ⟨h, hbound, fun _ _ _ => .exhausted⟩

theorem Engine.refusing_keepsCells (bound : Nat) : (Engine.refusing bound).KeepsCells :=
  Engine.refusing_paired forcing_invariant.toCoupling (Nat.le_refl bound)

/-- Some cell that was pending is no longer so. -/
def Stirred (w v : World) : Prop :=
  ∃ (c : CellId) (thunk : Value) (cell : Cell), w.cells[c]? = some (.pending thunk) ∧
    v.cells[c]? = some cell ∧ cell.isPending = false

namespace Stirred
variable {w v u : World}

theorem later (h : Stirred w v) (hvu : Later v u) : Stirred w u := by
  obtain ⟨c, thunk, cell, hw, hv, hcell⟩ := h
  obtain ⟨cell', hu, hmoves⟩ := hvu c cell hv
  refine ⟨c, thunk, cell', hw, hu, ?_⟩
  rw [Bool.eq_false_iff] at hcell ⊢
  exact fun hpending => hcell (hmoves.isPending hpending)

theorem ne (h : Stirred w v) : v ≠ w := by
  rintro rfl
  obtain ⟨c, thunk, cell, hw, hv, hcell⟩ := h
  cases hw.symm.trans hv
  cases hcell

end Stirred

/-- A cell that was pending keeps an outcome once it has been looked at. -/
theorem Seq.realize_stirs {n : Nat} {w : World} {c : CellId} {thunk : Value}
    (hc : w.cells[c]? = some (.pending thunk)) (hended : Ended (realize (.ofBudget n) c w)) :
    Stirred w ((realize (.ofBudget n) c).after w) := by
  have hlt := (Array.getElem?_eq_some_iff.1 hc).1
  have hrunning := produce_keeps_realizing (Engine.ofBudget_keepsCells n) thunk
    (World.cells_setCell_self hlt)
  rw [realize_of_some hc, Cell.realize, run_eq] at hended
  rw [Eval.after, realize_of_some hc, Cell.realize, run_eq]
  unfold Eval.after at hrunning
  generalize produce (.ofBudget n) thunk (w.setCell c .realizing) = r at hended hrunning ⊢
  rcases r with ⟨s, u⟩ | ⟨err | _, u⟩
  · have hlt := (Array.getElem?_eq_some_iff.1 hrunning).1
    exact ⟨c, thunk, .realized s, hc, World.cells_setCell_self hlt, rfl⟩
  · have hlt := (Array.getElem?_eq_some_iff.1 hrunning).1
    exact ⟨c, thunk, .failed err, hc, World.cells_setCell_self hlt, rfl⟩
  · exact absurd rfl (hended u)

/-- Two computations of which the second may run thunks: it ends as the first does, which changes
nothing, or it has run one. -/
structure Sparing {α : Type} (m m' : Eval α) : Prop where
  calm : Calm m
  later : ∀ w, Later w (m'.after w)
  same : ∀ w, w.attached = true → Ended (m' w) → m w = m' w ∨ Stirred w (m'.after w)

namespace Sparing
variable {α β : Type}

theorem pure (a : α) : Sparing (pure a) (pure a) :=
  ⟨.pure a, fun w => .refl w, fun _ _ _ => .inl rfl⟩

theorem exhausted : Sparing (throw .exhausted : Eval α) (throw .exhausted) :=
  ⟨.exhausted, fun w => .refl w, fun _ _ _ => .inl rfl⟩

theorem bind {m m' : Eval α} {f f' : α → Eval β} (hm : Sparing m m')
    (hf : ∀ a, Sparing (f a) (f' a)) : Sparing (m >>= f) (m' >>= f') := by
  refine ⟨hm.calm.bind fun a => (hf a).calm, fun w => ?_, fun w hw hended => ?_⟩
  · have hfirst := hm.later w
    cases hrun : m' w with
    | error s v =>
      rw [after_error hrun] at hfirst
      rwa [after_error (run_bind_error hrun f')]
    | ok a v =>
      rw [after_ok hrun] at hfirst
      rw [Eval.after, run_bind_ok hrun]
      exact hfirst.trans ((hf a).later v)
  · have hfirst := hm.same w hw hended.of_bind
    cases hrun : m' w with
    | error s v =>
      rw [hrun, after_error hrun] at hfirst
      rw [run_bind_error hrun f', after_error (run_bind_error hrun f')]
      exact hfirst.imp_left fun hsame => run_bind_error hsame f
    | ok a v =>
      rw [hrun, after_ok hrun] at hfirst
      rw [Eval.after, run_bind_ok hrun]
      obtain hsame | hstirred := hfirst
      · -- nothing has run so far, and the second step starts where the first did
        have hcalm : m.after w = w := hm.calm w hw (hsame ▸ .ok a v)
        obtain rfl : v = w := (after_ok hsame).symm.trans hcalm
        rw [run_bind_ok hsame]
        exact (hf a).same v hw (run_bind_ok hrun f' ▸ hended)
      · exact .inr (hstirred.later ((hf a).later v))

theorem get_bind {f f' : World → Eval β} (hf : ∀ w, Sparing (f w) (f' w)) :
    Sparing (get >>= f) (get >>= f') :=
  ⟨.get_bind fun w _ => (hf w).calm, fun w => (hf w).later w, fun w => (hf w).same w⟩

theorem mapM {f f' : α → Eval β} {xs : List α} (hf : ∀ x, Sparing (f x) (f' x)) :
    Sparing (xs.mapM f) (xs.mapM f') := by
  induction xs with
  | nil => exact .pure []
  | cons x xs ih =>
    rw [List.mapM_cons, List.mapM_cons]
    exact (hf x).bind fun _ => ih.bind fun _ => .pure _

variable {bound n : Nat}

theorem realize (c : CellId) :
    Sparing (Seq.realize (.refusing bound) c) (Seq.realize (.ofBudget n) c) := by
  refine ⟨.realize c, Seq.later_after_realize (Engine.ofBudget_keepsCells n) c,
    fun w hw hended => ?_⟩
  cases hc : w.cells[c]? with
  | none => exact .inl ((Seq.realize_of_none hc _).trans (Seq.realize_of_none hc _).symm)
  | some cell =>
    cases cell with
    | pending thunk => exact .inr (Seq.realize_stirs hc hended)
    | _ => exact .inl ((Seq.realize_of_some hc (.refusing bound)).trans
        (Seq.realize_of_some hc (.ofBudget n)).symm)

theorem unconsWithin (k : Nat) (s : Seq) :
    Sparing (s.unconsWithin (.refusing bound) k) (s.unconsWithin (.ofBudget n) k) := by
  induction k generalizing s with
  | zero => exact .exhausted
  | succ k ih =>
    cases s with
    | lazy c => exact (Sparing.realize c).bind ih
    | concat current parts =>
      refine (ih current).bind fun o => ?_
      cases o with
      | some p => exact .pure _
      | none =>
        cases parts with
        | nil => exact .pure _
        | cons next rest => exact ih _
    | _ => exact .pure _

theorem uncons (s : Seq) : Sparing (s.uncons (.refusing n)) (s.uncons (.ofBudget n)) := by
  have hrefusing : s.uncons (.refusing n) = s.unconsWithin (.refusing n) n :=
    funext (Seq.uncons_eq (Engine.refusing_keepsCells n) s)
  have hbudget : s.uncons (.ofBudget n) = s.unconsWithin (.ofBudget n) n :=
    funext (Seq.uncons_eq (Engine.ofBudget_keepsCells n) s)
  rw [hrefusing, hbudget]
  exact .unconsWithin n s

theorem foldWithin {step step' : β → Value → Eval β} (hstep : ∀ b v, Sparing (step b v) (step' b v))
    (k : Nat) (s : Seq) (b : β) :
    Sparing (s.foldWithin (.refusing n) step k b) (s.foldWithin (.ofBudget n) step' k b) := by
  induction k generalizing s b with
  | zero => exact .exhausted
  | succ k ih =>
    refine (Sparing.uncons s).bind fun o => ?_
    cases o with
    | none => exact .pure b
    | some p => exact (hstep b p.1).bind fun b => ih p.2 b

theorem textWithin (style : Style) (k : Nat) (v : Value) :
    Sparing (v.textWithin (.refusing n) style k) (v.textWithin (.ofBudget n) style k) := by
  induction k generalizing v with
  | zero => exact .exhausted
  | succ k ih =>
    refine .get_bind fun w => ?_
    cases v with
    | vector items => exact (Sparing.mapM ih).bind fun _ => .pure _
    | map entries =>
      refine (Sparing.mapM fun f => ?_).bind fun _ => .pure _
      exact (ih f.1).bind fun _ => (ih f.2).bind fun _ => .pure _
    | seq s =>
      refine (Sparing.foldWithin (fun acc v => ?_) n s _).bind fun _ => .pure _
      exact (ih v).bind fun _ => .pure _
    | marked m form => exact (ih form).bind fun _ => .pure _
    | _ => exact .pure _

end Sparing

namespace Value
variable {n : Nat} {v : Value} {w : World}

theorem textOrType_ok {e : Engine} {u : World} {text : String}
    (h : v.text e .readable w = .ok text u) : v.textOrType e w = .ok text u := by
  rw [textOrType, h]

theorem textOrType_error {e : Engine} {u : World} {err : EvalError}
    (h : v.text e .readable w = .error (.error err) u) :
    v.textOrType e w = .ok ("#<" ++ v.typeName ++ ">") u := by
  rw [textOrType, h]

theorem textOrType_exhausted {e : Engine} {u : World}
    (h : v.text e .readable w = .error .exhausted u) :
    v.textOrType e w = .error .exhausted u := by
  rw [textOrType, h]

theorem textOrType_ne_error (e : Engine) (v : Value) (w u : World) (err : EvalError) :
    v.textOrType e w ≠ .error (.error err) u := by
  unfold textOrType
  split
  · nofun
  · rename_i hnot
    intro h
    exact hnot err u h

theorem after_textOrType (e : Engine) (v : Value) :
    (v.textOrType e).after w = (v.text e .readable).after w := by
  cases hrun : v.text e .readable w with
  | ok text u => rw [after_ok hrun, after_ok (textOrType_ok hrun)]
  | error stop u =>
    cases stop with
    | error err => rw [after_error hrun, after_ok (textOrType_error hrun)]
    | exhausted => rw [after_error hrun, after_error (textOrType_exhausted hrun)]

theorem ended_text {e : Engine} (h : Ended (v.textOrType e w)) : Ended (v.text e .readable w) :=
  fun u hexhausted => h u (textOrType_exhausted hexhausted)

theorem textOrType_congr {e e' : Engine} (h : v.text e .readable w = v.text e' .readable w) :
    v.textOrType e w = v.textOrType e' w := by
  rw [textOrType, textOrType, h]

theorem sparing_textOrType (n : Nat) (v : Value) :
    Sparing (v.textOrType (.refusing n)) (v.textOrType (.ofBudget n)) := by
  have htext : Sparing (v.text (.refusing n) .readable) (v.text (.ofBudget n) .readable) :=
    Sparing.textWithin .readable n v
  refine ⟨fun w hw hended => ?_, fun w => ?_, fun w hw hended => ?_⟩
  · rw [after_textOrType]
    exact htext.calm w hw (ended_text hended)
  · rw [after_textOrType]
    exact htext.later w
  · rw [after_textOrType]
    exact (htext.same w hw (ended_text hended)).imp_left textOrType_congr

/-- Printing the value in the state takes no thunk to be run. -/
def PrintsAtOnce (w : World) (v : Value) : Prop := ∃ n, Ended (v.textOrType (.refusing n) w)

/-- A value that has been printed without a change can be printed without a thunk. -/
theorem PrintsAtOnce.of_eq {text : String} (hw : w.attached = true)
    (h : v.textOrType (.ofBudget n) w = .ok text w) : v.PrintsAtOnce w := by
  have hended : Ended (v.textOrType (.ofBudget n) w) := h ▸ .ok text w
  obtain hsame | hstirred := (sparing_textOrType n v).same w hw hended
  · exact ⟨n, hsame ▸ hended⟩
  · exact absurd (after_ok h) hstirred.ne

/-- What can be printed without a thunk is printed the same by every engine with budget enough. -/
theorem PrintsAtOnce.eventually (h : v.PrintsAtOnce w) (hw : w.attached = true) :
    ∃ n text, ∀ m, n ≤ m → v.textOrType (.ofBudget m) w = .ok text w := by
  obtain ⟨n, hended⟩ := h
  have hcalm : (v.textOrType (.refusing n)).after w = w :=
    (sparing_textOrType n v).calm w hw hended
  have hsame : ∀ m, n ≤ m → v.textOrType (.ofBudget m) w = v.textOrType (.refusing n) w := by
    intro m hm
    have hpaired : (Engine.refusing n).Paired .same Unrelated (fun _ _ => True) (.ofBudget m) :=
      Engine.refusing_paired unrelated_invariant.toCoupling hm
    exact (hpaired.textOrType v).run_eq (Unrelated.intro : Unrelated w w) hended
  cases hrun : v.textOrType (.refusing n) w with
  | ok text u =>
    obtain rfl : u = w := (after_ok hrun).symm.trans hcalm
    exact ⟨n, text, fun m hm => (hsame m hm).trans hrun⟩
  | error stop u =>
    cases stop with
    | error err => exact absurd hrun (textOrType_ne_error _ v w u err)
    | exhausted => exact absurd hrun (hended u)

end Value

end LazyLisp
