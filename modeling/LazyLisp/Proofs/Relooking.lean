import LazyLisp.Proofs.Forcing

/-!
The questions about the front of a sequence agree with one look. A look leaves every cell that it
came by with a sequence in it, so that a second one from the beginning runs nothing and finds the
same. Hence asking for the head and then for the tail comes to what one look comes to, in answer,
error and effects, and a concatenation is settled again where it was settled before.
-/

namespace LazyLisp
set_option autoImplicit false

/-- What needs no budget, every engine does. -/
theorem Engine.ofBudget_zero_tied (e : Engine) :
    (Engine.ofBudget 0).Tied id Unrelated (fun _ _ => True) e :=
  ⟨unrelated_invariant.toCoupling, Nat.zero_le _, fun _ _ _ => .exhausted⟩

namespace Seq

/-- The head that a look finds. -/
def seesHead (m : Eval (Option (Value × Seq))) : Eval (Option Value) := do
  return (← m).map (·.1)

/-- The tail that a look finds; behind nothing there is nothing. -/
def seesTail (m : Eval (Option (Value × Seq))) : Eval Seq := do
  return ((← m).map (·.2)).getD .empty

/-! ### Looks that run nothing -/

/-- A look finds this without running a thunk: it needs no budget. -/
def Known (w : World) (k : Nat) (s : Seq) (o : Option (Value × Seq)) : Prop :=
  s.unconsWithin (.ofBudget 0) k w = .ok o w

theorem produce_zero (thunk : Value) (w : World) :
    ∃ stop, produce (.ofBudget 0) thunk w = .error stop w := by
  rw [produce, run_bind_ok (run_get w)]
  cases hattached : w.attached with
  | false => exact ⟨_, rfl⟩
  | true => exact ⟨_, rfl⟩

theorem realize_zero {w v : World} {c : CellId} {s : Seq}
    (h : realize (.ofBudget 0) c w = .ok s v) : v = w ∧ w.cells[c]? = some (.realized s) := by
  cases hc : w.cells[c]? with
  | none =>
    rw [realize_of_none hc] at h
    cases h
  | some cell =>
    rw [realize_of_some hc] at h
    cases cell with
    | pending thunk =>
      obtain ⟨stop, hproduce⟩ := produce_zero thunk (w.setCell c .realizing)
      rw [Cell.realize, run_eq, hproduce] at h
      cases stop <;> cases h
    | realizing => cases h
    | failed err => cases h
    | realized t =>
      cases h
      exact ⟨rfl, rfl⟩

namespace Known
variable {w v : World} {k l : Nat} {s t p : Seq} {parts : List Seq} {c : CellId}
  {o : Option (Value × Seq)}

theorem lazy (hc : w.cells[c]? = some (.realized t)) (h : Known w k t o) :
    Known w (k + 1) (.lazy c) o :=
  (unconsWithin_lazy (realize_realized hc) k).trans h

theorem part {q : Value × Seq} (h : Known w k s (some q)) (parts : List Seq) :
    Known w (k + 1) (.concat s parts) (some (q.1, .concat q.2 parts)) :=
  unconsWithin_concat_some h

theorem last (h : Known w k s none) : Known w (k + 1) (.concat s []) none :=
  unconsWithin_concat_last h

theorem next (h : Known w k s none) (hnext : Known w k (.concat p parts) o) :
    Known w (k + 1) (.concat s (p :: parts)) o :=
  (unconsWithin_concat_next h).trans hnext

theorem unconsWithin (h : Known w k s o) (e : Engine) (hk : k ≤ l) :
    s.unconsWithin e l w = .ok o w :=
  Unrelated.run_ok ((Engine.ofBudget_zero_tied e).unconsWithin hk s) h

theorem deeper (h : Known w k s o) (hk : k ≤ l) : Known w l s o := h.unconsWithin _ hk

/-- A look without a budget leaves the state as it is. It comes by cells that keep sequences, and
they keep them for good. -/
theorem of_zero {u : World} (h : s.unconsWithin (.ofBudget 0) k w = .ok o u) :
    u = w ∧ ∀ v, Later w v → Known v k s o := by
  induction k generalizing s o u with
  | zero => cases h
  | succ k ih =>
    cases s with
    | lazy c =>
      obtain ⟨t, u', hrealize, hrun⟩ := run_bind_eq_ok.1 h
      obtain ⟨rfl, hc⟩ := realize_zero hrealize
      obtain ⟨rfl, hknown⟩ := ih hrun
      exact ⟨rfl, fun v hv => (hknown v hv).lazy (hv.realized hc)⟩
    | concat s parts =>
      obtain ⟨o', u', hfirst, hrun⟩ := run_bind_eq_ok.1 h
      obtain ⟨rfl, hknown⟩ := ih hfirst
      rcases o' with _ | q
      · cases parts with
        | nil =>
          cases hrun
          exact ⟨rfl, fun v hv => (hknown v hv).last⟩
        | cons p parts =>
          obtain ⟨rfl, hnext⟩ := ih hrun
          exact ⟨rfl, fun v hv => (hknown v hv).next (hnext v hv)⟩
      · cases hrun
        exact ⟨rfl, fun v hv => (hknown v hv).part parts⟩
    | _ =>
      cases h
      exact ⟨rfl, fun v hv => rfl⟩

theorem later (h : Known w k s o) (hwv : Later w v) : Known v k s o := (of_zero h).2 v hwv

end Known

/-! ### Looking again -/

section
variable {e : Engine} {w v : World} {k : Nat} {s current : Seq} {parts : List Seq}
  {o : Option (Value × Seq)}

theorem unconsWithin_later (he : e.KeepsCells) (h : s.unconsWithin e k w = .ok o v) :
    Later w v := by
  have hlater : Later w ((s.unconsWithin e k).after w) :=
    .of_tied (fun _ => Engine.Paired.unconsWithin he (Nat.le_refl k) s) w
  rwa [after_ok h] at hlater

/-- What a look has found is known in the state behind it. -/
theorem known_of_unconsWithin (he : e.KeepsCells) (h : s.unconsWithin e k w = .ok o v) :
    Known v k s o := by
  induction k generalizing s w o v with
  | zero => cases h
  | succ k ih =>
    cases s with
    | lazy c =>
      obtain ⟨t, u, hrealize, hrun⟩ := run_bind_eq_ok.1 h
      have hkept := realize_keeps he hrealize
      exact (ih hrun).lazy ((unconsWithin_later he hrun).realized hkept)
    | concat s parts =>
      obtain ⟨o', u, hfirst, hrun⟩ := run_bind_eq_ok.1 h
      have hknown := ih hfirst
      rcases o' with _ | q
      · cases parts with
        | nil =>
          cases hrun
          exact hknown.last
        | cons p parts => exact (hknown.later (unconsWithin_later he hrun)).next (ih hrun)
      · cases hrun
        exact hknown.part parts
    | _ =>
      cases h
      rfl

/-- What a concatenation settles on when a look finds this: the part with the head, which is known
from then on, and the parts behind it. -/
inductive Settled (v : World) (k : Nat) : Option (Seq × List Seq) → Option (Value × Seq) → Prop
  | none : Settled v k none none
  | some {s t : Seq} {x : Value} (parts : List Seq) (h : Known v k s (some (x, t))) :
      Settled v k (some (s, parts)) (some (x, .concat t parts))

theorem Settled.deeper {l : Nat} {r : Option (Seq × List Seq)} (h : Settled v k r o)
    (hk : k ≤ l) : Settled v l r o := by
  cases h with
  | none => exact .none
  | some parts h => exact .some parts (h.deeper hk)

theorem isEmptyWithin_of_ok (h : s.unconsWithin e k w = .ok o v) :
    s.isEmptyWithin e k w = .ok o.isNone v := by
  rw [isEmptyWithin_eq]
  exact run_bind_ok h _

theorem settleWithin_ok (he : e.KeepsCells)
    (h : (Seq.concat current parts).unconsWithin e (k + 1) w = .ok o v) :
    ∃ r, settleWithin e k current parts w = .ok r v ∧ Settled v k r o := by
  induction k generalizing current parts w o v with
  | zero => cases h
  | succ k ih =>
    obtain ⟨o', u, hfirst, hrun⟩ := run_bind_eq_ok.1 h
    have hempty := isEmptyWithin_of_ok hfirst
    rcases o' with _ | q
    · cases parts with
      | nil =>
        cases hrun
        exact ⟨none, run_bind_ok hempty _, .none⟩
      | cons p parts =>
        obtain ⟨r, hsettle, hsettled⟩ := ih hrun
        exact ⟨r, (run_bind_ok hempty _).trans hsettle, hsettled.deeper (Nat.le_succ k)⟩
    · cases hrun
      exact ⟨_, run_bind_ok hempty _, .some parts (known_of_unconsWithin he hfirst)⟩

theorem settleWithin_error {stop : Stop}
    (h : (Seq.concat current parts).unconsWithin e (k + 1) w = .error stop v) :
    settleWithin e k current parts w = .error stop v := by
  have hnone : (do return (← settleWithin e k current parts).isNone) w = .error stop v := by
    rw [settleWithin_isNone]
    exact run_bind_error h _
  rcases run_bind_eq_error.1 hnone with hsettle | ⟨r, u, -, hrun⟩
  · exact hsettle
  · cases hrun

/-- A question that is put once a concatenation has settled comes to what a look says about it. -/
theorem settled_bind {α : Type} (he : e.KeepsCells) {ask : Option (Seq × List Seq) → Eval α}
    {answer : Option (Value × Seq) → α}
    (hask : ∀ r o v, Settled v k r o → ask r v = .ok (answer o) v) :
    (settleWithin e k current parts >>= ask) w =
      ((Seq.concat current parts).unconsWithin e (k + 1) >>= fun o => pure (answer o)) w := by
  cases hrun : (Seq.concat current parts).unconsWithin e (k + 1) w with
  | error stop v =>
    exact (run_bind_error (settleWithin_error hrun) _).trans (run_bind_error hrun _).symm
  | ok o v =>
    obtain ⟨r, hsettle, hsettled⟩ := settleWithin_ok he hrun
    calc (settleWithin e k current parts >>= ask) w
        = ask r v := run_bind_ok hsettle _
      _ = .ok (answer o) v := hask r o v hsettled
      _ = _ := (run_bind_ok hrun fun o => pure (answer o)).symm

/-- Behind the last item, and behind none, there is nothing. -/
theorem getD_indexRest {α : Type} (view : Nat → Seq) (items : List α) (f : α → Value) (i : Nat) :
    ((items[i]?.map fun a => (f a, indexRest view items.length i)).map (·.2)).getD .empty =
      indexRest view items.length i := by
  cases hi : items[i]? with
  | some a => rfl
  | none =>
    have hle : items.length ≤ i := List.getElem?_eq_none_iff.1 hi
    exact (if_pos (Nat.le_succ_of_le hle)).symm

theorem getD_textRest (text : String) (offset : Nat) :
    (((Text.charsFrom text.toList offset).head?.map fun c =>
      (Value.char c, textRest text offset)).map (·.2)).getD .empty = textRest text offset := by
  rw [textRest]
  cases Text.charsFrom text.toList offset <;> rfl

theorem firstWithin_eq (he : e.KeepsCells) (k : Nat) (s : Seq) (w : World) :
    s.firstWithin e k w = seesHead (s.unconsWithin e k) w := by
  induction k generalizing s w with
  | zero => rfl
  | succ k ih =>
    cases s with
    | lazy c =>
      rw [firstWithin, unconsWithin, seesHead, bind_assoc]
      exact run_bind_congr fun t u _ => ih t u
    | concat current parts =>
      refine settled_bind he fun r o v hsettled => ?_
      cases hsettled with
      | none => rfl
      | some parts h => exact (ih _ v).trans (run_bind_ok (h.unconsWithin e (Nat.le_refl k)) _)
    | _ => simp [firstWithin, unconsWithin, seesHead, Function.comp_def]

theorem restWithin_eq (he : e.KeepsCells) (k : Nat) (s : Seq) (w : World) :
    s.restWithin e k w = seesTail (s.unconsWithin e k) w := by
  induction k generalizing s w with
  | zero => rfl
  | succ k ih =>
    cases s with
    | lazy c =>
      rw [restWithin, unconsWithin, seesTail, bind_assoc]
      exact run_bind_congr fun t u _ => ih t u
    | concat current parts =>
      refine settled_bind he fun r o v hsettled => ?_
      cases hsettled with
      | none => rfl
      | some parts h =>
        have hrest := (ih _ v).trans (run_bind_ok (h.unconsWithin e (Nat.le_refl k)) _)
        exact run_bind_ok hrest _
    | vectorView items i =>
      exact congrArg (EStateM.Result.ok · w) (getD_indexRest _ items _ i).symm
    | textView text offset =>
      exact congrArg (EStateM.Result.ok · w) (getD_textRest text offset).symm
    | entryView entries i =>
      exact congrArg (EStateM.Result.ok · w) (getD_indexRest _ entries _ i).symm
    | _ => rfl

theorem first?_eq (he : e.KeepsCells) (s : Seq) (w : World) :
    s.first? e w = seesHead (s.unconsWithin e e.bound) w :=
  firstWithin_eq he e.bound s w

theorem rest_eq (he : e.KeepsCells) (s : Seq) (w : World) :
    s.rest e w = seesTail (s.unconsWithin e e.bound) w :=
  restWithin_eq he e.bound s w

theorem isEmpty_eq (e : Engine) (s : Seq) : s.isEmpty e = seesNone (s.unconsWithin e e.bound) :=
  isEmptyWithin_eq e e.bound s

/-- A step of an iteration, which asks for the head and then for the tail, comes to what one look
comes to. -/
theorem uncons_eq (he : e.KeepsCells) (s : Seq) (w : World) :
    s.uncons e w = s.unconsWithin e e.bound w := by
  have hfirst := first?_eq he s w
  cases hrun : s.unconsWithin e e.bound w with
  | error stop v => exact run_bind_error (hfirst.trans (run_bind_error hrun _)) _
  | ok o v =>
    refine (run_bind_ok (hfirst.trans (run_bind_ok hrun _)) _).trans ?_
    cases o with
    | none => rfl
    | some q =>
      have hagain := (known_of_unconsWithin he hrun).unconsWithin e (Nat.le_refl _)
      exact run_bind_ok ((rest_eq he s v).trans (run_bind_ok hagain _)) _

end

namespace Known
variable {w : World} {k l : Nat} {s : Seq} {o : Option (Value × Seq)}

/-! What is known answers all questions, whatever the engine. -/

theorem firstWithin (h : Known w k s o) (e : Engine) (hk : k ≤ l) :
    s.firstWithin e l w = .ok (o.map (·.1)) w := by
  have hfirst := (firstWithin_eq (Engine.ofBudget_keepsCells 0) k s w).trans (run_bind_ok h _)
  exact Unrelated.run_ok ((Engine.ofBudget_zero_tied e).firstWithin hk s) hfirst

theorem restWithin (h : Known w k s o) (e : Engine) (hk : k ≤ l) :
    s.restWithin e l w = .ok ((o.map (·.2)).getD .empty) w := by
  have hrest := (restWithin_eq (Engine.ofBudget_keepsCells 0) k s w).trans (run_bind_ok h _)
  exact Unrelated.run_ok ((Engine.ofBudget_zero_tied e).restWithin hk s) hrest

theorem first? (h : Known w k s o) (e : Engine) (hk : k ≤ e.bound) :
    s.first? e w = .ok (o.map (·.1)) w :=
  h.firstWithin e hk

theorem rest (h : Known w k s o) (e : Engine) (hk : k ≤ e.bound) :
    s.rest e w = .ok ((o.map (·.2)).getD .empty) w :=
  h.restWithin e hk

theorem isEmpty (h : Known w k s o) (e : Engine) (hk : k ≤ e.bound) :
    s.isEmpty e w = .ok o.isNone w :=
  isEmptyWithin_of_ok (h.unconsWithin e hk)

theorem uncons (h : Known w k s o) (e : Engine) (hk : k ≤ e.bound) : s.uncons e w = .ok o w := by
  refine (run_bind_ok (h.first? e hk) _).trans ?_
  cases o with
  | none => rfl
  | some q => exact run_bind_ok (h.rest e hk) _

end Known
end Seq
end LazyLisp
