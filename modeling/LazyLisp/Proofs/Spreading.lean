import LazyLisp.Proofs.Opening

/-!
Calls through `apply`. With nothing traced, `apply` with leading arguments and a list of further ones
does what the direct call with all of these arguments does: it finds the same function, evaluates the
arguments in the same order, stops at the same failure and calls with the same values. It needs a
larger budget, because the list is a call of its own and `apply` another step.
-/

namespace LazyLisp
set_option autoImplicit false

/-- Evaluation is not traced. -/
def Silent (_base w : World) : Prop := w.log.eval = false

theorem silent_invariant : Invariant Silent := log_invariant fun log => log.eval = false

theorem Engine.silent_tied {n m : Nat} (h : n ≤ m) :
    (Engine.ofBudget n).Tied id Silent (fun _ _ => True) (Engine.ofBudget m) :=
  silent_invariant.toCoupling.tied silent_invariant.toDefining h

namespace Evaluation

/-- A call whose arguments come in two parts: within one budget the function and the leading ones,
within another the further ones and the call. -/
def spreadCall (n m : Nat) (scope : Scope) (f : Value) (xs ys : List Value) : Eval Outcome := do
  let callee ← (Engine.ofBudget n).value scope f
  let leading ← xs.mapM ((Engine.ofBudget n).value scope)
  let more ← ys.mapM ((Engine.ofBudget m).value scope)
  applyValue (.ofBudget m) scope callee (leading ++ more)

end Evaluation

section
variable {n m n' m' : Nat} {scope : Scope} {f : Value} {xs ys : List Value} {w : World}

theorem spreadCall_paired (hn : n ≤ n') (hm : m ≤ m') :
    Paired .same (Silent w) (Evaluation.spreadCall n m scope f xs ys)
      (Evaluation.spreadCall n' m' scope f xs ys) := by
  have hfirst := Engine.silent_tied hn
  have hsecond := Engine.silent_tied hm
  refine .bind (hfirst.value trivial f) fun callee => ?_
  refine .bind (.mapM fun form => hfirst.value trivial form) fun leading => ?_
  refine .bind (.mapM fun form => hsecond.value trivial form) fun more => ?_
  intro v hv
  exact hsecond.applyValue_ends trivial hv _ _ (.inl ⟨rfl, silent_invariant.toDefining⟩)
    (.inl (View.ofCurrent_faithful id))

theorem spreadCall_mono (hn : n ≤ n') (hm : m ≤ m') (hlog : w.log.eval = false)
    (hended : Ended (Evaluation.spreadCall n m scope f xs ys w)) :
    Evaluation.spreadCall n' m' scope f xs ys w = Evaluation.spreadCall n m scope f xs ys w :=
  (@spreadCall_paired _ _ _ _ _ _ _ _ w hn hm).run_eq hlog hended

/-- Evaluating the function and the leading arguments leaves evaluation untraced. -/
theorem silent_of_leading {callee : Value} {leading : List Value} {u v : World}
    (hlog : w.log.eval = false) (hf : (Engine.ofBudget n).value scope f w = .ok callee u)
    (hxs : xs.mapM ((Engine.ofBudget n).value scope) u = .ok leading v) : v.log.eval = false := by
  have hengine := Engine.silent_tied (Nat.le_refl n)
  have hu := (@Engine.Paired.value _ _ _ w _ _ scope hengine trivial f).preserves w hlog
  rw [after_ok hf] at hu
  have hmap : Paired .same (Silent w) (xs.mapM ((Engine.ofBudget n).value scope))
      (xs.mapM ((Engine.ofBudget n).value scope)) :=
    .mapM fun form => hengine.value trivial form
  have hv := hmap.preserves u hu
  rwa [after_ok hxs] at hv

/-! The call through `apply`. -/

theorem value_listed (hn : ys.length < n) (hlog : w.log.eval = false) :
    (Engine.ofBudget (n + 1)).value scope (.list (.builtin .list :: ys)) w =
      (do return .list (← ys.mapM ((Engine.ofBudget n).value scope)) : Eval Value) w := by
  rw [Engine.value_call hn, run_bind_ok (traced_off hlog _)]
  rfl

theorem length_of_mapM {α β : Type} {g : α → Eval β} {items : List α} {out : List β} {u v : World}
    (h : items.mapM g u = .ok out v) : out.length = items.length := by
  induction items generalizing u out with
  | nil =>
    cases h
    rfl
  | cons x items ih =>
    rw [List.mapM_cons] at h
    obtain ⟨y, u', -, hrest⟩ := run_bind_eq_ok.1 h
    obtain ⟨rest, u'', hitems, hpure⟩ := run_bind_eq_ok.1 hrest
    cases hpure
    rw [List.length_cons, List.length_cons, ih hitems]

theorem evaluate_apply_list (hn : xs.length + ys.length + 2 < n) (hlog : w.log.eval = false) :
    (Engine.ofBudget (n + 2)).evaluate scope
        (.list (.special .apply :: f :: (xs ++ [.list (.builtin .list :: ys)]))) w =
      Evaluation.spreadCall (n + 1) n scope f xs ys w := by
  rw [evaluate_special_run (by simp; omega) (traced_off hlog _)]
  show Evaluation.apply _ scope _ w = _
  rw [apply_eq, Evaluation.spreadCall]
  refine run_bind_congr fun callee u hf => run_bind_congr fun leading v hxs => ?_
  have hsilent := silent_of_leading hlog hf hxs
  rw [run_bind, value_listed (by omega) hsilent, ← run_bind, bind_assoc]
  refine run_bind_congr fun more v' hys => ?_
  -- the list has as many elements as it has forms, so the budget suffices to spread it
  have hlength : more.length < (Engine.ofBudget (n + 1)).bound := by
    show more.length < n + 1
    rw [length_of_mapM hys]
    omega
  show ((Seq.ofList more).toList (.ofBudget (n + 1)) >>= _) v' = _
  rw [Seq.toList_ofList hlength, pure_bind]
  rfl

theorem evaluate_apply_nil (hn : xs.length + 2 < n) (hlog : w.log.eval = false) :
    (Engine.ofBudget (n + 2)).evaluate scope
        (.list (.special .apply :: f :: (xs ++ [.nil]))) w =
      Evaluation.spreadCall (n + 1) n scope f xs [] w := by
  rw [evaluate_special_run (by simp; omega) (traced_off hlog _)]
  show Evaluation.apply _ scope _ w = _
  rw [apply_eq, Evaluation.spreadCall]
  refine run_bind_congr fun callee u hf => run_bind_congr fun leading v hxs => ?_
  rfl

/-! The direct call. -/

/-- The head of a list is evaluated as any form, unless it denotes a macro. -/
theorem evaluate_head
    (hordinary : ∀ id u, (Engine.ofBudget n).call (.evaluate scope f true) w ≠
      .ok (.value (.transformer id)) u) :
    (Engine.ofBudget n).call (.evaluate scope f true) w =
      (Engine.ofBudget n).call (.evaluate scope f false) w := by
  cases n with
  | zero => rfl
  | succ n =>
    cases f with
    | symbol s =>
      have hrun : ∀ asHead, (Engine.ofBudget (n + 1)).call (.evaluate scope (.symbol s) asHead) w =
          Evaluation.evaluateSymbol scope s asHead w := fun _ => rfl
      rw [hrun] at hordinary ⊢
      rw [hrun]
      unfold Evaluation.evaluateSymbol at hordinary ⊢
      rw [run_bind_ok (run_get w)] at hordinary ⊢
      rw [run_bind_ok (run_get w)]
      cases hresolve : w.resolve? scope s with
      | none => rfl
      | some v =>
        cases v with
        | transformer id =>
          rw [hresolve] at hordinary
          exact absurd rfl (hordinary id w)
        | _ => rfl
    | transformer id => exact absurd rfl (hordinary id w)
    | _ => rfl

theorem evaluate_call (hn : xs.length + ys.length < n) (hlog : w.log.eval = false)
    (hspecial : ∀ t, f ≠ .special t)
    (hordinary : ∀ id u, (Engine.ofBudget n).call (.evaluate scope f true) w ≠
      .ok (.value (.transformer id)) u) :
    (Engine.ofBudget (n + 1)).evaluate scope (.list (f :: (xs ++ ys))) w =
      Evaluation.spreadCall n n scope f xs ys w := by
  have hopened : Opened (.ofBudget n) (Seq.ofList (f :: (xs ++ ys))) w f (Seq.ofList (xs ++ ys)) w :=
    opened_ofList (Nat.zero_lt_of_lt hn) (traced_off hlog _)
  have hlist := hopened.evaluateList scope
  have hfold := @Seq.fold_push (.ofBudget n) ((Engine.ofBudget n).value scope) (xs ++ ys)
    (by rw [List.length_append]; exact hn)
  show Evaluation.evaluateList (.ofBudget n) scope (Seq.ofList (f :: (xs ++ ys))) w = _
  -- `apply` evaluates the function as a form, a call evaluates it as a head
  rw [hlist, evaluateCall_other hspecial, hfold, Evaluation.spreadCall, Engine.value,
    Engine.evaluate, run_bind, evaluate_head hordinary, ← run_bind, ← bind_assoc]
  refine run_bind_congr fun callee u hcallee => ?_
  have hvalue : ∀ id, callee ≠ .transformer id := by
    rintro id rfl
    obtain ⟨o, v, ho, hto⟩ := run_bind_eq_ok.1 hcallee
    cases o with
    | value v =>
      cases hto
      exact hordinary id u ((evaluate_head hordinary).trans ho)
    | again values => cases hto
  split
  · exact absurd rfl (hvalue _)
  · rw [List.mapM_append]
    simp only [bind_assoc, pure_bind]

end

section
variable {scope : Scope} {f : Value} {xs ys : List Value} {w : World}
  {r : EStateM.Result Stop World Outcome}

/-- What is such a call within large enough budgets comes to what the call ends in. -/
theorem comesTo_iff_spreadCall {c : Nat → Eval Outcome} {least more extra : Nat}
    (hlog : w.log.eval = false)
    (hc : ∀ n, least ≤ n →
      c (n + more) w = Evaluation.spreadCall (n + extra) n scope f xs ys w) :
    ComesTo c w r ↔ Ended r ∧ ∃ n m, Evaluation.spreadCall n m scope f xs ys w = r := by
  constructor
  · rintro ⟨hended, n, hn⟩
    refine ⟨hended, max least n + extra, max least n, ?_⟩
    rw [← hc _ (Nat.le_max_left least n)]
    exact hn _ (by omega)
  · rintro ⟨hended, n, m, hcall⟩
    refine ⟨hended, max least (max n m) + more, fun k hk => ?_⟩
    obtain ⟨k, rfl⟩ := Nat.exists_eq_add_of_le' (Nat.le_trans (Nat.le_add_left _ _) hk)
    rw [hc k (by omega), spreadCall_mono (by omega) (by omega) hlog (hcall ▸ hended), hcall]

/-- With evaluation untraced, for a head that is no special form and denotes no macro, `apply` with
leading arguments and a list of further ones comes to what the direct call comes to: the same value,
recur signal or error, and the same state with the same output behind it. In place of an empty list
of further arguments there may be `nil`. -/
theorem apply_spreads (hlog : w.log.eval = false) (hspecial : ∀ t, f ≠ .special t)
    (hordinary : ∀ n id u, (Engine.ofBudget n).call (.evaluate scope f true) w ≠
      .ok (.value (.transformer id)) u) :
    (∀ r, ComesTo (fun n => (Engine.ofBudget n).evaluate scope
          (.list (.special .apply :: f :: (xs ++ [.list (.builtin .list :: ys)])))) w r ↔
        ComesTo (fun n => (Engine.ofBudget n).evaluate scope (.list (f :: (xs ++ ys)))) w r) ∧
    ∀ r, ComesTo (fun n => (Engine.ofBudget n).evaluate scope
          (.list (.special .apply :: f :: (xs ++ [.nil])))) w r ↔
        ComesTo (fun n => (Engine.ofBudget n).evaluate scope (.list (f :: xs))) w r := by
  have hdirect : ∀ r zs,
      ComesTo (fun n => (Engine.ofBudget n).evaluate scope (.list (f :: (xs ++ zs)))) w r ↔
        Ended r ∧ ∃ n m, Evaluation.spreadCall n m scope f xs zs w = r := fun r zs =>
    @comesTo_iff_spreadCall scope f xs zs w r _ (xs.length + zs.length + 1) 1 0 hlog
      fun n hn => evaluate_call (by omega) hlog hspecial (hordinary n)
  constructor
  · intro r
    rw [hdirect r ys]
    exact @comesTo_iff_spreadCall scope f xs ys w r _ (xs.length + ys.length + 3) 2 1 hlog
      fun n hn => evaluate_apply_list (by omega) hlog
  · intro r
    have hnone := hdirect r []
    rw [List.append_nil] at hnone
    rw [hnone]
    exact @comesTo_iff_spreadCall scope f xs [] w r _ (xs.length + 3) 2 1 hlog
      fun n hn => evaluate_apply_nil (by omega) hlog

end

/-- Every end within one budget is what evaluation comes to. -/
theorem comesTo_evaluate {n : Nat} {scope : Scope} {form : Value} {w : World}
    {r : EStateM.Result Stop World Outcome} (hended : Ended r)
    (h : (Engine.ofBudget n).evaluate scope form w = r) :
    ComesTo (fun n => (Engine.ofBudget n).evaluate scope form) w r := by
  refine ⟨hended, n, fun m hm => ?_⟩
  have hrun := ((Engine.ofBudget_tied hm).evaluate trivial form).run_eq
    (Unrelated.intro : Unrelated w w) (h ▸ hended)
  exact hrun.trans h

/-- `(apply vector nil (list true))`, like `(vector nil true)`. -/
theorem apply_spreads_vector :
    ComesTo (fun n => (Engine.ofBudget n).evaluate none (.list [.special .apply, .builtin .vector,
        .nil, .list [.builtin .list, .bool true]])) (World.blank {})
      (.ok (.value (.vector [.nil, .bool true])) (World.blank {})) := by
  have hordinary : ∀ n id u, (Engine.ofBudget n).call (.evaluate none (.builtin .vector) true)
      (World.blank {}) ≠ .ok (.value (.transformer id)) u := by
    intro n id u hrun
    cases n with
    | zero => cases hrun
    | succ n => cases hrun
  have hsame := @apply_spreads none (.builtin .vector) [.nil] [.bool true] (World.blank {}) rfl nofun
    hordinary
  exact (hsame.1 _).2 (@comesTo_evaluate 6 _ _ _ _ (.ok _ _) rfl)

end LazyLisp
