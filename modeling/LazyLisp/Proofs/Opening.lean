import LazyLisp.Proofs.Untraced

/-!
How evaluation takes a list apart. It looks for a head, traces the list, and goes on with the head
and the rest: a special form gets the rest as it is, anything else is evaluated and called. On a
list of given elements nothing but the trace can change the state before that.
-/

namespace LazyLisp
set_option autoImplicit false

section
variable {e : Engine} {scope : Scope} {s tail : Seq} {head : Value} {w u v : World}

namespace Seq
variable {xs ys : List Value}

theorem uncons_ofList_nil {o : Option (Value × Seq)} (h : (ofList []).uncons e w = .ok o v) :
    o = none ∧ v = w := by
  have hrun : (ofList []).uncons e = pure none := uncons_empty (bound_pos_of_uncons h)
  rw [hrun] at h
  cases h
  exact ⟨rfl, rfl⟩

theorem uncons_ofList_cons {x : Value} {o : Option (Value × Seq)}
    (h : (ofList (x :: xs)).uncons e w = .ok o v) : o = some (x, ofList xs) ∧ v = w := by
  have hrun : (ofList (x :: xs)).uncons e = pure (some (x, ofList xs)) :=
    uncons_cons (bound_pos_of_uncons h) x (ofList xs)
  rw [hrun] at h
  cases h
  exact ⟨rfl, rfl⟩

theorem foldWithin_ofList {k : Nat} {acc items : Array Value}
    (h : (ofList xs).foldWithin e (fun (acc : Array Value) x => return acc.push x) k acc w =
      .ok items v) : items.toList = acc.toList ++ xs ∧ v = w := by
  induction xs generalizing k acc with
  | nil =>
    cases k with
    | zero => cases h
    | succ k =>
      obtain ⟨o, u, ho, hrest⟩ := run_bind_eq_ok.1 h
      obtain ⟨rfl, rfl⟩ := uncons_ofList_nil ho
      cases hrest
      exact ⟨(List.append_nil _).symm, rfl⟩
  | cons x xs ih =>
    cases k with
    | zero => cases h
    | succ k =>
      obtain ⟨o, u, ho, hrest⟩ := run_bind_eq_ok.1 h
      obtain ⟨rfl, rfl⟩ := uncons_ofList_cons ho
      obtain ⟨hitems, rfl⟩ := ih hrest
      refine ⟨?_, rfl⟩
      rw [hitems, Array.toList_push, List.append_assoc]
      rfl

/-- A list that is walked to its end gives its elements. -/
theorem toList_ofList_eq_ok (h : (ofList xs).toList e w = .ok ys v) : ys = xs ∧ v = w := by
  obtain ⟨items, u, hfold, hpure⟩ := run_bind_eq_ok.1 h
  obtain ⟨hitems, rfl⟩ := foldWithin_ofList hfold
  cases hpure
  exact ⟨hitems, rfl⟩

theorem toList_ofList (h : xs.length < e.bound) : (ofList xs).toList e = pure xs := by
  have hpure : xs.mapM (pure : Value → Eval Value) = pure xs := by
    simpa using List.mapM_pure (m := Eval) (l := xs) (f := fun x : Value => x)
  have hfold := Seq.fold_push (f := pure) h
  simp only [hpure, pure_bind] at hfold
  rw [toList, hfold, pure_bind]

end Seq

/-- Evaluation has found the head of a list, has traced the list, and goes on. -/
def Opened (e : Engine) (s : Seq) (w : World) (head : Value) (tail : Seq) (v : World) : Prop :=
  ∃ u, s.uncons e w = .ok (some (head, tail)) u ∧ traced e .eval .evaluating (.seq s) u = .ok () v

theorem evaluateList_traced (e : Engine) (scope : Scope) (s : Seq) :
    Evaluation.evaluateList e scope s = (do
      match ← s.uncons e with
      | none => return .value (.seq s)
      | some (head, tail) =>
        traced e .eval .evaluating (.seq s)
        Watch.all.evaluateCall e scope head tail) := by
  rw [← Watch.all_evaluateList, Watch.evaluateList]
  congr 1
  funext o
  cases o with
  | none => rfl
  | some p => exact (traced_bind e .eval .evaluating (.seq s) _).symm

theorem Opened.evaluateList (h : Opened e s w head tail v) (scope : Scope) :
    Evaluation.evaluateList e scope s w = Watch.all.evaluateCall e scope head tail v := by
  obtain ⟨u, huncons, htraced⟩ := h
  rw [evaluateList_traced, run_bind_ok huncons]
  exact run_bind_ok htraced _

/-- A list evaluates to itself if it has no head. -/
theorem evaluateList_eq_ok {o : Outcome} (h : Evaluation.evaluateList e scope s w = .ok o u) :
    o = .value (.seq s) ∨ ∃ head tail v, Opened e s w head tail v ∧
      Watch.all.evaluateCall e scope head tail v = .ok o u := by
  rw [evaluateList_traced] at h
  obtain ⟨found, v, huncons, hrest⟩ := run_bind_eq_ok.1 h
  cases found with
  | none =>
    cases hrest
    exact .inl rfl
  | some p =>
    obtain ⟨⟨⟩, v', htraced, hcall⟩ := run_bind_eq_ok.1 hrest
    exact .inr ⟨p.1, p.2, v', ⟨v, huncons, htraced⟩, hcall⟩

theorem evaluateCall_special (e : Engine) (scope : Scope) (f : SpecialForm) (tail : Seq) :
    Watch.all.evaluateCall e scope (.special f) tail =
      tail.toList e >>= Evaluation.special e scope f :=
  rfl

theorem traced_off (hlog : w.log.eval = false) (form : Value) :
    traced e .eval .evaluating form w = .ok () w := by
  have hoff : w.log.isEnabled .eval = false := hlog
  rw [traced, run_bind_ok (run_get w), hoff]
  rfl

/-- A special form that is written out is applied to the arguments that stand there. -/
theorem evaluate_special_eq_ok {n : Nat} {f : SpecialForm} {args : List Value} {o : Outcome}
    (h : (Engine.ofBudget n).evaluate scope (.list (.special f :: args)) w = .ok o u) :
    ∃ k v, n = k + 1 ∧
      traced (.ofBudget k) .eval .evaluating (.list (.special f :: args)) w = .ok () v ∧
      Evaluation.special (.ofBudget k) scope f args v = .ok o u := by
  cases n with
  | zero => cases h
  | succ k =>
    have hlist : Evaluation.evaluateList (.ofBudget k) scope (Seq.ofList (.special f :: args)) w =
        .ok o u := h
    rw [evaluateList_traced] at hlist
    obtain ⟨found, v, huncons, hrest⟩ := run_bind_eq_ok.1 hlist
    obtain ⟨rfl, rfl⟩ := Seq.uncons_ofList_cons huncons
    obtain ⟨⟨⟩, v', htraced, hcall⟩ := run_bind_eq_ok.1 hrest
    rw [evaluateCall_special] at hcall
    obtain ⟨args', v'', hargs, hspecial⟩ := run_bind_eq_ok.1 hcall
    obtain ⟨rfl, rfl⟩ := Seq.toList_ofList_eq_ok hargs
    exact ⟨k, _, rfl, htraced, hspecial⟩

theorem opened_ofList {args : List Value} (hbound : 0 < e.bound)
    (htraced : traced e .eval .evaluating (.list (head :: args)) w = .ok () v) :
    Opened e (Seq.ofList (head :: args)) w head (Seq.ofList args) v := by
  have hrun : (Seq.ofList (head :: args)).uncons e = pure (some (head, Seq.ofList args)) :=
    Seq.uncons_cons hbound head (Seq.ofList args)
  exact ⟨w, by rw [hrun]; rfl, htraced⟩

theorem evaluate_special_run {n : Nat} {f : SpecialForm} {args : List Value} (hn : args.length < n)
    (htraced : traced (.ofBudget n) .eval .evaluating (.list (.special f :: args)) w = .ok () v) :
    (Engine.ofBudget (n + 1)).evaluate scope (.list (.special f :: args)) w =
      Evaluation.special (.ofBudget n) scope f args v := by
  have hlist := (opened_ofList (Nat.zero_lt_of_lt hn) htraced).evaluateList scope
  rw [evaluateCall_special, Seq.toList_ofList hn, pure_bind] at hlist
  exact hlist

/-- A head that is no special form is evaluated, then the arguments. -/
theorem evaluateCall_other {f : Value} (hf : ∀ t, f ≠ .special t) (tail : Seq) :
    Watch.all.evaluateCall e scope f tail = (do
      let callee ← (← e.call (.evaluate scope f true)).toValue
      match callee with
      | .transformer id => e.evaluate scope (← Evaluation.expand e id (← tail.toList e))
      | callee =>
        let args ← tail.fold e
          (fun (acc : Array Value) form => return acc.push (← e.value scope form)) #[]
        Evaluation.applyValue e scope callee args.toList) := by
  cases f with
  | special t => exact absurd rfl (hf t)
  | _ => rfl

end

/-- The arguments that a special form may have or lack. -/
theorem length_le_one_cases {rest : List Value} (h : rest.length ≤ 1) :
    rest = [] ∨ ∃ form, rest = [form] := by
  rcases rest with _ | ⟨form, _ | ⟨_, _⟩⟩
  · exact .inl rfl
  · exact .inr ⟨form, rfl⟩
  · simp at h

/-- All arguments of `apply` but the last are handed on as they are. -/
theorem apply_eq (e : Engine) (scope : Scope) (f last : Value) (xs : List Value) :
    Evaluation.apply e scope (f :: (xs ++ [last])) = (do
      let callee ← e.value scope f
      let leading ← xs.mapM (e.value scope)
      let spread ← e.value scope last
      match spread.toSeq? with
      | none => fail (.invalidArgument "apply"
          ("last argument must be a collection or nil, got " ++ spread.typeName))
      | some s => e.call (.apply scope callee (leading ++ (← s.toList e)))) := by
  cases hforms : xs ++ [last] with
  | nil => exact absurd hforms (by simp)
  | cons first more =>
    have hleading : (first :: more).dropLast = xs := by rw [← hforms, List.dropLast_concat]
    have hlast : (first :: more).getLast?.getD .nil = last := by
      rw [← hforms, List.getLast?_concat]
      rfl
    subst hleading hlast
    rfl

end LazyLisp
