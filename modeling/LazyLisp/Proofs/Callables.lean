import LazyLisp.Proofs.Refusing

/-!
Calling what is not callable. The error has the text of the value, and printing a sequence runs the
thunks of its lazy parts. So the call is a plain error, which leaves everything as it was, exactly
if there is no thunk that printing has to run; numbers, strings and the like have none.
-/

namespace LazyLisp
set_option autoImplicit false

/-- The values that an application does something with. -/
def Value.isCallable : Value → Bool
  | .builtin _ | .function _ | .transformer _ | .vector _ | .map _ | .keyword _ | .symbol _ => true
  | _ => false

/-! Data whose sequences have been walked is printed without a change. -/

/-- With budget enough the computation gives a result and changes nothing. -/
def Peaceful {α : Type} (w : World) (f : Nat → Nat → Eval α) : Prop :=
  ∃ n, ∀ m k, n ≤ m → n ≤ k → ∃ a, f m k w = .ok a w

namespace Peaceful
variable {α β γ : Type} {w : World}

theorem map {f : Nat → Nat → Eval α} (hf : Peaceful w f) (g : α → β) :
    Peaceful w fun m k => return g (← f m k) := by
  obtain ⟨n, hn⟩ := hf
  refine ⟨n, fun m k hm hk => ?_⟩
  obtain ⟨a, ha⟩ := hn m k hm hk
  exact ⟨g a, run_bind_ok ha _⟩

theorem map₂ {f : Nat → Nat → Eval α} {f' : Nat → Nat → Eval β} (hf : Peaceful w f)
    (hf' : Peaceful w f') (g : α → β → γ) :
    Peaceful w fun m k => do
      let a ← f m k
      return g a (← f' m k) := by
  obtain ⟨n, hn⟩ := hf
  obtain ⟨l, hl⟩ := hf'
  refine ⟨max n l, fun m k hm hk => ?_⟩
  obtain ⟨a, ha⟩ := hn m k (by omega) (by omega)
  obtain ⟨b, hb⟩ := hl m k (by omega) (by omega)
  exact ⟨g a b, (run_bind_ok ha _).trans (run_bind_ok hb _)⟩

theorem mapM {f : Nat → Nat → α → Eval β} {xs : List α} (hf : ∀ x ∈ xs, Peaceful w (f · · x)) :
    Peaceful w fun m k => xs.mapM (f m k) := by
  induction xs with
  | nil => exact ⟨0, fun m k _ _ => ⟨[], rfl⟩⟩
  | cons x xs ih =>
    obtain ⟨hx, hxs⟩ := List.forall_mem_cons.1 hf
    simp only [List.mapM_cons]
    exact map₂ hx (ih hxs) (· :: ·)

/-- One more step of depth, which begins with a look at the state. -/
theorem deeper {f : Nat → Nat → Eval α} {g : Nat → Nat → Eval α} (hf : Peaceful w f)
    (hg : ∀ m k, g m (k + 1) w = f m k w) : Peaceful w g := by
  obtain ⟨n, hn⟩ := hf
  refine ⟨n + 1, fun m k hm hk => ?_⟩
  obtain ⟨k, rfl⟩ := Nat.exists_eq_add_of_le' (Nat.le_trans (Nat.succ_pos _) hk)
  rw [hg]
  exact hn m k (by omega) (by omega)

theorem fold {s : Seq} {xs : List Value} {f : Nat → Nat → Value → Eval β} (hs : Seq.Holds w s xs)
    (hf : ∀ x ∈ xs, Peaceful w (f · · x)) :
    Peaceful w fun m k => s.fold (.ofBudget m)
      (fun (acc : Array β) v => return acc.push (← f m k v)) #[] := by
  have hwithin : ∃ n, ∀ m k l, n ≤ m → n ≤ k → n ≤ l → ∀ acc : Array β, ∃ out,
      s.foldWithin (.ofBudget m) (fun (acc : Array β) v => return acc.push (← f m k v)) l acc w =
        .ok out w := by
    induction hs with
    | nil h =>
      obtain ⟨n, hn⟩ := h.uncons
      refine ⟨n + 1, fun m k l hm hk hl acc => ⟨acc, ?_⟩⟩
      obtain ⟨l, rfl⟩ := Nat.exists_eq_add_of_le' (Nat.le_trans (Nat.succ_pos _) hl)
      exact run_bind_ok (hn m (by omega)) _
    | @cons s t x xs h ht ih =>
      obtain ⟨hx, hxs⟩ := List.forall_mem_cons.1 hf
      obtain ⟨n, hn⟩ := h.uncons
      obtain ⟨n', hn'⟩ := hx
      obtain ⟨n'', hn''⟩ := ih hxs
      refine ⟨max n (max n' n'') + 1, fun m k l hm hk hl acc => ?_⟩
      obtain ⟨l, rfl⟩ := Nat.exists_eq_add_of_le' (Nat.le_trans (Nat.succ_pos _) hl)
      obtain ⟨b, hb⟩ := hn' m k (by omega) (by omega)
      obtain ⟨out, hout⟩ := hn'' m k l (by omega) (by omega) (by omega) (acc.push b)
      have hpush : (do return acc.push (← f m k x)) w = .ok (acc.push b) w := run_bind_ok hb _
      exact ⟨out, (run_bind_ok (hn m (by omega)) _).trans ((run_bind_ok hpush _).trans hout)⟩
  obtain ⟨n, hn⟩ := hwithin
  exact ⟨n, fun m k hm hk => hn m k m hm hk hm #[]⟩

end Peaceful

namespace Value

theorem Denotes.peaceful {w : World} {v d : Value} (h : Denotes w v d) (style : Style) :
    Peaceful w fun m k => v.textWithin (.ofBudget m) style k := by
  induction h with
  | @atom v h =>
    refine ⟨1, fun m k _ hk => ?_⟩
    obtain ⟨k, rfl⟩ := Nat.exists_eq_add_of_le' hk
    cases v with
    | vector | seq | map | marked => cases h
    | _ => exact ⟨_, rfl⟩
  | @vector ps h ih =>
    have hitems : ∀ v ∈ ps.map (·.1), Peaceful w fun m k => v.textWithin (.ofBudget m) style k :=
      List.forall_mem_map.2 ih
    exact ((Peaceful.mapM hitems).map _).deeper fun m k => rfl
  | @seq s ps hs h ih =>
    have hitems : ∀ v ∈ ps.map (·.1), Peaceful w fun m k => v.textWithin (.ofBudget m) style k :=
      List.forall_mem_map.2 ih
    exact ((Peaceful.fold hs hitems).map _).deeper fun m k => rfl
  | @map ps hkeys hvalues hdistinct ihkeys ihvalues =>
    have hentries : ∀ f ∈ ps.map (·.1), Peaceful w fun m k => do
        let key ← f.1.textWithin (.ofBudget m) style k
        return key ++ " " ++ (← f.2.textWithin (.ofBudget m) style k) :=
      List.forall_mem_map.2 fun p hp => (ihkeys p hp).map₂ (ihvalues p hp) _
    exact ((Peaceful.mapM hentries).map _).deeper fun m k => rfl
  | marked m h ih => exact (ih.map _).deeper fun m k => rfl

theorem Denotes.printsAtOnce {w : World} {v d : Value} (h : Denotes w v d)
    (hw : w.attached = true) : v.PrintsAtOnce w := by
  obtain ⟨n, hn⟩ := h.peaceful .readable
  obtain ⟨text, htext⟩ := hn n n (Nat.le_refl n) (Nat.le_refl n)
  exact .of_eq (n := n) hw (textOrType_ok htext)

end Value

section
variable {v : Value} {w : World}

/-- An application of what is not callable prints it and fails. -/
theorem Evaluation.applyValue_data (hv : v.isCallable = false) (e : Engine) (scope : Scope)
    (args : List Value) :
    applyValue e scope v args = (do fail (.notCallable (← v.textOrType e))) := by
  cases v with
  | builtin | function | transformer | vector | map | keyword | symbol => cases hv
  | _ => rfl

theorem Evaluation.run_apply_data (hv : v.isCallable = false) (scope : Scope) (args : List Value)
    {n : Nat} {u : World} {text : String} (htext : v.textOrType (.ofBudget n) w = .ok text u) :
    run (n + 1) (.apply scope v args) w = .error (.error (.notCallable text)) u := by
  have happly : applyValue (.ofBudget n) scope v args w = .error (.error (.notCallable text)) u := by
    rw [applyValue_data hv]
    exact run_bind_ok htext _
  exact happly

/-- A call that ends has printed the value. -/
theorem Evaluation.printed_of_ended (hv : v.isCallable = false) {scope : Scope} {args : List Value}
    {n : Nat} (h : Ended (run n (.apply scope v args) w)) :
    ∃ l text u, n = l + 1 ∧ v.textOrType (.ofBudget l) w = .ok text u := by
  cases n with
  | zero => exact absurd rfl (h w)
  | succ l =>
    have happly : Ended (applyValue (.ofBudget l) scope v args w) := h
    rw [applyValue_data hv] at happly
    cases htext : v.textOrType (.ofBudget l) w with
    | ok text u => exact ⟨l, text, u, rfl, htext⟩
    | error stop u =>
      cases stop with
      | error err => exact absurd htext (Value.textOrType_ne_error _ v w u err)
      | exhausted => exact absurd htext (happly.of_bind u)

/-- The call of a value that is not callable never has a result, and its error says just that. Where
lazy cells can run, it leaves the state as it was exactly if printing the value runs no thunk. No atom
has a thunk to be run, and neither has data whose sequences have been walked. -/
theorem calling_data_fails (hv : v.isCallable = false) (hw : w.attached = true) (scope : Scope)
    (args : List Value) :
    (∀ n, Ended (Evaluation.run n (.apply scope v args) w) → ∃ text u,
      Evaluation.run n (.apply scope v args) w = .error (.error (.notCallable text)) u) ∧
    (v.PrintsAtOnce w → ∃ n text, ∀ m, n ≤ m →
      Evaluation.run m (.apply scope v args) w = .error (.error (.notCallable text)) w) ∧
    (∀ n err, Evaluation.run n (.apply scope v args) w = .error (.error err) w →
      v.PrintsAtOnce w) ∧
    (v.isAtom = true → v.PrintsAtOnce w) ∧
    ((∃ d, v.Denotes w d) → v.PrintsAtOnce w) := by
  refine ⟨fun n hn => ?_, fun hprints => ?_, fun n err hplain => ?_, fun hatom => ?_, ?_⟩
  · obtain ⟨l, text, u, rfl, htext⟩ := Evaluation.printed_of_ended hv hn
    exact ⟨text, u, Evaluation.run_apply_data hv scope args htext⟩
  · obtain ⟨n, text, htext⟩ := hprints.eventually hw
    refine ⟨n + 1, text, fun m hm => ?_⟩
    obtain ⟨l, rfl⟩ := Nat.exists_eq_add_of_le' (Nat.le_trans (Nat.succ_pos _) hm)
    exact Evaluation.run_apply_data hv scope args (htext l (by omega))
  · have hended : Ended (Evaluation.run n (.apply scope v args) w) := hplain ▸ .error err w
    obtain ⟨l, text, u, rfl, htext⟩ := Evaluation.printed_of_ended hv hended
    cases (Evaluation.run_apply_data hv scope args htext).symm.trans hplain
    exact .of_eq hw htext
  · exact (Value.Denotes.atom hatom).printsAtOnce hw
  · rintro ⟨d, hd⟩
    exact hd.printsAtOnce hw

end

/-- A cell whose thunk has failed and one that `(lazy-seq* (fn [] (println "x") nil))` has made. -/
def failedAndPrinting : World where
  cells := #[.failed ownRealization, .pending (.function 0)]
  closures := #[⟨none, [⟨[], none, [.list [.builtin .println, .string "x"], .nil]⟩], none, none⟩]

theorem calling_data_fails_failed : ∃ n text, ∀ m, n ≤ m →
    Evaluation.run m (.apply none (.seq (.lazy 0)) [.int 1]) failedAndPrinting =
      .error (.error (.notCallable text)) failedAndPrinting := by
  obtain ⟨-, hplain, -, -, -⟩ :=
    calling_data_fails (v := .seq (.lazy 0)) (w := failedAndPrinting) rfl rfl none [.int 1]
  exact hplain ⟨1, nofun⟩

/-- The error of a call has printed `x`. -/
theorem calling_data_prints :
    ¬ ∀ (v : Value) (w u : World) (n : Nat) (scope : Scope) (args : List Value) (err : EvalError),
      v.isCallable = false → w.attached = true →
      Evaluation.run n (.apply scope v args) w = .error (.error err) u → u.output = w.output := by
  intro h
  have hrun : Evaluation.run 9 (.apply none (.seq (.lazy 1)) []) failedAndPrinting =
      .error (.error (.notCallable "()"))
        ((Evaluation.run 9 (.apply none (.seq (.lazy 1)) [])).after failedAndPrinting) := by
    rfl
  have hsilent := h _ _ _ 9 none [] _ rfl rfl hrun
  revert hsilent
  decide +kernel

end LazyLisp
