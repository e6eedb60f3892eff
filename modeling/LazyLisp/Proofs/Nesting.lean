import LazyLisp.Proofs.LazyCells

/-!
Comparing values inside of collections. In a vector or a list, elements are compared as they are
outside of it, failures included. A map only asks whether values are equal: a comparison that fails
in it counts as unequal, and the failure is lost.
-/

namespace LazyLisp
set_option autoImplicit false

/-! Budgets: what ends within one ends the same way within every larger one. -/

section
variable {n m k l i j : Nat} {w : World}

theorem equalWithin_mono {a b : Value} (hn : n ≤ m) (hk : k ≤ l)
    (h : Ended (a.equalWithin (.ofBudget n) k b w)) :
    a.equalWithin (.ofBudget m) l b w = a.equalWithin (.ofBudget n) k b w :=
  ((Engine.ofBudget_tied hn).equalWithin hk a b).run_eq (Unrelated.intro : Unrelated w w) h

end

namespace Value

/-- What comparing two values comes to if the budget is large enough. -/
def Compares (w : World) (a b : Value) (r : EStateM.Result Stop World Bool) : Prop :=
  Ended r ∧ ∃ n, a.equal (.ofBudget n) b w = r

namespace Compares
variable {w : World} {a b : Value} {r r' : EStateM.Result Stop World Bool} {n k : Nat}

theorem of_equalWithin (hr : Ended r) (h : a.equalWithin (.ofBudget n) k b w = r) :
    Compares w a b r := by
  refine ⟨hr, max n k, ?_⟩
  rw [← h] at hr
  exact (equalWithin_mono (Nat.le_max_left n k) (Nat.le_max_right n k) hr).trans h

theorem eventually (h : Compares w a b r) :
    ∃ n, ∀ m k, n ≤ m → n ≤ k → a.equalWithin (.ofBudget m) k b w = r := by
  obtain ⟨hr, n, hn⟩ := h
  refine ⟨n, fun m k hm hk => ?_⟩
  rw [← hn] at hr
  exact (equalWithin_mono hm hk hr).trans hn

theorem unique (h : Compares w a b r) (h' : Compares w a b r') : r = r' := by
  obtain ⟨n, hn⟩ := h.eventually
  obtain ⟨n', hn'⟩ := h'.eventually
  have hsame := hn (max n n') (max n n') (Nat.le_max_left n n') (Nat.le_max_left n n')
  rw [← hsame]
  exact hn' _ _ (Nat.le_max_right n n') (Nat.le_max_right n n')

end Compares

/-! One element. -/

section
variable {a b k : Value} {w : World}

theorem equalWithin_vector_one (e : Engine) (n : Nat) :
    (Value.vector [a]).equalWithin e (n + 1) (.vector [b]) w = a.equalWithin e n b w := by
  have hvector : (Value.vector [a]).equalWithin e (n + 1) (.vector [b]) w =
      (do if ← a.equalWithin e n b then return true else return false : Eval Bool) w := rfl
  rw [hvector, run_bind]
  cases a.equalWithin e n b w with
  | ok r v => cases r <;> rfl
  | error s v => rfl

theorem equalWithin_list_one {e : Engine} (he : 1 < e.bound) (n : Nat) :
    (Value.list [a]).equalWithin e (n + 1) (.list [b]) w = a.equalWithin e n b w := by
  obtain ⟨bound, hbound⟩ := Nat.exists_eq_add_of_le' he
  have hpos : 0 < e.bound := Nat.lt_trans Nat.zero_lt_one he
  have hone : ∀ x, (Seq.ofList [x]).uncons e = pure (some (x, .empty)) :=
    fun x => Seq.uncons_cons hpos x .empty
  have hlist : (Value.list [a]).equalWithin e (n + 1) (.list [b]) w =
      (do if ← a.equalWithin e n b then
            Equality.seqEqual e (equalWithin e n) (bound + 1) .empty .empty
          else return false : Eval Bool) w := by
    show Equality.seqEqual e (equalWithin e n) e.bound (Seq.ofList [a]) (Seq.ofList [b]) w = _
    rw [hbound, Equality.seqEqual, hone, hone]
    rfl
  have hrest : ∀ v, Equality.seqEqual e (equalWithin e n) (bound + 1) .empty .empty v =
      .ok true v := by
    intro v
    rw [Equality.seqEqual, Seq.uncons_empty hpos]
    rfl
  rw [hlist, run_bind]
  cases a.equalWithin e n b w with
  | error s v => rfl
  | ok r v =>
    cases r with
    | true => exact hrest v
    | false => rfl

end

/-- A failure counts as unequal. -/
def unlessFailed : EStateM.Result Stop World Bool → EStateM.Result Stop World Bool
  | .error (.error _) w => .ok false w
  | r => r

theorem orFalse_eq (m : Eval Bool) (w : World) : m.orFalse w = unlessFailed (m w) := rfl

theorem ended_unlessFailed {r : EStateM.Result Stop World Bool} :
    Ended (unlessFailed r) ↔ Ended r := by
  cases r with
  | ok b w => exact Iff.rfl
  | error s w =>
    cases s with
    | error err => exact ⟨fun _ => .error err w, fun _ => .ok false w⟩
    | exhausted => exact Iff.rfl

/-- The values of two maps with one entry each are compared only if the key is found. -/
theorem equalWithin_map_one {a b k : Value} {w : World} (e : Engine) (n : Nat) :
    (Value.map [(k, a)]).equalWithin e (n + 1) (.map [(k, b)]) w =
      match unlessFailed (k.equalWithin e n k w) with
      | .ok true v => unlessFailed (a.equalWithin e n b v)
      | r => r := by
  have hmap : (Value.map [(k, a)]).equalWithin e (n + 1) (.map [(k, b)]) w =
      Equality.entriesEqual (equalWithin e n) [(k, b)] [(k, a)] w := rfl
  have hlookup : Equality.lookup (equalWithin e n) k [(k, b)] w =
      (do if ← (k.equalWithin e n k).orFalse then return some b else return none : Eval _) w := rfl
  rw [hmap, Equality.entriesEqual, run_bind, hlookup, run_bind, orFalse_eq]
  cases unlessFailed (k.equalWithin e n k w) with
  | error s v => rfl
  | ok found v =>
    cases found with
    | false => rfl
    | true =>
      show (do if ← (a.equalWithin e n b).orFalse then return true else return false : Eval Bool) v =
        unlessFailed (a.equalWithin e n b v)
      rw [run_bind, orFalse_eq]
      cases unlessFailed (a.equalWithin e n b v) with
      | error s v => rfl
      | ok r v => cases r <;> rfl

section
variable {w : World} {a b k : Value} {r : EStateM.Result Stop World Bool}

theorem compares_vector_one : Compares w (.vector [a]) (.vector [b]) r ↔ Compares w a b r := by
  constructor
  · rintro ⟨hr, n, hn⟩
    cases n with
    | zero => exact absurd hn.symm (hr w)
    | succ n => exact .of_equalWithin hr ((equalWithin_vector_one _ n).symm.trans hn)
  · intro h
    obtain ⟨n, hn⟩ := h.eventually
    have hn := hn n n (Nat.le_refl n) (Nat.le_refl n)
    exact .of_equalWithin h.1 ((equalWithin_vector_one _ n).trans hn)

theorem compares_list_one : Compares w (.list [a]) (.list [b]) r ↔ Compares w a b r := by
  constructor
  · intro h
    obtain ⟨n, hn⟩ := h.eventually
    have hn := hn (n + 2) (n + 1) (by omega) (by omega)
    have hbound : 1 < (Engine.ofBudget (n + 2)).bound := Nat.succ_lt_succ (Nat.succ_pos n)
    exact .of_equalWithin h.1 ((equalWithin_list_one hbound n).symm.trans hn)
  · intro h
    obtain ⟨n, hn⟩ := h.eventually
    have hn := hn (n + 2) n (by omega) (Nat.le_refl n)
    have hbound : 1 < (Engine.ofBudget (n + 2)).bound := Nat.succ_lt_succ (Nat.succ_pos n)
    exact .of_equalWithin h.1 ((equalWithin_list_one hbound n).trans hn)

theorem compares_map_one : Compares w (.map [(k, a)]) (.map [(k, b)]) r ↔
    ∃ found, Compares w k k found ∧
      ((∃ v value, found = .ok true v ∧ Compares v a b value ∧ r = unlessFailed value) ∨
        ∃ v, unlessFailed found = .ok false v ∧ r = .ok false v) := by
  constructor
  · rintro ⟨hr, n, hn⟩
    cases n with
    | zero => exact absurd hn.symm (hr w)
    | succ n =>
      have hmap := (equalWithin_map_one _ n).symm.trans hn
      generalize hfound : k.equalWithin (.ofBudget (n + 1)) n k w = found at hmap
      have hcases : (∃ v, found = .ok true v) ∨ (∃ v, unlessFailed found = .ok false v) ∨
          ∃ v, found = .error .exhausted v := by
        rcases found with ⟨_ | _, v⟩ | ⟨err | _, v⟩
        · exact .inr (.inl ⟨v, rfl⟩)
        · exact .inl ⟨v, rfl⟩
        · exact .inr (.inl ⟨v, rfl⟩)
        · exact .inr (.inr ⟨v, rfl⟩)
      rcases hcases with ⟨v, rfl⟩ | ⟨v, hfalse⟩ | ⟨v, rfl⟩
      · have hmap : unlessFailed (a.equalWithin (.ofBudget (n + 1)) n b v) = r := hmap
        refine ⟨_, .of_equalWithin (.ok true v) hfound, .inl ⟨v, _, rfl, ?_, hmap.symm⟩⟩
        exact .of_equalWithin (ended_unlessFailed.1 (hmap ▸ hr)) rfl
      · rw [hfalse] at hmap
        refine ⟨found, .of_equalWithin ?_ hfound, .inr ⟨v, hfalse, hmap.symm⟩⟩
        exact ended_unlessFailed.1 (hfalse ▸ .ok false v)
      · exact absurd hmap.symm (hr v)
  · rintro ⟨found, hkey, ⟨v, value, rfl, hvalue, rfl⟩ | ⟨v, hfalse, rfl⟩⟩
    · obtain ⟨n, hn⟩ := hkey.eventually
      obtain ⟨m, hm⟩ := hvalue.eventually
      have hn := hn (max n m) (max n m) (Nat.le_max_left n m) (Nat.le_max_left n m)
      have hm := hm (max n m) (max n m) (Nat.le_max_right n m) (Nat.le_max_right n m)
      refine .of_equalWithin (n := max n m) (k := max n m + 1) (ended_unlessFailed.2 hvalue.1) ?_
      rw [equalWithin_map_one, hn]
      exact congrArg unlessFailed hm
    · obtain ⟨n, hn⟩ := hkey.eventually
      have hn := hn n n (Nat.le_refl n) (Nat.le_refl n)
      refine .of_equalWithin (n := n) (k := n + 1) (.ok false v) ?_
      rw [equalWithin_map_one, hn, hfalse]

end

/-- Elements of vectors and of lists are compared as outside of them: with the same answer or
failure, and the same state behind it. Values of maps are compared only if the key equals itself,
and then a failure makes them unequal. -/
theorem comparing_one_element (w : World) (k a b : Value) (r : EStateM.Result Stop World Bool) :
    (Compares w (.vector [a]) (.vector [b]) r ↔ Compares w a b r) ∧
    (Compares w (.list [a]) (.list [b]) r ↔ Compares w a b r) ∧
    (Compares w (.map [(k, a)]) (.map [(k, b)]) r ↔
      ∃ found, Compares w k k found ∧
        ((∃ v value, found = .ok true v ∧ Compares v a b value ∧ r = unlessFailed value) ∨
          ∃ v, unlessFailed found = .ok false v ∧ r = .ok false v)) :=
  ⟨compares_vector_one, compares_list_one, compares_map_one⟩

/-- The state behind `(lazy-seq* (fn [] (first 1)))`. -/
def failingSeq : World :=
  meetAll [(9, .serve (.evaluate none (.list [.builtin .lazySeq,
    .list [.special .lambda, .vector [], .list [.builtin .first, .int 1]]]) false))] {}

/-- Comparing the sequence fails, but maps that hold it under one key are merely unequal. -/
theorem failures_are_lost_in_maps :
    ¬ ∀ (demands : List (Nat × Demand)) (k a b : Value) (r : EStateM.Result Stop World Bool),
      Compares (meetAll demands {}) (.map [(k, a)]) (.map [(k, b)]) r ↔
        Compares (meetAll demands {}) a b r := by
  intro h
  have hfails : ∃ v, (Value.seq (.lazy 0)).equal (.ofBudget 9) (.vector [.int 1]) failingSeq =
      .error (.error (.invalidArgument "first" "expected a collection, got integer")) v := ⟨_, rfl⟩
  have hmaps : ∃ v, (Value.map [(.int 1, .seq (.lazy 0))]).equal (.ofBudget 9)
      (.map [(.int 1, .vector [.int 1])]) failingSeq = .ok false v := ⟨_, rfl⟩
  obtain ⟨v, hfails⟩ := hfails
  obtain ⟨u, hmaps⟩ := hmaps
  have hsame := (h _ (.int 1) _ _ _).2 (⟨.error _ v, 9, hfails⟩ : Compares failingSeq _ _ _)
  cases hsame.unique ⟨.ok false u, 9, hmaps⟩

end Value
end LazyLisp
