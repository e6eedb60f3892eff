import LazyLisp.Proofs.Clauses

/-!
The arity that a closure reports. It is one range for all clauses, from the least to the greatest
number of arguments that one of them takes. Numbers of arguments that no clause takes can lie between.
-/

namespace LazyLisp
set_option autoImplicit false

namespace Closure

/-- The numbers of arguments between one that a clause takes and another one. -/
def Spans (c : Closure) (n : Nat) : Prop :=
  (∃ fewer, fewer ≤ n ∧ (c.select? fewer).isSome) ∧ ∃ more, n ≤ more ∧ (c.select? more).isSome

/-- A number of arguments that no clause takes, though one takes fewer and one takes more. -/
def Skips (c : Closure) (n : Nat) : Prop :=
  c.select? n = none ∧ (∃ fewer, fewer < n ∧ (c.select? fewer).isSome) ∧
    ∃ more, n < more ∧ (c.select? more).isSome

theorem select?_isSome_of_fixed {c : Closure} (h : c.variadic = none) (n : Nat) :
    (c.select? n).isSome ↔ n ∈ counts c.fixed := by
  simp [select?, h, counts]

theorem select?_isSome_of_variadic {c : Closure} {v : Clause} (h : c.variadic = some v) (n : Nat) :
    (c.select? n).isSome ↔ n ∈ counts c.fixed ∨ v.params.length ≤ n := by
  by_cases hle : v.params.length ≤ n <;> simp [select?, h, counts, hle, Option.filter]

theorem arity_accepts_of_variadic {c : Closure} {v : Clause} (h : c.variadic = some v) (n : Nat) :
    c.arity.accepts n ↔ c.Spans n := by
  simp only [Spans, select?_isSome_of_variadic h]
  have hmore : ∃ more, n ≤ more ∧ (more ∈ counts c.fixed ∨ v.params.length ≤ more) :=
    ⟨n + v.params.length, Nat.le_add_right _ _, .inr (Nat.le_add_left _ _)⟩
  rw [and_iff_left hmore]
  cases hmin : (counts c.fixed).min? with
  | none =>
    rw [List.min?_eq_none_iff] at hmin
    simp only [arity, h, hmin, List.min?_nil, Arity.accepts, decide_eq_true_eq, List.not_mem_nil,
      false_or]
    exact ⟨fun hn => ⟨n, Nat.le_refl n, hn⟩, fun ⟨_, hfewer, hv⟩ => Nat.le_trans hv hfewer⟩
  | some least =>
    obtain ⟨hmem, hall⟩ := List.min?_eq_some_iff.1 hmin
    simp only [arity, h, hmin, Arity.accepts, decide_eq_true_eq]
    constructor
    · intro hn
      by_cases hv : v.params.length ≤ n
      · exact ⟨n, Nat.le_refl n, .inr hv⟩
      · exact ⟨least, by omega, .inl hmem⟩
    · rintro ⟨fewer, hfewer, hfixed | hv⟩
      · exact Nat.le_trans (Nat.min_le_left _ _) (Nat.le_trans (hall fewer hfixed) hfewer)
      · exact Nat.le_trans (Nat.min_le_right _ _) (Nat.le_trans hv hfewer)

theorem arity_accepts_of_fixed {c : Closure} (h : c.variadic = none) (hsome : c.fixed ≠ [])
    (n : Nat) : c.arity.accepts n ↔ c.Spans n := by
  simp only [Spans, select?_isSome_of_fixed h]
  have hcounts : counts c.fixed ≠ [] := mt List.map_eq_nil_iff.1 hsome
  obtain ⟨least, hmin⟩ := Option.ne_none_iff_exists'.1 (mt List.min?_eq_none_iff.1 hcounts)
  obtain ⟨most, hmax⟩ := Option.ne_none_iff_exists'.1 (mt List.max?_eq_none_iff.1 hcounts)
  obtain ⟨hleast, hall⟩ := List.min?_eq_some_iff.1 hmin
  obtain ⟨hmost, hall'⟩ := List.max?_eq_some_iff.1 hmax
  have haccepts : c.arity.accepts n ↔ least ≤ n ∧ n ≤ most := by
    simp only [arity, h, hmin, hmax]
    split
    · simp only [Arity.accepts, beq_iff_eq]
      omega
    · simp [Arity.accepts]
  rw [haccepts]
  constructor
  · exact fun ⟨hle, hge⟩ => ⟨⟨least, hle, hleast⟩, most, hge, hmost⟩
  · rintro ⟨⟨fewer, hfewer, hmem⟩, more, hmore, hmem'⟩
    exact ⟨Nat.le_trans (hall fewer hmem) hfewer, Nat.le_trans hmore (hall' more hmem')⟩

/-- What is reported as the arity of a closure reaches from the least to the greatest number of
arguments that one of its clauses takes. -/
theorem Holds.arity_accepts_iff {c : Closure} {clauses : List Clause} (h : c.Holds clauses)
    (hsome : clauses ≠ []) (n : Nat) : c.arity.accepts n ↔ c.Spans n := by
  cases hvariadic : c.variadic with
  | some v => exact arity_accepts_of_variadic hvariadic n
  | none =>
    refine arity_accepts_of_fixed hvariadic (fun hfixed => ?_) n
    obtain ⟨clause, hclause⟩ := List.exists_mem_of_ne_nil clauses hsome
    have hnone := h.fixed.symm.trans hfixed
    have hnone' := h.variadic.symm.trans (congrArg Option.toList hvariadic)
    rw [List.filter_eq_nil_iff] at hnone
    rw [Option.toList_none, List.filter_eq_nil_iff] at hnone'
    cases hrest : clause.rest with
    | none => exact hnone clause hclause (by simp [hrest])
    | some r => exact hnone' clause hclause (by simp [hrest])

/-- What is reported fits a number of arguments that no clause takes just if that is skipped. -/
theorem Holds.skips_iff {c : Closure} {clauses : List Clause} (h : c.Holds clauses)
    (hsome : clauses ≠ []) (n : Nat) :
    c.Skips n ↔ c.select? n = none ∧ c.arity.accepts n := by
  have hne : ∀ k, c.select? n = none → (c.select? k).isSome → k ≠ n := by
    rintro k hnone hk rfl
    rw [hnone] at hk
    cases hk
  rw [h.arity_accepts_iff hsome]
  constructor
  · rintro ⟨hnone, ⟨fewer, hfewer, h⟩, more, hmore, h'⟩
    exact ⟨hnone, ⟨fewer, Nat.le_of_lt hfewer, h⟩, more, Nat.le_of_lt hmore, h'⟩
  · rintro ⟨hnone, ⟨fewer, hfewer, h⟩, more, hmore, h'⟩
    exact ⟨hnone, ⟨fewer, Nat.lt_of_le_of_ne hfewer (hne fewer hnone h), h⟩, more,
      Nat.lt_of_le_of_ne hmore (hne more hnone h').symm, h'⟩

/-- A closure is made of one clause at least where programs make one; of none, it reports 0. -/
theorem Holds.arity_accepts_cases {c : Closure} {clauses : List Clause} (h : c.Holds clauses)
    (n : Nat) : c.arity.accepts n ↔ c.Spans n ∨ clauses = [] ∧ n = 0 := by
  rcases Classical.em (clauses = []) with rfl | hsome
  · have hfixed : c.fixed = [] := h.fixed
    have hvariadic : c.variadic = none := Option.toList_eq_nil_iff.1 h.variadic
    have hspans : ¬ c.Spans n := by
      rintro ⟨⟨fewer, -, hfewer⟩, -⟩
      rw [select?_isSome_of_fixed hvariadic, hfixed] at hfewer
      cases hfewer
    simp [arity, hfixed, hvariadic, counts, Arity.accepts, hspans]
  · simp [h.arity_accepts_iff hsome, hsome]

/-- The reported arity fits exactly the numbers of arguments that a clause takes if none between them
is skipped. -/
theorem Holds.arity_exact_iff {c : Closure} {clauses : List Clause} (h : c.Holds clauses)
    (hsome : clauses ≠ []) :
    (∀ n, c.arity.accepts n ↔ (c.select? n).isSome) ↔ ∀ n, ¬ c.Skips n := by
  simp only [h.skips_iff hsome, not_and, ← Option.not_isSome_iff_eq_none]
  refine forall_congr' fun n => ⟨fun hexact hnone haccepts => hnone (hexact.1 haccepts), ?_⟩
  refine fun hgap => ⟨fun haccepts => ?_, fun hselect => ?_⟩
  · exact Classical.byContradiction fun hnone => hgap hnone haccepts
  · rw [h.arity_accepts_iff hsome]
    exact ⟨⟨n, Nat.le_refl n, hselect⟩, n, Nat.le_refl n, hselect⟩

end Closure
end LazyLisp
