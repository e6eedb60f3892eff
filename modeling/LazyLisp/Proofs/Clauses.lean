import LazyLisp.Proofs.Capture
import Mathlib.Data.List.Pairwise

/-!
Which clauses a closure can be made of, and which of them a call runs. Clauses make a closure just
when no number of arguments can fit two of them, so there is one clause at most to select. The frame
of a call has one binding for every parameter of that clause, the rest parameter included, and a
round with as many values replaces them all.
-/

namespace LazyLisp
set_option autoImplicit false

namespace Clause

/-- Whether a call with that many arguments fits. -/
def accepts (c : Clause) (n : Nat) : Bool :=
  if c.rest.isSome then c.params.length ≤ n else c.params.length == n

/-- The symbols that a call binds, in order. -/
def symbols (c : Clause) : List Symbol := c.params ++ c.rest.toList

theorem length_symbols (c : Clause) : c.symbols.length = c.bindingCount := by
  cases hrest : c.rest <;> simp [symbols, bindingCount, hrest]

theorem accepts_iff_of_fixed {c : Clause} (h : c.rest = none) (n : Nat) :
    c.accepts n ↔ c.params.length = n := by
  simp [accepts, h]

theorem accepts_iff_of_variadic {c : Clause} (h : c.rest ≠ none) (n : Nat) :
    c.accepts n ↔ c.params.length ≤ n := by
  simp [accepts, Option.isSome_iff_ne_none.2 h]

theorem length_le_of_accepts {c : Clause} {n : Nat} (h : c.accepts n) : c.params.length ≤ n := by
  by_cases hrest : c.rest = none
  · exact Nat.le_of_eq ((accepts_iff_of_fixed hrest n).1 h)
  · exact (accepts_iff_of_variadic hrest n).1 h

/-- What may be made into one closure: clauses without a rest parameter differ in how many
parameters they have, at most one clause has a rest parameter, and it has more parameters in front
of that than all others have. -/
structure Compatible (clauses : List Clause) : Prop where
  distinct : clauses.Pairwise fun a b =>
    a.rest = none → b.rest = none → a.params.length ≠ b.params.length
  single : clauses.Pairwise fun a b => a.rest = none ∨ b.rest = none
  beyond : ∀ v ∈ clauses, v.rest ≠ none → ∀ f ∈ clauses, f.rest = none →
    f.params.length < v.params.length

namespace Compatible
variable {clauses : List Clause}

theorem pairwise (h : Compatible clauses) (n : Nat) :
    clauses.Pairwise fun a b => ¬ (a.accepts n ∧ b.accepts n) := by
  refine (h.distinct.and h.single).imp_of_mem ?_
  rintro a b ha hb ⟨hdistinct, hsingle⟩ ⟨hacceptsA, hacceptsB⟩
  by_cases hrestA : a.rest = none <;> by_cases hrestB : b.rest = none
  · rw [accepts_iff_of_fixed hrestA] at hacceptsA
    rw [accepts_iff_of_fixed hrestB] at hacceptsB
    exact hdistinct hrestA hrestB (hacceptsA.trans hacceptsB.symm)
  · rw [accepts_iff_of_fixed hrestA] at hacceptsA
    have hless := h.beyond b hb hrestB a ha hrestA
    have hleast := length_le_of_accepts hacceptsB
    omega
  · rw [accepts_iff_of_fixed hrestB] at hacceptsB
    have hless := h.beyond a ha hrestA b hb hrestB
    have hleast := length_le_of_accepts hacceptsA
    omega
  · exact hsingle.elim hrestA hrestB

/-- No number of arguments fits two of the clauses. -/
theorem length_filter_le (h : Compatible clauses) (n : Nat) :
    (clauses.filter (·.accepts n)).length ≤ 1 := by
  have hpairs := (h.pairwise n).filter (·.accepts n)
  have hall : ∀ c ∈ clauses.filter (·.accepts n), c.accepts n := fun c hc => (List.mem_filter.1 hc).2
  generalize clauses.filter (·.accepts n) = found at hpairs hall
  rcases found with _ | ⟨a, _ | ⟨b, more⟩⟩
  · exact Nat.zero_le 1
  · exact Nat.le_refl 1
  · have hnone := (List.pairwise_cons.1 hpairs).1 b List.mem_cons_self
    exact absurd ⟨hall a (by simp), hall b (by simp)⟩ hnone

theorem eq_of_accepts (h : Compatible clauses) {n : Nat} {a b : Clause} (ha : a ∈ clauses)
    (hb : b ∈ clauses) (hacceptsA : a.accepts n) (hacceptsB : b.accepts n) : a = b := by
  by_contra hne
  have hsymm : Std.Symm fun a b : Clause => ¬ (a.accepts n ∧ b.accepts n) :=
    ⟨fun _ _ hnone hboth => hnone hboth.symm⟩
  exact (h.pairwise n).forall ha hb hne ⟨hacceptsA, hacceptsB⟩

end Compatible

/-! The bindings of a call. -/

/-- Bindings of every parameter to the argument in its place, and of the rest parameter to what is
left of the arguments. -/
structure Binds (c : Clause) (args : List Value) (bindings : List (Symbol × Value)) : Prop where
  length : bindings.length = c.bindingCount
  param : ∀ (i : Nat) (s : Symbol), c.params[i]? = some s →
    ∃ v, args[i]? = some v ∧ bindings[i]? = some (s, v)
  rest : ∀ r, c.rest = some r → bindings[c.params.length]? =
    some (r, if args.length = c.params.length then .nil else .list (args.drop c.params.length))

section
variable {c : Clause} {args : List Value}

theorem zip_length (h : c.accepts args.length) : (c.params.zip args).length = c.params.length := by
  rw [List.length_zip, Nat.min_eq_left (length_le_of_accepts h)]

theorem bindings_symbols (h : c.accepts args.length) : (c.bindings args).map (·.1) = c.symbols := by
  have hzip : (c.params.zip args).map (·.1) = c.params := List.map_fst_zip (length_le_of_accepts h)
  cases hrest : c.rest <;> simp [bindings, symbols, hrest, hzip]

theorem bindings_length (h : c.accepts args.length) : (c.bindings args).length = c.bindingCount := by
  rw [← length_symbols, ← bindings_symbols h, List.length_map]

theorem bindings_param (h : c.accepts args.length) {i : Nat} {s : Symbol}
    (hi : c.params[i]? = some s) : ∃ v, args[i]? = some v ∧ (c.bindings args)[i]? = some (s, v) := by
  have hlt : i < args.length :=
    Nat.lt_of_lt_of_le (List.getElem?_eq_some_iff.1 hi).1 (length_le_of_accepts h)
  have harg : args[i]? = some args[i] := List.getElem?_eq_getElem hlt
  have hpair : (c.params.zip args)[i]? = some (s, args[i]) := List.getElem?_zip_eq_some.2 ⟨hi, harg⟩
  refine ⟨args[i], harg, ?_⟩
  rw [bindings]
  cases c.rest with
  | none => exact hpair
  | some r =>
    dsimp only
    rw [List.getElem?_append_left (List.getElem?_eq_some_iff.1 hpair).1, hpair]

theorem bindings_rest (h : c.accepts args.length) {r : Symbol} (hr : c.rest = some r) :
    (c.bindings args)[c.params.length]? =
      some (r, if args.length = c.params.length then .nil
        else .list (args.drop c.params.length)) := by
  have hlength := length_le_of_accepts h
  have hempty : (args.drop c.params.length).isEmpty ↔ args.length = c.params.length := by
    rw [List.isEmpty_iff, List.drop_eq_nil_iff]
    omega
  rw [bindings, hr]
  dsimp only
  rw [List.getElem?_append_right (Nat.le_of_eq (zip_length h)), zip_length h, Nat.sub_self]
  simp only [List.getElem?_cons_zero, hempty]

theorem binds_bindings (h : c.accepts args.length) : c.Binds args (c.bindings args) :=
  ⟨bindings_length h, fun _ _ => bindings_param h, fun _ => bindings_rest h⟩

end

end Clause

namespace Closure

theorem counts_append (xs ys : List Clause) : counts (xs ++ ys) = counts xs ++ counts ys :=
  List.map_append

theorem sortClauses_eq_ok_iff {label : String} {fixed clauses fs : List Clause}
    {variadic v : Option Clause} (hfixed : (counts fixed).Nodup) :
    sortClauses label fixed variadic clauses = .ok (fs, v) ↔
      fs = fixed ++ clauses.filter (·.rest.isNone) ∧ (counts fs).Nodup ∧
        v.toList = variadic.toList ++ clauses.filter (·.rest.isSome) := by
  induction clauses generalizing fixed variadic with
  | nil =>
    have hvariadic : variadic = v ↔ v.toList = variadic.toList := by
      cases variadic <;> cases v <;> simp [eq_comm]
    simp only [sortClauses, Except.ok.injEq, Prod.mk.injEq, List.filter_nil, List.append_nil,
      ← hvariadic]
    constructor
    · rintro ⟨rfl, rfl⟩
      exact ⟨rfl, hfixed, rfl⟩
    · rintro ⟨rfl, -, rfl⟩
      exact ⟨rfl, rfl⟩
  | cons c rest ih =>
    rw [sortClauses]
    cases hrest : c.rest with
    | some r =>
      simp only [List.filter_cons, hrest, Option.isSome_some, Option.isNone_some, if_true]
      cases variadic with
      | none => simpa using @ih fixed (some c) hfixed
      | some old =>
        refine iff_of_false nofun ?_
        rintro ⟨-, -, htwo⟩
        cases v <;> cases htwo
    | none =>
      have hany : (fixed.any fun f => f.params.length == c.params.length) ↔
          c.params.length ∈ counts fixed := by
        simp [counts]
      simp only [List.filter_cons, hrest, Option.isSome_none, Option.isNone_none, if_true, hany,
        Bool.false_eq_true, if_false]
      by_cases hmem : c.params.length ∈ counts fixed
      · rw [if_pos hmem]
        refine iff_of_false nofun ?_
        rintro ⟨rfl, hnodup, -⟩
        rw [counts_append, List.nodup_append] at hnodup
        exact hnodup.2.2 _ hmem _ List.mem_cons_self rfl
      · rw [if_neg hmem]
        have hmore : (counts (fixed ++ [c])).Nodup := by
          rw [counts_append, List.nodup_append]
          refine ⟨hfixed, .cons (by simp) .nil, ?_⟩
          rintro n hn m hm rfl
          rw [counts, List.map_singleton, List.mem_singleton] at hm
          exact hmem (hm ▸ hn)
        rw [ih hmore, List.append_assoc, List.singleton_append]

/-- A closure has the clauses of a list that may be made into one. -/
structure Holds (c : Closure) (clauses : List Clause) : Prop where
  fixed : c.fixed = clauses.filter (·.rest.isNone)
  variadic : c.variadic.toList = clauses.filter (·.rest.isSome)
  compatible : Clause.Compatible clauses

theorem nodup_counts_iff (clauses : List Clause) :
    (counts (clauses.filter (·.rest.isNone))).Nodup ↔
      clauses.Pairwise fun a b =>
        a.rest = none → b.rest = none → a.params.length ≠ b.params.length := by
  rw [counts, List.Nodup, List.pairwise_map, List.pairwise_filter]
  simp only [Option.isNone_iff_eq_none]

theorem exists_toList_iff (clauses : List Clause) :
    (∃ v : Option Clause, v.toList = clauses.filter (·.rest.isSome)) ↔
      clauses.Pairwise fun a b => a.rest = none ∨ b.rest = none := by
  have hpairs : (clauses.Pairwise fun a b => a.rest = none ∨ b.rest = none) ↔
      (clauses.filter (·.rest.isSome)).Pairwise fun _ _ => False := by
    rw [List.pairwise_filter]
    refine iff_of_eq (congrArg (fun r => List.Pairwise r clauses) ?_)
    funext a b
    cases a.rest <;> cases b.rest <;> simp
  rw [hpairs]
  generalize clauses.filter (·.rest.isSome) = found
  rcases found with _ | ⟨v, _ | ⟨w, more⟩⟩
  · exact iff_of_true ⟨none, rfl⟩ .nil
  · exact iff_of_true ⟨some v, rfl⟩ (List.pairwise_singleton _ v)
  · refine iff_of_false ?_ fun h => (List.pairwise_cons.1 h).1 w List.mem_cons_self
    rintro ⟨_ | _, htwo⟩ <;> cases htwo

theorem lt_max?_iff (fs : List Clause) (n : Nat) :
    (∀ widest ∈ (counts fs).max?, widest < n) ↔ ∀ f ∈ fs, f.params.length < n := by
  constructor
  · intro h f hf
    have hmem : f.params.length ∈ counts fs := List.mem_map_of_mem hf
    cases hmax : (counts fs).max? with
    | none => simp [List.max?_eq_none_iff.1 hmax] at hmem
    | some widest => exact Nat.lt_of_le_of_lt ((List.max?_eq_some_iff.1 hmax).2 _ hmem) (h _ hmax)
  · intro h widest hmax
    obtain ⟨f, hf, rfl⟩ := List.mem_map.1 (List.max?_eq_some_iff.1 hmax).1
    exact h f hf

theorem make_of_sorted {clauses fs : List Clause} {label : String} {v : Option Clause}
    (hsort : sortClauses label [] none clauses = .ok (fs, v)) (name : Option Symbol) (scope : Scope)
    (c : Closure) :
    make name clauses scope label = .ok c ↔
      (∀ x ∈ v, ∀ f ∈ fs, f.params.length < x.params.length) ∧ c = ⟨name, fs, v, scope⟩ := by
  simp only [make, hsort, ← lt_max?_iff]
  cases v with
  | none => simp [eq_comm]
  | some x =>
    cases hmax : (counts fs).max? with
    | none => simp [eq_comm]
    | some widest =>
      by_cases hle : x.params.length ≤ widest
      · have hnot : ¬ widest < x.params.length := Nat.not_lt.2 hle
        simp [hle, hnot]
      · simp [hle, Nat.lt_of_not_le hle, eq_comm]

/-- A closure has the clauses that it was made of, and those may be made into one. -/
theorem make_eq_ok_iff {name : Option Symbol} {clauses : List Clause} {scope : Scope}
    {label : String} {c : Closure} :
    make name clauses scope label = .ok c ↔ c.name = name ∧ c.scope = scope ∧ c.Holds clauses := by
  have hempty : (counts []).Nodup := .nil
  constructor
  · intro h
    cases hsort : sortClauses label [] none clauses with
    | error e => simp [make, hsort] at h
    | ok sorted =>
      obtain ⟨hbeyond, rfl⟩ := (make_of_sorted hsort name scope c).1 h
      obtain ⟨hfixed, hnodup, hvariadic⟩ := (sortClauses_eq_ok_iff hempty).1 hsort
      rw [List.nil_append] at hfixed
      rw [Option.toList_none, List.nil_append] at hvariadic
      refine ⟨rfl, rfl, hfixed, hvariadic, ?_, ?_, ?_⟩
      · exact (nodup_counts_iff clauses).1 (hfixed ▸ hnodup)
      · exact (exists_toList_iff clauses).1 ⟨_, hvariadic⟩
      · intro v hv hrest f hf hnone
        have hmem : v ∈ sorted.2.toList := by simp [hvariadic, hv, Option.isSome_iff_ne_none, hrest]
        exact hbeyond v (Option.mem_toList.1 hmem) f (by simp [hfixed, hf, hnone])
  · rintro ⟨rfl, rfl, hholds⟩
    have hsort : sortClauses label [] none clauses = .ok (c.fixed, c.variadic) := by
      refine (sortClauses_eq_ok_iff hempty).2 ⟨hholds.fixed, ?_, hholds.variadic⟩
      rw [hholds.fixed, nodup_counts_iff]
      exact hholds.compatible.distinct
    refine (make_of_sorted hsort _ _ c).2 ⟨fun v hv f hf => ?_, rfl⟩
    replace hv : v ∈ c.variadic.toList := Option.mem_toList.2 hv
    rw [hholds.variadic, List.mem_filter] at hv
    rw [hholds.fixed, List.mem_filter] at hf
    exact hholds.compatible.beyond v hv.1 (Option.isSome_iff_ne_none.1 hv.2) f hf.1
      (Option.isNone_iff_eq_none.1 hf.2)

theorem exists_make_iff {name : Option Symbol} {clauses : List Clause} {scope : Scope}
    {label : String} :
    (∃ c, make name clauses scope label = .ok c) ↔ Clause.Compatible clauses := by
  simp only [make_eq_ok_iff]
  constructor
  · rintro ⟨c, -, -, hholds⟩
    exact hholds.compatible
  · intro h
    obtain ⟨v, hv⟩ := (exists_toList_iff clauses).2 h.single
    exact ⟨⟨name, clauses.filter (·.rest.isNone), v, scope⟩, rfl, rfl, rfl, hv, h⟩

/-- The errors of clauses that make no closure. -/
inductive Refusal (label : String) : EvalError → Prop
  | duplicateArity (n : Nat) : Refusal label (.duplicateArity label n)
  | duplicateVariadic : Refusal label (.duplicateVariadic label)
  | fixedBeyondVariadic (fixed variadic : Nat) :
    Refusal label (.fixedBeyondVariadic label fixed variadic)

theorem sortClauses_refusal {label : String} {fixed clauses : List Clause} {variadic : Option Clause}
    {e : EvalError} (h : sortClauses label fixed variadic clauses = .error e) : Refusal label e := by
  induction clauses generalizing fixed variadic with
  | nil => cases h
  | cons c rest ih =>
    rw [sortClauses] at h
    split at h
    · split at h
      · cases h
        exact .duplicateVariadic
      · exact ih h
    · split at h
      · cases h
        exact .duplicateArity _
      · exact ih h

theorem make_refusal {name : Option Symbol} {clauses : List Clause} {scope : Scope} {label : String}
    {e : EvalError} (h : make name clauses scope label = .error e) : Refusal label e := by
  unfold make at h
  split at h
  · rename_i hsort
    cases h
    exact sortClauses_refusal hsort
  · split at h
    · split at h
      · cases h
        exact .fixedBeyondVariadic _ _
      · cases h
    · cases h

/-! Selecting a clause. -/

namespace Holds
variable {c : Closure} {clauses : List Clause}

theorem select?_eq (h : c.Holds clauses) (n : Nat) :
    c.select? n = (clauses.find? fun f => f.rest.isNone && f.params.length == n).or
      (clauses.find? fun v => v.rest.isSome && v.params.length ≤ n) := by
  have hvariadic : c.variadic.filter (fun v => v.params.length ≤ n) =
      c.variadic.toList.find? (fun v => v.params.length ≤ n) := by
    cases c.variadic with
    | none => rfl
    | some v =>
      by_cases hle : v.params.length ≤ n
      · simp [hle]
      · simp [hle, Nat.lt_of_not_le hle]
  rw [select?, hvariadic, h.fixed, h.variadic, List.find?_filter, List.find?_filter]
  simp only [Bool.decide_and, Bool.decide_eq_true]

theorem select?_eq_some_iff (h : c.Holds clauses) {n : Nat} {clause : Clause} :
    c.select? n = some clause ↔ clause ∈ clauses ∧ clause.accepts n := by
  have hfound : ∀ d, c.select? n = some d → d ∈ clauses ∧ d.accepts n := by
    intro d hd
    rw [h.select?_eq, Option.or_eq_some_iff] at hd
    rcases hd with hd | ⟨-, hd⟩
    · have hfits := List.find?_some hd
      simp only [Bool.and_eq_true, Option.isNone_iff_eq_none, beq_iff_eq] at hfits
      exact ⟨List.mem_of_find?_eq_some hd, (Clause.accepts_iff_of_fixed hfits.1 n).2 hfits.2⟩
    · have hfits := List.find?_some hd
      simp only [Bool.and_eq_true, Option.isSome_iff_ne_none, decide_eq_true_eq] at hfits
      exact ⟨List.mem_of_find?_eq_some hd, (Clause.accepts_iff_of_variadic hfits.1 n).2 hfits.2⟩
  refine ⟨hfound clause, fun ⟨hmem, haccepts⟩ => ?_⟩
  cases hselect : c.select? n with
  | some d =>
    obtain ⟨hd, hacceptsD⟩ := hfound d hselect
    rw [h.compatible.eq_of_accepts hd hmem hacceptsD haccepts]
  | none =>
    rw [h.select?_eq, Option.or_eq_none_iff, List.find?_eq_none, List.find?_eq_none] at hselect
    by_cases hrest : clause.rest = none
    · have hfixed := (Clause.accepts_iff_of_fixed hrest n).1 haccepts
      exact absurd (by simp [hrest, hfixed]) (hselect.1 clause hmem)
    · have hvariadic := (Clause.accepts_iff_of_variadic hrest n).1 haccepts
      exact absurd (by simp [Option.isSome_iff_ne_none.2 hrest, hvariadic]) (hselect.2 clause hmem)

end Holds
end Closure

/-! The frame of a call. -/

namespace Evaluation

/-- The frame of a call has the bindings and nothing else. -/
theorem callFrame_eq_ok (w : World) (c : Closure) (self : Value) (bindings : List (Symbol × Value)) :
    ∃ frame started parent, callFrame c self bindings w = .ok frame started ∧
      started.frames[frame]? = some ⟨bindings, parent⟩ := by
  rw [callFrame_eq]
  cases c.name with
  | none =>
    obtain ⟨started, hrun, -, -, hframe⟩ := boundFrame_run w c.scope bindings
    exact ⟨_, started, _, hrun, hframe⟩
  | some name =>
    obtain ⟨between, houter, -, -, -⟩ := boundFrame_run w c.scope [(.plain name.name, self)]
    obtain ⟨started, hrun, -, -, hframe⟩ := boundFrame_run between (some w.frames.size) bindings
    exact ⟨_, started, _, (run_bind_ok houter _).trans hrun, hframe⟩

end Evaluation

theorem Frame.rebindAll_eq_zip {bs : List (Symbol × Value)} {vs : List Value}
    (h : vs.length = bs.length) : rebindAll bs vs = (bs.map (·.1)).zip vs := by
  induction bs generalizing vs with
  | nil => simp [rebindAll]
  | cons b bs ih =>
    cases vs with
    | nil => cases h
    | cons v vs =>
      rw [rebindAll, ih (Nat.succ.inj h), List.map_cons, List.zip_cons_cons]

namespace Evaluation
variable {e : Engine} {frame : FrameId} {clause : Clause} {w current : World}
  {history : List (List Value)} {values : List Value}

/-- A round with one value per binding replaces them all, whatever the rounds before it brought. -/
theorem Recurs.newest_round (hkeeps : e.Keeps KeepsFrames) {args : List Value} {parent : Scope}
    (haccepts : clause.accepts args.length)
    (hframe : w.frames[frame]? = some ⟨clause.bindings args, parent⟩)
    (hrounds : Recurs e frame clause.bindingCount clause.body w (history ++ [values]) current) :
    current.frames[frame]? = some ⟨clause.symbols.zip values, parent⟩ := by
  have hlengths := hrounds.length_eq
  have hlength : values.length = (clause.bindings args).length := by
    rw [Clause.bindings_length haccepts]
    exact hlengths values (by simp)
  rw [hrounds.frame_eq hkeeps hframe, Frame.foldl_rebind _ _ hlengths, List.getLast?_concat,
    Option.elim_some, Frame.rebind, Frame.rebindAll_eq_zip hlength,
    Clause.bindings_symbols haccepts]

end Evaluation

open Evaluation

/-- Clauses make a closure just when they differ in their numbers of parameters, at most one of them
has a rest parameter, and that one has more parameters in front of it than all others have. Then a
number of arguments fits at most one clause, and that one is selected. The frame of its call binds
the parameters to the arguments in their order and the rest parameter to the list of the remaining
ones, or to `nil` if there are none, and has no other bindings; and a round with as many values
replaces every one of them. -/
theorem clauses_dispatch (name : Option Symbol) (clauses : List Clause) (scope : Scope)
    (label : String) :
    ((∃ c, Closure.make name clauses scope label = .ok c) ↔ Clause.Compatible clauses) ∧
    ∀ c, Closure.make name clauses scope label = .ok c →
      (∀ count, (clauses.filter (·.accepts count)).length ≤ 1 ∧
        c.select? count =
          (clauses.find? fun f => f.rest.isNone && f.params.length == count).or
            (clauses.find? fun v => v.rest.isSome && v.params.length ≤ count) ∧
        ∀ clause, c.select? count = some clause ↔ clause ∈ clauses ∧ clause.accepts count) ∧
      ∀ n w id self args clause, w.closures[id]? = some c → c.select? args.length = some clause →
        ∃ frame started bindings parent,
          callFrame c self (clause.bindings args) w = .ok frame started ∧
          invoke (.ofBudget n) id self args w =
            rounds (.ofBudget n) frame clause.bindingCount clause.body n started ∧
          started.frames[frame]? = some ⟨bindings, parent⟩ ∧ clause.Binds args bindings ∧
          ∀ history values current,
            Recurs (.ofBudget n) frame clause.bindingCount clause.body started
              (history ++ [values]) current →
            current.frames[frame]? = some ⟨clause.symbols.zip values, parent⟩ ∧
            clause.symbols.length = values.length ∧
            ∀ m, (history ++ [values]).length + m = n →
              invoke (.ofBudget n) id self args w =
                rounds (.ofBudget n) frame clause.bindingCount clause.body m current := by
  refine ⟨Closure.exists_make_iff, fun c hmake => ?_⟩
  obtain ⟨-, -, hholds⟩ := Closure.make_eq_ok_iff.1 hmake
  refine ⟨fun count => ⟨hholds.compatible.length_filter_le count, hholds.select?_eq count,
    fun clause => hholds.select?_eq_some_iff⟩, ?_⟩
  intro n w id self args clause hc hclause
  have haccepts := (hholds.select?_eq_some_iff.1 hclause).2
  obtain ⟨frame, started, parent, hcall, hframe⟩ := callFrame_eq_ok w c self (clause.bindings args)
  have hinvoke : invoke (.ofBudget n) id self args w =
      rounds (.ofBudget n) frame clause.bindingCount clause.body n started :=
    invoke_eq hc hclause hcall _
  refine ⟨frame, started, clause.bindings args, parent, hcall, hinvoke, hframe,
    Clause.binds_bindings haccepts, fun history values current hrounds => ?_⟩
  refine ⟨hrounds.newest_round (keepsFrames_invariant.keeps n) haccepts hframe, ?_, ?_⟩
  · rw [Clause.length_symbols]
    exact (hrounds.length_eq values (by simp)).symm
  · rintro m rfl
    rw [hinvoke, hrounds.rounds_eq]

/-- The clause `([x x & x] (if x (recur 1 2 nil) x))`, where 7 stands for the name `x`. -/
def repeatedClause : Clause :=
  ⟨[.plain 7, .plain 7], some (.plain 7), [.list [.special .ifElse, .symbol (.plain 7),
    .list [.special .recur, .int 1, .int 2, .nil], .symbol (.plain 7)]]⟩

def repeatedClosure : Closure := ⟨none, [⟨[], none, [.int 0]⟩], some repeatedClause, none⟩

theorem clauses_dispatch_repeated :
    Closure.make none [⟨[], none, [.int 0]⟩, repeatedClause] none "fn" = .ok repeatedClosure ∧
    repeatedClosure.select? 3 = some repeatedClause ∧
    ∃ frame started current parent,
      callFrame repeatedClosure (.function 0) (repeatedClause.bindings [.nil, .nil, .bool true])
        { closures := #[repeatedClosure] } = .ok frame started ∧
      Recurs (.ofBudget 9) frame 3 repeatedClause.body started [[.int 1, .int 2, .nil]] current ∧
      current.frames[frame]? =
        some ⟨[(.plain 7, .int 1), (.plain 7, .int 2), (.plain 7, .nil)], parent⟩ := by
  have hmake : Closure.make none [⟨[], none, [.int 0]⟩, repeatedClause] none "fn" =
      .ok repeatedClosure := rfl
  have hselect : repeatedClosure.select? 3 = some repeatedClause := rfl
  obtain ⟨-, hmade⟩ := clauses_dispatch none [⟨[], none, [.int 0]⟩, repeatedClause] none "fn"
  obtain ⟨-, hcalls⟩ := hmade repeatedClosure hmake
  obtain ⟨frame, started, bindings, parent, hcall, -, -, -, hrounds⟩ :=
    hcalls 9 { closures := #[repeatedClosure] } 0 (.function 0) [.nil, .nil, .bool true]
      repeatedClause rfl hselect
  have hrecurs : ∃ current, Recurs (.ofBudget 9) frame 3 repeatedClause.body started
      [[.int 1, .int 2, .nil]] current := by
    cases hcall
    exact ⟨_, .round rfl rfl (.none _)⟩
  obtain ⟨current, hrecurs⟩ := hrecurs
  obtain ⟨hframe, -, -⟩ := hrounds [] [.int 1, .int 2, .nil] current hrecurs
  exact ⟨hmake, hselect, frame, started, current, parent, hcall, hrecurs, hframe⟩

end LazyLisp
