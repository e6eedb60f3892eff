import LazyLisp.Proofs.Arithmetic
import LazyLisp.Proofs.Booting
import LazyLisp.Proofs.Concatenation
import LazyLisp.Proofs.Suspending
import Mathlib.Tactic.Linarith
import Mathlib.Tactic.Ring

/-!
The library's `range`. A cell gives its start value and makes the cell behind it, whose start value
is computed at once. So a progression comes to its end as long as the term behind the last one is a
word too; otherwise the look at the last term fails.
-/

namespace LazyLisp
set_option autoImplicit false

/-- A walk finds these elements, and the look behind them fails. -/
inductive Seq.Breaks : World → Seq → List Value → EvalError → World → Prop
  | fails {w v : World} {s : Seq} {err : EvalError}
      (h : ComesTo (fun n => s.uncons (.ofBudget n)) w (.error (.error err) v)) :
      Breaks w s [] err v
  | cons {w v u : World} {s t : Seq} {x : Value} {xs : List Value} {err : EvalError}
      (h : Takes w s (some (x, t)) v) (ht : Breaks v t xs err u) : Breaks w s (x :: xs) err u

/-- The term lies before the end, seen in the direction of the step. -/
def Before (term stop step : Int) : Prop := if 0 < step then term < stop else stop < term

instance (term stop step : Int) : Decidable (Before term stop step) :=
  inferInstanceAs (Decidable (if 0 < step then term < stop else stop < term))

theorem before_of_pos {term stop step : Int} (h : 0 < step) : Before term stop step ↔ term < stop := by
  rw [Before, if_pos h]

theorem before_of_not_pos {term stop step : Int} (h : ¬ 0 < step) :
    Before term stop step ↔ stop < term := by
  rw [Before, if_neg h]

/-- The first terms of a progression. -/
def progression (start step : Int) (n : Nat) : List Value :=
  (List.range n).map fun i : Nat => .int (.ofInt (start + i * step))

theorem progression_succ (start step : Int) (n : Nat) :
    progression start step (n + 1) = .int (.ofInt start) :: progression (start + step) step n := by
  have hnext : ∀ i : Nat, start + (i + 1 : Nat) * step = start + step + i * step := by
    intro i
    push_cast
    ring
  simp only [progression, List.range_succ_eq_map, List.map_cons, List.map_map,
    Function.comp_def, Nat.succ_eq_add_one, hnext, Nat.cast_zero, zero_mul, add_zero]

/-- Of a progression that goes on, so many terms lie before the end. -/
theorem exists_before (start stop : Int) {step : Int} (hstep : step ≠ 0) :
    ∃ n : Nat, ∀ i : Nat, i < n ↔ Before (start + i * step) stop step := by
  have hreach : ∃ i : Nat, ¬ Before (start + i * step) stop step := by
    refine ⟨(stop - start).natAbs, ?_⟩
    by_cases hpos : 0 < step
    · rw [before_of_pos hpos]
      have hfar : stop - start ≤ (stop - start).natAbs := Int.le_natAbs
      nlinarith
    · rw [before_of_not_pos hpos]
      have hneg : step ≤ -1 := by omega
      have hfar : start - stop ≤ (stop - start).natAbs := by omega
      nlinarith
  have hbeyond : ∀ i j : Nat, i ≤ j → ¬ Before (start + i * step) stop step →
      ¬ Before (start + j * step) stop step := by
    intro i j hij hi
    have hmore : (0 : Int) ≤ j - i := by omega
    by_cases hpos : 0 < step
    · rw [before_of_pos hpos] at hi ⊢
      nlinarith [mul_nonneg hmore hpos.le]
    · rw [before_of_not_pos hpos] at hi ⊢
      nlinarith [mul_nonneg hmore (by omega : 0 ≤ -step)]
  classical
  refine ⟨Nat.find hreach, fun i => ⟨fun hi => ?_, fun hi => ?_⟩⟩
  · exact Decidable.not_not.1 (Nat.find_min hreach hi)
  · exact Nat.lt_of_not_le fun hle => hbeyond _ _ hle (Nat.find_spec hreach) hi

theorem Builtin.call_add (e : Engine) (scope : Scope) (a b : Int64) (w : World) :
    Core.call e scope .add [.int a, .int b] w =
      if Number.Fits (a.toInt + b.toInt) then .ok (.int (.ofInt (a.toInt + b.toInt))) w
      else .error (.error (.overflow "+")) w := by
  have hcall := @call_integers w e scope .add (by decide) [a, b] rfl
  have hpartials : (∀ p ∈ partials .add ([a, b].map Int64.toInt), Number.Fits p) ↔
      Number.Fits (a.toInt + b.toInt) := by
    simp [partials, Number.toInt_fits, show Number.Fits 0 by decide]
  have htotal : total .add ([a, b].map Int64.toInt) = a.toInt + b.toInt := by simp [total]
  rw [if_congr hpartials rfl rfl, htotal] at hcall
  exact hcall

namespace Evaluation
open Library
variable {w : World} {scope : Scope} {a b s : Int64} {c : CellId} {id : ClosureId}

def rangeTest : Value :=
  .list [.special .ifElse, use .isPositive [word stepName],
    call .less [word startName, word endName], call .greater [word startName, word endName]]

/-- The term behind the start. -/
def rangeNext : Value := call .add [word startName, word stepName]

/-- The next use of `range`. -/
def rangeAgain : Value := use .range [rangeNext, word endName, word stepName]

def rangeCons : Value := call .cons [word startName, rangeAgain]

/-- What the thunk of a cell of `range` evaluates. -/
def rangeBody : Value := use .when [rangeTest, rangeCons]

/-- Where it is evaluated. -/
def rangeLayers (id : ClosureId) (a b s : Int64) : List (List (Symbol × Value)) :=
  [[(.plain startName, .int a), (.plain endName, .int b), (.plain stepName, .int s)],
    [(.plain Entry.range.name, .function id)]]

section
variable (hlayers : w.Layers scope ([] :: rangeLayers id a b s))
include hlayers

theorem rangeWord_yields (name : NameId) {n : Int64}
    (hn : meaningIn ([] :: rangeLayers id a b s) (.plain name) = some (.int n)) :
    Yields (values scope (word name)) w (.int n) :=
  (hlayers.means hn).yields nofun

variable (hw : w.Stocked Entry.all Builtin.all)
include hw

theorem rangeTest_yields :
    Yields (values scope rangeTest) w (.bool (decide (Before a.toInt b.toInt s.toInt))) := by
  have hstart := rangeWord_yields hlayers startName rfl
  have hend := rangeWord_yields hlayers endName rfl
  have hpositive := isPositive_yields (hw.subset (List.nil_subset _) (by decide))
    (hw.provides hlayers .isPositive (by decide) rfl) (rangeWord_yields hlayers stepName rfl) rfl
  refine if_yields (Value.isList_list _) (.of_timeless (Value.timeless_of_isCode _ rfl)) hpositive ?_
  by_cases hs : 0 < s.toInt
  · rw [decide_eq_true hs, decide_eq_decide.2 (before_of_pos hs)]
    exact call_yields (hw.means_builtin hlayers .less (by decide) rfl)
      (.cons hstart (.cons hend .nil)) rfl fun v _ => Core.call_less _ a b v
  · rw [decide_eq_false hs, decide_eq_decide.2 (before_of_not_pos hs)]
    exact call_yields (hw.means_builtin hlayers .greater (by decide) rfl)
      (.cons hstart (.cons hend .nil)) rfl fun v _ => Core.call_greater _ a b v

theorem rangeBody_continues :
    ∃ v, Idle w v ∧ Continues (outcomes scope rangeBody) w
      (outcomes scope (if Before a.toInt b.toInt s.toInt then rangeCons else .nil)) v := by
  have htell : ∀ {form : Value}, form.isCode = true → form.Tellable w.log := fun h =>
    .of_timeless (Value.timeless_of_isCode _ h)
  obtain ⟨_, u, v, ⟨rfl, hwu⟩, huv, -, hcontinues⟩ := when_continues
    (hw.provides hlayers .when (by decide) rfl) (Value.isList_list _ : rangeBody.IsList _) nofun
    (htell rfl) (htell rfl)
    (rangeTest_yields hlayers hw).secures
  refine ⟨v, hwu.trans huv, ?_⟩
  by_cases hbefore : Before a.toInt b.toInt s.toInt
  · rw [decide_eq_true hbefore] at hcontinues
    rwa [if_pos hbefore]
  · rw [decide_eq_false hbefore] at hcontinues
    rwa [if_neg hbefore]

theorem rangeCons_continues :
    ∃ v, Idle w v ∧ Continues (outcomes scope rangeCons) w (fun n => do
      let rest ← values scope rangeAgain n
      applyValue (.ofBudget n) scope (.builtin .cons) [.int a, rest]) v :=
  last_continues [word startName] (Value.isList_list _ : rangeCons.IsList _)
    (.of_timeless (Value.timeless_of_isCode _ rfl)) nofun
    (hw.means_builtin hlayers .cons (by decide) rfl).heads nofun
    (.cons (rangeWord_yields hlayers startName rfl) .nil)

/-- If the next term is a word, it is the start of the next cell. -/
theorem rangeCons_gives (hid : w.closures[id]? = some Entry.range.closure)
    (hfits : Number.Fits (a.toInt + s.toInt)) :
    ∃ c z, ComesTo (values scope rangeCons) w (.ok (.seq (.cons (.int a) (.lazy c))) z) ∧
      Works w z ∧ w.cells.size ≤ c ∧
      Suspends z c rangeBody (rangeLayers id (.ofInt (a.toInt + s.toInt)) b s) := by
  have hend := rangeWord_yields hlayers endName rfl
  have hstep := rangeWord_yields hlayers stepName rfl
  have hnext : Yields (values scope rangeNext) w (.int (.ofInt (a.toInt + s.toInt))) := by
    refine call_yields (hw.means_builtin hlayers .add (by decide) rfl)
      (.cons (rangeWord_yields hlayers startName rfl) (.cons hstep .nil)) rfl fun v _ => ?_
    exact .always (.ok _ v) fun n => (Builtin.call_add _ _ a s v).trans (if_pos hfits)
  have hself : w.Means scope Entry.range.name (.function id) := hlayers.means rfl
  obtain ⟨v, hwv, hcons⟩ := rangeCons_continues hlayers hw
  obtain ⟨u, hvu, hagain⟩ := known_continues (Value.isList_list _ : rangeAgain.IsList _)
    (.of_timeless (Value.timeless_of_isCode _ rfl)) nofun (hself.along hwv).heads nofun
    (.cons (hnext.along hwv) (.cons (hend.along hwv) (.cons (hstep.along hwv) .nil)))
  have hwu := hwv.trans hvu
  obtain ⟨c, z, happlies, hworks, hfresh, hsuspends⟩ := entry_suspends .range
    [.int (.ofInt (a.toInt + s.toInt)), .int b, .int s] (hwu.closures ▸ hid)
    ((hw.idle hwu).subset (by decide) (by decide)) rfl rfl rfl rfl rfl
  have hrest : ComesTo (values scope rangeAgain) v (.ok (.seq (.lazy c)) z) :=
    comesTo_value (hagain.comesTo ((applications_continue scope _ _ u _).1 (happlies scope)))
  have hresult : ComesTo (fun n => applyValue (.ofBudget n) scope (.builtin .cons)
      [.int a, .seq (.lazy c)]) z (.ok (.value (.seq (.cons (.int a) (.lazy c)))) z) :=
    (Core.call_cons_comesTo rfl _ z).bind (.pure _ z)
  exact ⟨c, z, comesTo_value (hcons.comesTo (hrest.bind hresult)), (Works.of_idle hwu).trans hworks,
    hwu.cells ▸ hfresh, hsuspends⟩

/-- If the next term is no word, there is no cell for this one either. -/
theorem rangeCons_fails (hfits : ¬ Number.Fits (a.toInt + s.toInt)) :
    ∃ z, ComesTo (outcomes scope rangeCons) w (.error (.error (.overflow "+")) z) := by
  have hself : w.Means scope Entry.range.name (.function id) := hlayers.means rfl
  obtain ⟨v, hwv, hcons⟩ := rangeCons_continues hlayers hw
  obtain ⟨u, hvu, hagain⟩ := call_continues (Value.isList_list _ : rangeAgain.IsList _)
    (.of_timeless (Value.timeless_of_isCode _ rfl)) nofun (hself.along hwv).heads nofun
  have hlayers := hlayers.keeps (hwv.trans hvu).frames
  obtain ⟨z, -, hnext⟩ := call_goes_on
    ((hw.idle (hwv.trans hvu)).means_builtin hlayers .add (by decide) rfl)
    (.cons (rangeWord_yields hlayers startName rfl)
      (.cons (rangeWord_yields hlayers stepName rfl) .nil)) rfl
  have hadd : ComesTo (fun n => Core.call (.ofBudget n) scope .add [.int a, .int s]) z
      (.error (.error (.overflow "+")) z) :=
    .always (.error _ z) fun n => (Builtin.call_add _ _ a s z).trans (if_neg hfits)
  have hargs := comesTo_mapM_error [word endName, word stepName]
    (comesTo_value_error (hnext.comesTo hadd.bind_error))
  exact ⟨z, hcons.comesTo (comesTo_value_error (hagain.comesTo hargs.bind_error)).bind_error⟩

end

/-- A cell of `range` that has not been looked at. -/
structure Counting (w : World) (c : CellId) (a b s : Int64) : Prop where
  attached : w.attached = true
  stocked : w.Stocked Entry.all Builtin.all
  suspended : ∃ id, Suspends w c rangeBody (rangeLayers id a b s) ∧
    w.closures[id]? = some Entry.range.closure

theorem range_suspends {v : World} (hv : v.attached = true)
    (hstock : v.Stocked Entry.all Builtin.all) (hid : v.closures[id]? = some Entry.range.closure)
    (a b s : Int64) :
    ∃ c z, (∀ scope, ComesTo (applications scope (.function id) [.int a, .int b, .int s]) v
        (.ok (.value (.seq (.lazy c))) z)) ∧ Works v z ∧ Counting z c a b s := by
  obtain ⟨c, z, happlies, hworks, -, hsuspends⟩ :=
    entry_suspends .range [.int a, .int b, .int s] hid
      (hstock.subset (by decide) (by decide)) rfl rfl rfl rfl rfl
  exact ⟨c, z, happlies, hworks, hworks.attached.trans hv, hworks.stocked hstock, id, hsuspends,
    hworks.closures id _ hid⟩

/-- A look at a term before the end gives it and a cell for the next term, if this is a word. -/
theorem range_looks (h : Counting w c a b s) :
    (¬ Before a.toInt b.toInt s.toInt → ∃ z, Seq.Takes w (.lazy c) none z) ∧
    (Before a.toInt b.toInt s.toInt → Number.Fits (a.toInt + s.toInt) →
      ∃ c' z, Seq.Takes w (.lazy c) (some (.int a, .lazy c')) z ∧
        Counting z c' (.ofInt (a.toInt + s.toInt)) b s) ∧
    (Before a.toInt b.toInt s.toInt → ¬ Number.Fits (a.toInt + s.toInt) →
      ∃ z, ComesTo (fun n => (Seq.lazy c).uncons (.ofBudget n)) w
        (.error (.error (.overflow "+")) z)) := by
  obtain ⟨hattached, hstock, id, hsuspends, hid⟩ := h
  obtain ⟨u, frame, hu, hinside, hvalue, herror, -⟩ := hsuspends.looks hattached
  have hstock := hstock.setCell c .realizing
  obtain ⟨v, huv, hbody⟩ := rangeBody_continues hinside (hstock.idle hu)
  have hv := hu.trans huv
  have hinside := hinside.keeps huv.frames
  refine ⟨fun hafter => ?_, fun hbefore hfits => ?_, fun hbefore hfits => ?_⟩
  · rw [if_neg hafter] at hbody
    obtain ⟨z, hz, -⟩ := constant_yields (x := .nil) (fun _ _ => rfl) v _ v (.refl v)
    have hempty := comesTo_value (hbody.comesTo (comesTo_outcome hz))
    exact ⟨_, hvalue .nil z hempty .empty rfl none _ (.empty _)⟩
  · rw [if_pos hbefore] at hbody
    obtain ⟨c', z, hcons, hworks, hfresh, hnext⟩ :=
      rangeCons_gives hinside (hstock.idle hv) (hv.closures ▸ hid) hfits
    have hc : v.cells[c]? = some .realizing := by
      obtain ⟨_, _, hc, -⟩ := hsuspends
      rw [hv.cells]
      exact World.cells_setCell_self (Array.getElem?_eq_some_iff.1 hc).1
    have hne : c' ≠ c :=
      Nat.ne_of_gt (Nat.lt_of_lt_of_le (Array.getElem?_eq_some_iff.1 hc).1 hfresh)
    refine ⟨c', z.setCell c (.realized (.cons (.int a) (.lazy c'))), ?_, ?_, ?_, id,
      hnext.setCell hne _, ?_⟩
    · exact hvalue _ z (comesTo_value (hbody.comesTo (comesTo_outcome hcons))) _ rfl _ _
        (.cons _ _ _)
    · exact hworks.attached.trans (hv.attached.trans hattached)
    · exact (hworks.stocked (hstock.idle hv)).setCell c _
    · exact hworks.closures id _ (hv.closures ▸ hid)
  · rw [if_pos hbefore] at hbody
    obtain ⟨z, hz⟩ := rangeCons_fails hinside (hstock.idle hv) hfits
    exact ⟨_, herror _ z (hbody.comesTo hz)⟩

/-- A term that lies before the end lies between words. -/
theorem fits_of_before (h : Before (a.toInt + s.toInt) b.toInt s.toInt) :
    Number.Fits (a.toInt + s.toInt) := by
  obtain ⟨hleast, hmost⟩ := Number.toInt_fits a
  obtain ⟨hleast', hmost'⟩ := Number.toInt_fits b
  by_cases hs : 0 < s.toInt
  · rw [before_of_pos hs] at h
    exact ⟨by omega, by omega⟩
  · rw [before_of_not_pos hs] at h
    exact ⟨by omega, by omega⟩

/-- A walk of a cell of `range` finds the terms that lie before the end, or fails at the last of
them. -/
theorem counting_walks {n : Nat} (h : Counting w c a b s)
    (hterms : ∀ i : Nat, i < n ↔ Before (a.toInt + i * s.toInt) b.toInt s.toInt) :
    (n = 0 ∨ Number.Fits (a.toInt + n * s.toInt) →
      ∃ z, Seq.Walks w (.lazy c) (progression a.toInt s.toInt n) z) ∧
    ∀ m, n = m + 1 → ¬ Number.Fits (a.toInt + n * s.toInt) →
      ∃ z, Seq.Breaks w (.lazy c) (progression a.toInt s.toInt m) (.overflow "+") z := by
  induction n generalizing w c a with
  | zero =>
    have hafter : ¬ Before a.toInt b.toInt s.toInt := by simpa using (hterms 0).not.1 (by omega)
    obtain ⟨z, hlook⟩ := (range_looks h).1 hafter
    exact ⟨fun _ => ⟨z, .nil hlook⟩, nofun⟩
  | succ n ih =>
    have hbefore : Before a.toInt b.toInt s.toInt := by simpa using (hterms 0).1 (by omega)
    have hshift : ∀ i : Nat, a.toInt + (i + 1 : Nat) * s.toInt =
        a.toInt + s.toInt + i * s.toInt := by
      intro i
      push_cast
      ring
    rw [hshift]
    by_cases hfits : Number.Fits (a.toInt + s.toInt)
    · obtain ⟨c', z, hlook, hnext⟩ := (range_looks h).2.1 hbefore hfits
      have hstart := hfits.toInt_ofInt
      have hmore := ih hnext fun i => by
        rw [hstart, ← hshift, ← hterms]
        omega
      rw [hstart] at hmore
      rw [progression_succ, Int64.ofInt_toInt]
      refine ⟨fun hlast => ?_, fun m hm hlast => ?_⟩
      · obtain ⟨u, hu⟩ := hmore.1 (.inr (hlast.resolve_left (Nat.succ_ne_zero n)))
        exact ⟨u, .cons hlook hu⟩
      · obtain rfl := Nat.succ.inj hm
        cases n with
        | zero => exact absurd (by simpa using hfits) hlast
        | succ m =>
          obtain ⟨u, hu⟩ := hmore.2 m rfl hlast
          rw [progression_succ, Int64.ofInt_toInt]
          exact ⟨u, .cons hlook hu⟩
    · have hn : n = 0 := by
        by_contra hn
        have hnext := (hterms 1).1 (by omega)
        exact hfits (fits_of_before (by simpa using hnext))
      subst hn
      obtain ⟨z, hlook⟩ := (range_looks h).2.2 hbefore hfits
      refine ⟨fun hlast => absurd ?_ hfits, fun m hm _ => ?_⟩
      · simpa using hlast
      · obtain rfl := Nat.succ.inj hm
        exact ⟨z, .fails hlook⟩

/-- With a step that is not zero, the terms of `range` that lie before the end are finitely many. If
there are none, or the term behind the last of them is a word, a walk finds exactly them; otherwise
it fails with an overflow where the last of them should be. -/
theorem range_is_a_progression (hw : w.Ready) {range : Value}
    (hrange : w.global? (.plain Entry.range.name) = some range) (a b : Int64) (hs : s ≠ 0) :
    ∃ t v n, (∀ scope, ComesTo (calls scope range [.int a, .int b, .int s]) w (.ok (.seq t) v)) ∧
      (∀ i : Nat, i < n ↔ Before (a.toInt + i * s.toInt) b.toInt s.toInt) ∧
      (n = 0 ∨ Number.Fits (a.toInt + n * s.toInt) →
        ∃ z, Seq.Walks v t (progression a.toInt s.toInt n) z) ∧
      ∀ m, n = m + 1 → ¬ Number.Fits (a.toInt + n * s.toInt) →
        ∃ z, Seq.Breaks v t (progression a.toInt s.toInt m) (.overflow "+") z := by
  obtain ⟨id, hid, hclosure⟩ := hw.stocked.entry .range (by decide)
  obtain rfl : Entry.range.value id = range := Option.some.inj (hid.symm.trans hrange)
  obtain ⟨c, v, happlies, -, hcounting⟩ := range_suspends hw.attached hw.stocked hclosure a b s
  have hs : s.toInt ≠ 0 := fun h => hs (Int64.toInt_inj.1 h)
  obtain ⟨n, hn⟩ := exists_before a.toInt b.toInt hs
  exact ⟨.lazy c, v, n, fun scope => comesTo_calls (happlies scope), hn, counting_walks hcounting hn⟩

/-- `(range 0 3 1)` in a new interpreter. -/
theorem range_is_a_progression_below_three : ∃ w id, Interpreter.start (.ofBudget 60) {} = .ok w ∧
    w.global? (.plain Entry.range.name) = some (.function id) ∧ (1 : Int64) ≠ 0 ∧
    ∃ t v n, (∀ scope, ComesTo (calls scope (.function id) [.int 0, .int 3, .int 1]) w
        (.ok (.seq t) v)) ∧
      (∀ i : Nat, i < n ↔ Before (0 + i * 1) 3 1) ∧
      (n = 0 ∨ Number.Fits (0 + n * 1) → ∃ z, Seq.Walks v t (progression 0 1 n) z) ∧
      ∀ m, n = m + 1 → ¬ Number.Fits (0 + n * 1) →
        ∃ z, Seq.Breaks v t (progression 0 1 m) (.overflow "+") z := by
  obtain ⟨w, hstart, -⟩ := Interpreter.samples_reached
  have hready := Interpreter.started_ready rfl hstart
  obtain ⟨id, hid, -⟩ := hready.stocked.entry .range (by decide)
  have hone : (1 : Int64) ≠ 0 := by decide
  exact ⟨w, id, hstart, hid, hone, range_is_a_progression hready hid 0 3 hone⟩

/-- In a new interpreter, the one term that lies before the end cannot be had. -/
theorem range_fails_at_last_term : ∃ w v, Interpreter.start (.ofBudget 60) {} = .ok w ∧
    Before 9223372036854775806 9223372036854775807 2 ∧
    Session.evalSource (.ofBudget 60)
      "(first (range 9223372036854775806 9223372036854775807 2))" w =
        .error (.eval (.overflow "+")) v := by
  obtain ⟨w, hstart, hsamples⟩ := Interpreter.samples_reached
  simp only [Interpreter.samples, List.forall_mem_cons] at hsamples
  obtain ⟨v, hv⟩ := Interpreter.Ending.error_of_isReached hsamples.2.2.2.2.1
  exact ⟨w, v, hstart, by decide, hv⟩

end Evaluation
end LazyLisp
