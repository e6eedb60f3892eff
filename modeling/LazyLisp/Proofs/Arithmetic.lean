import Mathlib.Algebra.Ring.Int.Defs
import LazyLisp.Interpreter
import LazyLisp.Proofs.Running

/-!
Arithmetic on integers. A chain of additions, subtractions or multiplications gives the exact result
if every partial result from left to right is a word, and reports an overflow otherwise. Division
truncates, `mod` corrects the remainder to the sign of the divisor, and only one pair of words
has a quotient that no word holds.
-/

namespace LazyLisp
set_option autoImplicit false

namespace Number

/-- The integers that a word of 64 bits holds. -/
def Fits (n : Int) : Prop := Int64.minValue.toInt ≤ n ∧ n ≤ Int64.maxValue.toInt

instance : DecidablePred Fits := fun n =>
  inferInstanceAs (Decidable (Int64.minValue.toInt ≤ n ∧ n ≤ Int64.maxValue.toInt))

theorem toInt_fits (a : Int64) : Fits a.toInt := ⟨a.minValue_le_toInt, a.toInt_le⟩

theorem fits_iff {n : Int} : Fits n ↔ -2 ^ 63 ≤ n ∧ n < 2 ^ 63 := by
  rw [Fits, Int64.toInt_minValue, Int64.toInt_maxValue]
  omega

theorem Fits.toInt_ofInt {n : Int} (h : Fits n) : (Int64.ofInt n).toInt = n := by
  obtain ⟨hleast, hmost⟩ := fits_iff.1 h
  exact Int64.toInt_ofInt_of_le hleast hmost

theorem ofInt_eq (operation : String) (n : Int) :
    ofInt operation n =
      if Fits n then .ok (.int (Int64.ofInt n)) else .error (.overflow operation) :=
  rfl

theorem ofInt_toInt (operation : String) (a : Int64) : ofInt operation a.toInt = .ok (.int a) := by
  rw [ofInt_eq, if_pos (toInt_fits a), Int64.ofInt_toInt]

/-! Chains of operations. -/

/-- On integers the operation is the exact one, if its result is a word. -/
def Exact (op : Number → Number → Except EvalError Number) (operation : String)
    (exact : Int → Int → Int) : Prop :=
  ∀ a b : Int64, op (int a) (int b) = ofInt operation (exact a.toInt b.toInt)

theorem add_exact : Exact add "+" (· + ·) := fun _ _ => rfl

theorem sub_exact : Exact sub "-" (· - ·) := fun _ _ => rfl

theorem mul_exact : Exact mul "*" (· * ·) := fun _ _ => rfl

section
variable {op : Number → Number → Except EvalError Number} {operation : String}
  {exact : Int → Int → Int}

/-- What the operation leaves of the first integer that is not a word, the rest cannot mend. -/
theorem Exact.foldl (h : Exact op operation exact) (function : String) (a : Int64)
    (ns : List Int64) :
    foldl function op (int a) (ns.map .int) =
      if ∀ p ∈ (ns.map Int64.toInt).scanl exact a.toInt, Fits p then
        .ok (int (Int64.ofInt ((ns.map Int64.toInt).foldl exact a.toInt)))
      else .error (.overflow operation) := by
  induction ns generalizing a with
  | nil =>
    have hall : ∀ p ∈ [a.toInt], Fits p := List.forall_mem_singleton.2 (toInt_fits a)
    simp only [List.map_nil, List.scanl_nil, if_pos hall, List.foldl_nil, Int64.ofInt_toInt]
    rfl
  | cons n ns ih =>
    have hstep : Number.foldl function op (int a) ((n :: ns).map .int) =
        (op (int a) (int n)).bind fun acc => Number.foldl function op acc (ns.map .int) := rfl
    rw [hstep, h a n, ofInt_eq, List.map_cons, List.scanl_cons, List.foldl_cons]
    by_cases hfits : Fits (exact a.toInt n.toInt)
    · rw [if_pos hfits]
      have hnext := ih (Int64.ofInt (exact a.toInt n.toInt))
      rw [hfits.toInt_ofInt] at hnext
      refine hnext.trans ?_
      simp only [List.forall_mem_cons, toInt_fits, true_and]
    · rw [if_neg hfits, if_neg]
      · rfl
      · intro hall
        refine hfits (hall _ (List.mem_cons_of_mem _ ?_))
        cases ns <;> simp

/-- Of several arguments, the first is what the chain starts from. -/
theorem foldFrom_int (function : String) (unit a : Int64) (v : Value) (vs : List Value) :
    foldFrom function op unit (.int a :: v :: vs) = foldl function op (int a) (v :: vs) := by
  rw [foldFrom]
  · rfl
  · exact nofun

theorem foldFrom_pair (function : String) (unit a b : Int64) :
    foldFrom function op unit [.int a, .int b] = op (int a) (int b) := by
  rw [foldFrom_int]
  show (op (int a) (int b)).bind .ok = _
  cases op (int a) (int b) <;> rfl

end
end Number

namespace Builtin
open Number

/-- The functions whose result on integers is an integer whenever there is one. -/
def exactOnes : List Builtin := [.add, .multiply, .subtract, .inc, .dec]

/-- What the arithmetic comes to, from left to right. -/
def partials : Builtin → List Int → List Int
  | .add, ns => ns.scanl (· + ·) 0
  | .multiply, ns => ns.scanl (· * ·) 1
  | .subtract, [n] => [-n]
  | .subtract, n :: ns => ns.scanl (· - ·) n
  | .inc, [n] => [n + 1]
  | .dec, [n] => [n - 1]
  | _, _ => []

/-- The sum, the product, the difference, or the negation of a single argument. -/
def total : Builtin → List Int → Int
  | .add, ns => ns.sum
  | .multiply, ns => ns.prod
  | .subtract, [n] => -n
  | .subtract, n :: ns => n - ns.sum
  | .inc, [n] => n + 1
  | .dec, [n] => n - 1
  | _, _ => 0

/-- The operation that an overflow is reported of. -/
def operation : Builtin → String
  | .add | .inc => "+"
  | .multiply => "*"
  | _ => "-"

theorem foldl_sub (n : Int) (ns : List Int) : ns.foldl (· - ·) n = n - ns.sum := by
  induction ns generalizing n with
  | nil => simp
  | cons m ns ih =>
    rw [List.foldl_cons, ih, List.sum_cons]
    omega

theorem foldl_mem_scanl (f : Int → Int → Int) (n : Int) (ns : List Int) :
    ns.foldl f n ∈ ns.scanl f n :=
  List.mem_of_getLast? List.getLast?_scanl

/-- A single subtraction, addition or negation has no partial result but the result. -/
theorem exact_cases {b : Builtin} (hb : b ∈ exactOnes) {α : Type} {xs : List α}
    (hcount : b.arity.accepts xs.length = true) :
    b = .add ∨ b = .multiply ∨ (b = .subtract ∧ ∃ x y more, xs = x :: y :: more) ∨
      (b = .subtract ∨ b = .inc ∨ b = .dec) ∧ ∃ x, xs = [x] := by
  have hsingle : xs.length = 1 → ∃ x, xs = [x] := List.length_eq_one_iff.1
  simp only [exactOnes, List.mem_cons, List.not_mem_nil, or_false] at hb
  rcases hb with rfl | rfl | rfl | rfl | rfl
  · exact .inl rfl
  · exact .inr (.inl rfl)
  · match xs, hcount with
    | [x], _ => exact .inr (.inr (.inr ⟨.inl rfl, x, rfl⟩))
    | x :: y :: more, _ => exact .inr (.inr (.inl ⟨rfl, x, y, more, rfl⟩))
  · exact .inr (.inr (.inr ⟨.inr (.inl rfl), hsingle (beq_iff_eq.1 hcount)⟩))
  · exact .inr (.inr (.inr ⟨.inr (.inr rfl), hsingle (beq_iff_eq.1 hcount)⟩))

/-- The result is one of the partial results. -/
theorem total_mem_partials {b : Builtin} (hb : b ∈ exactOnes) {ns : List Int}
    (hcount : b.arity.accepts ns.length = true) : b.total ns ∈ b.partials ns := by
  rcases exact_cases hb hcount with rfl | rfl | ⟨rfl, n, m, more, rfl⟩ | ⟨rfl | rfl | rfl, n, rfl⟩
  · rw [total, List.sum_eq_foldl]
    exact foldl_mem_scanl _ 0 ns
  · rw [total, List.prod_eq_foldl]
    exact foldl_mem_scanl _ 1 ns
  · rw [total, ← foldl_sub]
    · exact foldl_mem_scanl _ n (m :: more)
    · exact nofun
  all_goals exact List.mem_singleton_self _

section
variable (w : World)

theorem number_ite {c : Prop} [Decidable c] (n : Int64) (err : EvalError) :
    Core.number (if c then .ok (.int n) else .error err) w =
      if c then .ok (.int n) w else .error (.error err) w := by
  split <;> rfl

theorem number_ofInt (operation : String) (n : Int) :
    Core.number (ofInt operation n) w =
      if ∀ p ∈ [n], Fits p then .ok (.int (Int64.ofInt n)) w
      else .error (.error (.overflow operation)) w := by
  rw [ofInt_eq, number_ite]
  simp only [List.forall_mem_singleton]

theorem call_integers (e : Engine) (scope : Scope) {b : Builtin} (hb : b ∈ exactOnes)
    {ns : List Int64} (hcount : b.arity.accepts ns.length = true) :
    Core.call e scope b (ns.map .int) w =
      if ∀ p ∈ b.partials (ns.map Int64.toInt), Fits p then
        .ok (.int (Int64.ofInt (b.total (ns.map Int64.toInt)))) w
      else .error (.error (.overflow b.operation)) w := by
  have hcall : Core.call e scope b (ns.map .int) = Core.perform e scope b (ns.map .int) :=
    if_pos (by rwa [List.length_map])
  have hzero : (0 : Int64).toInt = 0 := rfl
  have hone : (1 : Int64).toInt = 1 := rfl
  rw [hcall]
  rcases exact_cases hb hcount with rfl | rfl | ⟨rfl, n, m, more, rfl⟩ | ⟨rfl | rfl | rfl, n, rfl⟩
  · show Core.number (foldl "+" Number.add (.int 0) (ns.map .int)) w = _
    rw [add_exact.foldl, number_ite, hzero, partials, total, List.sum_eq_foldl, operation]
  · show Core.number (foldl "*" mul (.int 1) (ns.map .int)) w = _
    rw [mul_exact.foldl, number_ite, hone, partials, total, List.prod_eq_foldl, operation]
  · show Core.number (foldFrom "-" sub 0 (.int n :: .int m :: more.map .int)) w = _
    rw [foldFrom_int, ← List.map_cons, sub_exact.foldl, number_ite, foldl_sub]
    simp only [partials, total, operation, List.map_cons]
  · show Core.number (sub (.int 0) (.int n)) w = _
    rw [sub_exact, number_ofInt, hzero]
    simp only [partials, total, operation, List.map_cons, List.map_nil, Int.zero_sub]
  · show Core.number (Number.add (.int n) (.int 1)) w = _
    rw [add_exact, number_ofInt, hone]
    simp only [partials, total, operation, List.map_cons, List.map_nil]
  · show Core.number (sub (.int n) (.int 1)) w = _
    rw [sub_exact, number_ofInt, hone]
    simp only [partials, total, operation, List.map_cons, List.map_nil]

end

/-- Integers give an integer, the exact one, if all partial results are words, and an overflow is
reported if one is not. There is no other end, so nothing wraps around and nothing becomes a
floating point number. -/
theorem integer_results_are_exact (e : Engine) (scope : Scope) (w : World) {b : Builtin}
    (hb : b ∈ exactOnes) {ns : List Int64} (hcount : b.arity.accepts ns.length = true) :
    ((∃ n : Int64, Core.call e scope b (ns.map .int) w = .ok (.int n) w ∧
        n.toInt = b.total (ns.map Int64.toInt)) ↔
      ∀ p ∈ b.partials (ns.map Int64.toInt), Fits p) ∧
    ((∃ operation, Core.call e scope b (ns.map .int) w =
        .error (.error (.overflow operation)) w) ↔
      ∃ p ∈ b.partials (ns.map Int64.toInt), ¬ Fits p) ∧
    ∀ v u, Core.call e scope b (ns.map .int) w = .ok v u →
      u = w ∧ ∃ n : Int64, v = .int n ∧ n.toInt = b.total (ns.map Int64.toInt) := by
  rw [call_integers w e scope hb hcount]
  by_cases hall : ∀ p ∈ b.partials (ns.map Int64.toInt), Fits p
  · have hlength : (ns.map Int64.toInt).length = ns.length := List.length_map _
    have htotal := hall _ (total_mem_partials hb (hlength ▸ hcount))
    rw [if_pos hall]
    refine ⟨iff_of_true ⟨_, rfl, htotal.toInt_ofInt⟩ hall, iff_of_false nofun ?_, ?_⟩
    · exact fun ⟨p, hp, hfits⟩ => hfits (hall p hp)
    · rintro _ _ ⟨⟩
      exact ⟨rfl, _, rfl, htotal.toInt_ofInt⟩
  · rw [if_neg hall]
    refine ⟨iff_of_false nofun hall, iff_of_true ⟨_, rfl⟩ ?_, nofun⟩
    simpa only [Classical.not_forall, exists_prop] using hall

/-- The total of `(+ 9223372036854775807 1 -1)` is a word, but a partial sum is not. -/
theorem integer_results_are_exact_passing :
    Builtin.add.arity.accepts 3 = true ∧
    Builtin.add.total [Int64.maxValue.toInt, 1, -1] = Int64.maxValue.toInt ∧
    ∃ operation, Core.call (.ofBudget 0) none .add [.int Int64.maxValue, .int 1, .int (-1)] {} =
      .error (.error (.overflow operation)) {} := by
  have hlast : ∃ p ∈ Builtin.add.partials ([Int64.maxValue, 1, -1].map Int64.toInt), ¬ Fits p := by
    decide
  have hresults := @integer_results_are_exact (.ofBudget 0) none {} .add (by decide)
    [Int64.maxValue, 1, -1] rfl
  exact ⟨rfl, rfl, hresults.2.1.2 hlast⟩

end Builtin

namespace Number

/-! Division. -/

/-- The quotient rounded toward zero, and the remainder that goes with it. -/
structure Truncates (a b q r : Int) : Prop where
  exact : a = b * q + r
  small : r.natAbs < b.natAbs
  sign : r = 0 ∨ r.sign = a.sign

/-- The remainder with the sign of the divisor. -/
structure Floors (a b m : Int) : Prop where
  congruent : b ∣ a - m
  small : m.natAbs < b.natAbs
  sign : m = 0 ∨ m.sign = b.sign

theorem truncates_tdiv (a : Int) {b : Int} (hb : b ≠ 0) : Truncates a b (a.tdiv b) (a.tmod b) where
  exact := (Int.mul_tdiv_add_tmod a b).symm
  small := by
    rw [Int.natAbs_tmod]
    exact Nat.mod_lt _ (Int.natAbs_pos.2 hb)
  sign := by
    rw [Int.sign_tmod]
    split
    · rename_i hdvd
      exact .inl (Int.tmod_eq_zero_of_dvd hdvd)
    · exact .inr rfl

/-- What is added to the remainder to give it the sign of the divisor. -/
def correction (r d : Int) : Int := if r ≠ 0 ∧ ¬ (r < 0 ↔ d < 0) then d else 0

theorem Truncates.floors {a b q r : Int} (h : Truncates a b q r) (hb : b ≠ 0) :
    Floors a b (r + correction r b) := by
  obtain ⟨hexact, hsmall, -⟩ := h
  have hdvd : b ∣ a - r := ⟨q, by omega⟩
  unfold correction
  split
  · rename_i hadjust
    obtain ⟨hr, hsigns⟩ := hadjust
    refine ⟨?_, by omega, .inr ?_⟩
    · have hshift : a - (r + b) = a - r - b := by omega
      rw [hshift]
      exact Int.dvd_sub hdvd (Int.dvd_refl b)
    · rcases Int.lt_or_gt_of_ne hb with hneg | hpos
      · rw [Int.sign_eq_neg_one_of_neg hneg, Int.sign_eq_neg_one_of_neg (by omega)]
      · rw [Int.sign_eq_one_of_pos hpos, Int.sign_eq_one_of_pos (by omega)]
  · rename_i hkeep
    rw [Int.add_zero]
    refine ⟨hdvd, hsmall, ?_⟩
    by_cases hr : r = 0
    · exact .inl hr
    · have hsigns : r < 0 ↔ b < 0 := Decidable.not_not.1 fun h => hkeep ⟨hr, h⟩
      rcases Int.lt_or_gt_of_ne hb with hneg | hpos
      · exact .inr (by rw [Int.sign_eq_neg_one_of_neg hneg, Int.sign_eq_neg_one_of_neg (hsigns.2 hneg)])
      · exact .inr (by rw [Int.sign_eq_one_of_pos hpos, Int.sign_eq_one_of_pos (by omega)])

/-- What is smaller than a word is a word. -/
theorem fits_of_natAbs_lt {n : Int} {b : Int64} (h : n.natAbs < b.toInt.natAbs) : Fits n := by
  have hb := fits_iff.1 (toInt_fits b)
  rw [fits_iff]
  omega

section
variable {a b : Int64}

theorem toInt_ne_zero (hb : b ≠ 0) : b.toInt ≠ 0 := fun h => hb (Int64.toInt_inj.1 h)

theorem quotientOverflows_iff : quotientOverflows a b = true ↔ a = Int64.minValue ∧ b = -1 := by
  simp [quotientOverflows]

/-- Only the quotient of the least word by minus one is no word. -/
theorem toInt_div (h : ¬ (a = Int64.minValue ∧ b = -1)) : (a / b).toInt = a.toInt.tdiv b.toInt := by
  by_cases ha : a = Int64.minValue
  · exact Int64.toInt_div_of_ne_right a b fun hb => h ⟨ha, hb⟩
  · exact Int64.toInt_div_of_ne_left a b ha

theorem truncates_words (hb : b ≠ 0) (h : ¬ (a = Int64.minValue ∧ b = -1)) :
    Truncates a.toInt b.toInt (a / b).toInt (a % b).toInt := by
  rw [toInt_div h, Int64.toInt_mod]
  exact truncates_tdiv a.toInt (toInt_ne_zero hb)

/-- The end of a division of words. -/
def divided (operation : String) (a b : Int64) (n : Number) : Except EvalError Number :=
  if b = 0 then .error .divideByZero
  else if a = Int64.minValue ∧ b = -1 then .error (.overflow operation)
  else .ok n

theorem divided_of_ne (operation : String) (hb : b ≠ 0) (h : ¬ (a = Int64.minValue ∧ b = -1))
    (n : Number) : divided operation a b n = .ok n := by
  rw [divided, if_neg hb, if_neg h]

theorem quot_words : quot (int a) (int b) = divided "quot" a b (int (a / b)) := by
  unfold quot divided
  by_cases hb : b = 0
  · simp [isZero, hb]
  · simp only [isZero, beq_iff_eq, hb, if_false]
    split
    · rename_i h
      obtain ⟨rfl, rfl⟩ := h
      rfl
    · rename_i h
      rw [← toInt_div h, ofInt_toInt]

theorem rem_words : rem (int a) (int b) = divided "rem" a b (int (a % b)) := by
  unfold rem divided
  by_cases hb : b = 0
  · simp [isZero, hb]
  · simp only [isZero, beq_iff_eq, hb, if_false, quotientOverflows_iff]
    split
    · rfl
    · rw [← Int64.toInt_mod, ofInt_toInt]

theorem div_words : div (int a) (int b) =
    divided "/" a b (if a % b = 0 then int (a / b) else float (a.toFloat / b.toFloat)) := by
  unfold div divided
  by_cases hb : b = 0
  · simp [isZero, hb]
  · simp only [isZero, beq_iff_eq, hb, if_false, quotientOverflows_iff]
    split
    · rfl
    · rename_i h
      rw [← Int64.toInt_mod, ← toInt_div h, ofInt_toInt]
      have hzero : (a % b).toInt = 0 ↔ a % b = 0 := Int64.toInt_inj (y := 0)
      simp only [hzero, toFloat]
      split <;> rfl

/-- The remainder as `mod` gives it. -/
def corrected (a b : Int64) : Int64 :=
  Int64.ofInt ((a % b).toInt + correction (a % b).toInt b.toInt)

theorem floors_words (hb : b ≠ 0) (h : ¬ (a = Int64.minValue ∧ b = -1)) :
    (corrected a b).toInt = (a % b).toInt + correction (a % b).toInt b.toInt ∧
      Floors a.toInt b.toInt (corrected a b).toInt := by
  have hfloors := (truncates_words hb h).floors (toInt_ne_zero hb)
  have hexact := (fits_of_natAbs_lt hfloors.small).toInt_ofInt
  exact ⟨hexact, hexact ▸ hfloors⟩

/-- The sum that corrects a remainder does not leave the words. -/
theorem correct_words (hb : b ≠ 0) (h : ¬ (a = Int64.minValue ∧ b = -1)) :
    (if (a % b != 0 && decide ((a % b).toInt < 0) != decide (b.toInt < 0)) = true then
      add (int (a % b)) (int b) else .ok (int (a % b))) = .ok (int (corrected a b)) := by
  have hexact := (floors_words hb h).1
  have hadjust : (a % b != 0 && decide ((a % b).toInt < 0) != decide (b.toInt < 0)) = true ↔
      (a % b).toInt ≠ 0 ∧ ¬ ((a % b).toInt < 0 ↔ b.toInt < 0) := by
    have hzero : (a % b).toInt = 0 ↔ a % b = 0 := Int64.toInt_inj (y := 0)
    simp only [hzero, Bool.and_eq_true, bne_iff_ne, ne_eq, decide_eq_decide]
  rw [← ofInt_toInt "+" (corrected a b), hexact, correction]
  simp only [hadjust]
  split
  · rfl
  · rw [Int.add_zero, ofInt_toInt]

theorem mod_words : mod (int a) (int b) = divided "rem" a b (int (corrected a b)) := by
  unfold mod
  rw [rem_words]
  by_cases hb : b = 0
  · rw [divided, if_pos hb, divided, if_pos hb]
    rfl
  · by_cases h : a = Int64.minValue ∧ b = -1
    · rw [divided, if_neg hb, if_pos h, divided, if_neg hb, if_pos h]
      rfl
    · rw [divided_of_ne "rem" hb h, divided_of_ne "rem" hb h]
      exact correct_words hb h

end
end Number

namespace Builtin
open Number

def divisions : List Builtin := [.quot, .rem, .mod, .divide]

/-- What a division gives where it does not fail. -/
def divisionResult (a b : Int64) : Builtin → Number
  | .quot => .int (a / b)
  | .rem => .int (a % b)
  | .mod => .int (corrected a b)
  | _ => if a % b = 0 then .int (a / b) else .float (a.toFloat / b.toFloat)

theorem number_divided (operation : String) (a b : Int64) (n : Number) (w : World) :
    Core.number (divided operation a b n) w =
      if b = 0 then .error (.error .divideByZero) w
      else if a = Int64.minValue ∧ b = -1 then .error (.error (.overflow operation)) w
      else .ok n.toValue w := by
  unfold divided
  split
  · rfl
  · split <;> rfl

section
variable (e : Engine) (scope : Scope) (w : World) {f : Builtin} {a b : Int64}

theorem call_division (hf : f ∈ divisions) (a b : Int64) :
    ∃ operation, Core.call e scope f [.int a, .int b] w =
      Core.number (divided operation a b (divisionResult a b f)) w := by
  simp only [divisions, List.mem_cons, List.not_mem_nil, or_false] at hf
  rcases hf with rfl | rfl | rfl | rfl
  · exact ⟨"quot", congrArg (Core.number · w) quot_words⟩
  · exact ⟨"rem", congrArg (Core.number · w) rem_words⟩
  · exact ⟨"rem", congrArg (Core.number · w) mod_words⟩
  · exact ⟨"/", congrArg (Core.number · w) ((foldFrom_pair "/" 1 a b).trans div_words)⟩

theorem division_by_zero_iff (hf : f ∈ divisions) :
    Core.call e scope f [.int a, .int b] w = .error (.error .divideByZero) w ↔ b = 0 := by
  obtain ⟨operation, hcall⟩ := call_division e scope w hf a b
  rw [hcall, number_divided]
  split
  · rename_i hb
    exact iff_of_true rfl hb
  · rename_i hb
    refine iff_of_false ?_ hb
    split <;> nofun

theorem division_overflow_iff (hf : f ∈ divisions) :
    (∃ operation, Core.call e scope f [.int a, .int b] w =
      .error (.error (.overflow operation)) w) ↔ a = Int64.minValue ∧ b = -1 := by
  obtain ⟨operation, hcall⟩ := call_division e scope w hf a b
  rw [hcall, number_divided]
  split
  · rename_i hb
    subst hb
    exact iff_of_false nofun nofun
  · split
    · rename_i hmin
      exact iff_of_true ⟨operation, rfl⟩ hmin
    · rename_i hmin
      exact iff_of_false nofun hmin

theorem division_result (hf : f ∈ divisions) (hb : b ≠ 0)
    (h : ¬ (a = Int64.minValue ∧ b = -1)) :
    Core.call e scope f [.int a, .int b] w = .ok (divisionResult a b f).toValue w := by
  obtain ⟨operation, hcall⟩ := call_division e scope w hf a b
  rw [hcall, number_divided, if_neg hb, if_neg h]

end

/-- Division by zero and the one quotient that is no word are errors. All else is exact: `quot` and
`rem` truncate, `mod` has the sign of the divisor and comes from the remainder by an addition that
does not overflow, and `/` is the quotient if nothing remains and a floating point number otherwise. -/
theorem integer_division_laws (e : Engine) (scope : Scope) (w : World) (a b : Int64) :
    (∀ f ∈ divisions, Core.call e scope f [.int a, .int b] w = .error (.error .divideByZero) w ↔
      b = 0) ∧
    (∀ f ∈ divisions, (∃ operation, Core.call e scope f [.int a, .int b] w =
        .error (.error (.overflow operation)) w) ↔ a = Int64.minValue ∧ b = -1) ∧
    (b ≠ 0 → ¬ (a = Int64.minValue ∧ b = -1) → ∃ q r m : Int64,
      Core.call e scope .quot [.int a, .int b] w = .ok (.int q) w ∧
      Core.call e scope .rem [.int a, .int b] w = .ok (.int r) w ∧
      Core.call e scope .mod [.int a, .int b] w = .ok (.int m) w ∧
      Truncates a.toInt b.toInt q.toInt r.toInt ∧ Floors a.toInt b.toInt m.toInt ∧
      m.toInt = r.toInt + correction r.toInt b.toInt ∧
      (r = 0 → Core.call e scope .divide [.int a, .int b] w = .ok (.int q) w) ∧
      (r ≠ 0 → Core.call e scope .divide [.int a, .int b] w =
        .ok (.float (a.toFloat / b.toFloat)) w)) := by
  refine ⟨fun f hf => division_by_zero_iff e scope w hf,
    fun f hf => division_overflow_iff e scope w hf, fun hb h => ?_⟩
  have hresult : ∀ f ∈ divisions, Core.call e scope f [.int a, .int b] w =
      .ok (divisionResult a b f).toValue w := fun f hf => division_result e scope w hf hb h
  obtain ⟨hexact, hfloors⟩ := floors_words hb h
  refine ⟨a / b, a % b, corrected a b, hresult .quot (by decide), hresult .rem (by decide),
    hresult .mod (by decide), truncates_words hb h, hfloors, hexact, fun hr => ?_, fun hr => ?_⟩
  · have hquotient : divisionResult a b .divide = .int (a / b) := if_pos hr
    rw [hresult .divide (by decide), hquotient, toValue]
  · have hquotient : divisionResult a b .divide = .float (a.toFloat / b.toFloat) := if_neg hr
    rw [hresult .divide (by decide), hquotient, toValue]

end Builtin
end LazyLisp
