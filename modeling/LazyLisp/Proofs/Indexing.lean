import LazyLisp.Proofs.Arithmetic
import LazyLisp.Proofs.Concatenation
import LazyLisp.Proofs.MapHistory

/-!
Elements by position. Vectors and strings know their elements by index, sequences have to be walked.
The ways to ask for an element agree with one another and with the walk, which stops at the element
that was asked for: what is behind it may be endless or fail.
-/

namespace LazyLisp
set_option autoImplicit false

/-! Walks that stop. -/

namespace Seq

/-- A walk of so many looks sees these elements: all that there are, or one by each look. -/
inductive Sees : World → Seq → Nat → List Value → World → Prop
  | enough (w : World) (s : Seq) : Sees w s 0 [] w
  | ended {w v : World} {s : Seq} {k : Nat} (h : Takes w s none v) : Sees w s (k + 1) [] v
  | more {w v u : World} {s t : Seq} {x : Value} {k : Nat} {xs : List Value}
      (h : Takes w s (some (x, t)) v) (ht : Sees v t k xs u) : Sees w s (k + 1) (x :: xs) u

theorem Holds.sees {w : World} {s : Seq} {xs : List Value} (h : Holds w s xs) (k : Nat) :
    Sees w s k (xs.take k) w := by
  induction h generalizing k with
  | nil h =>
    rw [List.take_nil]
    cases k with
    | zero => exact .enough w _
    | succ k => exact .ended h
  | cons h ht ih =>
    cases k with
    | zero => exact .enough w _
    | succ k => exact .more h (ih k)

theorem Sees.takeBy {w v : World} {s : Seq} {k : Nat} {xs : List Value} (h : Sees w s k xs v) :
    ∃ left n, ∀ m, n ≤ m →
      Seq.takeBy (·.uncons (.ofBudget m)) k s w = .ok (xs, left) v := by
  induction h with
  | enough w s => exact ⟨s, 0, fun m _ => rfl⟩
  | @ended w v s k h =>
    obtain ⟨n, hn⟩ := h.uncons
    exact ⟨s, n, fun m hm => run_bind_ok (hn m hm) _⟩
  | more h ht ih =>
    obtain ⟨n, hn⟩ := h.uncons
    obtain ⟨left, l, hl⟩ := ih
    refine ⟨left, max n l, fun m hm => ?_⟩
    exact (run_bind_ok (hn m (by omega)) _).trans (run_bind_ok (hl m (by omega)) _)

theorem Holds.walks {w : World} {s : Seq} {xs : List Value} (h : Holds w s xs) :
    Walks w s xs w := by
  induction h with
  | nil h => exact .nil h
  | cons h ht ih => exact .cons h ih

theorem Walks.unique {w u u' : World} {s : Seq} {xs ys : List Value} (h : Walks w s xs u)
    (h' : Walks w s ys u') : xs = ys ∧ u = u' := by
  induction h generalizing ys with
  | nil h =>
    cases h' with
    | nil h' => exact ⟨rfl, (h.unique h').2⟩
    | cons h' => cases (h.unique h').1
  | cons h ht ih =>
    cases h' with
    | nil h' => cases (h.unique h').1
    | cons h' ht' =>
      obtain ⟨hlook, rfl⟩ := h.unique h'
      cases hlook
      obtain ⟨rfl, rfl⟩ := ih ht'
      exact ⟨rfl, rfl⟩

theorem Walks.eventually_count {w u : World} {s : Seq} {xs : List Value} (h : Walks w s xs u)
    (b : Nat) :
    Eventually (fun m k => s.foldWithin (.ofBudget m) (fun (n : Nat) _ => return n + 1) k b) w
      (b + xs.length) u := by
  induction h generalizing b with
  | nil h =>
    obtain ⟨n, hn⟩ := h.uncons
    refine ⟨n + 1, fun m k hm hk => ?_⟩
    obtain ⟨k, rfl⟩ := Nat.exists_eq_add_of_le' (Nat.le_trans (Nat.succ_pos n) hk)
    exact run_bind_ok (hn m (by omega)) _
  | cons h ht ih =>
    obtain ⟨n, hn⟩ := h.uncons
    obtain ⟨l, hl⟩ := ih (b + 1)
    refine ⟨max n l + 1, fun m k hm hk => ?_⟩
    obtain ⟨k, rfl⟩ := Nat.exists_eq_add_of_le' (Nat.le_trans (Nat.succ_pos _) hk)
    rw [List.length_cons, Nat.add_comm (List.length _), ← Nat.add_assoc]
    exact (run_bind_ok (hn m (by omega)) _).trans (hl m k (by omega) (by omega))

end Seq

/-! Answers. -/

/-- The elements of a vector or a string, in order. -/
def Value.indexed? : Value → Option (List Value)
  | .vector items => some items
  | .string s => some (s.toList.map .char)
  | _ => none

/-- What asking for an index ends with: the element or else an error that names the index. -/
def found (w : World) (i : Int64) (length : Nat) : Option Value → EStateM.Result Stop World Outcome
  | some x => .ok (.value x) w
  | none => .error (.error (.outOfBounds i.toInt length)) w

namespace Core

/-- The element that was found, or an error that names the index. -/
def answer (i : Int64) (length : Nat) : Option Value → Eval Value
  | some x => return x
  | none => fail (.outOfBounds i.toInt length)

theorem value_answer (i : Int64) (length : Nat) (o : Option Value) (w : World) :
    (do return Outcome.value (← answer i length o) : Eval Outcome) w = found w i length o := by
  cases o <;> rfl

theorem item?_map {α β : Type} (f : α → β) (xs : List α) (i : Int64) :
    item? (xs.map f) i = (item? xs i).map f := by
  unfold item?
  split
  · rfl
  · exact List.getElem?_map

theorem item?_take {xs : List Value} {i : Int64} :
    item? (xs.take (i.toInt.toNat + 1)) i = item? xs i := by
  unfold item?
  split
  · rfl
  · exact List.getElem?_take_of_lt (Nat.lt_succ_self _)

theorem item?_neg {α : Type} {i : Int64} (hi : i.toInt < 0) (xs : List α) : item? xs i = none :=
  if_pos hi

section
variable (e : Engine) (scope : Scope) (i : Int64) (fallback : Option Value)

theorem call_nth (v : Value) :
    call e scope .nth (v :: .int i :: fallback.toList) = nth e v (.int i) fallback := by
  cases fallback <;> rfl

theorem nth_elements {v : Value} {xs : List Value} (h : v.indexed? = some xs) :
    nth e v (.int i) fallback = answer i xs.length ((item? xs i).or fallback) := by
  cases v with
  | vector items =>
    obtain rfl : items = xs := Option.some.inj h
    simp only [nth, indexOf, pure_bind, nthOf]
    cases item? items i <;> cases fallback <;> rfl
  | string s =>
    cases h
    simp only [nth, indexOf, pure_bind, nthOf]
    cases item? (s.toList.map Value.char) i <;> cases fallback <;> rfl
  | _ => cases h

/-- A negative index is answered without a look at the sequence. -/
theorem nth_seq_neg {i : Int64} (hi : i.toInt < 0) (s : Seq) :
    nth e (.seq s) (.int i) fallback = answer i 0 fallback := by
  simp only [nth, indexOf, nthOf, seqOf, Value.toSeq?, pure_bind, if_pos hi]
  cases fallback <;> rfl

end

/-- The walk to an index takes the elements up to it. -/
theorem walkTo_eq_takeBy (e : Engine) {n wanted : Nat} (hn : wanted < n) (seen : Nat) (s : Seq) :
    walkTo e n wanted seen s = do
      let (xs, _) ← Seq.takeBy (·.uncons e) (wanted + 1) s
      return match xs[wanted]? with
        | some x => .inl x
        | none => .inr (seen + xs.length) := by
  induction n generalizing wanted seen s with
  | zero => exact absurd hn (Nat.not_lt_zero wanted)
  | succ n ih =>
    rw [walkTo, Seq.takeBy, bind_assoc]
    refine bind_congr fun o => ?_
    rcases o with _ | ⟨x, t⟩
    · rfl
    · cases wanted with
      | zero => rfl
      | succ wanted =>
        dsimp only
        rw [if_neg (Nat.succ_ne_zero wanted), Nat.add_sub_cancel, ih (Nat.lt_of_succ_lt_succ hn),
          bind_assoc]
        refine bind_congr fun (ys, _) => ?_
        dsimp only
        rw [pure_bind, List.getElem?_cons_succ, List.length_cons]
        cases ys[wanted]? with
        | some x => rfl
        | none => rw [Nat.add_right_comm, Nat.add_assoc]

/-- An index that is not negative takes the elements up to it, and looks at none behind it. -/
theorem nth_seq (e : Engine) {i : Int64} (hi : 0 ≤ i.toInt) (hbound : i.toInt.toNat < e.bound)
    (s : Seq) (fallback : Option Value) :
    nth e (.seq s) (.int i) fallback =
      (Seq.takeBy (·.uncons e) (i.toInt.toNat + 1) s >>= fun (xs, _) =>
        answer i xs.length ((item? xs i).or fallback)) := by
  have hnot : ¬ i.toInt < 0 := Int.not_lt.2 hi
  simp only [nth, indexOf, nthOf, seqOf, Value.toSeq?, pure_bind, if_neg hnot,
    walkTo_eq_takeBy e hbound, bind_assoc, Nat.zero_add]
  refine bind_congr fun (xs, _) => ?_
  rw [item?, if_neg hnot]
  cases xs[i.toInt.toNat]? <;> cases fallback <;> rfl

end Core

namespace Applying
variable {w : World}

/-- A built-in function is called within what the budget leaves. -/
theorem builtin {b : Builtin} {args : List Value} {r : EStateM.Result Stop World Outcome}
    (h : ∃ n, ∀ m, n ≤ m → ∀ scope,
      (do return Outcome.value (← Core.call (.ofBudget m) scope b args) : Eval Outcome) w = r) :
    Applying w (.builtin b) args r :=
  of_succ h

theorem functional {callee : Value} {args : List Value} {r r' : EStateM.Result Stop World Outcome}
    (h : Applying w callee args r) (h' : Applying w callee args r') : r = r' := by
  obtain ⟨n, hn⟩ := h none
  obtain ⟨n', hn'⟩ := h' none
  exact (hn _ (Nat.le_max_left n n')).symm.trans (hn' _ (Nat.le_max_right n n'))

theorem agree {callee callee' : Value} {args args' : List Value}
    {r : EStateM.Result Stop World Outcome} (h : Applying w callee args r)
    (h' : Applying w callee' args' r) (r' : EStateM.Result Stop World Outcome) :
    Applying w callee args r' ↔ Applying w callee' args' r' := by
  constructor
  · intro hr
    rwa [hr.functional h]
  · intro hr
    rwa [hr.functional h']

end Applying

section
variable {w : World} {i : Int64}

theorem applying_nth {c : Value} {xs : List Value} (h : c.indexed? = some xs)
    (fallback : Option Value) :
    Applying w (.builtin .nth) (c :: .int i :: fallback.toList)
      (found w i xs.length ((Core.item? xs i).or fallback)) := by
  refine .builtin ⟨0, fun m _ scope => ?_⟩
  rw [Core.call_nth, Core.nth_elements _ _ _ h, Core.value_answer]

theorem applying_nth_neg (hi : i.toInt < 0) (s : Seq) (fallback : Option Value) :
    Applying w (.builtin .nth) (.seq s :: .int i :: fallback.toList) (found w i 0 fallback) := by
  refine .builtin ⟨0, fun m _ scope => ?_⟩
  rw [Core.call_nth, Core.nth_seq_neg _ _ hi, Core.value_answer]

theorem applying_nth_sees {s : Seq} {xs : List Value} {v : World} (hi : 0 ≤ i.toInt)
    (h : Seq.Sees w s (i.toInt.toNat + 1) xs v) (fallback : Option Value) :
    Applying w (.builtin .nth) (.seq s :: .int i :: fallback.toList)
      (found v i xs.length ((Core.item? xs i).or fallback)) := by
  obtain ⟨left, n, hn⟩ := h.takeBy
  refine .builtin ⟨max n (i.toInt.toNat + 1), fun m hm scope => ?_⟩
  have hbound : i.toInt.toNat < (Engine.ofBudget m).bound := by
    show i.toInt.toNat < m
    omega
  rw [Core.call_nth, Core.nth_seq _ hi hbound, bind_assoc]
  exact (run_bind_ok (hn m (by omega)) _).trans (Core.value_answer i _ _ v)

/-- The sequence view of a vector or a string is asked like the vector or the string itself. -/
theorem applying_nth_view {s : Seq} {xs : List Value} (h : Seq.Holds w s xs)
    (fallback : Option Value) :
    ∃ length, Applying w (.builtin .nth) (.seq s :: .int i :: fallback.toList)
      (found w i length ((Core.item? xs i).or fallback)) := by
  -- the lengths that the errors name differ: no element is seen for a negative index
  rcases lt_or_ge i.toInt 0 with hi | hi
  · refine ⟨0, ?_⟩
    rw [Core.item?_neg hi, Option.none_or]
    exact applying_nth_neg hi s fallback
  · refine ⟨(xs.take (i.toInt.toNat + 1)).length, ?_⟩
    rw [← Core.item?_take]
    exact applying_nth_sees hi (h.sees (i.toInt.toNat + 1)) fallback

theorem applying_vector (items : List Value) :
    Applying w (.vector items) [.int i] (found w i items.length (Core.item? items i)) := by
  refine .of_succ ⟨0, fun m _ scope => ?_⟩
  show Evaluation.applyValue (.ofBudget m) scope (.vector items) [.int i] w = _
  rw [Evaluation.applyValue]
  cases Core.item? items i <;> rfl

theorem applying_get {c : Value} {xs : List Value} (h : c.indexed? = some xs) (d : Value) :
    Applying w (.builtin .get) [c, .int i, d]
      (found w i xs.length ((Core.item? xs i).or (some d))) := by
  refine .builtin ⟨0, fun m _ scope => ?_⟩
  show (do return Outcome.value (← Core.get (.ofBudget m) c (.int i) d) : Eval Outcome) w = _
  cases c with
  | vector items =>
    obtain rfl : items = xs := Option.some.inj h
    rw [Core.get]
    cases Core.item? items i <;> rfl
  | string s =>
    cases h
    rw [Core.get, Core.item?_map]
    cases Core.item? s.toList i <;> rfl
  | _ => cases h

theorem returns_contains {c : Value} {xs : List Value} (h : c.indexed? = some xs) :
    Returns w (.builtin .contains) [c, .int i] (.bool (Core.item? xs i).isSome) w := by
  refine .builtin ⟨0, fun m _ scope => ?_⟩
  show (do return Outcome.value (← Core.contains (.ofBudget m) c (.int i)) : Eval Outcome) w = _
  cases c with
  | vector items =>
    obtain rfl : items = xs := Option.some.inj h
    rfl
  | string s =>
    cases h
    rw [Core.contains, Core.item?_map, Option.isSome_map]
    rfl
  | _ => cases h

end

/-! Counting. -/

/-- The elements of `nil` and of what is in memory, in the order of a walk. -/
def Value.stored? : Value → Option (List Value)
  | .nil => some []
  | .vector items => some items
  | .string s => some (s.toList.map .char)
  | .map entries => some (entries.map fun f => .vector [f.1, f.2])
  | _ => none

/-- What is in memory can be walked as it is. -/
theorem Value.holds_stored {c : Value} {xs : List Value} (h : c.stored? = some xs) :
    ∃ s, c.toSeq? = some s ∧ ∀ w, Seq.Holds w s xs := by
  cases c with
  | nil =>
    cases h
    exact ⟨_, rfl, fun w => .nil (.empty w)⟩
  | vector items =>
    cases h
    exact ⟨_, rfl, fun w => .vectorView w _ 0⟩
  | string text =>
    cases h
    exact ⟨_, rfl, fun w => .textView w text⟩
  | map entries =>
    cases h
    exact ⟨_, rfl, fun w => .entryView w entries 0⟩
  | _ => cases h

/-- Whatever can be walked is a sequence or is in memory. -/
theorem Value.seq_or_stored {c : Value} {s : Seq} (h : c.toSeq? = some s) :
    c = .seq s ∨ ∃ xs, c.stored? = some xs := by
  cases c with
  | nil | vector | string | map => exact .inr ⟨_, rfl⟩
  | seq t => exact .inl (congrArg Value.seq (Option.some.inj h))
  | _ => cases h

theorem Value.indexed?_stored {c : Value} {xs : List Value} (h : c.indexed? = some xs) :
    c.stored? = some xs := by
  cases c with
  | vector | string => exact h
  | _ => cases h

section
variable {w u : World}

theorem applying_count_seq {s : Seq} {xs : List Value} (h : Seq.Walks w s xs u) :
    Applying w (.builtin .count) [.seq s]
      (if Number.Fits xs.length then .ok (.value (.int (Int64.ofInt xs.length))) u
        else .error (.error (.overflow "count")) u) := by
  obtain ⟨n, hn⟩ := h.eventually_count 0
  refine .builtin ⟨n, fun m hm scope => ?_⟩
  have hfold := hn m m hm hm
  rw [Nat.zero_add] at hfold
  have hcount : Core.call (.ofBudget m) scope .count [.seq s] w =
      Core.number (Number.ofInt "count" xs.length) u := run_bind_ok hfold _
  rw [run_bind, hcount, Number.ofInt_eq]
  by_cases hfits : Number.Fits xs.length
  · rw [if_pos hfits, if_pos hfits]
    rfl
  · rw [if_neg hfits, if_neg hfits]
    rfl

theorem returns_count_stored {c : Value} {xs : List Value} (h : c.stored? = some xs) :
    Returns w (.builtin .count) [c] (.int (Int64.ofNat xs.length)) w := by
  refine .builtin ⟨0, fun m _ scope => ?_⟩
  cases c with
  | nil =>
    cases h
    rfl
  | vector items =>
    cases h
    rfl
  | string s =>
    cases h
    rw [List.length_map, String.length_toList]
    rfl
  | map entries =>
    cases h
    rw [List.length_map]
    rfl
  | _ => cases h

end

/-! The laws. -/

/-- Asking a vector or a string with these elements for an index, in all ways that there are. -/
structure AskedFor (w : World) (c : Value) (xs : List Value) (i : Int64) : Prop where
  nth : ∀ fallback : Option Value,
    Applying w (.builtin .nth) (c :: .int i :: fallback.toList)
      (found w i xs.length ((Core.item? xs i).or fallback))
  /-- The view gives the same value, or an error that names the same index. -/
  view : ∀ s, c.toSeq? = some s → ∀ fallback : Option Value, ∃ length,
    Applying w (.builtin .nth) (.seq s :: .int i :: fallback.toList)
      (found w i length ((Core.item? xs i).or fallback))
  apply : ∀ items, c = .vector items → ∀ r,
    Applying w c [.int i] r ↔ Applying w (.builtin .nth) [c, .int i] r
  get : ∀ d r,
    Applying w (.builtin .get) [c, .int i, d] r ↔ Applying w (.builtin .nth) [c, .int i, d] r
  contains : ∃ b, Returns w (.builtin .contains) [c, .int i] (.bool b) w ∧
    (b = true ↔ ∃ x v, Returns w (.builtin .nth) [c, .int i] x v)

/-- How the elements of collections and sequences are asked for and counted. -/
structure Indexing (w : World) : Prop where
  element : ∀ (c : Value) xs, c.indexed? = some xs → ∀ i, AskedFor w c xs i
  /-- A walk to an index takes one element more than the index says, and no look follows. -/
  walk : ∀ (e : Engine) (s : Seq) (i : Int64) (fallback : Option Value), 0 ≤ i.toInt →
    i.toInt.toNat < e.bound → Core.nth e (.seq s) (.int i) fallback =
      (Seq.takeBy (·.uncons e) (i.toInt.toNat + 1) s >>= fun (xs, _) =>
        Core.answer i xs.length ((Core.item? xs i).or fallback))
  /-- What the looks up to the index see is all that counts: there may be no end behind it. -/
  sees : ∀ (s : Seq) (i : Int64) xs v, 0 ≤ i.toInt → Seq.Sees w s (i.toInt.toNat + 1) xs v →
    ∀ fallback : Option Value, Applying w (.builtin .nth) (.seq s :: .int i :: fallback.toList)
      (found v i xs.length ((Core.item? xs i).or fallback))
  /-- Nothing is looked at for a negative index. -/
  negative : ∀ (s : Seq) (i : Int64), i.toInt < 0 → ∀ fallback : Option Value,
    Applying w (.builtin .nth) (.seq s :: .int i :: fallback.toList) (found w i 0 fallback)
  /-- What is in memory can be walked to its end. -/
  stored : ∀ (c : Value) xs, c.stored? = some xs → ∃ s, c.toSeq? = some s ∧ Seq.Walks w s xs w
  count : ∀ (c : Value) s xs u, c.toSeq? = some s → Seq.Walks w s xs u → Number.Fits xs.length →
    ∃ n : Int64, n.toInt = xs.length ∧ Returns w (.builtin .count) [c] (.int n) u
  /-- Only what is produced while it is walked can have more elements than a word can count. -/
  overflow : ∀ s xs u, Seq.Walks w s xs u → ¬ Number.Fits xs.length →
    Applying w (.builtin .count) [.seq s] (.error (.error (.overflow "count")) u)

theorem askedFor_of_indexed {w : World} {c : Value} {xs : List Value} (h : c.indexed? = some xs)
    (i : Int64) :
    AskedFor w c xs i where
  nth := applying_nth h
  view := by
    intro s hs
    obtain ⟨t, ht, hholds⟩ := Value.holds_stored (Value.indexed?_stored h)
    obtain rfl : t = s := Option.some.inj (ht.symm.trans hs)
    exact applying_nth_view (hholds w)
  apply := by
    rintro items rfl
    obtain rfl : items = xs := Option.some.inj h
    have hnth := applying_nth (w := w) (i := i) h none
    rw [Option.or_none] at hnth
    exact (applying_vector items).agree hnth
  get d := (applying_get h d).agree (applying_nth h (some d))
  contains := by
    refine ⟨_, returns_contains h, ?_⟩
    have hnth := applying_nth (w := w) (i := i) h none
    rw [Option.or_none] at hnth
    cases hitem : Core.item? xs i with
    | some x =>
      rw [hitem] at hnth
      exact iff_of_true rfl ⟨x, w, hnth⟩
    | none =>
      rw [hitem] at hnth
      refine iff_of_false (by simp) ?_
      rintro ⟨x, v, hx⟩
      cases hnth.functional hx

theorem returns_count_of_walks {w u : World} {c : Value} {s : Seq} {xs : List Value}
    (hs : c.toSeq? = some s) (h : Seq.Walks w s xs u) (hfits : Number.Fits xs.length) :
    ∃ n : Int64, n.toInt = xs.length ∧ Returns w (.builtin .count) [c] (.int n) u := by
  -- what is in memory is not walked, but walking it would give its elements
  obtain rfl | ⟨ys, hys⟩ := Value.seq_or_stored hs
  · have hcount := applying_count_seq h
    rw [if_pos hfits] at hcount
    exact ⟨_, hfits.toInt_ofInt, hcount⟩
  · obtain ⟨t, ht, hholds⟩ := Value.holds_stored hys
    obtain rfl : t = s := Option.some.inj (ht.symm.trans hs)
    obtain ⟨rfl, rfl⟩ := (hholds w).walks.unique h
    have hlength : ys.length < 2 ^ 63 := by
      have hmost := (Number.fits_iff.1 hfits).2
      omega
    exact ⟨_, Int64.toInt_ofNat_of_lt hlength, returns_count_stored hys⟩

/-- The indexed ways to ask for an element agree with one another and with a walk. A walk stops at
the index, and counting gives the number of elements that a walk to the end comes by. -/
theorem indexing_agrees_with_walking (w : World) : Indexing w where
  element c xs h i := askedFor_of_indexed h i
  walk e s i fallback hi hbound := Core.nth_seq e hi hbound s fallback
  sees s i xs v hi h := applying_nth_sees hi h
  negative s i hi := applying_nth_neg hi s
  stored := by
    intro c xs h
    obtain ⟨s, hs, hholds⟩ := Value.holds_stored h
    exact ⟨s, hs, (hholds w).walks⟩
  count c s xs u := returns_count_of_walks
  overflow := by
    intro s xs u h hfits
    have hcount := applying_count_seq h
    rwa [if_neg hfits] at hcount

/-- A cell that comes again behind a seven, and one whose thunk cannot be called. -/
def sevens : World where
  cells := #[.realized (.cons (.int 7) (.lazy 0)), .pending (.int 1)]

theorem sevens_sees (k : Nat) :
    Seq.Sees sevens (.lazy 0) k (List.replicate k (.int 7)) sevens := by
  have hlook : Seq.Takes sevens (.lazy 0) (some (.int 7, .lazy 0)) sevens :=
    .lazy (n := 0) rfl rfl (.cons sevens _ _)
  induction k with
  | zero => exact .enough sevens _
  | succ k ih => exact .more hlook ih

/-- The list of sevens has no end, and behind the eight stands a cell that fails. -/
theorem indexing_agrees_with_walking_endless :
    Returns sevens (.builtin .nth) [.seq (.lazy 0), .int Int64.maxValue] (.int 7) sevens ∧
      Returns sevens (.builtin .nth) [.seq (.cons (.int 8) (.lazy 1)), .int 0] (.int 8) sevens ∧
      AskedFor sevens (.string "\u03bb!") [.char '\u03bb', .char '!'] 1 := by
  have hlaws := indexing_agrees_with_walking sevens
  have hendless := hlaws.sees (.lazy 0) Int64.maxValue _ _ (by decide) (sevens_sees _) none
  have hfirst := hlaws.sees (.cons (.int 8) (.lazy 1)) 0 _ _ (by decide)
    (.more (.cons sevens _ _) (.enough sevens _)) none
  have hitem : Core.item? (List.replicate (Int64.maxValue.toInt.toNat + 1) (Value.int 7))
      Int64.maxValue = some (.int 7) := by
    rw [Core.item?, if_neg (by decide), List.getElem?_replicate_of_lt (Nat.lt_succ_self _)]
  rw [hitem] at hendless
  exact ⟨hendless, hfirst, hlaws.element _ _ rfl 1⟩

end LazyLisp
