import LazyLisp.Sequence
import LazyLisp.Proofs.Running

/-!
One look at the front of a sequence. A look finds the head and the tail at once, where the program
asks for them one by one, each time from the beginning: a concatenation settles on its first part
that is not empty for every question. A look that has to run no thunk answers all questions, for
every engine.
-/

namespace LazyLisp.Seq
set_option autoImplicit false

/-- Head and tail at one look, within a number of steps. A concatenation passes on to its next part
only when the current one is used up. -/
def unconsWithin (e : Engine) : Nat → Seq → Eval (Option (Value × Seq))
  | 0, _ => throw .exhausted
  | _ + 1, .empty => return none
  | _ + 1, .cons head tail => return some (head, tail)
  | _ + 1, .vectorView items i =>
    return items[i]?.map (·, indexRest (.vectorView items) items.length i)
  | _ + 1, .textView text offset =>
    return (Text.charsFrom text.toList offset).head?.map (.char ·, textRest text offset)
  | _ + 1, .entryView entries i =>
    return entries[i]?.map fun (k, v) =>
      (.vector [k, v], indexRest (.entryView entries) entries.length i)
  | n + 1, .lazy cell => do unconsWithin e n (← realize e cell)
  | n + 1, .concat current parts => do
    match ← unconsWithin e n current with
    | some (head, tail) => return some (head, .concat tail parts)
    | none =>
      match parts with
      | [] => return none
      | next :: rest => unconsWithin e n (.concat next rest)

section
variable {e : Engine} {k : Nat} {w v : World} {s t next : Seq} {parts rest : List Seq} {c : CellId}

theorem unconsWithin_lazy (h : realize e c w = .ok t v) (k : Nat) :
    (Seq.lazy c).unconsWithin e (k + 1) w = t.unconsWithin e k v :=
  run_bind_ok h _

theorem unconsWithin_concat_some {p : Value × Seq} (h : s.unconsWithin e k w = .ok (some p) v) :
    (Seq.concat s parts).unconsWithin e (k + 1) w = .ok (some (p.1, .concat p.2 parts)) v :=
  run_bind_ok h _

theorem unconsWithin_concat_error {stop : Stop} (h : s.unconsWithin e k w = .error stop v) :
    (Seq.concat s parts).unconsWithin e (k + 1) w = .error stop v :=
  run_bind_error h _

theorem unconsWithin_concat_last (h : s.unconsWithin e k w = .ok none v) :
    (Seq.concat s []).unconsWithin e (k + 1) w = .ok none v :=
  run_bind_ok h _

theorem unconsWithin_concat_next (h : s.unconsWithin e k w = .ok none v) :
    (Seq.concat s (next :: rest)).unconsWithin e (k + 1) w =
      (Seq.concat next rest).unconsWithin e k v :=
  run_bind_ok h _

end

/-! ### What is left of a view -/

/-- Behind the last item a view is the empty sequence. -/
theorem indexRest_cases {α : Type} (view : Nat → Seq) (items : List α) (i : Nat) :
    items.drop (i + 1) = [] ∧ indexRest view items.length i = .empty ∨
      indexRest view items.length i = view (i + 1) := by
  unfold indexRest
  split
  · exact .inl ⟨List.drop_eq_nil_of_le ‹_›, rfl⟩
  · exact .inr rfl

theorem textRest_cases {text : String} {front back : List Char} {c : Char}
    (h : text.toList = front ++ c :: back) :
    back = [] ∧ textRest text (Text.byteLength front) = .empty ∨
      textRest text (Text.byteLength front) = .textView text (Text.byteLength (front ++ [c])) := by
  have hfront : Text.byteLength (front ++ [c]) = Text.byteLength front + c.utf8Size := by simp
  rw [textRest, h, Text.charsFrom_byteLength, hfront]
  dsimp only
  split
  · exact .inr rfl
  · cases back with
    | nil => exact .inl ⟨rfl, rfl⟩
    | cons d back =>
      have hpos := Char.utf8Size_pos d
      simp only [Text.byteLength_append, Text.byteLength_cons] at *
      omega

/-! ### Sequences that begin without a cell -/

section
variable {e : Engine}

theorem uncons_direct {s : Seq} {o : Option (Value × Seq)} (he : 0 < e.bound)
    (hfirst : ∀ n, s.firstWithin e (n + 1) = pure (o.map (·.1)))
    (hrest : ∀ p, o = some p → ∀ n, s.restWithin e (n + 1) = pure p.2) : s.uncons e = pure o := by
  obtain ⟨n, hn⟩ := Nat.exists_eq_add_of_le' he
  rw [uncons, first?, hn, hfirst, pure_bind]
  cases o with
  | none => rfl
  | some p =>
    dsimp only [Option.map_some]
    rw [rest, hn, hrest p rfl, pure_bind]

theorem uncons_empty (he : 0 < e.bound) : Seq.empty.uncons e = pure none :=
  uncons_direct he (fun _ => rfl) nofun

theorem uncons_cons (he : 0 < e.bound) (head : Value) (tail : Seq) :
    (Seq.cons head tail).uncons e = pure (some (head, tail)) := by
  refine uncons_direct he (fun _ => rfl) fun p hp n => ?_
  cases hp
  rfl

theorem bound_pos_of_uncons {s : Seq} {o : Option (Value × Seq)} {w v : World}
    (h : s.uncons e w = .ok o v) : 0 < e.bound := by
  refine Nat.pos_of_ne_zero fun hzero => ?_
  rw [uncons, first?, hzero] at h
  cases h

theorem uncons_vectorView (he : 0 < e.bound) (items : List Value) (i : Nat) :
    (Seq.vectorView items i).uncons e =
      pure (items[i]?.map (·, indexRest (.vectorView items) items.length i)) := by
  refine uncons_direct he (fun n => ?_) fun p hp n => ?_
  · change pure items[i]? = _
    cases items[i]? <;> rfl
  · obtain ⟨v, -, rfl⟩ := Option.map_eq_some_iff.1 hp
    rfl

end

/-! ### The tests for emptiness -/

/-- What a look at a sequence says about emptiness. -/
def seesNone (m : Eval (Option (Value × Seq))) : Eval Bool := do return (← m).isNone

/-- A look at the parts of a concatenation behind the current one. -/
def unconsPartsWithin (e : Engine) (n : Nat) : List Seq → Eval (Option (Value × Seq))
  | [] => return none
  | next :: rest => unconsWithin e n (.concat next rest)

theorem isNone_map_getElem? {α β : Type} (items : List α) (f : α → β) (i : Nat) :
    (items[i]?.map f).isNone = decide (items.length ≤ i) := by
  rw [Bool.eq_iff_iff, decide_eq_true_iff, Option.isNone_map, Option.isNone_iff_eq_none,
    List.getElem?_eq_none_iff]

theorem isNone_map_head? {α : Type} (text : String) (offset : Nat) (f : Char → α) :
    ((Text.charsFrom text.toList offset).head?.map f).isNone =
      decide (Text.byteLength text.toList ≤ offset) := by
  rw [Bool.eq_iff_iff, decide_eq_true_iff, Option.isNone_map, Option.isNone_iff_eq_none,
    List.head?_eq_none_iff, Text.charsFrom_eq_nil_iff]

/-- Settling goes through the parts as a look does. -/
theorem settleWithin_isNone_of {e : Engine} {n : Nat}
    (hempty : ∀ s, isEmptyWithin e n s = seesNone (unconsWithin e n s))
    (hnext : ∀ parts, (do return (← nextWithin e n parts).isNone) =
      seesNone (unconsPartsWithin e n parts)) (current : Seq) (parts : List Seq) :
    (do return (← settleWithin e n current parts).isNone) =
      seesNone (unconsWithin e (n + 1) (.concat current parts)) := by
  simp only [settleWithin, settle, hempty, seesNone, unconsWithin, bind_assoc, pure_bind]
  refine bind_congr fun o => ?_
  cases o with
  | some p => rfl
  | none =>
    refine (hnext parts).trans ?_
    cases parts <;> rfl

theorem isEmptyWithin_eq_and_nextWithin (e : Engine) (n : Nat) :
    (∀ s, isEmptyWithin e n s = seesNone (unconsWithin e n s)) ∧
      ∀ parts, (do return (← nextWithin e n parts).isNone) =
        seesNone (unconsPartsWithin e n parts) := by
  induction n with
  | zero =>
    refine ⟨fun s => rfl, fun parts => ?_⟩
    cases parts <;> rfl
  | succ n ih =>
    have hconcat := settleWithin_isNone_of ih.1 ih.2
    constructor
    · intro s
      cases s with
      | empty => rfl
      | cons => rfl
      | vectorView items i => exact congrArg pure (isNone_map_getElem? items _ i).symm
      | textView text offset => exact congrArg pure (isNone_map_head? text offset _).symm
      | entryView entries i => exact congrArg pure (isNone_map_getElem? entries _ i).symm
      | lazy c => simp only [isEmptyWithin, unconsWithin, seesNone, bind_assoc, ih.1]
      | concat current parts => exact hconcat current parts
    · intro parts
      cases parts with
      | nil => rfl
      | cons next rest => exact hconcat next rest

/-- A sequence is empty if a look finds no head. -/
theorem isEmptyWithin_eq (e : Engine) (n : Nat) (s : Seq) :
    s.isEmptyWithin e n = seesNone (s.unconsWithin e n) :=
  (isEmptyWithin_eq_and_nextWithin e n).1 s

/-- A concatenation settles on no part if a look finds no head. -/
theorem settleWithin_isNone (e : Engine) (n : Nat) (current : Seq) (parts : List Seq) :
    (do return (← settleWithin e n current parts).isNone) =
      seesNone (unconsWithin e (n + 1) (.concat current parts)) :=
  settleWithin_isNone_of (isEmptyWithin_eq e n) (isEmptyWithin_eq_and_nextWithin e n).2 current
    parts

end LazyLisp.Seq
