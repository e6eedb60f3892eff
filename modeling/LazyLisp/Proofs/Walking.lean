import LazyLisp.Proofs.Comparing
import LazyLisp.Proofs.LazyCells
import Mathlib.Data.List.Forall2

/-!
Walking a sequence in a state that changes as its lazy cells run. A step that was taken once is
taken again in every later state, with the same outcome and without running anything. So what a
sequence holds, once walked to its end, it holds for good, and a value all of whose sequences have
been walked stands for data without lazy parts.
-/

namespace LazyLisp
set_option autoImplicit false

namespace Seq

/-- A look at the head of a sequence, which may run cells and comes to an end without failure. -/
inductive Takes : World → Seq → Option (Value × Seq) → World → Prop
  | empty (w : World) : Takes w .empty none w
  | cons (w : World) (head : Value) (tail : Seq) : Takes w (.cons head tail) (some (head, tail)) w
  | vectorView (w : World) (items : List Value) (i : Nat) : Takes w (.vectorView items i)
      (items[i]?.map (·, indexRest (.vectorView items) items.length i)) w
  | textView (w : World) (text : String) (offset : Nat) : Takes w (.textView text offset)
      ((Text.charsFrom text.toList offset).head?.map (.char ·, textRest text offset)) w
  | entryView (w : World) (entries : List (Value × Value)) (i : Nat) :
      Takes w (.entryView entries i) (entries[i]?.map fun f =>
        (.vector [f.1, f.2], indexRest (.entryView entries) entries.length i)) w
  | lazy {w v u : World} {c : CellId} {cell : Cell} {n : Nat} {s : Seq}
      {o : Option (Value × Seq)} (hc : w.cells[c]? = some cell)
      (hrealize : realize (.ofBudget n) c w = .ok s v) (h : Takes v s o u) : Takes w (.lazy c) o u
  | part {w v : World} {current : Seq} {head : Value} {tail : Seq} (parts : List Seq)
      (h : Takes w current (some (head, tail)) v) :
      Takes w (.concat current parts) (some (head, .concat tail parts)) v
  | last {w v : World} {current : Seq} (h : Takes w current none v) :
      Takes w (.concat current []) none v
  | next {w v u : World} {current next : Seq} {rest : List Seq} {o : Option (Value × Seq)}
      (h : Takes w current none v) (hnext : Takes v (.concat next rest) o u) :
      Takes w (.concat current (next :: rest)) o u

namespace Takes
variable {w v u : World} {s : Seq} {o o' : Option (Value × Seq)}

theorem later (h : Takes w s o v) : Later w v := by
  induction h with
  | lazy hc hrealize h ih => exact (realize_later (Engine.ofBudget_keepsCells _) hrealize).trans ih
  | part parts h ih => exact ih
  | last h ih => exact ih
  | next h hnext ih ihnext => exact ih.trans ihnext
  | _ => exact .refl _

/-- A step that was taken is taken again as long as cells keep their outcomes, and nothing runs any
more. -/
theorem still (h : Takes w s o v)
    (hvu : ∀ (c : CellId) (s : Seq), v.cells[c]? = some (.realized s) →
      u.cells[c]? = some (.realized s)) : Takes u s o u := by
  induction h generalizing u with
  | empty => exact .empty u
  | cons w head tail => exact .cons u head tail
  | vectorView w items i => exact .vectorView u items i
  | textView w text offset => exact .textView u text offset
  | entryView w entries i => exact .entryView u entries i
  | lazy hc hrealize h ih =>
    have hkept := realize_keeps (Engine.ofBudget_keepsCells _) hrealize
    have hkept := hvu _ _ (h.later.realized hkept)
    exact .lazy (n := 0) hkept (realize_realized hkept) (ih hvu)
  | part parts h ih => exact .part parts (ih hvu)
  | last h ih => exact .last (ih hvu)
  | next h hnext ih ihnext =>
    exact .next (ih fun c s hc => hvu c s (hnext.later.realized hc)) (ihnext hvu)

theorem again (h : Takes w s o v) (hvu : Later v u) : Takes u s o u :=
  h.still fun _ _ => hvu.realized

theorem realize_mono {n m : Nat} (hn : n ≤ m) {c : CellId} {t : Seq}
    (h : realize (.ofBudget n) c w = .ok t v) : realize (.ofBudget m) c w = .ok t v :=
  Unrelated.run_ok ((Engine.ofBudget_tied hn).realize c) h

/-- Every large enough budget takes the step. -/
theorem unconsWithin (h : Takes w s o v) :
    ∃ n, ∀ m k, n ≤ m → n ≤ k → s.unconsWithin (.ofBudget m) k w = .ok o v := by
  have hstep : ∀ {w v : World} {s : Seq} {o : Option (Value × Seq)},
      (∀ m k, s.unconsWithin (.ofBudget m) (k + 1) w = .ok o v) →
      ∃ n, ∀ m k, n ≤ m → n ≤ k → s.unconsWithin (.ofBudget m) k w = .ok o v := by
    intro w v s o h
    refine ⟨1, fun m k _ hk => ?_⟩
    obtain ⟨k, rfl⟩ := Nat.exists_eq_add_of_le' hk
    exact h m k
  induction h with
  | empty | cons | vectorView | textView | entryView => exact hstep fun _ _ => rfl
  | @lazy w v u c cell n s o hc hrealize h ih =>
    obtain ⟨l, ih⟩ := ih
    refine ⟨max n l + 1, fun m k hm hk => ?_⟩
    obtain ⟨k, rfl⟩ := Nat.exists_eq_add_of_le' (Nat.le_trans (Nat.succ_pos _) hk)
    exact (run_bind_ok (realize_mono (by omega) hrealize) _).trans (ih m k (by omega) (by omega))
  | part parts h ih =>
    obtain ⟨l, ih⟩ := ih
    refine ⟨l + 1, fun m k hm hk => ?_⟩
    obtain ⟨k, rfl⟩ := Nat.exists_eq_add_of_le' (Nat.le_trans (Nat.succ_pos _) hk)
    exact run_bind_ok (ih m k (by omega) (by omega)) _
  | last h ih =>
    obtain ⟨l, ih⟩ := ih
    refine ⟨l + 1, fun m k hm hk => ?_⟩
    obtain ⟨k, rfl⟩ := Nat.exists_eq_add_of_le' (Nat.le_trans (Nat.succ_pos _) hk)
    exact run_bind_ok (ih m k (by omega) (by omega)) _
  | next h hnext ih ihnext =>
    obtain ⟨l, ih⟩ := ih
    obtain ⟨l', ihnext⟩ := ihnext
    refine ⟨max l l' + 1, fun m k hm hk => ?_⟩
    obtain ⟨k, rfl⟩ := Nat.exists_eq_add_of_le' (Nat.le_trans (Nat.succ_pos _) hk)
    exact (run_bind_ok (ih m k (by omega) (by omega)) _).trans (ihnext m k (by omega) (by omega))

theorem uncons (h : Takes w s o v) : ∃ n, ∀ m, n ≤ m → s.uncons (.ofBudget m) w = .ok o v := by
  obtain ⟨n, hn⟩ := h.unconsWithin
  exact ⟨n, fun m hm => (uncons_eq (Engine.ofBudget_keepsCells m) s w).trans (hn m m hm hm)⟩

theorem first? (h : Takes w s o v) :
    ∃ n, ∀ m, n ≤ m → s.first? (.ofBudget m) w = .ok (o.map (·.1)) v := by
  obtain ⟨n, hn⟩ := h.unconsWithin
  refine ⟨n, fun m hm => ?_⟩
  rw [first?_eq (Engine.ofBudget_keepsCells m)]
  exact run_bind_ok (hn m m hm hm) _

theorem rest (h : Takes w s o v) :
    ∃ n, ∀ m, n ≤ m → s.rest (.ofBudget m) w = .ok ((o.map (·.2)).getD .empty) v := by
  obtain ⟨n, hn⟩ := h.unconsWithin
  refine ⟨n, fun m hm => ?_⟩
  rw [rest_eq (Engine.ofBudget_keepsCells m)]
  exact run_bind_ok (hn m m hm hm) _

theorem isEmpty (h : Takes w s o v) :
    ∃ n, ∀ m, n ≤ m → s.isEmpty (.ofBudget m) w = .ok o.isNone v := by
  obtain ⟨n, hn⟩ := h.unconsWithin
  exact ⟨n, fun m hm => isEmptyWithin_of_ok (hn m m hm hm)⟩

theorem unique (h : Takes w s o v) (h' : Takes w s o' u) : o = o' ∧ v = u := by
  obtain ⟨n, hn⟩ := h.uncons
  obtain ⟨n', hn'⟩ := h'.uncons
  have hsame := (hn (max n n') (Nat.le_max_left n n')).symm.trans (hn' _ (Nat.le_max_right n n'))
  cases hsame
  exact ⟨rfl, rfl⟩

/-- Looks at one sequence in two states see the same, if the later one is behind the earlier. -/
theorem eq_of_later (h : Takes w s o v) (hvu : Later v u) (h' : Takes u s o' u) : o = o' :=
  ((h.again hvu).unique h').1

end Takes

/-- The elements of a sequence that has been walked to its end. -/
inductive Holds (w : World) : Seq → List Value → Prop
  | nil {s : Seq} (h : Takes w s none w) : Holds w s []
  | cons {s t : Seq} {x : Value} {xs : List Value} (h : Takes w s (some (x, t)) w)
      (ht : Holds w t xs) : Holds w s (x :: xs)

namespace Holds
variable {w v : World} {s : Seq} {xs ys : List Value}

theorem again (h : Holds w s xs) (hwv : Later w v) : Holds v s xs := by
  induction h with
  | nil h => exact .nil (h.again hwv)
  | cons h ht ih => exact .cons (h.again hwv) ih

theorem unique (h : Holds w s xs) (h' : Holds w s ys) : xs = ys := by
  induction h generalizing ys with
  | nil h =>
    cases h' with
    | nil => rfl
    | cons h' => cases (h.unique h').1
  | cons h ht ih =>
    cases h' with
    | nil h' => cases (h.unique h').1
    | cons h' ht' =>
      cases (h.unique h').1
      exact congrArg (_ :: ·) (ih ht')

/-- A view of a list that is walked by position. -/
theorem of_index {α : Type} {view : Nat → Seq} {items : List α} {f : α → Value}
    (hstep : ∀ i, Takes w (view i)
      (items[i]?.map fun a => (f a, indexRest view items.length i)) w) (i : Nat) :
    Holds w (view i) ((items.drop i).map f) := by
  generalize hrest : items.drop i = rest
  have hi := hstep i
  induction rest generalizing i with
  | nil =>
    rw [List.getElem?_eq_none (List.drop_eq_nil_iff.1 hrest)] at hi
    exact .nil hi
  | cons x rest ih =>
    have hx : items[i]? = some x := by
      have hhead := congrArg List.head? hrest
      rwa [List.head?_drop] at hhead
    have hmore : items.drop (i + 1) = rest := by
      rw [← List.drop_drop, hrest]
      rfl
    rw [hx] at hi
    refine .cons hi ?_
    rcases indexRest_cases view items i with ⟨hdrop, hempty⟩ | hview
    · rw [hempty, ← hmore, hdrop]
      exact .nil (.empty w)
    · rw [hview]
      exact ih (i + 1) hmore (hstep (i + 1))

theorem vectorView (w : World) (items : List Value) (i : Nat) :
    Holds w (.vectorView items i) (items.drop i) := by
  have hview := of_index (f := id) (Takes.vectorView w items) i
  rwa [List.map_id] at hview

theorem entryView (w : World) (entries : List (Value × Value)) (i : Nat) :
    Holds w (.entryView entries i) ((entries.drop i).map fun f => .vector [f.1, f.2]) :=
  of_index (Takes.entryView w entries) i

theorem textView (w : World) (text : String) :
    Holds w (.textView text 0) (text.toList.map .char) := by
  have hrest : ∀ back front : List Char, text.toList = front ++ back →
      Holds w (.textView text (Text.byteLength front)) (back.map .char) := by
    intro back
    induction back with
    | nil =>
      intro front hsplit
      have hstep := Takes.textView w text (Text.byteLength front)
      rw [hsplit, Text.charsFrom_byteLength] at hstep
      exact .nil hstep
    | cons c back ih =>
      intro front hsplit
      have hstep := Takes.textView w text (Text.byteLength front)
      rw [hsplit, Text.charsFrom_byteLength] at hstep
      refine .cons hstep ?_
      rcases textRest_cases hsplit with ⟨rfl, hempty⟩ | hview
      · rw [hempty]
        exact .nil (.empty w)
      · rw [hview]
        exact ih (front ++ [c]) (hsplit.trans (List.append_cons front c back))
  exact hrest text.toList [] rfl

theorem ofList (w : World) (items : List Value) : Holds w (.ofList items) items := by
  induction items with
  | nil => exact .nil (.empty w)
  | cons x xs ih => exact .cons (.cons w x (.ofList xs)) ih

/-- A concatenation holds what its parts hold. -/
theorem concat {current : Seq} {parts : List Seq} {yss : List (List Value)}
    (h : Holds w current xs) (hparts : List.Forall₂ (Holds w) parts yss) :
    Holds w (.concat current parts) (xs ++ yss.flatten) := by
  induction hparts generalizing current xs with
  | nil =>
    rw [List.flatten_nil, List.append_nil]
    induction h with
    | nil h => exact .nil (.last h)
    | cons h ht ih => exact .cons (.part [] h) ih
  | @cons next ys rest yss hnext hrest ihrest =>
    rw [List.flatten_cons]
    induction h with
    | nil h =>
      -- the current part is used up, and the first step is that of the next
      have hmore := ihrest hnext
      generalize ys ++ yss.flatten = zs at hmore
      cases hmore with
      | nil hstep => exact .nil (.next h hstep)
      | cons hstep ht => exact .cons (.next h hstep) ht
    | cons h ht ih => exact .cons (.part _ h) ih

end Holds
end Seq

namespace Value

/-- The data that a value stands for once all its sequences have been walked. -/
inductive Denotes (w : World) : Value → Value → Prop
  | atom {v : Value} (h : v.isAtom = true) : Denotes w v v
  | vector {ps : List (Value × Value)} (h : ∀ p ∈ ps, Denotes w p.1 p.2) :
      Denotes w (.vector (ps.map (·.1))) (.vector (ps.map (·.2)))
  | seq {s : Seq} {ps : List (Value × Value)} (hs : Seq.Holds w s (ps.map (·.1)))
      (h : ∀ p ∈ ps, Denotes w p.1 p.2) : Denotes w (.seq s) (.list (ps.map (·.2)))
  | map {ps : List ((Value × Value) × (Value × Value))} (hkeys : ∀ p ∈ ps, Denotes w p.1.1 p.2.1)
      (hvalues : ∀ p ∈ ps, Denotes w p.1.2 p.2.2)
      (hdistinct : ps.Pairwise fun p q => p.2.1.alike q.2.1 = false) :
      Denotes w (.map (ps.map (·.1))) (.map (ps.map (·.2)))
  | marked (m : Mark) {form data : Value} (h : Denotes w form data) :
      Denotes w (.marked m form) (.marked m data)

namespace Denotes
variable {w v : World} {a d d' : Value}

theorem again (h : Denotes w a d) (hwv : Later w v) : Denotes v a d := by
  induction h with
  | atom h => exact .atom h
  | vector h ih => exact .vector ih
  | seq hs h ih => exact .seq (hs.again hwv) ih
  | map hkeys hvalues hdistinct ihkeys ihvalues => exact .map ihkeys ihvalues hdistinct
  | marked m h ih => exact .marked m ih

theorem tidy (h : Denotes w a d) : d.Tidy := by
  induction h with
  | atom h => exact .atom h
  | vector h ih => exact .vector (List.forall_mem_map.2 ih)
  | seq hs h ih => exact .list (List.forall_mem_map.2 ih)
  | map hkeys hvalues hdistinct ihkeys ihvalues =>
    refine .map (List.forall_mem_map.2 ihkeys) (List.forall_mem_map.2 ihvalues) ?_
    exact List.pairwise_map.2 hdistinct
  | marked m h ih => exact .marked m ih

end Denotes

/-- Lists that are related element by element are the two sides of a list of related pairs. -/
theorem exists_pairs_iff {α β : Type} {R : α → β → Prop} {xs : List α} {ys : List β} :
    (∃ ps : List (α × β), ps.map (·.1) = xs ∧ ps.map (·.2) = ys ∧ ∀ p ∈ ps, R p.1 p.2) ↔
      List.Forall₂ R xs ys := by
  constructor
  · rintro ⟨ps, rfl, rfl, h⟩
    rw [List.forall₂_map_left_iff, List.forall₂_map_right_iff, List.forall₂_same]
    exact h
  · intro h
    induction h with
    | nil => exact ⟨[], rfl, rfl, nofun⟩
    | @cons x y xs ys hxy _ ih =>
      obtain ⟨ps, rfl, rfl, hps⟩ := ih
      exact ⟨(x, y) :: ps, rfl, rfl, List.forall_mem_cons.2 ⟨hxy, hps⟩⟩

section
variable {w : World} {d : Value}

theorem denotes_vector {xs : List Value} :
    Denotes w (.vector xs) d ↔ ∃ ds, d = .vector ds ∧ List.Forall₂ (Denotes w) xs ds := by
  constructor
  · intro h
    cases h with
    | atom hv => cases hv
    | @vector ps h => exact ⟨_, rfl, exists_pairs_iff.1 ⟨ps, rfl, rfl, h⟩⟩
  · rintro ⟨ds, rfl, h⟩
    obtain ⟨ps, rfl, rfl, hps⟩ := exists_pairs_iff.2 h
    exact .vector hps

theorem denotes_seq {s : Seq} :
    Denotes w (.seq s) d ↔
      ∃ xs ds, Seq.Holds w s xs ∧ d = .list ds ∧ List.Forall₂ (Denotes w) xs ds := by
  constructor
  · intro h
    cases h with
    | atom hv => cases hv
    | @seq _ ps hs h => exact ⟨_, _, hs, rfl, exists_pairs_iff.1 ⟨ps, rfl, rfl, h⟩⟩
  · rintro ⟨xs, ds, hs, rfl, h⟩
    obtain ⟨ps, rfl, rfl, hps⟩ := exists_pairs_iff.2 h
    exact .seq hs hps

/-- An entry stands for an entry. -/
def EntryDenotes (w : World) (f g : Value × Value) : Prop := Denotes w f.1 g.1 ∧ Denotes w f.2 g.2

theorem denotes_map {entries : List (Value × Value)} :
    Denotes w (.map entries) d ↔
      ∃ ds, d = .map ds ∧ List.Forall₂ (EntryDenotes w) entries ds ∧
        ds.Pairwise fun f g => f.1.alike g.1 = false := by
  constructor
  · intro h
    cases h with
    | atom hv => cases hv
    | @map ps hkeys hvalues hdistinct =>
      refine ⟨_, rfl, exists_pairs_iff.1 ⟨ps, rfl, rfl, ?_⟩, List.pairwise_map.2 hdistinct⟩
      exact fun p hp => ⟨hkeys p hp, hvalues p hp⟩
  · rintro ⟨ds, rfl, h, hdistinct⟩
    obtain ⟨ps, rfl, rfl, hps⟩ := exists_pairs_iff.2 h
    exact .map (fun p hp => (hps p hp).1) (fun p hp => (hps p hp).2) (List.pairwise_map.1 hdistinct)

theorem denotes_marked {m : Mark} {form : Value} :
    Denotes w (.marked m form) d ↔ ∃ data, d = .marked m data ∧ Denotes w form data := by
  constructor
  · intro h
    cases h with
    | atom hv => cases hv
    | marked _ h => exact ⟨_, rfl, h⟩
  · rintro ⟨data, rfl, h⟩
    exact .marked m h

theorem denotes_atom {v : Value} (hv : v.isAtom = true) : Denotes w v d ↔ d = v := by
  constructor
  · intro h
    cases h with
    | atom => rfl
    | _ => cases hv
  · rintro rfl
    exact .atom hv

end

theorem map_snd_eq {α β : Type} {R : α → β → Prop} {ps : List (α × β)} {ys : List β}
    (hps : ∀ p ∈ ps, ∀ y, R p.1 y → p.2 = y) (h : List.Forall₂ R (ps.map (·.1)) ys) :
    ps.map (·.2) = ys := by
  induction ps generalizing ys with
  | nil =>
    cases h
    rfl
  | cons p ps ih =>
    obtain ⟨hp, hps⟩ := List.forall_mem_cons.1 hps
    cases h with
    | cons hhead htail => rw [List.map_cons, hp _ hhead, ih hps htail]

theorem Denotes.unique {w : World} {a d d' : Value} (h : Denotes w a d) (h' : Denotes w a d') :
    d = d' := by
  induction h generalizing d' with
  | atom hv => exact ((denotes_atom hv).1 h').symm
  | vector h ih =>
    obtain ⟨ds, rfl, hds⟩ := denotes_vector.1 h'
    rw [map_snd_eq (fun p hp d hd => ih p hp hd) hds]
  | seq hs h ih =>
    obtain ⟨xs, ds, hs', rfl, hds⟩ := denotes_seq.1 h'
    obtain rfl := hs.unique hs'
    rw [map_snd_eq (fun p hp d hd => ih p hp hd) hds]
  | map hkeys hvalues hdistinct ihkeys ihvalues =>
    obtain ⟨ds, rfl, hds, -⟩ := denotes_map.1 h'
    rw [map_snd_eq (fun p hp g hg => Prod.ext (ihkeys p hp hg.1) (ihvalues p hp hg.2)) hds]
  | marked m h ih =>
    obtain ⟨data, rfl, hdata⟩ := denotes_marked.1 h'
    rw [ih hdata]

/-! What a walked sequence stands for is made of what its head and its tail stand for. -/

theorem Denotes.of_takes_none {w v u : World} {s : Seq} {d : Value} (htakes : Seq.Takes w s none v)
    (hvu : Later v u) (h : Denotes u (.seq s) d) : d = .list [] := by
  obtain ⟨xs, ds, hs, rfl, hds⟩ := denotes_seq.1 h
  cases hs with
  | nil =>
    cases hds
    rfl
  | cons hstep => cases htakes.eq_of_later hvu hstep

theorem Denotes.of_takes_some {w v u : World} {s t : Seq} {x d : Value}
    (htakes : Seq.Takes w s (some (x, t)) v) (hvu : Later v u) (h : Denotes u (.seq s) d) :
    ∃ dx ds, d = .list (dx :: ds) ∧ Denotes u x dx ∧ Denotes u (.seq t) (.list ds) := by
  obtain ⟨xs, ds, hs, rfl, hds⟩ := denotes_seq.1 h
  cases hs with
  | nil hstep => cases htakes.eq_of_later hvu hstep
  | cons hstep ht =>
    cases htakes.eq_of_later hvu hstep
    cases hds with
    | cons hhead htail => exact ⟨_, _, rfl, hhead, denotes_seq.2 ⟨_, _, ht, rfl, htail⟩⟩

end Value
end LazyLisp
