import LazyLisp.Proofs.Following
import Mathlib.Data.List.Forall2

/-!
The list that a sequence stands for. However lists, views of collections, concatenations and lazy
cells that have run are put together, there is one finite list that all ways of looking at the
sequence agree with. No thunk runs, so the list does not depend on the engine and the state stays as
it is. A view of a text always stands between two characters.
-/

namespace LazyLisp.Seq
set_option autoImplicit false

open Relation

/-- Sequences made of elements and whole collections, cells that have run, and what is left of such
a sequence behind its head. -/
inductive Built (w : World) : Seq → Prop
  | empty : Built w .empty
  | cons (head : Value) {tail : Seq} (h : Built w tail) : Built w (.cons head tail)
  | vectorView (items : List Value) : Built w (.vectorView items 0)
  | textView (text : String) : Built w (.textView text 0)
  | entryView (entries : List (Value × Value)) : Built w (.entryView entries 0)
  | lazy {c : CellId} {s : Seq} (hc : w.cells[c]? = some (.realized s)) (h : Built w s) :
      Built w (.lazy c)
  | concat {parts : List Seq} (h : ∀ p ∈ parts, Built w p) : Built w (.concat .empty parts)
  | rest {e : Engine} {s t : Seq} {v : World} (h : Built w s) (ht : s.rest e w = .ok t v) :
      Built w t

/-- The sequence stands for the list. -/
inductive Lists (w : World) : Seq → List Value → Prop
  | empty : Lists w .empty []
  | cons (head : Value) {tail : Seq} {xs : List Value} (h : Lists w tail xs) :
      Lists w (.cons head tail) (head :: xs)
  | vectorView (items : List Value) (i : Nat) : Lists w (.vectorView items i) (items.drop i)
  | textView {text : String} {front back : List Char} (h : text.toList = front ++ back) :
      Lists w (.textView text (Text.byteLength front)) (back.map .char)
  | entryView (entries : List (Value × Value)) (i : Nat) :
      Lists w (.entryView entries i) ((entries.drop i).map fun f => .vector [f.1, f.2])
  | lazy {c : CellId} {s : Seq} {xs : List Value} (hc : w.cells[c]? = some (.realized s))
      (h : Lists w s xs) : Lists w (.lazy c) xs
  | last {current : Seq} {xs : List Value} (h : Lists w current xs) :
      Lists w (.concat current []) xs
  | next {current next : Seq} {rest : List Seq} {xs ys : List Value} (h : Lists w current xs)
      (hnext : Lists w (.concat next rest) ys) : Lists w (.concat current (next :: rest)) (xs ++ ys)

/-- What is seen at the head of a sequence that stands for a list. -/
inductive Heads (w : World) : Option (Value × Seq) → List Value → Prop
  | none : Heads w none []
  | some (x : Value) {t : Seq} {xs : List Value} (h : Lists w t xs) :
      Heads w (some (x, t)) (x :: xs)

namespace Lists
variable {w : World} {s : Seq} {xs ys : List Value}

/-- A view that is walked by position. -/
theorem known_index {α : Type} {view : Nat → Seq} {items : List α} {f : α → Value} {i : Nat}
    (hlook : Known w 1 (view i)
      (items[i]?.map fun a => (f a, indexRest view items.length i)))
    (hview : Lists w (view (i + 1)) ((items.drop (i + 1)).map f)) :
    ∃ o k, Known w k (view i) o ∧ Heads w o ((items.drop i).map f) := by
  refine ⟨_, 1, hlook, ?_⟩
  cases hi : items[i]? with
  | none =>
    rw [List.drop_eq_nil_of_le (List.getElem?_eq_none_iff.1 hi)]
    exact .none
  | some a =>
    obtain ⟨hlt, rfl⟩ := List.getElem?_eq_some_iff.1 hi
    rw [List.drop_eq_getElem_cons hlt]
    refine .some _ ?_
    rcases indexRest_cases view items i with ⟨hdrop, hrest⟩ | hrest
    · rw [hrest, hdrop]
      exact .empty
    · rw [hrest]
      exact hview

/-- One step: the head of the sequence is that of the list, and what is left stands for the rest.
No thunk runs for it. -/
theorem known (h : Lists w s xs) : ∃ o k, Known w k s o ∧ Heads w o xs := by
  induction h with
  | empty => exact ⟨none, 1, rfl, .none⟩
  | cons head h => exact ⟨_, 1, rfl, .some head h⟩
  | vectorView items i =>
    have hview := @known_index w Value (.vectorView items) items id i rfl
    rw [List.map_id, List.map_id] at hview
    exact hview (.vectorView items (i + 1))
  | @textView text front back h =>
    refine ⟨_, 1, rfl, ?_⟩
    rw [h, Text.charsFrom_byteLength]
    cases back with
    | nil => exact .none
    | cons c back =>
      refine .some _ ?_
      rcases textRest_cases h with ⟨rfl, hrest⟩ | hrest
      · rw [hrest]
        exact .empty
      · rw [hrest]
        exact .textView (by simp [h])
  | entryView entries i => exact known_index rfl (.entryView entries (i + 1))
  | lazy hc _ ih =>
    obtain ⟨o, k, hknown, hheads⟩ := ih
    exact ⟨o, k + 1, hknown.lazy hc, hheads⟩
  | last _ ih =>
    obtain ⟨o, k, hknown, hheads⟩ := ih
    cases hheads with
    | none => exact ⟨none, k + 1, hknown.last, .none⟩
    | some x h => exact ⟨_, k + 1, hknown.part [], .some x h.last⟩
  | next _ hnext ih ihnext =>
    obtain ⟨o, k, hknown, hheads⟩ := ih
    cases hheads with
    | none =>
      obtain ⟨o', l, hknown', hheads'⟩ := ihnext
      have hused := hknown.deeper (Nat.le_max_left k l)
      exact ⟨o', _, hused.next (hknown'.deeper (Nat.le_max_right k l)), hheads'⟩
    | some x h => exact ⟨_, k + 1, hknown.part _, .some x (h.next hnext)⟩

/-- Collecting the elements gives the list. -/
theorem foldWithin_push (h : Lists w s xs) :
    ∃ n, ∀ (e : Engine) (k : Nat) (acc : Array Value), n ≤ e.bound → n ≤ k →
      s.foldWithin e (fun (acc : Array Value) v => return acc.push v) k acc w =
        .ok (acc ++ xs.toArray) w := by
  induction xs generalizing s with
  | nil =>
    obtain ⟨o, n, hknown, hheads⟩ := h.known
    cases hheads
    refine ⟨n + 1, fun e k acc he hk => ?_⟩
    obtain ⟨k, rfl⟩ := Nat.exists_eq_add_of_le' (Nat.le_trans (Nat.succ_pos n) hk)
    rw [Array.append_empty]
    exact run_bind_ok (hknown.uncons e (by omega)) _
  | cons x xs ih =>
    obtain ⟨o, n, hknown, hheads⟩ := h.known
    cases hheads with
    | some _ ht =>
      obtain ⟨m, hm⟩ := ih ht
      refine ⟨max n m + 1, fun e k acc he hk => ?_⟩
      obtain ⟨k, rfl⟩ := Nat.exists_eq_add_of_le' (Nat.le_trans (Nat.succ_pos _) hk)
      have hpush : acc.push x ++ xs.toArray = acc ++ (x :: xs).toArray := by
        apply Array.toList_inj.1
        simp
      rw [← hpush, ← hm e k (acc.push x) (by omega) (by omega)]
      exact run_bind_ok (hknown.uncons e (by omega)) _

theorem toList (h : Lists w s xs) : ∃ n, ∀ e : Engine, n ≤ e.bound → s.toList e w = .ok xs w := by
  obtain ⟨n, hn⟩ := h.foldWithin_push
  refine ⟨n, fun e he => (run_bind_ok (hn e e.bound #[] he he) _).trans ?_⟩
  rw [Array.empty_append]
  rfl

theorem unique (h : Lists w s xs) (h' : Lists w s ys) : ys = xs := by
  obtain ⟨n, hn⟩ := h.toList
  obtain ⟨m, hm⟩ := h'.toList
  let e : Engine := ⟨fun _ => throw .exhausted, max n m⟩
  have hsame := (hn e (Nat.le_max_left n m)).symm.trans (hm e (Nat.le_max_right n m))
  cases hsame
  rfl

theorem textView_zero (w : World) (text : String) :
    Lists w (.textView text 0) (text.toList.map .char) :=
  @Lists.textView w text [] _ rfl

/-- What is left behind the head stands for the tail of the list. -/
theorem rest {e : Engine} {t : Seq} {v : World} (h : Lists w s xs) (ht : s.rest e w = .ok t v) :
    Lists w t xs.tail := by
  obtain ⟨o, k, hknown, hheads⟩ := h.known
  have hdeep : s.restWithin e (max e.bound k) w = .ok t v :=
    Unrelated.run_ok (e.tied_self.restWithin (Nat.le_max_left _ k) s) ht
  rw [hknown.restWithin e (Nat.le_max_right _ k)] at hdeep
  cases hdeep
  cases hheads with
  | none => exact .empty
  | some x hleft => exact hleft

/-- The looks at the front of a sequence. -/
theorem looks (h : Lists w s xs) :
    ∃ t n, Lists w t xs.tail ∧ ∀ e : Engine, n ≤ e.bound →
      s.isEmpty e w = .ok xs.isEmpty w ∧ s.first? e w = .ok xs.head? w ∧ s.rest e w = .ok t w ∧
        s.uncons e w = .ok (xs.head?.map (·, t)) w := by
  obtain ⟨o, n, hknown, hheads⟩ := h.known
  have hlook : ∀ e : Engine, n ≤ e.bound → s.isEmpty e w = .ok o.isNone w ∧
      s.first? e w = .ok (o.map (·.1)) w ∧ s.rest e w = .ok ((o.map (·.2)).getD .empty) w ∧
        s.uncons e w = .ok o w :=
    fun e he => ⟨hknown.isEmpty e he, hknown.first? e he, hknown.rest e he, hknown.uncons e he⟩
  cases hheads with
  | none => exact ⟨.empty, n, .empty, hlook⟩
  | some x hleft => exact ⟨_, n, hleft, hlook⟩

theorem exists_concat {current : Seq} {parts : List Seq} (h : Lists w current xs)
    (hparts : ∀ p ∈ parts, ∃ ys, Lists w p ys) : ∃ ys, Lists w (.concat current parts) ys := by
  induction parts generalizing current xs with
  | nil => exact ⟨xs, h.last⟩
  | cons p parts ih =>
    obtain ⟨⟨ys, hp⟩, hparts⟩ := List.forall_mem_cons.1 hparts
    obtain ⟨zs, hzs⟩ := ih hp hparts
    exact ⟨xs ++ zs, h.next hzs⟩

/-- A concatenation stands for the lists of its parts, one behind the other. -/
theorem concat_cases {current : Seq} {parts : List Seq} {zs : List Value}
    (h : Lists w (.concat current parts) zs) :
    ∃ xs yss, Lists w current xs ∧ List.Forall₂ (Lists w) parts yss ∧ zs = xs ++ yss.flatten := by
  induction parts generalizing current zs with
  | nil =>
    cases h with
    | last h => exact ⟨zs, [], h, .nil, (List.append_nil zs).symm⟩
  | cons p parts ih =>
    cases h with
    | @next _ _ _ xs ys h hnext =>
      obtain ⟨ps, yss, hp, hparts, rfl⟩ := ih hnext
      exact ⟨xs, ps :: yss, h, .cons hp hparts, by rw [List.flatten_cons]⟩

end Lists

theorem Built.exists_lists {w : World} {s : Seq} (h : Built w s) : ∃ xs, Lists w s xs := by
  induction h with
  | empty => exact ⟨[], .empty⟩
  | cons head _ ih =>
    obtain ⟨xs, hxs⟩ := ih
    exact ⟨head :: xs, .cons head hxs⟩
  | vectorView items => exact ⟨_, .vectorView items 0⟩
  | textView text => exact ⟨_, .textView_zero w text⟩
  | entryView entries => exact ⟨_, .entryView entries 0⟩
  | lazy hc _ ih =>
    obtain ⟨xs, hxs⟩ := ih
    exact ⟨xs, hxs.lazy hc⟩
  | concat _ ih => exact Lists.empty.exists_concat ih
  | rest _ ht ih =>
    obtain ⟨xs, hxs⟩ := ih
    exact ⟨xs.tail, hxs.rest ht⟩

/-! Views of texts. -/

/-- A sequence and one that it is made of. -/
inductive Part (w : World) : Seq → Seq → Prop
  | tail (head : Value) (tail : Seq) : Part w (.cons head tail) tail
  | kept {c : CellId} {s : Seq} (hc : w.cells[c]? = some (.realized s)) : Part w (.lazy c) s
  | current (current : Seq) (parts : List Seq) : Part w (.concat current parts) current
  | part (current : Seq) {parts : List Seq} {p : Seq} (hp : p ∈ parts) :
      Part w (.concat current parts) p

/-- Every view of a text inside of the sequence stands where a character starts or the text ends. -/
def OnBoundaries (w : World) (s : Seq) : Prop :=
  ∀ text offset, ReflTransGen (Part w) s (.textView text offset) →
    Text.IsBoundary text.toList offset

theorem OnBoundaries.of_parts {w : World} {s : Seq} (hs : ∀ text offset, s ≠ .textView text offset)
    (h : ∀ p, Part w s p → OnBoundaries w p) : OnBoundaries w s := by
  intro text offset hreach
  rcases ReflTransGen.cases_head hreach with heq | ⟨p, hp, hrest⟩
  · exact absurd heq (hs text offset)
  · exact h p hp text offset hrest

theorem Lists.onBoundaries {w : World} {s : Seq} {xs : List Value} (h : Lists w s xs) :
    OnBoundaries w s := by
  induction h with
  | empty | vectorView | entryView => exact .of_parts nofun nofun
  | cons head _ ih =>
    refine .of_parts nofun fun p hp => ?_
    cases hp
    exact ih
  | @textView text front back h =>
    intro text' offset hreach
    rcases ReflTransGen.cases_head hreach with heq | ⟨p, hp, -⟩
    · cases heq
      exact ⟨front, back, h, rfl⟩
    · cases hp
  | lazy hc _ ih =>
    refine .of_parts nofun fun p hp => ?_
    cases hp with
    | kept hc' =>
      rw [hc] at hc'
      cases hc'
      exact ih
  | last _ ih =>
    refine .of_parts nofun fun p hp => ?_
    cases hp with
    | current => exact ih
    | part _ hp => cases hp
  | @next current next rest _ _ _ _ ih ihnext =>
    refine .of_parts nofun fun p hp => ?_
    cases hp with
    | current => exact ih
    | part _ hp =>
      have hpart : Part w (.concat next rest) p := by
        rcases List.mem_cons.1 hp with rfl | hp
        · exact .current p rest
        · exact .part next hp
      exact fun text offset hreach => ihnext text offset (.head hpart hreach)

/-- Every sequence stands for one finite list. Any engine that goes deep enough sees it, and each
kind of sequence answers each question by tests of its own: whether it is empty, its head, what is
left as a sequence that stands for its tail, the step of an iteration, and all its elements in
order. Nothing fails, nothing runs, and no text is looked at inside of a character. Views stand for
what they view, and a concatenation for the lists of its parts. -/
theorem sequences_stand_for_lists {w : World} {s : Seq} (h : Built w s) :
    ∃ xs, Lists w s xs ∧ (∀ ys, Lists w s ys → ys = xs) ∧
      (∃ t n, Built w t ∧ Lists w t xs.tail ∧ ∀ e : Engine, n ≤ e.bound →
        s.isEmpty e w = .ok xs.isEmpty w ∧ s.first? e w = .ok xs.head? w ∧
        s.rest e w = .ok t w ∧ s.uncons e w = .ok (xs.head?.map (·, t)) w ∧
        s.toList e w = .ok xs w) ∧
      OnBoundaries w s ∧
      (∀ items, s = .vectorView items 0 → xs = items) ∧
      (∀ text, s = .textView text 0 → xs = text.toList.map .char) ∧
      (∀ entries, s = .entryView entries 0 → xs = entries.map fun f => .vector [f.1, f.2]) ∧
      ∀ parts, s = .concat .empty parts →
        ∃ yss, List.Forall₂ (Lists w) parts yss ∧ xs = yss.flatten := by
  obtain ⟨xs, hxs⟩ := h.exists_lists
  refine ⟨xs, hxs, fun ys hys => hxs.unique hys, ?_, hxs.onBoundaries, ?_, ?_, ?_, ?_⟩
  · obtain ⟨t, n, ht, hn⟩ := hxs.looks
    obtain ⟨m, hm⟩ := hxs.toList
    have hbuilt : Built w t := h.rest (hn ⟨fun _ => throw .exhausted, n⟩ (Nat.le_refl n)).2.2.1
    refine ⟨t, max n m, hbuilt, ht, fun e he => ?_⟩
    obtain ⟨hisEmpty, hfirst, hrest, huncons⟩ := hn e (by omega)
    exact ⟨hisEmpty, hfirst, hrest, huncons, hm e (by omega)⟩
  · rintro items rfl
    exact (hxs.unique (.vectorView items 0)).symm
  · rintro text rfl
    exact (hxs.unique (.textView_zero w text)).symm
  · rintro entries rfl
    exact (hxs.unique (.entryView entries 0)).symm
  · rintro parts rfl
    obtain ⟨ys, yss, hempty, hparts, rfl⟩ := hxs.concat_cases
    cases hempty
    exact ⟨yss, hparts, rfl⟩

/-- A cell that keeps `(nil)`. -/
def keptNil : World := { cells := #[.realized (.cons .nil .empty)] }

/-- Letters of one and two bytes, nothing, and then `nil` from a cell that has run. -/
def mixedParts : Seq := .concat .empty [.textView "hé" 0, .vectorView [] 0, .lazy 0]

theorem sequences_stand_for_lists_mixed :
    Built keptNil mixedParts ∧ ∃ t n, Lists keptNil t [.char 'é', .nil] ∧
      ∀ e : Engine, n ≤ e.bound →
        mixedParts.first? e keptNil = .ok (some (.char 'h')) keptNil ∧
        mixedParts.rest e keptNil = .ok t keptNil ∧
        mixedParts.toList e keptNil = .ok [.char 'h', .char 'é', .nil] keptNil := by
  have hkept : keptNil.cells[0]? = some (.realized (.cons .nil .empty)) := rfl
  have hbuilt : Built keptNil mixedParts := by
    apply Built.concat
    simp only [List.forall_mem_cons]
    exact ⟨.textView _, .vectorView _, .lazy hkept (.cons .nil .empty), List.forall_mem_nil _⟩
  have hlists : Lists keptNil mixedParts [.char 'h', .char 'é', .nil] :=
    .next .empty (.next (.textView_zero _ "hé") (.next (.vectorView [] 0)
      (.last (.lazy hkept (.cons .nil .empty)))))
  obtain ⟨xs, -, hunique, ⟨t, n, -, ht, hn⟩, -⟩ := sequences_stand_for_lists hbuilt
  cases hunique _ hlists
  refine ⟨hbuilt, t, n, ht, fun e he => ?_⟩
  obtain ⟨-, hfirst, hrest, -, htoList⟩ := hn e he
  exact ⟨hfirst, hrest, htoList⟩

end LazyLisp.Seq
