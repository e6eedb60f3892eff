import Mathlib.Data.List.Nodup
import Mathlib.Data.List.Perm.Subperm
import Mathlib.Data.List.Range
import LazyLisp.Names

/-!
The store of names only grows: a name keeps its position, and positions are found by their text.
A fresh name is the first of its numbered candidates that the store does not hold.
-/

namespace LazyLisp.Names
set_option autoImplicit false

variable {names : Names} {id : NameId}

section
variable {text : String}

/-! ### The two tables -/

theorem find?_isSome : (names.find? text).isSome = true ↔ text ∈ names.texts := by
  rw [Option.isSome_iff_exists, List.mem_iff_getElem?]
  exact exists_congr fun id => names.inverse text id

theorem find?_eq_none : names.find? text = none ↔ text ∉ names.texts := by
  rw [← find?_isSome, Option.not_isSome_iff_eq_none]

theorem mem_ids : text ∈ names.ids.map (·.1) ↔ text ∈ names.texts := by
  rw [← find?_isSome, find?, List.lookup_isSome_iff]
  simp

theorem text_of_find? (h : names.find? text = some id) : names.text id = text := by
  rw [Names.text, (names.inverse text id).1 h, Option.getD_some]

theorem lt_of_find? (h : names.find? text = some id) : id < names.size :=
  (List.getElem?_eq_some_iff.1 ((names.inverse text id).1 h)).1

theorem intern_of_find? (h : names.find? text = some id) : names.intern text = (id, names) := by
  grind [intern]

theorem intern_of_find?_eq_none (names : Names) (h : names.find? text = none) :
    names.intern text = (names.size, names.add text h) := by
  grind [intern, size]

end

/-- The later store holds the names of the earlier one at the same positions. -/
def Grows (before after : Names) : Prop := before.texts <+: after.texts

namespace Grows
variable {a b c : Names}

theorem refl (a : Names) : Grows a a := List.prefix_refl a.texts

theorem trans (hab : Grows a b) (hbc : Grows b c) : Grows a c := List.IsPrefix.trans hab hbc

/-- A name that is found stays where it is. -/
theorem find? {text : String} (hab : Grows a b) (h : a.find? text = some id) :
    b.find? text = some id := by
  obtain ⟨more, hmore⟩ := hab
  have hid := (a.inverse text id).1 h
  apply (b.inverse text id).2
  rw [← hmore, List.getElem?_append_left (List.getElem?_eq_some_iff.1 hid).1, hid]

theorem text (hab : Grows a b) (hid : id < a.size) : b.text id = a.text id := by
  obtain ⟨more, hmore⟩ := hab
  rw [Names.text, Names.text, ← hmore, List.getElem?_append_left hid]

theorem size_le (hab : Grows a b) : a.size ≤ b.size := hab.length_le

end Grows

theorem grows_intern (names : Names) (text : String) : Grows names (names.intern text).2 := by
  unfold intern
  split
  · exact Grows.refl names
  · exact List.prefix_append names.texts [text]

/-- An interned name is found at the position that was given out. -/
theorem find?_intern (names : Names) (text : String) :
    (names.intern text).2.find? text = some (names.intern text).1 := by
  unfold intern
  split
  · assumption
  · rename_i hnew
    exact ((names.add text hnew).inverse text names.size).2 List.getElem?_concat_length

/-! ### Fresh names -/

/-- The search goes over used candidates to the first one that is not used. -/
theorem firstUnused_spec {candidate : Nat → String} (hinj : Function.Injective candidate)
    (used : List String) (index : Nat) :
    index ≤ firstUnused candidate used index ∧
    candidate (firstUnused candidate used index) ∉ used ∧
    ∀ m, index ≤ m → m < firstUnused candidate used index → candidate m ∈ used := by
  fun_induction firstUnused candidate used index with
  | case1 used index h ih =>
    obtain ⟨hle, hnew, hgone⟩ := ih
    refine ⟨Nat.le_of_succ_le hle, fun hmem => hnew ?_, fun m hm hlt => ?_⟩
    · -- a candidate that was taken off the list is one of an earlier number
      have hne : candidate (firstUnused candidate (used.erase (candidate index)) (index + 1)) ≠
          candidate index := fun heq => absurd (hinj heq) (Nat.ne_of_gt hle)
      exact (List.mem_erase_of_ne hne).2 hmem
    · rcases Nat.eq_or_lt_of_le hm with rfl | hm
      · exact h
      · exact List.mem_of_mem_erase (hgone m hm hlt)
  | case2 used index h =>
    exact ⟨Nat.le_refl index, h, fun m hm hlt => absurd hlt (Nat.not_lt_of_le hm)⟩

/-- Different candidates that are all in the store are not more than there are names. -/
theorem run_le_size {candidate : Nat → String} (hinj : Function.Injective candidate)
    (names : Names) {first last : Nat}
    (hused : ∀ m, first ≤ m → m < last → candidate m ∈ names.texts) :
    last - first ≤ names.size := by
  have hnodup : ((List.range' first (last - first)).map candidate).Nodup :=
    List.Nodup.map hinj (List.nodup_range' 1)
  have hsub : (List.range' first (last - first)).map candidate ⊆ names.texts := by
    intro text hmem
    obtain ⟨m, hm, rfl⟩ := List.mem_map.1 hmem
    rw [List.mem_range'_1] at hm
    exact hused m hm.1 (by omega)
  simpa [size] using (hnodup.subperm hsub).length_le

theorem toList_numbered (stem : String) (ending : Option String) (n : Nat) :
    (numbered stem ending n).toList =
      stem.toList ++ '_' :: '_' ::
        (Nat.toDigits 10 n ++ (ending.elim [] fun e => '_' :: '_' :: e.toList)) := by
  cases ending <;> simp [numbered, toString]

/-- Whatever the stem and the ending are, different numbers give different names. -/
theorem numbered_injective (stem : String) (ending : Option String) :
    Function.Injective (numbered stem ending) := by
  intro n m h
  have hlist := congrArg String.toList h
  rw [toList_numbered, toList_numbered] at hlist
  have htail := List.append_cancel_left hlist
  simp only [List.cons.injEq, true_and, List.append_cancel_right_eq] at htail
  have hdigits := congrArg (Nat.ofDigitChars 10 · 0) htail
  simpa only [Nat.ofDigitChars_ten_toDigits] using hdigits

theorem freshNumber_spec (names : Names) (stem : String) (ending : Option String) :
    let n := names.freshNumber stem ending
    numbered stem ending n ∉ names.texts ∧ names.counter < n ∧
      n ≤ names.counter + names.size + 1 ∧
      ∀ m, names.counter < m → m < n → numbered stem ending m ∈ names.texts := by
  have hinj := numbered_injective stem ending
  obtain ⟨hlt, hnew, hgone⟩ :=
    firstUnused_spec hinj (names.ids.map (·.1)) (names.counter + 1)
  simp only [mem_ids] at hnew hgone
  have hbound := run_le_size hinj names hgone
  simp only [freshNumber]
  exact ⟨hnew, hlt, by omega, hgone⟩

theorem find?_freshNumber (names : Names) (stem : String) (ending : Option String) :
    names.find? (numbered stem ending (names.freshNumber stem ending)) = none :=
  find?_eq_none.2 (names.freshNumber_spec stem ending).1

theorem fresh_eq (names : Names) (stem : String) (ending : Option String) :
    names.fresh stem ending =
      (names.size, (names.advance (names.freshNumber stem ending)).add _
        (names.find?_freshNumber stem ending)) :=
  (names.advance (names.freshNumber stem ending)).intern_of_find?_eq_none
    (names.find?_freshNumber stem ending)

theorem grows_fresh (names : Names) (stem : String) (ending : Option String) :
    Grows names (names.fresh stem ending).2 :=
  grows_intern (names.advance (names.freshNumber stem ending)) _

/-- A fresh name is a numbered one, found at the position that was given out. -/
theorem find?_fresh (names : Names) (stem : String) (ending : Option String) :
    ∃ n, (names.fresh stem ending).2.find? (numbered stem ending n) =
      some (names.fresh stem ending).1 :=
  ⟨_, find?_intern (names.advance (names.freshNumber stem ending)) _⟩

/-- The fresh name stands behind all others. Its number is the first one past the counter whose
candidate is not in the store, and the counter is there afterwards. -/
theorem fresh_spec (names : Names) (stem : String) (ending : Option String) :
    ∃ n, (names.fresh stem ending).1 = names.size ∧
      (names.fresh stem ending).2.texts = names.texts ++ [numbered stem ending n] ∧
      (names.fresh stem ending).2.counter = n ∧
      numbered stem ending n ∉ names.texts ∧
      names.counter < n ∧ n ≤ names.counter + names.size + 1 ∧
      ∀ m, names.counter < m → m < n → numbered stem ending m ∈ names.texts := by
  rw [fresh_eq]
  exact ⟨_, rfl, rfl, rfl, names.freshNumber_spec stem ending⟩

/-- The fresh name of a stem has a text that no other name has. -/
theorem fresh_new (names : Names) (stem : String) (ending : Option String) :
    (names.fresh stem ending).1 = names.size ∧ ∃ text, text ∉ names.texts ∧
      (names.fresh stem ending).2.texts = names.texts ++ [text] := by
  obtain ⟨n, hid, htexts, -, hnew, -⟩ := fresh_spec names stem ending
  exact ⟨hid, _, hnew, htexts⟩

end LazyLisp.Names
