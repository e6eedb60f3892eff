import LazyLisp.Form.Alike
import Mathlib.Data.List.Basic

/-!
Likeness of forms is an equivalence as long as maps are tidy: no two keys of a map are alike.
-/

namespace LazyLisp
set_option autoImplicit false

namespace Value

/-- The elements of a vector or of a list. -/
def elements? : Value → Option (List Value)
  | .vector items => some items
  | .seq s => s.toList?
  | _ => none

/-- Neither a collection nor a marked form. -/
def isAtom : Value → Bool
  | .vector _ | .seq _ | .map _ | .marked _ _ => false
  | _ => true

/-- Forms of finite lists, vectors and maps whose keys are pairwise unlike. -/
inductive Tidy : Value → Prop
  | atom {v : Value} (h : v.isAtom = true) : Tidy v
  | list {items : List Value} (h : ∀ v ∈ items, Tidy v) : Tidy (.list items)
  | vector {items : List Value} (h : ∀ v ∈ items, Tidy v) : Tidy (.vector items)
  | map {entries : List (Value × Value)} (hkeys : ∀ e ∈ entries, Tidy e.1)
      (hvalues : ∀ e ∈ entries, Tidy e.2)
      (hdistinct : entries.Pairwise fun a b => a.1.alike b.1 = false) : Tidy (.map entries)
  | marked (m : Mark) {form : Value} (h : Tidy form) : Tidy (.marked m form)

@[simp] theorem elements?_list (items : List Value) : (Value.list items).elements? = some items :=
  Seq.toList?_ofList items

theorem alikeTo_eq {s : Seq} {xs : List Value} (h : s.toList? = some xs) (ys : List Value) :
    s.alikeTo ys = allAlike xs ys := by
  induction xs generalizing s ys with
  | nil =>
    cases s with
    | empty => cases ys <;> rfl
    | cons head tail => simp [Seq.toList?] at h
    | _ => cases h
  | cons x xs ih =>
    cases s with
    | cons head tail =>
      simp only [Seq.toList?, Option.map_eq_some_iff, List.cons.injEq] at h
      obtain ⟨rest, hrest, rfl, rfl⟩ := h
      cases ys with
      | nil => rfl
      | cons y ys => simp only [Seq.alikeTo, allAlike, ih hrest]
    | _ => cases h

/-- What a vector or list is like depends on its elements alone. -/
theorem alike_of_elements? {a : Value} {xs : List Value} (h : a.elements? = some xs) (b : Value) :
    a.alike b = b.elements?.any fun ys => allAlike xs ys := by
  cases a with
  | vector items =>
    cases h
    cases b <;> rfl
  | seq s =>
    cases b with
    | vector ys => exact alikeTo_eq h ys
    | seq t =>
      have halike : (fun ys => s.alikeTo ys) = fun ys => allAlike xs ys := funext (alikeTo_eq h)
      rw [← halike]
      rfl
    | _ => rfl
  | _ => cases h

theorem allAlike_cons {x y : Value} {xs ys : List Value} :
    allAlike (x :: xs) (y :: ys) = true ↔ x.alike y = true ∧ allAlike xs ys = true := by
  simp [allAlike]

theorem entriesAlike_iff {xs ys : List (Value × Value)} :
    entriesAlike xs ys = true ↔
      ∀ e ∈ xs, ∃ f ∈ ys, e.1.alike f.1 = true ∧ e.2.alike f.2 = true := by
  induction xs with
  | nil => simp [entriesAlike]
  | cons e xs ih =>
    obtain ⟨k, v⟩ := e
    simp only [entriesAlike, Bool.and_eq_true, List.any_eq_true, ih, List.forall_mem_cons]

theorem alike_map {xs : List (Value × Value)} {b : Value} :
    (Value.map xs).alike b = true ↔ ∃ ys, b = .map ys ∧ xs.length = ys.length ∧
      ∀ e ∈ xs, ∃ f ∈ ys, e.1.alike f.1 = true ∧ e.2.alike f.2 = true := by
  constructor
  · intro h
    cases b with
    | map ys =>
      obtain ⟨hlen, hentries⟩ := Bool.and_eq_true_iff.1 h
      exact ⟨ys, rfl, eq_of_beq hlen, entriesAlike_iff.1 hentries⟩
    | _ => cases h
  · rintro ⟨ys, rfl, hlen, hentries⟩
    exact Bool.and_eq_true_iff.2 ⟨beq_iff_eq.2 hlen, entriesAlike_iff.2 hentries⟩

theorem alike_marked {m : Mark} {form b : Value} :
    (Value.marked m form).alike b = true ↔ ∃ other, b = .marked m other ∧ form.alike other = true := by
  constructor
  · intro h
    cases b with
    | marked n other =>
      obtain ⟨hmark, hform⟩ := Bool.and_eq_true_iff.1 h
      exact ⟨other, by rw [eq_of_beq hmark], hform⟩
    | _ => cases h
  · rintro ⟨other, rfl, h⟩
    exact Bool.and_eq_true_iff.2 ⟨beq_self_eq_true m, h⟩

/-- Each of at least as many things on the left has its own partner on the right, so each on the
right is a partner. -/
theorem exists_partner {α β : Type} {R : α → β → Prop} {xs : List α} {ys : List β}
    (hlen : ys.length ≤ xs.length) (htotal : ∀ x ∈ xs, ∃ y ∈ ys, R x y)
    (hown : xs.Pairwise fun a b => ∀ y, R a y → ¬ R b y) : ∀ y ∈ ys, ∃ x ∈ xs, R x y := by
  induction xs generalizing ys with
  | nil =>
    intro y hy
    rw [List.length_eq_zero_iff.1 (Nat.le_zero.1 hlen)] at hy
    cases hy
  | cons x xs ih =>
    obtain ⟨hx, hxs⟩ := List.pairwise_cons.1 hown
    obtain ⟨y₀, hy₀, hR⟩ := htotal x List.mem_cons_self
    obtain ⟨l₁, l₂, rfl⟩ := List.append_of_mem hy₀
    have hlen' : (l₁ ++ l₂).length ≤ xs.length := by
      simp only [List.length_append, List.length_cons] at hlen ⊢
      omega
    have htotal' : ∀ b ∈ xs, ∃ y ∈ l₁ ++ l₂, R b y := by
      intro b hb
      obtain ⟨y, hy, hby⟩ := htotal b (List.mem_cons_of_mem x hb)
      have hne : y ≠ y₀ := by
        rintro rfl
        exact hx b hb y hR hby
      refine ⟨y, ?_, hby⟩
      simp only [List.mem_append, List.mem_cons] at hy ⊢
      rcases hy with hy | hy | hy
      · exact .inl hy
      · exact absurd hy hne
      · exact .inr hy
    intro y hy
    by_cases heq : y = y₀
    · subst heq
      exact ⟨x, List.mem_cons_self, hR⟩
    · have hy' : y ∈ l₁ ++ l₂ := by
        simp only [List.mem_append, List.mem_cons] at hy ⊢
        rcases hy with hy | hy | hy
        · exact .inl hy
        · exact absurd hy heq
        · exact .inr hy
      obtain ⟨b, hb, hR'⟩ := ih hlen' htotal' hxs y hy'
      exact ⟨b, List.mem_cons_of_mem x hb, hR'⟩

/-- Likeness to the given form can be turned around and passed on. -/
structure Steady (a : Value) : Prop where
  symm : ∀ {b : Value}, a.alike b = true → b.alike a = true
  trans : ∀ {b c : Value}, a.alike b = true → b.alike c = true → a.alike c = true

theorem allAlike_symm {xs ys : List Value} (hxs : ∀ x ∈ xs, Steady x)
    (h : allAlike xs ys = true) : allAlike ys xs = true := by
  induction xs generalizing ys with
  | nil => cases ys <;> simp_all [allAlike]
  | cons x xs ih =>
    obtain ⟨hx, hxs⟩ := List.forall_mem_cons.1 hxs
    cases ys with
    | nil => simp [allAlike] at h
    | cons y ys =>
      obtain ⟨hxy, hrest⟩ := allAlike_cons.1 h
      exact allAlike_cons.2 ⟨hx.symm hxy, ih hxs hrest⟩

theorem allAlike_trans {xs ys zs : List Value} (hxs : ∀ x ∈ xs, Steady x)
    (hxy : allAlike xs ys = true) (hyz : allAlike ys zs = true) : allAlike xs zs = true := by
  induction xs generalizing ys zs with
  | nil => cases ys <;> simp_all [allAlike]
  | cons x xs ih =>
    obtain ⟨hx, hxs⟩ := List.forall_mem_cons.1 hxs
    cases ys with
    | nil => simp [allAlike] at hxy
    | cons y ys =>
      cases zs with
      | nil => simp [allAlike] at hyz
      | cons z zs =>
        obtain ⟨hxy, hrest⟩ := allAlike_cons.1 hxy
        obtain ⟨hyz, hrest'⟩ := allAlike_cons.1 hyz
        exact allAlike_cons.2 ⟨hx.trans hxy hyz, ih hxs hrest hrest'⟩

theorem steady_of_elements? {a : Value} {xs : List Value} (h : a.elements? = some xs)
    (hxs : ∀ x ∈ xs, Steady x) : Steady a where
  symm := by
    intro b hab
    rw [alike_of_elements? h, Option.any_eq_true_iff_get] at hab
    obtain ⟨hsome, hab⟩ := hab
    have hys := Option.some_get hsome
    rw [alike_of_elements? hys.symm, h, Option.any_some]
    exact allAlike_symm hxs hab
  trans := by
    intro b c hab hbc
    rw [alike_of_elements? h, Option.any_eq_true_iff_get] at hab
    obtain ⟨hsome, hab⟩ := hab
    rw [alike_of_elements? (Option.some_get hsome).symm, Option.any_eq_true_iff_get] at hbc
    obtain ⟨hsome', hbc⟩ := hbc
    rw [alike_of_elements? h, Option.any_eq_true_iff_get]
    exact ⟨hsome', allAlike_trans hxs hab hbc⟩

theorem steady_map {xs : List (Value × Value)} (hkeys : ∀ e ∈ xs, Steady e.1)
    (hvalues : ∀ e ∈ xs, Steady e.2)
    (hdistinct : xs.Pairwise fun a b => a.1.alike b.1 = false) : Steady (.map xs) where
  symm := by
    intro b hab
    obtain ⟨ys, rfl, hlen, htotal⟩ := alike_map.1 hab
    have hown : xs.Pairwise fun a b => ∀ f : Value × Value,
        a ∈ xs ∧ a.1.alike f.1 = true ∧ a.2.alike f.2 = true →
          ¬ (b ∈ xs ∧ b.1.alike f.1 = true ∧ b.2.alike f.2 = true) := by
      refine hdistinct.imp ?_
      rintro a b hne f ⟨ha, haf, _⟩ ⟨hb, hbf, _⟩
      -- Two keys with one partner would be alike.
      have hab := (hkeys a ha).trans haf ((hkeys b hb).symm hbf)
      rw [hne] at hab
      cases hab
    have htotal' : ∀ e ∈ xs, ∃ f ∈ ys, e ∈ xs ∧ e.1.alike f.1 = true ∧ e.2.alike f.2 = true := by
      intro e he
      obtain ⟨f, hf, hR⟩ := htotal e he
      exact ⟨f, hf, he, hR⟩
    refine alike_map.2 ⟨xs, rfl, hlen.symm, fun f hf => ?_⟩
    obtain ⟨e, _, he, hkey, hvalue⟩ := exists_partner (Nat.le_of_eq hlen.symm) htotal' hown f hf
    exact ⟨e, he, (hkeys e he).symm hkey, (hvalues e he).symm hvalue⟩
  trans := by
    intro b c hab hbc
    obtain ⟨ys, rfl, hlen, htotal⟩ := alike_map.1 hab
    obtain ⟨zs, rfl, hlen', htotal'⟩ := alike_map.1 hbc
    refine alike_map.2 ⟨zs, rfl, hlen.trans hlen', fun e he => ?_⟩
    obtain ⟨f, hf, hkey, hvalue⟩ := htotal e he
    obtain ⟨g, hg, hkey', hvalue'⟩ := htotal' f hf
    exact ⟨g, hg, (hkeys e he).trans hkey hkey', (hvalues e he).trans hvalue hvalue'⟩

theorem steady_marked (m : Mark) {form : Value} (hform : Steady form) : Steady (.marked m form) where
  symm := by
    intro b hab
    obtain ⟨other, rfl, h⟩ := alike_marked.1 hab
    exact alike_marked.2 ⟨form, rfl, hform.symm h⟩
  trans := by
    intro b c hab hbc
    obtain ⟨other, rfl, h⟩ := alike_marked.1 hab
    obtain ⟨last, rfl, h'⟩ := alike_marked.1 hbc
    exact alike_marked.2 ⟨last, rfl, hform.trans h h'⟩

theorem alike_float {x : Float} {b : Value} :
    (Value.float x).alike b = true ↔ ∃ y, b = .float y ∧ Decimal.code x = Decimal.code y := by
  constructor
  · intro h
    cases b with
    | float y => exact ⟨y, rfl, eq_of_beq h⟩
    | _ => cases h
  · rintro ⟨y, rfl, h⟩
    exact beq_iff_eq.2 h

/-- Atoms are alike when they are equal, but for numbers with a point, which have codes. -/
theorem eq_of_alike {a b : Value} (ha : a.isAtom = true) (hfloat : ∀ x, a ≠ .float x)
    (h : a.alike b = true) : a = b := by
  cases a with
  | float x => exact absurd rfl (hfloat x)
  | vector | seq | map | marked => cases ha
  | nil => cases b <;> first | rfl | cases h
  | _ => cases b <;> first | cases h | exact congrArg _ (eq_of_beq h)

theorem alike_self_of_isAtom {a : Value} (ha : a.isAtom = true) : a.alike a = true := by
  cases a with
  | vector | seq | map | marked => cases ha
  | nil => rfl
  | float x => exact Decimal.same_refl x
  | _ => exact beq_self_eq_true _

theorem steady_atom {a : Value} (ha : a.isAtom = true) : Steady a where
  symm := by
    intro b hab
    by_cases hfloat : ∃ x, a = .float x
    · obtain ⟨x, rfl⟩ := hfloat
      obtain ⟨y, rfl, hcode⟩ := alike_float.1 hab
      exact alike_float.2 ⟨x, rfl, hcode.symm⟩
    · obtain rfl := eq_of_alike ha (fun x hx => hfloat ⟨x, hx⟩) hab
      exact hab
  trans := by
    intro b c hab hbc
    by_cases hfloat : ∃ x, a = .float x
    · obtain ⟨x, rfl⟩ := hfloat
      obtain ⟨y, rfl, hcode⟩ := alike_float.1 hab
      obtain ⟨z, rfl, hcode'⟩ := alike_float.1 hbc
      exact alike_float.2 ⟨z, rfl, hcode.trans hcode'⟩
    · obtain rfl := eq_of_alike ha (fun x hx => hfloat ⟨x, hx⟩) hab
      exact hbc

theorem Tidy.steady {a : Value} (h : a.Tidy) : a.Steady := by
  induction h with
  | atom h => exact steady_atom h
  | list h ih => exact steady_of_elements? (elements?_list _) ih
  | vector h ih => exact steady_of_elements? rfl ih
  | map hkeys hvalues hdistinct ihkeys ihvalues => exact steady_map ihkeys ihvalues hdistinct
  | marked m h ih => exact steady_marked m ih

theorem Tidy.alike_self {a : Value} (h : a.Tidy) : a.alike a = true := by
  have hall : ∀ items : List Value, (∀ v ∈ items, v.alike v = true) → allAlike items items = true := by
    intro items hitems
    induction items with
    | nil => rfl
    | cons v vs ih =>
      obtain ⟨hv, hvs⟩ := List.forall_mem_cons.1 hitems
      exact allAlike_cons.2 ⟨hv, ih hvs⟩
  induction h with
  | atom h => exact alike_self_of_isAtom h
  | list h ih =>
    rw [alike_of_elements? (elements?_list _), elements?_list, Option.any_some]
    exact hall _ ih
  | vector h ih => exact hall _ ih
  | map hkeys hvalues hdistinct ihkeys ihvalues =>
    exact alike_map.2 ⟨_, rfl, rfl, fun e he => ⟨e, he, ihkeys e he, ihvalues e he⟩⟩
  | marked m h ih => exact alike_marked.2 ⟨_, rfl, ih⟩

end Value

end LazyLisp
