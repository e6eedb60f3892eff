import LazyLisp.Equality
import LazyLisp.Proofs.Likeness
import LazyLisp.Proofs.Looks

/-!
Comparing forms that hold no lazy part. Equality of values is likeness there: it realizes nothing,
cannot fail, and is settled within a depth that the size of the forms bounds.
-/

namespace LazyLisp
set_option autoImplicit false

namespace Seq

/-- The elements of a sequence that needs no realization. -/
inductive Strict : Seq → List Value → Prop
  | empty : Strict .empty []
  | cons (head : Value) {tail : Seq} {items : List Value} (h : Strict tail items) :
      Strict (.cons head tail) (head :: items)
  | view (items : List Value) (i : Nat) : Strict (.vectorView items i) (items.drop i)

theorem strict_ofList (items : List Value) : (ofList items).Strict items := by
  induction items with
  | nil => exact .empty
  | cons v vs ih => exact .cons v ih

theorem strict_indexRest (items : List Value) (i : Nat) :
    (indexRest (.vectorView items) items.length i).Strict (items.drop (i + 1)) := by
  rcases indexRest_cases (.vectorView items) items i with ⟨hdrop, hrest⟩ | hrest
  · rw [hdrop, hrest]
    exact .empty
  · rw [hrest]
    exact .view items (i + 1)

theorem Strict.uncons_nil {e : Engine} {s : Seq} (h : s.Strict []) (he : 0 < e.bound) (w : World) :
    s.uncons e w = .ok none w := by
  generalize hxs : ([] : List Value) = xs at h
  cases h with
  | empty =>
    rw [uncons_empty he]
    rfl
  | cons => cases hxs
  | view items i =>
    have hi : items[i]? = none := List.getElem?_eq_none (List.drop_eq_nil_iff.1 hxs.symm)
    rw [uncons_vectorView he, hi]
    rfl

theorem Strict.uncons_cons {e : Engine} {s : Seq} {x : Value} {xs : List Value}
    (h : s.Strict (x :: xs)) (he : 0 < e.bound) :
    ∃ t : Seq, t.Strict xs ∧ ∀ w, s.uncons e w = .ok (some (x, t)) w := by
  generalize hys : x :: xs = ys at h
  cases h with
  | empty => cases hys
  | @cons head tail items htail =>
    cases hys
    exact ⟨tail, htail, fun w => by rw [Seq.uncons_cons he]; rfl⟩
  | view items i =>
    have hi : i < items.length := by
      have hlen := congrArg List.length hys
      simp only [List.length_cons, List.length_drop] at hlen
      omega
    rw [List.drop_eq_getElem_cons hi] at hys
    cases hys
    refine ⟨_, strict_indexRest items i, fun w => ?_⟩
    rw [uncons_vectorView he, List.getElem?_eq_getElem hi]
    rfl

end Seq

namespace Equality
variable {e : Engine} {eq : Value → Value → Eval Bool} {w : World}

theorem allAlike_length {xs ys : List Value} (h : Value.allAlike xs ys = true) :
    xs.length = ys.length := by
  induction xs generalizing ys with
  | nil => cases ys <;> simp_all [Value.allAlike]
  | cons x xs ih =>
    cases ys with
    | nil => simp [Value.allAlike] at h
    | cons y ys => simp [ih (Value.allAlike_cons.1 h).2]

theorem allEqual_eq {xs ys : List Value} (hlen : xs.length = ys.length)
    (heq : ∀ x ∈ xs, ∀ y ∈ ys, eq x y w = .ok (x.alike y) w) :
    allEqual eq xs ys w = .ok (Value.allAlike xs ys) w := by
  induction xs generalizing ys with
  | nil =>
    cases ys with
    | nil => rfl
    | cons y ys => simp at hlen
  | cons x xs ih =>
    cases ys with
    | nil => simp at hlen
    | cons y ys =>
      have hxy := heq x List.mem_cons_self y List.mem_cons_self
      have hrest := ih (Nat.succ.inj hlen) fun a ha b hb =>
        heq a (List.mem_cons_of_mem x ha) b (List.mem_cons_of_mem y hb)
      rw [allEqual, run_bind_ok hxy, Value.allAlike]
      cases x.alike y with
      | true => exact hrest
      | false => rfl

theorem seqEqual_eq {n : Nat} {s t : Seq} {xs ys : List Value} (hs : s.Strict xs) (ht : t.Strict ys)
    (he : 0 < e.bound) (hn : xs.length < n)
    (heq : ∀ x ∈ xs, ∀ y ∈ ys, eq x y w = .ok (x.alike y) w) :
    seqEqual e eq n s t w = .ok (Value.allAlike xs ys) w := by
  induction xs generalizing n s t ys with
  | nil =>
    obtain ⟨n, rfl⟩ := Nat.exists_eq_succ_of_ne_zero (Nat.ne_of_gt hn)
    rw [seqEqual, run_bind_ok (hs.uncons_nil he w)]
    cases ys with
    | nil => rw [run_bind_ok (ht.uncons_nil he w)]; rfl
    | cons y ys =>
      obtain ⟨t', _, htail⟩ := ht.uncons_cons he
      rw [run_bind_ok (htail w)]
      rfl
  | cons x xs ih =>
    obtain ⟨n, rfl⟩ := Nat.exists_eq_succ_of_ne_zero (Nat.ne_of_gt (Nat.zero_lt_of_lt hn))
    obtain ⟨s', hs', hhead⟩ := hs.uncons_cons he
    rw [seqEqual, run_bind_ok (hhead w)]
    cases ys with
    | nil => rw [run_bind_ok (ht.uncons_nil he w)]; rfl
    | cons y ys =>
      obtain ⟨t', ht', hhead'⟩ := ht.uncons_cons he
      have hxy := heq x List.mem_cons_self y List.mem_cons_self
      have hrest := ih hs' ht' (Nat.lt_of_succ_lt_succ hn) fun a ha b hb =>
        heq a (List.mem_cons_of_mem x ha) b (List.mem_cons_of_mem y hb)
      rw [run_bind_ok (hhead' w)]
      dsimp only
      rw [run_bind_ok hxy, Value.allAlike]
      cases x.alike y with
      | true => exact hrest
      | false => rfl

theorem orFalse_ok {m : Eval Bool} {b : Bool} (h : m w = .ok b w) : m.orFalse w = .ok b w := by
  rw [Eval.orFalse, h]

theorem lookup_eq {key : Value} {entries : List (Value × Value)}
    (heq : ∀ f ∈ entries, eq f.1 key w = .ok (f.1.alike key) w) :
    lookup eq key entries w = .ok ((entries.find? fun f => f.1.alike key).map (·.2)) w := by
  induction entries with
  | nil => rfl
  | cons f rest ih =>
    obtain ⟨k, v⟩ := f
    obtain ⟨hf, hrest⟩ := List.forall_mem_cons.1 heq
    rw [lookup, run_bind_ok (orFalse_ok hf), List.find?_cons]
    cases hkey : k.alike key with
    | true => rfl
    | false => exact ih hrest

/-- The keys of a tidy map are alike only to themselves. -/
theorem eq_of_keys_alike {entries : List (Value × Value)} (hkeys : ∀ f ∈ entries, f.1.Tidy)
    (hdistinct : entries.Pairwise fun a b => a.1.alike b.1 = false) {f g : Value × Value}
    (hf : f ∈ entries) (hg : g ∈ entries) (h : f.1.alike g.1 = true) : f = g := by
  by_contra hne
  obtain ⟨i, hi, rfl⟩ := List.mem_iff_getElem.1 hf
  obtain ⟨j, hj, rfl⟩ := List.mem_iff_getElem.1 hg
  have hpair := List.pairwise_iff_getElem.1 hdistinct
  rcases Nat.lt_trichotomy i j with hij | rfl | hij
  · rw [hpair i j hi hj hij] at h
    cases h
  · exact hne rfl
  · have hsymm := (hkeys _ hf).steady.symm h
    rw [hpair j i hj hi hij] at hsymm
    cases hsymm

/-- Of all entries, only the one whose key is found can count. -/
theorem any_entry_alike {k : Value} {ys : List (Value × Value)} (hk : k.Tidy)
    (hys : ∀ f ∈ ys, f.1.Tidy) (hdistinct : ys.Pairwise fun a b => a.1.alike b.1 = false)
    (v : Value) :
    (ys.any fun g => k.alike g.1 && v.alike g.2) =
      (ys.find? fun g => g.1.alike k).any fun g => v.alike g.2 := by
  cases hfind : ys.find? fun g => g.1.alike k with
  | none =>
    rw [Option.any_none, List.any_eq_false]
    intro g hg hboth
    have hgk := hk.steady.symm (Bool.and_eq_true_iff.1 hboth).1
    exact List.find?_eq_none.1 hfind g hg hgk
  | some g =>
    have hg := List.mem_of_find?_eq_some hfind
    have hgk : g.1.alike k = true := by simpa using List.find?_some hfind
    rw [Option.any_some, Bool.eq_iff_iff, List.any_eq_true]
    constructor
    · rintro ⟨h, hh, hboth⟩
      obtain ⟨hkh, hvh⟩ := Bool.and_eq_true_iff.1 hboth
      have hgh := (hys g hg).steady.trans hgk hkh
      rw [eq_of_keys_alike hys hdistinct hg hh hgh]
      exact hvh
    · intro hvg
      have hkg := (hys g hg).steady.symm hgk
      exact ⟨g, hg, Bool.and_eq_true_iff.2 ⟨hkg, hvg⟩⟩

theorem entriesEqual_eq {xs ys : List (Value × Value)} (hxs : ∀ f ∈ xs, f.1.Tidy)
    (hys : ∀ f ∈ ys, f.1.Tidy) (hdistinct : ys.Pairwise fun a b => a.1.alike b.1 = false)
    (hkeys : ∀ f ∈ xs, ∀ g ∈ ys, eq g.1 f.1 w = .ok (g.1.alike f.1) w)
    (hvalues : ∀ f ∈ xs, ∀ g ∈ ys, eq f.2 g.2 w = .ok (f.2.alike g.2) w) :
    entriesEqual eq ys xs w = .ok (Value.entriesAlike xs ys) w := by
  induction xs with
  | nil => rfl
  | cons f rest ih =>
    obtain ⟨k, v⟩ := f
    obtain ⟨hk, hrest⟩ := List.forall_mem_cons.1 hxs
    obtain ⟨hkey, hkeys⟩ := List.forall_mem_cons.1 hkeys
    obtain ⟨hvalue, hvalues⟩ := List.forall_mem_cons.1 hvalues
    have ih := ih hrest hkeys hvalues
    rw [entriesEqual, run_bind_ok (lookup_eq hkey), Value.entriesAlike,
      any_entry_alike hk hys hdistinct]
    cases hfind : ys.find? fun g => g.1.alike k with
    | none => rfl
    | some g =>
      have hg := List.mem_of_find?_eq_some hfind
      rw [Option.map_some, Option.any_some]
      dsimp only
      rw [run_bind_ok (orFalse_ok (hvalue g hg))]
      cases v.alike g.2 with
      | true => exact ih
      | false => rfl

end Equality

mutual

/-- The number of forms that a form is made of. -/
def Value.size : Value → Nat
  | .vector items => 1 + Value.sizeAll items
  | .map entries => 1 + Value.sizeEntries entries
  | .seq s => 1 + s.size
  | .marked _ form => 1 + form.size
  | _ => 1

def Seq.size : Seq → Nat
  | .cons head tail => head.size + tail.size
  | _ => 0

def Value.sizeAll : List Value → Nat
  | [] => 0
  | v :: vs => v.size + Value.sizeAll vs

def Value.sizeEntries : List (Value × Value) → Nat
  | [] => 0
  | (k, v) :: rest => k.size + v.size + Value.sizeEntries rest

end

namespace Value

theorem size_pos (v : Value) : 0 < v.size := by
  cases v <;> simp only [size] <;> omega

theorem size_list (items : List Value) : (Value.list items).size = 1 + sizeAll items := by
  have hseq : (Seq.ofList items).size = sizeAll items := by
    induction items with
    | nil => rfl
    | cons v vs ih => exact congrArg (v.size + ·) ih
  exact congrArg (1 + ·) hseq

theorem size_le_sizeAll {items : List Value} {v : Value} (hv : v ∈ items) :
    v.size ≤ sizeAll items := by
  induction items with
  | nil => cases hv
  | cons x xs ih =>
    rw [sizeAll]
    rcases List.mem_cons.1 hv with rfl | hv
    · omega
    · have hle := ih hv
      omega

theorem length_le_sizeAll (items : List Value) : items.length ≤ sizeAll items := by
  induction items with
  | nil => exact Nat.le_refl 0
  | cons x xs ih =>
    have hpos := size_pos x
    rw [sizeAll, List.length_cons]
    omega

theorem size_le_sizeEntries {entries : List (Value × Value)} {f : Value × Value}
    (hf : f ∈ entries) : f.1.size ≤ sizeEntries entries ∧ f.2.size ≤ sizeEntries entries := by
  induction entries with
  | nil => cases hf
  | cons g rest ih =>
    obtain ⟨k, v⟩ := g
    rw [sizeEntries]
    rcases List.mem_cons.1 hf with rfl | hf
    · dsimp only
      omega
    · have hle := ih hf
      omega

section
variable {e : Engine} {n : Nat} {w : World}

/-- Equality of these forms within a depth is likeness and changes nothing. -/
def EqualIsAlike (e : Engine) (w : World) (n : Nat) (xs ys : List Value) : Prop :=
  ∀ x ∈ xs, ∀ y ∈ ys, equalWithin e n x y w = .ok (x.alike y) w

theorem equalWithin_atom {a b : Value} (ha : a.isAtom = true) (w : World) :
    equalWithin e (n + 1) a b w = .ok (a.alike b) w := by
  cases a with
  | vector | seq | map | marked => cases ha
  | _ => cases b <;> rfl

theorem equalWithin_atom_right {a b : Value} (hb : b.isAtom = true) (ha : a.isAtom = false)
    (w : World) : equalWithin e (n + 1) a b w = .ok (a.alike b) w := by
  cases b with
  | vector | seq | map | marked => cases hb
  | _ =>
    cases a with
    | vector | seq | map | marked => rfl
    | _ => cases ha

theorem equalWithin_vectors {xs ys : List Value} (h : EqualIsAlike e w n xs ys) :
    equalWithin e (n + 1) (.vector xs) (.vector ys) w = .ok (allAlike xs ys) w := by
  rw [equalWithin]
  split
  · rename_i hlen
    exact Equality.allEqual_eq (eq_of_beq hlen) h
  · rename_i hlen
    cases hall : allAlike xs ys with
    | false => rfl
    | true => exact absurd (beq_iff_eq.2 (Equality.allAlike_length hall)) hlen

theorem equalWithin_maps {xs ys : List (Value × Value)} (hxs : ∀ f ∈ xs, f.1.Tidy)
    (hys : ∀ f ∈ ys, f.1.Tidy) (hdistinct : ys.Pairwise fun a b => a.1.alike b.1 = false)
    (hkeys : EqualIsAlike e w n (ys.map (·.1)) (xs.map (·.1)))
    (hvalues : EqualIsAlike e w n (xs.map (·.2)) (ys.map (·.2))) :
    equalWithin e (n + 1) (.map xs) (.map ys) w = .ok ((Value.map xs).alike (.map ys)) w := by
  rw [equalWithin, alike]
  cases xs.length == ys.length with
  | false => rfl
  | true =>
    refine Equality.entriesEqual_eq hxs hys hdistinct ?_ ?_
    · intro f hf g hg
      exact hkeys g.1 (List.mem_map_of_mem hg) f.1 (List.mem_map_of_mem hf)
    · intro f hf g hg
      exact hvalues f.2 (List.mem_map_of_mem hf) g.2 (List.mem_map_of_mem hg)

theorem equalWithin_marked {m : Mark} {f g : Value} {k : Mark}
    (h : equalWithin e n f g w = .ok (f.alike g) w) :
    equalWithin e (n + 1) (.marked m f) (.marked k g) w =
      .ok ((Value.marked m f).alike (.marked k g)) w := by
  rw [equalWithin, alike]
  cases m == k with
  | false => rfl
  | true => exact Equality.orFalse_ok h

end

/-- A tidy form that an engine can compare within a depth. -/
structure Fits (e : Engine) (n : Nat) (v : Value) : Prop where
  tidy : v.Tidy
  depth : v.size ≤ n
  bound : v.size ≤ e.bound

theorem fits_items {e : Engine} {n : Nat} {items : List Value} (h : ∀ v ∈ items, v.Tidy)
    (hn : 1 + sizeAll items ≤ n + 1) (he : 1 + sizeAll items ≤ e.bound) :
    ∀ v ∈ items, Fits e n v := by
  intro v hv
  have hle := size_le_sizeAll hv
  exact ⟨h v hv, by omega, by omega⟩

theorem fits_entries {e : Engine} {n : Nat} {entries : List (Value × Value)}
    (hkeys : ∀ f ∈ entries, f.1.Tidy) (hvalues : ∀ f ∈ entries, f.2.Tidy)
    (hn : 1 + sizeEntries entries ≤ n + 1) (he : 1 + sizeEntries entries ≤ e.bound) :
    (∀ k ∈ entries.map (·.1), Fits e n k) ∧ ∀ v ∈ entries.map (·.2), Fits e n v := by
  constructor
  · intro k hk
    obtain ⟨f, hf, rfl⟩ := List.mem_map.1 hk
    have hle := size_le_sizeEntries hf
    exact ⟨hkeys f hf, by omega, by omega⟩
  · intro v hv
    obtain ⟨f, hf, rfl⟩ := List.mem_map.1 hv
    have hle := size_le_sizeEntries hf
    exact ⟨hvalues f hf, by omega, by omega⟩

/-- Without lazy parts, equality is likeness and changes nothing. -/
theorem equalWithin_eq {e : Engine} {n : Nat} {a b : Value} (ha : Fits e n a) (hb : Fits e n b)
    (w : World) : equalWithin e n a b w = .ok (a.alike b) w := by
  induction n generalizing a b with
  | zero =>
    have hpos := size_pos a
    have hle := ha.depth
    omega
  | succ n ih =>
    have he : 0 < e.bound := Nat.lt_of_lt_of_le (size_pos a) ha.bound
    have hall : ∀ xs ys : List Value, (∀ x ∈ xs, Fits e n x) → (∀ y ∈ ys, Fits e n y) →
        EqualIsAlike e w n xs ys := fun xs ys hxs hys x hx y hy => ih (hxs x hx) (hys y hy)
    obtain ⟨hta, hna, hea⟩ := ha
    obtain ⟨htb, hnb, heb⟩ := hb
    cases hta with
    | atom h => exact equalWithin_atom h w
    | @list xs hxs =>
      rw [size_list] at hna hea
      have hlen := length_le_sizeAll xs
      have hfx := fits_items hxs hna hea
      cases htb with
      | atom h => exact equalWithin_atom_right h rfl w
      | @list ys hys =>
        rw [size_list] at hnb heb
        have hfy := fits_items hys hnb heb
        rw [alike_of_elements? (elements?_list xs), elements?_list, Option.any_some]
        exact Equality.seqEqual_eq (Seq.strict_ofList xs) (Seq.strict_ofList ys) he (by omega)
          (hall xs ys hfx hfy)
      | @vector ys hys =>
        have hfy := fits_items hys hnb heb
        rw [alike_of_elements? (elements?_list xs), elements?, Option.any_some]
        exact Equality.seqEqual_eq (Seq.strict_ofList xs) (.view ys 0) he (by omega)
          (hall xs ys hfx hfy)
      | map | marked => rfl
    | @vector xs hxs =>
      have hfx := fits_items hxs hna hea
      cases htb with
      | atom h => exact equalWithin_atom_right h rfl w
      | @list ys hys =>
        rw [size_list] at hnb heb
        have hlen := length_le_sizeAll ys
        have hfy := fits_items hys hnb heb
        -- A vector is compared with a list as the list with the vector.
        have hswap : allAlike ys xs = allAlike xs ys := by
          rw [Bool.eq_iff_iff]
          exact ⟨allAlike_symm fun y hy => (hys y hy).steady,
            allAlike_symm fun x hx => (hxs x hx).steady⟩
        rw [alike_of_elements? (rfl : (Value.vector xs).elements? = some xs), elements?_list,
          Option.any_some, ← hswap]
        exact Equality.seqEqual_eq (Seq.strict_ofList ys) (.view xs 0) he (by omega)
          (hall ys xs hfy hfx)
      | @vector ys hys =>
        exact equalWithin_vectors (hall xs ys hfx (fits_items hys hnb heb))
      | map | marked => rfl
    | @map xs hkeys hvalues hdistinct =>
      have hfx := fits_entries hkeys hvalues hna hea
      cases htb with
      | atom h => exact equalWithin_atom_right h rfl w
      | @map ys hkeys' hvalues' hdistinct' =>
        have hfy := fits_entries hkeys' hvalues' hnb heb
        exact equalWithin_maps hkeys hkeys' hdistinct' (hall _ _ hfy.1 hfx.1) (hall _ _ hfx.2 hfy.2)
      | list | vector | marked => rfl
    | @marked m f h =>
      rw [size] at hna hea
      cases htb with
      | atom h => exact equalWithin_atom_right h rfl w
      | @marked k g h' =>
        rw [size] at hnb heb
        exact equalWithin_marked (ih ⟨h, by omega, by omega⟩ ⟨h', by omega, by omega⟩)
      | list | vector | map => rfl

/-- Every tidy form equals itself. -/
theorem equal_self {e : Engine} {v : Value} (h : v.Tidy) (he : v.size ≤ e.bound) (w : World) :
    v.equal e v w = .ok true w := by
  have hfits : Fits e e.bound v := ⟨h, he, he⟩
  rw [equal, equalWithin_eq hfits hfits, h.alike_self]

end Value
end LazyLisp
