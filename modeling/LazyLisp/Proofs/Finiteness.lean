import LazyLisp.Proofs.Nesting
import LazyLisp.Proofs.Walking

/-!
Values whose sequences come to an end without failure. Whether and how a lazy sequence ends can
depend on when it is walked, so it is said relative to the states that lie ahead. Two such values
can always be compared, and the answer is the likeness of the data that they stand for once they
have been walked, although the comparison itself may stop long before.
-/

namespace LazyLisp
set_option autoImplicit false

/-- Which states lie ahead of which. On the way, cells only move on. -/
structure Course (R : World → World → Prop) : Prop where
  refl : ∀ w, R w w
  trans : ∀ {w v u : World}, R w v → R v u → R w u
  later : ∀ {w v : World}, R w v → Later w v

namespace Value

/-- Whenever its sequences are walked, they end, without failure and with such values as elements.
No two keys of a map are ever equal. -/
inductive Finite (R : World → World → Prop) : World → Value → Prop
  | atom {w : World} {v : Value} (h : v.isAtom = true) : Finite R w v
  | vector {w : World} {items : List Value} (h : ∀ v ∈ items, Finite R w v) :
      Finite R w (.vector items)
  | seq {w : World} {s : Seq} (htakes : ∀ v, R w v → ∃ o u, Seq.Takes v s o u ∧ R v u)
      (hhead : ∀ v x t u, R w v → Seq.Takes v s (some (x, t)) u → Finite R u x)
      (htail : ∀ v x t u, R w v → Seq.Takes v s (some (x, t)) u → Finite R u (.seq t)) :
      Finite R w (.seq s)
  | map {w : World} {entries : List (Value × Value)} (hkeys : ∀ f ∈ entries, Finite R w f.1)
      (hvalues : ∀ f ∈ entries, Finite R w f.2)
      (hdistinct : ∀ v, R w v → entries.Pairwise fun f g => ∀ u, ¬ Compares v f.1 g.1 (.ok true u)) :
      Finite R w (.map entries)
  | marked {w : World} (m : Mark) {form : Value} (h : Finite R w form) : Finite R w (.marked m form)

section
variable {R : World → World → Prop} (hR : Course R)
include hR

theorem Finite.along {w v : World} {a : Value} (h : Finite R w a) (hwv : R w v) :
    Finite R v a := by
  induction h generalizing v with
  | atom h => exact .atom h
  | vector h ih => exact .vector fun x hx => ih x hx hwv
  | seq htakes hhead htail ihhead ihtail =>
    exact .seq (fun u hu => htakes u (hR.trans hwv hu))
      (fun u x t z hu htakes => hhead u x t z (hR.trans hwv hu) htakes)
      fun u x t z hu htakes => htail u x t z (hR.trans hwv hu) htakes
  | map hkeys hvalues hdistinct ihkeys ihvalues =>
    exact .map (fun f hf => ihkeys f hf hwv) (fun f hf => ihvalues f hf hwv)
      fun u hu => hdistinct u (hR.trans hwv hu)
  | marked m h ih => exact .marked m (ih hwv)

/-- A sequence that has been walked to its end is finite if its elements are. -/
theorem Finite.of_holds {w : World} {s : Seq} {items : List Value} (hs : Seq.Holds w s items)
    (h : ∀ v ∈ items, Finite R w v) : Finite R w (.seq s) := by
  induction hs with
  | @nil s hstep =>
    have hnone : ∀ v x t u, R w v → ¬ Seq.Takes v s (some (x, t)) u := by
      intro v x t u hwv htakes
      cases ((hstep.again (hR.later hwv)).unique htakes).1
    refine .seq (fun v hwv => ⟨_, v, hstep.again (hR.later hwv), hR.refl v⟩) ?_ ?_
    · exact fun v x t u hwv htakes => absurd htakes (hnone v x t u hwv)
    · exact fun v x t u hwv htakes => absurd htakes (hnone v x t u hwv)
  | cons hstep ht ih =>
    obtain ⟨hx, hxs⟩ := List.forall_mem_cons.1 h
    refine .seq (fun v hwv => ⟨_, v, hstep.again (hR.later hwv), hR.refl v⟩) ?_ ?_
    · intro v x t u hwv htakes
      obtain ⟨hsame, rfl⟩ := htakes.unique (hstep.again (hR.later hwv))
      cases hsame
      exact hx.along hR hwv
    · intro v x t u hwv htakes
      obtain ⟨hsame, rfl⟩ := htakes.unique (hstep.again (hR.later hwv))
      cases hsame
      exact (ih hxs).along hR hwv

/-- A vector can be walked as a sequence. -/
theorem Finite.vectorView {w : World} {items : List Value} (h : ∀ v ∈ items, Finite R w v) (i : Nat) :
    Finite R w (.seq (.vectorView items i)) :=
  .of_holds hR (.vectorView w items i) fun v hv => h v (List.mem_of_mem_drop hv)

/-- The elements of a finite sequence are finite. -/
theorem Finite.of_mem_holds {w : World} {s : Seq} {items : List Value} (hs : Seq.Holds w s items)
    (h : Finite R w (.seq s)) : ∀ x ∈ items, Finite R w x := by
  induction hs with
  | nil => exact List.forall_mem_nil _
  | cons hstep ht ih =>
    cases h with
    | atom hv => cases hv
    | seq htakes hhead htail =>
      have hx := hhead w _ _ w (hR.refl w) hstep
      have hxs := htail w _ _ w (hR.refl w) hstep
      exact List.forall_mem_cons.2 ⟨hx, ih hxs⟩

/-- A finite collection is finite as a sequence. -/
theorem Finite.toSeq {w : World} {v : Value} {s : Seq} (h : Finite R w v)
    (hs : v.toSeq? = some s) : Finite R w (.seq s) := by
  cases v with
  | nil =>
    cases hs
    exact .of_holds hR (.nil (.empty w)) (List.forall_mem_nil _)
  | seq t =>
    cases hs
    exact h
  | vector items =>
    cases hs
    cases h with
    | atom hv => cases hv
    | vector h => exact .vectorView hR h 0
  | string text =>
    cases hs
    exact .of_holds hR (.textView w text) (List.forall_mem_map.2 fun _ _ => .atom rfl)
  | map entries =>
    cases hs
    cases h with
    | atom hv => cases hv
    | map hkeys hvalues =>
      refine .of_holds hR (.entryView w entries 0) (List.forall_mem_map.2 fun f hf => ?_)
      rw [List.drop_zero] at hf
      refine .vector (List.forall_mem_cons.2 ⟨hkeys f hf, List.forall_mem_cons.2 ⟨hvalues f hf, ?_⟩⟩)
      exact List.forall_mem_nil _
  | _ => cases hs

/-- Walking a concatenation goes on behind the current part, if there are more. -/
theorem Finite.concat_of {w : World} {current : Seq} {parts : List Seq}
    (h : Finite R w (.seq current))
    (hmore : ∀ next rest, parts = next :: rest → ∀ v, R w v →
      Finite R v (.seq (.concat next rest))) : Finite R w (.seq (.concat current parts)) := by
  generalize hv : Value.seq current = a at h
  induction h generalizing current with
  | atom h => subst hv; cases h
  | @seq w s htakes hhead htail ihhead ihtail =>
    cases hv
    have hahead : ∀ v u o, R w v → Seq.Takes v s o u → R v u := by
      intro v u o hwv hstep
      obtain ⟨o', u', hstep', hvu⟩ := htakes v hwv
      obtain ⟨-, rfl⟩ := hstep.unique hstep'
      exact hvu
    refine .seq (fun v hwv => ?_) (fun v x t u hwv hstep => ?_) fun v x t u hwv hstep => ?_
    · obtain ⟨o, u, hstep, hvu⟩ := htakes v hwv
      rcases o with _ | ⟨x, t⟩
      · cases parts with
        | nil => exact ⟨_, u, .last hstep, hvu⟩
        | cons next rest =>
          cases hmore next rest rfl u (hR.trans hwv hvu) with
          | atom hv => cases hv
          | seq htakes' =>
            obtain ⟨o, z, hnext, huz⟩ := htakes' u (hR.refl u)
            exact ⟨o, z, .next hstep hnext, hR.trans hvu huz⟩
      · exact ⟨_, u, .part parts hstep, hvu⟩
    · cases hstep with
      | part _ hstep => exact hhead v x _ u hwv hstep
      | next hstep hnext =>
        have hwz := hR.trans hwv (hahead v _ _ hwv hstep)
        cases hmore _ _ rfl _ hwz with
        | atom hv => cases hv
        | seq htakes' hhead' htail' => exact hhead' _ x t u (hR.refl _) hnext
    · cases hstep with
      | part _ hstep =>
        refine ihtail v x _ u hwv hstep (fun next rest hparts z huz => ?_) rfl
        exact hmore next rest hparts z (hR.trans (hR.trans hwv (hahead v u _ hwv hstep)) huz)
      | next hstep hnext =>
        have hwz := hR.trans hwv (hahead v _ _ hwv hstep)
        cases hmore _ _ rfl _ hwz with
        | atom hv => cases hv
        | seq htakes' hhead' htail' => exact htail' _ x t u (hR.refl _) hnext
  | _ => cases hv

/-- A concatenation of finite sequences is finite. -/
theorem Finite.concat {w : World} {current : Seq} {parts : List Seq}
    (h : Finite R w (.seq current)) (hparts : ∀ s ∈ parts, Finite R w (.seq s)) :
    Finite R w (.seq (.concat current parts)) := by
  induction parts generalizing w current with
  | nil => exact h.concat_of hR nofun
  | cons next rest ih =>
    obtain ⟨hnext, hrest⟩ := List.forall_mem_cons.1 hparts
    refine h.concat_of hR ?_
    rintro _ _ ⟨⟩ v hwv
    exact ih (hnext.along hR hwv) fun s hs => (hrest s hs).along hR hwv

end
end Value

/-! Computations that end for every large enough budget and depth. -/

/-- Budgets and depths from some number on give this result. -/
def Eventually {α : Type} (c : Nat → Nat → Eval α) (w : World) (r : α) (v : World) : Prop :=
  ∃ n, ∀ m k, n ≤ m → n ≤ k → c m k w = .ok r v

namespace Eventually
variable {α β : Type} {c : Nat → Nat → Eval α} {w v u : World} {a : α} {b : β}

theorem now (h : ∀ m k, c m (k + 1) w = .ok a v) : Eventually c w a v := by
  refine ⟨1, fun m k _ hk => ?_⟩
  obtain ⟨k, rfl⟩ := Nat.exists_eq_add_of_le' hk
  exact h m k

/-- One level of depth may be used up. -/
theorem deeper {c' : Nat → Nat → Eval α} (h : Eventually c' w a v)
    (hc : ∀ m k, c m (k + 1) w = c' m k w) : Eventually c w a v := by
  obtain ⟨n, hn⟩ := h
  refine ⟨n + 1, fun m k hm hk => ?_⟩
  obtain ⟨k, rfl⟩ := Nat.exists_eq_add_of_le' (Nat.le_trans (Nat.succ_pos n) hk)
  rw [hc]
  exact hn m k (by omega) (by omega)

theorem congr {c' : Nat → Nat → Eval α} (h : Eventually c' w a v)
    (hc : ∀ m k, c m (k + 1) w = c' m (k + 1) w) : Eventually c w a v := by
  obtain ⟨n, hn⟩ := h
  exact deeper ⟨n, fun m k hm hk => hn m (k + 1) hm (Nat.le_succ_of_le hk)⟩ hc

theorem bind {f : Nat → Nat → α → Eval β} (hc : Eventually c w a v)
    (hf : Eventually (fun m k => f m k a) v b u) :
    Eventually (fun m k => c m k >>= f m k) w b u := by
  obtain ⟨n, hn⟩ := hc
  obtain ⟨n', hn'⟩ := hf
  refine ⟨max n n', fun m k hm hk => ?_⟩
  have hfirst := hn m k (by omega) (by omega)
  exact (run_bind_ok hfirst _).trans (hn' m k (by omega) (by omega))

theorem orFalse {c : Nat → Nat → Eval Bool} {r : Bool} (h : Eventually c w r v) :
    Eventually (fun m k => (c m k).orFalse) w r v := by
  obtain ⟨n, hn⟩ := h
  refine ⟨n, fun m k hm hk => ?_⟩
  show (c m k).orFalse w = _
  rw [Eval.orFalse, hn m k hm hk]

end Eventually

/-- The computation ends with a result, and the result is right in all states ahead. -/
def Concludes (R : World → World → Prop) {α : Type} (w : World) (c : Nat → Nat → Eval α)
    (right : World → α → Prop) : Prop :=
  ∃ r v, Eventually c w r v ∧ R w v ∧ ∀ u, R v u → right u r

namespace Concludes
variable {R : World → World → Prop} {α β : Type} {w : World} {c : Nat → Nat → Eval α}
  {p : World → α → Prop} {q : World → β → Prop}

theorem now (hR : Course R) {a : α} (h : ∀ m k, c m (k + 1) w = .ok a w) (hp : ∀ u, R w u → p u a) :
    Concludes R w c p :=
  ⟨a, w, .now h, hR.refl w, hp⟩

theorem deeper {c' : Nat → Nat → Eval α} {p' : World → α → Prop} (h : Concludes R w c' p')
    (hc : ∀ m k, c m (k + 1) w = c' m k w) (hp : ∀ u a, p' u a → p u a) : Concludes R w c p := by
  obtain ⟨a, v, hends, hwv, hright⟩ := h
  exact ⟨a, v, hends.deeper hc, hwv, fun u hu => hp u a (hright u hu)⟩

theorem congr {c' : Nat → Nat → Eval α} {p' : World → α → Prop} (h : Concludes R w c' p')
    (hc : ∀ m k, c m (k + 1) w = c' m (k + 1) w) (hp : ∀ u a, p' u a → p u a) :
    Concludes R w c p := by
  obtain ⟨a, v, hends, hwv, hright⟩ := h
  exact ⟨a, v, hends.congr hc, hwv, fun u hu => hp u a (hright u hu)⟩

theorem bind (hR : Course R) {f : Nat → Nat → α → Eval β} (hc : Concludes R w c p)
    (hf : ∀ a v, R w v → (∀ u, R v u → p u a) → Concludes R v (fun m k => f m k a) q) :
    Concludes R w (fun m k => c m k >>= f m k) q := by
  obtain ⟨a, v, hends, hwv, hright⟩ := hc
  obtain ⟨b, u, hends', hvu, hright'⟩ := hf a v hwv hright
  exact ⟨b, u, hends.bind hends', hR.trans hwv hvu, hright'⟩

theorem orFalse {c : Nat → Nat → Eval Bool} {p : World → Bool → Prop} (h : Concludes R w c p) :
    Concludes R w (fun m k => (c m k).orFalse) p := by
  obtain ⟨r, v, hends, hwv, hright⟩ := h
  exact ⟨r, v, hends.orFalse, hwv, hright⟩

end Concludes

namespace Value

theorem Compares.iff_eventually {w v : World} {a b : Value} {r : Bool} :
    Compares w a b (.ok r v) ↔ Eventually (fun m k => a.equalWithin (.ofBudget m) k b) w r v := by
  constructor
  · exact fun h => h.eventually
  · rintro ⟨n, hn⟩
    exact .of_equalWithin (.ok r v) (hn n n (Nat.le_refl n) (Nat.le_refl n))

/-- The values can be compared, and the answer is the likeness of their data. -/
def Agree (R : World → World → Prop) (w : World) (a b : Value) : Prop :=
  Concludes R w (fun m k => a.equalWithin (.ofBudget m) k b) fun u r =>
    ∀ da db, Denotes u a da → Denotes u b db → r = da.alike db

end Value

namespace Equality

/-- What follows the looks at the heads of two sequences. -/
def afterHeads (e : Engine) (eq : Value → Value → Eval Bool) (n : Nat) :
    Option (Value × Seq) → Option (Value × Seq) → Eval Bool
  | none, none => return true
  | some (x, s), some (y, t) => do
    if ← eq x y then seqEqual e eq n s t else return false
  | _, _ => return false

theorem seqEqual_succ (e : Engine) (eq : Value → Value → Eval Bool) (n : Nat) (s t : Seq) :
    seqEqual e eq (n + 1) s t = (do
      let a ← s.uncons e
      let b ← t.uncons e
      afterHeads e eq n a b) :=
  rfl

end Equality

namespace Value

/-! Values of different kinds. -/

inductive Shape
  | atom | row | table | mark
deriving DecidableEq

/-- Vectors and sequences have one shape. -/
def shape : Value → Shape
  | .vector _ => .row
  | .seq _ => .row
  | .map _ => .table
  | .marked _ _ => .mark
  | _ => .atom

theorem shape_eq_atom {v : Value} : v.shape = .atom ↔ v.isAtom = true := by
  cases v <;> simp [shape, isAtom]

theorem Denotes.shape_eq {w : World} {a d : Value} (h : Denotes w a d) : d.shape = a.shape := by
  cases h <;> rfl

theorem alike_of_shape_ne {a b : Value} (h : a.shape ≠ b.shape) : a.alike b = false := by
  cases a <;> cases b <;> first | rfl | exact absurd rfl h

section
variable {R : World → World → Prop} (hR : Course R) {w : World}
include hR

theorem agree_of_shape_ne {a b : Value} (h : a.shape ≠ b.shape) : Agree R w a b := by
  have hnow : ∀ m k, a.equalWithin (.ofBudget m) (k + 1) b w = .ok false w := by
    intro m k
    cases a <;> cases b <;> first | rfl | exact absurd rfl h
  refine .now hR hnow fun u _ da db hda hdb => ?_
  rw [← hda.shape_eq, ← hdb.shape_eq] at h
  exact (alike_of_shape_ne h).symm

theorem agree_atoms {a b : Value} (ha : a.isAtom = true) (hb : b.isAtom = true) : Agree R w a b := by
  refine .now hR (fun m k => equalWithin_atom ha w) fun u _ da db hda hdb => ?_
  rw [hda.unique (.atom ha), hdb.unique (.atom hb)]

theorem agree_marked {m n : Mark} {f g : Value} (h : Agree R w f g) :
    Agree R w (.marked m f) (.marked n g) := by
  by_cases hmark : m = n
  · subst hmark
    refine h.orFalse.deeper (fun k l => ?_) fun u r hright da db hda hdb => ?_
    · show (if m == m then _ else _ : Eval Bool) w = _
      rw [if_pos (beq_self_eq_true m)]
    · obtain ⟨df, rfl, hdf⟩ := denotes_marked.1 hda
      obtain ⟨dg, rfl, hdg⟩ := denotes_marked.1 hdb
      rw [hright _ _ hdf hdg, alike, beq_self_eq_true, Bool.true_and]
  · refine .now hR (a := false) (fun k l => ?_) fun u _ da db hda hdb => ?_
    · show (if m == n then _ else _ : Eval Bool) w = _
      rw [if_neg (by simpa using hmark)]
      rfl
    · obtain ⟨df, rfl, -⟩ := denotes_marked.1 hda
      obtain ⟨dg, rfl, -⟩ := denotes_marked.1 hdb
      rw [alike, beq_eq_false_iff_ne.2 hmark, Bool.false_and]

/-! Vectors and sequences. -/

theorem concludes_allEqual {xs ys : List Value} (hlen : xs.length = ys.length)
    (h : ∀ x ∈ xs, ∀ y ∈ ys, ∀ v, R w v → Agree R v x y) :
    Concludes R w (fun m k => Equality.allEqual (equalWithin (.ofBudget m) k) xs ys) fun u r =>
      ∀ dxs dys, List.Forall₂ (Denotes u) xs dxs → List.Forall₂ (Denotes u) ys dys →
        r = allAlike dxs dys := by
  induction xs generalizing ys w with
  | nil =>
    obtain rfl : ys = [] := List.length_eq_zero_iff.1 hlen.symm
    refine .now hR (a := true) (fun m k => rfl) fun u _ dxs dys hdxs hdys => ?_
    cases hdxs
    cases hdys
    rfl
  | cons x xs ih =>
    cases ys with
    | nil => cases hlen
    | cons y ys =>
      have hxy := h x List.mem_cons_self y List.mem_cons_self w (hR.refl w)
      refine .bind hR hxy fun r v hwv hright => ?_
      cases r with
      | false =>
        refine .now hR (a := false) (fun m k => rfl) fun u hvu dxs dys hdxs hdys => ?_
        cases hdxs with
        | cons hdx _ =>
          cases hdys with
          | cons hdy _ => rw [allAlike, ← hright u hvu _ _ hdx hdy, Bool.false_and]
      | true =>
        obtain ⟨r, z, hends, hvz, hrest⟩ := ih (Nat.succ.inj hlen) fun a ha b hb u hvu =>
          h a (List.mem_cons_of_mem x ha) b (List.mem_cons_of_mem y hb) u (hR.trans hwv hvu)
        refine ⟨r, z, hends, hvz, fun u hzu dxs dys hdxs hdys => ?_⟩
        cases hdxs with
        | cons hdx hdxs =>
          cases hdys with
          | cons hdy hdys =>
            rw [allAlike, ← hright u (hR.trans hvz hzu) _ _ hdx hdy, Bool.true_and]
            exact hrest u hzu _ _ hdxs hdys

theorem agree_vectors {xs ys : List Value} (h : ∀ x ∈ xs, ∀ y ∈ ys, ∀ v, R w v → Agree R v x y) :
    Agree R w (.vector xs) (.vector ys) := by
  by_cases hlen : xs.length = ys.length
  · refine (concludes_allEqual hR hlen h).deeper (fun m k => ?_) fun u r hright da db hda hdb => ?_
    · show (if xs.length == ys.length then _ else _ : Eval Bool) w = _
      rw [if_pos (beq_iff_eq.2 hlen)]
    · obtain ⟨dxs, rfl, hdxs⟩ := denotes_vector.1 hda
      obtain ⟨dys, rfl, hdys⟩ := denotes_vector.1 hdb
      exact hright dxs dys hdxs hdys
  · refine .now hR (a := false) (fun m k => ?_) fun u _ da db hda hdb => ?_
    · show (if xs.length == ys.length then _ else _ : Eval Bool) w = _
      rw [if_neg (by simpa using hlen)]
      rfl
    · obtain ⟨dxs, rfl, hdxs⟩ := denotes_vector.1 hda
      obtain ⟨dys, rfl, hdys⟩ := denotes_vector.1 hdb
      cases hall : allAlike dxs dys with
      | false => exact hall.symm
      | true =>
        refine absurd ?_ hlen
        rw [hdxs.length_eq, hdys.length_eq, Equality.allAlike_length hall]

omit hR in
theorem list_alike_list (xs ys : List Value) :
    (Value.list xs).alike (.list ys) = allAlike xs ys := by
  rw [alike_of_elements? (elements?_list xs), elements?_list, Option.any_some]

omit hR in
theorem seqEqual_mono {n m k k' l l' : Nat} {s t : Seq} (hn : n ≤ m) (hk : k ≤ k') (hl : l ≤ l')
    (h : Ended (Equality.seqEqual (.ofBudget n) (equalWithin (.ofBudget n) k) l s t w)) :
    Equality.seqEqual (.ofBudget m) (equalWithin (.ofBudget m) k') l' s t w =
      Equality.seqEqual (.ofBudget n) (equalWithin (.ofBudget n) k) l s t w := by
  have htied := Engine.ofBudget_tied hn
  exact (htied.seqEqual (fun a b => htied.equalWithin hk a b) hl s t).run_eq
    (Unrelated.intro : Unrelated w w) h

omit hR in
theorem eventually_seqs {s t : Seq} {o o' : Option (Value × Seq)} {v u z : World} {r : Bool}
    (hs : Seq.Takes w s o v) (ht : Seq.Takes v t o' u)
    (h : ∃ n, ∀ m, n ≤ m → Equality.afterHeads (.ofBudget (m + 1))
      (equalWithin (.ofBudget (m + 1)) m) m o o' u = .ok r z) :
    Eventually (fun m k => (Value.seq s).equalWithin (.ofBudget m) k (.seq t)) w r z := by
  obtain ⟨n₁, hs⟩ := hs.uncons
  obtain ⟨n₂, ht⟩ := ht.uncons
  obtain ⟨n₃, h⟩ := h
  let m := max n₁ (max n₂ n₃)
  refine Compares.iff_eventually.1 (.of_equalWithin (n := m + 1) (k := m + 1) (.ok r z) ?_)
  show Equality.seqEqual (.ofBudget (m + 1)) (equalWithin (.ofBudget (m + 1)) m) (m + 1) s t w = _
  rw [Equality.seqEqual_succ, run_bind_ok (hs (m + 1) (by omega)),
    run_bind_ok (ht (m + 1) (by omega)), h m (by omega)]

/-- The comparison of two sequences goes on from step to step. -/
theorem agree_seqs {s t : Seq} (hs : ∃ o v, Seq.Takes w s o v ∧ R w v)
    (ht : ∀ v, R w v → ∃ o u, Seq.Takes v t o u ∧ R v u)
    (hnext : ∀ x s' v y t' u, Seq.Takes w s (some (x, s')) v → R w v →
      Seq.Takes v t (some (y, t')) u → R v u →
      Agree R u x y ∧ ∀ z, R u z → Agree R z (.seq s') (.seq t')) :
    Agree R w (.seq s) (.seq t) := by
  obtain ⟨o, v, hs, hwv⟩ := hs
  obtain ⟨o', u, ht, hvu⟩ := ht v hwv
  have hwu := hR.trans hwv hvu
  have hlater : ∀ {z}, R u z → Later v z := fun hz => hR.later (hR.trans hvu hz)
  rcases o with _ | ⟨x, s'⟩ <;> rcases o' with _ | ⟨y, t'⟩
  · refine ⟨true, u, eventually_seqs hs ht ⟨0, fun _ _ => rfl⟩, hwu, fun z hz da db hda hdb => ?_⟩
    rw [hda.of_takes_none hs (hlater hz), hdb.of_takes_none ht (hR.later hz)]
    rfl
  · refine ⟨false, u, eventually_seqs hs ht ⟨0, fun _ _ => rfl⟩, hwu, fun z hz da db hda hdb => ?_⟩
    obtain ⟨dy, dt, rfl, -, -⟩ := hdb.of_takes_some ht (hR.later hz)
    rw [hda.of_takes_none hs (hlater hz), list_alike_list]
    rfl
  · refine ⟨false, u, eventually_seqs hs ht ⟨0, fun _ _ => rfl⟩, hwu, fun z hz da db hda hdb => ?_⟩
    obtain ⟨dx, ds, rfl, -, -⟩ := hda.of_takes_some hs (hlater hz)
    rw [hdb.of_takes_none ht (hR.later hz), list_alike_list]
    rfl
  · obtain ⟨⟨r, z, hhead, huz, hright⟩, htails⟩ := hnext x s' v y t' u hs hwv ht hvu
    obtain ⟨n, hhead⟩ := hhead
    have hdata : ∀ {z' da db}, R z z' → Denotes z' (.seq s) da → Denotes z' (.seq t) db →
        ∃ dx ds dy dt, da = .list (dx :: ds) ∧ db = .list (dy :: dt) ∧ r = dx.alike dy ∧
          Denotes z' (.seq s') (.list ds) ∧ Denotes z' (.seq t') (.list dt) := by
      intro z' da db hz' hda hdb
      have huz' := hR.trans huz hz'
      obtain ⟨dx, ds, rfl, hdx, hds⟩ := hda.of_takes_some hs (hlater huz')
      obtain ⟨dy, dt, rfl, hdy, hdt⟩ := hdb.of_takes_some ht (hR.later huz')
      exact ⟨dx, ds, dy, dt, rfl, rfl, hright z' hz' dx dy hdx hdy, hds, hdt⟩
    cases r with
    | false =>
      refine ⟨false, z, eventually_seqs hs ht ⟨n, fun m hm => ?_⟩, hR.trans hwu huz, ?_⟩
      · exact run_bind_ok (hhead (m + 1) m (by omega) hm) _
      · intro z' hz' da db hda hdb
        obtain ⟨dx, ds, dy, dt, rfl, rfl, hxy, -, -⟩ := hdata hz' hda hdb
        rw [list_alike_list, allAlike, ← hxy, Bool.false_and]
    | true =>
      obtain ⟨r, z₂, ⟨n', htail⟩, hzz, hright'⟩ := htails z huz
      refine ⟨r, z₂, eventually_seqs hs ht ⟨max n n', fun m hm => ?_⟩,
        hR.trans hwu (hR.trans huz hzz), ?_⟩
      · -- the rest is compared with one round less
        have htail : Equality.seqEqual (.ofBudget m) (equalWithin (.ofBudget m) m) m s' t' z =
            .ok r z₂ := htail m (m + 1) (by omega) (by omega)
        have hended : Ended (Equality.seqEqual (.ofBudget m) (equalWithin (.ofBudget m) m) m s' t' z) :=
          htail ▸ .ok r z₂
        have hmore := seqEqual_mono (Nat.le_succ m) (Nat.le_refl m) (Nat.le_refl m) hended
        exact (run_bind_ok (hhead (m + 1) m (by omega) (by omega)) _).trans (hmore.trans htail)
      · intro z' hz' da db hda hdb
        obtain ⟨dx, ds, dy, dt, rfl, rfl, hxy, hds, hdt⟩ := hdata (hR.trans hzz hz') hda hdb
        rw [list_alike_list, allAlike, ← hxy, Bool.true_and, ← list_alike_list]
        exact hright' z' hz' _ _ hds hdt

omit hR in
/-- A vector stands for what it holds if it is walked from its first element on. -/
theorem denotes_vectorView {u : World} {xs ds : List Value}
    (h : List.Forall₂ (Denotes u) xs ds) : Denotes u (.seq (.vectorView xs 0)) (.list ds) :=
  denotes_seq.2 ⟨xs, ds, .vectorView u xs 0, rfl, h⟩

omit hR in
theorem agree_seq_vector {t : Seq} {xs : List Value}
    (h : Agree R w (.seq t) (.seq (.vectorView xs 0))) : Agree R w (.seq t) (.vector xs) := by
  refine h.congr (fun m k => rfl) fun u r hright da db hda hdb => ?_
  obtain ⟨ds, rfl, hds⟩ := denotes_vector.1 hdb
  obtain ⟨_, dt, -, rfl, -⟩ := denotes_seq.1 hda
  rw [hright _ _ hda (denotes_vectorView hds), list_alike_list,
    alike_of_elements? (elements?_list dt)]
  rfl

omit hR in
/-- A vector is compared with a sequence as the sequence with the vector. -/
theorem agree_vector_seq {t : Seq} {xs : List Value}
    (h : Agree R w (.seq t) (.seq (.vectorView xs 0))) : Agree R w (.vector xs) (.seq t) := by
  refine h.congr (fun m k => rfl) fun u r hright da db hda hdb => ?_
  obtain ⟨ds, rfl, hds⟩ := denotes_vector.1 hda
  obtain ⟨_, dt, -, rfl, -⟩ := denotes_seq.1 hdb
  have hview := denotes_vectorView hds
  have hsame : (Value.vector ds).alike (.list dt) = (Value.list ds).alike (.list dt) := by
    rw [list_alike_list, alike_of_elements? rfl, elements?_list, Option.any_some]
  rw [hright _ _ hdb hview, hsame, Bool.eq_iff_iff]
  exact ⟨hdb.tidy.steady.symm, hview.tidy.steady.symm⟩

theorem agree_seq_used {s t : Seq} (ht : Finite R w (.seq t)) (hs : ∀ v, Seq.Takes v s none v) :
    Agree R w (.seq t) (.seq s) := by
  cases ht with
  | atom hv => cases hv
  | seq htakes hhead htail =>
    refine agree_seqs hR (htakes w (hR.refl w)) (fun v _ => ⟨_, v, hs v, hR.refl v⟩) ?_
    intro y t' v x s' u _ _ htake _
    cases (htake.unique (hs v)).1

/-- Such a comparison goes on as long as the vector does. -/
theorem agree_seq_vectorView {t : Seq} {xs : List Value} (ht : Finite R w (.seq t))
    (h : ∀ x ∈ xs, ∀ v, R w v → ∀ y, Finite R v y → Agree R v y x) (i : Nat) :
    Agree R w (.seq t) (.seq (.vectorView xs i)) := by
  generalize hn : xs.length - i = n
  induction n generalizing w t i with
  | zero =>
    refine agree_seq_used hR ht fun v => ?_
    have hview := Seq.Takes.vectorView v xs i
    rwa [List.getElem?_eq_none (by omega)] at hview
  | succ n ih =>
    have hlt : i < xs.length := by omega
    cases ht with
    | atom hv => cases hv
    | seq htakes hhead htail =>
      refine agree_seqs hR (htakes w (hR.refl w)) (fun v _ => ⟨_, v, .vectorView v xs i, hR.refl v⟩) ?_
      intro y t' v x s' u htake hwv hview _
      obtain ⟨hsame, rfl⟩ := hview.unique (.vectorView v xs i)
      rw [List.getElem?_eq_getElem hlt] at hsame
      cases hsame
      have hy := hhead w y t' _ (hR.refl w) htake
      have ht' := htail w y t' _ (hR.refl w) htake
      refine ⟨h _ (List.getElem_mem hlt) _ hwv y hy, fun z hz => ?_⟩
      rcases Seq.indexRest_cases (.vectorView xs) xs i with ⟨-, hrest⟩ | hrest
      · rw [hrest]
        exact agree_seq_used hR (ht'.along hR hz) .empty
      · rw [hrest]
        refine ih (ht'.along hR hz) (fun x hx v hv => ?_) (i + 1) (by omega)
        exact h x hx v (hR.trans hwv (hR.trans hz hv))

/-! Maps. -/

theorem concludes_lookup {key : Value} {entries : List (Value × Value)}
    (h : ∀ f ∈ entries, ∀ v, R w v → Agree R v f.1 key) :
    Concludes R w (fun m k => Equality.lookup (equalWithin (.ofBudget m) k) key entries) fun u o =>
      (∀ x, o = some x → ∃ f ∈ entries, x = f.2) ∧
      ∀ dk ds, Denotes u key dk → List.Forall₂ (EntryDenotes u) entries ds →
        Option.Rel (Denotes u) o ((ds.find? fun g => g.1.alike dk).map (·.2)) := by
  induction entries generalizing w with
  | nil =>
    refine .now hR (a := none) (fun m k => rfl) fun u _ => ⟨nofun, fun dk ds _ hds => ?_⟩
    cases hds
    exact .none
  | cons f rest ih =>
    obtain ⟨hf, hrest⟩ := List.forall_mem_cons.1 h
    refine .bind hR (hf w (hR.refl w)).orFalse fun r v hwv hright => ?_
    cases r with
    | true =>
      refine .now hR (a := some f.2) (fun m k => rfl) fun u hvu => ⟨?_, fun dk ds hdk hds => ?_⟩
      · rintro x ⟨⟩
        exact ⟨f, List.mem_cons_self, rfl⟩
      · cases hds with
        | cons hdf hds =>
          rw [List.find?_cons, ← hright u hvu _ _ hdf.1 hdk]
          exact .some hdf.2
    | false =>
      obtain ⟨o, z, hends, hvz, hright'⟩ := ih fun g hg u hvu => hrest g hg u (hR.trans hwv hvu)
      refine ⟨o, z, hends, hvz, fun u hzu => ⟨fun x hx => ?_, fun dk ds hdk hds => ?_⟩⟩
      · obtain ⟨g, hg, rfl⟩ := (hright' u hzu).1 x hx
        exact ⟨g, List.mem_cons_of_mem f hg, rfl⟩
      · cases hds with
        | cons hdf hds =>
          rw [List.find?_cons, ← hright u (hR.trans hvz hzu) _ _ hdf.1 hdk]
          exact (hright' u hzu).2 dk _ hdk hds

omit hR in
/-- Which of the entries count is decided by the data. -/
theorem entriesAlike_cons {u : World} {f : Value × Value} {ys rest dys : List (Value × Value)}
    (hf : f.1.Tidy) (hdys : List.Forall₂ (EntryDenotes u) ys dys)
    (hdistinct : dys.Pairwise fun f g => f.1.alike g.1 = false) :
    entriesAlike (f :: rest) dys =
      (((dys.find? fun g => g.1.alike f.1).map (·.2)).any (f.2.alike ·) && entriesAlike rest dys) := by
  have htidy : ∀ g ∈ dys, g.1.Tidy := by
    obtain ⟨ps, -, rfl, hps⟩ := exists_pairs_iff.2 hdys
    exact List.forall_mem_map.2 fun p hp => (hps p hp).1.tidy
  rw [entriesAlike, Equality.any_entry_alike hf htidy hdistinct, Option.any_map]

theorem concludes_entriesEqual {xs ys : List (Value × Value)}
    (hkeys : ∀ f ∈ xs, ∀ g ∈ ys, ∀ v, R w v → Agree R v g.1 f.1)
    (hvalues : ∀ f ∈ xs, ∀ g ∈ ys, ∀ v, R w v → Agree R v f.2 g.2) :
    Concludes R w (fun m k => Equality.entriesEqual (equalWithin (.ofBudget m) k) ys xs) fun u r =>
      ∀ dxs dys, List.Forall₂ (EntryDenotes u) xs dxs → List.Forall₂ (EntryDenotes u) ys dys →
        (dys.Pairwise fun f g => f.1.alike g.1 = false) → r = entriesAlike dxs dys := by
  induction xs generalizing w with
  | nil =>
    refine .now hR (a := true) (fun m k => rfl) fun u _ dxs dys hdxs _ _ => ?_
    cases hdxs
    rfl
  | cons f rest ih =>
    obtain ⟨hkey, hkeys⟩ := List.forall_mem_cons.1 hkeys
    obtain ⟨hvalue, hvalues⟩ := List.forall_mem_cons.1 hvalues
    refine .bind hR (concludes_lookup hR hkey) fun o v hwv hfound => ?_
    cases o with
    | none =>
      refine .now hR (a := false) (fun m k => rfl) fun u hvu dxs dys hdxs hdys hdistinct => ?_
      cases hdxs with
      | cons hdf hdxs =>
        rw [entriesAlike_cons hdf.1.tidy hdys hdistinct]
        have hrel := (hfound u hvu).2 _ dys hdf.1 hdys
        generalize (dys.find? _).map _ = found at hrel ⊢
        cases hrel
        rfl
    | some x =>
      obtain ⟨g, hg, rfl⟩ := (hfound v (hR.refl v)).1 x rfl
      refine .bind hR (hvalue g hg v hwv).orFalse fun r z hvz hright => ?_
      have hfound : ∀ {u d dys}, R z u → EntryDenotes u f d →
          List.Forall₂ (EntryDenotes u) ys dys →
          ((dys.find? fun g => g.1.alike d.1).map (·.2)).any (d.2.alike ·) = r := by
        intro u d dys hzu hdf hdys
        have hrel := (hfound u (hR.trans hvz hzu)).2 _ dys hdf.1 hdys
        generalize (dys.find? _).map _ = found at hrel ⊢
        cases hrel with
        | some hdg => exact (hright u hzu _ _ hdf.2 hdg).symm
      cases r with
      | false =>
        refine .now hR (a := false) (fun m k => rfl) fun u hzu dxs dys hdxs hdys hdistinct => ?_
        cases hdxs with
        | cons hdf hdxs =>
          rw [entriesAlike_cons hdf.1.tidy hdys hdistinct, hfound hzu hdf hdys, Bool.false_and]
      | true =>
        obtain ⟨r, z', hends, hzz, hrest⟩ := ih
          (fun f hf g hg u hu => hkeys f hf g hg u (hR.trans hwv (hR.trans hvz hu)))
          fun f hf g hg u hu => hvalues f hf g hg u (hR.trans hwv (hR.trans hvz hu))
        refine ⟨r, z', hends, hzz, fun u hu dxs dys hdxs hdys hdistinct => ?_⟩
        cases hdxs with
        | cons hdf hdxs =>
          rw [entriesAlike_cons hdf.1.tidy hdys hdistinct, hfound (hR.trans hzz hu) hdf hdys,
            Bool.true_and]
          exact hrest u hu _ dys hdxs hdys hdistinct

theorem agree_maps {xs ys : List (Value × Value)}
    (hkeys : ∀ f ∈ xs, ∀ g ∈ ys, ∀ v, R w v → Agree R v g.1 f.1)
    (hvalues : ∀ f ∈ xs, ∀ g ∈ ys, ∀ v, R w v → Agree R v f.2 g.2) :
    Agree R w (.map xs) (.map ys) := by
  by_cases hlen : xs.length = ys.length
  · refine (concludes_entriesEqual hR hkeys hvalues).deeper (fun m k => ?_)
      fun u r hright da db hda hdb => ?_
    · show (if xs.length == ys.length then _ else _ : Eval Bool) w = _
      rw [if_pos (beq_iff_eq.2 hlen)]
    · obtain ⟨dxs, rfl, hdxs, -⟩ := denotes_map.1 hda
      obtain ⟨dys, rfl, hdys, hdistinct⟩ := denotes_map.1 hdb
      have hlen : dxs.length = dys.length := by rw [← hdxs.length_eq, hlen, hdys.length_eq]
      rw [hright dxs dys hdxs hdys hdistinct, alike, beq_iff_eq.2 hlen, Bool.true_and]
  · refine .now hR (a := false) (fun m k => ?_) fun u _ da db hda hdb => ?_
    · show (if xs.length == ys.length then _ else _ : Eval Bool) w = _
      rw [if_neg (by simpa using hlen)]
      rfl
    · obtain ⟨dxs, rfl, hdxs, -⟩ := denotes_map.1 hda
      obtain ⟨dys, rfl, hdys, -⟩ := denotes_map.1 hdb
      rw [hdxs.length_eq, hdys.length_eq] at hlen
      rw [alike, beq_eq_false_iff_ne.2 hlen, Bool.false_and]

/-! All values. -/

/-- Finite values can be compared in either order. -/
theorem Finite.agree {a : Value} (ha : Finite R w a) :
    ∀ v, R w v → ∀ b, Finite R v b → Agree R v a b ∧ Agree R v b a := by
  have hother : ∀ {v : World} {a b : Value}, a.shape ≠ b.shape → Agree R v a b ∧ Agree R v b a :=
    fun h => ⟨agree_of_shape_ne hR h, agree_of_shape_ne hR (Ne.symm h)⟩
  have hatom : ∀ {v : World} {a b : Value}, a.shape ≠ .atom → b.isAtom = true →
      Agree R v a b ∧ Agree R v b a :=
    fun ha hb => hother (shape_eq_atom.2 hb ▸ ha)
  induction ha with
  | @atom w a ha =>
    intro v hwv b hb
    by_cases hatoms : b.isAtom = true
    · exact ⟨agree_atoms hR ha hatoms, agree_atoms hR hatoms ha⟩
    · exact (hatom (mt shape_eq_atom.1 hatoms) ha).symm
  | @vector w xs h ih =>
    intro v hwv b hb
    cases hb with
    | atom hb => exact hatom nofun hb
    | vector hys =>
      refine ⟨agree_vectors hR fun x hx y hy u hu => ?_, agree_vectors hR fun y hy x hx u hu => ?_⟩
      · exact (ih x hx u (hR.trans hwv hu) y ((hys y hy).along hR hu)).1
      · exact (ih x hx u (hR.trans hwv hu) y ((hys y hy).along hR hu)).2
    | seq htakes hhead htail =>
      have hseq := agree_seq_vectorView hR (.seq htakes hhead htail) (fun x hx u hu y hy =>
        (ih x hx u (hR.trans hwv hu) y hy).2) 0
      exact ⟨agree_vector_seq hseq, agree_seq_vector hseq⟩
    | map => exact hother nofun
    | marked => exact hother nofun
  | @seq w s htakes hhead htail ihhead ihtail =>
    -- against another sequence, be it in front or behind
    have hseqs : ∀ v, R w v → ∀ t, Finite R v (.seq t) →
        Agree R v (.seq s) (.seq t) ∧ Agree R v (.seq t) (.seq s) := by
      intro v hwv t ht
      cases ht with
      | atom hv => cases hv
      | seq htakes' hhead' htail' =>
        constructor
        · refine agree_seqs hR (htakes v hwv) htakes' ?_
          intro x s' u y t' z hs hvu ht huz
          have hy := hhead' u y t' z hvu ht
          have ht' := htail' u y t' z hvu ht
          refine ⟨(ihhead v x s' u hwv hs z huz y hy).1, fun z' hz' => ?_⟩
          exact (ihtail v x s' u hwv hs z' (hR.trans huz hz') _ (ht'.along hR hz')).1
        · refine agree_seqs hR (htakes' v (hR.refl v)) (fun u hu => htakes u (hR.trans hwv hu)) ?_
          intro y t' u x s' z ht hvu hs huz
          have hy := (hhead' v y t' u (hR.refl v) ht).along hR huz
          have ht' := (htail' v y t' u (hR.refl v) ht).along hR huz
          have hwu := hR.trans hwv hvu
          refine ⟨(ihhead u x s' z hwu hs z (hR.refl z) y hy).2, fun z' hz' => ?_⟩
          exact (ihtail u x s' z hwu hs z' hz' _ (ht'.along hR hz')).2
    intro v hwv b hb
    cases hb with
    | atom hb => exact hatom nofun hb
    | vector hys =>
      have hseq := (hseqs v hwv _ (.vectorView hR hys 0)).1
      exact ⟨agree_seq_vector hseq, agree_vector_seq hseq⟩
    | @seq _ t htakes' hhead' htail' => exact hseqs v hwv t (.seq htakes' hhead' htail')
    | map => exact hother nofun
    | marked => exact hother nofun
  | @map w xs hkeys hvalues hdistinct ihkeys ihvalues =>
    intro v hwv b hb
    cases hb with
    | atom hb => exact hatom nofun hb
    | vector => exact hother nofun
    | seq => exact hother nofun
    | marked => exact hother nofun
    | map hkeys' hvalues' hdistinct' =>
      have hk := fun f hf g hg u hu =>
        ihkeys f hf u (hR.trans hwv hu) g.1 ((hkeys' g hg).along hR hu)
      have hv := fun f hf g hg u hu =>
        ihvalues f hf u (hR.trans hwv hu) g.2 ((hvalues' g hg).along hR hu)
      constructor
      · exact agree_maps hR (fun f hf g hg u hu => (hk f hf g hg u hu).2)
          fun f hf g hg u hu => (hv f hf g hg u hu).1
      · exact agree_maps hR (fun g hg f hf u hu => (hk f hf g hg u hu).1)
          fun g hg f hf u hu => (hv f hf g hg u hu).2
  | @marked w m form h ih =>
    intro v hwv b hb
    cases hb with
    | atom hb => exact hatom nofun hb
    | vector => exact hother nofun
    | seq => exact hother nofun
    | map => exact hother nofun
    | marked n hg =>
      have hforms := ih v hwv _ hg
      exact ⟨agree_marked hR hforms.1, agree_marked hR hforms.2⟩

/-! Data. -/

omit hR in
/-- What can be reached for each element ahead can be reached for all of them. -/
theorem exists_forall₂ (hR : Course R) {α β : Type} {D : World → α → β → Prop}
    (hD : ∀ {v u x d}, D v x d → Later v u → D u x d) {xs : List α}
    (h : ∀ x ∈ xs, ∀ v, R w v → ∃ u d, R v u ∧ D u x d) :
    ∀ v, R w v → ∃ u ds, R v u ∧ List.Forall₂ (D u) xs ds := by
  induction xs with
  | nil => exact fun v _ => ⟨v, [], hR.refl v, .nil⟩
  | cons x xs ih =>
    intro v hwv
    obtain ⟨hx, hxs⟩ := List.forall_mem_cons.1 h
    obtain ⟨u, d, hvu, hd⟩ := hx v hwv
    obtain ⟨z, ds, huz, hds⟩ := ih hxs u (hR.trans hwv hvu)
    exact ⟨z, d :: ds, hR.trans hvu huz, .cons (hD hd (hR.later huz)) hds⟩

omit hR in
theorem EntryDenotes.again {v u : World} {f g : Value × Value} (h : EntryDenotes v f g)
    (hvu : Later v u) : EntryDenotes u f g :=
  ⟨h.1.again hvu, h.2.again hvu⟩

/-- Where finite values stand for like data, they are equal. -/
theorem Finite.compares_of_alike {a b da db : Value} (ha : Finite R w a) (hb : Finite R w b)
    (hda : Denotes w a da) (hdb : Denotes w b db) (h : da.alike db = true) :
    ∃ u, Compares w a b (.ok true u) := by
  obtain ⟨r, u, hends, hwu, hright⟩ := (ha.agree hR w (hR.refl w) b hb).1
  have hlater := hR.later hwu
  have hr := hright u (hR.refl u) da db (hda.again hlater) (hdb.again hlater)
  rw [h] at hr
  exact ⟨u, Compares.iff_eventually.2 (hr ▸ hends)⟩

/-- A finite value stands for data in some state ahead. -/
theorem Finite.exists_denotes {a : Value} (ha : Finite R w a) :
    ∀ v, R w v → ∃ u d, R v u ∧ Denotes u a d := by
  induction ha with
  | atom h => exact fun v _ => ⟨v, _, hR.refl v, .atom h⟩
  | vector h ih =>
    intro v hwv
    obtain ⟨u, ds, hvu, hds⟩ := exists_forall₂ hR (D := Denotes) Denotes.again ih v hwv
    exact ⟨u, _, hvu, denotes_vector.2 ⟨ds, rfl, hds⟩⟩
  | seq htakes hhead htail ihhead ihtail =>
    intro v hwv
    obtain ⟨o, u, hstep, hvu⟩ := htakes v hwv
    rcases o with _ | ⟨x, t⟩
    · have hnil := hstep.again (.refl u)
      exact ⟨u, _, hvu, denotes_seq.2 ⟨[], [], .nil hnil, rfl, .nil⟩⟩
    · obtain ⟨z, dx, huz, hdx⟩ := ihhead v x t u hwv hstep u (hR.refl u)
      obtain ⟨z', d, hzz, hd⟩ := ihtail v x t u hwv hstep z huz
      obtain ⟨xs, ds, ht, rfl, hds⟩ := denotes_seq.1 hd
      have hlater := hR.later (hR.trans huz hzz)
      refine ⟨z', _, hR.trans hvu (hR.trans huz hzz), denotes_seq.2 ⟨x :: xs, dx :: ds, ?_, rfl, ?_⟩⟩
      · exact .cons (hstep.again hlater) ht
      · exact .cons (hdx.again (hR.later hzz)) hds
  | @map w entries hkeys hvalues hdistinct ihkeys ihvalues =>
    intro v hwv
    have hentries : ∀ f ∈ entries, ∀ v, R w v → ∃ u g, R v u ∧ EntryDenotes u f g := by
      intro f hf v hwv
      obtain ⟨u, dk, hvu, hdk⟩ := ihkeys f hf v hwv
      obtain ⟨z, dv, huz, hdv⟩ := ihvalues f hf u (hR.trans hwv hvu)
      exact ⟨z, (dk, dv), hR.trans hvu huz, hdk.again (hR.later huz), hdv⟩
    obtain ⟨u, ds, hvu, hds⟩ := exists_forall₂ hR (D := EntryDenotes) EntryDenotes.again hentries v hwv
    refine ⟨u, .map ds, hvu, denotes_map.2 ⟨ds, rfl, hds, ?_⟩⟩
    have hwu := hR.trans hwv hvu
    obtain ⟨ps, rfl, rfl, hps⟩ := exists_pairs_iff.2 hds
    refine List.pairwise_map.2 ((List.pairwise_map.1 (hdistinct u hwu)).imp_of_mem ?_)
    -- like keys would be equal keys
    intro p q hp hq hne
    have hkey : ∀ p ∈ ps, Finite R u p.1.1 := fun p hp =>
      (hkeys p.1 (List.mem_map_of_mem hp)).along hR hwu
    rw [Bool.eq_false_iff]
    intro halike
    obtain ⟨z, hequal⟩ := (hkey p hp).compares_of_alike hR (hkey q hq) (hps p hp).1 (hps q hq).1 halike
    exact hne z hequal
  | marked m h ih =>
    intro v hwv
    obtain ⟨u, d, hvu, hd⟩ := ih v hwv
    exact ⟨u, _, hvu, .marked m hd⟩

end
end Value
end LazyLisp
