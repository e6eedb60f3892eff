import LazyLisp.Proofs.Filling
import LazyLisp.Proofs.Finiteness

/-!
What a filled template shows: itself, with the values in the place of its holes and the elements of
the collections in the place of those that are spliced. If the values in the holes are finite, the
value that was built is equal to that.
-/

namespace LazyLisp
set_option autoImplicit false

/-- A course on which the events of the past do not count. -/
structure QuietCourse (R : World → World → Prop) : Prop extends Course R where
  quiet : ∀ {w v : World}, w.muted = v.muted → R w v

/-! Walking a sequence without a trace. -/

theorem ComesTo.muted {α : Type} {c : Nat → Eval α} {w : World} {r : EStateM.Result Stop World α}
    (h : ComesTo c w.muted r) : ComesTo (fun n => (c n).muted) w (endMuted r) := by
  obtain ⟨hr, n, hn⟩ := h
  exact ⟨ended_endMuted.2 hr, n, fun m hm => congrArg endMuted (hn m hm)⟩

namespace Value

section
variable {R : World → World → Prop} {w : World} {s : Seq}

theorem Finite.takes (hR : Course R) (h : Finite R w (.seq s)) :
    ∃ o v, Seq.Takes w s o v ∧ R w v := by
  cases h with
  | atom hv => cases hv
  | seq htakes => exact htakes w (hR.refl w)

/-- Collecting the elements of a finite sequence ends behind the last one. -/
theorem Finite.eventually_fold (hR : Course R) (h : Finite R w (.seq s)) (acc : Array Value) :
    ∃ items v, Eventually (fun m k => s.foldWithin (.ofBudget m)
        (fun (acc : Array Value) v => return acc.push v) k acc) w (acc ++ items.toArray) v ∧
      R w v ∧ Seq.Holds v s items := by
  generalize ha : Value.seq s = a at h
  induction h generalizing s acc with
  | atom h => subst ha; cases h
  | @seq w t htakes hhead htail ihhead ihtail =>
    cases ha
    obtain ⟨o, v, hstep, hwv⟩ := htakes w (hR.refl w)
    obtain ⟨n, huncons⟩ := hstep.uncons
    rcases o with _ | ⟨x, t⟩
    · refine ⟨[], v, ⟨n + 1, fun m k hm hk => ?_⟩, hwv, .nil (hstep.again (.refl v))⟩
      obtain ⟨k, rfl⟩ := Nat.exists_eq_add_of_le' (Nat.le_trans (Nat.succ_pos n) hk)
      rw [Array.append_empty]
      exact run_bind_ok (huncons m (by omega)) _
    · obtain ⟨items, u, ⟨n', hmore⟩, hvu, hholds⟩ :=
        ihtail w x t v (hR.refl w) hstep (acc.push x) rfl
      refine ⟨x :: items, u, ⟨max n n' + 1, fun m k hm hk => ?_⟩, hR.trans hwv hvu,
        .cons (hstep.again (hR.later hvu)) hholds⟩
      obtain ⟨k, rfl⟩ := Nat.exists_eq_add_of_le' (Nat.le_trans (Nat.succ_pos _) hk)
      have hpush : acc.push x ++ items.toArray = acc ++ (x :: items).toArray := by
        apply Array.toList_inj.1
        simp
      rw [← hpush, ← hmore m k (by omega) (by omega)]
      exact run_bind_ok (huncons m (by omega)) _
  | _ => cases ha

variable (hR : QuietCourse R)
include hR

theorem Finite.comesTo_seqOrNil (h : Finite R w (.seq s)) :
    ∃ o v, Seq.Takes w.muted s o v ∧ R w v.muted ∧
      ComesTo (fun n => (Core.seqOrNil (.ofBudget n) s).muted) w
        (.ok (if o.isNone then .nil else .seq s) v.muted) := by
  have hmuted : R w w.muted := hR.quiet rfl
  obtain ⟨o, v, hstep, hwv⟩ := (h.along hR.toCourse hmuted).takes hR.toCourse
  obtain ⟨n, hempty⟩ := hstep.isEmpty
  refine ⟨o, v, hstep, hR.trans hmuted (hR.trans hwv (hR.quiet rfl)), ?_⟩
  refine ComesTo.muted (r := .ok _ v) ⟨.ok _ v, n, fun m hm => ?_⟩
  refine (run_bind_ok (hempty m hm) _).trans ?_
  cases o <;> rfl

theorem Finite.comesTo_toList (h : Finite R w (.seq s)) :
    ∃ items v, Seq.Holds v s items ∧ R w v ∧
      ComesTo (fun n => (s.toList (.ofBudget n)).muted) w (.ok items v) := by
  have hmuted : R w w.muted := hR.quiet rfl
  obtain ⟨items, v, ⟨n, hn⟩, hwv, hholds⟩ :=
    (h.along hR.toCourse hmuted).eventually_fold hR.toCourse #[]
  have hquiet : R v v.muted := hR.quiet rfl
  refine ⟨items, v.muted, hholds.again (hR.later hquiet), hR.trans hmuted (hR.trans hwv hquiet), ?_⟩
  refine ComesTo.muted (r := .ok items v) ⟨.ok _ v, n, fun m hm => ?_⟩
  refine (run_bind_ok (hn m m hm hm) _).trans ?_
  rw [Array.empty_append]
  rfl

end

/-! Values that stand for the same. -/

/-- Both stand for the same data, if for any. -/
def SameData (w : World) (a b : Value) : Prop := ∀ d, Denotes w a d ↔ Denotes w b d

section
variable {w : World} {xs ys : List Value}

theorem SameData.forall₂ (h : List.Forall₂ (SameData w) xs ys) (ds : List Value) :
    List.Forall₂ (Denotes w) xs ds ↔ List.Forall₂ (Denotes w) ys ds := by
  induction h generalizing ds with
  | nil => exact Iff.rfl
  | cons hxy _ ih =>
    cases ds with
    | nil => simp only [List.forall₂_nil_right_iff, reduceCtorEq]
    | cons d ds => rw [List.forall₂_cons, List.forall₂_cons, hxy d, ih ds]

theorem SameData.vector (h : List.Forall₂ (SameData w) xs ys) :
    SameData w (.vector xs) (.vector ys) := by
  intro d
  simp only [denotes_vector, SameData.forall₂ h]

theorem SameData.seq {s t : Seq} (hs : Seq.Holds w s xs) (ht : Seq.Holds w t ys)
    (h : List.Forall₂ (SameData w) xs ys) : SameData w (.seq s) (.seq t) := by
  have hholds : ∀ {s xs d}, Seq.Holds w s xs →
      (Denotes w (.seq s) d ↔ ∃ ds, d = .list ds ∧ List.Forall₂ (Denotes w) xs ds) := by
    intro s xs d hs
    rw [denotes_seq]
    constructor
    · rintro ⟨xs', ds, hs', rfl, hds⟩
      rw [hs.unique hs']
      exact ⟨ds, rfl, hds⟩
    · rintro ⟨ds, rfl, hds⟩
      exact ⟨xs, ds, hs, rfl, hds⟩
  intro d
  simp only [hholds hs, hholds ht, SameData.forall₂ h]

end

/-- Finite values that stand for the same are equal. -/
theorem Finite.compares_of_sameData {R : World → World → Prop} (hR : Course R) {w : World}
    {a b : Value} (ha : Finite R w a) (hb : Finite R w b) (h : ∀ v, R w v → SameData v a b) :
    ∃ u, Compares w a b (.ok true u) ∧ R w u := by
  obtain ⟨r, u, hends, hwu, hright⟩ := (ha.agree hR w (hR.refl w) b hb).1
  obtain ⟨v, d, huv, hd⟩ := ha.exists_denotes hR u hwu
  have hr := hright v huv d d hd ((h v (hR.trans hwu huv) d).1 hd)
  rw [hd.tidy.alike_self] at hr
  exact ⟨u, Compares.iff_eventually.2 (hr ▸ hends), hwu⟩

end Value

namespace Template
open Value

/-! What a filled template shows. -/

mutual

/-- The template with the values in its holes, where the spliced ones have been walked. A list of
which nothing is left is `nil`. -/
inductive Shows (w : World) : Template → Value → Prop
  | literal (v : Value) : Shows w (.literal v) v
  | symbol (s : Symbol) : Shows w (.symbol s) (.symbol s)
  | special (f : SpecialForm) : Shows w (.special f) (.special f)
  | unquote (v : Value) : Shows w (.unquote v) v
  | list {parts : List Template} {xs : List Value} (h : ShowsAll w parts xs)
      (hsome : parts = [] ∨ xs ≠ []) : Shows w (.list parts) (.list xs)
  | none {parts : List Template} (h : ShowsAll w parts []) (hsome : parts ≠ []) :
      Shows w (.list parts) .nil
  | vector {parts : List Template} {xs : List Value} (h : ShowsAll w parts xs) :
      Shows w (.vector parts) (.vector xs)

/-- The elements of the parts in order. -/
inductive ShowsAll (w : World) : List Template → List Value → Prop
  | nil : ShowsAll w [] []
  | one {p : Template} {ps : List Template} {x : Value} {xs : List Value} (h : Shows w p x)
      (hs : ShowsAll w ps xs) : ShowsAll w (p :: ps) (x :: xs)
  | spliced {v : Value} {s : Seq} {ps : List Template} {xs ys : List Value}
      (hv : v.toSeq? = some s) (h : Seq.Holds w s xs) (hs : ShowsAll w ps ys) :
      ShowsAll w (.splice v :: ps) (xs ++ ys)

end

mutual

theorem Shows.again {w v : World} {f : Template} {x : Value} (h : Shows w f x) (hwv : Later w v) :
    Shows v f x := by
  cases h with
  | literal x => exact .literal x
  | symbol s => exact .symbol s
  | special f => exact .special f
  | unquote x => exact .unquote x
  | list h hsome => exact .list (h.again hwv) hsome
  | none h hsome => exact .none (h.again hwv) hsome
  | vector h => exact .vector (h.again hwv)

theorem ShowsAll.again {w v : World} {fs : List Template} {xs : List Value} (h : ShowsAll w fs xs)
    (hwv : Later w v) : ShowsAll v fs xs := by
  cases h with
  | nil => exact .nil
  | one h hs => exact .one (h.again hwv) (hs.again hwv)
  | spliced hv h hs => exact .spliced hv (h.again hwv) (hs.again hwv)

end

/-! Holes that yield finite values. -/

/-- Evaluated in this state, the code yields the value. -/
def Gets (scope : Scope) (code : Value) (w : World) (v : Value) (u : World) : Prop :=
  ComesTo (fun n => ((Engine.ofBudget n).value scope code).muted) w (.ok v u)

mutual

/-- The holes yield values with finite sequences, each evaluated in the state that the parts in
front of it leave. -/
def Delivers (R : World → World → Prop) (scope : Scope) : Template → World → Prop
  | unquote code, w | splice code, w => ∃ v u, Gets scope code w v u ∧ R w u ∧ Finite R u v
  | list parts, w => DeliversAll R scope parts w
  | vector parts, w => DeliversAll R scope parts w
  | _, _ => True

def DeliversAll (R : World → World → Prop) (scope : Scope) : List Template → World → Prop
  | [], _ => True
  | p :: ps, w => p.Delivers R scope w ∧
      ∀ r u, ComesTo (fun n => p.fill (.ofBudget n) scope) w (.ok r u) → DeliversAll R scope ps u

end

/-- The value is as good as what the filled template shows. -/
structure Shown (R : World → World → Prop) (w : World) (f : Template) (v : Value) : Prop where
  finite : Finite R w v
  shows : ∀ u, R w u → ∃ z x, R u z ∧ Shows z f x
  same : ∀ u x, R w u → Shows u f x → Finite R u x ∧ SameData u v x

/-- The sequences hold what the filled parts show. -/
structure ShownAll (R : World → World → Prop) (w : World) (fs : List Template) (ss : List Seq) :
    Prop where
  finite : ∀ s ∈ ss, Finite R w (.seq s)
  shows : ∀ u, R w u → ∃ z xs, R u z ∧ ShowsAll z fs xs
  same : ∀ u xs, R w u → ShowsAll u fs xs → (∀ x ∈ xs, Finite R u x) ∧
    ∃ yss, List.Forall₂ (Seq.Holds u) ss yss ∧ List.Forall₂ (SameData u) yss.flatten xs

section
variable {R : World → World → Prop} {w u : World} {f : Template} {fs : List Template} {v : Value}
  {ss : List Seq}

theorem Shown.of_unique (hR : Course R) (hv : Finite R w v) (hshows : ∀ u, Shows u f v)
    (hunique : ∀ u x, Shows u f x → x = v) : Shown R w f v := by
  refine ⟨hv, fun u _ => ⟨u, v, hR.refl u, hshows u⟩, fun u x hwu hx => ?_⟩
  obtain rfl := hunique u x hx
  exact ⟨hv.along hR hwu, fun _ => Iff.rfl⟩

theorem Shown.along (hR : Course R) (h : Shown R w f v) (hwu : R w u) : Shown R u f v :=
  ⟨h.finite.along hR hwu, fun z hz => h.shows z (hR.trans hwu hz),
    fun z x hz => h.same z x (hR.trans hwu hz)⟩

theorem Shown.contribution (hR : Course R) (h : Shown R w f v) : f.contribution v = .list [v] := by
  obtain ⟨z, x, -, hx⟩ := h.shows w (hR.refl w)
  cases hx <;> rfl

/-- The value is equal to what the template shows, whenever the two are compared. -/
theorem Shown.compares (hR : Course R) (h : Shown R w f v) {x : Value} (hwu : R w u)
    (hx : Shows u f x) : ∃ z, Compares u v x (.ok true z) ∧ R u z := by
  refine (h.finite.along hR hwu).compares_of_sameData hR (h.same u x hwu hx).1 fun z huz => ?_
  exact (h.same z x (hR.trans hwu huz) (hx.again (hR.later huz))).2

theorem ShownAll.nil (hR : Course R) : ShownAll R w [] [] := by
  refine ⟨List.forall_mem_nil _, fun u _ => ⟨u, [], hR.refl u, .nil⟩, fun u xs _ hxs => ?_⟩
  cases hxs
  exact ⟨List.forall_mem_nil _, [], .nil, .nil⟩

/-- A part that is one element. -/
theorem ShownAll.one (hR : Course R) (h : Shown R w f v) (hs : ShownAll R w fs ss) :
    ShownAll R w (f :: fs) (.ofList [v] :: ss) := by
  refine ⟨List.forall_mem_cons.2 ⟨?_, hs.finite⟩, fun u hwu => ?_, fun u xs hwu hxs => ?_⟩
  · refine .of_holds hR (.ofList w [v]) ?_
    exact List.forall_mem_cons.2 ⟨h.finite, List.forall_mem_nil _⟩
  · obtain ⟨z, x, huz, hx⟩ := h.shows u hwu
    obtain ⟨z', xs, hzz, hxs⟩ := hs.shows z (hR.trans hwu huz)
    exact ⟨z', x :: xs, hR.trans huz hzz, .one (hx.again (hR.later hzz)) hxs⟩
  · cases hxs with
    | one hx hxs =>
      obtain ⟨hfinite, hsame⟩ := h.same u _ hwu hx
      obtain ⟨hfinites, yss, hholds, hsames⟩ := hs.same u _ hwu hxs
      exact ⟨List.forall_mem_cons.2 ⟨hfinite, hfinites⟩, [v] :: yss, .cons (.ofList u [v]) hholds,
        .cons hsame hsames⟩
    | spliced =>
      obtain ⟨z, x, -, hx⟩ := h.shows w (hR.refl w)
      cases hx

/-- A part that is a collection of elements. -/
theorem ShownAll.spliced (hR : Course R) {s : Seq} (hv : Finite R w v) (htoSeq : v.toSeq? = some s)
    (hs : ShownAll R w fs ss) : ShownAll R w (.splice v :: fs) (s :: ss) := by
  have hfinite := hv.toSeq hR htoSeq
  refine ⟨List.forall_mem_cons.2 ⟨hfinite, hs.finite⟩, fun u hwu => ?_, fun u xs hwu hxs => ?_⟩
  · obtain ⟨z, d, huz, hd⟩ := hfinite.exists_denotes hR u hwu
    obtain ⟨ys, _, hholds, -, -⟩ := denotes_seq.1 hd
    obtain ⟨z', xs, hzz, hxs⟩ := hs.shows z (hR.trans hwu huz)
    exact ⟨z', ys ++ xs, hR.trans huz hzz, .spliced htoSeq (hholds.again (hR.later hzz)) hxs⟩
  · cases hxs with
    | one hx => cases hx
    | @spliced _ s' _ ys xs htoSeq' hholds hxs =>
      obtain rfl : s = s' := Option.some.inj (htoSeq.symm.trans htoSeq')
      obtain ⟨hfinites, yss, hholdss, hsames⟩ := hs.same u _ hwu hxs
      refine ⟨List.forall_mem_append.2 ⟨?_, hfinites⟩, ys :: yss, .cons hholds hholdss, ?_⟩
      · exact Finite.of_mem_holds hR hholds (hfinite.along hR hwu)
      · exact List.rel_append (List.forall₂_same.2 fun _ _ _ => Iff.rfl) hsames

/-- The concatenation holds what the parts show. -/
theorem ShownAll.concat (h : ShownAll R w fs ss) {xs : List Value} (hwu : R w u)
    (hxs : ShowsAll u fs xs) :
    ∃ ys, Seq.Holds u (.concat .empty ss) ys ∧ List.Forall₂ (SameData u) ys xs := by
  obtain ⟨-, yss, hholds, hsame⟩ := h.same u xs hwu hxs
  exact ⟨yss.flatten, .concat (.nil (.empty u)) hholds, hsame⟩

theorem ShownAll.finite_concat (hR : Course R) (h : ShownAll R w fs ss) :
    Finite R w (.seq (.concat .empty ss)) :=
  .concat hR (.of_holds hR (.nil (.empty w)) (List.forall_mem_nil _)) h.finite

theorem ShownAll.shows_list (h : ShownAll R w fs ss) (hwu : R w u) :
    ∃ z x, R u z ∧ Shows z (.list fs) x := by
  obtain ⟨z, xs, huz, hxs⟩ := h.shows u hwu
  by_cases hsome : fs = [] ∨ xs ≠ []
  · exact ⟨z, _, huz, .list hxs hsome⟩
  · obtain ⟨hne, hnone⟩ := not_or.1 hsome
    obtain rfl := not_not.1 hnone
    exact ⟨z, _, huz, .none hxs hne⟩

/-- The list of the elements, of which there may be none. -/
theorem ShownAll.list (hR : QuietCourse R) (h : ShownAll R w fs ss) (hne : fs ≠ []) :
    ∃ v u, R w u ∧ Shown R u (.list fs) v ∧
      ComesTo (fun n => (Core.seqOrNil (.ofBudget n) (.concat .empty ss)).muted) w (.ok v u) := by
  have hfinite := h.finite_concat hR.toCourse
  obtain ⟨o, v, hstep, hwv, hruns⟩ := hfinite.comesTo_seqOrNil hR
  have hquiet : R v v.muted := hR.quiet rfl
  have hholds : ∀ {u ys}, R v.muted u → Seq.Holds u (.concat .empty ss) ys → (o = none ↔ ys = []) := by
    intro u ys hvu hys
    have hlater : Later v u := hR.later (hR.trans hquiet hvu)
    cases hys with
    | nil hnil => simp only [hstep.eq_of_later hlater hnil]
    | cons hcons => simp only [hstep.eq_of_later hlater hcons, reduceCtorEq]
  refine ⟨_, _, hwv, ⟨?_, fun u hvu => h.shows_list (hR.trans hwv hvu), ?_⟩, hruns⟩
  · split
    · exact .atom rfl
    · exact hfinite.along hR.toCourse hwv
  · intro u x hvu hx
    cases hx with
    | none hxs hne =>
      obtain ⟨ys, hys, hsame⟩ := h.concat (hR.trans hwv hvu) hxs
      cases hsame
      rw [(hholds hvu hys).2 rfl]
      exact ⟨.atom rfl, fun _ => Iff.rfl⟩
    | @list _ xs hxs hsome =>
      obtain ⟨ys, hys, hsame⟩ := h.concat (hR.trans hwv hvu) hxs
      have hys' : ys ≠ [] := by
        rintro rfl
        cases hsame
        exact hsome.elim hne (· rfl)
      have ho : ¬ o.isNone := fun ho => hys' ((hholds hvu hys).1 (Option.isNone_iff_eq_none.1 ho))
      rw [if_neg ho]
      refine ⟨.of_holds hR.toCourse (.ofList u xs) (h.same u xs (hR.trans hwv hvu) hxs).1, ?_⟩
      exact .seq hys (.ofList u xs) hsame

theorem ShownAll.vector (hR : QuietCourse R) (h : ShownAll R w fs ss) :
    ∃ items u, R w u ∧ Shown R u (.vector fs) (.vector items) ∧
      ComesTo (fun n => ((Seq.concat .empty ss).toList (.ofBudget n)).muted) w (.ok items u) := by
  have hfinite := h.finite_concat hR.toCourse
  obtain ⟨items, v, hitems, hwv, hruns⟩ := hfinite.comesTo_toList hR
  refine ⟨items, v, hwv, ⟨.vector ?_, fun u hvu => ?_, fun u x hvu hx => ?_⟩, hruns⟩
  · exact Finite.of_mem_holds hR.toCourse hitems (hfinite.along hR.toCourse hwv)
  · obtain ⟨z, xs, huz, hxs⟩ := h.shows u (hR.trans hwv hvu)
    exact ⟨z, _, huz, .vector hxs⟩
  · cases hx with
    | @vector _ xs hxs =>
      obtain ⟨ys, hys, hsame⟩ := h.concat (hR.trans hwv hvu) hxs
      obtain rfl := (hitems.again (hR.later hvu)).unique hys
      exact ⟨.vector (h.same u xs (hR.trans hwv hvu) hxs).1, .vector hsame⟩

end

/-! Filling a template whose holes yield finite values. -/

mutual

/-- The spliced code, from left to right. -/
def splices : Template → List Value
  | splice code => [code]
  | list parts => splicesAll parts
  | vector parts => splicesAll parts
  | _ => []

def splicesAll : List Template → List Value
  | [] => []
  | p :: ps => p.splices ++ splicesAll ps

end

/-- The error of spliced code that yields no collection. -/
def Refuses (R : World → World → Prop) (scope : Scope) (w : World) (codes : List Value)
    (err : EvalError) : Prop :=
  ∃ code ∈ codes, ∃ v x u, R w v ∧ Gets scope code v x u ∧ x.toSeq? = none ∧
    err = .invalidArgument "concat" ("expected a collection, got " ++ x.typeName)

/-- What became of a part on the way from one state to another. -/
inductive Filled (R : World → World → Prop) (scope : Scope) (w u : World) :
    Template → Template → Value → Prop
  | spliced {code x : Value} {v v' : World} (hwv : R w v) (h : Gets scope code v x v')
      (hx : Finite R u x) : Filled R scope w u (.splice code) (.splice x) x
  | shown {p f : Template} {x : Value} (h : Shown R u f x) : Filled R scope w u p f x

section
variable {R : World → World → Prop} {scope : Scope} {w v u : World}

theorem Refuses.weaken (hR : Course R) {codes codes' : List Value} {err : EvalError}
    (h : Refuses R scope v codes err) (hwv : R w v) (hcodes : codes ⊆ codes') :
    Refuses R scope w codes' err := by
  obtain ⟨code, hcode, z, x, z', hvz, hgets, hx, herr⟩ := h
  exact ⟨code, hcodes hcode, z, x, z', hR.trans hwv hvz, hgets, hx, herr⟩

theorem Filled.along (hR : Course R) {z : World} {p f : Template} {x : Value}
    (h : Filled R scope v u p f x) (hwv : R w v) (huz : R u z) : Filled R scope w z p f x := by
  cases h with
  | spliced hvz hgets hx => exact .spliced (hR.trans hwv hvz) hgets (hx.along hR huz)
  | shown h => exact .shown (h.along hR huz)

/-- A part contributes its elements unless it is spliced and no collection. -/
theorem Filled.seqOf (hR : Course R) {p f : Template} {x : Value} (h : Filled R scope w u p f x) :
    (∃ s, Core.seqOf "concat" (f.contribution x) = pure s ∧
      ∀ fs ss, ShownAll R u fs ss → ShownAll R u (f :: fs) (s :: ss)) ∨
    ∃ err, Core.seqOf "concat" (f.contribution x) = fail err ∧ Refuses R scope w p.splices err := by
  cases h with
  | spliced hwv hgets hx =>
    simp only [contribution, Core.seqOf]
    cases hseq : x.toSeq? with
    | none => exact .inr ⟨_, rfl, _, List.mem_cons_self, _, x, _, hwv, hgets, hseq, rfl⟩
    | some s => exact .inl ⟨s, rfl, fun fs ss hss => hss.spliced hR hx hseq⟩
  | shown hf =>
    rw [hf.contribution hR]
    exact .inl ⟨.ofList [x], rfl, fun fs ss hss => hss.one hR hf⟩

/-- The parts are joined unless one of them is no collection. -/
theorem joined_filled (hR : Course R) {ps : List Template} {rs : List (Template × Value)}
    (h : List.Forall₂ (fun p r => Filled R scope w u p r.1 r.2) ps rs) :
    (∃ ss, joined (rs.map fun r => r.1.contribution r.2) = pure (.concat .empty ss) ∧
      ShownAll R u (rs.map (·.1)) ss) ∨
    ∃ err, joined (rs.map fun r => r.1.contribution r.2) = fail err ∧
      Refuses R scope w (splicesAll ps) err := by
  have hparts : (∃ ss, (rs.map fun r => r.1.contribution r.2).mapM (Core.seqOf "concat") = pure ss ∧
      ShownAll R u (rs.map (·.1)) ss) ∨
      ∃ err, (rs.map fun r => r.1.contribution r.2).mapM (Core.seqOf "concat") = fail err ∧
        Refuses R scope w (splicesAll ps) err := by
    induction h with
    | nil => exact .inl ⟨[], rfl, .nil hR⟩
    | @cons p r ps rs hr _ ih =>
      rw [List.map_cons, List.mapM_cons]
      rcases hr.seqOf hR with ⟨s, hfirst, hs⟩ | ⟨err, hfirst, hrefuses⟩
      · rcases ih with ⟨ss, hrest, hss⟩ | ⟨err, hrest, hrefuses⟩
        · exact .inl ⟨s :: ss, by rw [hfirst, hrest]; rfl, hs _ _ hss⟩
        · refine .inr ⟨err, by rw [hfirst, hrest]; rfl, hrefuses.weaken hR (hR.refl w) ?_⟩
          exact List.subset_append_right _ _
      · refine .inr ⟨err, by rw [hfirst]; rfl, hrefuses.weaken hR (hR.refl w) ?_⟩
        exact List.subset_append_left _ _
  rw [joined]
  rcases hparts with ⟨ss, hrun, hss⟩ | ⟨err, hrun, hrefuses⟩
  · exact .inl ⟨ss, by rw [hrun]; rfl, hss⟩
  · exact .inr ⟨err, by rw [hrun]; rfl, hrefuses⟩

/-- Listing filled parts. -/
theorem listed_filled (hR : QuietCourse R) {ps : List Template} {rs : List (Template × Value)}
    (h : List.Forall₂ (fun p r => Filled R scope w u p r.1 r.2) ps rs) :
    (∃ x v, ComesTo (fun n => listed (.ofBudget n) (rs.map fun r => r.1.contribution r.2)) u
        (.ok x v) ∧ R u v ∧ Shown R v (.list (rs.map (·.1))) x) ∨
    ∃ err, ComesTo (fun n => listed (.ofBudget n) (rs.map fun r => r.1.contribution r.2)) u
        (.error (.error err) u) ∧ Refuses R scope w (splicesAll ps) err := by
  by_cases hne : rs = []
  · subst hne
    refine .inl ⟨.list [], u, .pure _ u, hR.refl u, .of_unique hR.toCourse ?_ ?_ ?_⟩
    · exact .of_holds hR.toCourse (.ofList u []) (List.forall_mem_nil _)
    · exact fun v => .list .nil (.inl rfl)
    · intro v x hx
      cases hx with
      | list hxs =>
        cases hxs
        rfl
      | none _ hsome => exact absurd rfl hsome
  · have hlisted : ∀ n, listed (.ofBudget n) (rs.map fun r => r.1.contribution r.2) = (do
        let s ← joined (rs.map fun r => r.1.contribution r.2)
        (Core.seqOrNil (.ofBudget n) s).muted) := by
      intro n
      rw [listed, if_neg]
      rwa [List.isEmpty_iff, List.map_eq_nil_iff]
    simp only [hlisted]
    rcases joined_filled hR.toCourse h with ⟨ss, hrun, hss⟩ | ⟨err, hrun, hrefuses⟩
    · obtain ⟨x, v, huv, hshown, hcomes⟩ := hss.list hR (mt List.map_eq_nil_iff.1 hne)
      simp only [hrun, pure_bind]
      exact .inl ⟨x, v, hcomes, huv, hshown⟩
    · refine .inr ⟨err, .always (.error err u) fun n => ?_, hrefuses⟩
      rw [hrun]
      rfl

/-- Making a vector of filled parts. -/
theorem vectored_filled (hR : QuietCourse R) {ps : List Template} {rs : List (Template × Value)}
    (h : List.Forall₂ (fun p r => Filled R scope w u p r.1 r.2) ps rs) :
    (∃ x v, ComesTo (fun n => vectored (.ofBudget n) (rs.map fun r => r.1.contribution r.2)) u
        (.ok x v) ∧ R u v ∧ Shown R v (.vector (rs.map (·.1))) x) ∨
    ∃ err, ComesTo (fun n => vectored (.ofBudget n) (rs.map fun r => r.1.contribution r.2)) u
        (.error (.error err) u) ∧ Refuses R scope w (splicesAll ps) err := by
  simp only [vectored]
  rcases joined_filled hR.toCourse h with ⟨ss, hrun, hss⟩ | ⟨err, hrun, hrefuses⟩
  · obtain ⟨items, v, huv, hshown, hcomes⟩ := hss.vector hR
    simp only [hrun, pure_bind]
    exact .inl ⟨_, v, hcomes.bind (.pure _ v), huv, hshown⟩
  · refine .inr ⟨err, .always (.error err u) fun n => ?_, hrefuses⟩
    rw [hrun]
    rfl

mutual

/-- Filling a template whose holes yield finite values builds a value as good as what it shows,
unless something is spliced that is no collection. -/
theorem fill_delivers (hR : QuietCourse R) (t : Template) {inside : Bool} (hproper : t.Proper inside)
    {w : World} (h : t.Delivers R scope w) :
    (∃ f x u, ComesTo (fun n => t.fill (.ofBudget n) scope) w (.ok (f, x) u) ∧ R w u ∧
      f.shape = t.shape ∧ Filled R scope w u t f x) ∨
    ∃ err u, ComesTo (fun n => t.fill (.ofBudget n) scope) w (.error (.error err) u) ∧
      Refuses R scope w t.splices err := by
  cases t with
  | literal v =>
    refine .inl ⟨.literal v, v, w, .pure _ w, hR.refl w, rfl, .shown (.of_unique hR.toCourse ?_ ?_ ?_)⟩
    · refine .atom ?_
      cases v <;> first | rfl | cases hproper
    · exact fun _ => .literal v
    · rintro u x ⟨⟩
      rfl
  | symbol s =>
    refine .inl ⟨.symbol s, _, w, .pure _ w, hR.refl w, rfl, .shown (.of_unique hR.toCourse ?_ ?_ ?_)⟩
    · exact .atom rfl
    · exact fun _ => .symbol s
    · rintro u x ⟨⟩
      rfl
  | special f =>
    refine .inl ⟨.special f, _, w, .pure _ w, hR.refl w, rfl, .shown (.of_unique hR.toCourse ?_ ?_ ?_)⟩
    · exact .atom rfl
    · exact fun _ => .special f
    · rintro u x ⟨⟩
      rfl
  | unquote code =>
    obtain ⟨x, u, hgets, hwu, hx⟩ := h
    refine .inl ⟨.unquote x, x, u, ?_, hwu, rfl, .shown (.of_unique hR.toCourse hx ?_ ?_)⟩
    · exact ComesTo.bind hgets (.pure _ u)
    · exact fun _ => .unquote x
    · rintro v y ⟨⟩
      rfl
  | splice code =>
    obtain ⟨x, u, hgets, hwu, hx⟩ := h
    refine .inl ⟨.splice x, x, u, ?_, hwu, rfl, .spliced (hR.refl w) hgets hx⟩
    exact ComesTo.bind hgets (.pure _ u)
  | list parts =>
    rcases fillAll_delivers hR parts hproper h with
      ⟨rs, u, hparts, hwu, hshape, hfilled⟩ | ⟨err, u, hparts, hrefuses⟩
    · rcases listed_filled hR hfilled with ⟨x, v, hlisted, huv, hshown⟩ | ⟨err, hlisted, hrefuses⟩
      · refine .inl ⟨.list (rs.map (·.1)), x, v, ?_, hR.trans hwu huv, congrArg list hshape,
          .shown hshown⟩
        exact hparts.bind (hlisted.bind (.pure _ v))
      · exact .inr ⟨err, u, hparts.bind hlisted.bind_error, hrefuses⟩
    · exact .inr ⟨err, u, hparts.bind_error, hrefuses⟩
  | vector parts =>
    rcases fillAll_delivers hR parts hproper h with
      ⟨rs, u, hparts, hwu, hshape, hfilled⟩ | ⟨err, u, hparts, hrefuses⟩
    · rcases vectored_filled hR hfilled with ⟨x, v, hvector, huv, hshown⟩ | ⟨err, hvector, hrefuses⟩
      · refine .inl ⟨.vector (rs.map (·.1)), x, v, ?_, hR.trans hwu huv, congrArg vector hshape,
          .shown hshown⟩
        exact hparts.bind (hvector.bind (.pure _ v))
      · exact .inr ⟨err, u, hparts.bind hvector.bind_error, hrefuses⟩
    · exact .inr ⟨err, u, hparts.bind_error, hrefuses⟩

theorem fillAll_delivers (hR : QuietCourse R) (ps : List Template) (hproper : ProperAll ps)
    {w : World} (h : DeliversAll R scope ps w) :
    (∃ rs u, ComesTo (fun n => fillAll (.ofBudget n) scope ps) w (.ok rs u) ∧ R w u ∧
      blankAll id (rs.map (·.1)) = blankAll id ps ∧
      List.Forall₂ (fun p r => Filled R scope w u p r.1 r.2) ps rs) ∨
    ∃ err u, ComesTo (fun n => fillAll (.ofBudget n) scope ps) w (.error (.error err) u) ∧
      Refuses R scope w (splicesAll ps) err := by
  cases ps with
  | nil => exact .inl ⟨[], w, .pure _ w, hR.refl w, rfl, .nil⟩
  | cons p ps =>
    obtain ⟨hp, hps⟩ := h
    rcases fill_delivers hR p hproper.1 hp with
      ⟨f, x, v, hfirst, hwv, hshape, hfilled⟩ | ⟨err, v, hfirst, hrefuses⟩
    · rcases fillAll_delivers hR ps hproper.2 (hps _ v hfirst) with
        ⟨rs, u, hrest, hvu, hshapes, hfilleds⟩ | ⟨err, u, hrest, hrefuses⟩
      · refine .inl ⟨(f, x) :: rs, u, ?_, hR.trans hwv hvu, ?_, .cons ?_ ?_⟩
        · exact hfirst.bind (hrest.bind (.pure _ u))
        · exact congrArg₂ List.cons hshape hshapes
        · exact hfilled.along hR.toCourse (hR.refl w) hvu
        · exact hfilleds.imp fun _ _ h => h.along hR.toCourse hwv (hR.refl u)
      · refine .inr ⟨err, u, hfirst.bind hrest.bind_error, hrefuses.weaken hR.toCourse hwv ?_⟩
        exact List.subset_append_right _ _
    · refine .inr ⟨err, v, hfirst.bind_error, hrefuses.weaken hR.toCourse (hR.refl w) ?_⟩
      exact List.subset_append_left _ _

end

end

end Template
end LazyLisp
