import LazyLisp.Proofs.Digests

/-!
Equality of finite values is an equivalence that hashing respects. Comparing and hashing realize
lazy parts as they go, so the questions are asked one after the other, each in the state that the
one before it left. All answers are those of one equivalence: no question fails, and whatever was
asked in whatever order, equal values feed a hasher the same.
-/

namespace LazyLisp
set_option autoImplicit false

namespace Value

/-- What can be asked of values. -/
inductive Question
  | equal (a b : Value)
  | hash (v : Value)

inductive Answer
  | equal (r : Bool)
  | hash (fed : List Feed)

namespace Question

def ask (digest : List Feed → UInt64) (e : Engine) : Question → Eval Answer
  | equal a b => return .equal (← a.equal e b)
  | hash v => return .hash (← v.feed digest e)

/-- The values that are asked about. -/
def about : Question → List Value
  | equal a b => [a, b]
  | hash v => [v]

end Question

/-- The elements of a vector or of a walked sequence. -/
inductive Elements (w : World) : Value → List Value → Prop
  | vector (items : List Value) : Elements w (.vector items) items
  | seq {s : Seq} {items : List Value} (h : Seq.Holds w s items) : Elements w (.seq s) items

/-- An equivalence of values and what they feed to a hasher, as both are in a state. -/
structure Equivalence (w : World) (vs : List Value) (E : Value → Value → Prop)
    (H : Value → List Feed) : Prop where
  refl : ∀ a ∈ vs, E a a
  symm : ∀ {a b}, E a b → E b a
  trans : ∀ {a b c}, E a b → E b c → E a c
  hash : ∀ {a b}, E a b → H a = H b
  /-- Lists, lazy sequences, views and vectors with like elements are equal, and only those. -/
  elements : ∀ {a b xs ys}, a ∈ vs → b ∈ vs → Elements w a xs → Elements w b ys →
    (E a b ↔ List.Forall₂ E xs ys)
  /-- The order of entries does not count. -/
  entries : ∀ {xs ys}, .map xs ∈ vs → .map ys ∈ vs → xs.Perm ys → E (.map xs) (.map ys)

/-- The answer that an equivalence gives. -/
inductive Answers (E : Value → Value → Prop) (H : Value → List Feed) : Question → Answer → Prop
  | equal {a b : Value} {r : Bool} (h : r = true ↔ E a b) : Answers E H (.equal a b) (.equal r)
  | hash (v : Value) : Answers E H (.hash v) (.hash (H v))

/-- The answer to a question by the data of its values. -/
inductive DataAnswer (digest : List Feed → UInt64) (w : World) : Question → Answer → Prop
  | equal {a b da db : Value} (ha : Denotes w a da) (hb : Denotes w b db) :
      DataAnswer digest w (.equal a b) (.equal (da.alike db))
  | hash {v d : Value} (h : Denotes w v d) : DataAnswer digest w (.hash v) (.hash (d.code digest))

section
variable {digest : List Feed → UInt64} {R : World → World → Prop} (hR : Course R) {w : World}
include hR

/-- A question about finite values is answered as their data say. -/
theorem Question.concludes_ask {q : Question} (hq : ∀ v ∈ q.about, Finite R w v) :
    Concludes R w (fun m _ => q.ask digest (.ofBudget m)) fun u ans =>
      ∀ ans', DataAnswer digest u q ans' → ans = ans' := by
  cases q with
  | equal a b =>
    have ha := hq a (by simp [about])
    have hb := hq b (by simp [about])
    obtain ⟨r, v, ⟨n, hn⟩, hwv, hright⟩ := (ha.agree hR w (hR.refl w) b hb).1
    refine ⟨.equal r, v, ⟨n, fun m _ hm _ => ?_⟩, hwv, fun u hu ans hans => ?_⟩
    · exact run_bind_ok (hn m m hm hm) _
    · cases hans with
      | equal hda hdb => rw [hright u hu _ _ hda hdb]
  | hash v =>
    have hv := hq v (by simp [about])
    have hfeeds : Feeds digest R w v := hv.feeds hR w (hR.refl w)
    obtain ⟨ts, u, ⟨n, hn⟩, hwu, hright⟩ := hfeeds
    refine ⟨.hash ts, u, ⟨n, fun m _ hm _ => ?_⟩, hwu, fun z hz ans hans => ?_⟩
    · exact run_bind_ok (hn m m hm hm) _
    · cases hans with
      | hash hd => rw [hright z hz _ hd]

end

/-! The equivalence of the data. -/

/-- Both stand for data, and the data are alike. -/
def DataAlike (w : World) (a b : Value) : Prop :=
  ∃ da db, Denotes w a da ∧ Denotes w b db ∧ da.alike db = true

section
variable {w : World} {a b : Value}

theorem dataAlike_iff {da db : Value} (ha : Denotes w a da) (hb : Denotes w b db) :
    DataAlike w a b ↔ da.alike db = true := by
  constructor
  · rintro ⟨da', db', ha', hb', h⟩
    rwa [ha.unique ha', hb.unique hb']
  · exact fun h => ⟨da, db, ha, hb, h⟩

theorem DataAlike.symm (h : DataAlike w a b) : DataAlike w b a := by
  obtain ⟨da, db, ha, hb, h⟩ := h
  exact ⟨db, da, hb, ha, ha.tidy.steady.symm h⟩

theorem DataAlike.trans {c : Value} (hab : DataAlike w a b) (hbc : DataAlike w b c) :
    DataAlike w a c := by
  obtain ⟨da, db, ha, hb, hab⟩ := hab
  obtain ⟨db', dc, hb', hc, hbc⟩ := hbc
  rw [hb'.unique hb] at hbc
  exact ⟨da, dc, ha, hc, ha.tidy.steady.trans hab hbc⟩

theorem Elements.denotes {xs : List Value} {d : Value} (h : Elements w a xs) (ha : Denotes w a d) :
    ∃ ds, d.elements? = some ds ∧ List.Forall₂ (Denotes w) xs ds := by
  cases h with
  | vector items =>
    obtain ⟨ds, rfl, hds⟩ := denotes_vector.1 ha
    exact ⟨ds, rfl, hds⟩
  | seq hs =>
    obtain ⟨ys, ds, hs', rfl, hds⟩ := denotes_seq.1 ha
    rw [hs.unique hs']
    exact ⟨ds, elements?_list ds, hds⟩

theorem allAlike_iff {xs ys dxs dys : List Value} (hxs : List.Forall₂ (Denotes w) xs dxs)
    (hys : List.Forall₂ (Denotes w) ys dys) :
    allAlike dxs dys = true ↔ List.Forall₂ (DataAlike w) xs ys := by
  induction hxs generalizing ys dys with
  | nil =>
    cases hys with
    | nil => exact ⟨fun _ => .nil, fun _ => rfl⟩
    | cons hy hys => exact ⟨nofun, nofun⟩
  | cons hx hxs ih =>
    cases hys with
    | nil => exact ⟨nofun, nofun⟩
    | cons hy hys =>
      rw [allAlike_cons, List.forall₂_cons, ih hys, dataAlike_iff hx hy]

theorem dataAlike_elements {xs ys : List Value} {da db : Value} (ha : Denotes w a da)
    (hb : Denotes w b db) (hxs : Elements w a xs) (hys : Elements w b ys) :
    DataAlike w a b ↔ List.Forall₂ (DataAlike w) xs ys := by
  obtain ⟨dxs, hda, hdxs⟩ := hxs.denotes ha
  obtain ⟨dys, hdb, hdys⟩ := hys.denotes hb
  rw [dataAlike_iff ha hb, ← allAlike_iff hdxs hdys, alike_of_elements? hda, hdb, Option.any_some]

theorem dataAlike_entries {xs ys : List (Value × Value)} {da db : Value}
    (ha : Denotes w (.map xs) da) (hb : Denotes w (.map ys) db) (h : xs.Perm ys) :
    DataAlike w (.map xs) (.map ys) := by
  rw [dataAlike_iff ha hb]
  obtain ⟨dxs, rfl, hdxs, -⟩ := denotes_map.1 ha
  obtain ⟨dys, rfl, hdys, -⟩ := denotes_map.1 hb
  refine alike_map.2 ⟨dys, rfl, ?_, fun e he => ?_⟩
  · rw [← hdxs.length_eq, ← hdys.length_eq, h.length_eq]
  · -- the entry that this one stands for is on the other side too
    obtain ⟨ps, rfl, rfl, hps⟩ := exists_pairs_iff.2 hdxs
    obtain ⟨p, hp, rfl⟩ := List.mem_map.1 he
    obtain ⟨qs, rfl, rfl, hqs⟩ := exists_pairs_iff.2 hdys
    obtain ⟨q, hq, hsame⟩ := List.mem_map.1 (h.mem_iff.1 (List.mem_map_of_mem hp))
    have hpd := hps p hp
    have hqd := hqs q hq
    rw [hsame] at hqd
    refine ⟨q.2, List.mem_map_of_mem hq, ?_, ?_⟩
    · rw [hpd.1.unique hqd.1]
      exact hqd.1.tidy.alike_self
    · rw [hpd.2.unique hqd.2]
      exact hqd.2.tidy.alike_self

end

theorem equivalence_of_data (digest : List Feed → UInt64) {w : World} {vs : List Value}
    (h : ∀ v ∈ vs, ∃ d, Denotes w v d) :
    ∃ H, Equivalence w vs (DataAlike w) H ∧
      ∀ v d, Denotes w v d → H v = d.code digest := by
  classical
  have hcode : ∀ v, ∃ ts, ∀ d, Denotes w v d → ts = d.code digest := by
    intro v
    by_cases hv : ∃ d, Denotes w v d
    · obtain ⟨d, hd⟩ := hv
      exact ⟨d.code digest, fun d' hd' => by rw [hd.unique hd']⟩
    · exact ⟨[], fun d hd => absurd ⟨d, hd⟩ hv⟩
  choose H hH using hcode
  refine ⟨H, ?_, hH⟩
  constructor
  · intro a ha
    obtain ⟨d, hd⟩ := h a ha
    exact ⟨d, d, hd, hd, hd.tidy.alike_self⟩
  · exact DataAlike.symm
  · exact DataAlike.trans
  · rintro a b ⟨da, db, ha, hb, halike⟩
    rw [hH a da ha, hH b db hb, ha.tidy.code_eq db halike]
  · intro a b xs ys ha hb hxs hys
    obtain ⟨da, hda⟩ := h a ha
    obtain ⟨db, hdb⟩ := h b hb
    exact dataAlike_elements hda hdb hxs hys
  · intro xs ys hxs hys hperm
    obtain ⟨da, hda⟩ := h _ hxs
    obtain ⟨db, hdb⟩ := h _ hys
    exact dataAlike_entries hda hdb hperm

theorem exists_forall₂_of_forall {α β : Type} {R : α → β → Prop} {xs : List α}
    (h : ∀ x ∈ xs, ∃ y, R x y) : ∃ ys, List.Forall₂ R xs ys := by
  induction xs with
  | nil => exact ⟨[], .nil⟩
  | cons x xs ih =>
    obtain ⟨hx, hxs⟩ := List.forall_mem_cons.1 h
    obtain ⟨y, hy⟩ := hx
    obtain ⟨ys, hys⟩ := ih hxs
    exact ⟨y :: ys, .cons hy hys⟩

/-- Questions about finite values, asked in order, are all answered, and the answers are those of
one equivalence that hashing respects. -/
theorem equality_is_an_equivalence (digest : List Feed → UInt64) {R : World → World → Prop}
    (hR : Course R) {w : World} {vs : List Value} (hvs : ∀ v ∈ vs, Finite R w v)
    (questions : List Question) (hquestions : ∀ q ∈ questions, ∀ v ∈ q.about, v ∈ vs) :
    ∃ answers last, (∃ n, ∀ m ≥ n,
        questions.mapM (Question.ask digest (.ofBudget m)) w = .ok answers last) ∧ R w last ∧
      ∃ (ahead : World) (E : Value → Value → Prop) (H : Value → List Feed), R last ahead ∧
        Equivalence ahead vs E H ∧ List.Forall₂ (Answers E H) questions answers := by
  have hask : ∀ q ∈ questions, ∀ v, R w v →
      Concludes R v (fun m _ => q.ask digest (.ofBudget m)) fun u ans =>
        ∀ ans', DataAnswer digest u q ans' → ans = id ans' := by
    intro q hq v hwv
    exact Question.concludes_ask hR fun a ha => (hvs a (hquestions q hq a ha)).along hR hwv
  obtain ⟨answers, last, ⟨n, hn⟩, hlast, hright⟩ :=
    Concludes.mapM hR (c := fun m _ => Question.ask digest (.ofBudget m)) (D := DataAnswer digest)
      (g := id) hask
  -- ahead of the last question, all values can be walked to their ends
  obtain ⟨ahead, ds, hahead, hds⟩ := exists_forall₂ hR (D := Denotes) Denotes.again
    (fun v hv => (hvs v hv).exists_denotes hR) last hlast
  have hdata : ∀ v ∈ vs, ∃ d, Denotes ahead v d := by
    obtain ⟨ps, rfl, -, hps⟩ := exists_pairs_iff.2 hds
    exact List.forall_mem_map.2 fun p hp => ⟨p.2, hps p hp⟩
  obtain ⟨H, hequivalence, hH⟩ := equivalence_of_data digest hdata
  refine ⟨answers, last, ⟨n, fun m hm => hn m m hm hm⟩, hlast, ahead, _, H, hahead, hequivalence, ?_⟩
  have hanswer : ∀ q ∈ questions, ∃ ans, DataAnswer digest ahead q ans ∧
      Answers (DataAlike ahead) H q ans := by
    intro q hq
    cases q with
    | equal a b =>
      obtain ⟨da, hda⟩ := hdata a (hquestions _ hq a (by simp [Question.about]))
      obtain ⟨db, hdb⟩ := hdata b (hquestions _ hq b (by simp [Question.about]))
      exact ⟨_, .equal hda hdb, .equal (dataAlike_iff hda hdb).symm⟩
    | hash v =>
      obtain ⟨d, hd⟩ := hdata v (hquestions _ hq v (by simp [Question.about]))
      exact ⟨_, .hash hd, hH v d hd ▸ .hash v⟩
  obtain ⟨given, hgiven⟩ := exists_forall₂_of_forall hanswer
  have hsame := hright ahead hahead given (hgiven.imp fun _ _ h => h.1)
  rw [hsame, List.map_id]
  exact hgiven.imp fun _ _ h => h.2

/-- The state of `(lazy-seq* (fn [] '(1)))`, before the sequence is walked. -/
def lazyOne : World :=
  { cells := #[.pending (.function 0)]
    closures := #[⟨none, [⟨[], none, [.list [.special .quote, .list [.int 1]]]⟩], none, none⟩] }

/-- The state behind its realization. -/
def lazyOneWalked : World := (Seq.realize (.ofBudget 9) 0).after lazyOne

/-- Nothing else happens ahead. -/
inductive LazyOneAhead : World → World → Prop
  | same (w : World) : LazyOneAhead w w
  | walked : LazyOneAhead lazyOne lazyOneWalked

theorem lazyOne_takes :
    Seq.Takes lazyOne (.lazy 0) (some (.int 1, .empty)) lazyOneWalked := by
  have hpending : lazyOne.cells[0]? = some (.pending (.function 0)) := rfl
  exact .lazy (n := 9) hpending rfl (.cons lazyOneWalked (.int 1) .empty)

theorem lazyOneAhead_course : Course LazyOneAhead where
  refl := .same
  trans hwv hvu := by
    cases hwv with
    | same => exact hvu
    | walked =>
      cases hvu
      exact .walked
  later h := by
    cases h with
    | same => exact .refl _
    | walked => exact lazyOne_takes.later

theorem lazyOne_finite : Finite LazyOneAhead lazyOne (.seq (.lazy 0)) := by
  have hone : ∀ w, Finite LazyOneAhead w (.int 1) := fun w => .atom rfl
  have hempty : ∀ w, Finite LazyOneAhead w (.seq .empty) := fun w =>
    .of_holds lazyOneAhead_course (.nil (.empty w)) (List.forall_mem_nil _)
  have hstep : ∀ v, LazyOneAhead lazyOne v → ∃ u, Seq.Takes v (.lazy 0) (some (.int 1, .empty)) u ∧
      LazyOneAhead v u := by
    intro v hv
    cases hv with
    | same => exact ⟨_, lazyOne_takes, .walked⟩
    | walked => exact ⟨_, lazyOne_takes.again (.refl _), .same _⟩
  refine .seq (fun v hv => ⟨_, hstep v hv⟩) (fun v x t u hv htakes => ?_) fun v x t u hv htakes => ?_
  · obtain ⟨z, hz, -⟩ := hstep v hv
    cases (htakes.unique hz).1
    exact hone u
  · obtain ⟨z, hz, -⟩ := hstep v hv
    cases (htakes.unique hz).1
    exact hempty u

/-- A hasher that counts. -/
def countingDigest (fed : List Feed) : UInt64 := fed.length.toUInt64

/-- The lazy sequence is compared with `[1]`, and then both are hashed. -/
def lazyOneQuestions : List Question :=
  [.equal (.seq (.lazy 0)) (.vector [.int 1]), .hash (.seq (.lazy 0)), .hash (.vector [.int 1])]

theorem equality_is_an_equivalence_lazy :
    Finite LazyOneAhead lazyOne (.seq (.lazy 0)) ∧
    ∃ answers last, (∃ n, ∀ m ≥ n,
        lazyOneQuestions.mapM (Question.ask countingDigest (.ofBudget m)) lazyOne =
          .ok answers last) ∧
      LazyOneAhead lazyOne last := by
  have hfinite : ∀ v ∈ [.seq (.lazy 0), .vector [.int 1]], Finite LazyOneAhead lazyOne v := by
    refine List.forall_mem_cons.2 ⟨lazyOne_finite, List.forall_mem_cons.2 ⟨?_, List.forall_mem_nil _⟩⟩
    exact .vector (List.forall_mem_cons.2 ⟨.atom rfl, List.forall_mem_nil _⟩)
  obtain ⟨answers, last, hask, hlast, -⟩ := equality_is_an_equivalence countingDigest
    lazyOneAhead_course hfinite lazyOneQuestions (by simp [lazyOneQuestions, Question.about])
  exact ⟨lazyOne_finite, answers, last, hask, hlast⟩

end Value
end LazyLisp
