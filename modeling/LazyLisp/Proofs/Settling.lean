import LazyLisp.Proofs.Equivalence

/-!
Keys of maps. A map realizes a key before it looks for it. From then on a finite key stands for
data, so that whether two such keys are equal does not change any more.
-/

namespace LazyLisp
set_option autoImplicit false

namespace Eventually
variable {α : Type} {w v : World} {a : α}

/-- One number can be budget and depth. -/
theorem diagonal {c : Nat → Nat → Eval α} (h : Eventually c w a v) :
    Eventually (fun m _ => c m m) w a v := by
  obtain ⟨n, hn⟩ := h
  exact ⟨n, fun m _ hm _ => hn m m hm hm⟩

theorem of_settleWithin {key : Value} {n k : Nat}
    (h : key.settleWithin (.ofBudget n) k w = .ok () v) :
    Eventually (fun m k => key.settleWithin (.ofBudget m) k) w () v := by
  refine ⟨max n k, fun m l hm hl => ?_⟩
  have hended : Ended (key.settleWithin (.ofBudget n) k w) := h ▸ .ok () v
  have htied := Engine.ofBudget_tied (n := n) (m := m) (by omega)
  exact ((htied.settleWithin (by omega) key).run_eq (Unrelated.intro : Unrelated w w) hended).trans h

end Eventually

namespace Concludes
variable {R : World → World → Prop} {α : Type} {w : World}

theorem diagonal {c : Nat → Nat → Eval α} {p : World → α → Prop} (h : Concludes R w c p) :
    Concludes R w (fun m _ => c m m) p := by
  obtain ⟨a, v, hends, hwv, hright⟩ := h
  exact ⟨a, v, hends.diagonal, hwv, hright⟩

theorem forM (hR : Course R) {c : Nat → Nat → α → Eval Unit} {D : World → α → Prop} {xs : List α}
    (h : ∀ x ∈ xs, ∀ v, R w v → Concludes R v (fun m k => c m k x) fun u _ => D u x) :
    Concludes R w (fun m k => xs.forM (c m k)) fun u _ => ∀ x ∈ xs, D u x := by
  induction xs generalizing w with
  | nil => exact .now hR (fun _ _ => rfl) fun _ _ => List.forall_mem_nil _
  | cons x xs ih =>
    obtain ⟨hx, hxs⟩ := List.forall_mem_cons.1 h
    refine .bind hR (hx w (hR.refl w)) fun _ v hwv hright => ?_
    obtain ⟨_, u, hends, hvu, hrest⟩ := ih fun y hy z hvz => hxs y hy z (hR.trans hwv hvz)
    refine ⟨(), u, hends, hvu, fun z huz => List.forall_mem_cons.2 ⟨?_, hrest z huz⟩⟩
    exact hright z (hR.trans hvu huz)

end Concludes

namespace Value

/-- Realizing the value as a key comes to an end, and the value stands for data then. -/
def Settles (R : World → World → Prop) (w : World) (a : Value) : Prop :=
  Concludes R w (fun m k => a.settleWithin (.ofBudget m) k) fun u _ => ∃ d, Denotes u a d

theorem exists_denotes_vector {w : World} {items : List Value}
    (h : ∀ v ∈ items, ∃ d, Denotes w v d) : ∃ d, Denotes w (.vector items) d := by
  obtain ⟨ds, hds⟩ := exists_forall₂_of_forall h
  exact ⟨_, denotes_vector.2 ⟨ds, rfl, hds⟩⟩

theorem exists_denotes_cons {w : World} {s t : Seq} {x : Value} (hs : Seq.Takes w s (some (x, t)) w)
    (hx : ∃ d, Denotes w x d) (ht : ∃ d, Denotes w (.seq t) d) : ∃ d, Denotes w (.seq s) d := by
  obtain ⟨dx, hdx⟩ := hx
  obtain ⟨dt, hdt⟩ := ht
  obtain ⟨xs, ds, hholds, rfl, hds⟩ := denotes_seq.1 hdt
  exact ⟨_, denotes_seq.2 ⟨x :: xs, dx :: ds, .cons hs hholds, rfl, .cons hdx hds⟩⟩

theorem eventually_settle_nil {w v : World} {s : Seq} (hstep : Seq.Takes w s none v) :
    Eventually (fun m k => (Value.seq s).settleWithin (.ofBudget m) k) w () v := by
  obtain ⟨n, huncons⟩ := hstep.uncons
  refine .of_settleWithin (n := n + 1) (k := 1) ?_
  have hfold : s.foldWithin (.ofBudget (n + 1))
      (fun _ item => item.settleWithin (.ofBudget (n + 1)) 0) (n + 1) () w = .ok () v :=
    run_bind_ok (huncons (n + 1) (by omega)) _
  show (Seq.foldWithin _ _ (n + 1) s ()).orDone w = _
  rw [Eval.orDone, hfold]

theorem eventually_settle_cons {w v u z : World} {s t : Seq} {x : Value}
    (hstep : Seq.Takes w s (some (x, t)) v)
    (hhead : Eventually (fun m k => x.settleWithin (.ofBudget m) k) v () u)
    (htail : Eventually (fun m k => (Value.seq t).settleWithin (.ofBudget m) k) u () z) :
    Eventually (fun m k => (Value.seq s).settleWithin (.ofBudget m) k) w () z := by
  obtain ⟨n₁, huncons⟩ := hstep.uncons
  obtain ⟨n₂, hhead⟩ := hhead
  obtain ⟨n₃, htail⟩ := htail
  let n := max n₁ (max n₂ n₃)
  have hrest : (t.foldWithin (.ofBudget n) (fun _ item => item.settleWithin (.ofBudget n) n)
      n ()).orDone u = .ok () z := htail n (n + 1) (by omega) (by omega)
  -- the rest is realized with one round less
  have hended : Ended ((t.foldWithin (.ofBudget n)
      (fun _ item => item.settleWithin (.ofBudget n) n) n ()).orDone u) := hrest ▸ .ok () z
  have htied := Engine.ofBudget_tied (Nat.le_succ n)
  have hsettle : ∀ item : Value, Paired .same (Unrelated u) (item.settleWithin (.ofBudget n) n)
      (item.settleWithin (.ofBudget (n + 1)) n) := htied.settleWithin (Nat.le_refl n)
  have hmore := (htied.foldWithin (fun _ item => hsettle item) (Nat.le_refl n) t ()).orDone.run_eq
    Unrelated.intro hended
  refine .of_settleWithin (n := n + 1) (k := n + 1) ?_
  have hfold : s.foldWithin (.ofBudget (n + 1))
      (fun _ item => item.settleWithin (.ofBudget (n + 1)) n) (n + 1) () w =
      t.foldWithin (.ofBudget (n + 1)) (fun _ item => item.settleWithin (.ofBudget (n + 1)) n)
        n () u := by
    rw [Seq.foldWithin, run_bind_ok (huncons (n + 1) (by omega))]
    exact run_bind_ok (hhead (n + 1) n (by omega) (by omega)) _
  show (Seq.foldWithin _ _ (n + 1) s ()).orDone w = _
  rw [Eval.orDone, hfold]
  exact hmore.trans hrest

section
variable {R : World → World → Prop} (hR : Course R) {w : World}
include hR

/-- Keys of a finite map that stand for data stand for different data. -/
theorem Finite.exists_denotes_map {entries : List (Value × Value)} (h : Finite R w (.map entries))
    (hentries : ∀ f ∈ entries, ∃ g, EntryDenotes w f g) : ∃ d, Denotes w (.map entries) d := by
  obtain ⟨ds, hds⟩ := exists_forall₂_of_forall hentries
  refine ⟨.map ds, denotes_map.2 ⟨ds, rfl, hds, ?_⟩⟩
  cases h with
  | atom hv => cases hv
  | map hkeys hvalues hdistinct =>
    obtain ⟨ps, rfl, rfl, hps⟩ := exists_pairs_iff.2 hds
    refine List.pairwise_map.2 ((List.pairwise_map.1 (hdistinct w (hR.refl w))).imp_of_mem ?_)
    intro p q hp hq hne
    rw [Bool.eq_false_iff]
    intro halike
    obtain ⟨u, hequal⟩ := (hkeys p.1 (List.mem_map_of_mem hp)).compares_of_alike hR
      (hkeys q.1 (List.mem_map_of_mem hq)) (hps p hp).1 (hps q hq).1 halike
    exact hne u hequal

theorem settles_seq {s : Seq} (hs : ∃ o v, Seq.Takes w s o v ∧ R w v)
    (hnext : ∀ x t v, Seq.Takes w s (some (x, t)) v → R w v →
      Settles R v x ∧ ∀ u, R v u → Settles R u (.seq t)) : Settles R w (.seq s) := by
  obtain ⟨o, v, hstep, hwv⟩ := hs
  rcases o with _ | ⟨x, t⟩
  · refine ⟨(), v, eventually_settle_nil hstep, hwv, fun u hu => ?_⟩
    exact ⟨_, denotes_seq.2 ⟨[], [], .nil (hstep.again (hR.later hu)), rfl, .nil⟩⟩
  · obtain ⟨hhead, htail⟩ := hnext x t v hstep hwv
    obtain ⟨_, u, hhead, hvu, hright⟩ := hhead
    obtain ⟨_, z, htail, huz, hright'⟩ := htail u hvu
    refine ⟨(), z, eventually_settle_cons hstep hhead htail, hR.trans hwv (hR.trans hvu huz),
      fun u' hu' => ?_⟩
    have huu' := hR.trans huz hu'
    exact exists_denotes_cons (hstep.again (hR.later (hR.trans hvu huu'))) (hright u' huu')
      (hright' u' hu')

/-- Finite values can be realized. -/
theorem Finite.settles {a : Value} (ha : Finite R w a) : ∀ v, R w v → Settles R v a := by
  induction ha with
  | @atom w a ha =>
    intro v _
    refine .now hR (a := ()) (fun m k => ?_) fun u _ => ⟨a, .atom ha⟩
    cases a with
    | vector | seq | map | marked => cases ha
    | _ => rfl
  | vector h ih =>
    intro v hwv
    have hitems := Concludes.forM hR (c := fun m k => settleWithin (.ofBudget m) k)
      fun x hx u hu => ih x hx u (hR.trans hwv hu)
    exact hitems.deeper (fun m k => rfl) fun u _ h => exists_denotes_vector h
  | seq htakes hhead htail ihhead ihtail =>
    intro v hwv
    refine settles_seq hR (htakes v hwv) fun x t u hstep hvu => ⟨?_, fun z hz => ?_⟩
    · exact ihhead v x t u hwv hstep u (hR.refl u)
    · exact ihtail v x t u hwv hstep z hz
  | @map w entries hkeys hvalues hdistinct ihkeys ihvalues =>
    intro v hwv
    have hentry : ∀ f ∈ entries, ∀ u, R v u → Concludes R u
        (fun m k => do f.1.settleWithin (.ofBudget m) k; f.2.settleWithin (.ofBudget m) k)
        fun z _ => ∃ g, EntryDenotes z f g := by
      intro f hf u hvu
      refine .bind hR (ihkeys f hf u (hR.trans hwv hvu)) fun _ z huz hkey => ?_
      obtain ⟨_, z', hends, hzz, hvalue⟩ :=
        ihvalues f hf z (hR.trans hwv (hR.trans hvu huz))
      refine ⟨(), z', hends, hzz, fun u' hu' => ?_⟩
      obtain ⟨dk, hdk⟩ := hkey u' (hR.trans hzz hu')
      obtain ⟨dv, hdv⟩ := hvalue u' hu'
      exact ⟨(dk, dv), hdk, hdv⟩
    obtain ⟨_, u, hends, hvu, hright⟩ := Concludes.forM hR (c := fun m k (f : Value × Value) => do
      f.1.settleWithin (.ofBudget m) k; f.2.settleWithin (.ofBudget m) k) hentry
    refine ⟨(), u, hends.deeper fun m k => rfl, hvu, fun z huz => ?_⟩
    have hz := hR.trans hwv (hR.trans hvu huz)
    exact (Finite.along hR (.map hkeys hvalues hdistinct) hz).exists_denotes_map hR
      (hright z huz)
  | marked m h ih =>
    intro v hwv
    refine (ih v hwv).deeper (fun m k => rfl) fun u _ hd => ?_
    obtain ⟨d, hd⟩ := hd
    exact ⟨_, .marked m hd⟩

end

/-- A finite value that has been walked. -/
structure Settled (R : World → World → Prop) (w : World) (a : Value) : Prop where
  finite : Finite R w a
  data : ∃ d, Denotes w a d

/-- The comparison of the values ends, and finds them equal. -/
def Same (w : World) (a b : Value) : Prop := ∃ u, Compares w a b (.ok true u)

namespace Settled
variable {R : World → World → Prop} (hR : Course R) {w v : World} {a b : Value}
include hR

theorem along (h : Settled R w a) (hwv : R w v) : Settled R v a := by
  obtain ⟨hfinite, d, hd⟩ := h
  exact ⟨hfinite.along hR hwv, d, hd.again (hR.later hwv)⟩

/-- Values that have been walked are compared without failure, by their data. -/
theorem concludes_equal (ha : Settled R w a) (hb : Settled R w b) :
    Concludes R w (fun m _ => a.equal (.ofBudget m) b) fun u r => r = true ↔ DataAlike u a b := by
  obtain ⟨da, hda⟩ := ha.data
  obtain ⟨db, hdb⟩ := hb.data
  obtain ⟨r, v, hends, hwv, hright⟩ := (ha.finite.agree hR w (hR.refl w) b hb.finite).1
  refine ⟨r, v, hends.diagonal, hwv, fun u hvu => ?_⟩
  have hlater := hR.later (hR.trans hwv hvu)
  rw [hright u hvu da db (hda.again hlater) (hdb.again hlater)]
  exact (dataAlike_iff (hda.again hlater) (hdb.again hlater)).symm

theorem dataAlike_along (ha : Settled R w a) (hb : Settled R w b) (hwv : R w v) :
    DataAlike v a b ↔ DataAlike w a b := by
  obtain ⟨da, hda⟩ := ha.data
  obtain ⟨db, hdb⟩ := hb.data
  have hlater := hR.later hwv
  rw [dataAlike_iff hda hdb, dataAlike_iff (hda.again hlater) (hdb.again hlater)]

theorem exists_compares (ha : Settled R w a) (hb : Settled R w b) :
    ∃ r u, Compares w a b (.ok r u) ∧ (r = true ↔ DataAlike w a b) := by
  obtain ⟨r, u, hends, hwu, hright⟩ := ha.concludes_equal hR hb
  obtain ⟨n, hn⟩ := hends
  refine ⟨r, u, ⟨.ok r u, n, hn n n (Nat.le_refl n) (Nat.le_refl n)⟩, ?_⟩
  exact (hright u (hR.refl u)).trans (dataAlike_along hR ha hb hwu)

theorem same_iff (ha : Settled R w a) (hb : Settled R w b) : Same w a b ↔ DataAlike w a b := by
  obtain ⟨r, u, hcompares, hr⟩ := ha.exists_compares hR hb
  rw [← hr]
  constructor
  · rintro ⟨u', hsame⟩
    cases hsame.unique hcompares
    rfl
  · rintro rfl
    exact ⟨u, hcompares⟩

/-- The elements of a value that has been walked have been walked. -/
theorem of_mem_elements {xs : List Value} (ha : Settled R w a) (hxs : Elements w a xs) :
    ∀ x ∈ xs, Settled R w x := by
  obtain ⟨d, hd⟩ := ha.data
  obtain ⟨ds, -, hds⟩ := hxs.denotes hd
  have hfinite : ∀ x ∈ xs, Finite R w x := by
    cases hxs with
    | vector items =>
      cases ha.finite with
      | atom hv => cases hv
      | vector h => exact h
    | seq hs => exact ha.finite.of_mem_holds hR hs
  obtain ⟨ps, rfl, -, hps⟩ := exists_pairs_iff.2 hds
  refine List.forall_mem_map.2 fun p hp => ⟨hfinite p.1 (List.mem_map_of_mem hp), p.2, hps p hp⟩

/-- What has the same elements is the same, be it a list, a lazy sequence or a vector. -/
theorem same_of_elements {xs ys : List Value} (ha : Settled R w a) (hb : Settled R w b)
    (hxs : Elements w a xs) (hys : Elements w b ys) :
    Same w a b ↔ List.Forall₂ (Same w) xs ys := by
  obtain ⟨da, hda⟩ := ha.data
  obtain ⟨db, hdb⟩ := hb.data
  have hx := ha.of_mem_elements hR hxs
  have hy := hb.of_mem_elements hR hys
  rw [ha.same_iff hR hb, dataAlike_elements hda hdb hxs hys, ← exists_pairs_iff, ← exists_pairs_iff]
  refine exists_congr fun ps => and_congr_right fun hps => and_congr_right fun hps' => ?_
  subst hps hps'
  refine forall₂_congr fun p hp => ?_
  exact ((hx p.1 (List.mem_map_of_mem hp)).same_iff hR (hy p.2 (List.mem_map_of_mem hp))).symm

end Settled
end Value
end LazyLisp
