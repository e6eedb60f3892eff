import LazyLisp.Hashing
import LazyLisp.Proofs.Finiteness
import Mathlib.Data.List.Perm.Basic

/-!
Hashing and equality. Like data feed the same to a hasher: entries of like maps are partners,
whatever their order, so their digests have one sum. A finite value feeds what its data feed.
-/

namespace LazyLisp
set_option autoImplicit false

/-! The effects of hashing. -/

theorem Seq.feedWithin_succ {e : Engine} (feed : Value → Eval (List Feed)) (n : Nat) (s : Seq)
    (w : World) :
    s.feedWithin e feed (n + 1) w =
      match s.uncons e w with
      | .ok none w => .ok [] w
      | .ok (some (head, tail)) w =>
        (do return (← feed head) ++ (← tail.feedWithin e feed n) : Eval (List Feed)) w
      | .error (.error _) w => .ok [] w
      | .error .exhausted w => .error .exhausted w := rfl

/-! What data feed. -/

mutual

/-- What data without lazy parts feed. -/
def Value.code (digest : List Feed → UInt64) : Value → List Feed
  | .vector items => .sequential :: Value.codeAll digest items
  | .seq s => .sequential :: s.code digest
  | .map entries => Feed.ofDigests (Value.codeEntries digest entries)
  | .marked m form => Feed.ofMarked m (form.code digest)
  | v => v.feedAtom

def Seq.code (digest : List Feed → UInt64) : Seq → List Feed
  | .cons head tail => head.code digest ++ tail.code digest
  | _ => []

def Value.codeAll (digest : List Feed → UInt64) : List Value → List Feed
  | [] => []
  | v :: vs => v.code digest ++ Value.codeAll digest vs

/-- The digests of entries. -/
def Value.codeEntries (digest : List Feed → UInt64) : List (Value × Value) → List UInt64
  | [] => []
  | (k, v) :: rest => digest (k.code digest ++ v.code digest) :: Value.codeEntries digest rest

end

theorem Seq.eq_ofList {s : Seq} {xs : List Value} (h : s.toList? = some xs) : s = .ofList xs := by
  induction xs generalizing s with
  | nil =>
    cases s with
    | empty => rfl
    | cons head tail => simp [Seq.toList?] at h
    | _ => cases h
  | cons x xs ih =>
    cases s with
    | cons head tail =>
      simp only [Seq.toList?, Option.map_eq_some_iff, List.cons.injEq] at h
      obtain ⟨rest, hrest, rfl, rfl⟩ := h
      rw [ih hrest]
      rfl
    | _ => cases h

namespace Value
variable {digest : List Feed → UInt64}

theorem code_list (items : List Value) :
    (Value.list items).code digest = .sequential :: codeAll digest items := by
  have hseq : (Seq.ofList items).code digest = codeAll digest items := by
    induction items with
    | nil => rfl
    | cons v vs ih => exact congrArg (v.code digest ++ ·) ih
  exact congrArg (.sequential :: ·) hseq

theorem codeAll_eq (items : List Value) :
    codeAll digest items = (items.map (code digest)).flatten := by
  induction items with
  | nil => rfl
  | cons v vs ih => exact congrArg (v.code digest ++ ·) ih

theorem codeEntries_eq (entries : List (Value × Value)) :
    codeEntries digest entries =
      entries.map fun f => digest (f.1.code digest ++ f.2.code digest) := by
  induction entries with
  | nil => rfl
  | cons f rest ih => exact congrArg (_ :: ·) ih

theorem code_of_isAtom {v : Value} (h : v.isAtom = true) : v.code digest = v.feedAtom := by
  cases v with
  | vector | seq | map | marked => cases h
  | _ => rfl

/-- Each on the left has its own partner on the right, and partners have one code; so both sides
have the same codes. -/
theorem perm_of_partners {α β γ : Type} {R : α → β → Prop} {c : α → γ} {c' : β → γ} {xs : List α}
    {ys : List β} (hlen : xs.length = ys.length) (htotal : ∀ x ∈ xs, ∃ y ∈ ys, R x y)
    (hown : xs.Pairwise fun a b => ∀ y, R a y → ¬ R b y) (hc : ∀ x ∈ xs, ∀ y, R x y → c x = c' y) :
    (xs.map c).Perm (ys.map c') := by
  induction xs generalizing ys with
  | nil => rw [List.length_eq_zero_iff.1 hlen.symm]; exact .nil
  | cons x xs ih =>
    obtain ⟨hx, hxs⟩ := List.pairwise_cons.1 hown
    obtain ⟨hcx, hcs⟩ := List.forall_mem_cons.1 hc
    obtain ⟨y₀, hy₀, hR⟩ := htotal x List.mem_cons_self
    obtain ⟨l₁, l₂, rfl⟩ := List.append_of_mem hy₀
    have hrest : (xs.map c).Perm ((l₁ ++ l₂).map c') := by
      refine ih ?_ (fun b hb => ?_) hxs hcs
      · simp only [List.length_append, List.length_cons] at hlen ⊢
        omega
      · obtain ⟨y, hy, hby⟩ := htotal b (List.mem_cons_of_mem x hb)
        have hne : y ≠ y₀ := by
          rintro rfl
          exact hx b hb y hR hby
        have hy : y ∈ l₁ ++ y₀ :: l₂ := hy
        simp only [List.mem_append, List.mem_cons, hne, false_or] at hy
        exact ⟨y, List.mem_append.2 hy, hby⟩
    have hmoved : ((l₁ ++ y₀ :: l₂).map c').Perm (c' y₀ :: (l₁ ++ l₂).map c') :=
      List.perm_middle.map c'
    rw [List.map_cons, hcx y₀ hR]
    exact (hrest.cons (c' y₀)).trans hmoved.symm

theorem ofDigests_perm {xs ys : List UInt64} (h : xs.Perm ys) :
    Feed.ofDigests xs = Feed.ofDigests ys := by
  have : LeftCommutative fun a b : UInt64 => a + b :=
    ⟨fun a b c => by rw [← UInt64.add_assoc, UInt64.add_comm a b, UInt64.add_assoc]⟩
  have hsum : xs.foldr (· + ·) 0 = ys.foldr (· + ·) 0 := h.foldr_eq 0
  rw [Feed.ofDigests, Feed.ofDigests, hsum]

theorem codeAll_eq_of_alike {xs ys : List Value}
    (hxs : ∀ x ∈ xs, ∀ y, x.alike y = true → x.code digest = y.code digest)
    (h : allAlike xs ys = true) : codeAll digest xs = codeAll digest ys := by
  induction xs generalizing ys with
  | nil =>
    cases ys with
    | nil => rfl
    | cons y ys => cases h
  | cons x xs ih =>
    obtain ⟨hx, hxs⟩ := List.forall_mem_cons.1 hxs
    cases ys with
    | nil => cases h
    | cons y ys =>
      obtain ⟨hxy, hrest⟩ := allAlike_cons.1 h
      rw [codeAll, codeAll, hx y hxy, ih hxs hrest]

/-- What has elements feeds those. -/
theorem code_of_elements? {a : Value} {xs : List Value} (h : a.elements? = some xs) :
    a.code digest = .sequential :: codeAll digest xs := by
  cases a with
  | vector items =>
    cases h
    rfl
  | seq s =>
    rw [Seq.eq_ofList h]
    exact code_list xs
  | _ => cases h

/-- Like data feed the same. -/
theorem Tidy.code_eq {a : Value} (ha : a.Tidy) :
    ∀ b, a.alike b = true → a.code digest = b.code digest := by
  have hrow : ∀ {a : Value} {xs : List Value}, a.elements? = some xs →
      (∀ x ∈ xs, ∀ y, x.alike y = true → x.code digest = y.code digest) →
      ∀ b, a.alike b = true → a.code digest = b.code digest := by
    intro a xs hxs ih b h
    rw [alike_of_elements? hxs, Option.any_eq_true_iff_get] at h
    obtain ⟨hsome, h⟩ := h
    rw [code_of_elements? hxs, code_of_elements? (Option.some_get hsome).symm,
      codeAll_eq_of_alike ih h]
  induction ha with
  | @atom a ha =>
    intro b h
    by_cases hfloat : ∃ x, a = .float x
    · obtain ⟨x, rfl⟩ := hfloat
      obtain ⟨y, rfl, hcode⟩ := alike_float.1 h
      rw [code_of_isAtom ha, code_of_isAtom rfl, feedAtom, feedAtom, hcode]
      rfl
    · rw [eq_of_alike ha (fun x hx => hfloat ⟨x, hx⟩) h]
  | list h ih => exact hrow (elements?_list _) ih
  | vector h ih => exact hrow rfl ih
  | @map xs hkeys hvalues hdistinct ihkeys ihvalues =>
    intro b h
    obtain ⟨ys, rfl, hlen, htotal⟩ := alike_map.1 h
    rw [code, code, codeEntries_eq, codeEntries_eq]
    refine ofDigests_perm (perm_of_partners (R := fun e f => e ∈ xs ∧ e.1.alike f.1 = true ∧
      e.2.alike f.2 = true) hlen (fun e he => ?_) ?_ ?_)
    · obtain ⟨f, hf, hR⟩ := htotal e he
      exact ⟨f, hf, he, hR⟩
    · refine hdistinct.imp ?_
      rintro a b hne f ⟨ha, haf, -⟩ ⟨hb, hbf, -⟩
      have hab := (hkeys a ha).steady.trans haf ((hkeys b hb).steady.symm hbf)
      rw [hne] at hab
      cases hab
    · rintro e he f ⟨-, hkey, hvalue⟩
      rw [ihkeys e he f.1 hkey, ihvalues e he f.2 hvalue]
  | marked m h ih =>
    intro b hb
    obtain ⟨other, rfl, hother⟩ := alike_marked.1 hb
    rw [code, code, ih other hother]

end Value

/-! Hashing finite values. -/

namespace Engine.Paired
variable {κ : View} {P : World → World → Prop} {fits : World → Scope → Prop} {base : World}
  {e e' : Engine} {digest : List Feed → UInt64}

theorem seqFeedWithin (h : e.Paired κ P fits e') {feed feed' : Value → Eval (List Feed)}
    (hfeed : ∀ v, LazyLisp.Paired κ (P base) (feed v) (feed' v)) {n n' : Nat} (hn : n ≤ n')
    (s : Seq) :
    LazyLisp.Paired κ (P base) (s.feedWithin e feed n) (s.feedWithin e' feed' n') := by
  induction n generalizing n' s with
  | zero => exact .exhausted
  | succ n ih =>
    obtain ⟨n', rfl⟩ := Nat.exists_eq_add_of_le' (Nat.le_trans (Nat.succ_pos n) hn)
    intro w hw
    have hends := h.uncons s w hw
    rw [Seq.feedWithin_succ, Seq.feedWithin_succ]
    generalize s.uncons e w = r, s.uncons e' (w.seen κ) = r' at hends ⊢
    cases hends with
    | @ok o v hv =>
      rcases o with _ | ⟨head, tail⟩
      · exact .ok hv
      · refine LazyLisp.Paired.ends (.bind (hfeed head) fun _ => ?_) hv
        exact .bind (ih (Nat.le_of_succ_le_succ hn) tail) fun _ => .pure _
    | error hv => exact .ok hv
    | exhausted hv => exact .exhausted hv

theorem feedWithin (h : e.Paired κ P fits e') {n n' : Nat} (hn : n ≤ n') (v : Value) :
    LazyLisp.Paired κ (P base) (v.feedWithin digest e n) (v.feedWithin digest e' n') := by
  induction n generalizing n' v with
  | zero => exact .exhausted
  | succ n ih =>
    obtain ⟨n', rfl⟩ := Nat.exists_eq_add_of_le' (Nat.le_trans (Nat.succ_pos n) hn)
    have ih := fun v => ih (Nat.le_of_succ_le_succ hn) v
    cases v with
    | vector items => exact .bind (.mapM ih) fun _ => .pure _
    | seq s => exact .bind (h.seqFeedWithin ih h.bound s) fun _ => .pure _
    | map entries =>
      refine .bind (.mapM fun f => ?_) fun _ => .pure _
      exact .bind (ih f.1) fun _ => .bind (ih f.2) fun _ => .pure _
    | marked m form => exact .bind (ih form) fun _ => .pure _
    | _ => exact .pure _

end Engine.Paired

theorem Eventually.of_feedWithin {digest : List Feed → UInt64} {v : Value} {w u : World} {n k : Nat}
    {ts : List Feed} (h : v.feedWithin digest (.ofBudget n) k w = .ok ts u) :
    Eventually (fun m k => v.feedWithin digest (.ofBudget m) k) w ts u := by
  refine ⟨max n k, fun m l hm hl => ?_⟩
  have hended : Ended (v.feedWithin digest (.ofBudget n) k w) := h ▸ .ok ts u
  have htied := Engine.ofBudget_tied (n := n) (m := m) (by omega)
  exact ((htied.feedWithin (by omega) v).run_eq (Unrelated.intro : Unrelated w w) hended).trans h

namespace Concludes
variable {R : World → World → Prop} {α β γ : Type} {w : World}

theorem map {c : Nat → Nat → Eval α} {p : World → α → Prop} {q : World → β → Prop} {f : α → β}
    (h : Concludes R w c p) (hq : ∀ u a, p u a → q u (f a)) :
    Concludes R w (fun m k => do return f (← c m k)) q := by
  obtain ⟨a, v, hends, hwv, hright⟩ := h
  exact ⟨f a, v, hends.bind ⟨0, fun _ _ _ _ => rfl⟩, hwv, fun u hu => hq u a (hright u hu)⟩

theorem mapM (hR : Course R) {c : Nat → Nat → α → Eval β} {D : World → α → γ → Prop} {g : γ → β}
    {xs : List α} (h : ∀ x ∈ xs, ∀ v, R w v →
      Concludes R v (fun m k => c m k x) fun u b => ∀ d, D u x d → b = g d) :
    Concludes R w (fun m k => xs.mapM (c m k)) fun u bs =>
      ∀ ds, List.Forall₂ (D u) xs ds → bs = ds.map g := by
  induction xs generalizing w with
  | nil =>
    refine .now hR (a := []) (fun m k => rfl) fun u _ ds hds => ?_
    cases hds
    rfl
  | cons x xs ih =>
    obtain ⟨hx, hxs⟩ := List.forall_mem_cons.1 h
    simp only [List.mapM_cons]
    refine .bind hR (hx w (hR.refl w)) fun b v hwv hright => ?_
    obtain ⟨bs, u, hends, hvu, hrest⟩ := ih fun y hy u hu => hxs y hy u (hR.trans hwv hu)
    refine ⟨b :: bs, u, hends.bind ⟨0, fun _ _ _ _ => rfl⟩, hvu, fun z hz ds hds => ?_⟩
    cases hds with
    | cons hd hds =>
      rw [List.map_cons, hright z (hR.trans hvu hz) _ hd, hrest z hz _ hds]

end Concludes

namespace Value

/-- Hashing the value comes to an end, and feeds what its data feed. -/
def Feeds (digest : List Feed → UInt64) (R : World → World → Prop) (w : World) (v : Value) : Prop :=
  Concludes R w (fun m k => v.feedWithin digest (.ofBudget m) k) fun u ts =>
    ∀ d, Denotes u v d → ts = d.code digest

section
variable {digest : List Feed → UInt64} {R : World → World → Prop} (hR : Course R) {w : World}
include hR

theorem feeds_seq {s : Seq} (hs : ∃ o v, Seq.Takes w s o v ∧ R w v)
    (hnext : ∀ x t v, Seq.Takes w s (some (x, t)) v → R w v →
      Feeds digest R v x ∧ ∀ u, R v u → Feeds digest R u (.seq t)) :
    Feeds digest R w (.seq s) := by
  obtain ⟨o, v, hstep, hwv⟩ := hs
  obtain ⟨n₁, huncons⟩ := hstep.uncons
  rcases o with _ | ⟨x, t⟩
  · refine ⟨[.sequential], v, .of_feedWithin (n := n₁ + 1) (k := 1) ?_, hwv, fun u hu d hd => ?_⟩
    · refine run_bind_ok (m := s.feedWithin _ _ (n₁ + 1)) (a := []) (t := v) ?_ _
      rw [Seq.feedWithin_succ, huncons (n₁ + 1) (by omega)]
    · rw [hd.of_takes_none hstep (hR.later hu)]
      exact (code_list []).symm
  · obtain ⟨hhead, htail⟩ := hnext x t v hstep hwv
    obtain ⟨ts, u, ⟨n₂, hhead⟩, hvu, hright⟩ := hhead
    obtain ⟨ts', z, ⟨n₃, htail⟩, huz, hright'⟩ := htail u hvu
    let n := max n₁ (max n₂ n₃)
    have hrun := htail n (n + 1) (by omega) (by omega)
    obtain ⟨rest, z', hrest, hend⟩ := run_bind_eq_ok.1 hrun
    cases hend
    -- the rest is fed with one round less
    have hended : Ended (t.feedWithin (.ofBudget n) (feedWithin digest (.ofBudget n) n) n u) :=
      hrest ▸ .ok rest z
    have htied := Engine.ofBudget_tied (Nat.le_succ n)
    have hfeed : ∀ v : Value, Paired .same (Unrelated u) (v.feedWithin digest (.ofBudget n) n)
        (v.feedWithin digest (.ofBudget (n + 1)) n) := htied.feedWithin (Nat.le_refl n)
    have hmore := (htied.seqFeedWithin hfeed (Nat.le_refl n) t).run_eq Unrelated.intro hended
    refine ⟨.sequential :: (ts ++ rest), z, .of_feedWithin (n := n + 1) (k := n + 1) ?_,
      hR.trans hwv (hR.trans hvu huz), fun u' hu' d hd => ?_⟩
    · refine run_bind_ok (m := s.feedWithin _ _ (n + 1)) (a := ts ++ rest) (t := z) ?_ _
      rw [Seq.feedWithin_succ, huncons (n + 1) (by omega)]
      dsimp only
      rw [run_bind_ok (hhead (n + 1) n (by omega) (by omega)), run_bind_ok (hmore.trans hrest)]
      rfl
    · have hvu' := hR.trans hvu (hR.trans huz hu')
      obtain ⟨dx, ds, rfl, hdx, hds⟩ := hd.of_takes_some hstep (hR.later hvu')
      have htail := hright' u' hu' _ hds
      rw [code_list] at htail ⊢
      rw [hright u' (hR.trans huz hu') dx hdx, (List.cons.inj htail).2, codeAll]

/-- Finite values can be hashed. -/
theorem Finite.feeds {a : Value} (ha : Finite R w a) : ∀ v, R w v → Feeds digest R v a := by
  induction ha with
  | @atom w a ha =>
    intro v _
    refine .now hR (a := a.feedAtom) (fun m k => ?_) fun u _ d hd => ?_
    · cases a with
      | vector | seq | map | marked => cases ha
      | _ => rfl
    · rw [(denotes_atom ha).1 hd, code_of_isAtom ha]
  | vector h ih =>
    intro v hwv
    have hitems := Concludes.mapM hR (D := Denotes) (g := code digest)
      (c := fun m k => feedWithin digest (.ofBudget m) k)
      fun x hx u hu => ih x hx u (hR.trans hwv hu)
    refine (hitems.map (f := fun tss => .sequential :: tss.flatten)
      (q := fun u ts => ∀ d, Denotes u (.vector _) d → ts = d.code digest)
      fun u tss hright d hd => ?_).deeper (fun m k => rfl) fun u ts hright => hright
    obtain ⟨ds, rfl, hds⟩ := denotes_vector.1 hd
    rw [hright ds hds, code, codeAll_eq]
  | @seq w s htakes hhead htail ihhead ihtail =>
    intro v hwv
    refine feeds_seq hR (htakes v hwv) fun x t u hstep hvu => ⟨?_, fun z hz => ?_⟩
    · exact ihhead v x t u hwv hstep u (hR.refl u)
    · exact ihtail v x t u hwv hstep z hz
  | @map w entries hkeys hvalues hdistinct ihkeys ihvalues =>
    intro v hwv
    have hentry : ∀ f ∈ entries, ∀ u, R v u → Concludes R u
        (fun m k => do return digest ((← f.1.feedWithin digest (.ofBudget m) k) ++
          (← f.2.feedWithin digest (.ofBudget m) k)))
        fun z b => ∀ g, EntryDenotes z f g → b = digest (g.1.code digest ++ g.2.code digest) := by
      intro f hf u hu
      refine .bind hR (ihkeys f hf u (hR.trans hwv hu)) fun ts z huz hright => ?_
      refine (ihvalues f hf z (hR.trans hwv (hR.trans hu huz))).bind hR fun ts' z' hzz hright' => ?_
      refine .now hR (fun m k => rfl) fun u' hu' g hg => ?_
      rw [hright u' (hR.trans hzz hu') _ hg.1, hright' u' hu' _ hg.2]
    have hentries := Concludes.mapM hR (D := EntryDenotes) (c := fun m k f => do
      return digest ((← f.1.feedWithin digest (.ofBudget m) k) ++
        (← f.2.feedWithin digest (.ofBudget m) k))) hentry
    refine (hentries.map (f := Feed.ofDigests)
      (q := fun u ts => ∀ d, Denotes u (.map entries) d → ts = d.code digest)
      fun u digests hright d hd => ?_).deeper (fun m k => rfl) fun u ts hright => hright
    obtain ⟨ds, rfl, hds, -⟩ := denotes_map.1 hd
    rw [hright ds hds, code, codeEntries_eq]
  | marked m h ih =>
    intro v hwv
    refine ((ih v hwv).map (f := Feed.ofMarked m)
      (q := fun u ts => ∀ d, Denotes u (.marked m _) d → ts = d.code digest)
      fun u ts hright d hd => ?_).deeper (fun m k => rfl) fun u ts hright => hright
    obtain ⟨data, rfl, hdata⟩ := denotes_marked.1 hd
    rw [hright data hdata, code]

end
end Value
end LazyLisp
