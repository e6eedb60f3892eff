import LazyLisp.Proofs.Settling
import Mathlib.Data.List.Find

/-!
Maps made by edits. Every function that makes maps puts values under keys and removes keys, one
after the other. Whatever the edits were, there is one entry for each key, up to equality, and it
holds what the last edit of the key put there.
-/

namespace LazyLisp
set_option autoImplicit false

/-! Edits. -/

/-- A value is put under a key, or a key is removed. -/
structure Edit where
  key : Value
  value : Option Value

namespace Edit

def put (f : Value × Value) : Edit := ⟨f.1, some f.2⟩

def remove (key : Value) : Edit := ⟨key, none⟩

/-- The entry that the edit leaves. -/
def entry (edit : Edit) : List (Value × Value) := (edit.value.map fun value => (edit.key, value)).toList

theorem mem_entry {edit : Edit} {f : Value × Value} :
    f ∈ edit.entry ↔ f.1 = edit.key ∧ edit.value = some f.2 := by
  obtain ⟨key, value⟩ := edit
  cases value <;> simp [entry, Prod.ext_iff, eq_comm]

def make (e : Engine) (entries : Entries) (edit : Edit) : Eval Entries :=
  match edit.value with
  | some value => entries.put e edit.key value
  | none => entries.remove e edit.key

end Edit

open Classical in
/-- What the last edit of such a key left there. -/
noncomputable def latest (p : Value → Prop) (edits : List Edit) : Option Value :=
  (edits.reverse.find? fun edit => p edit.key).bind (·.value)

theorem latest_concat_of_pos {p : Value → Prop} {edits : List Edit} {edit : Edit} (h : p edit.key) :
    latest p (edits ++ [edit]) = edit.value := by
  simp [latest, h]

theorem latest_concat_of_neg {p : Value → Prop} {edits : List Edit} {edit : Edit}
    (h : ¬ p edit.key) : latest p (edits ++ [edit]) = latest p edits := by
  simp [latest, h]

theorem latest_congr {p q : Value → Prop} {edits : List Edit}
    (h : ∀ edit ∈ edits, (p edit.key ↔ q edit.key)) : latest p edits = latest q edits := by
  unfold latest
  congr 1
  exact List.find?_congr fun edit hedit => decide_eq_decide.2 (h edit (List.mem_reverse.1 hedit))

/-! Looking for a key. -/

namespace Entries

/-- The entries in front of the first one with an equal key, and all others. -/
def split (e : Engine) (key : Value) : Entries → Eval (Entries × Entries)
  | [] => return ([], [])
  | f :: rest => do
    if ← (Value.equal e f.1 key).orFalse then return ([], f :: rest)
    else
      let p ← split e key rest
      return (f :: p.1, p.2)

section
variable (e : Engine) (key : Value)

theorem lookup_eq_split (entries : Entries) :
    Equality.lookup (Value.equal e) key entries = do
      return (← split e key entries).2.head?.map (·.2) := by
  induction entries with
  | nil => rfl
  | cons f rest ih =>
    rw [Equality.lookup, split, ih, bind_assoc]
    refine bind_congr fun found => ?_
    cases found <;> simp

theorem putInto_eq_split (value : Value) (entries : Entries) :
    putInto e key value entries = (do
      let p ← split e key entries
      return p.1 ++ (key, value) :: p.2.tail : Eval Entries) := by
  induction entries with
  | nil => rfl
  | cons f rest ih =>
    rw [putInto, split, ih]
    simp only [bind_assoc]
    refine bind_congr fun found => ?_
    cases found <;> simp

theorem removeFrom_eq_split (entries : Entries) :
    removeFrom e key entries = (do
      let p ← split e key entries
      return p.1 ++ p.2.tail : Eval Entries) := by
  induction entries with
  | nil => rfl
  | cons f rest ih =>
    rw [removeFrom, split, ih]
    simp only [bind_assoc]
    refine bind_congr fun found => ?_
    cases found <;> simp

end
end Entries

/-- Putting and removing differ in what is left at the place of the key. -/
theorem Edit.make_eq_split (e : Engine) (entries : Entries) (edit : Edit) :
    edit.make e entries = do
      edit.key.settle e
      let p ← entries.split e edit.key
      return p.1 ++ (edit.entry ++ p.2.tail) := by
  obtain ⟨key, value⟩ := edit
  cases value with
  | some value => exact bind_congr fun _ => Entries.putInto_eq_split e key value entries
  | none => exact bind_congr fun _ => Entries.removeFrom_eq_split e key entries

open Value

/-- Where a key is among entries: nothing in front has an equal key, and the next entry has one. -/
structure Splits (w : World) (key : Value) (entries front back : Entries) : Prop where
  append : front ++ back = entries
  front : ∀ f ∈ front, ¬ DataAlike w f.1 key
  back : ∀ f ∈ back.head?, DataAlike w f.1 key

namespace Splits
variable {w : World} {key : Value} {entries front back : Entries}

/-- The other entries are those with other keys. -/
theorem mem_others (h : Splits w key entries front back)
    (hdistinct : entries.Pairwise fun f g => ¬ DataAlike w f.1 g.1) {f : Value × Value} :
    f ∈ front ++ back.tail ↔ f ∈ entries ∧ ¬ DataAlike w f.1 key := by
  obtain ⟨rfl, hfront, hback⟩ := h
  rcases back with _ | ⟨g, rest⟩
  · rw [List.tail_nil]
    exact ⟨fun hf => ⟨hf, hfront f (List.append_nil front ▸ hf)⟩, And.left⟩
  · have hg : DataAlike w g.1 key := hback g rfl
    have hrest : ∀ f ∈ rest, ¬ DataAlike w f.1 key := by
      intro f hf halike
      have htail := (List.pairwise_append.1 hdistinct).2.1
      exact (List.pairwise_cons.1 htail).1 f hf (hg.trans halike.symm)
    rw [List.tail_cons, List.mem_append, List.mem_append, List.mem_cons]
    constructor
    · rintro (hf | hf)
      · exact ⟨.inl hf, hfront f hf⟩
      · exact ⟨.inr (.inr hf), hrest f hf⟩
    · rintro ⟨hf | rfl | hf, hne⟩
      · exact .inl hf
      · exact absurd hg hne
      · exact .inr hf

/-- If there is an entry with an equal key, it is the next one. -/
theorem head?_eq_some (h : Splits w key entries front back)
    (hdistinct : entries.Pairwise fun f g => ¬ DataAlike w f.1 g.1) {f : Value × Value} :
    back.head? = some f ↔ f ∈ entries ∧ DataAlike w f.1 key := by
  constructor
  · intro hf
    refine ⟨?_, h.back f hf⟩
    rw [← h.append]
    exact List.mem_append_right front (List.mem_of_mem_head? hf)
  · rintro ⟨hf, halike⟩
    have hothers := mt (h.mem_others hdistinct).1 fun hne => hne.2 halike
    rw [← h.append] at hf
    rcases back with _ | ⟨g, rest⟩
    · exact absurd hf hothers
    · rw [List.tail_cons] at hothers
      rw [List.mem_append, List.mem_cons, or_left_comm, ← List.mem_append] at hf
      rcases hf with rfl | hf
      · rfl
      · exact absurd hf hothers

end Splits

section
variable {R : World → World → Prop} (hR : Course R) {w : World}
include hR

theorem concludes_split {key : Value} {entries : Entries} (hentries : ∀ f ∈ entries, Settled R w f.1)
    (hkey : Settled R w key) :
    Concludes R w (fun m _ => entries.split (.ofBudget m) key) fun u p =>
      Splits u key entries p.1 p.2 := by
  induction entries generalizing w with
  | nil => exact .now hR (fun _ _ => rfl) fun u _ => ⟨rfl, List.forall_mem_nil _, nofun⟩
  | cons f rest ih =>
    obtain ⟨hf, hrest⟩ := List.forall_mem_cons.1 hentries
    refine .bind hR (hf.concludes_equal hR hkey).orFalse fun found v hwv hfound => ?_
    cases found with
    | true =>
      refine .now hR (a := ([], f :: rest)) (fun _ _ => rfl) fun u hvu => ?_
      refine ⟨rfl, List.forall_mem_nil _, ?_⟩
      rintro g ⟨⟩
      exact (hfound u hvu).1 rfl
    | false =>
      refine .bind hR (ih (fun g hg => (hrest g hg).along hR hwv) (hkey.along hR hwv))
        fun p u hvu hsplits => ?_
      refine .now hR (a := (f :: p.1, p.2)) (fun _ _ => rfl) fun z huz => ?_
      obtain ⟨happend, hfront, hback⟩ := hsplits z huz
      refine ⟨congrArg (f :: ·) happend, List.forall_mem_cons.2 ⟨?_, hfront⟩, hback⟩
      intro halike
      cases (hfound z (hR.trans hvu huz)).2 halike

end

/-! What edits leave. -/

/-- The entries are what the edits left, one for each key. -/
structure Tabulates (R : World → World → Prop) (w : World) (entries : Entries) (edits : List Edit) :
    Prop where
  keys : ∀ f ∈ entries, Settled R w f.1
  edited : ∀ edit ∈ edits, Settled R w edit.key
  distinct : entries.Pairwise fun f g => ¬ DataAlike w f.1 g.1
  latest : ∀ u, R w u → ∀ key, Settled R u key → ∀ x,
    latest (DataAlike u · key) edits = some x ↔ ∃ f ∈ entries, DataAlike u f.1 key ∧ f.2 = x

namespace Tabulates
variable {R : World → World → Prop} (hR : Course R) {w v : World} {entries : Entries}
  {edits : List Edit}
include hR

omit hR in
theorem nil (w : World) : Tabulates R w [] [] :=
  ⟨List.forall_mem_nil _, List.forall_mem_nil _, .nil, fun _ _ _ _ _ => by simp [LazyLisp.latest]⟩

theorem distinct_along (h : Tabulates R w entries edits) (hwv : R w v) :
    entries.Pairwise fun f g => ¬ DataAlike v f.1 g.1 := by
  refine h.distinct.imp_of_mem fun hf hg hne => ?_
  rwa [(h.keys _ hf).dataAlike_along hR (h.keys _ hg) hwv]

theorem along (h : Tabulates R w entries edits) (hwv : R w v) : Tabulates R v entries edits where
  keys f hf := (h.keys f hf).along hR hwv
  edited edit hedit := (h.edited edit hedit).along hR hwv
  distinct := h.distinct_along hR hwv
  latest u hvu := h.latest u (hR.trans hwv hvu)

/-- An edit puts its entry, if there is one, in the place of the entry with an equal key. -/
theorem edit (h : Tabulates R w entries edits) {edit : Edit} (hkey : Settled R w edit.key)
    {front back : Entries} (hsplits : Splits w edit.key entries front back) :
    Tabulates R w (front ++ (edit.entry ++ back.tail)) (edits ++ [edit]) := by
  have hmem : ∀ f, f ∈ front ++ (edit.entry ++ back.tail) ↔
      (f.1 = edit.key ∧ edit.value = some f.2) ∨ (f ∈ entries ∧ ¬ DataAlike w f.1 edit.key) := by
    intro f
    rw [← hsplits.mem_others h.distinct, ← Edit.mem_entry, List.mem_append, List.mem_append,
      List.mem_append, or_left_comm]
  refine ⟨fun f hf => ?_, ?_, ?_, fun u hwu key hkey' x => ?_⟩
  · rcases (hmem f).1 hf with ⟨hf, -⟩ | ⟨hf, -⟩
    · rwa [hf]
    · exact h.keys f hf
  · exact List.forall_mem_append.2 ⟨h.edited, List.forall_mem_singleton.2 hkey⟩
  · have hsymm : ∀ {f g : Value × Value}, ¬ DataAlike w f.1 g.1 → ¬ DataAlike w g.1 f.1 :=
      fun hne halike => hne halike.symm
    have hothers : (front ++ back.tail).Pairwise fun f g => ¬ DataAlike w f.1 g.1 := by
      refine h.distinct.sublist ?_
      rw [← hsplits.append]
      exact (List.tail_sublist back).append_left front
    rw [List.pairwise_append_comm hsymm, List.append_assoc, List.pairwise_append,
      List.pairwise_append_comm hsymm]
    refine ⟨?_, hothers, fun f hf g hg halike => ?_⟩
    · unfold Edit.entry
      cases edit.value with
      | none => exact .nil
      | some value => exact List.pairwise_singleton _ _
    · rw [(Edit.mem_entry.1 hf).1] at halike
      rw [List.mem_append, or_comm, ← List.mem_append] at hg
      exact ((hsplits.mem_others h.distinct).1 hg).2 halike.symm
  · by_cases halike : DataAlike u edit.key key
    · rw [latest_concat_of_pos halike]
      constructor
      · intro hx
        exact ⟨(edit.key, x), (hmem _).2 (.inl ⟨rfl, hx⟩), halike, rfl⟩
      · rintro ⟨f, hf, hfkey, rfl⟩
        rcases (hmem f).1 hf with ⟨-, hvalue⟩ | ⟨hf, hne⟩
        · exact hvalue
        · -- such an entry had the key of the edit
          rw [← (h.keys f hf).dataAlike_along hR hkey hwu] at hne
          exact absurd (hfkey.trans halike.symm) hne
    · rw [latest_concat_of_neg halike, h.latest u hwu key hkey']
      refine exists_congr fun f => ?_
      rw [hmem]
      constructor
      · rintro ⟨hf, hfkey, rfl⟩
        refine ⟨.inr ⟨hf, fun hsame => halike ?_⟩, hfkey, rfl⟩
        rw [← (h.keys f hf).dataAlike_along hR hkey hwu] at hsame
        exact hsame.symm.trans hfkey
      · rintro ⟨⟨hf, -⟩ | ⟨hf, -⟩, hfkey, rfl⟩
        · rw [hf] at hfkey
          exact absurd hfkey halike
        · exact ⟨hf, hfkey, rfl⟩

/-- A finite key is realized and looked for. -/
theorem concludes_find (h : Tabulates R w entries edits) {key : Value} (hkey : Finite R w key) :
    Concludes R w (fun m _ => do
      key.settle (.ofBudget m)
      entries.split (.ofBudget m) key) fun u p =>
        R w u ∧ Settled R u key ∧ Splits u key entries p.1 p.2 := by
  refine .bind hR (hkey.settles hR w (hR.refl w)).diagonal fun _ v hwv hdata => ?_
  have hsettled : Settled R v key := ⟨hkey.along hR hwv, hdata v (hR.refl v)⟩
  obtain ⟨p, u, hends, hvu, hright⟩ :=
    concludes_split hR (fun f hf => (h.keys f hf).along hR hwv) hsettled
  refine ⟨p, u, hends, hvu, fun z huz => ?_⟩
  have hvz := hR.trans hvu huz
  exact ⟨hR.trans hwv hvz, hsettled.along hR hvz, hright z huz⟩

theorem concludes_make (h : Tabulates R w entries edits) {edit : Edit}
    (hkey : Finite R w edit.key) :
    Concludes R w (fun m _ => edit.make (.ofBudget m) entries) fun u entries' =>
      Tabulates R u entries' (edits ++ [edit]) := by
  simp only [Edit.make_eq_split]
  obtain ⟨p, v, hends, hwv, hright⟩ := h.concludes_find hR hkey
  refine ⟨p.1 ++ (edit.entry ++ p.2.tail), v, ?_, hwv, fun u hvu => ?_⟩
  · obtain ⟨n, hn⟩ := hends
    refine ⟨n, fun m k hm hk => ?_⟩
    have hrun := run_bind_ok (hn m k hm hk)
      fun p => (pure (p.1 ++ (edit.entry ++ p.2.tail)) : Eval Entries)
    rwa [bind_assoc] at hrun
  · obtain ⟨hwu, hsettled, hsplits⟩ := hright u hvu
    exact (h.along hR hwu).edit hR hsettled hsplits

theorem concludes_makeAll {more : List Edit} (h : Tabulates R w entries edits)
    (hkeys : ∀ edit ∈ more, Finite R w edit.key) :
    Concludes R w (fun m _ => more.foldlM (Edit.make (.ofBudget m)) entries) fun u entries' =>
      Tabulates R u entries' (edits ++ more) := by
  induction more generalizing w entries edits with
  | nil =>
    refine .now hR (fun _ _ => rfl) fun u hwu => ?_
    rw [List.append_nil]
    exact h.along hR hwu
  | cons edit more ih =>
    obtain ⟨hkey, hkeys⟩ := List.forall_mem_cons.1 hkeys
    simp only [List.foldlM_cons, List.append_cons edits edit more]
    refine .bind hR (h.concludes_make hR hkey) fun entries' v hwv hmade => ?_
    exact ih (hmade v (hR.refl v)) fun edit hedit => (hkeys edit hedit).along hR hwv

end Tabulates
end LazyLisp
