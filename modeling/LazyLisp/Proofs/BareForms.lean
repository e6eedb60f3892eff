import LazyLisp.Proofs.PlainForms

/-!
Forms without marks. Whatever the marks of a form are and however they are nested, the form that
replaces it has none. The keys of its maps are pairwise unlike, so replacing marks once more puts
the same maps together and leaves the form as it is.
-/

namespace LazyLisp
set_option autoImplicit false

namespace Value

/-- Finite lists, vectors and maps of atoms, the keys of the maps being pairwise unlike. -/
inductive Bare : Value → Prop
  | atom {v : Value} (h : v.isAtom = true) : Bare v
  | list {items : List Value} (h : ∀ v ∈ items, Bare v) : Bare (.list items)
  | vector {items : List Value} (h : ∀ v ∈ items, Bare v) : Bare (.vector items)
  | map {entries : List (Value × Value)} (hkeys : ∀ e ∈ entries, Bare e.1)
      (hvalues : ∀ e ∈ entries, Bare e.2)
      (hdistinct : entries.Pairwise fun a b => a.1.alike b.1 = false) : Bare (.map entries)

theorem Bare.tidy {v : Value} (h : v.Bare) : v.Tidy := by
  induction h with
  | atom h => exact .atom h
  | list _ ih => exact .list ih
  | vector _ ih => exact .vector ih
  | map _ _ hdistinct ihkeys ihvalues => exact .map ihkeys ihvalues hdistinct

end Value

/-! Entries that are put together one by one have pairwise unlike keys; if they had before, they
stand one behind the other. -/

/-- Of two entries of the list, the key of the earlier one is unlike the key of the later one. -/
def Unlike (entries : List (Value × Value)) : Prop :=
  entries.Pairwise fun a b => a.1.alike b.1 = false

section
variable {entries : List (Value × Value)}


theorem Value.Steady.unlike_symm {a b : Value} (ha : a.Steady) (h : b.alike a = false) :
    a.alike b = false := by
  cases hab : a.alike b with
  | false => rfl
  | true => rw [ha.symm hab] at h; cases h

theorem Unlike.putForm (h : Unlike entries) (hkeys : ∀ e ∈ entries, e.1.Steady) {key : Value}
    (hkey : key.Steady) (value : Value) : Unlike (Value.putForm entries key value) := by
  induction entries with
  | nil => exact List.pairwise_singleton _ _
  | cons e rest ih =>
    obtain ⟨hfirst, hrest⟩ := List.pairwise_cons.1 h
    obtain ⟨he, hkeys⟩ := List.forall_mem_cons.1 hkeys
    rw [Value.putForm]
    split
    · rename_i halike
      refine List.pairwise_cons.2 ⟨fun f hf => ?_, hrest⟩
      -- a key like the new one would be like the one it replaces
      cases hkf : key.alike f.1 with
      | false => rfl
      | true =>
        have hef := he.trans (hkey.symm halike) hkf
        rw [hfirst f hf] at hef
        cases hef
    · rename_i halike
      refine List.pairwise_cons.2 ⟨fun f hf => ?_, ih hrest hkeys⟩
      rcases Reading.mem_putForm hf with hf | rfl
      · exact hfirst f hf
      · exact he.unlike_symm (Bool.eq_false_iff.2 halike)

theorem putForm_eq_append {key value : Value} (h : ∀ e ∈ entries, key.alike e.1 = false) :
    Value.putForm entries key value = entries ++ [(key, value)] := by
  induction entries with
  | nil => rfl
  | cons e rest ih =>
    obtain ⟨he, hrest⟩ := List.forall_mem_cons.1 h
    rw [Value.putForm, he, ih hrest]
    rfl

/-- A later key is unlike every earlier one, whichever way they are compared. -/
theorem unlike_front {front : List (Value × Value)} {e : Value × Value} (hkey : e.1.Tidy)
    (hdistinct : Unlike (front ++ e :: entries)) : ∀ f ∈ front, e.1.alike f.1 = false := by
  intro f hf
  exact hkey.steady.unlike_symm ((List.pairwise_append.1 hdistinct).2.2 f hf e List.mem_cons_self)

theorem foldl_putForm (front : List (Value × Value)) (hkeys : ∀ e ∈ entries, e.1.Tidy)
    (hdistinct : Unlike (front ++ entries)) :
    entries.foldl (fun acc e => Value.putForm acc e.1 e.2) front = front ++ entries := by
  induction entries generalizing front with
  | nil => simp
  | cons e rest ih =>
    obtain ⟨he, hrest⟩ := List.forall_mem_cons.1 hkeys
    rw [List.foldl_cons, putForm_eq_append (unlike_front he hdistinct),
      ih _ hrest (by simpa using hdistinct), List.append_assoc]
    rfl

end

/-! Replacing marks. -/

def EntriesBare (entries : List (Value × Value)) : Prop :=
  (∀ e ∈ entries, e.1.Bare ∧ e.2.Bare) ∧ Unlike entries

theorem EntriesBare.foldl_putForm {entries acc : List (Value × Value)}
    (h : ∀ e ∈ entries, e.1.Bare ∧ e.2.Bare) (hacc : EntriesBare acc) :
    EntriesBare (entries.foldl (fun acc e => Value.putForm acc e.1 e.2) acc) := by
  induction entries generalizing acc with
  | nil => exact hacc
  | cons e rest ih =>
    obtain ⟨he, hrest⟩ := List.forall_mem_cons.1 h
    refine ih hrest ⟨fun f hf => ?_, ?_⟩
    · rcases Reading.mem_putForm hf with hf | rfl
      · exact hacc.1 f hf
      · exact he
    · exact hacc.2.putForm (fun f hf => (hacc.1 f hf).1.tidy.steady) he.1.tidy.steady e.2

theorem bare_formed : Formed Value.Bare where
  atom _ h := .atom h
  seq s := by
    constructor
    · intro h
      generalize hv : Value.seq s = v at h
      cases h with
      | atom h => subst hv; cases h
      | @list items h => exact ⟨items, Value.seq.inj hv, h⟩
      | _ => cases hv
    · rintro ⟨items, rfl, h⟩
      exact .list h
  vector items := by
    refine ⟨fun h => ?_, .vector⟩
    cases h with
    | atom h => cases h
    | vector h => exact h
  map entries h := by
    have hempty : EntriesBare [] := ⟨List.forall_mem_nil _, List.Pairwise.nil⟩
    obtain ⟨hall, hdistinct⟩ := EntriesBare.foldl_putForm h hempty
    exact .map (fun e he => (hall e he).1) (fun e he => (hall e he).2) hdistinct
  entries entries h := by
    cases h with
    | atom h => cases h
    | map hkeys hvalues => exact fun e he => ⟨hkeys e he, hvalues e he⟩

/-- Every form that is read is bare. -/
theorem readForms_bare (source : String) : Gives (readForms source) fun vs => ∀ v ∈ vs, v.Bare :=
  readForms_formed bare_formed source

/-! Forms without marks stay as they are when marks are replaced. -/

namespace Shorthand

theorem lowerItems_eq {items : List Value} (h : ∀ v ∈ items, ∀ st, lower v st = .ok v st)
    (st : State) : lowerItems items st = .ok items st := by
  induction items with
  | nil => rfl
  | cons v vs ih =>
    obtain ⟨hv, hvs⟩ := List.forall_mem_cons.1 h
    rw [lowerItems, run_bind_ok (hv st), run_bind_ok (ih hvs)]
    rfl

theorem lowerSeq_eq {items : List Value} (h : ∀ v ∈ items, ∀ st, lower v st = .ok v st)
    (st : State) : lowerSeq (Seq.ofList items) st = .ok (Seq.ofList items) st := by
  induction items with
  | nil => rfl
  | cons v vs ih =>
    obtain ⟨hv, hvs⟩ := List.forall_mem_cons.1 h
    have hcons : Seq.ofList (v :: vs) = .cons v (Seq.ofList vs) := rfl
    rw [hcons, lowerSeq, run_bind_ok (hv st), run_bind_ok (ih hvs)]
    rfl

theorem lowerEntries_eq {entries : List (Value × Value)}
    (hkeys : ∀ e ∈ entries, ∀ st, lower e.1 st = .ok e.1 st)
    (hvalues : ∀ e ∈ entries, ∀ st, lower e.2 st = .ok e.2 st) (st : State) :
    lowerEntries entries st = .ok entries st := by
  induction entries with
  | nil => rfl
  | cons e rest ih =>
    obtain ⟨k, v⟩ := e
    obtain ⟨hk, hkeys⟩ := List.forall_mem_cons.1 hkeys
    obtain ⟨hv, hvalues⟩ := List.forall_mem_cons.1 hvalues
    rw [lowerEntries, run_bind_ok (hk st), run_bind_ok (hv st), run_bind_ok (ih hkeys hvalues)]
    rfl

theorem lower_bare {v : Value} (h : v.Bare) (st : State) : lower v st = .ok v st := by
  induction h generalizing st with
  | @atom v h =>
    cases v with
    | vector | seq | map | marked => cases h
    | _ => rfl
  | list _ ih => rw [Value.list, lower, run_bind_ok (lowerSeq_eq ih st)]; rfl
  | vector _ ih => rw [lower, run_bind_ok (lowerItems_eq ih st)]; rfl
  | map hkeys _ hdistinct ihkeys ihvalues =>
    have hentries := foldl_putForm [] (fun e he => (hkeys e he).tidy) hdistinct
    rw [lower, run_bind_ok (lowerEntries_eq ihkeys ihvalues st)]
    exact congrArg (fun es => EStateM.Result.ok (Value.map es) st) hentries

end Shorthand
end LazyLisp
