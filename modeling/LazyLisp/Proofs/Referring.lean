import Mathlib.Data.List.Nodup
import LazyLisp.Proofs.Ownership

/-!
Referring to the vars of another namespace, all or none of them. It fails for want of a namespace or
because one name is in conflict, and then nothing has changed. Otherwise the target sees every var
that the source owns, what else it saw, and nothing is different anywhere else. The order in which
the names of the source come does not matter, as long as each of them comes once.
-/

namespace LazyLisp
set_option autoImplicit false

namespace Table
variable {α : Type} {t more : Table α} {key : NameId} {a : α}

/-- Every key stands once. -/
def Distinct (t : Table α) : Prop := (t.map (·.1)).Nodup

theorem distinct_cons {e : NameId × α} :
    Distinct (e :: t) ↔ (∀ a, (e.1, a) ∉ t) ∧ t.Distinct := by
  simp [Distinct]

theorem get?_of_mem (ht : t.Distinct) (h : (key, a) ∈ t) : t.get? key = some a := by
  induction t with
  | nil => cases h
  | cons e rest ih =>
    obtain ⟨hnew, hrest⟩ := distinct_cons.1 ht
    rw [get?_cons]
    rcases List.mem_cons.1 h with rfl | h
    · exact if_pos rfl
    · have hkey : key ≠ e.1 := by
        rintro rfl
        exact hnew a h
      rw [if_neg hkey]
      exact ih hrest h

theorem get?_eq_none (h : ∀ a, (key, a) ∉ t) : t.get? key = none := by
  cases hget : t.get? key with
  | none => rfl
  | some a => exact absurd (mem_of_get? hget) (h a)

theorem Distinct.put (ht : t.Distinct) : (t.put key a).Distinct := by
  induction t with
  | nil => exact List.nodup_cons.2 ⟨List.not_mem_nil, List.nodup_nil⟩
  | cons e rest ih =>
    obtain ⟨hnew, hrest⟩ := distinct_cons.1 ht
    rw [Table.put]
    split
    · exact distinct_cons.2 ⟨hnew, hrest⟩
    · rename_i hkey
      refine distinct_cons.2 ⟨fun b hb => ?_, ih hrest⟩
      rcases mem_put hb with heq | hb
      · exact hkey (congrArg Prod.fst heq).symm
      · exact hnew b hb

theorem Distinct.remove (ht : t.Distinct) : (t.remove key).Distinct := by
  induction t with
  | nil => exact ht
  | cons e rest ih =>
    obtain ⟨hnew, hrest⟩ := distinct_cons.1 ht
    rw [Table.remove]
    split
    · exact ih hrest
    · exact distinct_cons.2 ⟨fun b hb => hnew b (mem_remove hb), ih hrest⟩

/-- Entries that are put into a table one by one come before those that were there. -/
theorem get?_foldl_put (hmore : more.Distinct) (t : Table α) (key : NameId) :
    (more.foldl (fun t e => t.put e.1 e.2) t).get? key = (more.get? key).or (t.get? key) := by
  induction more generalizing t with
  | nil => rfl
  | cons e rest ih =>
    obtain ⟨hnew, hrest⟩ := distinct_cons.1 hmore
    rw [List.foldl_cons, ih hrest, get?_cons, get?_put]
    by_cases hkey : key = e.1
    · subst hkey
      rw [get?_eq_none hnew, if_pos rfl, if_pos rfl]
      rfl
    · rw [if_neg hkey, if_neg hkey]

end Table

namespace Namespaces

/-- The tables that the operations make: what is mapped has the name it should have, and no
namespace owns two vars of one name. -/
structure Regular (s : Namespaces) : Prop where
  sound : s.Sound
  own : ∀ e ∈ s.table, e.2.own.Distinct

section
variable {s t : Namespaces} {op : Operation} {ns name target source : NameId} {n : Namespace}

theorem Regular.get? (h : s.Regular) (hn : s.get? ns = some n) : n.own.Distinct :=
  h.own (ns, n) (Table.mem_of_get? hn)

theorem Regular.put (h : s.Regular) (hn : n.own.Distinct) :
    ∀ e ∈ s.table.put ns n, e.2.own.Distinct := by
  intro e he
  rcases Table.mem_put he with rfl | he
  · exact hn
  · exact h.own e he

theorem Performs.regular (h : Performs s op t) (hs : s.Regular) : t.Regular := by
  refine ⟨h.sound hs.sound, ?_⟩
  cases h with
  | failed | set => exact hs.own
  | create ns =>
    unfold Namespaces.create
    split
    · exact hs.own
    · exact hs.put List.nodup_nil
  | intern h =>
    obtain ⟨n, hn, ⟨-, rfl⟩ | ⟨-, -, rfl⟩⟩ := intern?_cases h
    · exact hs.own
    · exact hs.put (hs.get? hn).put
  | unmap h =>
    obtain ⟨n, hn, rfl⟩ := unmap?_cases h
    exact hs.put (hs.get? hn).remove
  | remove ns => exact fun e he => hs.own e (Table.mem_remove he)
  | refer h =>
    obtain ⟨n, refers, hn, rfl⟩ := refer_cases h
    have hown : n.own.Distinct := hs.get? hn
    exact hs.put hown

theorem performAll_regular (hs : s.Regular) (ops : List Operation) :
    (s.performAll ops).Regular := by
  induction ops generalizing s with
  | nil => exact hs
  | cons op ops ih => exact ih ((performs s op).regular hs)

/-- Every var that a namespace owns is there under one name only. -/
theorem Regular.nodup_vars (h : s.Regular) (hn : s.get? ns = some n) :
    (n.own.map (·.2)).Nodup := by
  have hkeys : n.own.Distinct := h.get? hn
  refine hkeys.of_map.map_on ?_
  rintro ⟨name, id⟩ he ⟨name', id'⟩ he' rfl
  have hname := (h.sound.get? hn).own name id he
  rw [(h.sound.get? hn).own name' id he'] at hname
  cases hname
  rfl

end

/-- The source owns a var under the name, and the target sees another one. -/
def Conflicts (s : Namespaces) (target source name : NameId) : Prop :=
  ∃ id id', s.own? source name = some id ∧ s.lookup? target name = some id' ∧ id' ≠ id

section
variable {s t : Namespaces} {target source name : NameId} {count : Nat} {giver taker : Namespace}

theorem conflict?_eq_some (hgiver : s.get? source = some giver) (hs : s.Regular)
    (htaker : s.get? target = some taker) (h : conflict? taker giver.own = some name) :
    s.Conflicts target source name := by
  obtain ⟨⟨name, id⟩, hfind, rfl⟩ := Option.map_eq_some_iff.1 h
  have hown := Table.get?_of_mem (hs.get? hgiver) (List.mem_of_find?_eq_some hfind)
  have hany := List.find?_some hfind
  obtain ⟨id', hlookup, hne⟩ := (Option.any_eq_true _ _).1 hany
  refine ⟨id, id', ?_, ?_, bne_iff_ne.1 hne⟩
  · rw [own?, hgiver]
    exact hown
  · rw [lookup?, htaker]
    exact hlookup

theorem conflict?_eq_none (hgiver : s.get? source = some giver)
    (htaker : s.get? target = some taker) (h : conflict? taker giver.own = none) (name : NameId) :
    ¬ s.Conflicts target source name := by
  rintro ⟨id, id', hown, hlookup, hne⟩
  rw [own?, hgiver] at hown
  rw [lookup?, htaker] at hlookup
  have hnone := List.find?_eq_none.1 (Option.map_eq_none_iff.1 h) (name, id)
    (Table.mem_of_get? hown)
  change ¬ (taker.lookup? name).any (· != id) = true at hnone
  change taker.lookup? name = some id' at hlookup
  rw [hlookup] at hnone
  exact hnone (bne_iff_ne.2 hne)

/-- What referring comes to, case by case. -/
inductive ReferCase (s : Namespaces) (target source : NameId) :
    Except ReferError Nat × Namespaces → Prop
  | missing {ns : NameId} : ns = source ∨ ns = target → s.get? ns = none →
    ReferCase s target source (.error (.missing ns), s)
  | conflict {giver taker : Namespace} {name : NameId} : s.get? source = some giver →
    s.get? target = some taker → conflict? taker giver.own = some name →
    ReferCase s target source (.error (.conflict name), s)
  | done {giver taker seen : Namespace} : s.get? source = some giver →
    s.get? target = some taker → conflict? taker giver.own = none →
    seen = { taker with refers := giver.own.foldl (fun t e => t.put e.1 e.2) taker.refers } →
    ReferCase s target source
      (.ok giver.own.length, { s with table := s.table.put target seen })

theorem refer_case (s : Namespaces) (target source : NameId) :
    ReferCase s target source (s.refer target source) := by
  unfold refer
  cases hgiver : s.get? source with
  | none => exact .missing (.inl rfl) hgiver
  | some giver =>
    cases htaker : s.get? target with
    | none => exact .missing (.inr rfl) htaker
    | some taker =>
      dsimp only
      cases hconflict : conflict? taker giver.own with
      | none => exact .done hgiver htaker hconflict rfl
      | some name => exact .conflict hgiver htaker hconflict

theorem contains_eq_false {ns : NameId} : s.contains ns = false ↔ s.get? ns = none :=
  Option.isSome_eq_false_iff.trans Option.isNone_iff_eq_none

theorem Conflicts.contains (h : s.Conflicts target source name) :
    (∃ giver, s.get? source = some giver) ∧ ∃ taker, s.get? target = some taker := by
  obtain ⟨id, id', hown, hlookup, -⟩ := h
  obtain ⟨giver, hgiver, -⟩ := Option.bind_eq_some_iff.1 hown
  obtain ⟨taker, htaker, -⟩ := Option.bind_eq_some_iff.1 hlookup
  exact ⟨⟨giver, hgiver⟩, taker, htaker⟩

theorem refer_missing (s : Namespaces) (target source : NameId) :
    (∃ ns, (s.refer target source).1 = .error (.missing ns)) ↔
      s.contains source = false ∨ s.contains target = false := by
  rw [contains_eq_false, contains_eq_false]
  have hcase := refer_case s target source
  generalize s.refer target source = r at hcase ⊢
  cases hcase with
  | missing hns hnone =>
    refine iff_of_true ⟨_, rfl⟩ ?_
    rcases hns with rfl | rfl
    · exact .inl hnone
    · exact .inr hnone
  | conflict hgiver htaker | done hgiver htaker =>
    refine iff_of_false nofun ?_
    rw [hgiver, htaker]
    nofun

theorem refer_conflict (hs : s.Regular) (target source : NameId) :
    (∃ name, (s.refer target source).1 = .error (.conflict name)) ↔
      ∃ name, s.Conflicts target source name := by
  have hcase := refer_case s target source
  generalize s.refer target source = r at hcase ⊢
  cases hcase with
  | missing hns hnone =>
    refine iff_of_false nofun ?_
    rintro ⟨name, hname⟩
    obtain ⟨⟨giver, hgiver⟩, taker, htaker⟩ := hname.contains
    rcases hns with rfl | rfl
    · rw [hgiver] at hnone
      cases hnone
    · rw [htaker] at hnone
      cases hnone
  | conflict hgiver htaker h =>
    exact iff_of_true ⟨_, rfl⟩ ⟨_, conflict?_eq_some hgiver hs htaker h⟩
  | done hgiver htaker h =>
    refine iff_of_false nofun ?_
    rintro ⟨name, hname⟩
    exact conflict?_eq_none hgiver htaker h name hname

/-- What is reported: a namespace that is missing, or a name that is in conflict. -/
def Reports (s : Namespaces) (target source : NameId) : ReferError → Prop
  | .missing ns => (ns = source ∨ ns = target) ∧ s.contains ns = false
  | .conflict name => s.Conflicts target source name

theorem refer_error (hs : s.Regular) {e : ReferError} (h : s.refer target source = (.error e, t)) :
    s.Reports target source e := by
  have hcase := h ▸ refer_case s target source
  cases hcase with
  | missing hns hnone => exact ⟨hns, contains_eq_false.2 hnone⟩
  | conflict hgiver htaker hname => exact conflict?_eq_some hgiver hs htaker hname

/-- What the source owns comes first; no var of the target stands in its way. -/
theorem lookup?_refer (hs : s.Regular) (h : s.refer target source = (.ok count, t))
    (name : NameId) :
    t.lookup? target name = (s.own? source name).or (s.lookup? target name) := by
  have hcase := h ▸ refer_case s target source
  cases hcase with
  | @done giver taker seen hgiver htaker hconflict hseen =>
    have hnone := conflict?_eq_none hgiver htaker hconflict name
    have hown : s.own? source name = giver.own.get? name := by rw [own?, hgiver]; rfl
    have hlookup : s.lookup? target name = (taker.own.get? name).or (taker.refers.get? name) := by
      rw [lookup?, htaker]
      rfl
    rw [lookup?, Namespaces.get?, Table.get?_put, if_pos rfl, Option.bind_some]
    rw [hseen, Namespace.lookup?, Table.get?_foldl_put (hs.get? hgiver), ← hown, hlookup]
    cases hid : s.own? source name with
    | none => rfl
    | some id =>
      cases hid' : taker.own.get? name with
      | none => rfl
      | some id' =>
        rw [hid', Option.some_or] at hlookup
        by_contra hne
        exact hnone ⟨id, id', hid, hlookup, fun heq => hne (congrArg some heq)⟩

/-- What referring leaves behind where it succeeds. -/
structure Referred (s : Namespaces) (target source : NameId) (count : Nat) (t : Namespaces) :
    Prop where
  /-- The answer is the number of vars that the source owns. -/
  counts : ∃ owned : List VarId, owned.Nodup ∧
    (∀ id, id ∈ owned ↔ ∃ name, s.own? source name = some id) ∧ count = owned.length
  incoming : ∀ name id, s.own? source name = some id → t.lookup? target name = some id
  others : ∀ name, s.own? source name = none → t.lookup? target name = s.lookup? target name
  own : ∀ ns name, t.own? ns name = s.own? ns name
  elsewhere : ∀ ns, ns ≠ target → t.get? ns = s.get? ns
  vars : t.vars = s.vars

theorem refer_referred (hs : s.Regular) (h : s.refer target source = (.ok count, t)) :
    s.Referred target source count t := by
  have hlookup := lookup?_refer hs h
  have hcase := h ▸ refer_case s target source
  refine ⟨?_, fun name id hid => ?_, fun name hnone => ?_, own?_refer h, fun ns hns => ?_, ?_⟩
  · cases hcase with
    | @done giver taker seen hgiver htaker _ _ =>
      refine ⟨giver.own.map (·.2), hs.nodup_vars hgiver, fun id => ?_, (List.length_map _).symm⟩
      rw [List.mem_map]
      constructor
      · rintro ⟨⟨name, id⟩, he, rfl⟩
        refine ⟨name, ?_⟩
        rw [own?, hgiver]
        exact Table.get?_of_mem (hs.get? hgiver) he
      · rintro ⟨name, hid⟩
        rw [own?, hgiver] at hid
        exact ⟨(name, id), Table.mem_of_get? hid, rfl⟩
  · rw [hlookup, hid, Option.some_or]
  · rw [hlookup, hnone, Option.none_or]
  · cases hcase with
    | done => exact (Table.get?_put _ _ _ _).trans (if_neg hns)
  · cases hcase with
    | done => rfl

/-- Referring again succeeds with the same answer and changes nothing that is seen. -/
theorem refer_again (hs : s.Regular) (h : s.refer target source = (.ok count, t)) :
    ∃ u, t.refer target source = (.ok count, u) ∧
      ∀ ns name, u.lookup? ns name = t.lookup? ns name := by
  have ht : t.Regular := (Performs.refer h).regular hs
  have hfirst := refer_referred hs h
  have hsource : (∃ n, s.get? source = some n) ∧ ∃ n, s.get? target = some n := by
    have hcase := h ▸ refer_case s target source
    cases hcase with
    | done hgiver htaker => exact ⟨⟨_, hgiver⟩, _, htaker⟩
  rw [← contains_iff, ← contains_iff, ← contains_refer h, ← contains_refer h] at hsource
  rcases hagain : t.refer target source with ⟨(e | count'), u⟩
  · have herror := refer_error ht hagain
    cases e with
    | missing ns =>
      obtain ⟨rfl | rfl, hnone⟩ := herror
      · rw [hsource.1] at hnone
        cases hnone
      · rw [hsource.2] at hnone
        cases hnone
    | conflict name =>
      obtain ⟨id, id', hown, hlookup, hne⟩ := herror
      rw [hfirst.own] at hown
      rw [hfirst.incoming name id hown] at hlookup
      cases hlookup
      exact absurd rfl hne
  · have hsecond := refer_referred ht hagain
    have hcount : count' = count := by
      obtain ⟨owned, hnodup, hmem, rfl⟩ := hfirst.counts
      obtain ⟨owned', hnodup', hmem', rfl⟩ := hsecond.counts
      refine ((List.perm_ext_iff_of_nodup hnodup' hnodup).2 fun id => ?_).length_eq
      simp only [hmem, hmem', hfirst.own]
    refine ⟨u, by rw [hcount], fun ns name => ?_⟩
    by_cases hns : ns = target
    · subst hns
      cases hown : t.own? source name with
      | none => exact hsecond.others name hown
      | some id =>
        rw [hsecond.incoming name id hown]
        rw [hfirst.own] at hown
        exact (hfirst.incoming name id hown).symm
    · rw [lookup?, hsecond.elsewhere ns hns]
      rfl

end

/-- Whatever the operations make of an empty table is regular, and in a regular table referring is
all or nothing: it fails for want of a namespace exactly if the source or the target is absent, and
with a conflict exactly if there is one, whose name it reports; no failure changes anything. If it
succeeds, it counts the vars of the source, the target sees them and what else it saw, all own vars
and all other namespaces are as before, and doing it again changes nothing. -/
theorem refer_all_or_nothing :
    (∀ ops, (({} : Namespaces).performAll ops).Regular) ∧
    ∀ s : Namespaces, s.Regular → ∀ target source,
      ((∃ ns, (s.refer target source).1 = .error (.missing ns)) ↔
        s.contains source = false ∨ s.contains target = false) ∧
      ((∃ name, (s.refer target source).1 = .error (.conflict name)) ↔
        ∃ name, s.Conflicts target source name) ∧
      (∀ e t, s.refer target source = (.error e, t) →
        s.Reports target source e ∧ t = s ∧ s.perform (.refer target source) = s ∧
        ∀ w : World, w.spaces = s → ∃ err, Core.refer target source w = .error (.error err) w) ∧
      ∀ count t, s.refer target source = (.ok count, t) →
        s.Referred target source count t ∧ s.perform (.refer target source) = t ∧
        ∃ u, t.refer target source = (.ok count, u) ∧
          ∀ ns name, u.lookup? ns name = t.lookup? ns name := by
  have hempty : ({} : Namespaces).Regular :=
    ⟨fun _ he => absurd he List.not_mem_nil, fun _ he => absurd he List.not_mem_nil⟩
  refine ⟨performAll_regular hempty, fun s hs target source => ⟨refer_missing s target source,
    refer_conflict hs target source, fun e t h => ⟨refer_error hs h, refer_failed h, ?_, ?_⟩,
    fun count t h => ⟨refer_referred hs h, ?_, refer_again hs h⟩⟩⟩
  · rw [perform, h]
    exact refer_failed h
  · rintro w rfl
    rw [refer_run, h]
    cases e <;> exact ⟨_, rfl⟩
  · rw [perform, h]

/-- Two names of a namespace are referred to from another one, which owns a third; then a name of
its own is in conflict. -/
theorem refer_all_or_nothing_two_names :
    let s := ({} : Namespaces).performAll
      [.create 0, .create 1, .intern 0 7, .intern 0 8, .intern 1 9]
    let t := s.perform (.refer 1 0)
    let clash := (t.perform (.unmap 1 8)).perform (.intern 1 8)
    s.Regular ∧ s.refer 1 0 = (.ok 2, t) ∧ s.Referred 1 0 2 t ∧
      clash.refer 1 0 = (.error (.conflict 8), clash) ∧ clash.Conflicts 1 0 8 ∧
      clash.perform (.refer 1 0) = clash := by
  intro s t clash
  have hs : s.Regular := refer_all_or_nothing.1 _
  have hclash : clash.Regular := performAll_regular hs [.refer 1 0, .unmap 1 8, .intern 1 8]
  have hrefer : s.refer 1 0 = (.ok 2, t) := rfl
  have hfails : clash.refer 1 0 = (.error (.conflict 8), clash) := rfl
  obtain ⟨-, -, -, hdone⟩ := refer_all_or_nothing.2 s hs 1 0
  obtain ⟨-, -, herror, -⟩ := refer_all_or_nothing.2 clash hclash 1 0
  obtain ⟨hconflict, -, hkept, -⟩ := herror _ _ hfails
  exact ⟨hs, hrefer, (hdone 2 t hrefer).1, hfails, hconflict, hkept⟩

end Namespaces
end LazyLisp
