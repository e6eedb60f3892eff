import Mathlib.Data.List.Induction
import Mathlib.Data.List.Nodup
import LazyLisp.Core.Textual
import LazyLisp.Form.Shorthand
import LazyLisp.Proofs.NameStore
import LazyLisp.Proofs.Running

/-!
The store of names under any sequence of calls. Every text has one position and every position one
text, the positions in use are those below the size, and nothing that was given out is given out
again for another text. What a call makes up afresh was not in the store, and the numbers that it
tries out stay below the square of the size.
-/

namespace LazyLisp
set_option autoImplicit false

namespace Names

/-- The calls that the store serves. -/
inductive Call
  | intern (text : String)
  | find (text : String)
  | fresh (stem : String) (ending : Option String)

/-- The position that a call is answered with, and the store that it leaves behind. -/
def serve (names : Names) : Call → Option NameId × Names
  | .intern text => ((names.intern text).1, (names.intern text).2)
  | .find text => (names.find? text, names)
  | .fresh stem ending => ((names.fresh stem ending).1, (names.fresh stem ending).2)

/-- The store behind some calls. -/
def after (names : Names) (calls : List Call) : Names :=
  calls.foldl (fun names call => (names.serve call).2) names

/-- The call gives out the position of the text, which need not have had one before. -/
inductive Issues (names : Names) : Call → String → Prop
  | intern (text : String) : Issues names (.intern text) text
  | fresh (stem : String) (ending : Option String) :
    Issues names (.fresh stem ending)
      ((names.fresh stem ending).2.text (names.fresh stem ending).1)

/-- One of the calls gave out a position for the text. -/
def Issued (calls : List Call) (text : String) : Prop :=
  ∃ front call back, calls = front ++ call :: back ∧ Issues (initial.after front) call text

section
variable {a b : Names} {text : String} {id : NameId}

theorem after_append (names : Names) (front back : List Call) :
    names.after (front ++ back) = (names.after front).after back := List.foldl_append

theorem after_concat (names : Names) (calls : List Call) (call : Call) :
    names.after (calls ++ [call]) = ((names.after calls).serve call).2 :=
  after_append names calls [call]

theorem text_mem (hid : id < a.size) : a.text id ∈ a.texts := by
  rw [Names.text, List.getElem?_eq_getElem hid]
  exact List.getElem_mem hid

theorem text_intern (names : Names) (text : String) :
    (names.intern text).2.text (names.intern text).1 = text :=
  text_of_find? (find?_intern names text)

/-- A position is found by its text. -/
theorem find?_text (hid : id < a.size) : a.find? (a.text id) = some id := by
  apply (a.inverse (a.text id) id).2
  rw [Names.text, List.getElem?_eq_getElem hid, Option.getD_some]

/-! ### What a call keeps -/

/-- The stores that calls lead to from `a`. The counter stays below the square of the size. -/
structure Extends (a b : Names) : Prop where
  grows : a.Grows b
  counter : b.counter ≤ b.size * b.size

theorem counter_intern (names : Names) (text : String) :
    (names.intern text).2.counter = names.counter := by
  unfold Names.intern
  split <;> rfl

theorem Extends.intern (h : a.Extends b) (text : String) : a.Extends (b.intern text).2 := by
  have hsize : b.size ≤ (b.intern text).2.size := (grows_intern b text).size_le
  refine ⟨h.grows.trans (grows_intern b text), ?_⟩
  rw [counter_intern]
  exact Nat.le_trans h.counter (Nat.mul_le_mul hsize hsize)

theorem Extends.fresh (h : a.Extends b) (stem : String) (ending : Option String) :
    a.Extends (b.fresh stem ending).2 := by
  obtain ⟨n, -, htexts, hcounter, -, -, hbound, -⟩ := fresh_spec b stem ending
  refine ⟨h.grows.trans (grows_fresh b stem ending), ?_⟩
  have hsize : (b.fresh stem ending).2.size = b.size + 1 := by
    rw [Names.size, htexts]
    exact List.length_append
  rw [hsize, hcounter]
  calc n ≤ b.counter + b.size + 1 := hbound
    _ ≤ b.size * b.size + b.size + 1 := by have := h.counter; omega
    _ ≤ (b.size + 1) * (b.size + 1) := by rw [Nat.succ_mul_succ]; omega

theorem Extends.serve (h : a.Extends b) (call : Call) : a.Extends (b.serve call).2 := by
  cases call with
  | intern text => exact h.intern text
  | find text => exact h
  | fresh stem ending => exact h.fresh stem ending

theorem Extends.after (h : a.Extends b) (calls : List Call) : a.Extends (b.after calls) := by
  induction calls generalizing b with
  | nil => exact h
  | cons call calls ih => exact ih (h.serve call)

theorem Extends.refl (hcounter : a.counter ≤ a.size * a.size) : a.Extends a := ⟨.refl a, hcounter⟩

theorem initial_extends (calls : List Call) : initial.Extends (initial.after calls) :=
  Extends.after (.refl (by decide)) calls

theorem after_grows (calls more : List Call) :
    (initial.after calls).Grows ((initial.after calls).after more) :=
  (Extends.after (.refl (initial_extends calls).counter) more).grows

/-! ### What has been given out -/

/-- A call adds what it gives out and nothing else. -/
theorem mem_serve {call : Call} :
    text ∈ (a.serve call).2.texts ↔ text ∈ a.texts ∨ Issues a call text := by
  constructor
  · intro h
    cases call with
    | find t => exact .inl h
    | intern t =>
      change text ∈ (a.intern t).2.texts at h
      cases hfind : a.find? t with
      | some id =>
        rw [intern_of_find? hfind] at h
        exact .inl h
      | none =>
        rw [a.intern_of_find?_eq_none hfind] at h
        rcases List.mem_append.1 h with h | h
        · exact .inl h
        · cases List.mem_singleton.1 h
          exact .inr (.intern text)
    | fresh stem ending =>
      have hissues : Issues a (.fresh stem ending)
          ((a.fresh stem ending).2.text (a.fresh stem ending).1) := .fresh stem ending
      obtain ⟨n, hid, htexts, -⟩ := fresh_spec a stem ending
      change text ∈ (a.fresh stem ending).2.texts at h
      rw [htexts] at h
      rcases List.mem_append.1 h with h | h
      · exact .inl h
      · cases List.mem_singleton.1 h
        rw [Names.text, hid, htexts, Names.size, List.getElem?_concat_length] at hissues
        exact .inr hissues
  · rintro (h | h)
    · cases call with
      | find t => exact h
      | intern t => exact (grows_intern a t).subset h
      | fresh stem ending => exact (grows_fresh a stem ending).subset h
    · cases h with
      | intern => exact find?_isSome.1 (Option.isSome_of_mem (find?_intern a text))
      | fresh stem ending =>
        obtain ⟨n, hfind⟩ := find?_fresh a stem ending
        exact text_mem (lt_of_find? hfind)

/-- The store holds what it began with and what was given out since. -/
theorem mem_after (calls : List Call) (text : String) :
    text ∈ (initial.after calls).texts ↔ text ∈ initial.texts ∨ Issued calls text := by
  induction calls using List.reverseRecOn with
  | nil =>
    refine (or_iff_left ?_).symm
    rintro ⟨front, call, back, heq, -⟩
    cases front <;> cases heq
  | append_singleton calls call ih =>
    rw [after_concat, mem_serve, ih, or_assoc]
    refine or_congr_right ⟨?_, ?_⟩
    · rintro (⟨front, c, back, rfl, h⟩ | h)
      · exact ⟨front, c, back ++ [call], List.append_assoc _ _ _, h⟩
      · exact ⟨calls, call, [], rfl, h⟩
    · rintro ⟨front, c, back, heq, h⟩
      rcases List.eq_nil_or_concat back with rfl | ⟨back, last, rfl⟩
      · obtain ⟨rfl, hcall⟩ := List.append_inj' heq rfl
        cases hcall
        exact .inr h
      · rw [List.concat_eq_append, ← List.cons_append, ← List.append_assoc] at heq
        obtain ⟨rfl, -⟩ := List.append_inj' heq rfl
        exact .inl ⟨front, c, back, rfl, h⟩

/-! ### Positions and texts are one to one -/

theorem exists_find?_iff : id < a.size ↔ ∃ text, a.find? text = some id :=
  ⟨fun hid => ⟨a.text id, find?_text hid⟩, fun ⟨_, h⟩ => lt_of_find? h⟩

theorem find?_inj {text' : String} {id' : NameId} (h : a.find? text = some id)
    (h' : a.find? text' = some id') : id = id' ↔ text = text' := by
  constructor
  · rintro rfl
    rw [← text_of_find? h, ← text_of_find? h']
  · rintro rfl
    exact Option.some.inj (h.symm.trans h')

theorem text_inj {id' : NameId} (hid : id < a.size) (hid' : id' < a.size) :
    a.text id = a.text id' ↔ id = id' :=
  (find?_inj (find?_text hid) (find?_text hid')).symm

/-- Two names get one position exactly if they are one name. -/
theorem intern_inj (names : Names) (text text' : String) :
    (names.intern text).1 = ((names.intern text).2.intern text').1 ↔ text = text' :=
  find?_inj ((grows_intern _ text').find? (find?_intern names text)) (find?_intern _ text')

theorem Grows.find?_text {id : NameId} (hab : a.Grows b) (hid : id < a.size) :
    b.text id = a.text id ∧ b.find? (a.text id) = some id :=
  ⟨hab.text hid, hab.find? (Names.find?_text hid)⟩

theorem find?_preloaded (calls : List Call) :
    ∀ p ∈ [("core", core), ("user", user), ("&", ampersand), ("*ns*", currentNs), ("*1", result1),
      ("*2", result2), ("*3", result3)], (initial.after calls).find? p.1 = some p.2 := by
  have hinitial : ∀ p ∈ [("core", core), ("user", user), ("&", ampersand), ("*ns*", currentNs),
      ("*1", result1), ("*2", result2), ("*3", result3)], initial.find? p.1 = some p.2 := by decide
  exact fun p hp => (initial_extends calls).grows.find? (hinitial p hp)

theorem counter_lt (h : a.size < UInt32.size) (ha : initial.Extends a) (stem : String)
    (ending : Option String) : (a.fresh stem ending).2.counter < UInt64.size := by
  obtain ⟨n, -, -, hn, -, -, hbound, -⟩ := fresh_spec a stem ending
  have hsquare : a.size * a.size ≤ (UInt32.size - 1) * (UInt32.size - 1) :=
    Nat.mul_le_mul (Nat.le_pred_of_lt h) (Nat.le_pred_of_lt h)
  have hcounter := ha.counter
  rw [hn]
  simp only [UInt32.size, UInt64.size] at h hsquare ⊢
  omega

/-! ### The symbols that fresh names stand for -/

theorem gensym_run (w : World) (stem : String) :
    Core.gensym (some (.string stem)) w =
      .ok (.symbol (.plain (w.names.fresh stem none).1))
        { w with names := (w.names.fresh stem none).2 } := rfl

theorem resolve_run {name : NameId} {stem : String}
    (h : Shorthand.freshStem? (a.text name) = some stem) :
    Shorthand.resolve (.plain name) ⟨a, []⟩ =
      .ok (.plain (a.fresh stem (some "auto")).1)
        ⟨(a.fresh stem (some "auto")).2, [(name, (a.fresh stem (some "auto")).1)]⟩ := by
  simp only [Shorthand.resolve, run_bind, run_get, Symbol.plain, h]
  rfl

end

/-- After any calls the two tables are inverse, with one position for each of as many texts: the
positions are those below the size, every one has its own text, and a text has the position that it
was given first, whatever calls follow. A text is found if and only if the store began with it or
gave it out. A fresh name stands for an unqualified symbol and was not in the store before: its
number is the first one behind the counter that makes a new name, and the search for it cannot go
past the size of the store. As long as positions fit into 32 bits they are different as such, and
the counter fits into 64. -/
theorem names_one_to_one_and_fresh (calls : List Call) :
    let s := initial.after calls
    (∀ text id, s.ids.lookup text = some id ↔ s.texts[id]? = some text) ∧
    (∀ id, id < s.size ↔ ∃ text, s.find? text = some id) ∧
    (∀ text, (s.intern text).2.text (s.intern text).1 = text ∧
      (s.find? text = none → (s.intern text).1 = s.size ∧ (s.intern text).2.size = s.size + 1)) ∧
    (∀ text text', (s.intern text).1 = ((s.intern text).2.intern text').1 ↔ text = text') ∧
    (∀ id < s.size, ∀ id' < s.size, s.text id = s.text id' ↔ id = id') ∧
    (∀ more, ∀ id < s.size,
      (s.after more).text id = s.text id ∧ (s.after more).find? (s.text id) = some id) ∧
    (∀ p ∈ [("core", core), ("user", user), ("&", ampersand), ("*ns*", currentNs), ("*1", result1),
      ("*2", result2), ("*3", result3)], s.find? p.1 = some p.2 ∧ s.text p.2 = p.1) ∧
    (∀ text, (s.find? text).isSome = true ↔ text ∈ initial.texts ∨ Issued calls text) ∧
    (∀ stem ending, ∃ n, (s.fresh stem ending).1 = s.size ∧
      (s.fresh stem ending).2.ids = s.ids ++ [(numbered stem ending n, s.size)] ∧
      (s.fresh stem ending).2.texts = s.texts ++ [numbered stem ending n] ∧
      (s.fresh stem ending).2.counter = n ∧
      s.find? (numbered stem ending n) = none ∧
      s.counter < n ∧ n ≤ s.counter + s.size + 1 ∧
      ∀ m, s.counter < m → m < n → (s.find? (numbered stem ending m)).isSome = true) ∧
    (∀ w : World, w.names = s → ∀ stem, ∃ symbol : Symbol,
      Core.gensym (some (.string stem)) w =
        .ok (.symbol symbol) { w with names := (s.fresh stem none).2 } ∧
      symbol.isQualified = false ∧ symbol.name = (s.fresh stem none).1) ∧
    (∀ name stem, Shorthand.freshStem? (s.text name) = some stem → ∃ symbol : Symbol,
      Shorthand.resolve (.plain name) ⟨s, []⟩ = .ok symbol
        ⟨(s.fresh stem (some "auto")).2, [(name, symbol.name)]⟩ ∧
      symbol.isQualified = false ∧ symbol.name = (s.fresh stem (some "auto")).1) ∧
    (s.size < UInt32.size →
      (∀ id < s.size, ∀ id' < s.size, UInt32.ofNat id = UInt32.ofNat id' → id = id') ∧
      ∀ stem ending, (s.fresh stem ending).2.counter < UInt64.size) := by
  intro s
  have hs : initial.Extends s := initial_extends calls
  refine ⟨s.inverse, fun id => exists_find?_iff,
    fun text => ⟨text_intern s text, fun hnone => ?_⟩,
    intern_inj s, fun id hid id' hid' => text_inj hid hid',
    fun more id hid => (after_grows calls more).find?_text hid,
    fun p hp => ⟨find?_preloaded calls p hp, text_of_find? (find?_preloaded calls p hp)⟩,
    fun text => find?_isSome.trans (mem_after calls text), fun stem ending => ?_,
    fun w hw stem => ?_, fun name stem hstem => ⟨_, resolve_run hstem, rfl, rfl⟩,
    fun hsize => ⟨fun id hid id' hid' heq => ?_, counter_lt hsize hs⟩⟩
  · rw [s.intern_of_find?_eq_none hnone]
    exact ⟨rfl, List.length_append⟩
  · obtain ⟨-, hlt, hbound, hgone⟩ := freshNumber_spec s stem ending
    rw [fresh_eq]
    exact ⟨_, rfl, rfl, rfl, rfl, find?_freshNumber s stem ending, hlt, hbound,
      fun m hm hmn => find?_isSome.2 (hgone m hm hmn)⟩
  · rw [← hw]
    exact ⟨_, gensym_run w stem, rfl, rfl⟩
  · have hnat := congrArg UInt32.toNat heq
    rwa [UInt32.toNat_ofNat_of_lt' (Nat.lt_trans hid hsize),
      UInt32.toNat_ofNat_of_lt' (Nat.lt_trans hid' hsize)] at hnat

/-- A name that looks like a fresh one is passed over, and numbers are never used again. -/
theorem names_one_to_one_and_fresh_imitated :
    let s := initial.after
      [.intern "x#", .intern "G__1", .fresh "G" none, .find "y", .fresh "x" (some "auto")]
    let w : World := { names := s }
    s.texts = initial.texts ++ ["x#", "G__1", "G__2", "x__3__auto"] ∧ s.size < UInt32.size ∧
    (∃ symbol : Symbol,
      Core.gensym (some (.string "G")) w =
        .ok (.symbol symbol) { w with names := (s.fresh "G" none).2 } ∧
      symbol.isQualified = false ∧ symbol.name = 11) ∧
    (∃ symbol : Symbol,
      Shorthand.resolve (.plain 7) ⟨s, []⟩ = .ok symbol
        ⟨(s.fresh "x" (some "auto")).2, [(7, symbol.name)]⟩ ∧
      symbol.isQualified = false ∧ symbol.name = 11) ∧
    (s.fresh "G" none).2.counter < UInt64.size := by
  intro s w
  have htexts : s.texts = initial.texts ++ ["x#", "G__1", "G__2", "x__3__auto"] := by
    decide +kernel
  have hsize : s.size = 11 := congrArg List.length htexts
  have hsmall : s.size < UInt32.size := hsize ▸ by decide
  have hstem : Shorthand.freshStem? (s.text 7) = some "x" := by
    rw [text, htexts]
    decide
  obtain ⟨-, -, -, -, -, -, -, -, -, hgensym, hresolve, hwords⟩ := names_one_to_one_and_fresh
    [.intern "x#", .intern "G__1", .fresh "G" none, .find "y", .fresh "x" (some "auto")]
  obtain ⟨symbol, hrun, hplain, hname⟩ := hgensym w rfl "G"
  obtain ⟨symbol', hrun', hplain', hname'⟩ := hresolve 7 "x" hstem
  rw [(fresh_new s _ _).1, hsize] at hname hname'
  exact ⟨htexts, hsmall, ⟨symbol, hrun, hplain, hname⟩, ⟨symbol', hrun', hplain', hname'⟩,
    (hwords hsmall).2 "G" none⟩

end Names
end LazyLisp
