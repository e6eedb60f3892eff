import LazyLisp.Proofs.LibraryCode

/-!
What the library's macros make of the forms they are given. The body of a macro is code of the
library too: it looks at the list of forms and builds the expansion from a template.
-/

namespace LazyLisp
set_option autoImplicit false

namespace Core
variable {w v u : World} {scope : Scope} {c : Value} {s : Seq} {o o' : Option (Value × Seq)}

/-! Looks at the front of a collection. -/

theorem comesTo_seqOf {function : String} (hs : c.toSeq? = some s) (w : World) :
    ComesTo (fun _ => seqOf function c) w (.ok s w) := by
  rw [seqOf, hs]
  exact .pure s w

theorem comesTo_seqOrNil (h : Seq.Takes w s o v) :
    ComesTo (fun n => seqOrNil (.ofBudget n) s) w
      (.ok (if o.isNone then .nil else .seq s) v) := by
  have hempty : ComesTo (fun n => s.isEmpty (.ofBudget n)) w (.ok o.isNone v) :=
    ⟨.ok _ v, h.isEmpty⟩
  refine hempty.bind ?_
  cases o.isNone
  · exact .pure _ v
  · exact .pure _ v

theorem comesTo_rest (h : Seq.Takes w s o v) :
    ComesTo (fun n => s.rest (.ofBudget n)) w (.ok ((o.map (·.2)).getD .empty) v) :=
  ⟨.ok _ v, h.rest⟩

theorem call_seq_takes (hs : c.toSeq? = some s) (h : Seq.Takes w s o v) :
    ComesTo (fun n => call (.ofBudget n) scope .seq [c]) w
      (.ok (if o.isNone then .nil else .seq s) v) :=
  (comesTo_seqOf hs w).bind (comesTo_seqOrNil h)

theorem call_first_takes (hs : c.toSeq? = some s) (h : Seq.Takes w s o v) :
    ComesTo (fun n => call (.ofBudget n) scope .first [c]) w
      (.ok ((o.map (·.1)).getD .nil) v) := by
  have hfirst : ComesTo (fun n => s.first? (.ofBudget n)) w (.ok (o.map (·.1)) v) :=
    ⟨.ok _ v, h.first?⟩
  exact (comesTo_seqOf hs w).bind (hfirst.bind (.pure _ v))

theorem call_rest_takes (hs : c.toSeq? = some s) (h : Seq.Takes w s o v) :
    ComesTo (fun n => call (.ofBudget n) scope .rest [c]) w
      (.ok (.seq ((o.map (·.2)).getD .empty)) v) :=
  (comesTo_seqOf hs w).bind ((comesTo_rest h).bind (.pure _ v))

theorem call_next_takes (hs : c.toSeq? = some s) (h : Seq.Takes w s o v)
    (h' : Seq.Takes v ((o.map (·.2)).getD .empty) o' u) :
    ComesTo (fun n => call (.ofBudget n) scope .next [c]) w
      (.ok (if o'.isNone then .nil else .seq ((o.map (·.2)).getD .empty)) u) :=
  (comesTo_seqOf hs w).bind ((comesTo_rest h).bind (comesTo_seqOrNil h'))

theorem call_cons_comesTo (hs : c.toSeq? = some s) (x : Value) (w : World) :
    ComesTo (fun n => call (.ofBudget n) scope .cons [x, c]) w (.ok (.seq (.cons x s)) w) :=
  (comesTo_seqOf hs w).bind (.pure _ w)

theorem call_vec_comesTo {items : List Value} (hs : c.toSeq? = some s) (h : s.Fixed items)
    (w : World) :
    ComesTo (fun n => call (.ofBudget n) scope .vec [c]) w (.ok (.vector items) w) := by
  obtain ⟨n, hn⟩ := h.toList
  have hlist : ComesTo (fun n => s.toList (.ofBudget n)) w (.ok items w) := by
    refine ⟨.ok items w, n, fun m hm => ?_⟩
    show s.toList (.ofBudget m) w = _
    rw [hn (.ofBudget m) hm]
    rfl
  exact (comesTo_seqOf hs w).bind (hlist.bind (.pure _ w))

/-! Comparisons of integers. -/

theorem compareChain_pair (function : String) (accept : Ordering → Bool) (a b : Int64) :
    compareChain function accept [.int a, .int b] =
      pure (.bool (accept (compare a.toInt b.toInt))) := by
  have hpair : Number.chain accept [.int a, .int b] = accept (compare a.toInt b.toInt) := by
    simp only [Number.chain, Number.compare?, Option.any_some, Bool.and_true]
  rw [← hpair]
  rfl

theorem call_less (scope : Scope) (a b : Int64) (w : World) :
    ComesTo (fun n => call (.ofBudget n) scope .less [.int a, .int b]) w
      (.ok (.bool (decide (a.toInt < b.toInt))) w) := by
  have hless : decide (a.toInt < b.toInt) = (compare a.toInt b.toInt == .lt) := by
    rw [Bool.eq_iff_iff, beq_iff_eq, decide_eq_true_iff, compare_lt_iff_lt]
  exact hless ▸ .always (.ok _ w) fun _ => congrFun (compareChain_pair "<" (· == .lt) a b) w

theorem call_greater (scope : Scope) (a b : Int64) (w : World) :
    ComesTo (fun n => call (.ofBudget n) scope .greater [.int a, .int b]) w
      (.ok (.bool (decide (b.toInt < a.toInt))) w) := by
  have hgreater : decide (b.toInt < a.toInt) = (compare a.toInt b.toInt == .gt) := by
    rw [Bool.eq_iff_iff, beq_iff_eq, decide_eq_true_iff, compare_gt_iff_gt]
  exact hgreater ▸ .always (.ok _ w) fun _ => congrFun (compareChain_pair ">" (· == .gt) a b) w

end Core

@[simp] theorem Value.isCode_list (items : List Value) :
    (Value.list items).isCode = Value.allCode items := by
  induction items with
  | nil => rfl
  | cons item items ih => exact congrArg (item.isCode && ·) ih

/-- The value of a rest parameter: a list, or `nil` if nothing remains. -/
def restValue (forms : List Value) : Value := if forms.isEmpty then .nil else .list forms

theorem toSeq?_restValue (forms : List Value) :
    (restValue forms).toSeq? = some (Seq.ofList forms) := by
  cases forms <;> rfl

/-- The form that binds the value of a form to the fresh symbol and branches on it. -/
def Library.branching (fresh : NameId) (first : Value) (branches : List Value) : Value :=
  .spliced [[.special .letIn], [.vector [word fresh, first]],
    [.spliced ([.special .ifElse] :: [word fresh] :: branches.map ([·]))]]

namespace Evaluation
open Library Shorthand
variable {w : World} {scope scope' : Scope} {form head test a b c x y : Value}
  {args parts : List Value} {items : List (List Value)}

theorem yields_of_continues (h : ∀ v, Idle w v →
      ∃ u, Idle v u ∧ Continues (outcomes scope form) v (outcomes scope' b) u)
    (hb : Yields (values scope' b) w x) : Yields (values scope form) w x := by
  intro v hwv
  obtain ⟨u, hvu, hcontinues⟩ := h v hwv
  obtain ⟨z, hz, huz⟩ := hb u (hwv.trans hvu)
  exact ⟨z, comesTo_value (hcontinues.comesTo (comesTo_outcome hz)), hvu.trans huz⟩

/-- A form that stands for itself. -/
theorem constant_yields
    (hx : ∀ (e : Engine) (scope : Scope), evaluateForm e scope x false = pure (.value x))
    (w : World) (scope : Scope) : Yields (values scope x) w x := by
  refine fun v _ => ⟨v, comesTo_value ⟨.ok _ v, 1, fun m hm => ?_⟩, .refl v⟩
  obtain ⟨m, rfl⟩ := Nat.exists_eq_add_of_le' hm
  exact congrFun (hx (.ofBudget m) scope) v

theorem if_yields (hform : form.IsList [.special .ifElse, test, a, b])
    (htell : form.Tellable w.log) (htest : Yields (values scope test) w y)
    (hbranch : Yields (values scope (if y.isTruthy then a else b)) w x) :
    Yields (values scope form) w x := by
  refine yields_of_continues (fun v hwv => ?_) hbranch
  obtain ⟨_, u, ⟨rfl, hvu⟩, -, hcontinues⟩ :=
    if_continues hform (hwv.log ▸ htell) (htest.along hwv).secures
  exact ⟨u, hvu, hcontinues⟩

/-! Calls of built-in functions that stand in a template as values. -/

theorem builtin_heads (b : Builtin) (v : World) : Heads v scope (.builtin b) (.builtin b) :=
  fun _ => rfl

theorem embedded_yields {b : Builtin} {xs : List Value}
    (hargs : List.Forall₂ (fun form x => Yields (values scope form) w x) args xs)
    (htell : (Value.list (.builtin b :: args)).isCode = true)
    (hcall : ∀ v, ComesTo (fun n => Core.call (.ofBudget n) scope b xs) v (.ok x v)) :
    Yields (values scope (.list (.builtin b :: args))) w x :=
  builtin_yields (Value.isList_list _) (.of_timeless (Value.timeless_of_isCode _ htell)) nofun
    (fun v _ => builtin_heads b v) hargs fun v _ => hcall v

/-- The part of a template evaluates to a collection of these elements. -/
def Contributes (w : World) (scope : Scope) (part : Value) (items : List Value) : Prop :=
  ∃ x, Yields (values scope part) w x ∧ x.toSeq? = some (Seq.ofList items)

theorem hole_contributes (hform : Yields (values scope form) w x)
    (hcode : form.isCode = true) : Contributes w scope (hole form) [x] := by
  refine ⟨.list [x], embedded_yields (.cons hform .nil) ?_ fun v => .pure _ v, rfl⟩
  simp [hcode]

theorem shown_contributes (form : Value) (hcode : form.isCode = true) :
    Contributes w scope (shown form) [form] := by
  have hquoted : (quoted form).isCode = true := by
    simp [quoted, hcode]
  exact hole_contributes (quote_yields (Value.isList_list _)
    (.of_timeless (Value.timeless_of_isCode _ hquoted)) scope) hquoted

/-- The rest of the forms, spliced in. -/
theorem rest_contributes {forms : List Value}
    (hform : Yields (values scope form) w (restValue forms)) :
    Contributes w scope form forms :=
  ⟨_, hform, toSeq?_restValue forms⟩

theorem concatenation_yields (h : List.Forall₂ (Contributes w scope) parts items)
    (hcode : Value.allCode parts = true) :
    Yields (values scope (concatenation parts)) w (Value.spliced items) := by
  obtain ⟨xs, hxs, hseqs⟩ : ∃ xs, List.Forall₂ (fun form x => Yields (values scope form) w x) parts
      xs ∧ List.Forall₂ (fun x part => x.toSeq? = some (Seq.ofList part)) xs items := by
    clear hcode
    induction h with
    | nil => exact ⟨[], .nil, .nil⟩
    | cons hpart _ ih =>
      obtain ⟨x, hx, hseq⟩ := hpart
      obtain ⟨xs, hxs, hseqs⟩ := ih
      exact ⟨x :: xs, .cons hx hxs, .cons hseq hseqs⟩
  have hmap : xs.mapM (Core.seqOf "concat") = pure (items.map Seq.ofList) := by
    clear h hxs
    induction hseqs with
    | nil => rfl
    | cons hseq _ ih => rw [List.mapM_cons, Core.seqOf, hseq, ih]; rfl
  refine embedded_yields hxs ?_ fun v => ComesTo.always (.ok _ v) fun n => ?_
  · simp [hcode]
  · show (do return Value.seq (.concat .empty (← xs.mapM (Core.seqOf "concat"))) : Eval Value) v = _
    rw [hmap]
    rfl

theorem listOf_yields (h : List.Forall₂ (Contributes w scope) parts items)
    (hcode : Value.allCode parts = true) (hitems : items.flatten ≠ []) :
    Yields (values scope (listOf parts)) w (Value.spliced items) := by
  have hparts : parts ≠ [] := by
    rintro rfl
    cases h
    exact hitems rfl
  have hlist : listOf parts = .list [.builtin .seq, concatenation parts] :=
    if_neg (by simpa using hparts)
  obtain ⟨x, xs, hfirst⟩ := List.exists_cons_of_ne_nil hitems
  obtain ⟨s, hs, hfixed⟩ := Value.isList_spliced items
  have htakes : ∀ v, ∃ t, Seq.Takes v s (some (x, t)) v := by
    intro v
    have hholds := hfixed.holds v
    rw [hfirst] at hholds
    cases hholds with
    | cons h _ => exact ⟨_, h⟩
  rw [hlist]
  refine embedded_yields (.cons (concatenation_yields h hcode) .nil) ?_ fun v => ?_
  · simp [concatenation, hcode]
  · obtain ⟨t, ht⟩ := htakes v
    rw [hs]
    exact Core.call_seq_takes rfl ht

theorem vectorOf_yields (h : List.Forall₂ (Contributes w scope) parts items)
    (hcode : Value.allCode parts = true) :
    Yields (values scope (vectorOf parts)) w (.vector items.flatten) := by
  obtain ⟨s, hs, hfixed⟩ := Value.isList_spliced items
  refine embedded_yields (.cons (concatenation_yields h hcode) .nil) ?_ fun v => ?_
  · simp [concatenation, hcode]
  · rw [hs]
    exact Core.call_vec_comesTo rfl hfixed v

/-! Parts of the library's code. -/

theorem call_yields {b : Builtin} {xs : List Value} (hmeans : w.Means scope b.nameId (.builtin b))
    (hargs : List.Forall₂ (fun form x => Yields (values scope form) w x) args xs)
    (hcode : Value.allCode args = true)
    (hcall : ∀ v, Idle w v → ComesTo (fun n => Core.call (.ofBudget n) scope b xs) v (.ok x v)) :
    Yields (values scope (call b args)) w x :=
  builtin_yields (Value.isList_list _)
    (.of_timeless (Value.timeless_of_isCode _ ((Value.isCode_list _).trans hcode))) nofun
    hmeans.heads hargs hcall

/-- A call of a built-in function whose arguments are known. -/
theorem call_goes_on {b : Builtin} {xs : List Value}
    (hmeans : w.Means scope b.nameId (.builtin b))
    (hargs : List.Forall₂ (fun form x => Yields (values scope form) w x) args xs)
    (hcode : Value.allCode args = true) :
    ∃ u, Idle w u ∧ Continues (outcomes scope (call b args)) w
      (fun n => do return .value (← Core.call (.ofBudget n) scope b xs)) u :=
  known_continues (Value.isList_list _ : (call b args).IsList _)
    (.of_timeless (Value.timeless_of_isCode _ ((Value.isCode_list _).trans hcode))) nofun
    hmeans.heads nofun hargs

variable {forms : List Value}

theorem first_yields (hmeans : w.Means scope Builtin.first.nameId (.builtin .first))
    (hform : Yields (values scope form) w (restValue (x :: forms)))
    (hcode : form.isCode = true) : Yields (values scope (call .first [form])) w x := by
  refine call_yields hmeans (.cons hform .nil) (by simp [hcode]) fun v _ => ?_
  have htakes : Seq.Takes v (Seq.ofList (x :: forms)) (some (x, Seq.ofList forms)) v := .cons v x _
  exact Core.call_first_takes (toSeq?_restValue _) htakes

theorem next_yields (hmeans : w.Means scope Builtin.next.nameId (.builtin .next))
    (hform : Yields (values scope form) w (restValue (x :: forms)))
    (hcode : form.isCode = true) :
    Yields (values scope (call .next [form])) w (restValue forms) := by
  refine call_yields hmeans (.cons hform .nil) (by simp [hcode]) fun v _ => ?_
  have htakes : Seq.Takes v (Seq.ofList (x :: forms)) (some (x, Seq.ofList forms)) v := .cons v x _
  have htail : ∃ o, Seq.Takes v (Seq.ofList forms) o v ∧
      (if o.isNone then .nil else .seq (Seq.ofList forms)) = restValue forms := by
    cases forms with
    | nil => exact ⟨none, .empty v, rfl⟩
    | cons y ys => exact ⟨some (y, Seq.ofList ys), .cons v y _, rfl⟩
  obtain ⟨o, ho, hvalue⟩ := htail
  exact hvalue ▸ Core.call_next_takes (toSeq?_restValue _) htakes ho

theorem branchTemplate_yields {fresh : NameId} {branches results : List Value}
    (hfirst : w.Means scope Builtin.first.nameId (.builtin .first))
    (hforms : Yields (values scope (word formsName)) w (restValue (x :: forms)))
    (hbranches : List.Forall₂ (fun part form => Contributes w scope part [form]) branches results)
    (hcode : Value.allCode branches = true) :
    Yields (values scope (branchTemplate fresh branches)) w (branching fresh x results) := by
  have hpair := vectorOf_yields (.cons (shown_contributes (word fresh) rfl)
    (.cons (hole_contributes (first_yields hfirst hforms rfl) rfl) .nil)) rfl
  have hinner : Yields (values scope (listOf (shown (.special .ifElse) :: shown (word fresh) ::
      branches))) w (.spliced ([.special .ifElse] :: [word fresh] :: results.map ([·]))) := by
    refine listOf_yields (.cons (shown_contributes _ rfl) (.cons (shown_contributes _ rfl) ?_)) ?_
      (List.cons_ne_nil _ _)
    · exact List.forall₂_map_right_iff.2 hbranches
    · exact hcode
  refine listOf_yields (.cons (shown_contributes _ rfl) (.cons (hole_contributes hpair rfl)
    (.cons (hole_contributes hinner ?_) .nil))) ?_ (List.cons_ne_nil _ _)
  · simp [listOf, concatenation, shown, hole, Piece.elements, quoted, hcode]
  · simp [listOf, concatenation, shown, hole, vectorOf, Piece.elements, quoted, hcode, call]

theorem againTemplate_contributes (entry : Entry)
    (hnext : w.Means scope Builtin.next.nameId (.builtin .next))
    (hforms : Yields (values scope (word formsName)) w (restValue (x :: forms))) :
    Contributes w scope (againTemplate entry) [.spliced [[word entry.name], forms]] := by
  refine hole_contributes (listOf_yields (.cons (shown_contributes _ rfl)
    (.cons (rest_contributes (next_yields hnext hforms rfl)) .nil)) rfl (List.cons_ne_nil _ _)) ?_
  rfl

/-! Uses of the library's macros and functions. -/

section
variable {e : Entry} {id : ClosureId} {clause : Clause}

theorem use_continues (hkind : e.isMacro = true) (he : w.Provides scope e)
    (hform : form.IsList (word e.name :: args)) (htell : form.Tellable w.log)
    (hexpand : ∀ id, w.closures[id]? = some e.closure →
      Yields (fun n => expand (.ofBudget n) id args) w x) :
    ∃ u, Idle w u ∧ Continues (outcomes scope form) w (outcomes scope x) u := by
  obtain ⟨id, hmeans, hc⟩ := he
  rw [Entry.value, if_pos hkind] at hmeans
  exact macro_continues hform htell nofun hmeans.heads (hexpand id hc)

theorem entry_expands (hc : w.closures[id]? = some e.closure)
    (hclause : e.closure.select? args.length = some clause) (hbody : clause.body = [b])
    (hb : ∀ u frame, Idle w u →
      u.Layers (some frame) [clause.bindings args, [(.plain e.name, .transformer id)]] →
      Yields (values (some frame) b) u x)
    (htell : x.Tellable w.log) : Yields (fun n => expand (.ofBudget n) id args) w x :=
  expand_yields hc .outermost hclause hbody hb htell

theorem entry_yields {xs : List Value} (hfunction : e.isMacro = false) (he : w.Provides scope e)
    (hargs : List.Forall₂ (fun form x => Yields (values scope form) w x) args xs)
    (hcode : Value.allCode args = true)
    (hclause : e.closure.select? xs.length = some clause) (hbody : clause.body = [b])
    (hb : ∀ u frame id, Idle w u →
      u.Layers (some frame) [clause.bindings xs, [(.plain e.name, .function id)]] →
      Yields (values (some frame) b) u x) : Yields (values scope (use e args)) w x := by
  obtain ⟨id, hmeans, hc⟩ := he
  rw [Entry.value, if_neg (by rw [hfunction]; nofun)] at hmeans
  exact function_yields (Value.isList_list _)
    (.of_timeless (Value.timeless_of_isCode _ ((Value.isCode_list _).trans hcode))) nofun
    hmeans.heads hargs hc .outermost hclause hbody fun u frame hu hlayers => hb u frame id hu hlayers

end

end Evaluation

namespace Value.Tellable
variable {log : LogDomains} {forms : List Value}

theorem special (f : SpecialForm) : (Value.special f).Tellable log := .of_timeless (.atom rfl)

theorem word (name : NameId) : (word name).Tellable log := .of_timeless (.atom rfl)

theorem list (h : ∀ form ∈ forms, form.Tellable log) : (Value.list forms).Tellable log :=
  .isList (isList_list forms) h

theorem spliced {parts : List (List Value)}
    (h : ∀ part ∈ parts, ∀ form ∈ part, form.Tellable log) :
    (Value.spliced parts).Tellable log := by
  refine .isList (isList_spliced parts) fun form hform => ?_
  obtain ⟨part, hpart, hform⟩ := List.mem_flatten.1 hform
  exact h part hpart form hform

end Value.Tellable

namespace Library

/-- What `when` makes of its forms. -/
def whenForm (test : Value) (body : List Value) : Value :=
  .spliced [[.special .ifElse], [test], [.spliced [[.special .block], body]]]

/-- What `lazy-seq` makes of its forms. -/
def lazySeqForm (body : List Value) : Value :=
  .spliced [[word Builtin.lazySeq.nameId], [.spliced [[.special .lambda], [.vector []], body]]]

/-- What `and` makes of a form and more forms. -/
def andForm (first : Value) (more : List Value) : Value :=
  branching andName first [.spliced [[word Entry.and.name], more], word andName]

/-- What `or` makes of a form and more forms. -/
def orForm (first : Value) (more : List Value) : Value :=
  branching orName first [word orName, .spliced [[word Entry.or.name], more]]

/-- What `cond` makes of a clause and more clauses. -/
def condForm (test value : Value) (more : List Value) : Value :=
  .list [.special .ifElse, test, value, .list (word Entry.cond.name :: more)]

/-- What `and` makes of its forms. -/
def andOf : List Value → Value
  | [] => .bool true
  | [x] => x
  | x :: y :: rest => andForm x (y :: rest)

/-- What `or` makes of its forms. -/
def orOf : List Value → Value
  | [] => .nil
  | [x] => x
  | x :: y :: rest => orForm x (y :: rest)

theorem blockForm_tellable {log : LogDomains} {body : List Value}
    (hbody : ∀ form ∈ body, form.Tellable log) :
    (Value.spliced [[.special .block], body]).Tellable log := by
  refine .spliced ?_
  simpa [Value.Tellable.special] using hbody

theorem whenForm_tellable {log : LogDomains} {test : Value} {body : List Value}
    (htest : test.Tellable log) (hbody : ∀ form ∈ body, form.Tellable log) :
    (whenForm test body).Tellable log := by
  refine .spliced ?_
  simpa [Value.Tellable.special, htest] using blockForm_tellable hbody

theorem thunkForm_tellable {log : LogDomains} {body : List Value}
    (hbody : ∀ form ∈ body, form.Tellable log) :
    (Value.spliced [[.special .lambda], [.vector []], body]).Tellable log := by
  have hparams : (Value.vector []).Tellable log := .vector (List.forall_mem_nil _)
  refine .spliced ?_
  simpa [Value.Tellable.special, hparams] using hbody

theorem lazySeqForm_tellable {log : LogDomains} {body : List Value}
    (hbody : ∀ form ∈ body, form.Tellable log) : (lazySeqForm body).Tellable log := by
  refine .spliced ?_
  simpa [Value.Tellable.word] using thunkForm_tellable hbody

theorem branching_tellable {log : LogDomains} {fresh : NameId} {first : Value}
    {branches : List Value} (hfirst : first.Tellable log)
    (hbranches : ∀ form ∈ branches, form.Tellable log) :
    (branching fresh first branches).Tellable log := by
  have hpair : (Value.vector [word fresh, first]).Tellable log :=
    .vector (by simpa [Value.Tellable.word] using hfirst)
  refine .spliced ?_
  simp only [List.mem_cons, List.not_mem_nil, or_false, forall_eq_or_imp, forall_eq]
  refine ⟨.special _, hpair, .spliced ?_⟩
  simpa [Value.Tellable.special, Value.Tellable.word] using hbranches

theorem condForm_tellable {log : LogDomains} {test value : Value} {more : List Value}
    (htest : test.Tellable log) (hvalue : value.Tellable log)
    (hmore : ∀ form ∈ more, form.Tellable log) : (condForm test value more).Tellable log := by
  have hagain : (Value.list (word Entry.cond.name :: more)).Tellable log :=
    .list (List.forall_mem_cons.2 ⟨.word _, hmore⟩)
  refine .list ?_
  simpa [Value.Tellable.special, htest, hvalue] using hagain

section
variable {log : LogDomains} {entry : Entry} {forms : List Value}

theorem again_tellable (htell : ∀ form ∈ forms, form.Tellable log) :
    (Value.spliced [[word entry.name], forms]).Tellable log := by
  refine .spliced ?_
  simpa [Value.Tellable.word] using htell

theorem andOf_tellable (htell : ∀ form ∈ forms, form.Tellable log) :
    (andOf forms).Tellable log := by
  match forms with
  | [] => exact .of_timeless (.atom rfl)
  | [x] => exact htell x (List.mem_singleton_self x)
  | x :: y :: rest =>
    obtain ⟨hx, hmore⟩ := List.forall_mem_cons.1 htell
    refine branching_tellable hx ?_
    simpa [Value.Tellable.word] using again_tellable hmore

theorem orOf_tellable (htell : ∀ form ∈ forms, form.Tellable log) :
    (orOf forms).Tellable log := by
  match forms with
  | [] => exact .of_timeless (.atom rfl)
  | [x] => exact htell x (List.mem_singleton_self x)
  | x :: y :: rest =>
    obtain ⟨hx, hmore⟩ := List.forall_mem_cons.1 htell
    refine branching_tellable hx ?_
    simpa [Value.Tellable.word] using again_tellable hmore

end
end Library

namespace Evaluation
open Library Shorthand
variable {w : World} {scope : Scope} {form test a x y : Value} {forms : List Value}

/-! `when` branches, and its body is a block. -/

theorem when_expands {id : ClosureId} (hc : w.closures[id]? = some Entry.when.closure)
    (hvalue : ∀ id, test ≠ .transformer id) (htest : test.Tellable w.log)
    (hforms : ∀ form ∈ forms, form.Tellable w.log) :
    Yields (fun n => expand (.ofBudget n) id (test :: forms)) w (whenForm test forms) := by
  refine entry_expands hc rfl rfl (fun u frame _ hlayers => ?_) (whenForm_tellable htest hforms)
  have htest : Yields (values (some frame) (word testName)) u test :=
    (hlayers.means rfl).yields hvalue
  have hbody : Yields (values (some frame) (word bodyName)) u (restValue forms) := by
    refine (hlayers.means rfl).yields fun id => ?_
    cases forms <;> exact nofun
  have hblock := listOf_yields (.cons (shown_contributes (.special .block) rfl)
    (.cons (rest_contributes hbody) .nil)) rfl (List.cons_ne_nil _ _)
  exact listOf_yields (.cons (shown_contributes _ rfl) (.cons (hole_contributes htest rfl)
    (.cons (hole_contributes hblock rfl) .nil))) rfl (List.cons_ne_nil _ _)

/-- A use of `when` with a body of one form goes on as the body, or as `nil`. -/
theorem when_continues {Q : Value → World → Prop} (he : w.Provides scope .when)
    (hform : form.IsList [word Entry.when.name, test, a]) (hvalue : ∀ id, test ≠ .transformer id)
    (htest : test.Tellable w.log) (ha : a.Tellable w.log)
    (hsecures : Secures (values scope test) w Q) :
    ∃ y u v, Q y u ∧ Idle u v ∧ v.log = w.log ∧
      Continues (outcomes scope form) w (outcomes scope (if y.isTruthy then a else .nil)) v := by
  have hforms : ∀ form ∈ [a], form.Tellable w.log := List.forall_mem_singleton.2 ha
  have htell : form.Tellable w.log := by
    refine .isList hform ?_
    simpa [Value.Tellable.word, htest] using ha
  obtain ⟨z, hwz, hexpanded⟩ := use_continues rfl he hform htell fun id hc =>
    when_expands hc hvalue htest hforms
  have hif : (whenForm test [a]).IsList [.special .ifElse, test, .spliced [[.special .block], [a]]] :=
    Value.isList_spliced _
  obtain ⟨y, u, hQ, hlog, hbranch⟩ := if_continues_else_nil hif
    (hwz.log ▸ whenForm_tellable htest hforms) (hsecures.along hwz)
  have hlog : u.log = w.log := hlog.trans hwz.log
  have hwhen := hexpanded.trans hbranch
  refine ⟨y, u, ?_⟩
  cases htruthy : y.isTruthy with
  | false =>
    rw [htruthy] at hwhen
    exact ⟨u, hQ, .refl u, hlog, hwhen⟩
  | true =>
    rw [htruthy] at hwhen
    have hblock : (Value.spliced [[.special .block], [a]]).IsList [.special .block, a] :=
      Value.isList_spliced _
    obtain ⟨v, huv, hdone⟩ := block_continues hblock (hlog ▸ blockForm_tellable hforms) scope
    exact ⟨v, hQ, huv, huv.log.trans hlog, hwhen.trans hdone⟩

/-- A use of `when` whose forms do no more than frames and events. -/
theorem when_yields (he : w.Provides scope .when)
    (hform : form.IsList [word Entry.when.name, test, a]) (hvalue : ∀ id, test ≠ .transformer id)
    (htest : test.Tellable w.log) (ha : a.Tellable w.log) (hy : Yields (values scope test) w y)
    (hx : Yields (values scope (if y.isTruthy then a else .nil)) w x) :
    Yields (values scope form) w x := by
  refine yields_of_continues (fun v hwv => ?_) hx
  obtain ⟨_, u, z, ⟨rfl, hvu⟩, huz, -, hcontinues⟩ := when_continues (he.along hwv) hform hvalue
    (hwv.log ▸ htest) (hwv.log ▸ ha) (hy.along hwv).secures
  exact ⟨z, hvu.trans huz, hcontinues⟩

/-! `and`, `or` and `cond` look at one clause and leave the others to a further use. -/

theorem rest_yields {name : NameId} (h : w.Means scope name (restValue forms)) :
    Yields (values scope (word name)) w (restValue forms) := by
  refine h.yields fun id => ?_
  cases forms <;> exact nofun

/-- The last form stands for itself, and an earlier one is bound. -/
theorem clause_yields (fresh : NameId) {branches results : List Value}
    (hfirst : w.Means scope Builtin.first.nameId (.builtin .first))
    (hnext : w.Means scope Builtin.next.nameId (.builtin .next))
    (hforms : w.Means scope formsName (restValue (x :: forms)))
    (hbranches : List.Forall₂ (fun part form => Contributes w scope part [form]) branches results)
    (hcode : Value.allCode branches = true) :
    Yields (values scope (.list [.special .ifElse, call .next [word formsName],
      branchTemplate fresh branches, call .first [word formsName]])) w
      (if forms.isEmpty then x else branching fresh x results) := by
  have hforms := rest_yields hforms
  have hcode' : (branchTemplate fresh branches).isCode = true := by
    simp [branchTemplate, listOf, concatenation, shown, hole, vectorOf, Piece.elements, quoted,
      hcode, call]
  refine if_yields (Value.isList_list _) (.of_timeless (Value.timeless_of_isCode _ ?_))
    (next_yields hnext hforms rfl) ?_
  · simp [call, hcode']
  cases forms with
  | nil => exact first_yields hfirst hforms rfl
  | cons y ys => exact branchTemplate_yields hfirst hforms hbranches hcode

section
variable {id : ClosureId}

theorem and_expands (hc : w.closures[id]? = some Entry.and.closure)
    (hw : w.Stocked [] [.first, .next]) (htell : ∀ form ∈ forms, form.Tellable w.log) :
    Yields (fun n => expand (.ofBudget n) id forms) w (andOf forms) := by
  refine entry_expands hc rfl rfl (fun u frame hwu hlayers => ?_) (andOf_tellable htell)
  have hu := hw.idle hwu
  have hforms : u.Means (some frame) formsName (restValue forms) := hlayers.means rfl
  refine if_yields (Value.isList_list _) (.of_timeless (Value.timeless_of_isCode _ rfl))
    (rest_yields hforms) ?_
  cases forms with
  | nil => exact constant_yields (fun _ _ => rfl) u _
  | cons x forms =>
    have hfirst := hu.means_builtin hlayers .first (by decide) rfl
    have hnext := hu.means_builtin hlayers .next (by decide) rfl
    have hclause := clause_yields andName hfirst hnext hforms
      (.cons (againTemplate_contributes .and hnext (rest_yields hforms))
        (.cons (shown_contributes (word andName) rfl) .nil)) rfl
    cases forms <;> exact hclause

theorem or_expands (hc : w.closures[id]? = some Entry.or.closure)
    (hw : w.Stocked [.when] [.first, .next]) (htell : ∀ form ∈ forms, form.Tellable w.log) :
    Yields (fun n => expand (.ofBudget n) id forms) w (orOf forms) := by
  refine entry_expands hc rfl rfl (fun u frame hwu hlayers => ?_) (orOf_tellable htell)
  have hu := hw.idle hwu
  have hforms : u.Means (some frame) formsName (restValue forms) := hlayers.means rfl
  refine when_yields (hu.provides hlayers .when (by decide) rfl) (Value.isList_list _) nofun
    (.word _) (.of_timeless (Value.timeless_of_isCode _ rfl)) (rest_yields hforms) ?_
  cases forms with
  | nil => exact constant_yields (fun _ _ => rfl) u _
  | cons x forms =>
    have hfirst := hu.means_builtin hlayers .first (by decide) rfl
    have hnext := hu.means_builtin hlayers .next (by decide) rfl
    have hclause := clause_yields orName hfirst hnext hforms
      (.cons (shown_contributes (word orName) rfl)
        (.cons (againTemplate_contributes .or hnext (rest_yields hforms)) .nil)) rfl
    cases forms <;> exact hclause

theorem cond_expands_nil (hc : w.closures[id]? = some Entry.cond.closure)
    (hw : w.Stocked [.when] []) : Yields (fun n => expand (.ofBudget n) id []) w .nil := by
  refine entry_expands hc rfl rfl (fun u frame hwu hlayers => ?_) (.of_timeless (.atom rfl))
  have hforms : u.Means (some frame) clausesName (restValue []) := hlayers.means rfl
  exact when_yields ((hw.idle hwu).provides hlayers .when (by decide) rfl) (Value.isList_list _)
    nofun (.word _) (.of_timeless (Value.timeless_of_isCode _ rfl)) (rest_yields hforms)
    (constant_yields (fun _ _ => rfl) u _)

theorem cond_expands_clause {value : Value} (hc : w.closures[id]? = some Entry.cond.closure)
    (hw : w.Stocked [.when, .second] [.first, .next, .list, .cons])
    (htest : test.Tellable w.log) (hvalue : value.Tellable w.log)
    (htell : ∀ form ∈ forms, form.Tellable w.log) :
    Yields (fun n => expand (.ofBudget n) id (test :: value :: forms)) w
      (condForm test value forms) := by
  refine entry_expands hc rfl rfl (fun u frame hwu hlayers => ?_)
    (condForm_tellable htest hvalue htell)
  have hu := hw.idle hwu
  have hforms : Yields (values (some frame) (word clausesName)) u
      (restValue (test :: value :: forms)) := rest_yields (hlayers.means rfl)
  have hfirst := hu.means_builtin hlayers .first (by decide) rfl
  have hnext := hu.means_builtin hlayers .next (by decide) rfl
  have hlist := hu.means_builtin hlayers .list (by decide) rfl
  have hcons := hu.means_builtin hlayers .cons (by decide) rfl
  have hsecond : Yields (values (some frame) (use .second [word clausesName])) u value := by
    refine entry_yields rfl (hu.provides hlayers .second (by decide) rfl) (.cons hforms .nil) rfl
      rfl rfl fun v inner _ huv hinner => ?_
    have hv := hu.idle huv
    have hcoll : Yields (values (some inner) (word collName)) v
        (restValue (test :: value :: forms)) := rest_yields (hinner.means rfl)
    exact first_yields (hv.means_builtin hinner .first (by decide) rfl)
      (next_yields (hv.means_builtin hinner .next (by decide) rfl) hcoll rfl) rfl
  have hmore : Yields (values (some frame) (call .cons [quoted (word Entry.cond.name),
      call .next [call .next [word clausesName]]])) u (.list (word Entry.cond.name :: forms)) := by
    have hrest := next_yields hnext (next_yields hnext hforms rfl) rfl
    have hname : Yields (values (some frame) (quoted (word Entry.cond.name))) u
        (word Entry.cond.name) :=
      quote_yields (Value.isList_list _) (.of_timeless (Value.timeless_of_isCode _ rfl)) _
    exact call_yields hcons (.cons hname (.cons hrest .nil)) rfl fun v _ =>
      Core.call_cons_comesTo (toSeq?_restValue forms) _ v
  refine when_yields (hu.provides hlayers .when (by decide) rfl) (Value.isList_list _)
    nofun (.word _) (.of_timeless (Value.timeless_of_isCode _ rfl)) hforms ?_
  have hif : Yields (values (some frame) (quoted (.special .ifElse))) u (.special .ifElse) :=
    quote_yields (Value.isList_list _) (.of_timeless (Value.timeless_of_isCode _ rfl)) _
  exact call_yields hlist (.cons hif (.cons (first_yields hfirst hforms rfl) (.cons hsecond
    (.cons hmore .nil)))) rfl fun v _ => .pure _ v

end

theorem isPositive_yields {n : Int64} (hw : w.Stocked [] [.greater])
    (he : w.Provides scope .isPositive) (hform : Yields (values scope form) w (.int n))
    (hcode : form.isCode = true) :
    Yields (values scope (use .isPositive [form])) w (.bool (decide (0 < n.toInt))) := by
  refine entry_yields rfl he (.cons hform .nil) (by simp [hcode]) rfl rfl
    fun u frame _ hwu hlayers => ?_
  have hcount : u.Means (some frame) countName (.int n) := hlayers.means rfl
  exact call_yields ((hw.idle hwu).means_builtin hlayers .greater (by decide) rfl)
    (.cons (hcount.yields nofun) (.cons (constant_yields (fun _ _ => rfl) u _) .nil)) rfl
    fun v _ => Core.call_greater _ n 0 v

/-! `lazy-seq` leaves its forms to a thunk. -/

theorem lazySeq_expands {id : ClosureId} (hc : w.closures[id]? = some Entry.lazySeq.closure)
    (hforms : ∀ form ∈ forms, form.Tellable w.log) :
    Yields (fun n => expand (.ofBudget n) id forms) w (lazySeqForm forms) := by
  refine entry_expands hc rfl rfl (fun u frame _ hlayers => ?_) (lazySeqForm_tellable hforms)
  have hbody : Yields (values (some frame) (word bodyName)) u (restValue forms) :=
    rest_yields (hlayers.means rfl)
  have hparams : Yields (values (some frame) (vectorOf [])) u (.vector []) :=
    vectorOf_yields .nil rfl
  have hthunk := listOf_yields (.cons (shown_contributes (.special .lambda) rfl)
    (.cons (hole_contributes hparams rfl) (.cons (rest_contributes hbody) .nil))) rfl
    (List.cons_ne_nil _ _)
  exact listOf_yields (.cons (shown_contributes _ rfl) (.cons (hole_contributes hthunk rfl) .nil)) rfl
    (List.cons_ne_nil _ _)

end Evaluation
end LazyLisp
