import LazyLisp.Proofs.ClearCore

/-!
Evaluation is clear of marks: one lemma for each special form, for application and for the kinds of
forms, and from these a step of the evaluator.
-/

namespace LazyLisp
set_option autoImplicit false

/-! What needs no engine. -/

theorem clear_boundFrame (parent : Scope) {bindings : List (Symbol × Value)}
    (h : BindingsUnmarked bindings) :
    Clear (fun _ => True) (Evaluation.boundFrame parent bindings)
      (Evaluation.boundFrame parent bindings) := by
  refine .bind (clear_newFrame parent) fun frame _ => ?_
  exact .bind (.forM fun b hb => clear_push frame b.1 (h b hb)) fun _ _ => .pure trivial

theorem clear_callFrame (c : Closure) {self : Value} (hself : self.Unmarked)
    {bindings : List (Symbol × Value)} (h : BindingsUnmarked bindings) :
    Clear (fun _ => True) (Evaluation.callFrame c self bindings)
      (Evaluation.callFrame c self bindings) := by
  rw [Evaluation.callFrame_eq]
  cases c.name with
  | none => exact clear_boundFrame _ h
  | some name =>
    refine .bind (clear_boundFrame _ (List.forall_mem_singleton.2 hself)) fun outer _ => ?_
    exact clear_boundFrame _ h

theorem clear_quote {args : List Value} (hargs : AllUnmarked args) :
    Clear Outcome.Unmarked (Evaluation.quote args) (Evaluation.quote args) := by
  unfold Evaluation.quote
  split
  · exact .pure trivial
  · exact .pure hargs.head
  · exact .fail _

theorem clear_definitionTarget (label : String) (form : Value) :
    Clear (fun _ => True) (Evaluation.definitionTarget label form)
      (Evaluation.definitionTarget label form) := by
  unfold Evaluation.definitionTarget
  split
  · exact .get_bind fun _ _ => .guard (.pure trivial)
  · exact .fail _

theorem clear_noteDefinition (id : VarId) :
    Clear (fun _ => True) (Evaluation.noteDefinition id) (Evaluation.noteDefinition id) := by
  refine .get_bind fun w _ => ?_
  split
  · exact clear_note _
  · exact .pure trivial

theorem clear_pairs (label : String) {items : List Value} (hitems : AllUnmarked items) :
    Clear BindingsUnmarked (Evaluation.pairs label items) (Evaluation.pairs label items) := by
  fun_induction Evaluation.pairs label items with
  | case1 rest name form ih =>
    refine .bind (ih hitems.tail.tail) fun bindings hbindings => ?_
    exact .pure (List.forall_mem_cons.2 ⟨hitems.tail.head, hbindings⟩)
  | case2 => exact .fail _
  | case3 => exact .pure (List.forall_mem_nil _)

theorem clear_bindingPairs (label : String) {form : Option Value} (hform : ∀ v ∈ form, v.Unmarked) :
    Clear BindingsUnmarked (Evaluation.bindingPairs label form)
      (Evaluation.bindingPairs label form) := by
  unfold Evaluation.bindingPairs
  split
  · exact .guard (clear_pairs _ (Value.unmarked_vector.1 (hform _ rfl)))
  · exact .fail _

theorem clear_varOf (args : List Value) :
    Clear Outcome.Unmarked (Evaluation.varOf args) (Evaluation.varOf args) := by
  unfold Evaluation.varOf
  split
  · refine .get_bind fun w _ => ?_
    split
    · exact .pure trivial
    · exact .fail _
  · exact .fail _
  · exact .fail _

theorem clear_parseParams (label : String) (params : List Symbol) (items : List Value) :
    Clear (fun _ => True) (Evaluation.parseParams label params items)
      (Evaluation.parseParams label params items) := by
  fun_induction Evaluation.parseParams label params items
  all_goals first
    | exact .pure trivial
    | exact .fail _
    | assumption

theorem clear_parseClause (label : String) (params : Value) {forms : List Value}
    (hforms : AllUnmarked forms) :
    Clear Clause.Unmarked (Evaluation.parseClause label params forms)
      (Evaluation.parseClause label params forms) := by
  unfold Evaluation.parseClause
  split
  · exact .bind (clear_parseParams _ _ _) fun _ _ => .pure hforms
  · exact .fail _

theorem clear_lookupArgs (label : String) {args : List Value} (hargs : AllUnmarked args) :
    Clear (fun p => p.1.Unmarked ∧ p.2.Unmarked) (Evaluation.lookupArgs label args)
      (Evaluation.lookupArgs label args) := by
  unfold Evaluation.lookupArgs
  split
  · exact .pure ⟨hargs.head, trivial⟩
  · exact .pure ⟨hargs.head, hargs.tail.head⟩
  · exact .fail _

theorem clear_macroAsValue (id : ClosureId) :
    Clear Outcome.Unmarked (Evaluation.macroAsValue id) (Evaluation.macroAsValue id) :=
  .get_bind fun _ _ => .fail _

theorem clear_evaluateSymbol (scope : Scope) (s : Symbol) (asHead : Bool) :
    Clear Outcome.Unmarked (Evaluation.evaluateSymbol scope s asHead)
      (Evaluation.evaluateSymbol scope s asHead) := by
  refine .get_bind fun w hw => ?_
  split
  · exact .fail _
  · split
    · exact .pure trivial
    · exact clear_macroAsValue _
  · rename_i hv
    exact .pure (hw.resolve? hv)

theorem skipDescription_unmarked {forms : List Value} (h : AllUnmarked forms) :
    AllUnmarked (Evaluation.skipDescription forms) := by
  unfold Evaluation.skipDescription
  split
  · exact h.tail
  · exact h

namespace Engine.Clear
variable {e e' : Engine} {scope : Scope}

/-! Bodies and closures. -/

theorem body (h : e.Clear e') {forms : List Value} (hforms : AllUnmarked forms) :
    LazyLisp.Clear Outcome.Unmarked (Evaluation.body e scope forms)
      (Evaluation.body e' scope forms) := by
  fun_induction Evaluation.body e scope forms with
  | case1 => exact .pure trivial
  | case2 last => exact h.evaluate hforms.head
  | case3 form rest hrest ih =>
    rw [Evaluation.body.eq_3 e' scope form rest hrest]
    exact .bind (h.value hforms.head) fun _ _ => ih hforms.tail

theorem rounds (h : e.Clear e') (frame : FrameId) (expected n : Nat) {forms : List Value}
    (hforms : AllUnmarked forms) :
    LazyLisp.Clear Value.Unmarked (Evaluation.rounds e frame expected forms n)
      (Evaluation.rounds e' frame expected forms n) := by
  induction n with
  | zero => exact .throw _
  | succ n ih =>
    refine .bind (h.body hforms) fun o ho => ?_
    cases o with
    | value v => exact .pure ho
    | again values => exact .guard (.bind (clear_rebind frame ho) fun _ _ => ih)

theorem invoke (h : e.Clear e') (id : ClosureId) {self : Value} {args : List Value}
    (hself : self.Unmarked) (hargs : AllUnmarked args) :
    LazyLisp.Clear Value.Unmarked (Evaluation.invoke e id self args)
      (Evaluation.invoke e' id self args) := by
  refine .get_bind fun w hw => ?_
  cases hc : w.closures[id]? with
  | none => exact .pure trivial
  | some c =>
    cases hclause : c.select? args.length with
    | none =>
      simp only [hclause]
      exact .fail _
    | some clause =>
      simp only [hclause, h.bound]
      have hbody := Closure.select?_unmarked (hw.closures c (Array.mem_of_getElem? hc)) hclause
      refine .bind (clear_callFrame c hself (bindings_unmarked clause hargs)) fun frame _ => ?_
      exact h.rounds frame _ _ hbody

theorem expand (h : e.Clear e') (id : ClosureId) {forms : List Value} (hforms : AllUnmarked forms) :
    LazyLisp.Clear Value.Unmarked (Evaluation.expand e id forms)
      (Evaluation.expand e' id forms) := by
  have hself : (Value.transformer id).Unmarked := trivial
  refine .bind (h.invoke id hself hforms) fun expansion hexpansion => .get_bind fun w _ => ?_
  dsimp only
  split
  · refine .bind (h.textOrType hexpansion) fun _ _ => ?_
    exact .bind (clear_note _) fun _ _ => .pure hexpansion
  · exact .pure hexpansion

/-! Special forms. -/

theorem bindAll (h : e.Clear e') (frame : FrameId) {bindings : List (Symbol × Value)}
    (hbindings : BindingsUnmarked bindings) :
    LazyLisp.Clear (fun _ => True) (Evaluation.bindAll e frame bindings)
      (Evaluation.bindAll e' frame bindings) := by
  induction bindings with
  | nil => exact .pure trivial
  | cons b rest ih =>
    obtain ⟨hb, hrest⟩ := List.forall_mem_cons.1 hbindings
    refine .bind (h.value hb) fun v hv => ?_
    exact .bind (clear_push frame b.1 hv) fun _ _ => ih hrest

theorem choose (h : e.Clear e') {args : List Value} (hargs : AllUnmarked args) :
    LazyLisp.Clear Outcome.Unmarked (Evaluation.choose e scope args)
      (Evaluation.choose e' scope args) := by
  unfold Evaluation.choose
  split
  · refine .bind (h.value hargs.head) fun v _ => ?_
    split
    · exact h.evaluate hargs.tail.head
    · exact .pure trivial
  · refine .bind (h.value hargs.head) fun v _ => ?_
    split
    · exact h.evaluate hargs.tail.head
    · exact h.evaluate hargs.tail.tail.head
  · exact .fail _

theorem define (h : e.Clear e') {args : List Value} (hargs : AllUnmarked args) :
    LazyLisp.Clear Outcome.Unmarked (Evaluation.define e scope args)
      (Evaluation.define e' scope args) := by
  unfold Evaluation.define
  split
  · refine .bind (clear_definitionTarget _ _) fun name _ => ?_
    refine .bind (clear_declare name) fun id _ => ?_
    exact .bind (clear_noteDefinition id) fun _ _ => .pure trivial
  · refine .bind (clear_definitionTarget _ _) fun name _ => ?_
    refine .bind (h.value hargs.tail.head) fun v hv => ?_
    refine .bind (clear_define name hv) fun id _ => ?_
    exact .bind (clear_noteDefinition id) fun _ _ => .pure trivial
  · exact .fail _

theorem letIn (h : e.Clear e') {args : List Value} (hargs : AllUnmarked args) :
    LazyLisp.Clear Outcome.Unmarked (Evaluation.letIn e scope args)
      (Evaluation.letIn e' scope args) := by
  refine .bind (clear_bindingPairs _ (fun _ => hargs.head?)) fun bindings hbindings => ?_
  refine .bind (clear_newFrame scope) fun frame _ => ?_
  exact .bind (h.bindAll frame hbindings) fun _ _ => h.body hargs.rest

theorem looping (h : e.Clear e') {args : List Value} (hargs : AllUnmarked args) :
    LazyLisp.Clear Outcome.Unmarked (Evaluation.looping e scope args)
      (Evaluation.looping e' scope args) := by
  refine .bind (clear_bindingPairs _ (fun _ => hargs.head?)) fun bindings hbindings => ?_
  refine .bind (clear_newFrame scope) fun frame _ => ?_
  refine .bind (h.bindAll frame hbindings) fun _ _ => ?_
  rw [h.bound]
  exact .bind (h.rounds frame _ _ hargs.rest) fun _ hv => .pure hv

theorem parseClauses (h : e.Clear e') (label : String) {forms : List Value}
    (hforms : AllUnmarked forms) :
    LazyLisp.Clear (fun clauses => ∀ c ∈ clauses, c.Unmarked) (Evaluation.parseClauses e label forms)
      (Evaluation.parseClauses e' label forms) := by
  unfold Evaluation.parseClauses
  split
  · exact .fail _
  · refine .bind (clear_parseClause _ _ hforms.tail) fun c hc => ?_
    exact .pure (List.forall_mem_singleton.2 hc)
  · refine .mapM fun form hform => ?_
    split
    · refine .bind (h.toList (hforms _ hform)) fun items hitems => ?_
      split
      · exact clear_parseClause _ _ hitems.tail
      · exact .fail _
    · exact .fail _

theorem makeClosure (h : e.Clear e') (name : Option Symbol) (label : String) {forms : List Value}
    (hforms : AllUnmarked forms) :
    LazyLisp.Clear (fun _ => True) (Evaluation.makeClosure e scope name label forms)
      (Evaluation.makeClosure e' scope name label forms) := by
  refine .bind (h.parseClauses label hforms) fun clauses hclauses => ?_
  split
  · rename_i hc
    exact clear_newClosure (Closure.make_unmarked hc hclauses)
  · exact .fail _

theorem lambda (h : e.Clear e') {args : List Value} (hargs : AllUnmarked args) :
    LazyLisp.Clear Outcome.Unmarked (Evaluation.lambda e scope args)
      (Evaluation.lambda e' scope args) := by
  unfold Evaluation.lambda
  split
  · exact .get_bind fun _ _ => .bind (h.makeClosure _ _ hargs.tail) fun _ _ => .pure trivial
  · exact .bind (h.makeClosure _ _ hargs) fun _ _ => .pure trivial

theorem defineMacro (h : e.Clear e') {args : List Value} (hargs : AllUnmarked args) :
    LazyLisp.Clear Outcome.Unmarked (Evaluation.defineMacro e scope args)
      (Evaluation.defineMacro e' scope args) := by
  unfold Evaluation.defineMacro
  split
  · exact .fail _
  · refine .bind (clear_definitionTarget _ _) fun name _ => .get_bind fun w _ => ?_
    refine .bind (h.makeClosure _ _ (skipDescription_unmarked hargs.tail)) fun id _ => ?_
    have hmacro : (Value.transformer id).Unmarked := trivial
    exact .bind (clear_define name hmacro) fun _ _ => .pure trivial

theorem recur (h : e.Clear e') {args : List Value} (hargs : AllUnmarked args) :
    LazyLisp.Clear Outcome.Unmarked (Evaluation.recur e scope args)
      (Evaluation.recur e' scope args) :=
  .bind (.mapM fun form hform => h.value (hargs form hform)) fun _ hvalues => .pure hvalues

theorem applyForm (h : e.Clear e') {args : List Value} (hargs : AllUnmarked args) :
    LazyLisp.Clear Outcome.Unmarked (Evaluation.apply e scope args)
      (Evaluation.apply e' scope args) := by
  unfold Evaluation.apply
  split
  · refine .bind (h.value hargs.head) fun f hf => ?_
    have hleading := hargs.tail.of_subset (List.dropLast_subset _)
    refine .bind (.mapM fun form hform => h.value (hleading form hform)) fun leading hvalues => ?_
    refine .bind (h.value hargs.tail.getLastD) fun spread hspread => ?_
    split
    · exact .fail _
    · rename_i s hs
      refine .bind (h.toList (Value.toSeq?_unmarked hspread hs)) fun items hitems => ?_
      exact h.call _ ⟨hf, AllUnmarked.append hvalues hitems⟩
  · exact .fail _

theorem attempt (h : e.Clear e') (failure : EvalError) {forms : List Value}
    (hforms : AllUnmarked forms) :
    LazyLisp.Clear Outcome.Unmarked (Evaluation.attempt e scope failure forms)
      (Evaluation.attempt e' scope failure forms) := by
  induction forms generalizing failure with
  | nil => exact .fail failure
  | cons form rest ih =>
    intro w hw
    have hform : LazyLisp.Clear Outcome.Unmarked (e.evaluate scope form) (e'.evaluate scope form) :=
      h.evaluate hforms.head
    obtain ⟨hsame, hleaves⟩ := hform w hw
    rw [Evaluation.attempt, Evaluation.attempt]
    dsimp only
    rw [hsame]
    generalize e.evaluate scope form w = ending at hleaves ⊢
    cases ending with
    | ok o v =>
      cases o with
      | value a => exact ⟨rfl, hleaves⟩
      | again values => exact ih _ hforms.tail v hleaves.2
    | error s v =>
      cases s with
      | error err => exact ih err hforms.tail v hleaves
      | exhausted => exact ⟨rfl, hleaves⟩

theorem special (h : e.Clear e') (f : SpecialForm) {args : List Value} (hargs : AllUnmarked args) :
    LazyLisp.Clear Outcome.Unmarked (Evaluation.special e scope f args)
      (Evaluation.special e' scope f args) := by
  cases f with
  | quote => exact clear_quote hargs
  | ifElse => exact h.choose hargs
  | block => exact h.body hargs
  | define => exact h.define hargs
  | letIn => exact h.letIn hargs
  | varOf => exact clear_varOf args
  | lambda => exact h.lambda hargs
  | defineMacro => exact h.defineMacro hargs
  | looping => exact h.looping hargs
  | recur => exact h.recur hargs
  | apply => exact h.applyForm hargs
  | attempt => exact h.attempt _ hargs

/-! Application and the kinds of forms. -/

theorem evaluateEntries (h : e.Clear e') {done entries : Entries} (hdone : done.Unmarked)
    (hentries : entries.Unmarked) :
    LazyLisp.Clear Entries.Unmarked (Evaluation.evaluateEntries e scope done entries)
      (Evaluation.evaluateEntries e' scope done entries) := by
  induction entries generalizing done with
  | nil => exact .pure hdone
  | cons f rest ih =>
    obtain ⟨hf, hrest⟩ := List.forall_mem_cons.1 hentries
    refine .bind (h.value hf.1) fun k hk => .bind (h.value hf.2) fun v hv => ?_
    exact .bind (h.put hdone hk hv) fun done hdone => ih hdone hrest

theorem getOr (h : e.Clear e') {entries : Entries} (hentries : entries.Unmarked)
    {key fallback : Value} (hkey : key.Unmarked) (hfallback : fallback.Unmarked) :
    LazyLisp.Clear Outcome.Unmarked
      (do return .value ((← Entries.get? e entries key).getD fallback))
      (do return .value ((← Entries.get? e' entries key).getD fallback)) :=
  .bind (h.get? hentries hkey) fun _ ho => .pure (unmarked_getD ho hfallback)

theorem applyValue (h : e.Clear e') {callee : Value} {args : List Value}
    (hcallee : callee.Unmarked) (hargs : AllUnmarked args) :
    LazyLisp.Clear Outcome.Unmarked (Evaluation.applyValue e scope callee args)
      (Evaluation.applyValue e' scope callee args) := by
  unfold Evaluation.applyValue
  split
  · exact .bind (h.builtin _ hargs) fun _ hv => .pure hv
  · exact .bind (h.invoke _ hcallee hargs) fun _ hv => .pure hv
  · exact .bind (h.expand _ hargs) fun _ hform => h.evaluate hform
  · rw [Value.unmarked_vector] at hcallee
    split
    · split
      · rename_i v hv
        exact .pure (item?_unmarked hcallee v hv)
      · exact .fail _
    · exact .fail _
    · exact .fail _
  · refine .bind (clear_lookupArgs _ hargs) fun p hp => ?_
    exact h.getOr (Value.unmarked_map.1 hcallee) hp.1 hp.2
  · refine .bind (clear_lookupArgs _ hargs) fun p hp => ?_
    dsimp only
    split
    · rename_i hmap
      exact h.getOr (Value.unmarked_map.1 (hmap ▸ hp.1)) hcallee hp.2
    · exact .pure hp.2
  · refine .bind (clear_lookupArgs _ hargs) fun p hp => ?_
    dsimp only
    split
    · rename_i hmap
      exact h.getOr (Value.unmarked_map.1 (hmap ▸ hp.1)) hcallee hp.2
    · exact .pure hp.2
  · exact .bind (h.textOrType hcallee) fun _ _ => .fail _

theorem evaluateCall (h : e.Clear e') {head : Value} {tail : Seq} (hhead : head.Unmarked)
    (htail : tail.Unmarked) :
    LazyLisp.Clear Outcome.Unmarked (Watch.all.evaluateCall e scope head tail)
      (Watch.all.evaluateCall e' scope head tail) := by
  unfold Watch.evaluateCall
  split
  · refine .bind (h.toList htail) fun args hargs => ?_
    exact .get_bind fun _ _ => h.special _ hargs
  · have hcallee := h.call (.evaluate scope head true) hhead
    refine .bind hcallee fun o ho => .bind (Outcome.clear_toValue ho) fun callee hcallee => ?_
    split
    · refine .bind (h.toList htail) fun forms hforms => ?_
      exact .bind (h.expand _ hforms) fun _ hform => h.evaluate hform
    · refine .bind (h.fold (q := fun args => AllUnmarked args.toList) ?_ htail .nil)
        fun args hargs => ?_
      · intro acc hacc form hform
        exact .bind (h.value hform) fun v hv => .pure (hacc.push hv)
      · exact .get_bind fun _ _ => h.applyValue hcallee hargs

theorem evaluateList (h : e.Clear e') {s : Seq} (hs : s.Unmarked) :
    LazyLisp.Clear Outcome.Unmarked (Evaluation.evaluateList e scope s)
      (Evaluation.evaluateList e' scope s) := by
  rw [← Watch.all_evaluateList, ← Watch.all_evaluateList]
  refine .bind (h.uncons hs) fun o ho => ?_
  cases o with
  | none => exact .pure (show (Value.seq s).Unmarked from hs)
  | some x =>
    obtain ⟨hhead, htail⟩ := ho x rfl
    refine .get_bind fun w _ => ?_
    dsimp only
    split
    · refine .bind (h.textOrType (v := .seq s) hs) fun _ _ => ?_
      exact .bind (clear_note _) fun _ _ => h.evaluateCall hhead htail
    · exact h.evaluateCall hhead htail

theorem evaluateForm (h : e.Clear e') {form : Value} (hform : form.Unmarked) (asHead : Bool) :
    LazyLisp.Clear Outcome.Unmarked (Evaluation.evaluateForm e scope form asHead)
      (Evaluation.evaluateForm e' scope form asHead) := by
  cases form with
  | symbol s => exact clear_evaluateSymbol scope s asHead
  | transformer id =>
    unfold Evaluation.evaluateForm
    dsimp only
    split
    · exact .pure hform
    · exact clear_macroAsValue _
  | special f => exact .fail _
  | marked m form => exact absurd hform Value.not_unmarked_marked
  | vector items =>
    rw [Value.unmarked_vector] at hform
    refine .bind (.mapM fun form hmem => h.value (hform form hmem)) fun values hvalues => ?_
    exact .pure (Value.unmarked_vector.2 hvalues)
  | map entries =>
    rw [Value.unmarked_map] at hform
    refine .bind (h.evaluateEntries Entries.Unmarked.nil hform) fun values hvalues => ?_
    exact .pure (Value.unmarked_map.2 hvalues)
  | seq s => exact h.evaluateList hform
  | _ => exact .pure hform

theorem step (h : e.Clear e') {r : Request} (hr : r.Unmarked) :
    LazyLisp.Clear Outcome.Unmarked (Evaluation.step e r) (Evaluation.step e' r) := by
  cases r with
  | evaluate scope form asHead => exact h.evaluateForm hr asHead
  | apply scope callee args => exact h.applyValue hr.1 hr.2

end Engine.Clear
end LazyLisp
