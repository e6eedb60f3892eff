import LazyLisp.Proofs.Effects
import LazyLisp.Proofs.PlainForms

/-!
The built-in functions are paired by whatever pairs the operations that change the state. Functions
on namespaces depend on the current one; they are paired only where it is the same on both sides.
Reading may trace the forms on one side only, because nothing has to be realized to print them.
-/

namespace LazyLisp
set_option autoImplicit false

section
variable {κ : View} {Q : World → Prop} {α : Type}

theorem paired_lift (r : Except EvalError α) : Paired κ Q (Core.lift r) (Core.lift r) := by
  cases r with
  | ok a => exact .pure a
  | error e => exact .fail e

theorem paired_number (r : Except EvalError Number) : Paired κ Q (Core.number r) (Core.number r) :=
  .bind (paired_lift r) fun _ => .pure _

theorem paired_compareChain (function : String) (accept : Ordering → Bool) (args : List Value) :
    Paired κ Q (Core.compareChain function accept args) (Core.compareChain function accept args) :=
  .bind (paired_lift _) fun _ => .pure _

theorem paired_extreme (function : String) (wanted : Ordering) (args : List Value) :
    Paired κ Q (Core.extreme function wanted args) (Core.extreme function wanted args) := by
  refine .bind (paired_lift _) fun numbers => ?_
  cases numbers <;> exact .pure _

theorem paired_toInt (v : Value) : Paired κ Q (Core.toInt v) (Core.toInt v) := by
  unfold Core.toInt
  split
  · exact .pure _
  · exact .bind (paired_lift _) fun _ => .pure _
  · exact .pure _
  · exact .fail _

theorem paired_toDouble (v : Value) : Paired κ Q (Core.toDouble v) (Core.toDouble v) :=
  .bind (paired_lift _) fun _ => .pure _

theorem paired_seqOf (function : String) (v : Value) :
    Paired κ Q (Core.seqOf function v) (Core.seqOf function v) := by
  unfold Core.seqOf
  split
  · exact .pure _
  · exact .fail _

theorem paired_indexOf (function : String) (v : Value) :
    Paired κ Q (Core.indexOf function v) (Core.indexOf function v) := by
  unfold Core.indexOf
  split
  · exact .pure _
  · exact .fail _

theorem paired_setItems (items pairs : List Value) :
    Paired κ Q (Core.setItems items pairs) (Core.setItems items pairs) := by
  fun_induction Core.setItems items pairs with
  | case1 items key value rest ih1 ih2 =>
    refine .bind (paired_indexOf _ key) fun i => ?_
    dsimp only
    split
    · exact ih1 i
    · split
      · exact ih2
      · exact .fail _
  | case2 => exact .pure _

theorem paired_mapPart (function : String) (part : Value × Value → Value) (v : Value) :
    Paired κ Q (Core.mapPart function part v) (Core.mapPart function part v) := by
  unfold Core.mapPart
  split
  · exact .pure _
  · exact .pure _
  · exact .pure _
  · exact .fail _

theorem paired_textOf (function : String) (v : Value) :
    Paired κ Q (Core.textOf function v) (Core.textOf function v) := by
  unfold Core.textOf
  split
  · exact .pure _
  · exact .fail _

theorem paired_patternOf (function : String) (v : Value) :
    Paired κ Q (Core.patternOf function v) (Core.patternOf function v) := by
  unfold Core.patternOf
  split
  · exact .pure _
  · split
    · exact .pure _
    · exact .fail _
  · exact .fail _

theorem paired_reFind (pattern text : Value) :
    Paired κ Q (Core.reFind pattern text) (Core.reFind pattern text) :=
  .bind (paired_textOf _ _) fun _ => .bind (paired_patternOf _ _) fun _ => .pure _

theorem paired_reMatches (pattern text : Value) :
    Paired κ Q (Core.reMatches pattern text) (Core.reMatches pattern text) :=
  .bind (paired_textOf _ _) fun _ => .bind (paired_patternOf _ _) fun _ => .pure _

theorem paired_nameText (function : String) (v : Value) :
    Paired κ Q (Core.nameText function v) (Core.nameText function v) := by
  unfold Core.nameText
  split
  · exact .pure _
  · exact .get_bind fun _ _ => .pure _
  · exact .get_bind fun _ _ => .pure _
  · exact .fail _

theorem paired_name (v : Value) : Paired κ Q (Core.name v) (Core.name v) := by
  unfold Core.name
  split
  · exact .get_bind fun _ _ => .pure _
  · exact .get_bind fun _ _ => .pure _
  · exact .pure _
  · exact .fail _

theorem paired_subs (v start : Value) (stop : Option Value) :
    Paired κ Q (Core.subs v start stop) (Core.subs v start stop) := by
  unfold Core.subs
  split
  · refine .bind (paired_indexOf _ start) fun a => ?_
    dsimp only
    split
    · refine .bind (paired_indexOf _ _) fun _ => .bind (.pure _) fun b => ?_
      exact .guard (.guard (.guard (.pure _)))
    · refine .bind (.pure _) fun b => ?_
      exact .guard (.guard (.guard (.pure _)))
  · exact .fail _

theorem paired_deref (v : Value) : Paired κ Q (Core.deref v) (Core.deref v) := by
  have hvar : ∀ id : VarId, Paired κ Q (Core.deref (.var id)) (Core.deref (.var id)) := by
    intro id
    refine .get_bind fun w _ => ?_
    have hvar : (w.seen κ).spaces.var? id = w.spaces.var? id := rfl
    rw [hvar]
    split
    · exact .pure _
    · exact .fail _
  cases v with
  | var id => exact hvar id
  | unbound id => exact hvar id
  | _ => exact .fail _

theorem paired_spaceOf (function : String) (v : Value) :
    Paired κ Q (Core.spaceOf function v) (Core.spaceOf function v) := by
  unfold Core.spaceOf
  dsimp only
  split
  · exact .pure _
  · split
    · exact .fail _
    · exact .pure _
  · exact .fail _

theorem paired_nsName (v : Value) : Paired κ Q (Core.nsName v) (Core.nsName v) :=
  .bind (paired_spaceOf _ v) fun _ => .pure _

theorem paired_misfit (b : Builtin) (args : List Value) :
    Paired κ Q (Core.misfit b args) (Core.misfit b args) :=
  .fail _

section
variable {b : Builtin} {args : List Value}

theorem paired_one {f f' : Value → Eval Value} (hf : ∀ x, Paired κ Q (f x) (f' x)) :
    Paired κ Q (Core.one b args f) (Core.one b args f') := by
  unfold Core.one
  split
  · exact hf _
  · exact paired_misfit b args

theorem paired_two {f f' : Value → Value → Eval Value} (hf : ∀ x y, Paired κ Q (f x y) (f' x y)) :
    Paired κ Q (Core.two b args f) (Core.two b args f') := by
  unfold Core.two
  split
  · exact hf _ _
  · exact paired_misfit b args

theorem paired_twoOrThree {f f' : Value → Value → Option Value → Eval Value}
    (hf : ∀ x y z, Paired κ Q (f x y z) (f' x y z)) :
    Paired κ Q (Core.twoOrThree b args f) (Core.twoOrThree b args f') := by
  unfold Core.twoOrThree
  split
  · exact hf _ _ _
  · exact hf _ _ _
  · exact paired_misfit b args

theorem paired_oneAndMore {f f' : Value → List Value → Eval Value}
    (hf : ∀ x more, Paired κ Q (f x more) (f' x more)) :
    Paired κ Q (Core.oneAndMore b args f) (Core.oneAndMore b args f') := by
  unfold Core.oneAndMore
  split
  · exact hf _ _
  · exact paired_misfit b []

end
end

/-! The operations on namespaces, where both sides have the same current one. -/

theorem seen_log {κ : View} (hκ : κ.Faithful) (w : World) : (w.seen κ).log = w.log :=
  congrFun hκ.log w.log

theorem seen_current {κ : View} (hκ : κ.current = id) (w : World) :
    (w.seen κ).current = w.current :=
  congrFun hκ w.current

section
variable {κ : View} {Q : World → Prop} (hκ : κ.current = id)
  (hspaces : ∀ w spaces, Q w → Q { w with spaces := spaces })
include hκ hspaces

theorem paired_declare (name : NameId) : Paired κ Q (Eval.declare name) (Eval.declare name) := by
  refine .get_bind fun w hw => ?_
  have hintern : (w.seen κ).spaces.intern? (w.seen κ).current name =
      w.spaces.intern? w.current name := by
    rw [seen_current hκ]
    rfl
  rw [hintern]
  split
  · exact .bind (.set (hspaces w _ hw)) fun _ => .pure _
  · rw [seen_current hκ]
    exact .fail _

theorem paired_define (name : NameId) (value : Value) :
    Paired κ Q (Eval.define name value) (Eval.define name value) := by
  refine .bind (paired_declare hκ hspaces name) fun id => ?_
  exact .bind (.modify (fun w hw => hspaces w _ hw) fun _ => rfl) fun _ => .pure _

omit hκ in
theorem paired_refer (target source : NameId) :
    Paired κ Q (Core.refer target source) (Core.refer target source) := by
  refine .get_bind fun w hw => ?_
  have hwspaces : (w.seen κ).spaces = w.spaces := rfl
  rw [hwspaces]
  rcases w.spaces.refer target source with ⟨(e | count), spaces⟩
  · refine .bind (.set (hspaces w _ hw)) fun _ => ?_
    cases e <;> exact .fail _
  · exact .bind (.set (hspaces w _ hw)) fun _ => .pure _

theorem paired_nsRefer (v : Value) : Paired κ Q (Core.nsRefer v) (Core.nsRefer v) := by
  refine .bind (paired_spaceOf _ v) fun source => .get_bind fun w _ => ?_
  rw [seen_current hκ]
  exact .bind (paired_refer hspaces _ _) fun _ => .pure _

theorem paired_nsRemove (v : Value) : Paired κ Q (Core.nsRemove v) (Core.nsRemove v) := by
  refine .bind (paired_spaceOf _ v) fun ns => .get_bind fun w hw => ?_
  have hguard : (ns == (w.seen κ).current) = (ns == w.current) := by rw [seen_current hκ]
  rw [hguard]
  exact .guard (.guard (.bind (.set (hspaces w _ hw)) fun _ => .pure _))

omit hκ in
theorem paired_nsUnmap (ns name : Value) :
    Paired κ Q (Core.nsUnmap ns name) (Core.nsUnmap ns name) := by
  refine .bind (paired_spaceOf _ ns) fun ns => ?_
  split
  · refine .get_bind fun w hw => ?_
    have hwspaces : (w.seen κ).spaces = w.spaces := rfl
    rw [hwspaces]
    split
    · exact .bind (.set (hspaces w _ hw)) fun _ => .pure _
    · exact .fail _
  · exact .fail _

theorem paired_nsSet (hcurrent : ∀ w ns, Q w → Q { w with current := ns }) (v : Value) :
    Paired κ Q (Core.nsSet v) (Core.nsSet v) := by
  refine .bind (paired_spaceOf _ v) fun ns => .get_bind fun w _ => ?_
  have hwspaces : (w.seen κ).spaces = w.spaces := rfl
  refine .bind (.modify (fun w hw => hspaces w _ hw) fun _ => rfl) fun _ => ?_
  have hset : ∀ w : World,
      { w.seen κ with current := ns } = World.seen κ { w with current := ns } := by
    intro w
    simp only [World.seen, hκ, id]
  have hswitch : Paired κ Q (do
      modify fun w => { w with current := ns }
      return .space ns : Eval Value) (do
      modify fun w => { w with current := ns }
      return .space ns) :=
    .bind (.modify (fun w hw => hcurrent w ns hw) hset) fun _ => .pure _
  dsimp only
  rw [hwspaces]
  split
  · exact .bind (paired_refer hspaces _ _) fun _ => hswitch
  · exact hswitch

end

theorem Defining.of_spaces {P : World → World → Prop}
    (hspaces : ∀ base w spaces, P base w → P base { w with spaces := spaces })
    (hcurrent : ∀ base w ns, P base w → P base { w with current := ns }) : Defining P where
  declare base name := .of_paired (paired_declare rfl (hspaces base) name)
  define base name value := .of_paired (paired_define rfl (hspaces base) name value)
  nsSet base v := .of_paired (paired_nsSet rfl (hspaces base) (hcurrent base) v)
  nsRefer base v := .of_paired (paired_nsRefer rfl (hspaces base) v)
  nsRemove base v := .of_paired (paired_nsRemove rfl (hspaces base) v)
  nsUnmap base ns name := .of_paired (paired_nsUnmap (hspaces base) ns name)

/-! What definitions keep may be any property; that they are paired does not depend on it. -/

namespace Defining
variable {κ : View} {P : World → World → Prop} {base : World}

theorem pairedDeclare (h : Defining P) (hκ : κ.current = id) (name : NameId) :
    Paired κ (P base) (Eval.declare name) (Eval.declare name) :=
  (paired_declare hκ (fun _ _ _ => trivial) name).with_preserves (h.declare base name)

theorem pairedDefine (h : Defining P) (hκ : κ.current = id) (name : NameId) (value : Value) :
    Paired κ (P base) (Eval.define name value) (Eval.define name value) :=
  (paired_define hκ (fun _ _ _ => trivial) name value).with_preserves (h.define base name value)

end Defining

section
variable {κ : View} {P : World → World → Prop} {fits : World → Scope → Prop}
  {base : World} {e e' : Engine} {scope : Scope}

namespace Coupling

theorem symbolOf (h : Coupling P fits) (function : String) (args : List Value) :
    Paired κ (P base) (Core.symbolOf function args) (Core.symbolOf function args) := by
  unfold Core.symbolOf
  split
  · refine .bind (paired_nameText _ _) fun text => ?_
    split
    · exact .bind (h.intern _) fun _ => .bind (h.intern _) fun _ => .pure _
    · exact .bind (h.intern _) fun _ => .pure _
  · refine .bind (paired_nameText _ _) fun name => ?_
    split
    · exact .bind (h.intern _) fun _ => .pure _
    · refine .bind (paired_nameText _ _) fun ns => ?_
      exact .bind (h.intern _) fun _ => .bind (h.intern _) fun _ => .pure _
  · exact .pure _

theorem keyword (h : Coupling P fits) (args : List Value) :
    Paired κ (P base) (Core.keyword args) (Core.keyword args) := by
  unfold Core.keyword
  split
  · exact .pure _
  · exact .bind (h.symbolOf _ _) fun _ => .pure _

theorem gensym (h : Coupling P fits) (stem : Option Value) :
    Paired κ (P base) (Core.gensym stem) (Core.gensym stem) := by
  have hfresh : ∀ stem : String, Paired κ (P base)
      (modifyGet fun w : World => (Value.symbol (.plain (w.names.fresh stem none).1),
        { w with names := (w.names.fresh stem none).2 }) : Eval Value)
      (modifyGet fun w : World => (Value.symbol (.plain (w.names.fresh stem none).1),
        { w with names := (w.names.fresh stem none).2 })) :=
    fun stem => .modifyGet (fun w => h.names base w _) fun _ => rfl
  unfold Core.gensym
  split
  · exact .bind (.pure _) hfresh
  · exact .bind (.pure _) hfresh
  · exact .get_bind fun _ _ => .bind (.pure _) hfresh
  · exact .bind (.fail _) hfresh

end Coupling

/-- Whether a function works on namespaces or on code that is given as data. -/
def Builtin.isReflective : Builtin → Bool
  | eval | readString | nsSet | nsRefer | nsRemove | nsUnmap | nsName => true
  | _ => false

/-- Traces forms that were read. -/
def noteForms (e : Engine) (forms : List Value) : Eval Unit :=
  forms.forM fun form => do Eval.note (.readForm (← form.textOrType e))

theorem noteForms_cons {e : Engine} {form : Value} {w : World} {text : String}
    (h : form.textOrType e w = .ok text w) (rest : List Value) :
    noteForms e (form :: rest) w =
      noteForms e rest { w with events := w.events.push (.readForm text) } := by
  have hnote : (form.textOrType e >>= fun text => Eval.note (.readForm text)) w =
      .ok () { w with events := w.events.push (.readForm text) } := run_bind_ok h _
  exact run_bind_ok hnote _

namespace Engine.Paired

theorem seqOrNil (h : e.Paired κ P fits e') (s : Seq) :
    LazyLisp.Paired κ (P base) (Core.seqOrNil e s) (Core.seqOrNil e' s) := by
  refine .bind (h.isEmpty s) fun b => ?_
  split <;> exact .pure _

theorem putPairs (h : e.Paired κ P fits e') (entries : Entries) (items : List Value) :
    LazyLisp.Paired κ (P base) (Core.putPairs e entries items) (Core.putPairs e' entries items) := by
  fun_induction Core.putPairs e entries items with
  | case1 entries key value rest ih => exact .bind (h.put entries key value) fun _ => ih _
  | case2 items entries hitems =>
    rw [Core.putPairs.eq_2 e' entries items hitems]
    exact .pure _

theorem hashMap (h : e.Paired κ P fits e') (args : List Value) :
    LazyLisp.Paired κ (P base) (Core.hashMap e args) (Core.hashMap e' args) := by
  unfold Core.hashMap
  exact .guard (.bind (h.putPairs _ _) fun _ => .pure _)

theorem walkTo (h : e.Paired κ P fits e') {n n' : Nat} (hn : n ≤ n') (wanted seen : Nat) (s : Seq) :
    LazyLisp.Paired κ (P base) (Core.walkTo e n wanted seen s) (Core.walkTo e' n' wanted seen s) := by
  induction n generalizing n' wanted seen s with
  | zero => exact .exhausted
  | succ n ih =>
    obtain ⟨n', rfl⟩ := Nat.exists_eq_add_of_le' (Nat.le_trans (Nat.succ_pos n) hn)
    refine .bind (h.uncons s) fun o => ?_
    cases o with
    | none => exact .pure _
    | some p =>
      dsimp only
      split
      · exact .pure _
      · exact ih (Nat.le_of_succ_le_succ hn) _ _ _

theorem nthOf (h : e.Paired κ P fits e') (v : Value) (index : Int64) :
    LazyLisp.Paired κ (P base) (Core.nthOf e v index) (Core.nthOf e' v index) := by
  unfold Core.nthOf
  dsimp only
  split
  · exact .pure _
  · exact .pure _
  · refine .bind (paired_seqOf _ _) fun s => ?_
    split
    · exact .pure _
    · exact h.walkTo h.bound _ _ _

theorem nth (h : e.Paired κ P fits e') (v index : Value) (fallback : Option Value) :
    LazyLisp.Paired κ (P base) (Core.nth e v index fallback) (Core.nth e' v index fallback) := by
  refine .bind (paired_indexOf _ _) fun i => ?_
  split
  · exact .pure _
  · refine .bind (h.nthOf v i) fun r => ?_
    split
    · exact .pure _
    · exact .pure _
    · exact .fail _

theorem get (h : e.Paired κ P fits e') (v key fallback : Value) :
    LazyLisp.Paired κ (P base) (Core.get e v key fallback) (Core.get e' v key fallback) := by
  unfold Core.get
  split
  · exact .bind (h.get? _ _) fun _ => .pure _
  · exact .pure _
  · exact .pure _
  · exact .pure _

theorem count (h : e.Paired κ P fits e') (v : Value) :
    LazyLisp.Paired κ (P base) (Core.count e v) (Core.count e' v) := by
  unfold Core.count
  split
  iterate 4 exact .pure _
  refine .bind (paired_seqOf _ _) fun s => ?_
  exact .bind (h.fold (fun _ _ => .pure _) s 0) fun _ => paired_number _

theorem assoc (h : e.Paired κ P fits e') (v : Value) (items : List Value) :
    LazyLisp.Paired κ (P base) (Core.assoc e v items) (Core.assoc e' v items) := by
  unfold Core.assoc
  refine .guard ?_
  split
  · exact .bind (h.putPairs _ _) fun _ => .pure _
  · exact .bind (h.putPairs _ _) fun _ => .pure _
  · exact .bind (paired_setItems _ _) fun _ => .pure _
  · exact .fail _

theorem dissoc (h : e.Paired κ P fits e') (v : Value) (keys : List Value) :
    LazyLisp.Paired κ (P base) (Core.dissoc e v keys) (Core.dissoc e' v keys) := by
  unfold Core.dissoc
  split
  · exact .pure _
  · exact .bind (.foldlM fun _ _ => h.remove _ _) fun _ => .pure _
  · exact .fail _

theorem conjEntry (h : e.Paired κ P fits e') (entries : Entries) (v : Value) :
    LazyLisp.Paired κ (P base) (Core.conjEntry e entries v) (Core.conjEntry e' entries v) := by
  unfold Core.conjEntry
  split
  · exact h.put _ _ _
  · exact .foldlM fun _ _ => h.put _ _ _
  · exact .fail _

theorem conj (h : e.Paired κ P fits e') (v : Value) (items : List Value) :
    LazyLisp.Paired κ (P base) (Core.conj e v items) (Core.conj e' v items) := by
  unfold Core.conj
  split
  iterate 3 exact .pure _
  · exact .bind (.foldlM h.conjEntry) fun _ => .pure _
  · exact .fail _

theorem contains (h : e.Paired κ P fits e') (v key : Value) :
    LazyLisp.Paired κ (P base) (Core.contains e v key) (Core.contains e' v key) := by
  unfold Core.contains
  split
  · exact .pure _
  · exact .bind (h.get? _ _) fun _ => .pure _
  iterate 4 exact .pure _
  · exact .fail _

theorem reduce (h : e.Paired κ P fits e') (hscope : fits base scope) (f : Value)
    (start : Option Value) (v : Value) :
    LazyLisp.Paired κ (P base) (Core.reduce e scope f start v) (Core.reduce e' scope f start v) := by
  refine .bind (paired_seqOf _ _) fun s => ?_
  have hstep : ∀ acc item, LazyLisp.Paired κ (P base) (e.apply scope f [acc, item])
      (e'.apply scope f [acc, item]) :=
    fun _ _ => h.apply hscope _ _
  cases start with
  | some a => exact h.fold hstep s a
  | none =>
    refine .bind (h.uncons s) fun o => ?_
    cases o with
    | none => exact h.apply hscope _ _
    | some p => exact h.fold hstep p.2 p.1

theorem allEqualChain (h : e.Paired κ P fits e') (args : List Value) :
    LazyLisp.Paired κ (P base) (Core.allEqual e args) (Core.allEqual e' args) := by
  fun_induction Core.allEqual e args with
  | case1 a b rest ih =>
    refine .bind (h.equal a b) fun r => ?_
    split
    · exact ih
    · exact .pure _
  | case2 args hargs =>
    rw [Core.allEqual.eq_2 e' args hargs]
    exact .pure _

theorem str (h : e.Paired κ P fits e') (args : List Value) :
    LazyLisp.Paired κ (P base) (Core.str e args) (Core.str e' args) := by
  refine .bind (.mapM fun v => ?_) fun _ => .pure _
  split
  · exact .pure _
  · exact h.text _ _

theorem printValues (h : e.Paired κ P fits e') (style : Style) (ending : String) (args : List Value) :
    LazyLisp.Paired κ (P base) (Core.printValues e style ending args)
      (Core.printValues e' style ending args) :=
  .bind (.mapM fun v => h.text style v) fun _ => .bind (h.coupling.print _) fun _ => .pure _

/-- Whatever the budget, printing a plain form changes nothing unless the budget is used up. -/
theorem plain_textOrType (h : e.Paired κ P fits e') {v : Value} (hv : v.Plain) {w : World}
    (hw : P base w) (hended : Ended (v.textOrType e w)) : ∃ text, v.textOrType e w = .ok text w := by
  let larger : Engine := ⟨e.call, max e.bound v.size⟩
  have hlarger : e.Paired .same P fits larger :=
    ⟨h.coupling, Nat.le_max_left _ _, fun base r hr => (h.call base r hr).preserves.tied⟩
  obtain ⟨text, htext⟩ := hv.exists_textOrType (e := larger) (Nat.le_max_right _ _) w
  exact ⟨text, (hlarger.textOrType v).run_eq hw hended ▸ htext⟩

/-- Where forms that were read are traced in the first run, the second may trace them or not. -/
theorem noteForms_ends (h : e.Paired κ P fits e') {forms : List Value} (hforms : AllPlain forms)
    {w : World} (hw : P base w) (hfirst : w.log.read = true) :
    Ends κ (P base) (noteForms e forms w)
      ((if (κ.log w.log).read then noteForms e' forms else pure ()) (w.seen κ)) := by
  induction forms generalizing w with
  | nil => split <;> exact .ok hw
  | cons form rest ih =>
    obtain ⟨hform, hrest⟩ := List.forall_mem_cons.1 hforms
    have hends := h.textOrType form w hw
    have hcalm := h.plain_textOrType hform hw
    generalize htext : form.textOrType e w = r, htext' : form.textOrType e' (w.seen κ) = r'
      at hends hcalm
    cases hends with
    | @error err v _ =>
      obtain ⟨_, hok⟩ := hcalm (.error err v)
      cases hok
    | @exhausted v _ hv =>
      have hrun : noteForms e (form :: rest) w = .error .exhausted v :=
        run_bind_error (run_bind_error htext _) _
      exact hrun ▸ .exhausted hv
    | @ok text v _ =>
      obtain ⟨_, hok⟩ := hcalm (.ok text v)
      cases hok
      have hshown : w.log.shows (.readForm text) = true := hfirst
      have hmore := ih hrest (h.coupling.events base w (w.events.push (.readForm text)) hw) hfirst
      rw [seen_note hshown] at hmore
      rw [noteForms_cons htext]
      by_cases hsecond : (κ.log w.log).read = true
      · have hshown' : (κ.log w.log).shows (.readForm text) = true := hsecond
        rw [if_pos hsecond] at hmore ⊢
        rw [if_pos hshown'] at hmore
        rw [noteForms_cons htext']
        exact hmore
      · have hshown' : ¬ (κ.log w.log).shows (.readForm text) = true := hsecond
        rw [if_neg hsecond] at hmore ⊢
        rw [if_neg hshown'] at hmore
        exact hmore

theorem reading_gives (source : String) : Gives (modifyGet fun w : World =>
    match readForms source w.names with
    | .ok forms names => (Except.ok forms, { w with names := names })
    | .error err names => (Except.error err, { w with names := names }) :
      Eval (Except ReadError (List Value))) fun r => ∀ forms, r = .ok forms → AllPlain forms := by
  rintro w r v hrun forms rfl
  rw [run_modifyGet] at hrun
  cases hread : readForms source w.names with
  | ok forms' names =>
    rw [hread] at hrun
    cases hrun
    exact readForms_plain source _ _ _ hread
  | error err names => rw [hread] at hrun; cases hrun

theorem readSource (h : e.Paired κ P fits e') (source : String) :
    LazyLisp.Paired κ (P base) (Core.readSource e source) (Core.readSource e' source) := by
  refine .bind_gives (.modifyGet (fun w hw => ?_) fun w => ?_) (reading_gives source)
    fun r hr => ?_
  · cases readForms source w.names <;> exact h.coupling.names base w _ hw
  · have hnames : (w.seen κ).names = w.names := rfl
    rw [hnames]
    cases readForms source w.names <;> rfl
  · refine .get_bind_at fun w hw => ?_
    cases r with
    | error err =>
      dsimp only
      split <;> split <;> exact .ok hw
    | ok forms =>
      have hlog : (w.seen κ).log = κ.log w.log := rfl
      rw [hlog]
      by_cases hfirst : w.log.read = true
      · have hforms := h.noteForms_ends (hr forms rfl) hw hfirst
        rw [if_pos hfirst]
        by_cases hsecond : (κ.log w.log).read = true
        · rw [if_pos hsecond] at hforms ⊢
          exact hforms.bind fun _ _ _ hv => .ok hv
        · rw [if_neg hsecond] at hforms ⊢
          exact hforms.bind fun _ _ _ hv => .ok hv
      · have hsecond : ¬ (κ.log w.log).read = true := by
          intro hsecond
          have hshows : (κ.log w.log).shows (.readForm "") = true := hsecond
          exact hfirst (κ.shows_of_shows hshows)
        rw [if_neg hfirst, if_neg hsecond]
        exact .ok hw

theorem readString (h : e.Paired κ P fits e') (v : Value) :
    LazyLisp.Paired κ (P base) (Core.readString e v) (Core.readString e' v) := by
  unfold Core.readString
  split
  · refine .bind (h.readSource _) fun r => ?_
    split
    · exact .fail _
    · exact .fail _
    · exact .pure _
  · exact .fail _

/-- A function that works on namespaces needs the same current one on both sides. -/
theorem perform (h : e.Paired κ P fits e') (hscope : fits base scope) (b : Builtin)
    (hb : (κ.current = id ∧ Defining P) ∨ b.isReflective = false) (args : List Value) :
    LazyLisp.Paired κ (P base) (Core.perform e scope b args) (Core.perform e' scope b args) := by
  cases b with
  | add | multiply | subtract | divide => exact paired_number _
  | quot | rem | mod => exact paired_two fun _ _ => paired_number _
  | inc | dec => exact paired_one fun _ => paired_number _
  | max | min => exact paired_extreme _ _ _
  | numEqual | less | lessEqual | greater | greaterEqual => exact paired_compareChain _ _ _
  | equal => exact .bind (h.allEqualChain args) fun _ => .pure _
  | list | vector => exact .pure _
  | vec =>
    refine paired_one fun v => .bind (paired_seqOf _ v) fun s => ?_
    exact .bind (h.toList s) fun _ => .pure _
  | hashMap => exact h.hashMap args
  | cons => exact paired_two fun _ tail => .bind (paired_seqOf _ tail) fun _ => .pure _
  | first =>
    refine paired_one fun v => .bind (paired_seqOf _ v) fun s => ?_
    exact .bind (h.first? s) fun _ => .pure _
  | rest =>
    refine paired_one fun v => .bind (paired_seqOf _ v) fun s => ?_
    exact .bind (h.rest s) fun _ => .pure _
  | next =>
    refine paired_one fun v => .bind (paired_seqOf _ v) fun s => ?_
    exact .bind (h.rest s) fun t => h.seqOrNil t
  | seq => exact paired_one fun v => .bind (paired_seqOf _ v) fun s => h.seqOrNil s
  | concat => exact .bind (.mapM fun v => paired_seqOf _ v) fun _ => .pure _
  | nth => exact paired_twoOrThree h.nth
  | get =>
    unfold Core.perform
    exact paired_twoOrThree fun v key _ => h.get v key _
  | count => exact paired_one h.count
  | assoc => exact paired_oneAndMore h.assoc
  | dissoc => exact paired_oneAndMore h.dissoc
  | conj => exact paired_oneAndMore h.conj
  | keys | vals => exact paired_one (paired_mapPart _ _)
  | contains => exact paired_two h.contains
  | lazySeq => exact paired_one fun thunk => .bind (h.coupling.newLazyPaired thunk) fun _ => .pure _
  | reduce =>
    unfold Core.perform
    refine paired_twoOrThree fun f x y => ?_
    cases y with
    | none => exact h.reduce hscope _ _ _
    | some v => exact h.reduce hscope _ _ _
  | str => exact h.str args
  | subs => exact paired_twoOrThree paired_subs
  | print | println | pr | prn => exact h.printValues _ _ args
  | symbol => exact .bind (h.coupling.symbolOf _ args) fun _ => .pure _
  | keyword => exact h.coupling.keyword args
  | name => exact paired_one paired_name
  | gensym => exact h.coupling.gensym _
  | int => exact paired_one paired_toInt
  | double => exact paired_one paired_toDouble
  | readString => exact paired_one h.readString
  | eval => exact paired_one fun form => h.value (h.coupling.fits_none base) form
  | deref => exact paired_one paired_deref
  | nsSet | nsRefer | nsRemove | nsUnmap =>
    rcases hb with ⟨hκ, hdefining⟩ | hb
    · have hany : ∀ (w : World) (spaces : Namespaces), True → True := fun _ _ h => h
      first
        | exact paired_one fun v =>
            (paired_nsSet hκ hany (fun _ _ h => h) v).with_preserves (hdefining.nsSet base v)
        | exact paired_one fun v =>
            (paired_nsRefer hκ hany v).with_preserves (hdefining.nsRefer base v)
        | exact paired_one fun v =>
            (paired_nsRemove hκ hany v).with_preserves (hdefining.nsRemove base v)
        | exact paired_two fun v name =>
            (paired_nsUnmap hany v name).with_preserves (hdefining.nsUnmap base v name)
    · cases hb
  | nsName => exact paired_one paired_nsName
  | rePattern => exact paired_one fun v => .bind (paired_patternOf _ v) fun _ => .pure _
  | reFind => exact paired_two paired_reFind
  | reMatches => exact paired_two paired_reMatches
  | isNil | isBoolean | isNumber | isInt | isFloat | isString | isChar | isSymbol | isKeyword
  | isFn | isMacro | isSeq | isVector | isMap | isVar | isNamespace =>
    exact paired_one fun _ => .pure _

theorem builtin (h : e.Paired κ P fits e') (hscope : fits base scope) (b : Builtin)
    (hb : (κ.current = id ∧ Defining P) ∨ b.isReflective = false) (args : List Value) :
    LazyLisp.Paired κ (P base) (Core.call e scope b args) (Core.call e' scope b args) := by
  unfold Core.call
  split
  · exact h.perform hscope b hb args
  · exact paired_misfit b args

end Engine.Paired
end
end LazyLisp
