import LazyLisp.Proofs.Truthful

/-!
The built-in functions report numbers of arguments truthfully: the call checks the number first, and
what each function is then given it has a case for.
-/

namespace LazyLisp
set_option autoImplicit false

/-! Arithmetic. -/

/-- A result that does not fail for a number of arguments. -/
def Orderly {α : Type} (r : Except EvalError α) : Prop :=
  ∀ err, r = .error err → ∀ w : World, w.Explains err

namespace Orderly
variable {α β : Type}

theorem ok (a : α) : Orderly (.ok a) := nofun

theorem error {err : EvalError} (h : ∀ w : World, w.Explains err) :
    Orderly (.error err : Except EvalError α) := by
  rintro _ ⟨⟩
  exact h

theorem bind {r : Except EvalError α} {f : α → Except EvalError β} (hr : Orderly r)
    (hf : ∀ a, Orderly (f a)) : Orderly (r >>= f) := by
  cases r with
  | ok a => exact hf a
  | error err =>
    rintro _ ⟨⟩
    exact hr err rfl

theorem mapM {f : α → Except EvalError β} (hf : ∀ x, Orderly (f x)) (xs : List α) :
    Orderly (xs.mapM f) := by
  induction xs with
  | nil => exact .ok _
  | cons x xs ih =>
    rw [List.mapM_cons]
    exact .bind (hf x) fun _ => .bind ih fun _ => .ok _

end Orderly

namespace Number

theorem orderly_ofValue (function : String) (v : Value) : Orderly (ofValue function v) := by
  unfold ofValue
  split
  · exact .ok _
  · exact .ok _
  · exact .error fun _ => trivial

theorem orderly_ofInt (operation : String) (n : Int) : Orderly (ofInt operation n) := by
  unfold ofInt
  split
  · exact .ok _
  · exact .error fun _ => trivial

theorem orderly_add (a b : Number) : Orderly (add a b) := by
  unfold add
  split
  · exact orderly_ofInt _ _
  · exact .ok _

theorem orderly_sub (a b : Number) : Orderly (sub a b) := by
  unfold sub
  split
  · exact orderly_ofInt _ _
  · exact .ok _

theorem orderly_mul (a b : Number) : Orderly (mul a b) := by
  unfold mul
  split
  · exact orderly_ofInt _ _
  · exact .ok _

theorem orderly_quot (a b : Number) : Orderly (quot a b) := by
  unfold quot
  split
  · exact .error fun _ => trivial
  · split
    · exact orderly_ofInt _ _
    · exact .ok _

theorem orderly_rem (a b : Number) : Orderly (rem a b) := by
  unfold rem
  split
  · exact .error fun _ => trivial
  · split
    · split
      · exact .error fun _ => trivial
      · exact orderly_ofInt _ _
    · exact .ok _

theorem orderly_mod (a b : Number) : Orderly (mod a b) := by
  refine .bind (orderly_rem a b) fun r => ?_
  have hadjusted : ∀ adjust : Bool, Orderly (if adjust then add r b else .ok r) := by
    intro adjust
    cases adjust with
    | true => exact orderly_add r b
    | false => exact .ok r
  exact hadjusted _

theorem orderly_div (a b : Number) : Orderly (div a b) := by
  unfold div
  split
  · exact .error fun _ => trivial
  · split
    · split
      · exact .error fun _ => trivial
      · split
        · exact orderly_ofInt _ _
        · exact .ok _
    · exact .ok _

theorem orderly_toInt (x : Float) : Orderly (toInt x) := by
  unfold toInt
  dsimp only
  split
  · exact .ok _
  · exact .error fun _ => trivial

section
variable {op : Number → Number → Except EvalError Number} (hop : ∀ a b, Orderly (op a b))
include hop

theorem orderly_foldl (function : String) (acc : Number) (args : List Value) :
    Orderly (foldl function op acc args) := by
  induction args generalizing acc with
  | nil => exact .ok acc
  | cons v vs ih =>
    exact .bind (orderly_ofValue _ v) fun n => .bind (hop acc n) fun acc => ih acc

theorem orderly_foldFrom (function : String) (unit : Int64) (args : List Value) :
    Orderly (foldFrom function op unit args) := by
  unfold foldFrom
  split
  · exact .ok _
  · exact .bind (orderly_ofValue _ _) fun _ => hop _ _
  · exact .bind (orderly_ofValue _ _) fun _ => orderly_foldl hop _ _ _

theorem orderly_binary (function : String) (a b : Value) : Orderly (binary function op a b) :=
  .bind (orderly_ofValue _ a) fun _ => .bind (orderly_ofValue _ b) fun _ => hop _ _

end
end Number

/-! Functions that need no engine. -/

section
variable {α : Type}

theorem truthful_lift {r : Except EvalError α} (h : Orderly r) : Truthful (Core.lift r) := by
  cases r with
  | ok a => exact .pure a
  | error err => exact .fail (h err rfl)

theorem truthful_number {r : Except EvalError Number} (h : Orderly r) : Truthful (Core.number r) :=
  .bind (truthful_lift h) fun _ => .pure _

theorem truthful_compareChain (function : String) (accept : Ordering → Bool) (args : List Value) :
    Truthful (Core.compareChain function accept args) :=
  .bind (truthful_lift (.mapM (Number.orderly_ofValue _) args)) fun _ => .pure _

theorem truthful_extreme (function : String) (wanted : Ordering) (args : List Value) :
    Truthful (Core.extreme function wanted args) := by
  refine .bind (truthful_lift (.mapM (Number.orderly_ofValue _) args)) fun numbers => ?_
  cases numbers <;> exact .pure _

theorem truthful_toInt (v : Value) : Truthful (Core.toInt v) := by
  unfold Core.toInt
  split
  · exact .pure _
  · exact .bind (truthful_lift (Number.orderly_toInt _)) fun _ => .pure _
  · exact .pure _
  · exact .fail fun _ => trivial

theorem truthful_toDouble (v : Value) : Truthful (Core.toDouble v) :=
  .bind (truthful_lift (Number.orderly_ofValue _ v)) fun _ => .pure _

theorem truthful_seqOf (function : String) (v : Value) : Truthful (Core.seqOf function v) := by
  unfold Core.seqOf
  split
  · exact .pure _
  · exact .fail fun _ => trivial

theorem truthful_indexOf (function : String) (v : Value) : Truthful (Core.indexOf function v) := by
  unfold Core.indexOf
  split
  · exact .pure _
  · exact .fail fun _ => trivial

theorem truthful_setItems (items pairs : List Value) : Truthful (Core.setItems items pairs) := by
  fun_induction Core.setItems items pairs with
  | case1 items key value rest ih1 ih2 =>
    refine .bind (truthful_indexOf _ key) fun i => ?_
    dsimp only
    split
    · exact ih1 i
    · split
      · exact ih2
      · exact .fail fun _ => trivial
  | case2 => exact .pure _

theorem truthful_mapPart (function : String) (part : Value × Value → Value) (v : Value) :
    Truthful (Core.mapPart function part v) := by
  unfold Core.mapPart
  split
  · exact .pure _
  · exact .pure _
  · exact .pure _
  · exact .fail fun _ => trivial

theorem truthful_textOf (function : String) (v : Value) : Truthful (Core.textOf function v) := by
  unfold Core.textOf
  split
  · exact .pure _
  · exact .fail fun _ => trivial

theorem truthful_patternOf (function : String) (v : Value) :
    Truthful (Core.patternOf function v) := by
  unfold Core.patternOf
  split
  · exact .pure _
  · split
    · exact .pure _
    · exact .fail fun _ => trivial
  · exact .fail fun _ => trivial

theorem truthful_reFind (pattern text : Value) : Truthful (Core.reFind pattern text) :=
  .bind (truthful_textOf _ _) fun _ => .bind (truthful_patternOf _ _) fun _ => .pure _

theorem truthful_reMatches (pattern text : Value) : Truthful (Core.reMatches pattern text) :=
  .bind (truthful_textOf _ _) fun _ => .bind (truthful_patternOf _ _) fun _ => .pure _

theorem truthful_nameText (function : String) (v : Value) : Truthful (Core.nameText function v) := by
  unfold Core.nameText
  split
  · exact .pure _
  · exact .get_bind fun _ => .pure _
  · exact .get_bind fun _ => .pure _
  · exact .fail fun _ => trivial

theorem truthful_name (v : Value) : Truthful (Core.name v) := by
  unfold Core.name
  split
  · exact .get_bind fun _ => .pure _
  · exact .get_bind fun _ => .pure _
  · exact .pure _
  · exact .fail fun _ => trivial

theorem truthful_subs (v start : Value) (stop : Option Value) :
    Truthful (Core.subs v start stop) := by
  unfold Core.subs
  split
  · refine .bind (truthful_indexOf _ start) fun a => ?_
    dsimp only
    split
    · refine .bind (truthful_indexOf _ _) fun _ => .bind (.pure _) fun b => ?_
      exact .guard (fun _ _ => trivial) (.guard (fun _ _ => trivial)
        (.guard (fun _ _ => trivial) (.pure _)))
    · refine .bind (.pure _) fun b => ?_
      exact .guard (fun _ _ => trivial) (.guard (fun _ _ => trivial)
        (.guard (fun _ _ => trivial) (.pure _)))
  · exact .fail fun _ => trivial

theorem truthful_symbolOf (function : String) (args : List Value) :
    Truthful (Core.symbolOf function args) := by
  unfold Core.symbolOf
  split
  · refine .bind (truthful_nameText _ _) fun text => ?_
    split
    · exact .bind (truthful_intern _) fun _ => .bind (truthful_intern _) fun _ => .pure _
    · exact .bind (truthful_intern _) fun _ => .pure _
  · refine .bind (truthful_nameText _ _) fun name => ?_
    split
    · exact .bind (truthful_intern _) fun _ => .pure _
    · refine .bind (truthful_nameText _ _) fun ns => ?_
      exact .bind (truthful_intern _) fun _ => .bind (truthful_intern _) fun _ => .pure _
  · exact .pure _

theorem truthful_keyword (args : List Value) : Truthful (Core.keyword args) := by
  unfold Core.keyword
  split
  · exact .pure _
  · exact .bind (truthful_symbolOf _ _) fun _ => .pure _

theorem truthful_gensym (stem : Option Value) : Truthful (Core.gensym stem) := by
  have hfresh : ∀ stem : String, Truthful
      (modifyGet fun w : World => (Value.symbol (.plain (w.names.fresh stem none).1),
        { w with names := (w.names.fresh stem none).2 }) : Eval Value) :=
    fun stem => .modifyGet fun _ hw => hw.same rfl rfl
  unfold Core.gensym
  split
  · exact .bind (.pure _) hfresh
  · exact .bind (.pure _) hfresh
  · exact .get_bind fun _ => .bind (.pure _) hfresh
  · exact .bind (.fail fun _ => trivial) hfresh

/-! Functions on namespaces. -/

theorem truthful_deref (v : Value) : Truthful (Core.deref v) := by
  have hvar : ∀ id : VarId, Truthful (Core.deref (.var id)) := by
    intro id
    refine .get_bind fun w => ?_
    split
    · exact .pure _
    · exact .fail fun _ => trivial
  cases v with
  | var id => exact hvar id
  | unbound id => exact hvar id
  | _ => exact .fail fun _ => trivial

theorem truthful_spaceOf (function : String) (v : Value) : Truthful (Core.spaceOf function v) := by
  unfold Core.spaceOf
  dsimp only
  split
  · exact .pure _
  · split
    · exact .fail fun _ => trivial
    · exact .pure _
  · exact .fail fun _ => trivial

theorem truthful_nsName (v : Value) : Truthful (Core.nsName v) :=
  .bind (truthful_spaceOf _ v) fun _ => .pure _

theorem truthful_refer (target source : NameId) : Truthful (Core.refer target source) := by
  refine .get_bind_at fun w hw => ?_
  rcases w.spaces.refer target source with ⟨(e | count), spaces⟩
  · have hsame : w.Leads { w with spaces := spaces } := hw.same rfl rfl
    cases e <;> exact ⟨hsame, trivial⟩
  · exact hw.same rfl rfl

theorem truthful_nsSet (v : Value) : Truthful (Core.nsSet v) := by
  refine .bind (truthful_spaceOf _ v) fun ns => .get_bind fun w => ?_
  have hswitch : Truthful (do
      modify fun w => { w with current := ns }
      return .space ns : Eval Value) :=
    .bind (.modify fun _ hw => hw.same rfl rfl) fun _ => .pure _
  refine .bind (.modify fun _ hw => hw.same rfl rfl) fun _ => ?_
  dsimp only
  split
  · exact .bind (truthful_refer _ _) fun _ => hswitch
  · exact hswitch

theorem truthful_nsRefer (v : Value) : Truthful (Core.nsRefer v) :=
  .bind (truthful_spaceOf _ v) fun _ => .get_bind fun _ => .bind (truthful_refer _ _) fun _ => .pure _

theorem truthful_nsRemove (v : Value) : Truthful (Core.nsRemove v) := by
  refine .bind (truthful_spaceOf _ v) fun ns => .get_bind_at fun w hw => ?_
  dsimp only
  split
  · exact ⟨hw.leads, trivial⟩
  · split
    · exact ⟨hw.leads, trivial⟩
    · exact hw.same rfl rfl

theorem truthful_nsUnmap (ns name : Value) : Truthful (Core.nsUnmap ns name) := by
  refine .bind (truthful_spaceOf _ ns) fun ns => ?_
  split
  · rename_i s
    refine .get_bind_at fun w hw => ?_
    cases w.spaces.unmap? ns s.name with
    | some p => exact hw.same rfl rfl
    | none => exact ⟨hw.leads, trivial⟩
  · exact .fail fun _ => trivial

end

/-! Numbers of arguments. -/

section
variable {b : Builtin} {args : List Value}

theorem truthful_one (hb : b.arity = .exactly 1) {f : Value → Eval Value}
    (hf : ∀ x, Truthful (f x)) : Truthful (Core.one b args f) := by
  unfold Core.one
  split
  · exact hf _
  · rename_i hother
    rw [Core.misfit, hb]
    exact .misfit_one hother

theorem truthful_two (hb : b.arity = .exactly 2) {f : Value → Value → Eval Value}
    (hf : ∀ x y, Truthful (f x y)) : Truthful (Core.two b args f) := by
  unfold Core.two
  split
  · exact hf _ _
  · rename_i hother
    refine .misfit ?_
    rw [hb, Arity.accepts, beq_eq_false_iff_ne]
    intro hlength
    obtain ⟨x, y, rfl⟩ := List.length_eq_two.1 hlength
    exact hother x y rfl

theorem truthful_twoOrThree (hb : b.arity = .between 2 3)
    {f : Value → Value → Option Value → Eval Value} (hf : ∀ x y z, Truthful (f x y z)) :
    Truthful (Core.twoOrThree b args f) := by
  unfold Core.twoOrThree
  split
  · exact hf _ _ _
  · exact hf _ _ _
  · rename_i htwo hthree
    refine .misfit ?_
    rw [hb]
    rcases args with _ | ⟨x, _ | ⟨y, _ | ⟨z, _ | ⟨u, more⟩⟩⟩⟩
    · rfl
    · rfl
    · exact absurd rfl (htwo x y)
    · exact absurd rfl (hthree x y z)
    · simp [Arity.accepts]

theorem truthful_oneAndMore (hb : b.arity.accepts 0 = false) {f : Value → List Value → Eval Value}
    (hf : ∀ x more, Truthful (f x more)) : Truthful (Core.oneAndMore b args f) := by
  unfold Core.oneAndMore
  split
  · exact hf _ _
  · exact .misfit hb

end

/-! Functions that walk sequences, compare, print, read or call. -/

namespace Engine.Truthful
variable {e : Engine} {scope : Scope}

theorem seqOrNil (h : e.Truthful) (s : Seq) : LazyLisp.Truthful (Core.seqOrNil e s) := by
  refine .bind (h.isEmpty s) fun b => ?_
  split
  · exact .pure _
  · exact .pure _

theorem putPairs (h : e.Truthful) (entries : Entries) (items : List Value) :
    LazyLisp.Truthful (Core.putPairs e entries items) := by
  fun_induction Core.putPairs e entries items with
  | case1 entries key value rest ih => exact .bind (h.put _ _ _) ih
  | case2 => exact .pure _

theorem hashMap (h : e.Truthful) (args : List Value) : LazyLisp.Truthful (Core.hashMap e args) := by
  unfold Core.hashMap
  exact .guard (fun _ _ => trivial) (.bind (h.putPairs _ _) fun _ => .pure _)

theorem walkTo (h : e.Truthful) (n wanted seen : Nat) (s : Seq) :
    LazyLisp.Truthful (Core.walkTo e n wanted seen s) := by
  induction n generalizing wanted seen s with
  | zero => exact .throw fun _ => trivial
  | succ n ih =>
    refine .bind (h.uncons s) fun o => ?_
    cases o with
    | none => exact .pure _
    | some x =>
      dsimp only
      split
      · exact .pure _
      · exact ih _ _ _

theorem nthOf (h : e.Truthful) (v : Value) (index : Int64) :
    LazyLisp.Truthful (Core.nthOf e v index) := by
  unfold Core.nthOf
  dsimp only
  split
  · exact .pure _
  · exact .pure _
  · refine .bind (truthful_seqOf _ _) fun s => ?_
    split
    · exact .pure _
    · exact h.walkTo _ _ _ _

theorem nth (h : e.Truthful) (v index : Value) (fallback : Option Value) :
    LazyLisp.Truthful (Core.nth e v index fallback) := by
  refine .bind (truthful_indexOf _ _) fun i => ?_
  split
  · exact .pure _
  · refine .bind (h.nthOf _ _) fun r => ?_
    split
    · exact .pure _
    · exact .pure _
    · exact .fail fun _ => trivial

theorem get (h : e.Truthful) (v key fallback : Value) :
    LazyLisp.Truthful (Core.get e v key fallback) := by
  unfold Core.get
  split
  · exact .bind (h.get? _ _) fun _ => .pure _
  · exact .pure _
  · exact .pure _
  · exact .pure _

theorem count (h : e.Truthful) (v : Value) : LazyLisp.Truthful (Core.count e v) := by
  unfold Core.count
  split
  iterate 4 exact .pure _
  refine .bind (truthful_seqOf _ _) fun s => ?_
  exact .bind (h.fold (fun _ _ => .pure _) s 0) fun _ => truthful_number (Number.orderly_ofInt _ _)

theorem assoc (h : e.Truthful) (v : Value) (items : List Value) :
    LazyLisp.Truthful (Core.assoc e v items) := by
  unfold Core.assoc
  refine .guard (fun _ _ => trivial) ?_
  split
  · exact .bind (h.putPairs _ _) fun _ => .pure _
  · exact .bind (h.putPairs _ _) fun _ => .pure _
  · exact .bind (truthful_setItems _ _) fun _ => .pure _
  · exact .fail fun _ => trivial

theorem dissoc (h : e.Truthful) (v : Value) (keys : List Value) :
    LazyLisp.Truthful (Core.dissoc e v keys) := by
  unfold Core.dissoc
  split
  · exact .pure _
  · exact .bind (.foldlM (fun _ _ => h.remove _ _) _ _) fun _ => .pure _
  · exact .fail fun _ => trivial

theorem conjEntry (h : e.Truthful) (entries : Entries) (v : Value) :
    LazyLisp.Truthful (Core.conjEntry e entries v) := by
  unfold Core.conjEntry
  split
  · exact h.put _ _ _
  · exact .foldlM (fun _ _ => h.put _ _ _) _ _
  · exact .fail fun _ => trivial

theorem conj (h : e.Truthful) (v : Value) (items : List Value) :
    LazyLisp.Truthful (Core.conj e v items) := by
  unfold Core.conj
  split
  · exact .pure _
  · exact .pure _
  · exact .pure _
  · exact .bind (.foldlM (fun _ _ => h.conjEntry _ _) _ _) fun _ => .pure _
  · exact .fail fun _ => trivial

theorem contains (h : e.Truthful) (v key : Value) :
    LazyLisp.Truthful (Core.contains e v key) := by
  unfold Core.contains
  split
  · exact .pure _
  · exact .bind (h.get? _ _) fun _ => .pure _
  iterate 4 exact .pure _
  · exact .fail fun _ => trivial

theorem reduce (h : e.Truthful) (f : Value) (start : Option Value) (v : Value) :
    LazyLisp.Truthful (Core.reduce e scope f start v) := by
  refine .bind (truthful_seqOf _ _) fun s => ?_
  have hstep : ∀ acc item : Value, LazyLisp.Truthful (e.apply scope f [acc, item]) :=
    fun acc item => h.apply scope f [acc, item]
  cases start with
  | some a => exact h.fold hstep s a
  | none =>
    refine .bind (h.uncons s) fun o => ?_
    cases o with
    | none => exact h.apply scope f []
    | some x => exact h.fold hstep x.2 x.1

theorem allEqualChain (h : e.Truthful) (args : List Value) :
    LazyLisp.Truthful (Core.allEqual e args) := by
  fun_induction Core.allEqual e args with
  | case1 a b rest ih =>
    refine .bind (h.equal a b) fun r => ?_
    split
    · exact ih
    · exact .pure _
  | case2 => exact .pure _

theorem str (h : e.Truthful) (args : List Value) : LazyLisp.Truthful (Core.str e args) := by
  refine .bind (.mapM (fun v => ?_) args) fun _ => .pure _
  split
  · exact .pure _
  · exact h.text _ _

theorem printValues (h : e.Truthful) (style : Style) (ending : String) (args : List Value) :
    LazyLisp.Truthful (Core.printValues e style ending args) :=
  .bind (.mapM (fun v => h.text style v) args) fun _ => .bind (truthful_print _) fun _ => .pure _

theorem readSource (h : e.Truthful) (source : String) :
    LazyLisp.Truthful (Core.readSource e source) := by
  refine .bind (.modifyGet fun w hw => ?_) fun r => .get_bind fun w => ?_
  · cases readForms source w.names with
    | ok forms names => exact hw.same rfl rfl
    | error err names => exact hw.same rfl rfl
  · dsimp only
    split
    · split
      · refine .bind (.forM (fun form => ?_) _) fun _ => .pure _
        exact .bind (h.textOrType form) fun _ => truthful_note _
      · exact .pure _
    · exact .pure _

theorem readString (h : e.Truthful) (v : Value) : LazyLisp.Truthful (Core.readString e v) := by
  unfold Core.readString
  split
  · refine .bind (h.readSource _) fun r => ?_
    split
    · exact .fail fun _ => trivial
    · exact .fail fun _ => trivial
    · exact .pure _
  · exact .fail fun _ => trivial

theorem perform (h : e.Truthful) (b : Builtin) (args : List Value) :
    LazyLisp.Truthful (Core.perform e scope b args) := by
  cases b with
  | add => exact truthful_number (Number.orderly_foldl Number.orderly_add _ _ _)
  | multiply => exact truthful_number (Number.orderly_foldl Number.orderly_mul _ _ _)
  | subtract => exact truthful_number (Number.orderly_foldFrom Number.orderly_sub _ _ _)
  | divide => exact truthful_number (Number.orderly_foldFrom Number.orderly_div _ _ _)
  | quot =>
    exact truthful_two rfl fun x y => truthful_number (Number.orderly_binary Number.orderly_quot _ x y)
  | rem =>
    exact truthful_two rfl fun x y => truthful_number (Number.orderly_binary Number.orderly_rem _ x y)
  | mod =>
    exact truthful_two rfl fun x y => truthful_number (Number.orderly_binary Number.orderly_mod _ x y)
  | inc =>
    exact truthful_one rfl fun x => truthful_number (Number.orderly_binary Number.orderly_add _ x _)
  | dec =>
    exact truthful_one rfl fun x => truthful_number (Number.orderly_binary Number.orderly_sub _ x _)
  | max | min => exact truthful_extreme _ _ _
  | numEqual | less | lessEqual | greater | greaterEqual => exact truthful_compareChain _ _ _
  | equal => exact .bind (h.allEqualChain args) fun _ => .pure _
  | list | vector => exact .pure _
  | vec =>
    refine truthful_one rfl fun v => .bind (truthful_seqOf _ v) fun s => ?_
    exact .bind (h.toList s) fun _ => .pure _
  | hashMap => exact h.hashMap args
  | cons => exact truthful_two rfl fun _ tail => .bind (truthful_seqOf _ tail) fun _ => .pure _
  | first =>
    refine truthful_one rfl fun v => .bind (truthful_seqOf _ v) fun s => ?_
    exact .bind (h.first? s) fun _ => .pure _
  | rest =>
    refine truthful_one rfl fun v => .bind (truthful_seqOf _ v) fun s => ?_
    exact .bind (h.rest s) fun _ => .pure _
  | next =>
    refine truthful_one rfl fun v => .bind (truthful_seqOf _ v) fun s => ?_
    exact .bind (h.rest s) fun _ => h.seqOrNil _
  | seq => exact truthful_one rfl fun v => .bind (truthful_seqOf _ v) fun _ => h.seqOrNil _
  | concat => exact .bind (.mapM (fun v => truthful_seqOf _ v) args) fun _ => .pure _
  | nth => exact truthful_twoOrThree rfl fun v i fallback => h.nth v i fallback
  | get =>
    unfold Core.perform
    exact truthful_twoOrThree rfl fun v key fallback => h.get v key _
  | count => exact truthful_one rfl h.count
  | assoc => exact truthful_oneAndMore rfl h.assoc
  | dissoc => exact truthful_oneAndMore rfl h.dissoc
  | conj => exact truthful_oneAndMore rfl h.conj
  | keys | vals => exact truthful_one rfl fun v => truthful_mapPart _ _ v
  | contains => exact truthful_two rfl h.contains
  | lazySeq => exact truthful_one rfl fun thunk => .bind (truthful_newLazy thunk) fun _ => .pure _
  | reduce =>
    unfold Core.perform
    refine truthful_twoOrThree rfl fun f x y => ?_
    cases y with
    | none => exact h.reduce f none x
    | some v => exact h.reduce f (some x) v
  | str => exact h.str args
  | subs => exact truthful_twoOrThree rfl truthful_subs
  | print | println | pr | prn => exact h.printValues _ _ args
  | symbol => exact .bind (truthful_symbolOf _ args) fun _ => .pure _
  | keyword => exact truthful_keyword args
  | name => exact truthful_one rfl truthful_name
  | gensym => exact truthful_gensym _
  | int => exact truthful_one rfl truthful_toInt
  | double => exact truthful_one rfl truthful_toDouble
  | readString => exact truthful_one rfl h.readString
  | eval => exact truthful_one rfl fun form => h.value none form
  | deref => exact truthful_one rfl truthful_deref
  | nsSet => exact truthful_one rfl truthful_nsSet
  | nsRefer => exact truthful_one rfl truthful_nsRefer
  | nsRemove => exact truthful_one rfl truthful_nsRemove
  | nsUnmap => exact truthful_two rfl truthful_nsUnmap
  | nsName => exact truthful_one rfl truthful_nsName
  | rePattern => exact truthful_one rfl fun v => .bind (truthful_patternOf _ v) fun _ => .pure _
  | reFind => exact truthful_two rfl truthful_reFind
  | reMatches => exact truthful_two rfl truthful_reMatches
  | isNil | isBoolean | isNumber | isInt | isFloat | isString | isChar | isSymbol | isKeyword
  | isFn | isMacro | isSeq | isVector | isMap | isVar | isNamespace =>
    exact truthful_one rfl fun _ => .pure _

theorem builtin (h : e.Truthful) (b : Builtin) (args : List Value) :
    LazyLisp.Truthful (Core.call e scope b args) := by
  unfold Core.call
  split
  · exact h.perform b args
  · rename_i hnot
    exact .misfit (Bool.not_eq_true _ ▸ hnot)

end Engine.Truthful
end LazyLisp
