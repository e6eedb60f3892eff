import LazyLisp.Proofs.Clearing

/-!
The built-in functions are clear of marks on arguments without marks. They build their results from
parts of the arguments and of the state; reading yields forms without marks, and what is evaluated or
called on the way is left to the engine.
-/

namespace LazyLisp
set_option autoImplicit false

/-! Functions that need no engine. -/

section
variable {α : Type}

theorem clear_lift (r : Except EvalError α) :
    Clear (fun _ => True) (Core.lift r) (Core.lift r) := by
  cases r with
  | ok a => exact .pure trivial
  | error e => exact .fail e

theorem toValue_unmarked (n : Number) : n.toValue.Unmarked := by
  cases n <;> trivial

theorem clear_number (r : Except EvalError Number) :
    Clear Value.Unmarked (Core.number r) (Core.number r) :=
  .bind (clear_lift r) fun n _ => .pure (toValue_unmarked n)

theorem clear_compareChain (function : String) (accept : Ordering → Bool) (args : List Value) :
    Clear Value.Unmarked (Core.compareChain function accept args)
      (Core.compareChain function accept args) :=
  .bind (clear_lift _) fun _ _ => .pure trivial

theorem clear_extreme (function : String) (wanted : Ordering) (args : List Value) :
    Clear Value.Unmarked (Core.extreme function wanted args)
      (Core.extreme function wanted args) := by
  refine .bind (clear_lift _) fun numbers _ => ?_
  cases numbers with
  | nil => exact .pure trivial
  | cons n ns => exact .pure (toValue_unmarked _)

theorem clear_toInt (v : Value) : Clear Value.Unmarked (Core.toInt v) (Core.toInt v) := by
  unfold Core.toInt
  split
  · exact .pure trivial
  · exact .bind (clear_lift _) fun _ _ => .pure trivial
  · exact .pure trivial
  · exact .fail _

theorem clear_toDouble (v : Value) : Clear Value.Unmarked (Core.toDouble v) (Core.toDouble v) :=
  .bind (clear_lift _) fun _ _ => .pure trivial

theorem clear_seqOf (function : String) {v : Value} (hv : v.Unmarked) :
    Clear Seq.Unmarked (Core.seqOf function v) (Core.seqOf function v) := by
  unfold Core.seqOf
  split
  · rename_i s hs
    exact .pure (Value.toSeq?_unmarked hv hs)
  · exact .fail _

theorem clear_indexOf (function : String) (v : Value) :
    Clear (fun _ => True) (Core.indexOf function v) (Core.indexOf function v) := by
  unfold Core.indexOf
  split
  · exact .pure trivial
  · exact .fail _

theorem item?_unmarked {items : List Value} (h : AllUnmarked items) {i : Int64} :
    ∀ v ∈ Core.item? items i, v.Unmarked := by
  intro v hv
  unfold Core.item? at hv
  split at hv
  · cases hv
  · exact h.getElem? hv

theorem chars_unmarked {cs : List Char} : AllUnmarked (cs.map .char) := by
  intro v hv
  obtain ⟨c, _, rfl⟩ := List.mem_map.1 hv
  trivial

theorem set_unmarked {items : List Value} (h : AllUnmarked items) {k : Nat} {value : Value}
    (hvalue : value.Unmarked) : AllUnmarked (items.set k value) := by
  intro v hv
  rcases List.mem_or_eq_of_mem_set hv with hv | rfl
  · exact h v hv
  · exact hvalue

theorem clear_setItems {items pairs : List Value} (hitems : AllUnmarked items)
    (hpairs : AllUnmarked pairs) :
    Clear AllUnmarked (Core.setItems items pairs) (Core.setItems items pairs) := by
  fun_induction Core.setItems items pairs with
  | case1 items key value rest ih1 ih2 =>
    have hvalue := hpairs.tail.head
    refine .bind (clear_indexOf _ key) fun i _ => ?_
    dsimp only
    split
    · exact ih1 i (set_unmarked hitems hvalue) hpairs.tail.tail
    · split
      · exact ih2 (hitems.append (.one hvalue)) hpairs.tail.tail
      · exact .fail _
  | case2 => exact .pure hitems

theorem clear_mapPart (function : String) {part : Value × Value → Value}
    (hpart : ∀ p : Value × Value, p.1.Unmarked ∧ p.2.Unmarked → (part p).Unmarked) {v : Value}
    (hv : v.Unmarked) :
    Clear Value.Unmarked (Core.mapPart function part v) (Core.mapPart function part v) := by
  unfold Core.mapPart
  split
  · exact .pure trivial
  · exact .pure trivial
  · rw [Value.unmarked_map] at hv
    refine .pure (Value.unmarked_list.2 fun x hx => ?_)
    obtain ⟨p, hp, rfl⟩ := List.mem_map.1 hx
    exact hpart p (hv p hp)
  · exact .fail _

theorem clear_textOf (function : String) (v : Value) :
    Clear (fun _ => True) (Core.textOf function v) (Core.textOf function v) := by
  unfold Core.textOf
  split
  · exact .pure trivial
  · exact .fail _

theorem clear_patternOf (function : String) (v : Value) :
    Clear (fun _ => True) (Core.patternOf function v) (Core.patternOf function v) := by
  unfold Core.patternOf
  split
  · exact .pure trivial
  · split
    · exact .pure trivial
    · exact .fail _
  · exact .fail _

theorem matchValue_unmarked (found : Option (List (Option String))) :
    (Core.matchValue found).Unmarked := by
  have hgroup : ∀ g : Option String, ((g.map Value.string).getD .nil).Unmarked := by
    intro g
    cases g <;> trivial
  unfold Core.matchValue
  split
  · trivial
  · dsimp only
    split
    · exact hgroup _
    · refine Value.unmarked_vector.2 fun v hv => ?_
      obtain ⟨g, _, rfl⟩ := List.mem_map.1 hv
      exact hgroup g

theorem clear_reFind (pattern text : Value) :
    Clear Value.Unmarked (Core.reFind pattern text) (Core.reFind pattern text) :=
  .bind (clear_textOf _ _) fun _ _ => .bind (clear_patternOf _ _) fun _ _ =>
    .pure (matchValue_unmarked _)

theorem clear_reMatches (pattern text : Value) :
    Clear Value.Unmarked (Core.reMatches pattern text) (Core.reMatches pattern text) :=
  .bind (clear_textOf _ _) fun _ _ => .bind (clear_patternOf _ _) fun _ _ =>
    .pure (matchValue_unmarked _)

theorem clear_nameText (function : String) (v : Value) :
    Clear (fun _ => True) (Core.nameText function v) (Core.nameText function v) := by
  unfold Core.nameText
  split
  · exact .pure trivial
  · exact .get_bind fun _ _ => .pure trivial
  · exact .get_bind fun _ _ => .pure trivial
  · exact .fail _

theorem clear_name (v : Value) : Clear Value.Unmarked (Core.name v) (Core.name v) := by
  unfold Core.name
  split
  · exact .get_bind fun _ _ => .pure trivial
  · exact .get_bind fun _ _ => .pure trivial
  · exact .pure trivial
  · exact .fail _

theorem clear_subs (v start : Value) (stop : Option Value) :
    Clear Value.Unmarked (Core.subs v start stop) (Core.subs v start stop) := by
  unfold Core.subs
  split
  · refine .bind (clear_indexOf _ start) fun a _ => ?_
    dsimp only
    split
    · refine .bind (clear_indexOf _ _) fun _ _ => ?_
      refine .bind (.pure (p := fun _ => True) trivial) fun b _ => ?_
      exact .guard (.guard (.guard (.pure trivial)))
    · refine .bind (.pure (p := fun _ => True) trivial) fun b _ => ?_
      exact .guard (.guard (.guard (.pure trivial)))
  · exact .fail _

theorem clear_symbolOf (function : String) (args : List Value) :
    Clear (fun _ => True) (Core.symbolOf function args) (Core.symbolOf function args) := by
  unfold Core.symbolOf
  split
  · refine .bind (clear_nameText _ _) fun text _ => ?_
    split
    · exact .bind (clear_intern _) fun _ _ => .bind (clear_intern _) fun _ _ => .pure trivial
    · exact .bind (clear_intern _) fun _ _ => .pure trivial
  · refine .bind (clear_nameText _ _) fun name _ => ?_
    split
    · exact .bind (clear_intern _) fun _ _ => .pure trivial
    · refine .bind (clear_nameText _ _) fun ns _ => ?_
      exact .bind (clear_intern _) fun _ _ => .bind (clear_intern _) fun _ _ => .pure trivial
  · exact .pure trivial

theorem clear_keyword (args : List Value) :
    Clear Value.Unmarked (Core.keyword args) (Core.keyword args) := by
  unfold Core.keyword
  split
  · exact .pure trivial
  · exact .bind (clear_symbolOf _ _) fun _ _ => .pure trivial

theorem clear_gensym (stem : Option Value) :
    Clear Value.Unmarked (Core.gensym stem) (Core.gensym stem) := by
  have hfresh : ∀ stem : String, True → Clear Value.Unmarked
      (modifyGet fun w : World => (Value.symbol (.plain (w.names.fresh stem none).1),
        { w with names := (w.names.fresh stem none).2 }) : Eval Value)
      (modifyGet fun w : World => (Value.symbol (.plain (w.names.fresh stem none).1),
        { w with names := (w.names.fresh stem none).2 })) :=
    fun stem _ => .modifyGet fun _ hw => ⟨trivial, hw.frames, hw.cells, hw.closures, hw.spaces⟩
  unfold Core.gensym
  split
  · exact .bind (.pure trivial) hfresh
  · exact .bind (.pure trivial) hfresh
  · exact .get_bind fun _ _ => .bind (.pure trivial) hfresh
  · exact .bind (.fail _) hfresh

/-! Functions on namespaces. -/

theorem clear_deref (v : Value) : Clear Value.Unmarked (Core.deref v) (Core.deref v) := by
  have hvar : ∀ id : VarId, Clear Value.Unmarked (Core.deref (.var id)) (Core.deref (.var id)) := by
    intro id
    refine .get_bind fun w hw => ?_
    split
    · rename_i hvalue
      exact .pure (hw.varValue hvalue)
    · exact .fail _
  cases v with
  | var id => exact hvar id
  | unbound id => exact hvar id
  | _ => exact .fail _

theorem clear_spaceOf (function : String) (v : Value) :
    Clear (fun _ => True) (Core.spaceOf function v) (Core.spaceOf function v) := by
  unfold Core.spaceOf
  dsimp only
  split
  · exact .pure trivial
  · split
    · exact .fail _
    · exact .pure trivial
  · exact .fail _

theorem clear_nsName (v : Value) : Clear Value.Unmarked (Core.nsName v) (Core.nsName v) :=
  .bind (clear_spaceOf _ v) fun _ _ => .pure trivial

theorem clear_refer (target source : NameId) :
    Clear (fun _ => True) (Core.refer target source) (Core.refer target source) := by
  refine .get_bind fun w hw => ?_
  have hspaces : World.Unmarked { w with spaces := w.spaces.perform (.refer target source) } :=
    hw.withSpaces ((Namespaces.performs w.spaces (.refer target source)).unmarked hw.spaces nofun)
  refine .bind (.set hspaces) fun _ _ => ?_
  split
  · exact .pure trivial
  · exact .fail _
  · exact .fail _

theorem clear_nsSet (v : Value) : Clear Value.Unmarked (Core.nsSet v) (Core.nsSet v) := by
  refine .bind (clear_spaceOf _ v) fun ns _ => .get_bind fun w _ => ?_
  have hcreate : ∀ w : World, w.Unmarked → World.Unmarked { w with spaces := w.spaces.create ns } :=
    fun w hw => hw.withSpaces ((Namespaces.Performs.create ns).unmarked hw.spaces nofun)
  have hswitch : Clear Value.Unmarked (do
      modify fun w => { w with current := ns }
      return .space ns : Eval Value) (do
      modify fun w => { w with current := ns }
      return .space ns) :=
    .bind (.modify fun _ hw => ⟨hw.frames, hw.cells, hw.closures, hw.spaces⟩) fun _ _ => .pure trivial
  refine .bind (.modify hcreate) fun _ _ => ?_
  dsimp only
  split
  · exact .bind (clear_refer _ _) fun _ _ => hswitch
  · exact hswitch

theorem clear_nsRefer (v : Value) : Clear Value.Unmarked (Core.nsRefer v) (Core.nsRefer v) :=
  .bind (clear_spaceOf _ v) fun _ _ => .get_bind fun _ _ =>
    .bind (clear_refer _ _) fun _ _ => .pure trivial

theorem clear_nsRemove (v : Value) : Clear Value.Unmarked (Core.nsRemove v) (Core.nsRemove v) := by
  refine .bind (clear_spaceOf _ v) fun ns _ => .get_bind fun w hw => ?_
  have hremove := (Namespaces.Performs.remove ns).unmarked hw.spaces nofun
  exact .guard (.guard (.bind (.set (hw.withSpaces hremove)) fun _ _ => .pure trivial))

theorem clear_nsUnmap (ns name : Value) :
    Clear Value.Unmarked (Core.nsUnmap ns name) (Core.nsUnmap ns name) := by
  refine .bind (clear_spaceOf _ ns) fun ns _ => ?_
  split
  · refine .get_bind fun w hw => ?_
    split
    · rename_i hunmap
      have hspaces := (Namespaces.Performs.unmap hunmap).unmarked hw.spaces nofun
      exact .bind (.set (hw.withSpaces hspaces)) fun _ _ => .pure trivial
    · exact .fail _
  · exact .fail _

end

/-! Numbers of arguments. -/

section
variable {b : Builtin} {args : List Value} (hargs : AllUnmarked args)

theorem clear_misfit (b : Builtin) (args : List Value) :
    Clear Value.Unmarked (Core.misfit b args) (Core.misfit b args) :=
  .fail _

include hargs

theorem clear_one {f f' : Value → Eval Value}
    (hf : ∀ x, x.Unmarked → Clear Value.Unmarked (f x) (f' x)) :
    Clear Value.Unmarked (Core.one b args f) (Core.one b args f') := by
  unfold Core.one
  split
  · exact hf _ hargs.head
  · exact clear_misfit b args

theorem clear_two {f f' : Value → Value → Eval Value}
    (hf : ∀ x y, x.Unmarked → y.Unmarked → Clear Value.Unmarked (f x y) (f' x y)) :
    Clear Value.Unmarked (Core.two b args f) (Core.two b args f') := by
  unfold Core.two
  split
  · exact hf _ _ hargs.head hargs.tail.head
  · exact clear_misfit b args

theorem clear_twoOrThree {f f' : Value → Value → Option Value → Eval Value}
    (hf : ∀ x y z, x.Unmarked → y.Unmarked → (∀ v ∈ z, v.Unmarked) →
      Clear Value.Unmarked (f x y z) (f' x y z)) :
    Clear Value.Unmarked (Core.twoOrThree b args f) (Core.twoOrThree b args f') := by
  unfold Core.twoOrThree
  split
  · exact hf _ _ _ hargs.head hargs.tail.head nofun
  · refine hf _ _ _ hargs.head hargs.tail.head ?_
    rintro _ ⟨⟩
    exact hargs.tail.tail.head
  · exact clear_misfit b args

theorem clear_oneAndMore {f f' : Value → List Value → Eval Value}
    (hf : ∀ x more, x.Unmarked → AllUnmarked more → Clear Value.Unmarked (f x more) (f' x more)) :
    Clear Value.Unmarked (Core.oneAndMore b args f) (Core.oneAndMore b args f') := by
  unfold Core.oneAndMore
  split
  · exact hf _ _ hargs.head hargs.tail
  · exact clear_misfit b []

end

/-! Functions that walk sequences, compare, print, read or call. -/

/-- An element without marks, or a number. -/
def FoundUnmarked (r : Value ⊕ Nat) : Prop := ∀ v, r = .inl v → v.Unmarked

theorem found_unmarked {v : Value} (hv : v.Unmarked) : FoundUnmarked (.inl v) := by
  rintro _ ⟨⟩
  exact hv

theorem foldl_cons_unmarked {items : List Value} (hitems : AllUnmarked items) {s : Seq}
    (hs : s.Unmarked) : (items.foldl (fun s item => Seq.cons item s) s).Unmarked := by
  induction items generalizing s with
  | nil => exact hs
  | cons v vs ih => exact ih hitems.tail (Seq.unmarked_cons.2 ⟨hitems.head, hs⟩)

namespace Engine.Clear
variable {e e' : Engine} {scope : Scope}

theorem seqOrNil (h : e.Clear e') {s : Seq} (hs : s.Unmarked) :
    LazyLisp.Clear Value.Unmarked (Core.seqOrNil e s) (Core.seqOrNil e' s) := by
  refine .bind (h.isEmpty hs) fun b _ => ?_
  split
  · exact .pure trivial
  · exact .pure hs

theorem putPairs (h : e.Clear e') {entries : Entries} {items : List Value}
    (hentries : entries.Unmarked) (hitems : AllUnmarked items) :
    LazyLisp.Clear Entries.Unmarked (Core.putPairs e entries items)
      (Core.putPairs e' entries items) := by
  fun_induction Core.putPairs e entries items with
  | case1 entries key value rest ih =>
    refine .bind (h.put hentries hitems.head hitems.tail.head) fun entries hentries => ?_
    exact ih entries hentries hitems.tail.tail
  | case2 items entries hshort =>
    rw [Core.putPairs.eq_2 e' entries items hshort]
    exact .pure hentries

theorem hashMap (h : e.Clear e') {args : List Value} (hargs : AllUnmarked args) :
    LazyLisp.Clear Value.Unmarked (Core.hashMap e args) (Core.hashMap e' args) := by
  unfold Core.hashMap
  refine .guard (.bind (h.putPairs Entries.Unmarked.nil hargs) fun entries hentries => ?_)
  exact .pure (Value.unmarked_map.2 hentries)

theorem walkTo (h : e.Clear e') (n wanted seen : Nat) {s : Seq} (hs : s.Unmarked) :
    LazyLisp.Clear FoundUnmarked (Core.walkTo e n wanted seen s)
      (Core.walkTo e' n wanted seen s) := by
  induction n generalizing wanted seen s with
  | zero => exact .throw _
  | succ n ih =>
    refine .bind (h.uncons hs) fun o ho => ?_
    cases o with
    | none => exact .pure nofun
    | some x =>
      obtain ⟨hhead, htail⟩ := ho x rfl
      dsimp only
      split
      · exact .pure (found_unmarked hhead)
      · exact ih _ _ htail

theorem nthOf (h : e.Clear e') {v : Value} (hv : v.Unmarked) (index : Int64) :
    LazyLisp.Clear FoundUnmarked (Core.nthOf e v index) (Core.nthOf e' v index) := by
  unfold Core.nthOf
  rw [h.bound]
  dsimp only
  split
  · split
    · rename_i hitem
      exact .pure (found_unmarked (item?_unmarked (Value.unmarked_vector.1 hv) _ hitem))
    · exact .pure nofun
  · split
    · rename_i hitem
      exact .pure (found_unmarked (item?_unmarked chars_unmarked _ hitem))
    · exact .pure nofun
  · refine .bind (clear_seqOf _ hv) fun s hs => ?_
    split
    · exact .pure nofun
    · exact h.walkTo _ _ _ hs

theorem nth (h : e.Clear e') {v : Value} (hv : v.Unmarked) (index : Value) {fallback : Option Value}
    (hfallback : ∀ v ∈ fallback, v.Unmarked) :
    LazyLisp.Clear Value.Unmarked (Core.nth e v index fallback) (Core.nth e' v index fallback) := by
  refine .bind (clear_indexOf _ _) fun i _ => ?_
  split
  · exact .pure (unmarked_getD hfallback trivial)
  · refine .bind (h.nthOf hv i) fun r hr => ?_
    split
    · exact .pure (hr _ rfl)
    · exact .pure (hfallback _ rfl)
    · exact .fail _

theorem get (h : e.Clear e') {v key fallback : Value} (hv : v.Unmarked) (hkey : key.Unmarked)
    (hfallback : fallback.Unmarked) :
    LazyLisp.Clear Value.Unmarked (Core.get e v key fallback) (Core.get e' v key fallback) := by
  unfold Core.get
  split
  · refine .bind (h.get? (Value.unmarked_map.1 hv) hkey) fun o ho => ?_
    exact .pure (unmarked_getD ho hfallback)
  · exact .pure (unmarked_getD (item?_unmarked (Value.unmarked_vector.1 hv)) hfallback)
  · refine .pure (unmarked_getD (fun c hc => ?_) hfallback)
    obtain ⟨c, _, rfl⟩ := Option.map_eq_some_iff.1 hc
    trivial
  · exact .pure hfallback

theorem count (h : e.Clear e') {v : Value} (hv : v.Unmarked) :
    LazyLisp.Clear Value.Unmarked (Core.count e v) (Core.count e' v) := by
  unfold Core.count
  split
  iterate 4 exact .pure trivial
  refine .bind (clear_seqOf _ hv) fun s hs => ?_
  exact .bind (h.walk (fun _ _ _ => .pure trivial) hs 0) fun _ _ => clear_number _

theorem assoc (h : e.Clear e') {v : Value} {items : List Value} (hv : v.Unmarked)
    (hitems : AllUnmarked items) :
    LazyLisp.Clear Value.Unmarked (Core.assoc e v items) (Core.assoc e' v items) := by
  unfold Core.assoc
  refine .guard ?_
  split
  · exact .bind (h.putPairs Entries.Unmarked.nil hitems) fun _ hmap => .pure (Value.unmarked_map.2 hmap)
  · rw [Value.unmarked_map] at hv
    exact .bind (h.putPairs hv hitems) fun _ hmap => .pure (Value.unmarked_map.2 hmap)
  · rw [Value.unmarked_vector] at hv
    exact .bind (clear_setItems hv hitems) fun _ hall => .pure (Value.unmarked_vector.2 hall)
  · exact .fail _

theorem dissoc (h : e.Clear e') {v : Value} {keys : List Value} (hv : v.Unmarked)
    (hkeys : AllUnmarked keys) :
    LazyLisp.Clear Value.Unmarked (Core.dissoc e v keys) (Core.dissoc e' v keys) := by
  unfold Core.dissoc
  split
  · exact .pure trivial
  · rw [Value.unmarked_map] at hv
    refine .bind (.foldlM (fun entries hentries key hkey => ?_) hv) fun _ hmap => ?_
    · exact h.remove hentries (hkeys key hkey)
    · exact .pure (Value.unmarked_map.2 hmap)
  · exact .fail _

theorem conjEntry (h : e.Clear e') {entries : Entries} (hentries : entries.Unmarked) {v : Value}
    (hv : v.Unmarked) :
    LazyLisp.Clear Entries.Unmarked (Core.conjEntry e entries v)
      (Core.conjEntry e' entries v) := by
  unfold Core.conjEntry
  split
  · rw [Value.unmarked_vector] at hv
    exact h.put hentries hv.head hv.tail.head
  · rw [Value.unmarked_map] at hv
    exact .foldlM (fun acc hacc p hp => h.put hacc (hv p hp).1 (hv p hp).2) hentries
  · exact .fail _

theorem conj (h : e.Clear e') {v : Value} {items : List Value} (hv : v.Unmarked)
    (hitems : AllUnmarked items) :
    LazyLisp.Clear Value.Unmarked (Core.conj e v items) (Core.conj e' v items) := by
  unfold Core.conj
  split
  · exact .pure (Value.unmarked_seq.2 (foldl_cons_unmarked hitems trivial))
  · exact .pure (Value.unmarked_seq.2 (foldl_cons_unmarked hitems hv))
  · rw [Value.unmarked_vector] at hv
    exact .pure (Value.unmarked_vector.2 (hv.append hitems))
  · rw [Value.unmarked_map] at hv
    refine .bind (.foldlM (fun acc hacc item hitem => ?_) hv) fun _ hmap => ?_
    · exact h.conjEntry hacc (hitems item hitem)
    · exact .pure (Value.unmarked_map.2 hmap)
  · exact .fail _

theorem contains (h : e.Clear e') {v key : Value} (hv : v.Unmarked) (hkey : key.Unmarked) :
    LazyLisp.Clear Value.Unmarked (Core.contains e v key) (Core.contains e' v key) := by
  unfold Core.contains
  split
  · exact .pure trivial
  · exact .bind (h.get? (Value.unmarked_map.1 hv) hkey) fun _ _ => .pure trivial
  iterate 4 exact .pure trivial
  · exact .fail _

theorem reduce (h : e.Clear e') {f v : Value} {start : Option Value} (hf : f.Unmarked)
    (hstart : ∀ a ∈ start, a.Unmarked) (hv : v.Unmarked) :
    LazyLisp.Clear Value.Unmarked (Core.reduce e scope f start v)
      (Core.reduce e' scope f start v) := by
  refine .bind (clear_seqOf _ hv) fun s hs => ?_
  have hstep : ∀ acc : Value, acc.Unmarked → ∀ item : Value, item.Unmarked →
      LazyLisp.Clear Value.Unmarked (e.apply scope f [acc, item]) (e'.apply scope f [acc, item]) :=
    fun _ hacc _ hitem => h.apply hf (.cons hacc (.one hitem))
  cases start with
  | some a => exact h.fold hstep hs (hstart a rfl)
  | none =>
    refine .bind (h.uncons hs) fun o ho => ?_
    cases o with
    | none => exact h.apply hf .nil
    | some x => exact h.fold hstep (ho x rfl).2 (ho x rfl).1

theorem allEqualChain (h : e.Clear e') {args : List Value} (hargs : AllUnmarked args) :
    LazyLisp.Clear (fun _ => True) (Core.allEqual e args) (Core.allEqual e' args) := by
  fun_induction Core.allEqual e args with
  | case1 a b rest ih =>
    refine .bind (h.equal hargs.head hargs.tail.head) fun r _ => ?_
    split
    · exact ih hargs.tail
    · exact .pure trivial
  | case2 args hshort =>
    rw [Core.allEqual.eq_2 e' args hshort]
    exact .pure trivial

theorem str (h : e.Clear e') {args : List Value} (hargs : AllUnmarked args) :
    LazyLisp.Clear Value.Unmarked (Core.str e args) (Core.str e' args) := by
  refine .bind (.mapM (q := fun _ => True) fun v hv => ?_) fun _ _ => .pure trivial
  split
  · exact .pure trivial
  · exact h.text _ (hargs _ hv)

theorem printValues (h : e.Clear e') (style : Style) (ending : String) {args : List Value}
    (hargs : AllUnmarked args) :
    LazyLisp.Clear Value.Unmarked (Core.printValues e style ending args)
      (Core.printValues e' style ending args) :=
  .bind (.mapM fun v hv => h.text style (hargs v hv)) fun _ _ =>
    .bind (clear_print _) fun _ _ => .pure trivial

theorem readSource (h : e.Clear e') (source : String) :
    LazyLisp.Clear (fun r => ∀ forms, r = .ok forms → AllUnmarked forms) (Core.readSource e source)
      (Core.readSource e' source) := by
  refine .bind (p := fun r => ∀ forms, r = .ok forms → AllUnmarked forms)
    (.modifyGet fun w hw => ?_) fun r hr => .get_bind fun w _ => ?_
  · cases hread : readForms source w.names with
    | ok forms names =>
      refine ⟨?_, hw.frames, hw.cells, hw.closures, hw.spaces⟩
      rintro _ ⟨⟩ v hv
      exact (readForms_bare source _ _ _ hread v hv).unmarked
    | error err names => exact ⟨nofun, hw.frames, hw.cells, hw.closures, hw.spaces⟩
  · dsimp only
    split
    · split
      · refine .bind (.forM fun form hform => ?_) fun _ _ => .pure hr
        exact .bind (h.textOrType (hr _ rfl form hform)) fun _ _ => clear_note _
      · exact .pure hr
    · exact .pure hr

theorem readString (h : e.Clear e') (v : Value) :
    LazyLisp.Clear Value.Unmarked (Core.readString e v) (Core.readString e' v) := by
  unfold Core.readString
  split
  · refine .bind (h.readSource _) fun r hr => ?_
    split
    · exact .fail _
    · exact .fail _
    · exact .pure (hr _ rfl).head
  · exact .fail _

theorem perform (h : e.Clear e') (b : Builtin) {args : List Value} (hargs : AllUnmarked args) :
    LazyLisp.Clear Value.Unmarked (Core.perform e scope b args)
      (Core.perform e' scope b args) := by
  cases b with
  | add | multiply | subtract | divide => exact clear_number _
  | quot | rem | mod => exact clear_two hargs fun _ _ _ _ => clear_number _
  | inc | dec => exact clear_one hargs fun _ _ => clear_number _
  | max | min => exact clear_extreme _ _ _
  | numEqual | less | lessEqual | greater | greaterEqual => exact clear_compareChain _ _ _
  | equal => exact .bind (h.allEqualChain hargs) fun _ _ => .pure trivial
  | list => exact .pure (Value.unmarked_list.2 hargs)
  | vector => exact .pure (Value.unmarked_vector.2 hargs)
  | vec =>
    refine clear_one hargs fun v hv => .bind (clear_seqOf _ hv) fun s hs => ?_
    exact .bind (h.toList hs) fun _ hitems => .pure (Value.unmarked_vector.2 hitems)
  | hashMap => exact h.hashMap hargs
  | cons =>
    refine clear_two hargs fun head tail hhead htail => .bind (clear_seqOf _ htail) fun s hs => ?_
    exact .pure (Value.unmarked_seq.2 (Seq.unmarked_cons.2 ⟨hhead, hs⟩))
  | first =>
    refine clear_one hargs fun v hv => .bind (clear_seqOf _ hv) fun s hs => ?_
    exact .bind (h.first? hs) fun _ ho => .pure (unmarked_getD ho trivial)
  | rest =>
    refine clear_one hargs fun v hv => .bind (clear_seqOf _ hv) fun s hs => ?_
    exact .bind (h.rest hs) fun _ ht => .pure ht
  | next =>
    refine clear_one hargs fun v hv => .bind (clear_seqOf _ hv) fun s hs => ?_
    exact .bind (h.rest hs) fun _ ht => h.seqOrNil ht
  | seq => exact clear_one hargs fun v hv => .bind (clear_seqOf _ hv) fun _ hs => h.seqOrNil hs
  | concat =>
    refine .bind (.mapM fun v hv => clear_seqOf _ (hargs v hv)) fun parts hparts => ?_
    exact .pure (Value.unmarked_seq.2 (Seq.unmarked_concat.2 ⟨trivial, hparts⟩))
  | nth => exact clear_twoOrThree hargs fun _ _ _ hv _ hfallback => h.nth hv _ hfallback
  | get =>
    unfold Core.perform
    refine clear_twoOrThree hargs fun v key fallback hv hkey hfallback => ?_
    exact h.get hv hkey (unmarked_getD hfallback trivial)
  | count => exact clear_one hargs fun _ => h.count
  | assoc => exact clear_oneAndMore hargs fun _ _ => h.assoc
  | dissoc => exact clear_oneAndMore hargs fun _ _ => h.dissoc
  | conj => exact clear_oneAndMore hargs fun _ _ => h.conj
  | keys => exact clear_one hargs fun _ => clear_mapPart _ fun _ => And.left
  | vals => exact clear_one hargs fun _ => clear_mapPart _ fun _ => And.right
  | contains => exact clear_two hargs fun _ _ => h.contains
  | lazySeq =>
    exact clear_one hargs fun thunk hthunk => .bind (clear_newLazy hthunk) fun _ hs => .pure hs
  | reduce =>
    unfold Core.perform
    refine clear_twoOrThree hargs fun f x y hf hx hy => ?_
    cases y with
    | none => exact h.reduce hf nofun hx
    | some v =>
      refine h.reduce hf ?_ (hy v rfl)
      rintro _ ⟨⟩
      exact hx
  | str => exact h.str hargs
  | subs => exact clear_twoOrThree hargs fun _ _ _ _ _ _ => clear_subs _ _ _
  | print | println | pr | prn => exact h.printValues _ _ hargs
  | symbol => exact .bind (clear_symbolOf _ args) fun _ _ => .pure trivial
  | keyword => exact clear_keyword args
  | name => exact clear_one hargs fun v _ => clear_name v
  | gensym => exact clear_gensym _
  | int => exact clear_one hargs fun v _ => clear_toInt v
  | double => exact clear_one hargs fun v _ => clear_toDouble v
  | readString => exact clear_one hargs fun v _ => h.readString v
  | eval => exact clear_one hargs fun _ => h.value
  | deref => exact clear_one hargs fun v _ => clear_deref v
  | nsSet => exact clear_one hargs fun v _ => clear_nsSet v
  | nsRefer => exact clear_one hargs fun v _ => clear_nsRefer v
  | nsRemove => exact clear_one hargs fun v _ => clear_nsRemove v
  | nsUnmap => exact clear_two hargs fun v name _ _ => clear_nsUnmap v name
  | nsName => exact clear_one hargs fun v _ => clear_nsName v
  | rePattern =>
    exact clear_one hargs fun v _ => .bind (clear_patternOf _ v) fun _ _ => .pure trivial
  | reFind => exact clear_two hargs fun pattern text _ _ => clear_reFind pattern text
  | reMatches => exact clear_two hargs fun pattern text _ _ => clear_reMatches pattern text
  | isNil | isBoolean | isNumber | isInt | isFloat | isString | isChar | isSymbol | isKeyword
  | isFn | isMacro | isSeq | isVector | isMap | isVar | isNamespace =>
    exact clear_one hargs fun _ _ => .pure trivial

theorem builtin (h : e.Clear e') (b : Builtin) {args : List Value} (hargs : AllUnmarked args) :
    LazyLisp.Clear Value.Unmarked (Core.call e scope b args) (Core.call e' scope b args) := by
  unfold Core.call
  split
  · exact h.perform b hargs
  · exact clear_misfit b args

end Engine.Clear
end LazyLisp
