import LazyLisp.Proofs.EvaluationEffects
import LazyLisp.Proofs.Unmarked

/-!
Computations beside others that serve marked forms differently. Two computations are clear of marks
if both do the same in every state without marks and come to such a state again, with a result that
satisfies a property. Engines are clear if they serve every request without marks so; then walking
sequences, comparing values and printing them is clear as well.
-/

namespace LazyLisp
set_option autoImplicit false

/-- A state without marks, behind a failure or behind a result that satisfies the property. -/
def Leaves {ε α : Type} (p : α → Prop) : EStateM.Result ε World α → Prop
  | .ok a w => p a ∧ w.Unmarked
  | .error _ w => w.Unmarked

def Clear {ε α : Type} (p : α → Prop) (m m' : EStateM ε World α) : Prop :=
  ∀ w, w.Unmarked → m' w = m w ∧ Leaves p (m w)

namespace Clear

section
variable {ε α β : Type} {p : α → Prop} {q : β → Prop}

theorem pure {a : α} (h : p a) : Clear p (pure a : EStateM ε World α) (pure a) :=
  fun _ hw => ⟨rfl, h, hw⟩

theorem throw (e : ε) : Clear p (throw e : EStateM ε World α) (throw e) := fun _ hw => ⟨rfl, hw⟩

theorem bind {m m' : EStateM ε World α} {f f' : α → EStateM ε World β} (hm : Clear p m m')
    (hf : ∀ a, p a → Clear q (f a) (f' a)) : Clear q (m >>= f) (m' >>= f') := by
  intro w hw
  obtain ⟨hsame, hleaves⟩ := hm w hw
  rw [run_bind, run_bind, hsame]
  generalize m w = ending at hleaves ⊢
  cases ending with
  | ok a v => exact hf a hleaves.1 v hleaves.2
  | error s v => exact ⟨rfl, hleaves⟩

theorem get_bind {f f' : World → EStateM ε World β}
    (hf : ∀ w, w.Unmarked → Clear q (f w) (f' w)) : Clear q (get >>= f) (get >>= f') :=
  fun w hw => hf w hw w hw

theorem modifyGet {f : World → α × World} (h : ∀ w, w.Unmarked → p (f w).1 ∧ (f w).2.Unmarked) :
    Clear p (modifyGet f : EStateM ε World α) (modifyGet f) := fun w hw => ⟨rfl, h w hw⟩

theorem modify {f : World → World} (h : ∀ w, w.Unmarked → (f w).Unmarked) :
    Clear (fun _ => True) (modify f : EStateM ε World Unit) (modify f) :=
  fun w hw => ⟨rfl, trivial, h w hw⟩

theorem set {w : World} (h : w.Unmarked) :
    Clear (fun _ => True) (set w : EStateM ε World Unit) (set w) := fun _ _ => ⟨rfl, trivial, h⟩

theorem mapM {f f' : α → EStateM ε World β} {xs : List α} (hf : ∀ x ∈ xs, Clear q (f x) (f' x)) :
    Clear (fun ys => ∀ y ∈ ys, q y) (xs.mapM f) (xs.mapM f') := by
  induction xs with
  | nil => exact .pure (List.forall_mem_nil _)
  | cons x xs ih =>
    obtain ⟨hx, hxs⟩ := List.forall_mem_cons.1 hf
    rw [List.mapM_cons, List.mapM_cons]
    refine .bind hx fun y hy => .bind (ih hxs) fun ys hys => ?_
    exact .pure (List.forall_mem_cons.2 ⟨hy, hys⟩)

theorem forM {f f' : α → EStateM ε World Unit} {xs : List α}
    (hf : ∀ x ∈ xs, Clear (fun _ => True) (f x) (f' x)) :
    Clear (fun _ => True) (xs.forM f) (xs.forM f') := by
  induction xs with
  | nil => exact .pure trivial
  | cons x xs ih =>
    obtain ⟨hx, hxs⟩ := List.forall_mem_cons.1 hf
    exact .bind hx fun _ _ => ih hxs

theorem foldlM {f f' : β → α → EStateM ε World β} {xs : List α} {b : β}
    (hf : ∀ b, q b → ∀ x ∈ xs, Clear q (f b x) (f' b x)) (hb : q b) :
    Clear q (xs.foldlM f b) (xs.foldlM f' b) := by
  induction xs generalizing b with
  | nil => exact .pure hb
  | cons x xs ih =>
    rw [List.foldlM_cons, List.foldlM_cons]
    refine .bind (hf b hb x List.mem_cons_self) fun b hb => ?_
    exact ih (fun b hb x hx => hf b hb x (List.mem_cons_of_mem _ hx)) hb

end

variable {α : Type} {p : α → Prop}

theorem fail (e : EvalError) : Clear p (fail e) (LazyLisp.fail e) := .throw (Stop.error e)

theorem guard {c : Prop} [Decidable c] {err : EvalError} {k k' : PUnit → Eval α}
    (hk : Clear p (k ⟨⟩) (k' ⟨⟩)) :
    Clear p (if c then LazyLisp.fail err >>= k else k ⟨⟩)
      (if c then LazyLisp.fail err >>= k' else k' ⟨⟩) := by
  split
  · exact .bind (.fail (p := fun _ => True) err) fun _ _ => hk
  · exact hk

theorem orFalse {p : Bool → Prop} {m m' : Eval Bool} (hm : Clear p m m') :
    Clear (fun _ => True) m.orFalse m'.orFalse := by
  intro w hw
  obtain ⟨hsame, hleaves⟩ := hm w hw
  unfold Eval.orFalse
  rw [hsame]
  generalize m w = ending at hleaves ⊢
  refine ⟨rfl, ?_⟩
  cases ending with
  | ok b v => exact ⟨trivial, hleaves.2⟩
  | error s v =>
    cases s with
    | error err => exact ⟨trivial, hleaves⟩
    | exhausted => exact hleaves

theorem orDone {p : Unit → Prop} {m m' : Eval Unit} (hm : Clear p m m') :
    Clear (fun _ => True) m.orDone m'.orDone := by
  intro w hw
  obtain ⟨hsame, hleaves⟩ := hm w hw
  unfold Eval.orDone
  rw [hsame]
  generalize m w = ending at hleaves ⊢
  refine ⟨rfl, ?_⟩
  cases ending with
  | ok b v => exact ⟨trivial, hleaves.2⟩
  | error s v =>
    cases s with
    | error err => exact ⟨trivial, hleaves⟩
    | exhausted => exact hleaves

end Clear

/-! The operations on the state. -/

theorem clear_intern (text : String) : Clear (fun _ => True) (Eval.intern text) (Eval.intern text) :=
  .modifyGet fun _ hw => ⟨trivial, hw.frames, hw.cells, hw.closures, hw.spaces⟩

theorem clear_print (text : String) : Clear (fun _ => True) (Eval.print text) (Eval.print text) :=
  .modify fun _ hw => ⟨hw.frames, hw.cells, hw.closures, hw.spaces⟩

theorem clear_note (event : Event) : Clear (fun _ => True) (Eval.note event) (Eval.note event) :=
  .modify fun _ hw => ⟨hw.frames, hw.cells, hw.closures, hw.spaces⟩

theorem clear_newFrame (parent : Scope) :
    Clear (fun _ => True) (Eval.newFrame parent) (Eval.newFrame parent) :=
  .modifyGet fun _ hw => ⟨trivial, hw.pushFrame parent⟩

theorem clear_push (id : FrameId) (s : Symbol) {v : Value} (hv : v.Unmarked) :
    Clear (fun _ => True) (Eval.push id s v) (Eval.push id s v) := by
  refine .modify fun w hw => hw.modifyFrame id fun f hf => ?_
  exact List.forall_mem_append.2 ⟨hf, List.forall_mem_singleton.2 hv⟩

theorem clear_rebind (id : FrameId) {values : List Value} (h : AllUnmarked values) :
    Clear (fun _ => True) (Eval.rebind id values) (Eval.rebind id values) :=
  .modify fun _ hw => hw.modifyFrame id fun _ hf => rebindAll_unmarked hf h

theorem clear_newClosure {c : Closure} (hc : c.Unmarked) :
    Clear (fun _ => True) (Eval.newClosure c) (Eval.newClosure c) :=
  .modifyGet fun _ hw => ⟨trivial, hw.pushClosure hc⟩

theorem clear_newLazy {thunk : Value} (h : thunk.Unmarked) :
    Clear Seq.Unmarked (Eval.newLazy thunk) (Eval.newLazy thunk) :=
  .modifyGet fun _ hw => ⟨trivial, hw.pushCell (c := .pending thunk) h⟩

theorem clear_declare (name : NameId) :
    Clear (fun _ => True) (Eval.declare name) (Eval.declare name) := by
  refine .get_bind fun w hw => ?_
  split
  · rename_i hintern
    have hspaces := (Namespaces.Performs.intern hintern).unmarked hw.spaces nofun
    exact .bind (.set (hw.withSpaces hspaces)) fun _ _ => .pure trivial
  · exact .fail _

theorem clear_setVar (id : VarId) {value : Value} (hvalue : value.Unmarked) :
    Clear (fun _ => True) (modify fun w => { w with spaces := w.spaces.setVar id value } : Eval Unit)
      (modify fun w => { w with spaces := w.spaces.setVar id value }) :=
  .modify fun _ hw => hw.withSpaces (hw.spaces.setVar id hvalue)

theorem clear_define (name : NameId) {value : Value} (hvalue : value.Unmarked) :
    Clear (fun _ => True) (Eval.define name value) (Eval.define name value) :=
  .bind (clear_declare name) fun id _ => .bind (clear_setVar id hvalue) fun _ _ => .pure trivial

/-! Engines. -/

def Outcome.Unmarked : Outcome → Prop
  | value v => v.Unmarked
  | again values => AllUnmarked values

def Request.Unmarked : Request → Prop
  | evaluate _ form _ => form.Unmarked
  | apply _ callee args => callee.Unmarked ∧ AllUnmarked args

/-- Both engines serve every request without marks in the same way. -/
structure Engine.Clear (e e' : Engine) : Prop where
  bound : e'.bound = e.bound
  call : ∀ r : Request, r.Unmarked → LazyLisp.Clear Outcome.Unmarked (e.call r) (e'.call r)

theorem Outcome.clear_toValue {o : Outcome} (h : o.Unmarked) :
    Clear Value.Unmarked o.toValue o.toValue := by
  cases o with
  | value v => exact .pure h
  | again values => exact .fail _

/-- A head and a tail without marks, if there are any. -/
def FrontUnmarked (o : Option (Value × Seq)) : Prop := ∀ x ∈ o, x.1.Unmarked ∧ x.2.Unmarked

/-- A part of a concatenation and the parts behind it without marks, if there are any. -/
def PartsUnmarked (o : Option (Seq × List Seq)) : Prop :=
  ∀ x ∈ o, x.1.Unmarked ∧ ∀ p ∈ x.2, p.Unmarked

theorem Clear.settle {isEmpty isEmpty' : Seq → Eval Bool}
    {more more' : List Seq → Eval (Option (Seq × List Seq))} {current : Seq} {parts : List Seq}
    (hempty : Clear (fun _ => True) (isEmpty current) (isEmpty' current))
    (hmore : Clear PartsUnmarked (more parts) (more' parts)) (hcurrent : current.Unmarked)
    (hparts : ∀ p ∈ parts, p.Unmarked) :
    Clear PartsUnmarked (Seq.settle isEmpty more current parts)
      (Seq.settle isEmpty' more' current parts) := by
  refine .bind hempty fun b _ => ?_
  split
  · exact hmore
  · refine .pure ?_
    rintro _ ⟨⟩
    exact ⟨hcurrent, hparts⟩

theorem indexRest_unmarked {view : Nat → Seq} (h : ∀ i, (view i).Unmarked) (count i : Nat) :
    (Seq.indexRest view count i).Unmarked := by
  unfold Seq.indexRest
  split
  · trivial
  · exact h (i + 1)

theorem textRest_unmarked (text : String) (offset : Nat) : (Seq.textRest text offset).Unmarked := by
  unfold Seq.textRest
  split
  · split <;> trivial
  · trivial

namespace Engine.Clear
variable {e e' : Engine} {scope : Scope}

theorem evaluate (h : e.Clear e') {form : Value} (hform : form.Unmarked) :
    LazyLisp.Clear Outcome.Unmarked (e.evaluate scope form) (e'.evaluate scope form) :=
  h.call _ hform

theorem value (h : e.Clear e') {form : Value} (hform : form.Unmarked) :
    LazyLisp.Clear Value.Unmarked (e.value scope form) (e'.value scope form) :=
  .bind (h.evaluate hform) fun _ => Outcome.clear_toValue

theorem apply (h : e.Clear e') {callee : Value} {args : List Value} (hcallee : callee.Unmarked)
    (hargs : AllUnmarked args) :
    LazyLisp.Clear Value.Unmarked (e.apply scope callee args) (e'.apply scope callee args) :=
  .bind (h.call _ ⟨hcallee, hargs⟩) fun _ => Outcome.clear_toValue

/-! Sequences. -/

theorem produce (h : e.Clear e') {thunk : Value} (hthunk : thunk.Unmarked) :
    LazyLisp.Clear Seq.Unmarked (Seq.produce e thunk) (Seq.produce e' thunk) := by
  refine .get_bind fun w _ => .guard (.bind (h.apply hthunk .nil) fun v hv => ?_)
  split
  · rename_i s hs
    exact .pure (Value.toSeq?_unmarked hv hs)
  · exact .fail _

theorem run (h : e.Clear e') {cell : CellId} {thunk : Value} (hthunk : thunk.Unmarked) :
    LazyLisp.Clear Seq.Unmarked (Seq.run e cell thunk) (Seq.run e' cell thunk) := by
  intro w hw
  obtain ⟨hsame, hleaves⟩ := h.produce hthunk _ (hw.setCell cell (c := .realizing) trivial)
  rw [Seq.run_eq, Seq.run_eq, hsame]
  refine ⟨rfl, ?_⟩
  generalize Seq.produce e thunk (w.setCell cell .realizing) = ending at hleaves ⊢
  cases ending with
  | ok s v => exact ⟨hleaves.1, hleaves.2.setCell cell hleaves.1⟩
  | error stop v =>
    cases stop with
    | error err => exact World.Unmarked.setCell hleaves cell trivial
    | exhausted => exact hleaves

theorem realize (h : e.Clear e') (cell : CellId) :
    LazyLisp.Clear Seq.Unmarked (Seq.realize e cell) (Seq.realize e' cell) := by
  refine .get_bind fun w hw => ?_
  cases hcell : w.cells[cell]? with
  | none => exact .fail _
  | some c =>
    have hc : c.Unmarked := hw.cells c (Array.mem_of_getElem? hcell)
    cases c with
    | pending thunk => exact h.run hc
    | realizing => exact .fail _
    | realized s => exact .pure hc
    | failed err => exact .fail err

theorem isEmptyWithin_and_nextWithin (h : e.Clear e') (n : Nat) :
    (∀ {s : Seq}, s.Unmarked →
      LazyLisp.Clear (fun _ => True) (s.isEmptyWithin e n) (s.isEmptyWithin e' n)) ∧
    ∀ {parts : List Seq}, (∀ p ∈ parts, p.Unmarked) →
      LazyLisp.Clear PartsUnmarked (Seq.nextWithin e n parts) (Seq.nextWithin e' n parts) := by
  induction n with
  | zero =>
    refine ⟨fun _ => .throw _, fun {parts} _ => ?_⟩
    cases parts with
    | nil => exact .pure nofun
    | cons next rest => exact .throw _
  | succ n ih =>
    constructor
    · intro s hs
      cases s with
      | lazy cell => exact .bind (h.realize cell) fun s hs => ih.1 hs
      | concat current parts =>
        obtain ⟨hcurrent, hparts⟩ := Seq.unmarked_concat.1 hs
        have hsettle := Clear.settle (ih.1 hcurrent) (ih.2 hparts) hcurrent hparts
        exact .bind hsettle fun _ _ => .pure trivial
      | _ => exact .pure trivial
    · intro parts hparts
      cases parts with
      | nil => exact .pure nofun
      | cons next rest =>
        obtain ⟨hnext, hrest⟩ := List.forall_mem_cons.1 hparts
        exact .settle (ih.1 hnext) (ih.2 hrest) hnext hrest

theorem settlePartsWithin (h : e.Clear e') (n : Nat) {current : Seq} {parts : List Seq}
    (hs : (Seq.concat current parts).Unmarked) :
    LazyLisp.Clear PartsUnmarked (Seq.settleWithin e n current parts)
      (Seq.settleWithin e' n current parts) := by
  obtain ⟨hcurrent, hparts⟩ := Seq.unmarked_concat.1 hs
  obtain ⟨hempty, hnext⟩ := h.isEmptyWithin_and_nextWithin n
  exact .settle (hempty hcurrent) (hnext hparts) hcurrent hparts

theorem firstWithin (h : e.Clear e') (n : Nat) {s : Seq} (hs : s.Unmarked) :
    LazyLisp.Clear (fun o => ∀ v ∈ o, v.Unmarked) (s.firstWithin e n) (s.firstWithin e' n) := by
  induction n generalizing s with
  | zero => exact .throw _
  | succ n ih =>
    cases s with
    | empty => exact .pure nofun
    | cons head tail =>
      refine .pure ?_
      rintro v ⟨⟩
      exact (Seq.unmarked_cons.1 hs).1
    | vectorView items i =>
      exact .pure fun v hv => (Seq.unmarked_vectorView.1 hs).getElem? hv
    | textView text offset =>
      refine .pure fun v hv => ?_
      obtain ⟨c, -, rfl⟩ := Option.map_eq_some_iff.1 hv
      trivial
    | entryView entries i =>
      refine .pure fun x hx => ?_
      obtain ⟨entry, hentry, rfl⟩ := Option.map_eq_some_iff.1 hx
      obtain ⟨hk, hv⟩ := Seq.unmarked_entryView.1 hs entry (List.mem_of_getElem? hentry)
      exact Value.unmarked_vector.2 (.cons hk (.one hv))
    | lazy cell => exact .bind (h.realize cell) fun s hs => ih hs
    | concat current parts =>
      refine .bind (h.settlePartsWithin n hs) fun o ho => ?_
      cases o with
      | none => exact .pure nofun
      | some p => exact ih (ho p rfl).1

theorem restWithin (h : e.Clear e') (n : Nat) {s : Seq} (hs : s.Unmarked) :
    LazyLisp.Clear Seq.Unmarked (s.restWithin e n) (s.restWithin e' n) := by
  induction n generalizing s with
  | zero => exact .throw _
  | succ n ih =>
    cases s with
    | empty => exact .pure trivial
    | cons head tail => exact .pure (Seq.unmarked_cons.1 hs).2
    | vectorView items i =>
      have hview : ∀ j, (Seq.vectorView items j).Unmarked := fun _ => hs
      exact .pure (indexRest_unmarked hview items.length i)
    | textView text offset => exact .pure (textRest_unmarked text offset)
    | entryView entries i =>
      have hview : ∀ j, (Seq.entryView entries j).Unmarked := fun _ => hs
      exact .pure (indexRest_unmarked hview entries.length i)
    | lazy cell => exact .bind (h.realize cell) fun s hs => ih hs
    | concat current parts =>
      refine .bind (h.settlePartsWithin n hs) fun o ho => ?_
      cases o with
      | none => exact .pure trivial
      | some p =>
        obtain ⟨hpart, hbehind⟩ := ho p rfl
        exact .bind (ih hpart) fun t ht => .pure (Seq.unmarked_concat.2 ⟨ht, hbehind⟩)

theorem first? (h : e.Clear e') {s : Seq} (hs : s.Unmarked) :
    LazyLisp.Clear (fun o => ∀ v ∈ o, v.Unmarked) (s.first? e) (s.first? e') := by
  rw [Seq.first?, Seq.first?, h.bound]
  exact h.firstWithin e.bound hs

theorem rest (h : e.Clear e') {s : Seq} (hs : s.Unmarked) :
    LazyLisp.Clear Seq.Unmarked (s.rest e) (s.rest e') := by
  rw [Seq.rest, Seq.rest, h.bound]
  exact h.restWithin e.bound hs

theorem isEmpty (h : e.Clear e') {s : Seq} (hs : s.Unmarked) :
    LazyLisp.Clear (fun _ => True) (s.isEmpty e) (s.isEmpty e') := by
  rw [Seq.isEmpty, Seq.isEmpty, h.bound]
  exact (h.isEmptyWithin_and_nextWithin e.bound).1 hs

theorem uncons (h : e.Clear e') {s : Seq} (hs : s.Unmarked) :
    LazyLisp.Clear FrontUnmarked (s.uncons e) (s.uncons e') := by
  refine .bind (h.first? hs) fun o ho => ?_
  cases o with
  | none => exact .pure nofun
  | some head =>
    refine .bind (h.rest hs) fun t ht => .pure ?_
    rintro _ ⟨⟩
    exact ⟨ho head rfl, ht⟩

theorem fold (h : e.Clear e') {β : Type} {q : β → Prop} {step step' : β → Value → Eval β}
    (hstep : ∀ b, q b → ∀ v, v.Unmarked → LazyLisp.Clear q (step b v) (step' b v)) {s : Seq}
    (hs : s.Unmarked) {b : β} (hb : q b) :
    LazyLisp.Clear q (s.fold e step b) (s.fold e' step' b) := by
  rw [Seq.fold, Seq.fold, h.bound]
  generalize e.bound = n
  induction n generalizing s b with
  | zero => exact .throw _
  | succ n ih =>
    refine .bind (h.uncons hs) fun o ho => ?_
    cases o with
    | none => exact .pure hb
    | some x =>
      obtain ⟨hhead, htail⟩ := ho x rfl
      exact .bind (hstep b hb x.1 hhead) fun b hb => ih htail hb

theorem toList (h : e.Clear e') {s : Seq} (hs : s.Unmarked) :
    LazyLisp.Clear AllUnmarked (s.toList e) (s.toList e') := by
  refine .bind (h.fold (q := fun items => AllUnmarked items.toList) ?_ hs .nil) fun _ => .pure
  exact fun items hitems v hv => .pure (hitems.push hv)

/-- Walking a sequence for what each element does. -/
theorem walk (h : e.Clear e') {β : Type} {step step' : β → Value → Eval β}
    (hstep : ∀ b v, v.Unmarked → LazyLisp.Clear (fun _ => True) (step b v) (step' b v)) {s : Seq}
    (hs : s.Unmarked) (b : β) :
    LazyLisp.Clear (fun _ => True) (s.fold e step b) (s.fold e' step' b) :=
  h.fold (fun b _ v hv => hstep b v hv) hs trivial

/-! Equality and maps. -/

section
variable {eq eq' : Value → Value → Eval Bool}
  (heq : ∀ a b, a.Unmarked → b.Unmarked → LazyLisp.Clear (fun _ => True) (eq a b) (eq' a b))
include heq

theorem allEqual {xs ys : List Value} (hxs : AllUnmarked xs) (hys : AllUnmarked ys) :
    LazyLisp.Clear (fun _ => True) (Equality.allEqual eq xs ys) (Equality.allEqual eq' xs ys) := by
  induction xs generalizing ys with
  | nil => exact .pure trivial
  | cons x xs ih =>
    cases ys with
    | nil => exact .pure trivial
    | cons y ys =>
      refine .bind (heq x y hxs.head hys.head) fun b _ => ?_
      split
      · exact ih hxs.tail hys.tail
      · exact .pure trivial

theorem lookup {key : Value} (hkey : key.Unmarked) {entries : Entries} (h : entries.Unmarked) :
    LazyLisp.Clear (fun o => ∀ v ∈ o, v.Unmarked) (Equality.lookup eq key entries)
      (Equality.lookup eq' key entries) := by
  induction entries with
  | nil => exact .pure nofun
  | cons f rest ih =>
    obtain ⟨hf, hrest⟩ := List.forall_mem_cons.1 h
    refine .bind (heq f.1 key hf.1 hkey).orFalse fun b _ => ?_
    split
    · refine .pure ?_
      rintro _ ⟨⟩
      exact hf.2
    · exact ih hrest

theorem entriesEqual {other entries : Entries} (hother : other.Unmarked) (h : entries.Unmarked) :
    LazyLisp.Clear (fun _ => True) (Equality.entriesEqual eq other entries)
      (Equality.entriesEqual eq' other entries) := by
  induction entries with
  | nil => exact .pure trivial
  | cons f rest ih =>
    obtain ⟨hf, hrest⟩ := List.forall_mem_cons.1 h
    refine .bind (lookup heq hf.1 hother) fun o ho => ?_
    cases o with
    | none => exact .pure trivial
    | some v =>
      refine .bind (heq f.2 v hf.2 (ho v rfl)).orFalse fun b _ => ?_
      split
      · exact ih hrest
      · exact .pure trivial

theorem seqEqual (h : e.Clear e') (n : Nat) {s t : Seq} (hs : s.Unmarked) (ht : t.Unmarked) :
    LazyLisp.Clear (fun _ => True) (Equality.seqEqual e eq n s t)
      (Equality.seqEqual e' eq' n s t) := by
  induction n generalizing s t with
  | zero => exact .throw _
  | succ n ih =>
    refine .bind (h.uncons hs) fun a ha => .bind (h.uncons ht) fun b hb => ?_
    rcases a with _ | ⟨x, s'⟩ <;> rcases b with _ | ⟨y, t'⟩
    · exact .pure trivial
    · exact .pure trivial
    · exact .pure trivial
    · obtain ⟨hx, hs⟩ := ha _ rfl
      obtain ⟨hy, ht⟩ := hb _ rfl
      refine .bind (heq x y hx hy) fun b _ => ?_
      split
      · exact ih hs ht
      · exact .pure trivial

end

theorem equalWithin (h : e.Clear e') (n : Nat) {a b : Value} (ha : a.Unmarked) (hb : b.Unmarked) :
    LazyLisp.Clear (fun _ => True) (a.equalWithin e n b) (a.equalWithin e' n b) := by
  induction n generalizing a b with
  | zero => exact .throw _
  | succ n ih =>
    have heq : ∀ a b : Value, a.Unmarked → b.Unmarked →
        LazyLisp.Clear (fun _ => True) (a.equalWithin e n b) (a.equalWithin e' n b) :=
      fun _ _ ha hb => ih ha hb
    unfold Value.equalWithin
    rw [h.bound]
    split
    all_goals first
      | exact .pure trivial
      | exact absurd ha Value.not_unmarked_marked
      | skip
    · rw [Value.unmarked_vector] at ha hb
      split
      · exact allEqual heq ha hb
      · exact .pure trivial
    · exact seqEqual heq h _ ha hb
    · exact seqEqual heq h _ ha (Seq.unmarked_vectorView.2 (Value.unmarked_vector.1 hb))
    · exact seqEqual heq h _ hb (Seq.unmarked_vectorView.2 (Value.unmarked_vector.1 ha))
    · rw [Value.unmarked_map] at ha hb
      split
      · exact entriesEqual heq hb ha
      · exact .pure trivial

theorem equal (h : e.Clear e') {a b : Value} (ha : a.Unmarked) (hb : b.Unmarked) :
    LazyLisp.Clear (fun _ => True) (a.equal e b) (a.equal e' b) := by
  rw [Value.equal, Value.equal, h.bound]
  exact h.equalWithin e.bound ha hb

theorem settle (h : e.Clear e') {v : Value} (hv : v.Unmarked) :
    LazyLisp.Clear (fun _ => True) (v.settle e) (v.settle e') := by
  rw [Value.settle, Value.settle, h.bound]
  generalize e.bound = n
  induction n generalizing v with
  | zero => exact .throw _
  | succ n ih =>
    cases v with
    | vector items => exact .forM fun v hmem => ih (Value.unmarked_vector.1 hv v hmem)
    | seq s => exact (h.walk (fun _ _ hitem => ih hitem) hv ()).orDone
    | map entries =>
      refine .forM fun f hf => ?_
      obtain ⟨hk, hval⟩ := Value.unmarked_map.1 hv f hf
      exact .bind (ih hk) fun _ _ => ih hval
    | marked m form => exact absurd hv Value.not_unmarked_marked
    | _ => exact .pure trivial

theorem get? (h : e.Clear e') {entries : Entries} (hentries : entries.Unmarked) {key : Value}
    (hkey : key.Unmarked) :
    LazyLisp.Clear (fun o => ∀ v ∈ o, v.Unmarked) (entries.get? e key) (entries.get? e' key) :=
  .bind (h.settle hkey) fun _ _ => lookup (fun _ _ => h.equal) hkey hentries

theorem put (h : e.Clear e') {entries : Entries} (hentries : entries.Unmarked) {key value : Value}
    (hkey : key.Unmarked) (hvalue : value.Unmarked) :
    LazyLisp.Clear Entries.Unmarked (entries.put e key value) (entries.put e' key value) := by
  refine .bind (h.settle hkey) fun _ _ => ?_
  induction entries with
  | nil => exact .pure (List.forall_mem_singleton.2 ⟨hkey, hvalue⟩)
  | cons f rest ih =>
    obtain ⟨hf, hrest⟩ := List.forall_mem_cons.1 hentries
    refine .bind (h.equal hf.1 hkey).orFalse fun b _ => ?_
    split
    · exact .pure (List.forall_mem_cons.2 ⟨⟨hkey, hvalue⟩, hrest⟩)
    · exact .bind (ih hrest) fun _ hmore => .pure (List.forall_mem_cons.2 ⟨hf, hmore⟩)

theorem remove (h : e.Clear e') {entries : Entries} (hentries : entries.Unmarked) {key : Value}
    (hkey : key.Unmarked) :
    LazyLisp.Clear Entries.Unmarked (entries.remove e key) (entries.remove e' key) := by
  refine .bind (h.settle hkey) fun _ _ => ?_
  induction entries with
  | nil => exact .pure (List.forall_mem_nil _)
  | cons f rest ih =>
    obtain ⟨hf, hrest⟩ := List.forall_mem_cons.1 hentries
    refine .bind (h.equal hf.1 hkey).orFalse fun b _ => ?_
    split
    · exact .pure hrest
    · exact .bind (ih hrest) fun _ hmore => .pure (List.forall_mem_cons.2 ⟨hf, hmore⟩)

/-! Printing. -/

theorem text (h : e.Clear e') (style : Style) {v : Value} (hv : v.Unmarked) :
    LazyLisp.Clear (fun _ => True) (v.text e style) (v.text e' style) := by
  rw [Value.text, Value.text, h.bound]
  generalize e.bound = n
  induction n generalizing v with
  | zero => exact .throw _
  | succ n ih =>
    refine .get_bind fun w _ => ?_
    cases v with
    | vector items =>
      rw [Value.unmarked_vector] at hv
      exact .bind (.mapM fun v hmem => ih (hv v hmem)) fun _ _ => .pure trivial
    | map entries =>
      rw [Value.unmarked_map] at hv
      refine .bind (.mapM (q := fun _ => True) fun f hf => ?_) fun _ _ => .pure trivial
      exact .bind (ih (hv f hf).1) fun _ _ => .bind (ih (hv f hf).2) fun _ _ => .pure trivial
    | seq s =>
      refine .bind (h.walk (fun acc v hv => ?_) hv _) fun _ _ => .pure trivial
      exact .bind (ih hv) fun _ _ => .pure trivial
    | marked m form => exact absurd hv Value.not_unmarked_marked
    | _ => exact .pure trivial

theorem textOrType (h : e.Clear e') {v : Value} (hv : v.Unmarked) :
    LazyLisp.Clear (fun _ => True) (v.textOrType e) (v.textOrType e') := by
  intro w hw
  obtain ⟨hsame, hleaves⟩ := h.text .readable hv w hw
  unfold Value.textOrType
  rw [hsame]
  generalize v.text e .readable w = ending at hleaves ⊢
  refine ⟨rfl, ?_⟩
  cases ending with
  | ok text v => exact hleaves
  | error s v =>
    cases s with
    | error err => exact ⟨trivial, hleaves⟩
    | exhausted => exact hleaves

end Engine.Clear
end LazyLisp
