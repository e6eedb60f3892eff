import LazyLisp.Proofs.Arities
import LazyLisp.Proofs.EvaluationEffects

/-!
Computations whose errors about numbers of arguments are true. Such an error names an arity that does
not fit the number of arguments, or it comes from a closure of the state that skips this number. Lazy
cells keep errors, so a state has to bear out those as well. Closures stay once they are made, so what
a state bears out every later one does.
-/

namespace LazyLisp
set_option autoImplicit false

namespace World

/-- What an error says of a number of arguments is true, but for the numbers that a closure skips. -/
def Explains (w : World) : EvalError → Prop
  | .arity _ expected got => expected.accepts got = false ∨
      ∃ (id : ClosureId) (c : Closure), w.closures[id]? = some c ∧ expected = c.arity ∧ c.Skips got
  | _ => True

/-- Every closure of the earlier state is in the later one. -/
def KeepsClosures (w v : World) : Prop :=
  ∀ (id : ClosureId) (c : Closure), w.closures[id]? = some c → v.closures[id]? = some c

/-- Closures have a clause, and the errors that lazy cells keep are borne out. -/
structure Explained (w : World) : Prop where
  closures : ∀ (id : ClosureId) (c : Closure), w.closures[id]? = some c →
    ∃ clauses, clauses ≠ [] ∧ c.Holds clauses
  cells : ∀ (id : CellId) (err : EvalError), w.cells[id]? = some (.failed err) → w.Explains err

structure Leads (w v : World) : Prop where
  explained : v.Explained
  keeps : w.KeepsClosures v

section
variable {u v w : World}

theorem Explains.later {err : EvalError} (h : w.Explains err) (hkeeps : w.KeepsClosures v) :
    v.Explains err := by
  cases err with
  | arity f expected got =>
    rcases h with h | ⟨id, c, hc, hskips⟩
    · exact .inl h
    · exact .inr ⟨id, c, hkeeps id c hc, hskips⟩
  | _ => trivial

theorem Leads.trans (huv : u.Leads v) (hvw : v.Leads w) : u.Leads w :=
  ⟨hvw.explained, fun id c hc => hvw.keeps id c (huv.keeps id c hc)⟩

namespace Explained

theorem leads (h : w.Explained) : w.Leads w := ⟨h, fun _ _ hc => hc⟩

/-- Nothing but closures and lazy cells counts. -/
theorem same (h : w.Explained) (hclosures : v.closures = w.closures) (hcells : v.cells = w.cells) :
    w.Leads v := by
  have hkeeps : w.KeepsClosures v := fun id c hc => by rwa [hclosures]
  refine ⟨⟨fun id c hc => h.closures id c (by rwa [← hclosures]), fun id err hcell => ?_⟩, hkeeps⟩
  rw [hcells] at hcell
  exact (h.cells id err hcell).later hkeeps

theorem setCell (h : w.Explained) (id : CellId) {cell : Cell}
    (hcell : ∀ err, cell = .failed err → w.Explains err) : w.Leads (w.setCell id cell) := by
  refine ⟨⟨h.closures, fun k err hk => ?_⟩, fun _ _ hc => hc⟩
  rw [World.setCell, Array.getElem?_setIfInBounds] at hk
  split at hk
  · split at hk
    · exact hcell err (Option.some.inj hk)
    · cases hk
  · exact h.cells k err hk

theorem pushCell (h : w.Explained) (thunk : Value) :
    w.Leads { w with cells := w.cells.push (.pending thunk) } := by
  refine ⟨⟨h.closures, fun k err hk => ?_⟩, fun _ _ hc => hc⟩
  rw [Array.getElem?_push] at hk
  split at hk
  · cases hk
  · exact h.cells k err hk

theorem pushClosure (h : w.Explained) {c : Closure} {clauses : List Clause} (hsome : clauses ≠ [])
    (hc : c.Holds clauses) : w.Leads { w with closures := w.closures.push c } := by
  have hkeeps : w.KeepsClosures { w with closures := w.closures.push c } := by
    intro id d hd
    have hlt := (Array.getElem?_eq_some_iff.1 hd).1
    rw [Array.getElem?_push_lt hlt, ← Array.getElem?_eq_getElem hlt, hd]
  refine ⟨⟨fun id d hd => ?_, fun k err hk => (h.cells k err hk).later hkeeps⟩, hkeeps⟩
  rw [Array.getElem?_push] at hd
  split at hd
  · obtain rfl := Option.some.inj hd
    exact ⟨clauses, hsome, hc⟩
  · exact h.closures id d hd

end Explained
end
end World

/-- What computations stop with, and when a state bears it out. -/
class Explainable (ε : Type) where
  explained : World → ε → Prop

instance : Explainable Stop where
  explained w
    | .error err => w.Explains err
    | .exhausted => True

/-- How a computation ends in a state that the one in front leads to. -/
def World.Reports {ε α : Type} [Explainable ε] (w : World) : EStateM.Result ε World α → Prop
  | .ok _ v => w.Leads v
  | .error s v => w.Leads v ∧ Explainable.explained v s

def Truthful {ε α : Type} [Explainable ε] (m : EStateM ε World α) : Prop :=
  ∀ w : World, w.Explained → w.Reports (m w)

section
variable {ε α β : Type} [Explainable ε] {u w : World}

theorem World.Leads.reports {r : EStateM.Result ε World α} (h : u.Leads w) (hr : w.Reports r) :
    u.Reports r := by
  cases r with
  | ok a v => exact h.trans hr
  | error s v => exact ⟨h.trans hr.1, hr.2⟩

namespace Truthful

theorem pure (a : α) : Truthful (pure a : EStateM ε World α) := fun _ hw => hw.leads

theorem throw {e : ε} (h : ∀ w : World, Explainable.explained w e) :
    Truthful (throw e : EStateM ε World α) := fun w hw => ⟨hw.leads, h w⟩

theorem bind {m : EStateM ε World α} {f : α → EStateM ε World β} (hm : Truthful m)
    (hf : ∀ a, Truthful (f a)) : Truthful (m >>= f) := by
  intro w hw
  have hfirst := hm w hw
  rw [run_bind]
  generalize m w = r at hfirst ⊢
  cases r with
  | ok a v => exact hfirst.reports (hf a v hfirst.explained)
  | error s v => exact hfirst

theorem bind_gives {m : EStateM ε World α} {f : α → EStateM ε World β} {p : α → Prop}
    (hm : Truthful m) (hp : Gives m p) (hf : ∀ a, p a → Truthful (f a)) : Truthful (m >>= f) := by
  intro w hw
  have hfirst := hm w hw
  rw [run_bind]
  cases hrun : m w with
  | ok a v =>
    rw [hrun] at hfirst
    exact hfirst.reports (hf a (hp w a v hrun) v hfirst.explained)
  | error s v =>
    rw [hrun] at hfirst
    exact hfirst

theorem leads_of_ok {m : EStateM ε World α} (hm : Truthful m) {w v : World} {a : α}
    (hw : w.Explained) (hrun : m w = .ok a v) : w.Leads v := by
  have hends := hm w hw
  rwa [hrun] at hends

theorem get_bind_at {f : World → EStateM ε World β}
    (hf : ∀ w : World, w.Explained → w.Reports (f w w)) : Truthful (get >>= f) := hf

theorem get_bind {f : World → EStateM ε World β} (hf : ∀ w, Truthful (f w)) : Truthful (get >>= f) :=
  fun w hw => hf w w hw

theorem modifyGet {f : World → α × World} (h : ∀ w : World, w.Explained → w.Leads (f w).2) :
    Truthful (modifyGet f : EStateM ε World α) := h

theorem modify {f : World → World} (h : ∀ w : World, w.Explained → w.Leads (f w)) :
    Truthful (modify f : EStateM ε World Unit) := h

theorem mapM {f : α → EStateM ε World β} (hf : ∀ x, Truthful (f x)) (xs : List α) :
    Truthful (xs.mapM f) := by
  induction xs with
  | nil => exact .pure _
  | cons x xs ih =>
    rw [List.mapM_cons]
    exact .bind (hf x) fun _ => .bind ih fun _ => .pure _

theorem forM {f : α → EStateM ε World Unit} (hf : ∀ x, Truthful (f x)) (xs : List α) :
    Truthful (xs.forM f) := by
  induction xs with
  | nil => exact .pure _
  | cons x xs ih => exact .bind (hf x) fun _ => ih

theorem foldlM {f : β → α → EStateM ε World β} (hf : ∀ b x, Truthful (f b x)) (xs : List α) (b : β) :
    Truthful (xs.foldlM f b) := by
  induction xs generalizing b with
  | nil => exact .pure b
  | cons x xs ih =>
    rw [List.foldlM_cons]
    exact .bind (hf b x) fun b => ih b

end Truthful
end

namespace Truthful
variable {α : Type}

theorem fail {err : EvalError} (h : ∀ w : World, w.Explains err) :
    Truthful (fail err : Eval α) := .throw h

/-- An error about a number of arguments that does not fit. -/
theorem misfit {f : String} {expected : Arity} {got : Nat} (h : expected.accepts got = false) :
    Truthful (LazyLisp.fail (.arity f expected got) : Eval α) := .fail fun _ => .inl h

theorem misfit_one {f : String} {args : List Value} (h : ∀ x, args = [x] → False) :
    Truthful (LazyLisp.fail (.arity f (.exactly 1) args.length) : Eval α) := by
  refine .misfit (beq_eq_false_iff_ne.2 fun hlength => ?_)
  obtain ⟨x, rfl⟩ := List.length_eq_one_iff.1 hlength
  exact h x rfl

theorem guard {c : Prop} [Decidable c] {err : EvalError} {k : PUnit → Eval α}
    (herr : c → ∀ w : World, w.Explains err) (hk : Truthful (k ⟨⟩)) :
    Truthful (if c then LazyLisp.fail err >>= k else k ⟨⟩) := by
  split
  · rename_i hc
    exact fun w hw => ⟨hw.leads, herr hc w⟩
  · exact hk

theorem settle {isEmpty : Seq → Eval Bool} {more : List Seq → Eval (Option (Seq × List Seq))}
    (hempty : ∀ s, Truthful (isEmpty s)) (hmore : ∀ parts, Truthful (more parts)) (current : Seq)
    (parts : List Seq) : Truthful (Seq.settle isEmpty more current parts) := by
  refine .bind (hempty current) fun b => ?_
  split
  · exact hmore parts
  · exact .pure _

theorem orFalse {m : Eval Bool} (hm : Truthful m) : Truthful m.orFalse := by
  intro w hw
  have hends := hm w hw
  unfold Eval.orFalse
  generalize m w = r at hends ⊢
  rcases r with ⟨b, v⟩ | ⟨_ | _, v⟩
  · exact hends
  · exact hends.1
  · exact hends

theorem orDone {m : Eval Unit} (hm : Truthful m) : Truthful m.orDone := by
  intro w hw
  have hends := hm w hw
  unfold Eval.orDone
  generalize m w = r at hends ⊢
  rcases r with ⟨b, v⟩ | ⟨_ | _, v⟩
  · exact hends
  · exact hends.1
  · exact hends

end Truthful

/-! The operations on the state. -/

theorem truthful_intern (text : String) : Truthful (Eval.intern text) :=
  .modifyGet fun _ hw => hw.same rfl rfl

theorem truthful_print (text : String) : Truthful (Eval.print text) :=
  .modify fun _ hw => hw.same rfl rfl

theorem truthful_note (event : Event) : Truthful (Eval.note event) :=
  .modify fun _ hw => hw.same rfl rfl

theorem truthful_newFrame (parent : Scope) : Truthful (Eval.newFrame parent) :=
  .modifyGet fun _ hw => hw.same rfl rfl

theorem truthful_push (id : FrameId) (s : Symbol) (v : Value) : Truthful (Eval.push id s v) :=
  .modify fun _ hw => hw.same rfl rfl

theorem truthful_rebind (id : FrameId) (values : List Value) : Truthful (Eval.rebind id values) :=
  .modify fun _ hw => hw.same rfl rfl

theorem truthful_newClosure {c : Closure} {clauses : List Clause} (hsome : clauses ≠ [])
    (hc : c.Holds clauses) : Truthful (Eval.newClosure c) :=
  .modifyGet fun _ hw => hw.pushClosure hsome hc

theorem truthful_newLazy (thunk : Value) : Truthful (Eval.newLazy thunk) :=
  .modifyGet fun _ hw => hw.pushCell thunk

theorem truthful_declare (name : NameId) : Truthful (Eval.declare name) := by
  refine .get_bind_at fun w hw => ?_
  cases w.spaces.intern? w.current name with
  | some p => exact hw.same rfl rfl
  | none => exact ⟨hw.leads, trivial⟩

theorem truthful_define (name : NameId) (value : Value) : Truthful (Eval.define name value) :=
  .bind (truthful_declare name) fun _ => .bind (.modify fun _ hw => hw.same rfl rfl) fun _ => .pure _

theorem Outcome.truthful_toValue (o : Outcome) : Truthful o.toValue := by
  cases o with
  | value v => exact .pure v
  | again values => exact .fail fun _ => trivial

/-! Engines. -/

def Engine.Truthful (e : Engine) : Prop := ∀ r : Request, LazyLisp.Truthful (e.call r)

namespace Engine.Truthful
variable {e : Engine} {β : Type}

theorem evaluate (h : e.Truthful) (scope : Scope) (form : Value) :
    LazyLisp.Truthful (e.evaluate scope form) := h _

theorem value (h : e.Truthful) (scope : Scope) (form : Value) :
    LazyLisp.Truthful (e.value scope form) := .bind (h _) Outcome.truthful_toValue

theorem apply (h : e.Truthful) (scope : Scope) (callee : Value) (args : List Value) :
    LazyLisp.Truthful (e.apply scope callee args) := .bind (h _) Outcome.truthful_toValue

/-! Sequences. -/

theorem produce (h : e.Truthful) (thunk : Value) : LazyLisp.Truthful (Seq.produce e thunk) := by
  refine .get_bind fun w => .guard (fun _ _ => trivial) (.bind (h.apply none thunk []) fun v => ?_)
  split
  · exact .pure _
  · exact .fail fun _ => trivial

/-- What a cell keeps of a failure is borne out where the thunk stopped. -/
theorem run (h : e.Truthful) (cell : CellId) (thunk : Value) :
    LazyLisp.Truthful (Seq.run e cell thunk) := by
  intro w hw
  have hstart : w.Leads (w.setCell cell .realizing) := hw.setCell cell nofun
  have hends := hstart.reports (h.produce thunk _ hstart.explained)
  rw [Seq.run_eq]
  generalize Seq.produce e thunk (w.setCell cell .realizing) = r at hends ⊢
  rcases r with ⟨s, v⟩ | ⟨err | _, v⟩
  · exact hends.trans (hends.explained.setCell cell nofun)
  · have hkept : v.Leads (v.setCell cell (.failed err)) := by
      refine hends.1.explained.setCell cell ?_
      rintro _ ⟨⟩
      exact hends.2
    exact ⟨hends.1.trans hkept, World.Explains.later hends.2 hkept.keeps⟩
  · exact hends

theorem realize (h : e.Truthful) (cell : CellId) : LazyLisp.Truthful (Seq.realize e cell) := by
  refine .get_bind_at fun w hw => ?_
  cases hcell : w.cells[cell]? with
  | none => exact ⟨hw.leads, trivial⟩
  | some c =>
    cases c with
    | pending thunk => exact h.run cell thunk w hw
    | realizing => exact ⟨hw.leads, trivial⟩
    | realized s => exact hw.leads
    | failed err => exact ⟨hw.leads, hw.cells cell err hcell⟩

theorem isEmptyWithin_and_nextWithin (h : e.Truthful) (n : Nat) :
    (∀ s, LazyLisp.Truthful (Seq.isEmptyWithin e n s)) ∧
      ∀ parts, LazyLisp.Truthful (Seq.nextWithin e n parts) := by
  induction n with
  | zero =>
    refine ⟨fun s => .throw fun _ => trivial, fun parts => ?_⟩
    cases parts with
    | nil => exact .pure _
    | cons next rest => exact .throw fun _ => trivial
  | succ n ih =>
    constructor
    · intro s
      cases s with
      | lazy cell => exact .bind (h.realize cell) ih.1
      | concat current parts => exact .bind (.settle ih.1 ih.2 current parts) fun _ => .pure _
      | _ => exact .pure _
    · intro parts
      cases parts with
      | nil => exact .pure _
      | cons next rest => exact .settle ih.1 ih.2 next rest

theorem settlePartsWithin (h : e.Truthful) (n : Nat) (current : Seq) (parts : List Seq) :
    LazyLisp.Truthful (Seq.settleWithin e n current parts) :=
  .settle (h.isEmptyWithin_and_nextWithin n).1 (h.isEmptyWithin_and_nextWithin n).2 current parts

theorem firstWithin (h : e.Truthful) (n : Nat) (s : Seq) :
    LazyLisp.Truthful (s.firstWithin e n) := by
  induction n generalizing s with
  | zero => exact .throw fun _ => trivial
  | succ n ih =>
    cases s with
    | lazy cell => exact .bind (h.realize cell) fun s => ih s
    | concat current parts =>
      refine .bind (h.settlePartsWithin n current parts) fun o => ?_
      cases o with
      | none => exact .pure _
      | some p => exact ih p.1
    | _ => exact .pure _

theorem restWithin (h : e.Truthful) (n : Nat) (s : Seq) :
    LazyLisp.Truthful (s.restWithin e n) := by
  induction n generalizing s with
  | zero => exact .throw fun _ => trivial
  | succ n ih =>
    cases s with
    | lazy cell => exact .bind (h.realize cell) fun s => ih s
    | concat current parts =>
      refine .bind (h.settlePartsWithin n current parts) fun o => ?_
      cases o with
      | none => exact .pure _
      | some p => exact .bind (ih p.1) fun _ => .pure _
    | _ => exact .pure _

theorem first? (h : e.Truthful) (s : Seq) : LazyLisp.Truthful (s.first? e) := h.firstWithin _ s

theorem rest (h : e.Truthful) (s : Seq) : LazyLisp.Truthful (s.rest e) := h.restWithin _ s

theorem isEmpty (h : e.Truthful) (s : Seq) : LazyLisp.Truthful (s.isEmpty e) :=
  (h.isEmptyWithin_and_nextWithin _).1 s

theorem uncons (h : e.Truthful) (s : Seq) : LazyLisp.Truthful (s.uncons e) := by
  refine .bind (h.first? s) fun o => ?_
  cases o with
  | none => exact .pure _
  | some head => exact .bind (h.rest s) fun _ => .pure _

theorem fold (h : e.Truthful) {step : β → Value → Eval β}
    (hstep : ∀ b v, LazyLisp.Truthful (step b v)) (s : Seq) (b : β) :
    LazyLisp.Truthful (s.fold e step b) := by
  rw [Seq.fold]
  generalize e.bound = n
  induction n generalizing s b with
  | zero => exact .throw fun _ => trivial
  | succ n ih =>
    refine .bind (h.uncons s) fun o => ?_
    cases o with
    | none => exact .pure b
    | some x => exact .bind (hstep b x.1) fun b => ih x.2 b

theorem toList (h : e.Truthful) (s : Seq) : LazyLisp.Truthful (s.toList e) :=
  .bind (h.fold (fun _ _ => .pure _) s _) fun _ => .pure _

/-! Equality and maps. -/

section
variable {eq : Value → Value → Eval Bool} (heq : ∀ a b, LazyLisp.Truthful (eq a b))
include heq

theorem allEqual (xs ys : List Value) : LazyLisp.Truthful (Equality.allEqual eq xs ys) := by
  induction xs generalizing ys with
  | nil => exact .pure true
  | cons x xs ih =>
    cases ys with
    | nil => exact .pure true
    | cons y ys =>
      refine .bind (heq x y) fun b => ?_
      split
      · exact ih ys
      · exact .pure false

theorem lookup (key : Value) (entries : Entries) :
    LazyLisp.Truthful (Equality.lookup eq key entries) := by
  induction entries with
  | nil => exact .pure none
  | cons f rest ih =>
    refine .bind (heq f.1 key).orFalse fun b => ?_
    split
    · exact .pure _
    · exact ih

theorem entriesEqual (other entries : Entries) :
    LazyLisp.Truthful (Equality.entriesEqual eq other entries) := by
  induction entries with
  | nil => exact .pure true
  | cons f rest ih =>
    refine .bind (lookup heq f.1 other) fun o => ?_
    cases o with
    | none => exact .pure false
    | some v =>
      refine .bind (heq f.2 v).orFalse fun b => ?_
      split
      · exact ih
      · exact .pure false

theorem seqEqual (h : e.Truthful) (n : Nat) (s t : Seq) :
    LazyLisp.Truthful (Equality.seqEqual e eq n s t) := by
  induction n generalizing s t with
  | zero => exact .throw fun _ => trivial
  | succ n ih =>
    refine .bind (h.uncons s) fun a => .bind (h.uncons t) fun b => ?_
    rcases a with _ | ⟨x, s⟩ <;> rcases b with _ | ⟨y, t⟩
    · exact .pure true
    · exact .pure false
    · exact .pure false
    · refine .bind (heq x y) fun b => ?_
      split
      · exact ih s t
      · exact .pure false

end

theorem equalWithin (h : e.Truthful) (n : Nat) (a b : Value) :
    LazyLisp.Truthful (a.equalWithin e n b) := by
  induction n generalizing a b with
  | zero => exact .throw fun _ => trivial
  | succ n ih =>
    have heq : ∀ a b : Value, LazyLisp.Truthful (a.equalWithin e n b) := ih
    unfold Value.equalWithin
    split
    all_goals first
      | exact .pure _
      | exact seqEqual heq h _ _ _
      | skip
    · split
      · exact allEqual heq _ _
      · exact .pure false
    · split
      · exact entriesEqual heq _ _
      · exact .pure false
    · split
      · exact (heq _ _).orFalse
      · exact .pure false

theorem equal (h : e.Truthful) (a b : Value) : LazyLisp.Truthful (a.equal e b) := h.equalWithin _ a b

theorem settle (h : e.Truthful) (v : Value) : LazyLisp.Truthful (v.settle e) := by
  rw [Value.settle]
  generalize e.bound = n
  induction n generalizing v with
  | zero => exact .throw fun _ => trivial
  | succ n ih =>
    cases v with
    | vector items => exact .forM ih items
    | seq s => exact (h.fold (fun _ item => ih item) s ()).orDone
    | map entries => exact .forM (fun f => .bind (ih f.1) fun _ => ih f.2) entries
    | marked m form => exact ih form
    | _ => exact .pure ()

theorem get? (h : e.Truthful) (entries : Entries) (key : Value) :
    LazyLisp.Truthful (entries.get? e key) :=
  .bind (h.settle key) fun _ => lookup h.equal key entries

theorem put (h : e.Truthful) (entries : Entries) (key value : Value) :
    LazyLisp.Truthful (entries.put e key value) := by
  refine .bind (h.settle key) fun _ => ?_
  induction entries with
  | nil => exact .pure _
  | cons f rest ih =>
    refine .bind (h.equal f.1 key).orFalse fun b => ?_
    split
    · exact .pure _
    · exact .bind ih fun _ => .pure _

theorem remove (h : e.Truthful) (entries : Entries) (key : Value) :
    LazyLisp.Truthful (entries.remove e key) := by
  refine .bind (h.settle key) fun _ => ?_
  induction entries with
  | nil => exact .pure _
  | cons f rest ih =>
    refine .bind (h.equal f.1 key).orFalse fun b => ?_
    split
    · exact .pure _
    · exact .bind ih fun _ => .pure _

/-! Printing. -/

theorem text (h : e.Truthful) (style : Style) (v : Value) : LazyLisp.Truthful (v.text e style) := by
  rw [Value.text]
  generalize e.bound = n
  induction n generalizing v with
  | zero => exact .throw fun _ => trivial
  | succ n ih =>
    refine .get_bind fun w => ?_
    cases v with
    | vector items => exact .bind (.mapM ih items) fun _ => .pure _
    | map entries =>
      refine .bind (.mapM (fun f => ?_) entries) fun _ => .pure _
      exact .bind (ih f.1) fun _ => .bind (ih f.2) fun _ => .pure _
    | seq s => exact .bind (h.fold (fun _ item => .bind (ih item) fun _ => .pure _) s _) fun _ => .pure _
    | marked m form => exact .bind (ih form) fun _ => .pure _
    | _ => exact .pure _

theorem textOrType (h : e.Truthful) (v : Value) : LazyLisp.Truthful (v.textOrType e) := by
  intro w hw
  have hends := h.text .readable v w hw
  unfold Value.textOrType
  generalize v.text e .readable w = r at hends ⊢
  rcases r with ⟨text, u⟩ | ⟨_ | _, u⟩
  · exact hends
  · exact hends.1
  · exact hends

end Engine.Truthful
end LazyLisp
