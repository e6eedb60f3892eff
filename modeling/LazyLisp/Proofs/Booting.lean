import LazyLisp.Proofs.LibraryForms
import LazyLisp.Proofs.Moves
import LazyLisp.Proofs.Transparency

/-!
New interpreters. The forms of the library are known, and what evaluating them leaves behind is found
out by running it: the functions and macros are known by their names and have the code that the
proofs about them use. One run is enough for every budget and whatever is traced, because its traces
need no thunk.
-/

namespace LazyLisp
set_option autoImplicit false

/-! Starting from the forms of the library. -/

/-- Where the one computation gives a result, the other does the same. -/
def Session.Follows {α : Type} (m' m : Session α) : Prop :=
  ∀ w a v, m w = .ok a v → m' w = .ok a v

namespace Session.Follows
variable {α β : Type} {m m' : Session α} {f f' : α → Session β}

theorem refl (m : Session α) : m.Follows m := fun _ _ _ h => h

theorem bind (hm : Session.Follows m' m) (hf : ∀ a, (f' a).Follows (f a)) :
    Session.Follows (m' >>= f') (m >>= f) := by
  intro w b u h
  obtain ⟨a, v, hrun, hrest⟩ := run_bind_eq_ok.1 h
  rw [run_bind_ok (hm w a v hrun)]
  exact hf a v b u hrest

theorem loading (file : String) (hm : Session.Follows m' m) :
    Session.Follows (loading file m') (loading file m) := by
  intro w a v h
  unfold Session.loading at h ⊢
  cases hrun : m w with
  | ok b u =>
    rw [hrun] at h
    cases h
    rw [hm w a v hrun]
  | error s u =>
    rw [hrun] at h
    cases h

end Session.Follows

namespace Session

/-- Notes forms that have been read. -/
def noted (e : Engine) (forms : List Value) : Session (List Value) := ofEval do
  if (← get).log.read then forms.forM fun form => do Eval.note (.readForm (← form.textOrType e))
  return forms

/-- Supplies forms in place of a source, where these names are known before it and behind it. -/
def recite (e : Engine) (known : Names) (forms : List Value) (behind : Names) :
    Session (List Value) := fun w =>
  if w.names.same known then noted e forms { w with names := behind } else .error .exhausted w

theorem read_eq_noted (e : Engine) {source : String} {w : World} {behind : Names}
    {forms : List Value} (h : readForms source w.names = .ok forms behind) :
    read e source w = noted e forms { w with names := behind } := by
  have hsource : Core.readSource e source w =
      (do if (← get).log.read then
            forms.forM fun form => do Eval.note (.readForm (← form.textOrType e))
          return Except.ok forms : Eval (Except ReadError (List Value)))
        { w with names := behind } := by
    unfold Core.readSource
    rw [run_bind, run_modifyGet, h]
  show (ofEval (Core.readSource e source) >>= _) w = _
  rw [run_bind, ofEval, hsource]
  cases hlog : w.log.read with
  | false => simp [noted, ofEval, run_bind, hlog]
  | true =>
    simp only [noted, ofEval, run_bind, run_get, hlog]
    rw [if_pos trivial, if_pos trivial, run_bind, run_bind]
    cases (forms.forM fun form => do Eval.note (.readForm (← form.textOrType e)) : Eval Unit)
        { w with names := behind } with
    | ok _ v => rfl
    | error s v => cases s <;> rfl

theorem read_follows_recite (e : Engine) {source : String} {known behind : Names}
    {forms : List Value} (h : readForms source known = .ok forms behind) :
    Follows (read e source) (recite e known forms behind) := by
  intro w a v hrun
  unfold recite at hrun
  split at hrun
  · rename_i hsame
    have hread : readForms source w.names = .ok forms behind := Names.eq_of_same hsame ▸ h
    rw [← hrun, read_eq_noted e hread]
  · cases hrun

end Session

namespace Interpreter

/-- Loads a file whose forms are known. -/
def loadForms (e : Engine) (file : String) (known : Names) (forms : List Value) (behind : Names) :
    Session Unit := do
  let (_, count) ← Session.loading file do
    let forms ← Session.recite e known forms behind
    let value ← Session.evaluateAll e forms
    return (value, forms.length)
  Session.ofEval (Eval.note (.loaded file count))

theorem loadFile_follows (e : Engine) {file : Library.File} {known behind : Names}
    {forms : List Value} (h : readForms file.source known = .ok forms behind) :
    (loadFile e file).Follows (loadForms e file.name known forms behind) := by
  have hscript : (Session.runScript e file.source).Follows (do
      let forms ← Session.recite e known forms behind
      let value ← Session.evaluateAll e forms
      return (value, forms.length)) :=
    (Session.read_follows_recite e h).bind fun _ => .refl _
  exact (hscript.loading file.name).bind fun _ => .refl _

/-- An interpreter starts with the forms of the library. -/
def bootstrapForms (e : Engine) : Session Unit := do
  Session.ofEval installBuiltins
  Session.ofEval declareResults
  loadForms e Library.core.name Library.bareNames Library.coreForms Library.coreNames
  loadForms e Library.sequences.name Library.coreNames Library.sequenceForms Library.libraryNames
  Session.ofEval enterUser

theorem loadFiles_eq (e : Engine) :
    Library.files.forM (loadFile e) = (do
      loadFile e Library.core
      loadFile e Library.sequences) := by
  rw [Library.files, List.forM_eq_forM, List.forM_cons, List.forM_cons, List.forM_nil, bind_pure_unit]

theorem bootstrap_follows (e : Engine) {config : Config} (h : config.library = true) :
    (bootstrap e config).Follows (bootstrapForms e) := by
  have hfiles : bootstrap e config = (do
      Session.ofEval installBuiltins
      Session.ofEval declareResults
      loadFile e Library.core
      loadFile e Library.sequences
      Session.ofEval enterUser) := by
    rw [bootstrap, if_pos h, loadFiles_eq]
    simp only [bind_assoc]
  have hcore := loadFile_follows e Library.files_read.1
  have hsequences := loadFile_follows e Library.files_read.2
  rw [hfiles]
  exact .bind (.refl _) fun _ => .bind (.refl _) fun _ => .bind hcore fun _ =>
    .bind hsequences fun _ => .refl _

end Interpreter

/-! Comparing code. -/

def Clause.sameCode (c d : Clause) : Bool :=
  c.params == d.params && c.rest == d.rest && Value.allSameCode c.body d.body

theorem Clause.eq_of_sameCode {c d : Clause} (h : c.sameCode d = true) : c = d := by
  obtain ⟨params, rest, body⟩ := c
  obtain ⟨params', rest', body'⟩ := d
  simp only [Clause.sameCode, Bool.and_eq_true, beq_iff_eq] at h
  obtain ⟨⟨rfl, rfl⟩, hbody⟩ := h
  rw [Value.eq_of_allSameCode _ _ hbody]

def Clause.allSameCode : List Clause → List Clause → Bool
  | [], [] => true
  | c :: cs, d :: ds => c.sameCode d && Clause.allSameCode cs ds
  | _, _ => false

theorem Clause.eq_of_allSameCode {cs ds : List Clause} (h : Clause.allSameCode cs ds = true) :
    cs = ds := by
  induction cs generalizing ds with
  | nil =>
    cases ds with
    | nil => rfl
    | cons d ds => cases h
  | cons c cs ih =>
    cases ds with
    | nil => cases h
    | cons d ds =>
      obtain ⟨hc, hcs⟩ := Bool.and_eq_true_iff.1 h
      rw [Clause.eq_of_sameCode hc, ih hcs]

def Closure.sameCode (c d : Closure) : Bool :=
  c.name == d.name && Clause.allSameCode c.fixed d.fixed &&
    Clause.allSameCode c.variadic.toList d.variadic.toList && c.scope == d.scope

theorem Closure.eq_of_sameCode {c d : Closure} (h : c.sameCode d = true) : c = d := by
  obtain ⟨name, fixed, variadic, scope⟩ := c
  obtain ⟨name', fixed', variadic', scope'⟩ := d
  simp only [Closure.sameCode, Bool.and_eq_true, beq_iff_eq] at h
  obtain ⟨⟨⟨rfl, hfixed⟩, hvariadic⟩, rfl⟩ := h
  have hvariadic : variadic = variadic' := by
    have hlists := Clause.eq_of_allSameCode hvariadic
    cases variadic <;> cases variadic' <;> simp_all
  rw [Clause.eq_of_allSameCode hfixed, hvariadic]

namespace Interpreter
open Library

/-! What a new interpreter knows. -/

def knowsEntry (w : World) (e : Entry) : Bool :=
  w.names.find? e.text == some e.name && match w.global? (.plain e.name) with
    | some (.function id) => !e.isMacro && (w.closures[id]?).any e.closure.sameCode
    | some (.transformer id) => e.isMacro && (w.closures[id]?).any e.closure.sameCode
    | _ => false

def knowsBuiltin (w : World) (b : Builtin) : Bool :=
  w.names.find? b.text == some b.nameId && match w.global? (.plain b.nameId) with
    | some (.builtin b') => b' == b
    | _ => false

theorem eq_of_any_sameCode {w : World} {id : ClosureId} {c : Closure}
    (h : (w.closures[id]?).any c.sameCode = true) : w.closures[id]? = some c := by
  obtain ⟨d, hd, hsame⟩ := (Option.any_eq_true _ _).1 h
  rw [hd, Closure.eq_of_sameCode hsame]

theorem knowsEntry_sound {w : World} {e : Entry} (h : knowsEntry w e = true) :
    w.names.find? e.text = some e.name ∧ ∃ id, w.global? (.plain e.name) = some (e.value id) ∧
      w.closures[id]? = some e.closure := by
  obtain ⟨hname, hvalue⟩ := Bool.and_eq_true_iff.1 h
  refine ⟨beq_iff_eq.1 hname, ?_⟩
  split at hvalue
  · rename_i id hglobal
    obtain ⟨hkind, hcode⟩ := Bool.and_eq_true_iff.1 hvalue
    refine ⟨id, ?_, eq_of_any_sameCode hcode⟩
    rw [hglobal, Entry.value, if_neg (by simpa using hkind)]
  · rename_i id hglobal
    obtain ⟨hkind, hcode⟩ := Bool.and_eq_true_iff.1 hvalue
    refine ⟨id, ?_, eq_of_any_sameCode hcode⟩
    rw [hglobal, Entry.value, if_pos hkind]
  · cases hvalue

theorem knowsBuiltin_sound {w : World} {b : Builtin} (h : knowsBuiltin w b = true) :
    w.names.find? b.text = some b.nameId ∧ w.global? (.plain b.nameId) = some (.builtin b) := by
  obtain ⟨hname, hvalue⟩ := Bool.and_eq_true_iff.1 h
  refine ⟨beq_iff_eq.1 hname, ?_⟩
  split at hvalue
  · rename_i b' hglobal
    rw [hglobal, beq_iff_eq.1 hvalue]
  · cases hvalue

/-! Starting within other budgets and with other tracing. -/

section
variable {n m : Nat} {config : Config} {w : World}

theorem start_mono (hnm : n ≤ m) (h : start (.ofBudget n) config = .ok w) :
    start (.ofBudget m) config = .ok w := by
  have hends := paired_bootstrap (κ := .same) rfl (fun _ _ _ _ => .intro) (fun _ _ _ _ => .intro)
    (Engine.ofBudget_tied hnm) config (World.blank config.log) (.intro : Unrelated w _)
  rw [start_eq_ok h] at hends
  unfold start
  generalize hrun : bootstrap (.ofBudget m) config (World.blank config.log) = r
  rw [show (World.blank config.log).seen .same = World.blank config.log from rfl, hrun] at hends
  cases hends
  rfl

theorem blank_scoped (log : LogDomains) : (World.blank log).Scoped where
  parent_lt _ _ _ hf := by simp [World.blank] at hf
  closure _ _ hc := by simp [World.blank] at hc

theorem start_scoped (h : start (.ofBudget n) config = .ok w) : w.Scoped := by
  have htied : (Engine.ofBudget n).Tied id ScopedSince World.Has (.ofBudget n) :=
    scopedSince_coupling.tied scopedSince_defining (Nat.le_refl n)
  have hpaired : Session.Paired (.ofCurrent id) (ScopedSince (World.blank config.log))
      (bootstrap (.ofBudget n) config) (bootstrap (.ofBudget n) config) := by
    refine paired_bootstrap rfl (fun base w spaces hw => ?_) (fun base w ns hw => ?_) htied config
    · exact hw.of_eq rfl rfl
    · exact hw.of_eq rfl rfl
  have hends := hpaired _ ⟨Nat.le_refl _, blank_scoped config.log⟩
  rw [start_eq_ok h] at hends
  generalize bootstrap (.ofBudget n) config _ = r at hends
  cases hends with
  | ok hw => exact hw.wellFormed

/-- A quiet start is a start within every larger budget, whatever is traced. -/
theorem start_of_quiet (hnm : n ≤ m)
    (h : bootstrap (Quiet.engine n) config (World.blank .all) = .ok () w) :
    start (.ofBudget m) config = .ok (w.tracedWith config.log) := by
  have hengines : (Quiet.engine n).Paired (.tracing config.log) AllTraced (fun _ _ => True)
      (.ofBudget m) :=
    ⟨allTraced_invariant.toCoupling, hnm, fun _ r _ => Quiet.run_paired rfl
      allTraced_invariant.toDefining allTraced_invariant.toCoupling hnm r trivial⟩
  have hpaired : Session.Paired _ (AllTraced w) _ _ :=
    paired_bootstrap rfl (fun _ _ _ hw => hw) (fun _ _ _ hw => hw) hengines config
  have hends := hpaired (World.blank .all) rfl
  rw [h, seen_tracing config.log rfl] at hends
  unfold start
  generalize hrun : bootstrap (.ofBudget m) config (World.blank config.log) = r
  rw [show (World.blank .all).tracedWith config.log = World.blank config.log from rfl, hrun] at hends
  cases hends with
  | ok hw =>
    rw [seen_tracing config.log hw]

end

/-! The start itself. -/

/-- What a source comes to: a value, with this output, or an error. -/
inductive Ending
  | value (v : Value) (output : String)
  | error (err : EvalError)

def Ending.isReached : Ending → EStateM.Result Failure World Value → Bool
  | value v output, .ok x w => v.sameCode x && w.output == output
  | error err, .error (.eval e) _ => err == e
  | _, _ => false

namespace Ending
variable {r : EStateM.Result Failure World Value}

theorem value_of_isReached {v : Value} {output : String}
    (h : (value v output).isReached r = true) : ∃ w, r = .ok v w ∧ w.output = output := by
  unfold isReached at h
  split at h
  · rename_i heq
    cases heq
    obtain ⟨hvalue, houtput⟩ := Bool.and_eq_true_iff.1 h
    exact ⟨_, by rw [Value.eq_of_sameCode _ _ hvalue], beq_iff_eq.1 houtput⟩
  · rename_i heq
    cases heq
  · cases h

theorem error_of_isReached {err : EvalError} (h : (error err).isReached r = true) :
    ∃ w, r = .error (.eval err) w := by
  unfold isReached at h
  split at h
  · rename_i heq
    cases heq
  · rename_i heq
    cases heq
    exact ⟨_, by rw [beq_iff_eq.1 h]⟩
  · cases h

end Ending

/-- Sources that start from the library, and what they come to. -/
def samples : List (String × Ending) :=
  [("(if (deref #'when) 1 2)", .value (.int 1) ""),
   ("(and (deref #'when) 2)", .error (.macroAsValue "when")),
   ("(count (list (deref #'when)))", .value (.int 1) ""),
   ("(count (reverse (list (deref #'when))))", .error (.macroAsValue "when")),
   ("(first (range 9223372036854775806 9223372036854775807 2))", .error (.overflow "+")),
   ("(first (iterate (fn [x] (println x) x) 1))", .value (.int 1) "1\n")]

theorem start_of_bootstrap {e : Engine} {config : Config} {w : World}
    (h : bootstrap e config (World.blank config.log) = .ok () w) : start e config = .ok w := by
  unfold start
  generalize hrun : bootstrap e config (World.blank config.log) = r at h ⊢
  rw [h]

/-- All entries and builtins are known behind a start. -/
def isStocked (r : EStateM.Result Failure World Unit) : Bool :=
  match r with
  | .ok _ w => w.attached && Entry.all.all (knowsEntry w) && Builtin.all.all (knowsBuiltin w)
  | .error _ _ => false

/-- The sources come to what is expected of them behind a start. -/
def meets (samples : List (String × Ending)) (r : EStateM.Result Failure World Unit) : Bool :=
  match r with
  | .ok _ w => samples.all fun p => p.2.isReached (Session.evalSource (.ofBudget 60) p.1 w)
  | .error _ _ => false

theorem isStocked_sound {r : EStateM.Result Failure World Unit} (h : isStocked r = true) :
    ∃ w, r = .ok () w ∧ w.attached = true ∧ (∀ e, knowsEntry w e = true) ∧
      ∀ b ∈ Builtin.all, knowsBuiltin w b = true := by
  cases r with
  | error f w => cases h
  | ok _ w =>
    simp only [isStocked, Bool.and_eq_true, List.all_eq_true] at h
    obtain ⟨⟨hattached, hentries⟩, hbuiltins⟩ := h
    exact ⟨w, rfl, hattached, fun e => hentries e e.mem_all, hbuiltins⟩

theorem meets_sound {samples : List (String × Ending)} {r : EStateM.Result Failure World Unit}
    (h : meets samples r = true) : ∃ w, r = .ok () w ∧ ∀ p ∈ samples,
      p.2.isReached (Session.evalSource (.ofBudget 60) p.1 w) = true := by
  cases r with
  | error f w => cases h
  | ok _ w => exact ⟨w, rfl, List.all_eq_true.1 h⟩

-- the two runs are checked one after the other, each with the memory to itself
theorem runs_checked : isStocked (bootstrapForms (Quiet.engine 60) (World.blank .all)) = true ∧
    meets samples (bootstrapForms (.ofBudget 60) (World.blank {})) = true :=
  ⟨by decide +kernel, by decide +kernel⟩

/-- What holds of the state that the library leaves behind. -/
theorem quiet_start (config : Config) (hlibrary : config.library = true) :
    ∃ w, bootstrap (Quiet.engine 60) config (World.blank .all) = .ok () w ∧ w.attached = true ∧
      (∀ e, knowsEntry w e = true) ∧ ∀ b ∈ Builtin.all, knowsBuiltin w b = true := by
  obtain ⟨w, hrun, hknown⟩ := isStocked_sound runs_checked.1
  exact ⟨w, bootstrap_follows _ hlibrary _ _ _ hrun, hknown⟩

section
variable {n : Nat} {config : Config} {w : World}

/-- All starts with the library leave the same behind, apart from what is traced. -/
theorem started_eq (hlibrary : config.library = true) (h : start (.ofBudget n) config = .ok w) :
    ∃ v, w = v.tracedWith config.log ∧ v.attached = true ∧ (∀ e, knowsEntry v e = true) ∧
      ∀ b ∈ Builtin.all, knowsBuiltin v b = true := by
  obtain ⟨v, hrun, hattached, hentries, hbuiltins⟩ := quiet_start config hlibrary
  have hmore := start_mono (Nat.le_max_left n 60) h
  rw [start_of_quiet (Nat.le_max_right n 60) hrun] at hmore
  cases hmore
  exact ⟨v, rfl, hattached, hentries, hbuiltins⟩

/-- A new interpreter with the library can use all of it. -/
theorem started_ready (hlibrary : config.library = true)
    (h : start (.ofBudget n) config = .ok w) : w.Ready := by
  obtain ⟨v, rfl, hattached, hentries, hbuiltins⟩ := started_eq hlibrary h
  refine ⟨hattached, ⟨fun e _ => (knowsEntry_sound (hentries e)).2, fun b hb => ?_⟩, start_scoped h⟩
  exact (knowsBuiltin_sound (hbuiltins b hb)).2

end

/-- In a new interpreter, the samples come to what they are expected to come to. -/
theorem samples_reached : ∃ w, start (.ofBudget 60) {} = .ok w ∧ ∀ p ∈ samples,
    p.2.isReached (Session.evalSource (.ofBudget 60) p.1 w) = true := by
  obtain ⟨w, hrun, hreached⟩ := meets_sound runs_checked.2
  exact ⟨w, start_of_bootstrap (bootstrap_follows _ rfl _ _ _ hrun), hreached⟩

end Interpreter
end LazyLisp
