import LazyLisp.Proofs.Tracing

/-!
Sessions under different tracing. A session is a list of commands given to an interpreter one after
the other; a command that fails leaves the state it came to, and the next one goes on from there. If
a quiet session gets through, then the same commands give the same replies whatever is traced, and
what they leave behind differs in the traced events only.
-/

namespace LazyLisp
set_option autoImplicit false

/-- The budget of steps is used up, perhaps while a file of the library loads. -/
def Failure.isExhausted : Failure → Bool
  | read _ => false
  | eval _ => false
  | load _ cause => cause.isExhausted
  | exhausted => true

namespace Session

/-- The end of a session and the end of the one beside it. Nothing is said about the second where
the first is out of budget. -/
inductive Ends (κ : View) (Q : World → Prop) {α : Type} :
    EStateM.Result Failure World α → EStateM.Result Failure World α → Prop
  | ok {a : α} {w : World} : Q w → Ends κ Q (.ok a w) (.ok a (w.seen κ))
  | error {f : Failure} {w : World} : Q w → Ends κ Q (.error f w) (.error f (w.seen κ))
  | exhausted {f : Failure} {w : World} {r : EStateM.Result Failure World α} :
    f.isExhausted = true → Ends κ Q (.error f w) r

def Paired (κ : View) (Q : World → Prop) {α : Type} (m m' : Session α) : Prop :=
  ∀ w, Q w → Ends κ Q (m w) (m' (w.seen κ))

namespace Paired
variable {κ : View} {Q : World → Prop} {α β : Type}

theorem pure (a : α) : Paired κ Q (pure a) (pure a) := fun _ h => .ok h

theorem throw (f : Failure) : Paired κ Q (throw f : Session α) (throw f) := fun _ h => .error h

theorem bind {m m' : Session α} {f f' : α → Session β} (hm : Paired κ Q m m')
    (hf : ∀ a, Paired κ Q (f a) (f' a)) : Paired κ Q (m >>= f) (m' >>= f') := by
  intro w hw
  have hends := hm w hw
  rw [run_bind, run_bind]
  generalize m w = r, m' (w.seen κ) = r' at hends ⊢
  cases hends with
  | ok hv => exact hf _ _ hv
  | error hv => exact .error hv
  | exhausted hexhausted => exact .exhausted hexhausted

theorem ofEval {m m' : Eval α} (hm : LazyLisp.Paired κ Q m m') :
    Paired κ Q (ofEval m) (ofEval m') := by
  intro w hw
  have hends := hm w hw
  unfold Session.ofEval
  generalize m w = r, m' (w.seen κ) = r' at hends ⊢
  cases hends with
  | ok hv => exact .ok hv
  | error hv => exact .error hv
  | exhausted => exact .exhausted rfl

theorem loading {m m' : Session α} (file : String) (hm : Paired κ Q m m') :
    Paired κ Q (loading file m) (loading file m') := by
  intro w hw
  have hends := hm w hw
  unfold Session.loading
  generalize m w = r, m' (w.seen κ) = r' at hends ⊢
  cases hends with
  | ok hv => exact .ok hv
  | error hv => exact .error hv
  | exhausted hexhausted => exact .exhausted hexhausted

theorem modify {f : World → World} (h : ∀ w, Q w → Q (f w))
    (hκ : ∀ w, f (w.seen κ) = (f w).seen κ) : Paired κ Q (modify f : Session Unit) (modify f) := by
  intro w hw
  rw [run_modify, run_modify, hκ]
  exact .ok (h w hw)

theorem forM {f f' : α → Session Unit} {xs : List α} (hf : ∀ x, Paired κ Q (f x) (f' x)) :
    Paired κ Q (xs.forM f) (xs.forM f') := by
  induction xs with
  | nil => exact .pure _
  | cons x xs ih => exact .bind (hf x) fun _ => ih

theorem foldlM {f f' : β → α → Session β} {xs : List α} {b : β}
    (hf : ∀ b x, Paired κ Q (f b x) (f' b x)) : Paired κ Q (xs.foldlM f b) (xs.foldlM f' b) := by
  induction xs generalizing b with
  | nil => exact .pure b
  | cons x xs ih =>
    rw [List.foldlM_cons, List.foldlM_cons]
    exact .bind (hf b x) fun _ => ih

end Paired

/-! The operations of an interpreter. -/

section
variable {κ : View} {P : World → World → Prop} {fits : World → Scope → Prop} {base : World}
  {e e' : Engine}

theorem paired_read (h : e.Paired κ P fits e') (source : String) :
    Paired κ (P base) (read e source) (read e' source) := by
  refine .bind (.ofEval (h.readSource source)) fun r => ?_
  cases r with
  | ok forms => exact .pure _
  | error err => exact .throw _

theorem paired_evaluate (h : e.Paired κ P fits e') (form : Value) :
    Paired κ (P base) (evaluate e form) (evaluate e' form) :=
  .ofEval (h.value (h.coupling.fits_none base) form)

theorem paired_runScript (h : e.Paired κ P fits e') (source : String) :
    Paired κ (P base) (runScript e source) (runScript e' source) := by
  refine .bind (paired_read h source) fun forms => ?_
  exact .bind (.foldlM fun _ form => paired_evaluate h form) fun _ => .pure _

theorem paired_evalSource (h : e.Paired κ P fits e') (source : String) :
    Paired κ (P base) (evalSource e source) (evalSource e' source) :=
  .bind (paired_runScript h source) fun _ => .pure _

variable (hspaces : ∀ base w spaces, P base w → P base { w with spaces := spaces })
include hspaces

theorem paired_record (value : Value) : Paired κ (P base) (record value) (record value) := by
  refine .modify (fun w hw => ?_) fun w => ?_
  · dsimp only
    split
    · exact hspaces base w _ hw
    · exact hw
  · have hwspaces : (w.seen κ).spaces = w.spaces := rfl
    dsimp only
    rw [hwspaces]
    split
    · rfl
    · rfl

theorem paired_recordAll (h : e.Paired κ P fits e') (source : String) :
    Paired κ (P base) (recordAll e source) (recordAll e' source) := by
  refine .bind (paired_read h source) fun forms => .foldlM fun _ form => ?_
  refine .bind (paired_evaluate h form) fun v => ?_
  exact .bind (paired_record hspaces v) fun _ => .pure _

end
end Session

namespace Interpreter
variable {κ : View} {P : World → World → Prop} {fits : World → Scope → Prop} {base : World}
  {e e' : Engine}

theorem paired_loadFile (h : e.Paired κ P fits e') (file : Library.File) :
    Session.Paired κ (P base) (loadFile e file) (loadFile e' file) := by
  refine .bind (.loading file.name (Session.paired_runScript h file.source)) fun p => ?_
  -- that a file was loaded is noted whatever is traced
  exact .ofEval fun w hw => h.coupling.note_ends hw (.loaded file.name p.2)

variable (hκ : κ.current = id)
  (hspaces : ∀ base w spaces, P base w → P base { w with spaces := spaces })
include hκ hspaces

theorem paired_installBuiltins (h : Coupling P fits) :
    Paired κ (P base) installBuiltins installBuiltins := by
  refine .forM fun b => .bind (h.intern b.text) fun name => ?_
  exact .bind (paired_define hκ (hspaces base) name _) fun _ => .pure _

theorem paired_declareResults : Paired κ (P base) declareResults declareResults :=
  .forM fun name => .bind (paired_declare hκ (hspaces base) name) fun _ => .pure _

theorem paired_enterUser (hcurrent : ∀ base w ns, P base w → P base { w with current := ns }) :
    Paired κ (P base) enterUser enterUser := by
  refine .bind (.modify (fun w hw => hspaces base w _ hw) fun _ => rfl) fun _ => ?_
  refine .bind (paired_refer (hspaces base) _ _) fun _ => ?_
  refine .modify (fun w hw => hcurrent base w _ hw) fun w => ?_
  simp only [World.seen, hκ, id]

theorem paired_bootstrap (hcurrent : ∀ base w ns, P base w → P base { w with current := ns })
    (h : e.Paired κ P fits e') (config : Config) :
    Session.Paired κ (P base) (bootstrap e config) (bootstrap e' config) := by
  have henter : Session.Paired κ (P base) (Session.ofEval enterUser) (Session.ofEval enterUser) :=
    .ofEval (paired_enterUser hκ hspaces hcurrent)
  refine .bind (.ofEval (paired_installBuiltins hκ hspaces h.coupling)) fun _ => ?_
  refine .bind (.ofEval (paired_declareResults hκ hspaces)) fun _ => ?_
  split
  · exact .bind (.forM (paired_loadFile h)) fun _ => henter
  · exact henter

end Interpreter

/-! Sessions as lists of commands. -/

inductive Command
  /-- Fill `core`, with or without the library, and enter `user`. -/
  | boot (library : Bool)
  | eval (source : String)
  | run (source : String)
  | record (source : String)
  | evaluate (form : Value)

inductive Reply
  | done
  | value (v : Value)
  /-- The last value of a source and the number of its forms. -/
  | script (v : Value) (forms : Nat)

def Command.perform (e : Engine) : Command → Session Reply
  | boot library => do
    Interpreter.bootstrap e { library := library }
    return .done
  | eval source => return .value (← Session.evalSource e source)
  | run source => do
    let (v, forms) ← Session.runScript e source
    return .script v forms
  | record source => return .value (← Session.recordAll e source)
  | evaluate form => return .value (← Session.evaluate e form)

/-- Gives the commands to an interpreter in order: the replies, and the state behind the last. -/
def play (e : Engine) : List Command → World → List (Except Failure Reply) × World
  | [], w => ([], w)
  | c :: rest, w =>
    match c.perform e w with
    | .ok reply v => ((.ok reply :: (play e rest v).1), (play e rest v).2)
    | .error f v => ((.error f :: (play e rest v).1), (play e rest v).2)

/-- No command ran out of budget. -/
def Answered (replies : List (Except Failure Reply)) : Prop :=
  ∀ reply ∈ replies, (match reply with
    | .ok _ => false
    | .error f => f.isExhausted) = false

instance : DecidablePred Answered := fun replies =>
  inferInstanceAs (Decidable (∀ reply ∈ replies, _ = false))

section
variable {κ : View} {P : World → World → Prop} {fits : World → Scope → Prop} {base : World}
  {e e' : Engine} (hκ : κ.current = id)
  (hspaces : ∀ base w spaces, P base w → P base { w with spaces := spaces })
  (hcurrent : ∀ base w ns, P base w → P base { w with current := ns })
include hκ hspaces hcurrent

theorem Command.paired_perform (h : e.Paired κ P fits e') (c : Command) :
    Session.Paired κ (P base) (c.perform e) (c.perform e') := by
  cases c with
  | boot library =>
    exact .bind (Interpreter.paired_bootstrap hκ hspaces hcurrent h _) fun _ => .pure _
  | eval source => exact .bind (Session.paired_evalSource h source) fun _ => .pure _
  | run source => exact .bind (Session.paired_runScript h source) fun _ => .pure _
  | record source => exact .bind (Session.paired_recordAll hspaces h source) fun _ => .pure _
  | evaluate form => exact .bind (Session.paired_evaluate h form) fun _ => .pure _

/-- The same replies, and the state behind as the view has it. -/
theorem play_seen (h : e.Paired κ P fits e') (commands : List Command) {w : World} (hw : P base w)
    (hanswered : Answered (play e commands w).1) :
    play e' commands (w.seen κ) = ((play e commands w).1, (play e commands w).2.seen κ) ∧
      P base (play e commands w).2 := by
  induction commands generalizing w with
  | nil => exact ⟨rfl, hw⟩
  | cons c rest ih =>
    have hends := Command.paired_perform hκ hspaces hcurrent h c w hw
    simp only [play] at hanswered ⊢
    generalize c.perform e w = r, c.perform e' (w.seen κ) = r' at hends hanswered ⊢
    cases hends with
    | @ok reply v hv =>
      obtain ⟨hplay, hlast⟩ := ih hv fun reply hreply => hanswered reply (.tail _ hreply)
      exact ⟨by simp only [hplay], hlast⟩
    | @error f v hv =>
      obtain ⟨hplay, hlast⟩ := ih hv fun reply hreply => hanswered reply (.tail _ hreply)
      exact ⟨by simp only [hplay], hlast⟩
    | @exhausted f v r' hexhausted =>
      have hnot : f.isExhausted = false := hanswered (.error f) (.head _)
      rw [hexhausted] at hnot
      cases hnot

end

/-- Everything traced, no trace runs a thunk and no command runs out of budget. -/
def Quiet.Answers (n : Nat) (commands : List Command) (w : World) : Prop :=
  Answered (play (Quiet.engine n) commands (w.tracedWith .all)).1

instance (n : Nat) (commands : List Command) (w : World) : Decidable (Quiet.Answers n commands w) :=
  inferInstanceAs (Decidable (Answered _))

theorem tracedWith_all_seen (log : LogDomains) (w : World) :
    (w.tracedWith .all).seen (.tracing log) = w.tracedWith log := by
  have hall : LogDomains.all.shows = fun _ => true := by
    funext event
    cases event <;> rfl
  rw [seen_tracing log rfl]
  simp [World.tracedWith, hall]

/-- If the traces of a session need no thunk, then the replies, what is printed, the vars, the
namespaces and all else that is left behind do not depend on what is traced; of the events, those
are noted whose domain is. -/
theorem tracing_is_transparent (n : Nat) (commands : List Command) (w : World)
    (hquiet : Quiet.Answers n commands w) :
    ∃ (replies : List (Except Failure Reply)) (last : World), Answered replies ∧
      ∀ m ≥ n, ∀ log : LogDomains,
        play (.ofBudget m) commands (w.tracedWith log) = (replies, last.tracedWith log) := by
  refine ⟨_, (play (Quiet.engine n) commands (w.tracedWith .all)).2, hquiet, fun m hm log => ?_⟩
  have hengines : (Quiet.engine n).Paired (.tracing log) AllTraced (fun _ _ => True)
      (.ofBudget m) :=
    ⟨allTraced_invariant.toCoupling, hm, fun _ r _ =>
      Quiet.run_paired rfl allTraced_invariant.toDefining allTraced_invariant.toCoupling hm r trivial⟩
  have hall : AllTraced w (w.tracedWith .all) := rfl
  obtain ⟨hplay, hlast⟩ := play_seen rfl (fun _ _ _ h => h) (fun _ _ _ h => h) hengines commands hall
    hquiet
  rw [tracedWith_all_seen, seen_tracing log hlast] at hplay
  exact hplay

/-- `(def *1 1)`, `(println *1)` and `&`, of which the last fails. -/
def quietProgram : List Command :=
  [.evaluate (.list [.special .define, .symbol (.plain Names.result1), .int 1]),
   .evaluate (.list [.builtin .println, .symbol (.plain Names.result1)]),
   .evaluate (.symbol (.plain Names.ampersand))]

theorem quietProgram_answers : Quiet.Answers 9 quietProgram (World.blank .all) := by
  decide +kernel

theorem tracing_is_transparent_program :
    Quiet.Answers 9 quietProgram (World.blank .all) ∧
    ∃ (replies : List (Except Failure Reply)) (last : World), Answered replies ∧
      ∀ m ≥ 9, ∀ log : LogDomains,
        play (.ofBudget m) quietProgram (World.blank log) = (replies, last.tracedWith log) :=
  ⟨quietProgram_answers,
    tracing_is_transparent 9 quietProgram (World.blank .all) quietProgram_answers⟩

/-- `(eval (list 'if true 1 (lazy-seq* (fn [] (println "x") nil))))`. -/
def lazyBranch : Value :=
  .list [.builtin .eval, .list [.builtin .list, .list [.special .quote, .special .ifElse],
    .bool true, .int 1,
    .list [.builtin .lazySeq, .list [.special .lambda, .vector [],
      .list [.builtin .println, .string "x"], .nil]]]]

/-- Tracing the list prints `x`, which the program does not. -/
theorem tracing_prints :
    ¬ ∀ (n : Nat) (commands : List Command) (log log' : LogDomains),
      Answered (play (.ofBudget n) commands (World.blank log)).1 →
      Answered (play (.ofBudget n) commands (World.blank log')).1 →
      (play (.ofBudget n) commands (World.blank log)).2.output =
        (play (.ofBudget n) commands (World.blank log')).2.output := by
  intro h
  have hsame := h 20 [.evaluate lazyBranch] .none .all (by decide +kernel) (by decide +kernel)
  revert hsame
  decide +kernel

end LazyLisp
