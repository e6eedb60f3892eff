import LazyLisp.Proofs.Scoping

/-!
What closures see of the bindings of a `let` or a `loop`. All bindings of one vector go into one
frame, and a closure that is made on the way keeps that frame. So it sees the bindings that come
after it as well, once they are made.
-/

namespace LazyLisp
set_option autoImplicit false

section
variable {frame : FrameId} {w v u : World} {pushed more : List (Symbol × Value)}

theorem Extends.trans (h : Extends frame pushed w.frames v.frames)
    (h' : Extends frame more v.frames u.frames) :
    Extends frame (pushed ++ more) w.frames u.frames where
  own f hf := by
    rw [h'.own _ (h.own f hf), List.append_assoc]
  others id f hid hf := h'.others id f hid (h.others id f hid hf)

theorem frames_push (w : World) (frame : FrameId) (s : Symbol) (x : Value) :
    ((Eval.push frame s x).after w).frames = w.frames.modify frame (·.push s x) :=
  rfl

theorem extends_push (w : World) (frame : FrameId) (s : Symbol) (x : Value) :
    Extends frame [(s, x)] w.frames ((Eval.push frame s x).after w).frames where
  own f hf := by
    rw [frames_push, Array.getElem?_modify, if_pos rfl, hf]
    rfl
  others id f hid hf := by
    rw [frames_push, Array.getElem?_modify, if_neg (Ne.symm hid), hf]

end

namespace Evaluation

/-- A stretch of a binding vector: the symbols with the forms of their values, and the bindings that
were made of them. -/
inductive Binds (e : Engine) (frame : FrameId) :
    World → List (Symbol × Value) → List (Symbol × Value) → World → Prop
  | none (w : World) : Binds e frame w [] [] w
  | one {w between current : World} {s : Symbol} {form v : Value}
    {forms made : List (Symbol × Value)} : e.value (some frame) form w = .ok v between →
    Binds e frame ((Eval.push frame s v).after between) forms made current →
    Binds e frame w ((s, form) :: forms) ((s, v) :: made) current

namespace Binds
variable {e : Engine} {frame : FrameId} {w current : World} {forms made : List (Symbol × Value)}

theorem bindAll_eq (h : Binds e frame w forms made current) (rest : List (Symbol × Value)) :
    bindAll e frame (forms ++ rest) w = bindAll e frame rest current := by
  induction h with
  | none => rfl
  | one hvalue _ ih => exact (run_bind_ok hvalue _).trans ih

theorem append {v : World} {forms' made' : List (Symbol × Value)} (h : Binds e frame w forms made v)
    (h' : Binds e frame v forms' made' current) :
    Binds e frame w (forms ++ forms') (made ++ made') current := by
  induction h with
  | none => exact h'
  | one hvalue _ ih => exact .one hvalue (ih h')

theorem symbols_eq (h : Binds e frame w forms made current) :
    made.map (·.1) = forms.map (·.1) := by
  induction h with
  | none => rfl
  | one _ _ ih => rw [List.map_cons, List.map_cons, ih]

theorem extended (hkeeps : e.Keeps KeepsFrames) (h : Binds e frame w forms made current) :
    Extends frame made w.frames current.frames := by
  induction h with
  | none w => exact (KeepsFrames.refl w).extended frame
  | @one _ between _ s _ v _ _ hvalue _ ih =>
    have hkept := keepsFrames_of_ok (fun _ => hkeeps.value _ _) hvalue
    exact ((hkept.extended frame).trans (extends_push between frame s v)).trans ih

theorem wellFormed {n : Nat} {base : World} (h : Binds (.ofBudget n) frame w forms made current)
    (hframe : base.Has (some frame)) (hw : ScopedSince base w) : ScopedSince base current := by
  induction h with
  | none => exact hw
  | one hvalue _ ih => exact ih ((value_scoped hframe hw hvalue).modifyFrame frame fun _ => rfl)

end Binds

/-- A call's own frame is passed by the look-ups of symbols that it does not bind. -/
theorem boundFrame_lookup (w : World) (parent : Scope) {bindings : List (Symbol × Value)}
    {s : Symbol} (hs : s ∉ bindings.map (·.1)) :
    ∃ w', boundFrame parent bindings w = .ok w.frames.size w' ∧ KeepsFrames w w' ∧
      w'.frames.size = w.frames.size + 1 ∧
      ∀ u n, KeepsFrames w' u → World.lookupFrames u.frames s (n + 1) (some w.frames.size) =
        World.lookupFrames u.frames s n parent := by
  obtain ⟨w', hrun, hkeeps, hsize, hfilled⟩ := boundFrame_run w parent bindings
  refine ⟨w', hrun, hkeeps, hsize, fun u n hu => ?_⟩
  rw [World.lookupFrames_succ (hu.getElem? hfilled), Frame.lookup?_eq_none hs]
  rfl

theorem callFrame_lookup (w : World) {c : Closure} {clause : Clause} {s : Symbol}
    (hfree : s ∉ ownSymbols c clause) (self : Value) (args : List Value) :
    ∃ call started, callFrame c self (clause.bindings args) w = .ok call started ∧
      KeepsFrames w started ∧
      started.lookupScope? (some call) s =
        World.lookupFrames started.frames s w.frames.size c.scope := by
  have hbindings : s ∉ (clause.bindings args).map (·.1) := by
    intro h
    rcases mem_bindings h with h | h
    · exact hfree (by simp [ownSymbols, h])
    · exact hfree (by simp only [ownSymbols, List.mem_append, h, or_true])
  rw [callFrame_eq]
  cases hname : c.name with
  | none =>
    obtain ⟨started, hrun, hkeeps, hsize, hpass⟩ := boundFrame_lookup w c.scope hbindings
    refine ⟨_, started, hrun, hkeeps, ?_⟩
    rw [World.lookupScope?, hsize, hpass started _ (.refl started)]
  | some name =>
    have hself : s ∉ [(Symbol.plain name.name, self)].map (·.1) := by
      intro h
      rw [List.map_cons, List.map_nil, List.mem_singleton] at h
      exact hfree (by simp [ownSymbols, hname, h])
    obtain ⟨between, houter, hkeeps, hsize, hpass⟩ := boundFrame_lookup w c.scope hself
    obtain ⟨started, hrun, hkeeps', hsize', hpass'⟩ :=
      boundFrame_lookup between (some w.frames.size) hbindings
    refine ⟨_, started, (run_bind_ok houter _).trans hrun, hkeeps.trans hkeeps', ?_⟩
    rw [World.lookupScope?, hsize', hpass' started _ (.refl started), hsize,
      hpass started _ hkeeps']

/-- A `let` or a `loop` goes on with the rest of its vector from wherever its bindings have come
to. -/
theorem letIn_eq_of_binds {e : Engine} {w current : World} {scope : Scope} {items body : List Value}
    {forms made rest : List (Symbol × Value)}
    (h : Binds e w.frames.size ((Eval.newFrame scope).after w) forms made current) :
    (bindingPairs "let" (some (.vector items)) w = .ok (forms ++ rest) w →
      letIn e scope (.vector items :: body) w = (do
        bindAll e w.frames.size rest
        Evaluation.body e (some w.frames.size) body) current) ∧
    (bindingPairs "loop" (some (.vector items)) w = .ok (forms ++ rest) w →
      looping e scope (.vector items :: body) w = (do
        bindAll e w.frames.size rest
        return .value (← rounds e w.frames.size (forms ++ rest).length body e.bound) :
          Eval Outcome) current) := by
  have hnew : Eval.newFrame scope w = .ok w.frames.size ((Eval.newFrame scope).after w) := rfl
  constructor
  · intro hpairs
    rw [letIn, List.head?_cons, run_bind_ok hpairs, run_bind_ok hnew, run_bind, h.bindAll_eq,
      run_bind]
    rfl
  · intro hpairs
    rw [looping, List.head?_cons, run_bind_ok hpairs, run_bind_ok hnew, run_bind, h.bindAll_eq,
      run_bind]
    rfl

end Evaluation

open Evaluation

section
variable {n : Nat} {w atForm made current later : World} {scope : Scope}
  {before earlier between newer : List (Symbol × Value)} {name : Symbol} {form x : Value}

theorem newFrame_scoped (hw : w.Scoped) (hscope : w.Has scope) :
    ScopedSince ((Eval.newFrame scope).after w) ((Eval.newFrame scope).after w) :=
  ⟨Nat.le_refl _, hw.pushFrame hscope⟩

theorem newFrame_keeps (w : World) (scope : Scope) :
    KeepsFrames w ((Eval.newFrame scope).after w) :=
  (KeepsFrames.refl w).push { parent := scope }

theorem newFrame_has (w : World) (scope : Scope) :
    ((Eval.newFrame scope).after w).Has (some w.frames.size) := by
  have hframes : ((Eval.newFrame scope).after w).frames = w.frames.push { parent := scope } := rfl
  rintro _ ⟨rfl⟩
  rw [hframes, Array.size_push]
  exact Nat.lt_succ_self _

theorem made_scoped (hw : w.Scoped) (hscope : w.Has scope)
    (hbefore : Binds (.ofBudget n) w.frames.size ((Eval.newFrame scope).after w) before earlier
      atForm)
    (hform : (Engine.ofBudget n).value (some w.frames.size) form atForm = .ok x made) :
    made.Scoped := by
  have hstart := newFrame_has w scope
  have hatForm := hbefore.wellFormed hstart (newFrame_scoped hw hscope)
  exact (value_scoped hstart hatForm hform).wellFormed

/-- What is visible at a form of the vector: the bindings before it, then the enclosing scope. -/
theorem lookupScope?_at_form (hw : w.Scoped) (hscope : w.Has scope)
    (hbefore : Binds (.ofBudget n) w.frames.size ((Eval.newFrame scope).after w) before earlier
      atForm)
    (hform : (Engine.ofBudget n).value (some w.frames.size) form atForm = .ok x made) {s : Symbol}
    {sc : Scope} (hcomes : Comes made.frames s w.frames.size sc) (hsc : made.Has sc) :
    made.lookupScope? sc s = (newest earlier s).or (w.lookupScope? scope s) := by
  have hkeeps := keepsFrames_invariant.keeps n
  have hform' := keepsFrames_of_ok (fun _ => hkeeps.value _ _) hform
  have hextends := (hbefore.extended hkeeps).trans (hform'.extended w.frames.size)
  rw [List.append_nil] at hextends
  have hempty : ((Eval.newFrame scope).after w).frames[w.frames.size]? = some { parent := scope } :=
    Array.getElem?_push_size
  have hlt : ∀ id, some w.frames.size = some id → id < w.frames.size + 1 := by
    rintro _ ⟨rfl⟩
    exact Nat.lt_succ_self _
  have hframe := (newFrame_scoped hw hscope).wellFormed.lookupFrames_extends (s := s) hextends
    (newFrame_has w scope) hlt hlt
  calc made.lookupScope? sc s
      = World.lookupFrames made.frames s (w.frames.size + 1) (some w.frames.size) :=
        hcomes.lookupFrames_eq (made_scoped hw hscope hbefore hform) hsc hsc (Nat.lt_succ_self _)
    _ = (newest earlier s).or (World.lookupFrames ((Eval.newFrame scope).after w).frames s
          (w.frames.size + 1) (some w.frames.size)) := hframe.1 .here
    _ = (newest earlier s).or (World.lookupFrames ((Eval.newFrame scope).after w).frames s
          w.frames.size scope) := by
        rw [World.lookupFrames_succ hempty]
        rfl
    _ = (newest earlier s).or (w.lookupScope? scope s) := by
        rw [hw.lookupFrames_keeps (newFrame_keeps w scope) hscope hscope hscope]
        rfl

/-- A closure that exists when a form of a binding vector has been evaluated sees, at every later
call and when it is forced as the thunk of a lazy sequence, the newest binding that the vector has
made since, if its look-up of the symbol comes to the frame of the vector. Otherwise, and for
symbols that the vector has not bound since, it sees what was visible at the form: the bindings
before it, then the enclosing scope. -/
theorem closures_see_later_bindings (hw : w.Scoped) (hscope : w.Has scope)
    (hbefore : Binds (.ofBudget n) w.frames.size ((Eval.newFrame scope).after w) before earlier
      atForm)
    (hform : (Engine.ofBudget n).value (some w.frames.size) form atForm = .ok x made)
    (hbetween : Binds (.ofBudget n) w.frames.size ((Eval.push w.frames.size name x).after made)
      between newer current) (hlater : KeepsFrames current later) :
    (∀ id c clause self args s, made.closures[id]? = some c → later.closures[id]? = some c →
      c.select? args.length = some clause → s ∉ ownSymbols c clause →
      ∃ call started, callFrame c self (clause.bindings args) later = .ok call started ∧
        (∀ e : Engine, invoke e id self args later =
          rounds e call clause.bindingCount clause.body e.bound started) ∧
        (Comes made.frames s w.frames.size c.scope → started.lookupScope? (some call) s =
          (newest ((name, x) :: newer) s).or (made.lookupScope? c.scope s)) ∧
        (¬ Comes made.frames s w.frames.size c.scope ∨ s ∉ name :: between.map (·.1) →
          started.lookupScope? (some call) s = made.lookupScope? c.scope s)) ∧
    (∀ m id, later.attached = true → Seq.produce (.ofBudget (m + 1)) (.function id) later =
      (invoke (.ofBudget m) id (.function id) [] >>= produced) later) ∧
    (∀ sc s, made.Has sc → Comes made.frames s w.frames.size sc →
      made.lookupScope? sc s = (newest earlier s).or (w.lookupScope? scope s)) ∧
    ∀ rest items body,
      (bindingPairs "let" (some (.vector items)) w =
          .ok (before ++ (name, form) :: between ++ rest) w →
        letIn (.ofBudget n) scope (.vector items :: body) w = (do
          bindAll (.ofBudget n) w.frames.size rest
          Evaluation.body (.ofBudget n) (some w.frames.size) body) current) ∧
      (bindingPairs "loop" (some (.vector items)) w =
          .ok (before ++ (name, form) :: between ++ rest) w →
        looping (.ofBudget n) scope (.vector items :: body) w = (do
          bindAll (.ofBudget n) w.frames.size rest
          return .value (← rounds (.ofBudget n) w.frames.size
            (before ++ (name, form) :: between ++ rest).length body n) :
            Eval Outcome) current) := by
  have hkeeps := keepsFrames_invariant.keeps n
  have hmade := made_scoped hw hscope hbefore hform
  -- of the frames that were there behind the form, only the vector's has grown since
  have hcurrent : Extends w.frames.size ((name, x) :: newer) made.frames current.frames :=
    (extends_push made w.frames.size name x).trans (hbetween.extended hkeeps)
  refine ⟨?_, fun m id hattached => produce_function hattached m id,
    fun sc s hsc hcomes => lookupScope?_at_form hw hscope hbefore hform hcomes hsc, ?_⟩
  · intro id c clause self args s hmadeC hc hclause hfree
    obtain ⟨call, started, hcall, hstarted, hlookup⟩ := callFrame_lookup later hfree self args
    have hextends := hcurrent.trans ((hlater.trans hstarted).extended w.frames.size)
    rw [List.append_nil] at hextends
    have hsc := hmade.closure id c hmadeC
    have hsize : made.frames.size ≤ later.frames.size := Nat.le_trans hcurrent.size_le hlater.grows
    have hboth := hmade.lookupFrames_extends (s := s) hextends hsc hsc (hsc.later hsize)
    refine ⟨call, started, hcall, fun e => invoke_eq hc hclause hcall e, fun hcomes => ?_,
      fun hfar => ?_⟩
    · rw [hlookup]
      exact hboth.1 hcomes
    · rw [hlookup]
      by_cases hcomes : Comes made.frames s w.frames.size c.scope
      · have hpushed : ((name, x) :: newer).map (·.1) = name :: between.map (·.1) := by
          rw [List.map_cons, hbetween.symbols_eq]
        have hnone := newest_eq_none (hpushed ▸ hfar.resolve_left (not_not_intro hcomes))
        exact (hboth.1 hcomes).trans (by rw [hnone, Option.none_or]; rfl)
      · exact hboth.2 hcomes
  · intro rest items body
    have hbinds := hbefore.append (.one hform hbetween)
    exact letIn_eq_of_binds hbinds

end

/-- The state in front of the form of `f` in `(let [x 1 f (fn [] x) x 2] (f))`, where 7 and 8 stand
for the names `x` and `f`. -/
def letBefore : World :=
  (bindAll (.ofBudget 9) 0 [(.plain 7, .int 1)]).after ((Eval.newFrame none).after {})

def letLambda : Value := .list [.special .lambda, .vector [], .symbol (.plain 7)]

/-- The state behind that form, in which the function has been made. -/
def letMade : World := ((Engine.ofBudget 9).value (some 0) letLambda).after letBefore

/-- The state behind the whole vector. -/
def letBound : World :=
  (bindAll (.ofBudget 9) 0 [(.plain 7, .int 2)]).after
    ((Eval.push 0 (.plain 8) (.function 0)).after letMade)

theorem letBefore_binds :
    Binds (.ofBudget 9) 0 ((Eval.newFrame none).after {})
      [(.plain 7, .int 1)] [(.plain 7, .int 1)] letBefore :=
  .one rfl (.none _)

theorem letBound_binds :
    Binds (.ofBudget 9) 0 ((Eval.push 0 (.plain 8) (.function 0)).after letMade)
      [(.plain 7, .int 2)] [(.plain 7, .int 2)] letBound :=
  .one rfl (.none _)

theorem empty_scoped : World.Scoped {} where
  parent_lt _ _ _ h := nomatch h
  closure _ _ h := nomatch h

theorem closures_see_later_bindings_newer :
    letMade.lookupScope? captureClosure.scope (.plain 7) = some (.int 1) ∧
    letBound.closures[0]? = some captureClosure ∧
    ∃ call started, callFrame captureClosure (.function 0) [] letBound = .ok call started ∧
      started.lookupScope? (some call) (.plain 7) = some (.int 2) := by
  have hmade : letMade.closures[0]? = some captureClosure := rfl
  have hbound : letBound.closures[0]? = some captureClosure := rfl
  have hlambda : (Engine.ofBudget 9).value (some 0) letLambda letBefore =
      .ok (.function 0) letMade := rfl
  obtain ⟨hcalls, -, -, -⟩ := closures_see_later_bindings empty_scoped (nofun : World.Has {} none)
    letBefore_binds hlambda letBound_binds (.refl letBound)
  obtain ⟨call, started, hcall, -, hcomes, -⟩ :=
    hcalls 0 captureClosure captureClause (.function 0) [] (.plain 7) hmade hbound rfl (by decide)
  exact ⟨rfl, hbound, call, started, hcall, hcomes .here⟩

/-- What a function sees that is made on the way is not what was visible where it was made. -/
theorem visible_at_form_not_kept :
    ¬ ∀ (n : Nat) (w atForm made current later : World) (scope : Scope)
      (before earlier between newer : List (Symbol × Value)) (name : Symbol) (form x : Value)
      (id : ClosureId) (c : Closure) (clause : Clause) (self : Value) (args : List Value)
      (s : Symbol), w.Scoped → w.Has scope →
      Binds (.ofBudget n) w.frames.size ((Eval.newFrame scope).after w) before earlier atForm →
      (Engine.ofBudget n).value (some w.frames.size) form atForm = .ok x made →
      Binds (.ofBudget n) w.frames.size ((Eval.push w.frames.size name x).after made) between newer
        current → KeepsFrames current later → atForm.closures.size ≤ id →
      made.closures[id]? = some c → later.closures[id]? = some c →
      c.select? args.length = some clause → s ∉ ownSymbols c clause →
      ∃ call started, callFrame c self (clause.bindings args) later = .ok call started ∧
        started.lookupScope? (some call) s = made.lookupScope? c.scope s := by
  intro h
  obtain ⟨call, started, hcall, hlookup⟩ := h 9 {} letBefore letMade letBound letBound none
    _ _ _ _ _ letLambda _ 0 captureClosure captureClause (.function 0) [] (.plain 7)
    empty_scoped nofun letBefore_binds rfl letBound_binds (.refl _) (Nat.zero_le _) rfl rfl rfl (by decide)
  cases hcall
  cases hlookup

/-- `(let [x 1 f (fn [] x) x 2] (f))` is 2. -/
example :
    ∃ w, Evaluation.run 9 (.evaluate none (.list [.special .letIn,
      .vector [.symbol (.plain 7), .int 1,
        .symbol (.plain 8), .list [.special .lambda, .vector [], .symbol (.plain 7)],
        .symbol (.plain 7), .int 2],
      .list [.symbol (.plain 8)]]) false) {} = .ok (.value (.int 2)) w :=
  ⟨_, rfl⟩

end LazyLisp
