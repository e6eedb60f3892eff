import LazyLisp.Proofs.Frames

/-!
What closures see of the frame of a loop or a call. A closure keeps its scope by place, and another
round writes its values into the frame that is there. So a closure made in an earlier round sees
the values of the newest one.
-/

namespace LazyLisp
set_option autoImplicit false

namespace Frame

theorem lookup?_eq_none {f : Frame} {s : Symbol} (h : s ∉ f.symbols) : f.lookup? s = none := by
  have hnone : f.bindings.reverse.find? (fun b => b.1 == s) = none := by
    rw [List.find?_eq_none]
    intro b hb hs
    have hbs : b.1 = s := by simpa using hs
    exact h (hbs ▸ List.mem_map_of_mem (List.mem_reverse.1 hb))
  rw [lookup?, hnone, Option.map_none]

theorem lookup?_isSome {f : Frame} {s : Symbol} (h : s ∈ f.symbols) : (f.lookup? s).isSome := by
  obtain ⟨b, hb, rfl⟩ := List.mem_map.1 h
  rw [lookup?, Option.isSome_map, List.find?_isSome]
  exact ⟨b, List.mem_reverse.2 hb, by simp⟩

theorem rebindAll_rebindAll (bs : List (Symbol × Value)) {us vs : List Value}
    (h : us.length = vs.length) : rebindAll (rebindAll bs us) vs = rebindAll bs vs := by
  induction bs generalizing us vs with
  | nil => cases us <;> cases vs <;> rfl
  | cons b bs ih =>
    cases us with
    | nil =>
      cases vs with
      | nil => rfl
      | cons v vs => cases h
    | cons u us =>
      cases vs with
      | nil => cases h
      | cons v vs =>
        simp only [rebindAll]
        rw [ih (Nat.succ.inj h)]

theorem foldl_rebind {expected : Nat} (f : Frame) (history : List (List Value))
    (h : ∀ values ∈ history, values.length = expected) :
    history.foldl rebind f = history.getLast?.elim f f.rebind := by
  induction history generalizing f with
  | nil => rfl
  | cons values history ih =>
    rw [List.foldl_cons, ih _ fun vs hvs => h vs (List.mem_cons_of_mem _ hvs)]
    cases hlast : history.getLast? with
    | none => simp [List.getLast?_eq_none_iff.1 hlast]
    | some newest =>
      have hmem := List.mem_of_getLast? hlast
      have hlength : values.length = newest.length := by
        rw [h values (by simp), h newest (List.mem_cons_of_mem _ hmem)]
      rw [List.getLast?_cons, hlast]
      simp [rebind, rebindAll_rebindAll f.bindings hlength]

end Frame

namespace World

/-- The frame that binds a symbol, found in the way in which a look-up finds the value. -/
def binderIn (frames : Array Frame) (s : Symbol) : Nat → Scope → Option FrameId
  | _, none => none
  | 0, some _ => none
  | fuel + 1, some id =>
    match frames[id]? with
    | none => none
    | some f => if s ∈ f.symbols then some id else binderIn frames s fuel f.parent

/-- The frame whose binding a symbol denotes in a scope. -/
def binder? (w : World) (scope : Scope) (s : Symbol) : Option FrameId :=
  binderIn w.frames s w.frames.size scope

theorem lookupFrames_eq_binderIn (frames : Array Frame) (s : Symbol) (n : Nat) (scope : Scope) :
    lookupFrames frames s n scope =
      (binderIn frames s n scope).bind fun id => (frames[id]?).bind fun f => f.lookup? s := by
  induction n generalizing scope with
  | zero => cases scope <;> rfl
  | succ n ih =>
    cases scope with
    | none => rfl
    | some id =>
      rw [lookupFrames, binderIn]
      cases hid : frames[id]? with
      | none => rfl
      | some f =>
        by_cases hs : s ∈ f.symbols
        · obtain ⟨v, hv⟩ := Option.isSome_iff_exists.1 (Frame.lookup?_isSome hs)
          simp [hs, hid, hv]
        · simp [hs, Frame.lookup?_eq_none hs, ih]

theorem lookupScope?_of_binder? {w : World} {scope : Scope} {s : Symbol} {frame : FrameId} {f : Frame}
    (h : w.binder? scope s = some frame) (hf : w.frames[frame]? = some f) :
    w.lookupScope? scope s = f.lookup? s := by
  rw [binder?] at h
  rw [lookupScope?, lookupFrames_eq_binderIn, h, Option.bind_some, hf, Option.bind_some]

end World

/-- Every frame is still there, with the symbols and the parent that it had. -/
structure KeepsShape (before after : World) : Prop where
  grows : before.frames.size ≤ after.frames.size
  same : ∀ (id : FrameId) (f : Frame), before.frames[id]? = some f →
    ∃ g, after.frames[id]? = some g ∧ g.symbols = f.symbols ∧ g.parent = f.parent

namespace KeepsShape
variable {a b c : World}

theorem trans (hab : KeepsShape a b) (hbc : KeepsShape b c) : KeepsShape a c := by
  refine ⟨Nat.le_trans hab.grows hbc.grows, fun id f hf => ?_⟩
  obtain ⟨g, hg, hsymbols, hparent⟩ := hab.same id f hf
  obtain ⟨k, hk, hsymbols', hparent'⟩ := hbc.same id g hg
  exact ⟨k, hk, hsymbols'.trans hsymbols, hparent'.trans hparent⟩

theorem rebind (w : World) (frame : FrameId) (values : List Value) :
    KeepsShape w ((Eval.rebind frame values).after w) := by
  have hframes : ((Eval.rebind frame values).after w).frames =
      w.frames.modify frame (·.rebind values) := rfl
  refine ⟨Nat.le_of_eq (by rw [hframes, Array.size_modify]), fun id f hf => ?_⟩
  rw [hframes, Array.getElem?_modify, hf]
  split
  · exact ⟨f.rebind values, rfl, f.symbols_rebind values, rfl⟩
  · exact ⟨f, rfl, rfl, rfl⟩

theorem binderIn (h : KeepsShape a b) {s : Symbol} {n m : Nat} {scope : Scope} {frame : FrameId}
    (hn : World.binderIn a.frames s n scope = some frame) (hm : n ≤ m) :
    World.binderIn b.frames s m scope = some frame := by
  induction n generalizing m scope with
  | zero => cases scope <;> cases hn
  | succ n ih =>
    obtain ⟨m, rfl⟩ := Nat.exists_eq_add_of_le' (Nat.le_trans (Nat.succ_pos n) hm)
    cases scope with
    | none => cases hn
    | some id =>
      rw [World.binderIn] at hn ⊢
      cases hid : a.frames[id]? with
      | none =>
        rw [hid] at hn
        cases hn
      | some f =>
        obtain ⟨g, hg, hsymbols, hparent⟩ := h.same id f hid
        rw [hid] at hn
        rw [hg]
        dsimp only at hn ⊢
        rw [hsymbols, hparent]
        split
        · rename_i hs
          rwa [if_pos hs] at hn
        · rename_i hs
          rw [if_neg hs] at hn
          exact ih hn (Nat.le_of_succ_le_succ hm)

theorem binder? (h : KeepsShape a b) {s : Symbol} {scope : Scope} {frame : FrameId}
    (ha : a.binder? scope s = some frame) : b.binder? scope s = some frame :=
  h.binderIn ha h.grows

end KeepsShape

theorem KeepsFrames.keepsShape {a b : World} (h : KeepsFrames a b) : KeepsShape a b :=
  ⟨h.grows, fun _ f hf => ⟨f, h.getElem? hf, rfl, rfl⟩⟩

namespace Evaluation
variable {e : Engine} {frame : FrameId} {expected : Nat} {forms : List Value} {w current : World}
  {history : List (List Value)}

theorem Recurs.length_eq (h : Recurs e frame expected forms w history current) :
    ∀ values ∈ history, values.length = expected := by
  induction h with
  | none => simp
  | round _ hlength _ ih => simpa using ⟨hlength, ih⟩

theorem Recurs.keepsShape (hkeeps : e.Keeps KeepsFrames)
    (h : Recurs e frame expected forms w history current) (hsome : history ≠ []) :
    KeepsShape ((body e (some frame) forms).after w) current := by
  induction h with
  | none => exact absurd rfl hsome
  | @round w between current values more hbody _ hmore ih =>
    rw [after_ok hbody]
    -- the next round may be the last one, or its body leaves frames behind in turn
    have hrebind := KeepsShape.rebind between frame values
    cases more with
    | nil =>
      cases hmore
      exact hrebind
    | cons next more =>
      have hbody := keepsFrames_after (fun _ => hkeeps.body (some frame) forms)
        ((Eval.rebind frame values).after between)
      exact hrebind.trans (hbody.keepsShape.trans (ih (by simp)))

theorem forM_push {base w : World} {frame : FrameId} {f : Frame} (hbase : KeepsFrames base w)
    (hframe : base.frames.size ≤ frame) (hf : w.frames[frame]? = some f)
    (bindings : List (Symbol × Value)) :
    ∃ w', (bindings.forM fun (s, v) => Eval.push frame s v) w = .ok ⟨⟩ w' ∧ KeepsFrames base w' ∧
      w'.frames.size = w.frames.size ∧
      w'.frames[frame]? = some { f with bindings := f.bindings ++ bindings } := by
  induction bindings generalizing w f with
  | nil => exact ⟨w, rfl, hbase, rfl, by simpa using hf⟩
  | cons b rest ih =>
    have hnext := hbase.modify hframe (·.push b.1 b.2)
    have hpushed : ({ w with frames := w.frames.modify frame (·.push b.1 b.2) } :
        World).frames[frame]? = some (f.push b.1 b.2) := by
      simp [Array.getElem?_modify, hf]
    obtain ⟨w', hrun, hkeeps, hsize, hfilled⟩ := ih hnext hpushed
    refine ⟨w', hrun, hkeeps, hsize.trans Array.size_modify, ?_⟩
    rw [hfilled]
    simp [Frame.push]

theorem boundFrame_run (w : World) (parent : Scope) (bindings : List (Symbol × Value)) :
    ∃ w', boundFrame parent bindings w = .ok w.frames.size w' ∧ KeepsFrames w w' ∧
      w'.frames.size = w.frames.size + 1 ∧
      w'.frames[w.frames.size]? = some ⟨bindings, parent⟩ := by
  have hnew := (KeepsFrames.refl w).push { parent := parent }
  have hempty : (w.frames.push { parent := parent })[w.frames.size]? = some { parent := parent } := by
    simp
  obtain ⟨w', hrun, hkeeps, hsize, hfilled⟩ := forM_push hnew (Nat.le_refl _) hempty bindings
  refine ⟨w', ?_, hkeeps, by simpa using hsize, by simpa using hfilled⟩
  rw [boundFrame, run_bind_ok (rfl : Eval.newFrame parent w = .ok w.frames.size _), run_bind_ok hrun]
  rfl

theorem boundFrame_binder? {w : World} {parent : Scope} {s : Symbol} {frame : FrameId}
    (hs : w.binder? parent s = some frame) {bindings : List (Symbol × Value)}
    (hbindings : s ∉ bindings.map (·.1)) :
    ∃ w', boundFrame parent bindings w = .ok w.frames.size w' ∧ KeepsFrames w w' ∧
      w'.binder? (some w.frames.size) s = some frame := by
  obtain ⟨w', hrun, hkeeps, hsize, hfilled⟩ := boundFrame_run w parent bindings
  have hfree : s ∉ Frame.symbols ⟨bindings, parent⟩ := hbindings
  refine ⟨w', hrun, hkeeps, ?_⟩
  -- one frame more is one more step of the look-up, which the step into the parent uses up
  rw [World.binder?, hsize, World.binderIn, hfilled]
  dsimp only
  rw [if_neg hfree]
  exact hkeeps.keepsShape.binderIn hs (Nat.le_refl _)

/-- The symbols that a closure binds itself when one of its clauses is called. -/
def ownSymbols (c : Closure) (clause : Clause) : List Symbol :=
  (c.name.map fun name => Symbol.plain name.name).toList ++ clause.params ++ clause.rest.toList

theorem mem_bindings {clause : Clause} {args : List Value} {s : Symbol}
    (h : s ∈ (clause.bindings args).map (·.1)) : s ∈ clause.params ∨ s ∈ clause.rest.toList := by
  have hfixed : ∀ b ∈ clause.params.zip args, b.1 ∈ clause.params := fun b hb => (List.of_mem_zip hb).1
  obtain ⟨b, hb, rfl⟩ := List.mem_map.1 h
  rw [Clause.bindings] at hb
  cases hrest : clause.rest with
  | none =>
    rw [hrest] at hb
    exact .inl (hfixed b hb)
  | some r =>
    rw [hrest] at hb
    rcases List.mem_append.1 hb with hb | hb
    · exact .inl (hfixed b hb)
    · rw [List.mem_singleton.1 hb]
      exact .inr (by simp)

theorem callFrame_binder? {w : World} {c : Closure} {clause : Clause} {s : Symbol} {frame : FrameId}
    (hs : w.binder? c.scope s = some frame) (hfree : s ∉ ownSymbols c clause) (self : Value)
    (args : List Value) :
    ∃ call started, callFrame c self (clause.bindings args) w = .ok call started ∧
      KeepsFrames w started ∧ started.binder? (some call) s = some frame := by
  have hbindings : s ∉ (clause.bindings args).map (·.1) := by
    intro h
    rcases mem_bindings h with h | h
    · exact hfree (by simp [ownSymbols, h])
    · exact hfree (by simp only [ownSymbols, List.mem_append, h, or_true])
  rw [callFrame_eq]
  cases hname : c.name with
  | none =>
    obtain ⟨started, hrun, hkeeps, hseen⟩ := boundFrame_binder? hs hbindings
    exact ⟨_, started, hrun, hkeeps, hseen⟩
  | some name =>
    have hself : s ∉ [(Symbol.plain name.name, self)].map (·.1) := by
      intro h
      rw [List.map_cons, List.map_nil, List.mem_singleton] at h
      exact hfree (by simp [ownSymbols, hname, h])
    obtain ⟨between, houter, hkeeps, hseen⟩ := boundFrame_binder? hs hself
    obtain ⟨started, hrun, hkeeps', hseen'⟩ := boundFrame_binder? hseen hbindings
    exact ⟨_, started, (run_bind_ok houter _).trans hrun, hkeeps.trans hkeeps', hseen'⟩

theorem invoke_eq {w started : World} {id : ClosureId} {c : Closure} {clause : Clause} {self : Value}
    {args : List Value} {call : FrameId} (hc : w.closures[id]? = some c)
    (hclause : c.select? args.length = some clause)
    (hcall : callFrame c self (clause.bindings args) w = .ok call started) (e : Engine) :
    invoke e id self args w = rounds e call clause.bindingCount clause.body e.bound started := by
  rw [invoke, run_bind_ok (run_get w)]
  simp only [hc, hclause]
  exact run_bind_ok hcall _

def produced (v : Value) : Eval Seq :=
  match v.toSeq? with
  | some s => return s
  | none =>
    fail (.invalidArgument "lazy-seq" ("body must produce a seqable value, got " ++ v.typeName))

theorem apply_function (n : Nat) (scope : Scope) (id : ClosureId) (args : List Value) :
    (Engine.ofBudget (n + 1)).apply scope (.function id) args =
      invoke (.ofBudget n) id (.function id) args := by
  have hcall : (Engine.ofBudget (n + 1)).call (.apply scope (.function id) args) =
      invoke (.ofBudget n) id (.function id) args >>= fun v => pure (.value v) := rfl
  rw [Engine.apply, hcall, bind_assoc]
  exact bind_pure _

theorem produce_function {w : World} (hattached : w.attached = true) (n : Nat) (id : ClosureId) :
    Seq.produce (.ofBudget (n + 1)) (.function id) w =
      (invoke (.ofBudget n) id (.function id) [] >>= produced) w := by
  rw [Seq.produce, run_bind_ok (run_get w)]
  simp only [hattached, apply_function]
  rfl

end Evaluation

open Evaluation

/-- Whenever a closure is called, or forced as the thunk of a lazy sequence, the symbols that it sees
in the frame of a loop or of another call have the values of that body's newest round. So a symbol
has the value of an earlier round, such as the one that made the closure, just when no round came
after that one or the newest round brought the value again. -/
theorem captured_symbols_follow_rounds (n : Nat) {frame : FrameId} {expected : Nat}
    {forms : List Value} {first last : World} {f : Frame} {history : List (List Value)}
    (hf : first.frames[frame]? = some f)
    (hrounds : Recurs (.ofBudget n) frame expected forms first history last) :
    (∀ later id c clause self args s, later.frames[frame]? = last.frames[frame]? →
      later.binder? c.scope s = some frame → later.closures[id]? = some c →
      c.select? args.length = some clause → s ∉ ownSymbols c clause →
      ∃ call started, callFrame c self (clause.bindings args) later = .ok call started ∧
        (∀ e : Engine, invoke e id self args later =
          rounds e call clause.bindingCount clause.body e.bound started) ∧
        started.lookupScope? (some call) s = (history.getLast?.elim f f.rebind).lookup? s ∧
        (started.lookupScope? (some call) s = f.lookup? s ↔
          (history.getLast?.elim f f.rebind).lookup? s = f.lookup? s)) ∧
    (∀ later m id, later.attached = true →
      Seq.produce (.ofBudget (m + 1)) (.function id) later =
        (invoke (.ofBudget m) id (.function id) [] >>= produced) later) ∧
    ∀ later scope s, history ≠ [] → KeepsFrames last later →
      ((body (.ofBudget n) (some frame) forms).after first).binder? scope s = some frame →
      later.frames[frame]? = last.frames[frame]? ∧ later.binder? scope s = some frame := by
  have hkeeps := keepsFrames_invariant.keeps n
  have hlast : last.frames[frame]? = some (history.getLast?.elim f f.rebind) := by
    rw [hrounds.frame_eq hkeeps hf, Frame.foldl_rebind f history hrounds.length_eq]
  refine ⟨?_, fun later m id hattached => produce_function hattached m id, ?_⟩
  · intro later id c clause self args s hsame hseen hc hclause hfree
    obtain ⟨call, started, hcall, hstarted, hbinder⟩ := callFrame_binder? hseen hfree self args
    have hlookup := World.lookupScope?_of_binder? hbinder (hstarted.getElem? (hsame.trans hlast))
    refine ⟨call, started, hcall, fun e => invoke_eq hc hclause hcall e, hlookup, ?_⟩
    rw [hlookup]
  · intro later scope s hsome hlater hseen
    refine ⟨?_, ?_⟩
    · rw [hlater.getElem? hlast, hlast]
    · exact ((hrounds.keepsShape hkeeps hsome).trans hlater.keepsShape).binder? hseen

/-- The body of `(loop [i 0 f nil] (if f f (recur 1 (fn [] i))))`, where 7 and 8 stand for the names
`i` and `f`. -/
def captureRound : List Value :=
  [.list [.special .ifElse, .symbol (.plain 8), .symbol (.plain 8),
    .list [.special .recur, .int 1,
      .list [.special .lambda, .vector [], .symbol (.plain 7)]]]]

def captureStart : World :=
  (loopFrame (.ofBudget 9) none
    (some (.vector [.symbol (.plain 7), .int 0, .symbol (.plain 8), .nil]))).after {}

def captureFrame : Frame := ⟨[(.plain 7, .int 0), (.plain 8, .nil)], none⟩

def captureClause : Clause := ⟨[], none, [.symbol (.plain 7)]⟩

def captureClosure : Closure := ⟨none, [captureClause], none, some 0⟩

def captureAgain : World :=
  (Eval.rebind 0 [.int 1, .function 0]).after
    ((body (.ofBudget 9) (some 0) captureRound).after captureStart)

theorem capture_recurs : Recurs (.ofBudget 9) 0 2 captureRound captureStart [[.int 1, .function 0]]
    captureAgain :=
  .round rfl rfl (.none _)

theorem captured_symbols_follow_rounds_newer :
    captureStart.frames[0]? = some captureFrame ∧
    captureAgain.binder? captureClosure.scope (.plain 7) = some 0 ∧
    captureAgain.closures[0]? = some captureClosure ∧
    ∃ call started, callFrame captureClosure (.function 0) [] captureAgain = .ok call started ∧
      started.lookupScope? (some call) (.plain 7) = some (.int 1) := by
  have hf : captureStart.frames[0]? = some captureFrame := rfl
  have hseen : captureAgain.binder? captureClosure.scope (.plain 7) = some 0 := rfl
  have hc : captureAgain.closures[0]? = some captureClosure := rfl
  obtain ⟨hcalls, -, -⟩ := captured_symbols_follow_rounds 9 hf capture_recurs
  obtain ⟨call, started, hcall, -, hlookup, -⟩ :=
    hcalls captureAgain 0 captureClosure captureClause (.function 0) [] (.plain 7) rfl hseen hc rfl
      (by decide)
  exact ⟨hf, hseen, hc, call, started, hcall, hlookup⟩

theorem captured_symbols_not_kept :
    ¬ ∀ (n : Nat) (frame : FrameId) (expected : Nat) (forms : List Value) (first last : World)
      (f : Frame) (history : List (List Value)) (later : World) (id : ClosureId) (c : Closure)
      (clause : Clause) (self : Value) (args : List Value) (s : Symbol),
      first.frames[frame]? = some f → Recurs (.ofBudget n) frame expected forms first history last →
      KeepsFrames last later →
      ((body (.ofBudget n) (some frame) forms).after first).binder? c.scope s = some frame →
      later.closures[id]? = some c → c.select? args.length = some clause → s ∉ ownSymbols c clause →
      ∃ call started, callFrame c self (clause.bindings args) later = .ok call started ∧
        started.lookupScope? (some call) s = f.lookup? s := by
  intro h
  obtain ⟨call, started, hcall, hlookup⟩ := h 9 0 2 captureRound captureStart captureAgain captureFrame
    _ captureAgain 0 captureClosure captureClause (.function 0) [] (.plain 7) rfl capture_recurs
    (.refl _) rfl rfl rfl (by decide)
  cases hcall
  cases hlookup

/-- `((loop [i 0 f nil] (if f f (recur 1 (fn [] i)))))` is 1, though the function was made where
`i` was 0. -/
example :
    ∃ w, Evaluation.run 9 (.evaluate none (.list [.list [.special .looping,
      .vector [.symbol (.plain 7), .int 0, .symbol (.plain 8), .nil],
      .list [.special .ifElse, .symbol (.plain 8), .symbol (.plain 8),
        .list [.special .recur, .int 1,
          .list [.special .lambda, .vector [], .symbol (.plain 7)]]]]]) false) {} =
      .ok (.value (.int 1)) w :=
  ⟨_, rfl⟩

end LazyLisp
