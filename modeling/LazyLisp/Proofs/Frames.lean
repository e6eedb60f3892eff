import LazyLisp.Proofs.EvaluationEffects

/-!
Evaluation changes no lexical frame that was there before: only the frames that it makes itself get
bindings, and only a loop or a call rebinds its own frame. So a loop's frame has at every round the
bindings that its binding vector asks for.
-/

namespace LazyLisp
set_option autoImplicit false

/-- Every frame of the earlier state is in the later one as it was. -/
structure KeepsFrames (before after : World) : Prop where
  grows : before.frames.size ≤ after.frames.size
  same : ∀ id, id < before.frames.size → after.frames[id]? = before.frames[id]?

namespace KeepsFrames
variable {a b c : World}

theorem refl (a : World) : KeepsFrames a a := ⟨Nat.le_refl _, fun _ _ => rfl⟩

theorem trans (hab : KeepsFrames a b) (hbc : KeepsFrames b c) : KeepsFrames a c := by
  refine ⟨Nat.le_trans hab.grows hbc.grows, fun id hid => ?_⟩
  rw [hbc.same id (Nat.lt_of_lt_of_le hid hab.grows), hab.same id hid]

theorem of_eq (h : KeepsFrames a b) (hframes : c.frames = b.frames) : KeepsFrames a c :=
  ⟨by rw [hframes]; exact h.grows, fun id hid => by rw [hframes]; exact h.same id hid⟩

theorem getElem? {id : FrameId} {f : Frame} (h : KeepsFrames a b) (hf : a.frames[id]? = some f) :
    b.frames[id]? = some f := by
  rw [h.same id (Array.getElem?_eq_some_iff.1 hf).1, hf]

theorem push (h : KeepsFrames a b) (f : Frame) :
    KeepsFrames a { b with frames := b.frames.push f } := by
  refine ⟨?_, fun id hid => ?_⟩
  · rw [Array.size_push]
    exact Nat.le_succ_of_le h.grows
  · have hlt := Nat.lt_of_lt_of_le hid h.grows
    rw [Array.getElem?_push_lt hlt, ← Array.getElem?_eq_getElem hlt, h.same id hid]

theorem modify (h : KeepsFrames a b) {id : FrameId} (hid : a.frames.size ≤ id) (f : Frame → Frame) :
    KeepsFrames a { b with frames := b.frames.modify id f } := by
  refine ⟨?_, fun i hi => ?_⟩
  · rw [Array.size_modify]
    exact h.grows
  · have hne : id ≠ i := Nat.ne_of_gt (Nat.lt_of_lt_of_le hi hid)
    rw [Array.getElem?_modify, if_neg hne, h.same i hi]

end KeepsFrames

theorem keepsFrames_invariant : Invariant KeepsFrames where
  fits_none _ := trivial
  fits_later _ _ _ _ _ := trivial
  closure _ _ _ _ _ _ := trivial
  names _ _ _ h := h.of_eq rfl
  output _ _ _ h := h.of_eq rfl
  events _ _ _ h := h.of_eq rfl
  frame base _ parent h _ :=
    ⟨base, h.push { parent := parent }, trivial, fun _ hv => hv, fun _ f _ hv => hv.modify h.grows f⟩
  newClosure _ _ _ _ _ _ _ h _ _ := h.of_eq rfl
  newLazy _ _ := fun _ h => h.of_eq rfl
  realize base _ _ _ h _ :=
    ⟨base, h.of_eq rfl, fun _ _ hv => ⟨hv, fun _ _ => hv.of_eq rfl, fun _ _ => hv.of_eq rfl⟩⟩
  toDefining := .of_spaces (fun _ _ _ h => h.of_eq rfl) fun _ _ _ h => h.of_eq rfl

theorem keepsFrames_after {α : Type} {m : Eval α} (h : ∀ base, Preserves (KeepsFrames base) m)
    (w : World) : KeepsFrames w (m.after w) :=
  h w w (.refl w)

theorem keepsFrames_of_ok {α : Type} {m : Eval α} {w w' : World} {a : α}
    (h : ∀ base, Preserves (KeepsFrames base) m) (hrun : m w = .ok a w') : KeepsFrames w w' :=
  after_ok hrun ▸ keepsFrames_after h w

namespace Frame

def symbols (f : Frame) : List Symbol := f.bindings.map (·.1)

theorem symbols_push (f : Frame) (s : Symbol) (v : Value) : (f.push s v).symbols = f.symbols ++ [s] := by
  simp [symbols, push]

theorem map_fst_rebindAll (bs : List (Symbol × Value)) (vs : List Value) :
    (rebindAll bs vs).map (·.1) = bs.map (·.1) := by
  fun_induction rebindAll bs vs with
  | case1 b bs v vs ih => simp [ih]
  | case2 => rfl

theorem symbols_rebind (f : Frame) (values : List Value) :
    (f.rebind values).symbols = f.symbols :=
  map_fst_rebindAll f.bindings values

theorem symbols_foldl_rebind (f : Frame) (history : List (List Value)) :
    (history.foldl rebind f).symbols = f.symbols := by
  induction history generalizing f with
  | nil => rfl
  | cons values history ih => rw [List.foldl_cons, ih, symbols_rebind]

end Frame

namespace Evaluation

/-- A run of rounds of a body that all ask for another one, and the values that they bring. -/
inductive Recurs (e : Engine) (frame : FrameId) (expected : Nat) (forms : List Value) :
    World → List (List Value) → World → Prop
  | none (w : World) : Recurs e frame expected forms w [] w
  | round {w between current : World} {values : List Value} {more : List (List Value)} :
    body e (some frame) forms w = .ok (.again values) between → values.length = expected →
    Recurs e frame expected forms ((Eval.rebind frame values).after between) more current →
    Recurs e frame expected forms w (values :: more) current

section
variable {e : Engine} {frame : FrameId} {expected : Nat} {forms : List Value}
  {w current : World} {history : List (List Value)}

theorem Recurs.rounds_eq (h : Recurs e frame expected forms w history current) (n : Nat) :
    rounds e frame expected forms (history.length + n) w = rounds e frame expected forms n current := by
  induction h with
  | none w => rw [List.length_nil, Nat.zero_add]
  | @round _ _ _ values _ hbody hlength _ ih =>
    have hfits : (values.length != expected) = false := by simp [hlength]
    rw [List.length_cons, Nat.add_right_comm, rounds, run_bind_ok hbody]
    dsimp only
    rw [hfits]
    exact ih

/-- Every round finds the frame with the values that the rounds before it brought. -/
theorem Recurs.frame_eq (hkeeps : e.Keeps KeepsFrames) {f : Frame}
    (h : Recurs e frame expected forms w history current) (hf : w.frames[frame]? = some f) :
    current.frames[frame]? = some (history.foldl Frame.rebind f) := by
  induction h generalizing f with
  | none w => exact hf
  | round hbody hlength hmore ih =>
    have hsame := (keepsFrames_of_ok (fun _ => hkeeps.body _ _) hbody).getElem? hf
    refine ih ?_
    simp [Eval.after, Eval.rebind, Array.getElem?_modify, hsame]

end

theorem pairs_eq_ok {label : String} {items : List Value} {bindings : List (Symbol × Value)}
    {w w' : World} (heven : items.length % 2 = 0) (h : pairs label items w = .ok bindings w') :
    2 * bindings.length = items.length ∧ w' = w := by
  fun_induction pairs label items generalizing bindings with
  | case1 rest name form ih =>
    obtain ⟨more, between, hmore, h⟩ := run_bind_eq_ok.1 h
    cases h
    have hrest := ih (by simp only [List.length_cons] at heven; omega) hmore
    simp only [List.length_cons]
    exact ⟨by omega, hrest.2⟩
  | case2 => cases h
  | case3 items hitems =>
    cases h
    rcases items with _ | ⟨target, _ | ⟨form, rest⟩⟩
    · exact ⟨rfl, rfl⟩
    · cases heven
    · exact absurd rfl (hitems target form rest)

theorem bindingPairs_eq_ok {label : String} {items : List Value} {bindings : List (Symbol × Value)}
    {w w' : World} (h : bindingPairs label (some (.vector items)) w = .ok bindings w') :
    2 * bindings.length = items.length ∧ w' = w := by
  rw [bindingPairs] at h
  dsimp only at h
  split at h
  · cases h
  · rename_i heven
    exact pairs_eq_ok (by simpa using heven) h

theorem bindAll_symbols {e : Engine} (hkeeps : e.Keeps KeepsFrames) {frame : FrameId} {f : Frame}
    {bindings : List (Symbol × Value)} {w w' : World} (hf : w.frames[frame]? = some f)
    (h : bindAll e frame bindings w = .ok () w') :
    ∃ g, w'.frames[frame]? = some g ∧ g.symbols = f.symbols ++ bindings.map (·.1) := by
  induction bindings generalizing w f with
  | nil =>
    cases h
    exact ⟨f, hf, by simp⟩
  | cons b rest ih =>
    obtain ⟨v, between, hvalue, h⟩ := run_bind_eq_ok.1 h
    have hsame := (keepsFrames_of_ok (fun _ => hkeeps.value _ _) hvalue).getElem? hf
    have hpushed : ({ between with frames := between.frames.modify frame (·.push b.1 v) } :
        World).frames[frame]? = some (f.push b.1 v) := by
      simp [Array.getElem?_modify, hsame]
    obtain ⟨g, hg, hsymbols⟩ := ih hpushed h
    refine ⟨g, hg, ?_⟩
    rw [hsymbols, Frame.symbols_push]
    simp

/-- The first part of a loop: its binding vector, and the frame with the first values. -/
def loopFrame (e : Engine) (scope : Scope) (target : Option Value) :
    Eval (FrameId × List (Symbol × Value)) := do
  let bindings ← bindingPairs "loop" target
  let frame ← Eval.newFrame scope
  bindAll e frame bindings
  return (frame, bindings)

theorem looping_eq (e : Engine) (scope : Scope) (args : List Value) :
    looping e scope args = (do
      let made ← loopFrame e scope args.head?
      return .value (← rounds e made.1 made.2.length args.tail e.bound)) := by
  simp only [looping, loopFrame, bind_assoc, pure_bind]

theorem loopFrame_eq_ok {e : Engine} (hkeeps : e.Keeps KeepsFrames) {scope : Scope}
    {items : List Value} {w start : World} {frame : FrameId} {bindings : List (Symbol × Value)}
    (h : loopFrame e scope (some (.vector items)) w = .ok (frame, bindings) start) :
    2 * bindings.length = items.length ∧
      ∃ f, start.frames[frame]? = some f ∧ f.symbols = bindings.map (·.1) := by
  rw [loopFrame] at h
  obtain ⟨bs, w₁, hpairs, hmade⟩ := run_bind_eq_ok.1 h
  obtain ⟨hcount, hw⟩ := bindingPairs_eq_ok hpairs
  obtain ⟨id, w₂, hnew, hfilled⟩ := run_bind_eq_ok.1 hmade
  cases hnew
  obtain ⟨_, w₃, hbind, hdone⟩ := run_bind_eq_ok.1 hfilled
  cases hdone
  obtain ⟨f, hf, hsymbols⟩ := bindAll_symbols hkeeps (f := { parent := scope }) (by simp) hbind
  exact ⟨hcount, f, hf, by simpa [Frame.symbols] using hsymbols⟩

theorem looping_eq_of_recurs {e : Engine} {scope : Scope} {items forms : List Value}
    {w start current : World} {frame : FrameId} {bindings : List (Symbol × Value)}
    {history : List (List Value)} {n : Nat}
    (hframe : loopFrame e scope (some (.vector items)) w = .ok (frame, bindings) start)
    (hrounds : Recurs e frame bindings.length forms start history current)
    (hn : history.length + n = e.bound) :
    looping e scope (.vector items :: forms) w =
      (do return .value (← rounds e frame bindings.length forms n) : Eval Outcome) current := by
  rw [looping_eq, List.head?_cons, List.tail_cons, run_bind_ok hframe, ← hn]
  dsimp only
  rw [run_bind, run_bind, hrounds.rounds_eq]

end Evaluation

theorem frameSize_eq {w : World} {frame : FrameId} {f : Frame} (hf : w.frames[frame]? = some f) :
    Eval.frameSize frame w = .ok f.symbols.length w := by
  simp [Eval.frameSize, run_bind, hf, Frame.symbols]

/-- Evaluation and application change no frame that was there before, however they end. So a
loop's frame has one binding for each pair of the binding vector whenever a round starts or ends. -/
theorem evaluation_keeps_frames (n : Nat) (w : World) :
    (∀ r : Request, KeepsFrames w ((Evaluation.run n r).after w)) ∧
    (∀ id self args, KeepsFrames w ((Evaluation.invoke (.ofBudget n) id self args).after w)) ∧
    ∀ scope items forms frame bindings start history current,
      Evaluation.loopFrame (.ofBudget n) scope (some (.vector items)) w =
        .ok (frame, bindings) start →
      Evaluation.Recurs (.ofBudget n) frame bindings.length forms start history current →
      (∀ m, history.length + m = n →
        Evaluation.looping (.ofBudget n) scope (.vector items :: forms) w =
          (do return .value (← Evaluation.rounds (.ofBudget n) frame bindings.length forms m) :
            Eval Outcome) current) ∧
      ∃ size, 2 * size = items.length ∧
        ∀ later, later = current ∨
            later = (Evaluation.body (.ofBudget n) (some frame) forms).after current →
          Eval.frameSize frame later = .ok size later := by
  have hkeeps := keepsFrames_invariant.keeps n
  refine ⟨fun r => keepsFrames_after (fun _ => keepsFrames_invariant.run n r) w,
    fun id self args => keepsFrames_after (fun _ => hkeeps.invoke id self args) w, ?_⟩
  intro scope items forms frame bindings start history current hframe hrounds
  obtain ⟨hcount, f, hf, hsymbols⟩ := Evaluation.loopFrame_eq_ok hkeeps hframe
  refine ⟨fun m hm => Evaluation.looping_eq_of_recurs hframe hrounds hm, bindings.length, hcount, ?_⟩
  have hcurrent := hrounds.frame_eq hkeeps hf
  have hsize : (history.foldl Frame.rebind f).symbols.length = bindings.length := by
    rw [Frame.symbols_foldl_rebind, hsymbols, List.length_map]
  rintro later (rfl | rfl)
  · rw [frameSize_eq hcurrent, hsize]
  · have hbody := keepsFrames_after (fun _ => hkeeps.body (some frame) forms) current
    rw [frameSize_eq (hbody.getElem? hcurrent), hsize]

/-- The body of `(loop [go true] (if ((fn f [] go)) (recur false) go))`, where 7 and 8 stand for
the names `go` and `f`. -/
def namedCallRound : List Value :=
  [.list [.special .ifElse,
    .list [.list [.special .lambda, .symbol (.plain 8), .vector [], .symbol (.plain 7)]],
    .list [.special .recur, .bool false],
    .symbol (.plain 7)]]

theorem evaluation_keeps_frames_named_call :
    ∃ frame bindings start current,
      Evaluation.loopFrame (.ofBudget 9) none (some (.vector [.symbol (.plain 7), .bool true])) {} =
        .ok (frame, bindings) start ∧
      Evaluation.Recurs (.ofBudget 9) frame bindings.length namedCallRound start [[.bool false]]
        current ∧
      ∃ size, 2 * size = 2 ∧ Eval.frameSize frame current = .ok size current := by
  have hframe : ∃ start, Evaluation.loopFrame (.ofBudget 9) none
      (some (.vector [.symbol (.plain 7), .bool true])) {} = .ok (0, [(.plain 7, .bool true)]) start :=
    ⟨_, rfl⟩
  obtain ⟨start, hframe⟩ := hframe
  have hround : ∃ between, Evaluation.body (.ofBudget 9) (some 0) namedCallRound start =
      .ok (.again [.bool false]) between := by
    cases hframe
    exact ⟨_, rfl⟩
  obtain ⟨between, hround⟩ := hround
  have hrounds := Evaluation.Recurs.round hround rfl (.none _)
  obtain ⟨-, -, hloop⟩ := evaluation_keeps_frames 9 {}
  obtain ⟨-, size, hsize, hall⟩ := hloop _ _ _ _ _ _ _ _ hframe hrounds
  exact ⟨_, _, _, _, hframe, hrounds, size, hsize, hall _ (.inl rfl)⟩

end LazyLisp
