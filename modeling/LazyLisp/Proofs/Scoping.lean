import LazyLisp.Proofs.Capture

/-!
Scopes are well formed in every state that evaluation reaches: the parent of a frame is older than
the frame, and the scope of a closure is there. So looking a symbol up in a scope depends on the
frames along its chain alone, and a frame that gets more bindings changes only the look-ups that
come to it.
-/

namespace LazyLisp
set_option autoImplicit false

/-- The frame of a scope is there. -/
def World.Has (w : World) (scope : Scope) : Prop := ∀ id, scope = some id → id < w.frames.size

structure World.Scoped (w : World) : Prop where
  parent_lt : ∀ (id : FrameId) (f : Frame) (p : FrameId), w.frames[id]? = some f →
    f.parent = some p → p < id
  closure : ∀ (id : ClosureId) (c : Closure), w.closures[id]? = some c → w.Has c.scope

/-- A well formed state with no fewer frames than an earlier one. -/
structure ScopedSince (base w : World) : Prop where
  grows : base.frames.size ≤ w.frames.size
  wellFormed : w.Scoped

namespace World
variable {w v : World} {scope : Scope}

theorem Has.later (h : w.Has scope) (hgrows : w.frames.size ≤ v.frames.size) : v.Has scope :=
  fun id hid => Nat.lt_of_lt_of_le (h id hid) hgrows

namespace Scoped

theorem of_eq (h : w.Scoped) (hframes : v.frames = w.frames) (hclosures : v.closures = w.closures) :
    v.Scoped where
  parent_lt := by
    rw [hframes]
    exact h.parent_lt
  closure id c hc := by
    rw [hclosures] at hc
    exact (h.closure id c hc).later (Nat.le_of_eq (by rw [hframes]))

theorem pushFrame (h : w.Scoped) (hscope : w.Has scope) :
    Scoped { w with frames := w.frames.push { parent := scope } } where
  parent_lt id f p hf hp := by
    rcases Nat.lt_or_ge id w.frames.size with hlt | hge
    · rw [Array.getElem?_push_lt hlt, ← Array.getElem?_eq_getElem hlt] at hf
      exact h.parent_lt id f p hf hp
    · have hid : id = w.frames.size := by
        have hlt := (Array.getElem?_eq_some_iff.1 hf).1
        rw [Array.size_push] at hlt
        exact Nat.le_antisymm (Nat.le_of_lt_succ hlt) hge
      subst hid
      rw [Array.getElem?_push_size] at hf
      cases hf
      exact hscope p hp
  closure id c hc := (h.closure id c hc).later (by simp)

theorem modifyFrame (h : w.Scoped) (id : FrameId) {f : Frame → Frame}
    (hf : ∀ g, (f g).parent = g.parent) : Scoped { w with frames := w.frames.modify id f } where
  parent_lt i g p hg hp := by
    rw [Array.getElem?_modify] at hg
    split at hg
    · obtain ⟨g', hg', rfl⟩ := Option.map_eq_some_iff.1 hg
      rw [hf] at hp
      exact h.parent_lt i g' p hg' hp
    · exact h.parent_lt i g p hg hp
  closure i c hc := (h.closure i c hc).later (by simp)

theorem pushClosure (h : w.Scoped) {c : Closure} (hc : w.Has c.scope) :
    Scoped { w with closures := w.closures.push c } where
  parent_lt := h.parent_lt
  closure id c' hc' := by
    rw [Array.getElem?_push] at hc'
    split at hc'
    · cases hc'
      exact hc
    · exact h.closure id c' hc'

end Scoped
end World

theorem Closure.scope_of_make {name : Option Symbol} {clauses : List Clause} {scope : Scope}
    {label : String} {c : Closure} (h : Closure.make name clauses scope label = .ok c) :
    c.scope = scope := by
  unfold Closure.make at h
  split at h
  · cases h
  · split at h
    · split at h
      · cases h
      · cases h
        rfl
    · cases h
      rfl

namespace ScopedSince
variable {base w v : World}

theorem of_eq (h : ScopedSince base w) (hframes : v.frames = w.frames)
    (hclosures : v.closures = w.closures) : ScopedSince base v :=
  ⟨by rw [hframes]; exact h.grows, h.wellFormed.of_eq hframes hclosures⟩

theorem modifyFrame (h : ScopedSince base w) (id : FrameId) {f : Frame → Frame}
    (hf : ∀ g, (f g).parent = g.parent) :
    ScopedSince base { w with frames := w.frames.modify id f } :=
  ⟨by simpa using h.grows, h.wellFormed.modifyFrame id hf⟩

end ScopedSince

theorem scopedSince_coupling : Coupling ScopedSince World.Has where
  fits_none _ := nofun
  fits_later _ _ _ h hscope := hscope.later h.grows
  closure _ _ id c h hc := h.wellFormed.closure id c hc
  names _ _ _ h := h.of_eq rfl rfl
  output _ _ _ h := h.of_eq rfl rfl
  events _ _ _ h := h.of_eq rfl rfl
  frame base w parent h hparent := by
    refine ⟨{ w with frames := w.frames.push { parent := parent } },
      ⟨Nat.le_refl _, h.wellFormed.pushFrame hparent⟩, ?_, fun v hv => ⟨?_, hv.wellFormed⟩,
      fun v f hf hv => hv.modifyFrame _ hf⟩
    · rintro _ ⟨rfl⟩
      simp
    · have hgrows := hv.grows
      have hbase := h.grows
      rw [Array.size_push] at hgrows
      omega
  newClosure _ _ _ _ _ _ _ h hscope hmake :=
    ⟨h.grows, h.wellFormed.pushClosure (Closure.scope_of_make hmake ▸ hscope)⟩
  newLazy _ _ := fun _ h => h.of_eq rfl rfl
  realize base _ _ _ h _ :=
    ⟨base, h.of_eq rfl rfl,
      fun _ _ hv => ⟨hv, fun _ _ => hv.of_eq rfl rfl, fun _ _ => hv.of_eq rfl rfl⟩⟩

theorem scopedSince_defining : Defining ScopedSince :=
  .of_spaces (fun _ _ _ h => h.of_eq rfl rfl) fun _ _ _ h => h.of_eq rfl rfl

/-- Evaluation keeps states well formed, as long as it starts in a scope that is there. -/
theorem run_scoped (n : Nat) (r : Request) {w : World} (hw : w.Scoped) (hscope : w.Has r.scope) :
    ScopedSince w ((Evaluation.run n r).after w) :=
  (scopedSince_coupling.run scopedSince_defining (Nat.le_refl n) r hscope).preserves w
    ⟨Nat.le_refl _, hw⟩

theorem value_scoped {n : Nat} {scope : Scope} {form x : Value} {base w v : World}
    (hscope : base.Has scope) (hw : ScopedSince base w)
    (h : (Engine.ofBudget n).value scope form w = .ok x v) : ScopedSince base v := by
  have htied := scopedSince_coupling.tied scopedSince_defining (Nat.le_refl n)
  exact after_ok h ▸ (htied.value hscope form).preserves w hw

/-- The newest binding of a symbol. -/
def newest (bindings : List (Symbol × Value)) (s : Symbol) : Option Value :=
  (bindings.reverse.find? fun b => b.1 == s).map (·.2)

theorem newest_append (bindings more : List (Symbol × Value)) (s : Symbol) :
    newest (bindings ++ more) s = (newest more s).or (newest bindings s) := by
  rw [newest, List.reverse_append, List.find?_append, Option.map_or]
  rfl

theorem newest_eq_none {bindings : List (Symbol × Value)} {s : Symbol}
    (h : s ∉ bindings.map (·.1)) : newest bindings s = none :=
  Frame.lookup?_eq_none (f := ⟨bindings, none⟩) h

/-- The look-up of a symbol in a scope comes to a frame before it finds a binding. -/
inductive Comes (frames : Array Frame) (s : Symbol) (frame : FrameId) : Scope → Prop
  | here : Comes frames s frame (some frame)
  | outward {id : FrameId} {f : Frame} : frames[id]? = some f → id ≠ frame → s ∉ f.symbols →
    Comes frames s frame f.parent → Comes frames s frame (some id)

/-- One frame has more bindings, and there may be more frames. -/
structure Extends (frame : FrameId) (pushed : List (Symbol × Value)) (before after : Array Frame) :
    Prop where
  own : ∀ f, before[frame]? = some f →
    after[frame]? = some { f with bindings := f.bindings ++ pushed }
  others : ∀ (id : FrameId) (f : Frame), id ≠ frame → before[id]? = some f → after[id]? = some f

section
variable {w v : World} {s : Symbol} {frame : FrameId} {pushed : List (Symbol × Value)}

theorem Extends.size_le {before after : Array Frame} (h : Extends frame pushed before after) :
    before.size ≤ after.size := by
  refine Nat.le_of_not_lt fun hlt => ?_
  have hf := Array.getElem?_eq_getElem hlt
  by_cases hown : after.size = frame
  · subst hown
    exact Nat.lt_irrefl _ (Array.getElem?_eq_some_iff.1 (h.own _ hf)).1
  · exact Nat.lt_irrefl _ (Array.getElem?_eq_some_iff.1 (h.others _ _ hown hf)).1

theorem World.Scoped.le_of_comes (hw : w.Scoped) {scope : Scope}
    (h : Comes w.frames s frame scope) : ∀ id, scope = some id → frame ≤ id := by
  induction h with
  | here =>
    rintro _ ⟨rfl⟩
    exact Nat.le_refl _
  | @outward id f hf _ _ hcomes ih =>
    rintro _ ⟨rfl⟩
    cases hp : f.parent with
    | none =>
      rw [hp] at hcomes
      cases hcomes
    | some p => exact Nat.le_trans (ih p hp) (Nat.le_of_lt (hw.parent_lt id f p hf hp))

theorem Comes.parent {id : FrameId} {f : Frame} (h : Comes w.frames s frame (some id))
    (hid : id ≠ frame) (hf : w.frames[id]? = some f) :
    s ∉ f.symbols ∧ Comes w.frames s frame f.parent := by
  cases h with
  | here => exact absurd rfl hid
  | outward hf' _ hs hparent =>
    rw [hf] at hf'
    cases hf'
    exact ⟨hs, hparent⟩

theorem World.Scoped.not_comes_parent (hw : w.Scoped) {f : Frame} (hf : w.frames[frame]? = some f) :
    ¬ Comes w.frames s frame f.parent := by
  intro hcomes
  cases hp : f.parent with
  | none =>
    rw [hp] at hcomes
    cases hcomes
  | some p =>
    have hlt := hw.parent_lt frame f p hf hp
    exact Nat.lt_irrefl _ (Nat.lt_of_lt_of_le hlt (hw.le_of_comes hcomes p hp))

theorem World.lookupFrames_succ {frames : Array Frame} {id : FrameId} {f : Frame}
    (hf : frames[id]? = some f) (n : Nat) :
    World.lookupFrames frames s (n + 1) (some id) =
      (f.lookup? s).or (World.lookupFrames frames s n f.parent) := by
  rw [World.lookupFrames, hf]
  dsimp only
  cases f.lookup? s <;> rfl

/-- More bindings of one frame are seen by the look-ups that come to it and by no others. -/
theorem World.Scoped.lookupFrames_extends (hw : w.Scoped)
    (h : Extends frame pushed w.frames v.frames) {scope : Scope} (hscope : w.Has scope) {n m : Nat}
    (hn : ∀ id, scope = some id → id < n) (hm : ∀ id, scope = some id → id < m) :
    (Comes w.frames s frame scope → World.lookupFrames v.frames s m scope =
      (newest pushed s).or (World.lookupFrames w.frames s n scope)) ∧
    (¬ Comes w.frames s frame scope → World.lookupFrames v.frames s m scope =
      World.lookupFrames w.frames s n scope) := by
  cases scope with
  | none => exact ⟨nofun, fun _ => by cases n <;> cases m <;> rfl⟩
  | some id =>
    -- on the place of the frame, since parents are older
    induction id using Nat.strongRecOn generalizing n m with
    | ind id ih =>
      have hid := hscope id rfl
      obtain ⟨n, rfl⟩ := Nat.exists_eq_add_of_le' (Nat.zero_lt_of_lt (hn id rfl))
      obtain ⟨m, rfl⟩ := Nat.exists_eq_add_of_le' (Nat.zero_lt_of_lt (hm id rfl))
      have hf : w.frames[id]? = some w.frames[id] := Array.getElem?_eq_getElem hid
      generalize w.frames[id] = f at hf
      have hparent : (Comes w.frames s frame f.parent → World.lookupFrames v.frames s m f.parent =
            (newest pushed s).or (World.lookupFrames w.frames s n f.parent)) ∧
          (¬ Comes w.frames s frame f.parent → World.lookupFrames v.frames s m f.parent =
            World.lookupFrames w.frames s n f.parent) := by
        cases hp : f.parent with
        | none => exact ⟨nofun, fun _ => by cases n <;> cases m <;> rfl⟩
        | some p =>
          have hlt := hw.parent_lt id f p hf hp
          refine ih p hlt ?_ ?_ ?_
          · rintro _ ⟨rfl⟩
            exact Nat.lt_trans hlt hid
          · rintro _ ⟨rfl⟩
            exact Nat.lt_of_lt_of_le hlt (Nat.le_of_lt_succ (hn id rfl))
          · rintro _ ⟨rfl⟩
            exact Nat.lt_of_lt_of_le hlt (Nat.le_of_lt_succ (hm id rfl))
      rw [World.lookupFrames_succ hf]
      by_cases hown : id = frame
      · subst hown
        have hlookup : Frame.lookup? { f with bindings := f.bindings ++ pushed } s =
            (newest pushed s).or (f.lookup? s) := newest_append f.bindings pushed s
        rw [World.lookupFrames_succ (h.own f hf), hlookup, Option.or_assoc,
          hparent.2 (hw.not_comes_parent hf)]
        exact ⟨fun _ => rfl, fun hfar => absurd .here hfar⟩
      · rw [World.lookupFrames_succ (h.others id f hown hf)]
        by_cases hs : s ∈ f.symbols
        · obtain ⟨u, hu⟩ := Option.isSome_iff_exists.1 (Frame.lookup?_isSome hs)
          rw [hu, Option.some_or, Option.some_or]
          exact ⟨fun hcomes => absurd hs (hcomes.parent hown hf).1, fun _ => rfl⟩
        · rw [Frame.lookup?_eq_none hs, Option.none_or, Option.none_or]
          exact ⟨fun hcomes => hparent.1 (hcomes.parent hown hf).2,
            fun hfar => hparent.2 fun hcomes => hfar (.outward hf hown hs hcomes)⟩

theorem KeepsFrames.extended (h : KeepsFrames w v) (frame : FrameId) :
    Extends frame [] w.frames v.frames where
  own f hf := by
    rw [h.getElem? hf, List.append_nil]
  others _ _ _ hf := h.getElem? hf

/-- Frames that are added later, and fuel beyond what the chain needs, make no difference. -/
theorem World.Scoped.lookupFrames_keeps (hw : w.Scoped) (h : KeepsFrames w v) {scope : Scope}
    (hscope : w.Has scope) {n m : Nat} (hn : ∀ id, scope = some id → id < n)
    (hm : ∀ id, scope = some id → id < m) :
    World.lookupFrames v.frames s m scope = World.lookupFrames w.frames s n scope := by
  have hextends := hw.lookupFrames_extends (s := s) (h.extended 0) hscope hn hm
  by_cases hcomes : Comes w.frames s 0 scope
  · exact hextends.1 hcomes
  · exact hextends.2 hcomes

/-- The look-up finds what it finds from the frame on that it comes to. -/
theorem Comes.lookupFrames_eq (hw : w.Scoped) {scope : Scope} (h : Comes w.frames s frame scope)
    (hscope : w.Has scope) {n m : Nat} (hn : ∀ id, scope = some id → id < n) (hm : frame < m) :
    World.lookupFrames w.frames s n scope = World.lookupFrames w.frames s m (some frame) := by
  induction h generalizing n with
  | here =>
    refine hw.lookupFrames_keeps (.refl w) hscope ?_ hn
    rintro _ ⟨rfl⟩
    exact hm
  | @outward id f hf _ hs _ ih =>
    obtain ⟨n, rfl⟩ := Nat.exists_eq_add_of_le' (Nat.zero_lt_of_lt (hn id rfl))
    have hlt : ∀ p, f.parent = some p → p < id := fun p hp => hw.parent_lt id f p hf hp
    rw [World.lookupFrames_succ hf, Frame.lookup?_eq_none hs, Option.none_or]
    refine ih (fun p hp => Nat.lt_trans (hlt p hp) (hscope id rfl)) fun p hp => ?_
    exact Nat.lt_of_lt_of_le (hlt p hp) (Nat.le_of_lt_succ (hn id rfl))

end
end LazyLisp
