import LazyLisp.Proofs.MapHistory
import LazyLisp.Proofs.Unfolding

/-!
Lazy sequences that the library makes. Between two runs of foreign code the library's own code adds
frames, closures and cells and finishes cells whose thunks are running; of a frame, it may change
what no closure can see. A lazy cell that holds a form gives, when it is looked at, what the form
gives.
-/

namespace LazyLisp
set_option autoImplicit false

/-- What every computation keeps: frames, closures, the outcomes of cells, and which thunks are
running. -/
structure Kept (w v : World) : Prop where
  frames : KeepsFrames w v
  closures : ∀ (id : ClosureId) (c : Closure), w.closures[id]? = some c → v.closures[id]? = some c
  attached : v.attached = w.attached
  log : v.log = w.log
  realized : ∀ (c : CellId) (s : Seq), w.cells[c]? = some (.realized s) →
    v.cells[c]? = some (.realized s)
  realizing : ∀ c : CellId, w.cells[c]? = some .realizing → v.cells[c]? = some .realizing

namespace Kept
variable {w v u : World}

theorem refl (w : World) : Kept w w :=
  ⟨.refl w, fun _ _ h => h, rfl, rfl, fun _ _ h => h, fun _ h => h⟩

theorem trans (h : Kept w v) (h' : Kept v u) : Kept w u where
  frames := h.frames.trans h'.frames
  closures id c hc := h'.closures id c (h.closures id c hc)
  attached := h'.attached.trans h.attached
  log := h'.log.trans h.log
  realized c s hc := h'.realized c s (h.realized c s hc)
  realizing c hc := h'.realizing c (h.realizing c hc)

theorem of_idle (h : Idle w v) : Kept w v where
  frames := h.frames
  closures _ _ hc := h.closures ▸ hc
  attached := h.attached
  log := h.log
  realized _ _ hc := h.cells ▸ hc
  realizing _ hc := h.cells ▸ hc

theorem of_eq (h : Kept w v) (hframes : u.frames = v.frames) (hclosures : u.closures = v.closures)
    (hattached : u.attached = v.attached) (hlog : u.log = v.log) (hcells : u.cells = v.cells) :
    Kept w u where
  frames := h.frames.of_eq hframes
  closures := hclosures ▸ h.closures
  attached := hattached.trans h.attached
  log := hlog.trans h.log
  realized := hcells ▸ h.realized
  realizing := hcells ▸ h.realizing

/-- A cell whose thunk had not been started can be anything. -/
theorem setCell (h : Kept w v) {c : CellId} {thunk : Value} {z : World} (hz : Kept w z)
    (hc : z.cells[c]? = some (.pending thunk)) (cell : Cell) : Kept w (v.setCell c cell) := by
  have hstarted : ∀ i cell, w.cells[i]? = some cell →
      (cell = .realizing ∨ ∃ s, cell = .realized s) → i ≠ c := by
    rintro i cell hi hcell rfl
    rcases hcell with rfl | ⟨s, rfl⟩
    · cases hc.symm.trans (hz.realizing i hi)
    · cases hc.symm.trans (hz.realized i s hi)
  refine ⟨h.frames.of_eq rfl, h.closures, h.attached, h.log, fun i s hi => ?_, fun i hi => ?_⟩
  · have hne := hstarted i _ hi (.inr ⟨s, rfl⟩)
    exact (World.cells_setCell_ne v cell hne).trans (h.realized i s hi)
  · have hne := hstarted i _ hi (.inl rfl)
    exact (World.cells_setCell_ne v cell hne).trans (h.realizing i hi)

end Kept

theorem getElem?_push_of_some {α : Type} {xs : Array α} {i : Nat} {a : α} (h : xs[i]? = some a)
    (b : α) : (xs.push b)[i]? = some a := by
  have hlt := (Array.getElem?_eq_some_iff.1 h).1
  rw [Array.getElem?_push, if_neg (Nat.ne_of_lt hlt), h]

theorem kept_invariant : Invariant Kept where
  fits_none _ := trivial
  fits_later _ _ _ _ _ := trivial
  closure _ _ _ _ _ _ := trivial
  names _ _ _ h := h.of_eq rfl rfl rfl rfl rfl
  output _ _ _ h := h.of_eq rfl rfl rfl rfl rfl
  events _ _ _ h := h.of_eq rfl rfl rfl rfl rfl
  frame base w parent h _ := by
    have hpush := (Idle.refl w).pushFrame { parent := parent }
    refine ⟨base, h.trans (.of_idle hpush), trivial, fun _ hv => hv, fun v f _ hv => ?_⟩
    exact ⟨hv.frames.modify h.frames.grows f, hv.closures, hv.attached, hv.log, hv.realized,
      hv.realizing⟩
  newClosure _ _ _ _ _ _ _ h _ _ :=
    ⟨h.frames.of_eq rfl, fun id c hc => getElem?_push_of_some (h.closures id c hc) _, h.attached,
      h.log, h.realized, h.realizing⟩
  newLazy _ _ := fun _ h =>
    ⟨h.frames.of_eq rfl, h.closures, h.attached, h.log,
      fun c s hc => getElem?_push_of_some (h.realized c s hc) _,
      fun c hc => getElem?_push_of_some (h.realizing c hc) _⟩
  realize base w c _ h hpending :=
    ⟨base, h.setCell h hpending _, fun _ _ hv =>
      ⟨hv, fun _ _ => hv.setCell h hpending _, fun _ _ => hv.setCell h hpending _⟩⟩
  toDefining := .of_spaces (fun _ _ _ h => h.of_eq rfl rfl rfl rfl rfl)
    fun _ _ _ h => h.of_eq rfl rfl rfl rfl rfl

theorem kept_of_ok {α : Type} {m : Eval α} {w v : World} {a : α}
    (h : ∀ base, Preserves (Kept base) m) (hrun : m w = .ok a v) : Kept w v :=
  after_ok hrun ▸ h w w (.refl w)

theorem Evaluation.kept_of_calls {w v : World} {scope : Scope} {callee x : Value}
    {args : List Value} (h : ComesTo (calls scope callee args) w (.ok x v)) : Kept w v := by
  obtain ⟨-, n, hn⟩ := h
  obtain ⟨o, u, ho, hvalue⟩ := run_bind_eq_ok.1 (hn n (Nat.le_refl n))
  have hkept := kept_of_ok (fun _ => kept_invariant.run (n + 1) (.apply scope callee args)) ho
  cases o with
  | value y =>
    cases hvalue
    exact hkept
  | again ys => cases hvalue

theorem Evaluation.kept_of_values {w v : World} {scope : Scope} {form x : Value}
    (h : ComesTo (values scope form) w (.ok x v)) : Kept w v := by
  obtain ⟨-, n, hn⟩ := h
  exact kept_of_ok (fun _ => (kept_invariant.keeps n).value scope form) (hn n (Nat.le_refl n))

namespace Seq.Takes
variable {w v u : World} {s : Seq} {o : Option (Value × Seq)}

theorem kept (h : Takes w s o v) : Kept w v := by
  induction h with
  | @lazy w v u c cell n s o hc hrealize _ ih =>
    have htied : (Engine.ofBudget n).Tied id _ _ _ := kept_invariant.keeps n
    have hkept : Kept w ((realize (.ofBudget n) c).after w) :=
      (htied.realize c).preserves w (.refl w)
    rw [after_ok hrealize] at hkept
    exact hkept.trans ih
  | part parts h ih => exact ih
  | last h ih => exact ih
  | next h hnext ih ihnext => exact ih.trans ihnext
  | _ => exact .refl _

end Seq.Takes

/-! The library's own code. -/

namespace World

/-- The scope lies inside the frame. -/
inductive Reaches (w : World) (id : FrameId) : Scope → Prop
  | here : Reaches w id (some id)
  | outward {inner : FrameId} {f : Frame} (hf : w.frames[inner]? = some f)
      (h : Reaches w id f.parent) : Reaches w id (some inner)

/-- A closure can look symbols up in the frame. -/
def Seen (w : World) (id : FrameId) : Prop :=
  ∃ (k : ClosureId) (c : Closure), w.closures[k]? = some c ∧ w.Reaches id c.scope

variable {w v : World} {id : FrameId}

/-- Closures go on seeing what they see. -/
theorem Seen.along (h : w.Seen id)
    (hframes : ∀ (i : FrameId) (f : Frame), w.Seen i → w.frames[i]? = some f → v.frames[i]? = some f)
    (hclosures : ∀ (k : ClosureId) (c : Closure), w.closures[k]? = some c → v.closures[k]? = some c) :
    v.Seen id := by
  obtain ⟨k, c, hc, hreaches⟩ := h
  have hkeeps : ∀ scope, w.Reaches id scope → (∀ i, w.Reaches i scope → w.Seen i) →
      v.Reaches id scope := by
    intro scope hreaches
    induction hreaches with
    | here => exact fun _ => .here
    | @outward inner f hf _ ih =>
      intro hall
      exact .outward (hframes inner f (hall inner .here) hf)
        (ih fun i hi => hall i (.outward hf hi))
  exact ⟨k, c, hclosures k c hc, hkeeps _ hreaches fun i hi => ⟨k, c, hc, hi⟩⟩

/-- The layers of a scope that closures see. -/
theorem Layers.along {scope : Scope} {layers : List (List (Symbol × Value))}
    (h : w.Layers scope layers) (hseen : ∀ i, w.Reaches i scope → w.Seen i)
    (hframes : ∀ (i : FrameId) (f : Frame), w.Seen i → w.frames[i]? = some f →
      v.frames[i]? = some f) : v.Layers scope layers := by
  induction h with
  | outermost => exact .outermost
  | inside hf hparent _ ih =>
    exact .inside (hframes _ _ (hseen _ .here) hf) hparent (ih fun i hi => hseen i (.outward hf hi))

end World

/-- What the library's own code does between two runs of foreign code. It changes no frame that a
closure can see, and of the cells that were there before it finishes those whose thunks are
running. -/
structure Works (w v : World) : Prop where
  grows : w.frames.size ≤ v.frames.size
  frames : ∀ (id : FrameId) (f : Frame), w.Seen id → w.frames[id]? = some f →
    v.frames[id]? = some f
  closures : ∀ (id : ClosureId) (c : Closure), w.closures[id]? = some c → v.closures[id]? = some c
  cells : ∀ (c : CellId) (cell : Cell), w.cells[c]? = some cell → v.cells[c]? = some cell ∨
    cell = .realizing ∧ ∃ s, v.cells[c]? = some (.realized s)
  rest : { v with frames := w.frames, closures := w.closures, cells := w.cells,
                  events := w.events } = w

namespace Works
variable {w v u : World}

theorem refl (w : World) : Works w w :=
  ⟨Nat.le_refl _, fun _ _ _ h => h, fun _ _ h => h, fun _ _ h => .inl h, rfl⟩

section
variable (h : Works w v)
include h

theorem spaces : v.spaces = w.spaces := (congrArg World.spaces h.rest :)

theorem current : v.current = w.current := (congrArg World.current h.rest :)

theorem attached : v.attached = w.attached := (congrArg World.attached h.rest :)

theorem log : v.log = w.log := (congrArg World.log h.rest :)

theorem global? (s : Symbol) : v.global? s = w.global? s := by
  unfold World.global? World.lookupVar? World.varValue
  rw [h.spaces, h.current]

theorem stocked {entries : List Library.Entry} {builtins : List Builtin}
    (hw : w.Stocked entries builtins) : v.Stocked entries builtins :=
  hw.along (fun s _ hx => (h.global? s).trans hx) h.closures

theorem idle (hvu : Idle v u) : Works w u where
  grows := Nat.le_trans h.grows hvu.frames.grows
  frames id f hseen hf := hvu.frames.getElem? (h.frames id f hseen hf)
  closures := hvu.closures ▸ h.closures
  cells := hvu.cells ▸ h.cells
  rest := by
    calc { u with frames := w.frames, closures := w.closures, cells := w.cells,
                  events := w.events }
        = { { u with frames := v.frames, events := v.events } with
              frames := w.frames, closures := w.closures, cells := w.cells,
              events := w.events } := rfl
      _ = w := by rw [hvu.rest, h.rest]

theorem pushClosure (c : Closure) : Works w { v with closures := v.closures.push c } :=
  ⟨h.grows, h.frames, fun id c hc => getElem?_push_of_some (h.closures id c hc) _, h.cells, h.rest⟩

theorem pushCell (cell : Cell) : Works w { v with cells := v.cells.push cell } := by
  refine ⟨h.grows, h.frames, h.closures, fun c old hold => ?_, h.rest⟩
  rcases h.cells c old hold with hc | ⟨hrunning, s, hc⟩
  · exact .inl (getElem?_push_of_some hc _)
  · exact .inr ⟨hrunning, s, getElem?_push_of_some hc _⟩

theorem cell_lt {c : CellId} (hc : c < w.cells.size) : c < v.cells.size := by
  rcases h.cells c _ (Array.getElem?_eq_getElem hc) with hv | ⟨-, s, hv⟩
  · exact (Array.getElem?_eq_some_iff.1 hv).1
  · exact (Array.getElem?_eq_some_iff.1 hv).1

/-- A cell that is new, or whose thunk is running and has come to an end. -/
theorem setCell {c : CellId} {cell : Cell} (hc : ∀ old, w.cells[c]? = some old →
      old = .realizing ∧ ∃ s, cell = .realized s) : Works w (v.setCell c cell) := by
  refine ⟨h.grows, h.frames, h.closures, fun i old hold => ?_, h.rest⟩
  by_cases hi : i = c
  · subst hi
    obtain ⟨rfl, s, rfl⟩ := hc old hold
    exact .inr ⟨rfl, s, World.cells_setCell_self (h.cell_lt (Array.getElem?_eq_some_iff.1 hold).1)⟩
  · have hsame := World.cells_setCell_ne v cell hi
    rcases h.cells i old hold with hv | ⟨hrunning, s, hv⟩
    · exact .inl (hsame.trans hv)
    · exact .inr ⟨hrunning, s, hsame.trans hv⟩

/-- The same change of a cell before the work and after it. -/
theorem setCell_both (c : CellId) (cell : Cell) : Works (w.setCell c cell) (v.setCell c cell) := by
  refine ⟨h.grows, fun id f hseen hf => ?_, h.closures, fun i old hold => ?_,
    (congrArg (·.setCell c cell) h.rest :)⟩
  · exact h.frames id f (hseen.along (fun _ _ _ hf => hf) fun _ _ hc => hc) hf
  · by_cases hi : i = c
    · subst hi
      have hlt : i < w.cells.size := by
        simpa [World.setCell] using (Array.getElem?_eq_some_iff.1 hold).1
      obtain rfl := Option.some.inj ((World.cells_setCell_self hlt).symm.trans hold)
      exact .inl (World.cells_setCell_self (h.cell_lt hlt))
    · rw [World.cells_setCell_ne w cell hi] at hold
      rw [World.cells_setCell_ne v cell hi]
      exact h.cells i old hold

theorem modifyFrame {id : FrameId} (hid : w.Seen id → w.frames.size ≤ id) (f : Frame → Frame) :
    Works w { v with frames := v.frames.modify id f } := by
  refine ⟨by simpa using h.grows, fun i g hseen hg => ?_, h.closures, h.cells, h.rest⟩
  have hne : id ≠ i := by
    rintro rfl
    exact absurd (Array.getElem?_eq_some_iff.1 hg).1 (Nat.not_lt.2 (hid hseen))
  rw [Array.getElem?_modify, if_neg hne]
  exact h.frames i g hseen hg

theorem realized (c : CellId) (s : Seq) (hc : w.cells[c]? = some (.realized s)) :
    v.cells[c]? = some (.realized s) := by
  rcases h.cells c _ hc with hv | ⟨hrunning, -⟩
  · exact hv
  · cases hrunning

theorem seen {id : FrameId} (hseen : w.Seen id) : v.Seen id :=
  hseen.along h.frames h.closures

theorem trans (h' : Works v u) : Works w u where
  grows := Nat.le_trans h.grows h'.grows
  frames id f hseen hf := h'.frames id f (h.seen hseen) (h.frames id f hseen hf)
  closures id c hc := h'.closures id c (h.closures id c hc)
  cells c cell hc := by
    rcases h.cells c cell hc with hv | ⟨rfl, s, hv⟩
    · exact h'.cells c cell hv
    · exact .inr ⟨rfl, s, h'.realized c s hv⟩
  rest := by
    calc { u with frames := w.frames, closures := w.closures, cells := w.cells,
                  events := w.events }
        = { { u with frames := v.frames, closures := v.closures, cells := v.cells,
                     events := v.events } with
              frames := w.frames, closures := w.closures, cells := w.cells,
              events := w.events } := rfl
      _ = w := by rw [h'.rest, h.rest]

end

theorem of_idle (h : Idle w v) : Works w v := (refl w).idle h

end Works

/-- A lazy cell that waits to evaluate a form in a scope. -/
def Suspends (w : World) (c : CellId) (form : Value) (layers : List (List (Symbol × Value))) :
    Prop :=
  ∃ id scope, w.cells[c]? = some (.pending (.function id)) ∧
    w.closures[id]? = some ⟨none, [⟨[], none, [form]⟩], none, scope⟩ ∧ w.Layers scope layers

namespace Suspends
open Evaluation
variable {w v : World} {c : CellId} {form : Value} {layers : List (List (Symbol × Value))}

/-- A look at the cell evaluates the form, keeps what comes of it, and looks there. -/
theorem looks (h : Suspends w c form layers) (hattached : w.attached = true) :
    ∃ u frame, Idle (w.setCell c .realizing) u ∧ u.Layers (some frame) ([] :: layers) ∧
      (∀ x v, ComesTo (values (some frame) form) u (.ok x v) → ∀ s, x.toSeq? = some s → ∀ o z,
        Seq.Takes (v.setCell c (.realized s)) s o z → Seq.Takes w (.lazy c) o z) ∧
      (∀ err v, ComesTo (outcomes (some frame) form) u (.error (.error err) v) →
        ComesTo (fun n => (Seq.lazy c).uncons (.ofBudget n)) w
          (.error (.error err) (v.setCell c (.failed err)))) ∧
      ∀ o z, Seq.Takes w (.lazy c) o z → ∃ r, ComesTo (values (some frame) form) u r := by
  obtain ⟨id, scope, hc, hclosure, hlayers⟩ := h
  have hclosure' : (w.setCell c .realizing).closures[id]? =
      some ⟨none, [⟨[], none, [form]⟩], none, scope⟩ := hclosure
  obtain ⟨u, frame, hu, hinside, hvalue, herror, hends⟩ :=
    function_applies [] hclosure' (hlayers.keeps ((KeepsFrames.refl w).of_eq rfl)) rfl rfl
  have hrealize : ∀ n, Seq.realize (.ofBudget n) c w =
      Seq.kept c (Seq.produce (.ofBudget n) (.function id) (w.setCell c .realizing)) := by
    intro n
    rw [Seq.realize_of_some hc]
    rfl
  have hproduce : ∀ n, Seq.produce (.ofBudget n) (.function id) (w.setCell c .realizing) =
      ((Engine.ofBudget n).apply none (.function id) [] >>= Seq.ofProduct)
        (w.setCell c .realizing) := fun n =>
    Seq.produce_attached (w := w.setCell c .realizing) hattached _ _
  refine ⟨u, frame, hu, hinside, fun x v hx s hs o z hz => ?_, fun err v herr => ?_,
    fun o z hlook => ?_⟩
  · obtain ⟨-, n, hn⟩ := hvalue x v (comesTo_outcome hx) none
    have happly : (Engine.ofBudget (n + 1)).apply none (.function id) [] (w.setCell c .realizing) =
        .ok x v := run_bind_ok (hn n (Nat.le_refl n)) _
    refine .lazy (n := n + 1) hc ?_ hz
    rw [hrealize, hproduce, run_bind_ok happly, Seq.ofProduct, hs]
    rfl
  · obtain ⟨-, n, hn⟩ := herror err v herr none
    refine ⟨.error err _, n + 1, fun m hm => ?_⟩
    obtain ⟨m, rfl⟩ := Nat.exists_eq_add_of_le' (Nat.le_trans (Nat.succ_pos n) hm)
    have happly : (Engine.ofBudget (m + 1)).apply none (.function id) [] (w.setCell c .realizing) =
        .error (.error err) v := run_bind_error (hn m (by omega)) _
    have hfailed : Seq.realize (.ofBudget (m + 1)) c w =
        .error (.error err) (v.setCell c (.failed err)) := by
      rw [hrealize, hproduce, run_bind_error happly]
      rfl
    show (Seq.lazy c).uncons (.ofBudget (m + 1)) w = _
    rw [Seq.uncons_eq (Engine.ofBudget_keepsCells _)]
    exact run_bind_error hfailed _
  · cases hlook with
    | @lazy _ v _ _ cell n s _ hcell hrun hlook =>
      rw [hrealize, hproduce] at hrun
      generalize hresult : ((Engine.ofBudget n).apply none (.function id) [] >>= Seq.ofProduct)
        (w.setCell c .realizing) = r at hrun
      have hended : Ended r := by
        rcases r with ⟨t, y⟩ | ⟨err | _, y⟩
        · exact .ok t y
        · cases hrun
        · cases hrun
      have hcall : Ended ((Engine.ofBudget n).call (.apply none (.function id) [])
          (w.setCell c .realizing)) := Ended.of_bind (Ended.of_bind (hresult ▸ hended))
      refine hends none _ ⟨hcall, n, fun m hm => ?_⟩
      exact run_mono (Nat.le_succ_of_le hm) hcall

/-- A look at the cell, where what the form evaluates to is known. -/
theorem looks_secured (h : Suspends w c form layers) (hattached : w.attached = true)
    {Q : Value → World → Prop}
    (hform : ∀ u frame, Idle (w.setCell c .realizing) u → u.Layers (some frame) ([] :: layers) →
      Secures (values (some frame) form) u Q) :
    ∃ x v, Q x v ∧ ∀ s, x.toSeq? = some s → ∀ o z,
      Seq.Takes (v.setCell c (.realized s)) s o z → Seq.Takes w (.lazy c) o z := by
  obtain ⟨u, frame, hu, hinside, hvalue, -, -⟩ := h.looks hattached
  obtain ⟨x, v, hx, hQ⟩ := hform u frame hu hinside u (.refl u)
  exact ⟨x, v, hQ, hvalue x v hx⟩

theorem kept (h : Suspends w c form layers) (hwv : Kept w v)
    (hc : v.cells[c]? = w.cells[c]?) : Suspends v c form layers := by
  obtain ⟨id, scope, hcell, hclosure, hlayers⟩ := h
  exact ⟨id, scope, hc.trans hcell, hwv.closures _ _ hclosure, hlayers.keeps hwv.frames⟩

theorem works (h : Suspends w c form layers) (hwv : Works w v) : Suspends v c form layers := by
  obtain ⟨id, scope, hcell, hclosure, hlayers⟩ := h
  have hpending : v.cells[c]? = some (.pending (.function id)) := by
    rcases hwv.cells c _ hcell with hv | ⟨hrunning, -⟩
    · exact hv
    · cases hrunning
  exact ⟨id, scope, hpending, hwv.closures _ _ hclosure,
    hlayers.along (fun _ hi => ⟨id, _, hclosure, hi⟩) hwv.frames⟩

/-- Another cell has come to an end. -/
theorem setCell (h : Suspends w c form layers) {i : CellId} (hi : c ≠ i) (cell : Cell) :
    Suspends (w.setCell i cell) c form layers := by
  obtain ⟨id, scope, hcell, hclosure, hlayers⟩ := h
  exact ⟨id, scope, (World.cells_setCell_ne w cell hi).trans hcell, hclosure,
    hlayers.keeps ((KeepsFrames.refl w).of_eq rfl)⟩

end Suspends

theorem World.Stocked.setCell {w : World} {entries : List Library.Entry} {builtins : List Builtin}
    (h : w.Stocked entries builtins) (c : CellId) (cell : Cell) :
    (w.setCell c cell).Stocked entries builtins :=
  h.along (fun _ _ h => h) fun _ _ h => h

namespace Evaluation
open Library
variable {w : World} {scope : Scope} {b : Value} {layers : List (List (Symbol × Value))}

/-- A use of `lazy-seq` makes a cell that waits to evaluate the form. -/
theorem lazySeq_makes (hlayers : w.Layers scope layers) (he : w.Provides scope .lazySeq)
    (hbuiltin : w.Means scope Builtin.lazySeq.nameId (.builtin .lazySeq)) (hcode : b.isCode = true) :
    ∃ c v, ComesTo (values scope (use .lazySeq [b])) w (.ok (.seq (.lazy c)) v) ∧ Works w v ∧
      w.cells.size ≤ c ∧ Suspends v c b layers := by
  have hb : ∀ log, ∀ form ∈ [b], form.Tellable log := fun log =>
    List.forall_mem_singleton.2 (.of_timeless (Value.timeless_of_isCode b hcode))
  have huse : (use .lazySeq [b]).Tellable w.log :=
    .list (List.forall_mem_cons.2 ⟨.word _, hb w.log⟩)
  obtain ⟨u, hwu, hexpanded⟩ := use_continues rfl he (Value.isList_list _) huse
    fun id hc => lazySeq_expands hc (hb w.log)
  have hform : (lazySeqForm [b]).IsList [word Builtin.lazySeq.nameId,
      .spliced [[.special .lambda], [.vector []], [b]]] := Value.isList_spliced _
  have hthunk : (Value.spliced [[.special .lambda], [.vector []], [b]]).IsList
      [.special .lambda, .vector [], b] := Value.isList_spliced _
  obtain ⟨z, huz, hcall⟩ := call_continues hform (lazySeqForm_tellable (hb u.log)) nofun
    (hbuiltin.along hwu).heads nofun
  obtain ⟨y, hzy, hmade⟩ := lambda_makes ⟨[], none, [b]⟩ hthunk
    (thunkForm_tellable (hb z.log)) nofun (fun _ => rfl) rfl scope
  have hwy := hwu.trans (huz.trans hzy)
  let t : World := { y with closures := y.closures.push ⟨none, [⟨[], none, [b]⟩], none, scope⟩ }
  have hmade : ComesTo (values scope (.spliced [[.special .lambda], [.vector []], [b]])) z
    (.ok (.function y.closures.size) t) := hmade
  have hlazy : ComesTo (fun n => applyValue (.ofBudget n) scope (.builtin .lazySeq)
      [.function y.closures.size]) t (.ok (.value (.seq (.lazy y.cells.size)))
        { t with cells := t.cells.push (.pending (.function y.closures.size)) }) :=
    .always (.ok _ _) fun _ => rfl
  have hargs := comesTo_mapM_cons hmade (comesTo_mapM_nil scope t)
  have hsize : w.cells.size ≤ y.cells.size := by rw [hwy.cells]
  exact ⟨_, _, comesTo_value (hexpanded.comesTo (hcall.comesTo (hargs.bind hlazy))),
    ((Works.of_idle hwy).pushClosure _).pushCell _, hsize, y.closures.size, scope, by simp [t],
    by simp [t], hlayers.keeps (hwy.frames.of_eq rfl)⟩

variable {id : ClosureId} {clause : Clause}

/-- A call of a function whose body is a use of `lazy-seq`. -/
theorem entry_suspends (e : Entry) (xs : List Value) (hc : w.closures[id]? = some e.closure)
    (hw : w.Stocked [.lazySeq] [.lazySeq]) (hclause : e.closure.select? xs.length = some clause)
    (hbody : clause.body = [use .lazySeq [b]]) (hcode : b.isCode = true)
    (hfree : meaningIn [clause.bindings xs, [(.plain e.name, .function id)]]
      (.plain Entry.lazySeq.name) = none)
    (hbuiltin : meaningIn [clause.bindings xs, [(.plain e.name, .function id)]]
      (.plain Builtin.lazySeq.nameId) = none) :
    ∃ c v, (∀ scope, ComesTo (applications scope (.function id) xs) w
        (.ok (.value (.seq (.lazy c))) v)) ∧ Works w v ∧ w.cells.size ≤ c ∧
      Suspends v c b [clause.bindings xs, [(.plain e.name, .function id)]] := by
  obtain ⟨u, frame, hwu, hlayers, happlies, -, -⟩ := function_applies xs hc .outermost hclause hbody
  have hu := hw.idle hwu
  obtain ⟨c, v, hmade, hworks, hfresh, hsuspends⟩ := lazySeq_makes hlayers
    (hu.provides hlayers .lazySeq (by decide) hfree)
    (hu.means_builtin hlayers .lazySeq (by decide) hbuiltin) hcode
  refine ⟨c, v, fun scope => ?_, (Works.of_idle hwu).trans hworks, hwu.cells ▸ hfresh, hsuspends⟩
  exact (applications_continue scope _ xs w).comesTo (happlies _ _ (comesTo_outcome hmade) scope)

end Evaluation
end LazyLisp
