import LazyLisp.Proofs.EvaluationEffects

/-!
The histories of lazy cells. A run leaves a history of the thunks that it started, each with the
history of what happened inside it. No cell is started twice, and one that has been started never
waits again: it keeps the outcome of its thunk for good.
-/

namespace LazyLisp
set_option autoImplicit false

def Cell.isPending : Cell → Bool
  | pending _ => true
  | _ => false

/-- What a cell may have become when a demand is met. While its thunk runs, it stays as it is. -/
inductive Cell.Becomes : Cell → Cell → Prop
  | same (cell : Cell) : Becomes cell cell
  | started (thunk : Value) : Becomes (.pending thunk) .realizing
  | realized (thunk : Value) (s : Seq) : Becomes (.pending thunk) (.realized s)
  | failed (thunk : Value) (err : EvalError) : Becomes (.pending thunk) (.failed err)

namespace Cell.Becomes
variable {a b c : Cell}

theorem trans (hab : a.Becomes b) (hbc : b.Becomes c) : a.Becomes c := by
  cases hab with
  | same => exact hbc
  | started thunk =>
    cases hbc
    exact .started thunk
  | realized thunk s =>
    cases hbc
    exact .realized thunk s
  | failed thunk err =>
    cases hbc
    exact .failed thunk err

theorem isPending (h : a.Becomes b) (hb : b.isPending = true) : a.isPending = true := by
  cases h with
  | same => exact hb
  | started => rfl
  | realized => rfl
  | failed => rfl

end Cell.Becomes

namespace World

theorem cells_setCell_self {w : World} {c : CellId} {cell : Cell} (hc : c < w.cells.size) :
    (w.setCell c cell).cells[c]? = some cell := by
  rw [setCell, Array.getElem?_setIfInBounds_self_of_lt hc]

theorem cells_setCell_ne (w : World) {c i : CellId} (cell : Cell) (hi : i ≠ c) :
    (w.setCell c cell).cells[i]? = w.cells[i]? := by
  rw [setCell, Array.getElem?_setIfInBounds_ne (Ne.symm hi)]

end World

/-- Where the run of a thunk leads: to a state in which it still runs, or to one where the cell
keeps what came of it. -/
inductive Seq.Leaves (c : CellId) (thunk : Value) (start : World) : World → World → Prop
  | running (u : World) : Leaves c thunk start u u
  | result {e : Engine} {s : Seq} {u : World} : Seq.produce e thunk start = .ok s u →
    Leaves c thunk start u (u.setCell c (.realized s))
  | failure {e : Engine} {err : EvalError} {u : World} :
    Seq.produce e thunk start = .error (.error err) u →
    Leaves c thunk start u (u.setCell c (.failed err))

/-- The history of the lazy cells between two states, with the cells whose thunks were started. -/
inductive Forcing : World → List CellId → World → Prop
  | start (w : World) : Forcing w [] w
  | other {w v v' : World} {started : List CellId} : Forcing w started v → v'.cells = v.cells →
    Forcing w started v'
  | made {w v v' : World} {started : List CellId} {thunk : Value} : Forcing w started v →
    v'.cells = v.cells.push (.pending thunk) → Forcing w started v'
  | ran {w v u u' : World} {started inner : List CellId} {c : CellId} {thunk : Value} :
    Forcing w started v → v.cells[c]? = some (.pending thunk) →
    Forcing (v.setCell c .realizing) inner u → Seq.Leaves c thunk (v.setCell c .realizing) u u' →
    Forcing w (started ++ c :: inner) u'

namespace Seq.Leaves
variable {c : CellId} {thunk : Value} {start u u' : World}

theorem cells_ne (h : Leaves c thunk start u u') {i : CellId} (hi : i ≠ c) :
    u'.cells[i]? = u.cells[i]? := by
  cases h with
  | running => rfl
  | result => exact u.cells_setCell_ne _ hi
  | failure => exact u.cells_setCell_ne _ hi

theorem cells_self (h : Leaves c thunk start u u') (hc : u.cells[c]? = some .realizing) :
    ∃ cell, u'.cells[c]? = some cell ∧ cell.isPending = false ∧
      (Cell.pending thunk).Becomes cell := by
  have hlt := (Array.getElem?_eq_some_iff.1 hc).1
  cases h with
  | running => exact ⟨_, hc, rfl, .started thunk⟩
  | result => exact ⟨_, World.cells_setCell_self hlt, rfl, .realized thunk _⟩
  | failure => exact ⟨_, World.cells_setCell_self hlt, rfl, .failed thunk _⟩

end Seq.Leaves

namespace Forcing
variable {w v : World} {started : List CellId}

/-- A cell is still there, as it was or moved on. -/
theorem becomes (h : Forcing w started v) {i : CellId} {cell : Cell}
    (hi : w.cells[i]? = some cell) : ∃ cell', v.cells[i]? = some cell' ∧ cell.Becomes cell' := by
  induction h generalizing i cell with
  | start w => exact ⟨cell, hi, .same cell⟩
  | other _ hcells ih =>
    obtain ⟨cell', hv, hmoves⟩ := ih hi
    exact ⟨cell', by rw [hcells, hv], hmoves⟩
  | made _ hcells ih =>
    obtain ⟨cell', hv, hmoves⟩ := ih hi
    have hlt := (Array.getElem?_eq_some_iff.1 hv).1
    refine ⟨cell', ?_, hmoves⟩
    rw [hcells, Array.getElem?_push_lt hlt, ← Array.getElem?_eq_getElem hlt, hv]
  | @ran w v u u' _ _ c thunk _ hpending _ hleaves ih ihinner =>
    obtain ⟨cell', hv, hmoves⟩ := ih hi
    by_cases hic : i = c
    · subst hic
      rw [hpending] at hv
      cases hv
      -- from inside its own thunk the cell cannot move on
      have hlt := (Array.getElem?_eq_some_iff.1 hpending).1
      obtain ⟨running, hu, hstays⟩ := ihinner (World.cells_setCell_self hlt)
      cases hstays
      obtain ⟨final, hfinal, -, hends⟩ := hleaves.cells_self hu
      exact ⟨final, hfinal, hmoves.trans hends⟩
    · obtain ⟨final, hu, hends⟩ := ihinner ((v.cells_setCell_ne _ hic).trans hv)
      exact ⟨final, (hleaves.cells_ne hic).trans hu, hmoves.trans hends⟩

theorem size_le (h : Forcing w started v) : w.cells.size ≤ v.cells.size := by
  refine Nat.le_of_not_lt fun hlt => ?_
  obtain ⟨cell, hv, -⟩ := h.becomes (Array.getElem?_eq_getElem hlt)
  exact Nat.lt_irrefl _ (Array.getElem?_eq_some_iff.1 hv).1

theorem realizing_stays (h : Forcing w started v) {c : CellId}
    (hc : w.cells[c]? = some .realizing) : v.cells[c]? = some .realizing := by
  obtain ⟨cell, hv, hmoves⟩ := h.becomes hc
  cases hmoves
  exact hv

/-- A cell that has moved on does not wait again. -/
theorem not_pending (h : Forcing w started v) {i : CellId} {cell : Cell}
    (hi : w.cells[i]? = some cell) (hcell : cell.isPending = false) :
    ∃ cell', v.cells[i]? = some cell' ∧ cell'.isPending = false := by
  obtain ⟨cell', hv, hmoves⟩ := h.becomes hi
  refine ⟨cell', hv, ?_⟩
  rw [Bool.eq_false_iff] at hcell ⊢
  exact fun hpending => hcell (hmoves.isPending hpending)

theorem pending_before (h : Forcing w started v) {i : CellId} {cell : Cell}
    (hi : v.cells[i]? = some cell) (hcell : cell.isPending = true) :
    ∀ cell, w.cells[i]? = some cell → cell.isPending = true := by
  intro earlier hw
  obtain ⟨later, hv, hmoves⟩ := h.becomes hw
  rw [hi] at hv
  cases hv
  exact hmoves.isPending hcell

/-- A started cell was waiting in front of the history, unless it is newer, and is not behind it. -/
theorem of_mem_started (h : Forcing w started v) {i : CellId} (hi : i ∈ started) :
    (∀ cell, w.cells[i]? = some cell → cell.isPending = true) ∧
      ∃ cell, v.cells[i]? = some cell ∧ cell.isPending = false := by
  induction h generalizing i with
  | start w => cases hi
  | other _ hcells ih => rw [hcells]; exact ih hi
  | made hbefore hcells ih =>
    obtain ⟨hwaiting, cell, hv, hcell⟩ := ih hi
    have hlt := (Array.getElem?_eq_some_iff.1 hv).1
    refine ⟨hwaiting, cell, ?_, hcell⟩
    rw [hcells, Array.getElem?_push_lt hlt, ← Array.getElem?_eq_getElem hlt, hv]
  | @ran w v u u' started inner c thunk hbefore hpending hinner hleaves ih ihinner =>
    have hlt := (Array.getElem?_eq_some_iff.1 hpending).1
    have hrunning : (v.setCell c .realizing).cells[c]? = some .realizing :=
      World.cells_setCell_self hlt
    obtain ⟨final, hfinal, hdone, -⟩ := hleaves.cells_self (hinner.realizing_stays hrunning)
    rcases List.mem_append.1 hi with hi | hi
    · obtain ⟨hwaiting, cell, hv, hcell⟩ := ih hi
      refine ⟨hwaiting, ?_⟩
      have hic : i ≠ c := by
        rintro rfl
        rw [hpending] at hv
        cases hv
        cases hcell
      obtain ⟨cell', hu, hcell'⟩ :=
        hinner.not_pending ((v.cells_setCell_ne _ hic).trans hv) hcell
      exact ⟨cell', (hleaves.cells_ne hic).trans hu, hcell'⟩
    rcases List.mem_cons.1 hi with rfl | hi
    · exact ⟨hbefore.pending_before hpending rfl, final, hfinal, hdone⟩
    · obtain ⟨hwaiting, cell, hu, hcell⟩ := ihinner hi
      have hic : i ≠ c := by
        rintro rfl
        cases hwaiting _ hrunning
      refine ⟨?_, cell, (hleaves.cells_ne hic).trans hu, hcell⟩
      intro cell' hw
      obtain ⟨later, hv, hmoves⟩ := hbefore.becomes hw
      exact hmoves.isPending (hwaiting later ((v.cells_setCell_ne _ hic).trans hv))

theorem started_nodup (h : Forcing w started v) : started.Nodup := by
  induction h with
  | start => exact List.nodup_nil
  | other _ _ ih => exact ih
  | made _ _ ih => exact ih
  | @ran w v u u' started inner c thunk hbefore hpending hinner hleaves ih ihinner =>
    have hlt := (Array.getElem?_eq_some_iff.1 hpending).1
    have hown : c ∉ inner := by
      intro hc
      cases (hinner.of_mem_started hc).1 _ (World.cells_setCell_self hlt)
    refine List.nodup_append.2 ⟨ih, List.nodup_cons.2 ⟨hown, ihinner⟩, ?_⟩
    -- what was started before is not pending any more when this thunk starts
    rintro i hi j hj rfl
    obtain ⟨-, cell, hv, hcell⟩ := hbefore.of_mem_started hi
    rcases List.mem_cons.1 hj with rfl | hj
    · rw [hpending] at hv
      cases hv
      cases hcell
    · have hic : i ≠ c := fun h => hown (h ▸ hj)
      have hwaiting := (hinner.of_mem_started hj).1 cell ((v.cells_setCell_ne _ hic).trans hv)
      rw [hcell] at hwaiting
      cases hwaiting

end Forcing

/-- The history that a computation adds to one that led to its start. -/
theorem forcing_invariant : Invariant fun base w => ∃ started, Forcing base started w where
  fits_none _ := trivial
  fits_later _ _ _ _ _ := trivial
  closure _ _ _ _ _ _ := trivial
  names _ _ _ h := h.imp fun _ h => h.other rfl
  output _ _ _ h := h.imp fun _ h => h.other rfl
  events _ _ _ h := h.imp fun _ h => h.other rfl
  frame base _ _ h _ :=
    ⟨base, h.imp fun _ h => h.other rfl, trivial, fun _ hv => hv,
      fun _ _ _ hv => hv.imp fun _ h => h.other rfl⟩
  newClosure _ _ _ _ _ _ _ h _ _ := h.imp fun _ h => h.other rfl
  newLazy _ _ := fun _ h => h.imp fun _ h => h.made rfl
  realize base w c thunk h hpending := by
    obtain ⟨started, h⟩ := h
    refine ⟨w.setCell c .realizing, ⟨[], .start _⟩, ?_⟩
    rintro e v ⟨inner, hinner⟩
    exact ⟨⟨_, h.ran hpending hinner (.running v)⟩,
      fun s hs => ⟨_, h.ran hpending hinner (.result hs)⟩,
      fun err herr => ⟨_, h.ran hpending hinner (.failure herr)⟩⟩
  toDefining := .of_spaces (fun _ _ _ h => h.imp fun _ h => h.other rfl)
    fun _ _ _ h => h.imp fun _ h => h.other rfl

/-- An engine that leaves a history of the lazy cells behind, whatever it is asked for. -/
def Engine.KeepsCells (e : Engine) : Prop :=
  e.Keeps fun base w => ∃ started, Forcing base started w

theorem Engine.ofBudget_keepsCells (n : Nat) : (Engine.ofBudget n).KeepsCells :=
  forcing_invariant.keeps n

/-- The error of a look at a cell from inside its own thunk. -/
def ownRealization : EvalError :=
  .invalidArgument "lazy-seq" "lazy sequence depends on its own realization"

/-- The sequence behind a lazy cell, by what the cell is. -/
def Cell.realize (e : Engine) (c : CellId) : Cell → Eval Seq
  | pending thunk => Seq.run e c thunk
  | realizing => fail ownRealization
  | realized s => pure s
  | failed err => fail err

theorem Seq.realize_of_some {w : World} {c : CellId} {cell : Cell} (hc : w.cells[c]? = some cell)
    (e : Engine) : Seq.realize e c w = cell.realize e c w := by
  rw [Seq.realize, run_bind_ok (run_get w), hc]
  cases cell <;> rfl

theorem Seq.realize_of_none {w : World} {c : CellId} (hc : w.cells[c]? = none) (e : Engine) :
    Seq.realize e c w = .error (.error .detached) w := by
  rw [Seq.realize, run_bind_ok (run_get w), hc]
  rfl

/-- Every lazy cell is as it was or has moved on. -/
def Later (w v : World) : Prop :=
  ∀ (i : CellId) (cell : Cell), w.cells[i]? = some cell →
    ∃ cell', v.cells[i]? = some cell' ∧ cell.Becomes cell'

namespace Later
variable {w v u : World}

theorem refl (w : World) : Later w w := fun _ cell h => ⟨cell, h, .same cell⟩

theorem trans (hwv : Later w v) (hvu : Later v u) : Later w u := by
  intro i cell hw
  obtain ⟨cell', hv, hmoves⟩ := hwv i cell hw
  obtain ⟨cell'', hu, hmoves'⟩ := hvu i cell' hv
  exact ⟨cell'', hu, hmoves.trans hmoves'⟩

/-- What a cell keeps, it keeps for good. -/
theorem realized (h : Later w v) {c : CellId} {s : Seq} (hc : w.cells[c]? = some (.realized s)) :
    v.cells[c]? = some (.realized s) := by
  obtain ⟨cell, hv, hmoves⟩ := h c _ hc
  cases hmoves
  exact hv

/-- What is pending now was pending before. -/
theorem pending_before (h : Later w v) {c : CellId} {cell : Cell} {thunk : Value}
    (hw : w.cells[c]? = some cell) (hv : v.cells[c]? = some (.pending thunk)) :
    w.cells[c]? = some (.pending thunk) := by
  obtain ⟨cell', hv', hmoves⟩ := h c cell hw
  obtain rfl := Option.some.inj (hv'.symm.trans hv)
  cases hmoves
  exact hw

end Later

theorem Later.of_tied {α : Type} {m : Eval α}
    (hm : ∀ base, Tied id (fun w => ∃ started, Forcing base started w) m m) (w : World) :
    Later w (m.after w) := by
  obtain ⟨started, hforcing⟩ := (hm w).preserves w ⟨[], .start w⟩
  exact fun i cell => hforcing.becomes

namespace Seq

variable {e : Engine} {w v : World} {c : CellId} {s : Seq}

/-- The sequence that a thunk's value stands for. -/
def ofProduct (x : Value) : Eval Seq :=
  match x.toSeq? with
  | some s => return s
  | none => fail (.invalidArgument "lazy-seq"
      ("body must produce a seqable value, got " ++ x.typeName))

/-- While the interpreter lives, a run of a thunk is one application of it. -/
theorem produce_attached (hw : w.attached = true) (e : Engine) (thunk : Value) :
    produce e thunk w = (e.apply none thunk [] >>= ofProduct) w := by
  rw [produce, run_bind_ok (run_get w), hw]
  rfl

theorem produce_detached (hw : w.attached = false) (e : Engine) (thunk : Value) :
    produce e thunk w = .error (.error .detached) w := by
  rw [produce, run_bind_ok (run_get w), hw]
  rfl

theorem produce_keeps_realizing (he : e.KeepsCells) (thunk : Value)
    (hc : w.cells[c]? = some .realizing) :
    ((produce e thunk).after w).cells[c]? = some .realizing := by
  obtain ⟨inner, hinner⟩ := (Engine.Paired.produce he thunk).preserves w ⟨[], .start w⟩
  exact hinner.realizing_stays hc

theorem later_after_realize (he : e.KeepsCells) (c : CellId) (w : World) :
    Later w ((realize e c).after w) :=
  .of_tied (fun _ => Engine.Paired.realize he c) w

theorem realize_later (he : e.KeepsCells) (h : realize e c w = .ok s v) : Later w v := by
  have hlater := later_after_realize he c w
  rwa [after_ok h] at hlater

/-- A cell that gave a sequence keeps it. -/
theorem realize_keeps (he : e.KeepsCells) (h : realize e c w = .ok s v) :
    v.cells[c]? = some (.realized s) := by
  cases hc : w.cells[c]? with
  | none =>
    rw [realize_of_none hc] at h
    cases h
  | some cell =>
    rw [realize_of_some hc] at h
    cases cell with
    | realized t =>
      cases h
      exact hc
    | failed err => cases h
    | realizing => cases h
    | pending thunk =>
      have hlt := (Array.getElem?_eq_some_iff.1 hc).1
      have hstart : (w.setCell c .realizing).cells[c]? = some .realizing :=
        World.cells_setCell_self hlt
      have hrunning := produce_keeps_realizing he thunk hstart
      rw [Cell.realize, run_eq] at h
      unfold Eval.after at hrunning
      generalize produce e thunk (w.setCell c .realizing) = r at h hrunning
      rcases r with ⟨t, u⟩ | ⟨err | _, u⟩
      · cases h
        exact World.cells_setCell_self (Array.getElem?_eq_some_iff.1 hrunning).1
      · cases h
      · cases h

theorem realize_realized (hc : w.cells[c]? = some (.realized s)) : realize e c w = .ok s w := by
  rw [realize_of_some hc]
  rfl

end LazyLisp.Seq
