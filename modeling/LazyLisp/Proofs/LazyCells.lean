import LazyLisp.Proofs.Relooking

/-!
The life of lazy cells. A run leaves a history of the thunks that it started, each with the history
of what happened inside it. No cell is started twice, and one that has been started never waits
again: it keeps the outcome of its thunk for good and answers from it.
-/

namespace LazyLisp
set_option autoImplicit false

/-- What can be asked of values. -/
inductive Demand
  | first (s : Seq)
  | rest (s : Seq)
  | isEmpty (s : Seq)
  | items (s : Seq)
  | describe (style : Style) (v : Value)
  | equal (a b : Value)
  | hash (v : Value)
  | serve (r : Request)

/-- Meets a demand; what counts here is the state behind it. -/
def Demand.meet (e : Engine) : Demand → Eval Unit
  | first s => do let _ ← s.first? e
  | rest s => do let _ ← s.rest e
  | isEmpty s => do let _ ← s.isEmpty e
  | items s => do let _ ← s.toList e
  | describe style v => do let _ ← v.text e style
  | equal a b => do let _ ← a.equal e b
  | hash v => v.settle e
  | serve r => do let _ ← e.call r

/-- The state behind demands that are met in order, each within a budget of its own and whether or
not the ones before it failed. -/
def meetAll (demands : List (Nat × Demand)) (w : World) : World :=
  demands.foldl (fun w d => (d.2.meet (.ofBudget d.1)).after w) w

theorem Engine.Keeps.meet {P : World → World → Prop} {base : World} {e : Engine} (h : e.Keeps P)
    (d : Demand) : Preserves (P base) (d.meet e) := by
  have h : e.Tied id P (fun _ _ => True) e := h
  refine .of_paired ?_
  cases d with
  | first s => exact .bind (h.first? s) fun _ => .pure _
  | rest s => exact .bind (h.rest s) fun _ => .pure _
  | isEmpty s => exact .bind (h.isEmpty s) fun _ => .pure _
  | items s => exact .bind (h.toList s) fun _ => .pure _
  | describe style v => exact .bind (h.text style v) fun _ => .pure _
  | equal a b => exact .bind (h.equal a b) fun _ => .pure _
  | hash v => exact h.settle v
  | serve r => exact .bind (h.call base r trivial) fun _ => .pure _

theorem Invariant.meetAll {P : World → World → Prop} {base : World} (h : Invariant P)
    (demands : List (Nat × Demand)) {w : World} (hw : P base w) : P base (meetAll demands w) := by
  induction demands generalizing w with
  | nil => exact hw
  | cons d rest ih => exact ih ((h.keeps d.1).meet d.2 w hw)

/-! What is asked of a sequence. All questions begin with its head, so a lazy cell answers them by
what it keeps. -/

namespace Seq

/-- Whatever is asked of the one sequence in the one state has the answer and the effects that it
has if the other is asked in the other state. -/
structure SameAnswers (e : Engine) (s : Seq) (w : World) (t : Seq) (v : World) : Prop where
  first : s.first? e w = t.first? e v
  rest : s.rest e w = t.rest e v
  isEmpty : s.isEmpty e w = t.isEmpty e v
  fold : ∀ {β : Type} (step : β → Value → Eval β) (b : β), s.fold e step b w = t.fold e step b v
  text : ∀ style, (Value.seq s).text e style w = (Value.seq t).text e style v
  equal : ∀ other, (Value.seq s).equal e (.seq other) w = (Value.seq t).equal e (.seq other) v
  equalVector : ∀ items, (Value.seq s).equal e (.vector items) w =
    (Value.seq t).equal e (.vector items) v
  settle : (Value.seq s).settle e w = (Value.seq t).settle e v

/-- Whatever is asked of the sequence ends in the error; only hashing passes over it. -/
structure Refuses (e : Engine) (err : EvalError) (s : Seq) (w v : World) : Prop where
  first : s.first? e w = .error (.error err) v
  rest : s.rest e w = .error (.error err) v
  isEmpty : s.isEmpty e w = .error (.error err) v
  fold : ∀ {β : Type} (step : β → Value → Eval β) (b : β), s.fold e step b w = .error (.error err) v
  text : ∀ style, (Value.seq s).text e style w = .error (.error err) v
  equal : ∀ other, (Value.seq s).equal e (.seq other) w = .error (.error err) v
  equalVector : ∀ items, (Value.seq s).equal e (.vector items) w = .error (.error err) v
  settle : (Value.seq s).settle e w = .ok () v

section
variable {e : Engine} {s t : Seq} {w v : World}

theorem sameAnswers_of_unconsWithin (he : e.KeepsCells) (hbound : 0 < e.bound)
    (h : s.unconsWithin e e.bound w = t.unconsWithin e e.bound v) : SameAnswers e s w t v := by
  obtain ⟨n, hn⟩ := Nat.exists_eq_add_of_le' hbound
  have huncons : s.uncons e w = t.uncons e v := by rw [uncons_eq he, uncons_eq he, h]
  have hfold : ∀ {β : Type} (step : β → Value → Eval β) (b : β),
      s.fold e step b w = t.fold e step b v := by
    intro β step b
    rw [fold, fold, hn, foldWithin, foldWithin, run_bind, run_bind, huncons]
  have hequal : ∀ (eq : Value → Value → Eval Bool) (other : Seq),
      Equality.seqEqual e eq e.bound s other w = Equality.seqEqual e eq e.bound t other v := by
    intro eq other
    rw [hn, Equality.seqEqual, Equality.seqEqual, run_bind, run_bind, huncons]
  refine ⟨?_, ?_, ?_, hfold, fun style => ?_, fun other => ?_, fun items => ?_, ?_⟩
  · rw [first?_eq he, first?_eq he, seesHead, seesHead, run_bind, run_bind, h]
  · rw [rest_eq he, rest_eq he, seesTail, seesTail, run_bind, run_bind, h]
  · rw [isEmpty_eq, isEmpty_eq, seesNone, seesNone, run_bind, run_bind, h]
  · rw [Value.text, Value.text, hn, Value.textWithin, Value.textWithin,
      run_bind_ok (run_get w), run_bind_ok (run_get v)]
    dsimp only
    rw [run_bind, run_bind, hfold]
  · rw [Value.equal, Value.equal, hn]
    exact hequal _ other
  · rw [Value.equal, Value.equal, hn]
    exact hequal _ _
  · rw [Value.settle, Value.settle, hn, Value.settleWithin, Value.settleWithin, Eval.orDone,
      Eval.orDone, hfold]

theorem refuses_of_realize {c : CellId} {err : EvalError} (hbound : 0 < e.bound)
    (h : realize e c w = .error (.error err) v) : Refuses e err (.lazy c) w v := by
  obtain ⟨n, hn⟩ := Nat.exists_eq_add_of_le' hbound
  have hfirst : (Seq.lazy c).first? e w = .error (.error err) v := by
    rw [first?, hn]
    exact run_bind_error h _
  have huncons : (Seq.lazy c).uncons e w = .error (.error err) v := run_bind_error hfirst _
  have hfold : ∀ {β : Type} (step : β → Value → Eval β) (b : β),
      (Seq.lazy c).fold e step b w = .error (.error err) v := by
    intro β step b
    rw [fold, hn]
    exact run_bind_error huncons _
  have hequal : ∀ (eq : Value → Value → Eval Bool) (other : Seq),
      Equality.seqEqual e eq e.bound (.lazy c) other w = .error (.error err) v := by
    intro eq other
    rw [hn]
    exact run_bind_error huncons _
  refine ⟨hfirst, ?_, ?_, hfold, fun style => ?_, fun other => ?_, fun items => ?_, ?_⟩
  · rw [rest, hn]
    exact run_bind_error h _
  · rw [isEmpty, hn]
    exact run_bind_error h _
  · rw [Value.text, hn, Value.textWithin, run_bind_ok (run_get w)]
    exact run_bind_error (hfold _ _) _
  · rw [Value.equal, hn]
    exact hequal _ other
  · rw [Value.equal, hn]
    exact hequal _ _
  · rw [Value.settle, hn, Value.settleWithin, Eval.orDone, hfold]

theorem unconsWithin_of_le {k l : Nat} (hk : k ≤ l) (h : Ended (s.unconsWithin e k w)) :
    s.unconsWithin e l w = s.unconsWithin e k w :=
  (e.tied_self.unconsWithin hk s).run_eq (Unrelated.intro : Unrelated w w) h

end
end Seq

/-- A lazy sequence answers by what its cell is: as the sequence does that the cell keeps or that
its thunk gives, or with the error. A cell that does not wait asks nothing of the engine. A walk
comes by the cell twice at each element, for the head and for the tail, so the engine must leave
alone what cells keep; evaluation does, within any budget. -/
def Cell.Decides (cell : Cell) (c : CellId) (w : World) : Prop :=
  (cell.isPending = false → ∀ e e' : Engine, Seq.realize e c w = Seq.realize e' c w) ∧
  ∀ e : Engine, 0 < e.bound →
    (e.KeepsCells → ∀ s v, cell.realize e c w = .ok s v → Ended ((Seq.lazy c).uncons e w) →
      Seq.SameAnswers e (.lazy c) w s v) ∧
    ∀ err v, cell.realize e c w = .error (.error err) v → Seq.Refuses e err (.lazy c) w v

theorem Cell.decides {w : World} {c : CellId} {cell : Cell} (hc : w.cells[c]? = some cell) :
    cell.Decides c w := by
  refine ⟨fun hcell e e' => ?_, fun e hbound => ⟨fun he s v hrealize hended => ?_, ?_⟩⟩
  · rw [Seq.realize_of_some hc, Seq.realize_of_some hc]
    cases cell with
    | pending => cases hcell
    | realizing => rfl
    | realized => rfl
    | failed => rfl
  · obtain ⟨n, hn⟩ := Nat.exists_eq_add_of_le' hbound
    have hlook : (Seq.lazy c).unconsWithin e e.bound w = s.unconsWithin e n v := by
      rw [hn]
      exact Seq.unconsWithin_lazy ((Seq.realize_of_some hc e).trans hrealize) n
    rw [Seq.uncons_eq he, hlook] at hended
    refine Seq.sameAnswers_of_unconsWithin he hbound (hlook.trans ?_)
    exact (Seq.unconsWithin_of_le (by omega) hended).symm
  · intro err v hrealize
    exact Seq.refuses_of_realize hbound ((Seq.realize_of_some hc e).trans hrealize)

/-- Whatever is asked in whatever order, no thunk is started twice, and a cell moves from pending
over realizing to its outcome and then stays. Looking at a cell runs its thunk only if the cell is
pending; otherwise the answer is what the cell keeps. A run applies the thunk once, or not at all if
the interpreter is gone. -/
theorem thunks_start_at_most_once (demands : List (Nat × Demand)) (w : World) :
    (∃ started, Forcing w started (meetAll demands w) ∧ started.Nodup ∧
      ∀ c ∈ started, (∀ cell, w.cells[c]? = some cell → cell.isPending = true) ∧
        ∃ cell, (meetAll demands w).cells[c]? = some cell ∧ cell.isPending = false) ∧
    (∀ (c : CellId) (cell : Cell), w.cells[c]? = some cell →
      ∃ cell', (meetAll demands w).cells[c]? = some cell' ∧ cell.Becomes cell' ∧
        cell'.Decides c (meetAll demands w)) ∧
    ∀ c thunk, w.cells[c]? = some (.pending thunk) →
      (∀ e : Engine, Seq.run e c thunk w =
        Seq.kept c (Seq.produce e thunk (w.setCell c .realizing))) ∧
      (∀ e : Engine, w.attached = true → Seq.produce e thunk (w.setCell c .realizing) =
        (e.apply none thunk [] >>= Seq.ofProduct) (w.setCell c .realizing)) ∧
      (∀ e : Engine, w.attached = false → Seq.produce e thunk (w.setCell c .realizing) =
        .error (.error .detached) (w.setCell c .realizing)) ∧
      ∀ n, ((Seq.produce (.ofBudget n) thunk).after (w.setCell c .realizing)).cells[c]? =
        some .realizing := by
  obtain ⟨started, hforcing⟩ := forcing_invariant.meetAll demands ⟨[], .start w⟩
  refine ⟨⟨started, hforcing, hforcing.started_nodup, fun c => hforcing.of_mem_started⟩, ?_, ?_⟩
  · intro c cell hc
    obtain ⟨cell', hv, hmoves⟩ := hforcing.becomes hc
    exact ⟨cell', hv, hmoves, Cell.decides hv⟩
  · intro c thunk hc
    have hlt := (Array.getElem?_eq_some_iff.1 hc).1
    have hstart : (w.setCell c .realizing).cells[c]? = some .realizing :=
      World.cells_setCell_self hlt
    exact ⟨fun e => Seq.run_eq e c thunk w,
      fun e hw => Seq.produce_attached (w := w.setCell c .realizing) hw e thunk,
      fun e hw => Seq.produce_detached (w := w.setCell c .realizing) hw e thunk,
      fun n => Seq.produce_keeps_realizing (Engine.ofBudget_keepsCells n) thunk hstart⟩

/-- The state of `(lazy-seq* (fn [] (first s)))`, where `s` is the sequence itself. -/
def selfForcing : World :=
  let head := .list [.builtin .first, .list [.special .quote, .seq (.lazy 0)]]
  { cells := #[.pending (.function 0)], closures := #[⟨none, [⟨[], none, [head]⟩], none, none⟩] }

/-- The state once the sequence has been asked for its head and for its tail. -/
def selfForced : World := meetAll [(9, .first (.lazy 0)), (9, .rest (.lazy 0))] selfForcing

theorem thunks_start_at_most_once_self :
    selfForcing.cells[0]? = some (.pending (.function 0)) ∧
    selfForced.cells[0]? = some (.failed ownRealization) ∧
    (Cell.pending (.function 0)).Becomes (.failed ownRealization) ∧
    Seq.Refuses (.ofBudget 9) ownRealization (.lazy 0) selfForced selfForced := by
  have hc : selfForcing.cells[0]? = some (.pending (.function 0)) := rfl
  have hfailed : selfForced.cells[0]? = some (.failed ownRealization) := rfl
  obtain ⟨-, hcells, -⟩ :=
    thunks_start_at_most_once [(9, .first (.lazy 0)), (9, .rest (.lazy 0))] selfForcing
  obtain ⟨cell, hcell, hmoves, hdecides⟩ := hcells 0 _ hc
  obtain rfl : .failed ownRealization = cell := Option.some_inj.1 (hfailed.symm.trans hcell)
  have hrefuses := (hdecides.2 (.ofBudget 9) (by decide)).2 ownRealization selfForced rfl
  exact ⟨hc, hfailed, hmoves, hrefuses⟩

end LazyLisp
