import Mathlib.Data.Fintype.EquivFin
import Mathlib.Logic.Relation
import LazyLisp.Proofs.LazyCells

/-!
When looking at a sequence ends. Looking for its head goes through the sequences that lazy cells
keep and through the parts of concatenations, and runs the thunks of cells that are still pending.
If all those thunks return and only finitely many cells turn up, it ends unless what the cells keep
leads in a cycle; and in a cycle it never ends.
-/

namespace LazyLisp
set_option autoImplicit false
open Relation

namespace Seq

/-! Budgets: what ends within one ends the same way within every larger one. -/

section
variable {n m k l : Nat} {w : World} {s : Seq} {c : CellId}

theorem unconsWithin_mono (hn : n ≤ m) (hk : k ≤ l)
    (h : Ended (s.unconsWithin (.ofBudget n) k w)) :
    s.unconsWithin (.ofBudget m) l w = s.unconsWithin (.ofBudget n) k w :=
  ((Engine.ofBudget_tied hn).unconsWithin hk s).run_eq (Unrelated.intro : Unrelated w w) h

theorem unconsWithin_unique (h : Ended (s.unconsWithin (.ofBudget n) k w))
    (h' : Ended (s.unconsWithin (.ofBudget m) l w)) :
    s.unconsWithin (.ofBudget n) k w = s.unconsWithin (.ofBudget m) l w := by
  rw [← unconsWithin_mono (Nat.le_max_left n m) (Nat.le_max_left k l) h,
    unconsWithin_mono (Nat.le_max_right n m) (Nat.le_max_right k l) h']

theorem realize_mono (hn : n ≤ m) (h : Ended (realize (.ofBudget n) c w)) :
    realize (.ofBudget m) c w = realize (.ofBudget n) c w :=
  ((Engine.ofBudget_tied hn).realize c).run_eq (Unrelated.intro : Unrelated w w) h

theorem realize_unique (h : Ended (realize (.ofBudget n) c w))
    (h' : Ended (realize (.ofBudget m) c w)) :
    realize (.ofBudget n) c w = realize (.ofBudget m) c w := by
  rw [← realize_mono (Nat.le_max_left n m) h, realize_mono (Nat.le_max_right n m) h']

end

/-- What looking for the head of a sequence comes to if the budget is large enough. -/
def Finds (w : World) (s : Seq) (r : EStateM.Result Stop World (Option (Value × Seq))) : Prop :=
  Ended r ∧ ∃ n, s.unconsWithin (.ofBudget n) n w = r

namespace Finds
variable {w v : World} {s t next : Seq} {parts rest : List Seq} {c : CellId} {n k : Nat}
  {r : EStateM.Result Stop World (Option (Value × Seq))}

theorem of_unconsWithin (hr : Ended r) (h : s.unconsWithin (.ofBudget n) k w = r) :
    Finds w s r := by
  refine ⟨hr, max n k, ?_⟩
  rw [← h] at hr
  rw [unconsWithin_mono (Nat.le_max_left n k) (Nat.le_max_right n k) hr, h]

theorem eventually (h : Finds w s r) :
    ∃ n, ∀ m k, n ≤ m → n ≤ k → s.unconsWithin (.ofBudget m) k w = r := by
  obtain ⟨hr, n, hn⟩ := h
  refine ⟨n, fun m k hm hk => ?_⟩
  rw [← hn] at hr
  rw [unconsWithin_mono hm hk hr, hn]

theorem lazy (hrun : realize (.ofBudget n) c w = .ok t v) (h : Finds v t r) :
    Finds w (.lazy c) r := by
  obtain ⟨k, hk⟩ := h.eventually
  have hrealize : realize (.ofBudget (max n k)) c w = .ok t v := by
    rw [realize_mono (Nat.le_max_left n k) (hrun ▸ .ok t v), hrun]
  refine .of_unconsWithin h.1 ((unconsWithin_lazy hrealize k).trans ?_)
  exact hk _ _ (Nat.le_max_right n k) (Nat.le_refl k)

theorem lazy_error {err : EvalError} (hrun : realize (.ofBudget n) c w = .error (.error err) v) :
    Finds w (.lazy c) (.error (.error err) v) := by
  have hlazy : (Seq.lazy c).unconsWithin (.ofBudget n) 1 w = .error (.error err) v :=
    run_bind_error hrun _
  exact .of_unconsWithin (.error err v) hlazy

theorem concat_some {p : Value × Seq} (h : Finds w s (.ok (some p) v)) :
    Finds w (.concat s parts) (.ok (some (p.1, .concat p.2 parts)) v) := by
  obtain ⟨-, n, hn⟩ := h
  exact .of_unconsWithin (.ok _ v) (unconsWithin_concat_some hn)

theorem concat_error {err : EvalError} (h : Finds w s (.error (.error err) v)) :
    Finds w (.concat s parts) (.error (.error err) v) := by
  obtain ⟨-, n, hn⟩ := h
  exact .of_unconsWithin (.error err v) (unconsWithin_concat_error hn)

theorem concat_last (h : Finds w s (.ok none v)) : Finds w (.concat s []) (.ok none v) := by
  obtain ⟨-, n, hn⟩ := h
  exact .of_unconsWithin (.ok none v) (unconsWithin_concat_last hn)

theorem concat_next (h : Finds w s (.ok none v)) (hnext : Finds v (.concat next rest) r) :
    Finds w (.concat s (next :: rest)) r := by
  obtain ⟨n, hn⟩ := h.eventually
  obtain ⟨k, hk⟩ := hnext.eventually
  have hfirst := hn (max n k) (max n k) (Nat.le_max_left n k) (Nat.le_max_left n k)
  refine .of_unconsWithin hnext.1 ((unconsWithin_concat_next hfirst).trans ?_)
  exact hk _ _ (Nat.le_max_right n k) (Nat.le_max_right n k)

end Finds

/-- Looking for the head of one sequence asks for the head of another, in the state behind the
thunks that had to run before. -/
inductive Asks : World × Seq → World × Seq → Prop
  | lazy {w v : World} {c : CellId} {s : Seq} {n : Nat} : realize (.ofBudget n) c w = .ok s v →
    Asks (w, .lazy c) (v, s)
  | current (w : World) (s : Seq) (parts : List Seq) : Asks (w, .concat s parts) (w, s)
  | next {w v : World} {s next : Seq} {rest : List Seq} : Finds w s (.ok none v) →
    Asks (w, .concat s (next :: rest)) (v, .concat next rest)

/-- One sequence leads to another through what cells keep, with no thunk run. -/
inductive Follows (w : World) : Seq → Seq → Prop
  | stored {c : CellId} {s : Seq} : w.cells[c]? = some (.realized s) → Follows w (.lazy c) s
  | current (s : Seq) (parts : List Seq) : Follows w (.concat s parts) s
  | next {s next : Seq} {rest : List Seq} : Finds w s (.ok none w) →
    Follows w (.concat s (next :: rest)) (.concat next rest)

/-- Following what cells keep, one comes back to the sequence. -/
def Cyclic (w : World) (s : Seq) : Prop := TransGen (Follows w) s s

/-- Every thunk that looking at the sequence comes to returns, with a value or an error. -/
def ThunksReturn (w : World) (s : Seq) : Prop :=
  ∀ v c thunk, ReflTransGen Asks (w, s) (v, .lazy c) → v.cells[c]? = some (.pending thunk) →
    ∃ n, Ended (produce (.ofBudget n) thunk (v.setCell c .realizing))

section
variable {w v : World} {s t : Seq}

theorem ThunksReturn.step (h : ThunksReturn w s) (hask : Asks (w, s) (v, t)) : ThunksReturn v t :=
  fun u c thunk hreach => h u c thunk (.head hask hreach)

theorem ended_kept {c : CellId} {r : EStateM.Result Stop World Seq} (h : Ended r) :
    Ended (kept c r) := by
  cases r with
  | ok s w => exact .ok s _
  | error stop w =>
    cases stop with
    | error err => exact .error err _
    | exhausted => exact absurd rfl (h w)

theorem ended_realize {n : Nat} {c : CellId}
    (h : ∀ thunk, w.cells[c]? = some (.pending thunk) →
      Ended (produce (.ofBudget n) thunk (w.setCell c .realizing))) :
    Ended (realize (.ofBudget n) c w) := by
  cases hc : w.cells[c]? with
  | none =>
    rw [realize_of_none hc]
    exact .error _ w
  | some cell =>
    rw [realize_of_some hc]
    cases cell with
    | pending thunk => exact ended_kept (h thunk hc)
    | realizing => exact .error _ w
    | realized s => exact .ok s w
    | failed err => exact .error err w

theorem ThunksReturn.realize {c : CellId} (h : ThunksReturn w (.lazy c)) :
    ∃ n, Ended (realize (.ofBudget n) c w) := by
  by_cases hpending : ∃ thunk, w.cells[c]? = some (.pending thunk)
  · obtain ⟨thunk, hc⟩ := hpending
    obtain ⟨n, hn⟩ := h w c thunk .refl hc
    refine ⟨n, ended_realize fun thunk' hc' => ?_⟩
    rw [hc] at hc'
    cases hc'
    exact hn
  · exact ⟨0, ended_realize fun thunk hc => absurd ⟨thunk, hc⟩ hpending⟩

/-- If no sequence asks for others without end, looking at it ends. -/
theorem exists_finds {x : World × Seq} (hacc : Acc (fun y x => Asks x y) x)
    (hreturn : ThunksReturn x.1 x.2) : ∃ r, Finds x.1 x.2 r := by
  induction hacc with
  | intro x _ ih =>
    obtain ⟨w, s⟩ := x
    cases s with
    | lazy c =>
      obtain ⟨n, hn⟩ := hreturn.realize
      cases hrun : realize (.ofBudget n) c w with
      | ok t v =>
        obtain ⟨r, hr⟩ := ih (v, t) (.lazy hrun) (hreturn.step (.lazy hrun))
        exact ⟨r, hr.lazy hrun⟩
      | error stop v =>
        cases stop with
        | error err => exact ⟨_, .lazy_error hrun⟩
        | exhausted => exact absurd hrun (hn v)
    | concat s parts =>
      -- the next part is asked for in the state that the first leaves
      obtain ⟨r, hr⟩ := ih (w, s) (.current w s parts) (hreturn.step (.current w s parts))
      rcases r with ⟨o, v⟩ | ⟨stop, v⟩
      · cases o with
        | some p => exact ⟨_, hr.concat_some⟩
        | none =>
          cases parts with
          | nil => exact ⟨_, hr.concat_last⟩
          | cons next rest =>
            obtain ⟨r, hnext⟩ := ih (v, .concat next rest) (.next hr) (hreturn.step (.next hr))
            exact ⟨r, hr.concat_next hnext⟩
      · cases stop with
        | error err => exact ⟨_, hr.concat_error⟩
        | exhausted => exact absurd rfl (hr.1 v)
    | _ => exact ⟨_, .ok _ w, 1, rfl⟩

end

/-! Thunks that run use up pending cells. -/

/-- Some cell was pending and is not any more. -/
def Started (w v : World) : Prop :=
  ∃ (c : CellId) (thunk : Value) (cell : Cell), w.cells[c]? = some (.pending thunk) ∧
    v.cells[c]? = some cell ∧ cell.isPending = false

theorem Started.later {w v u : World} {started : List CellId} (h : Started w v)
    (hlater : Forcing v started u) : Started w u := by
  obtain ⟨c, thunk, cell, hw, hv, hcell⟩ := h
  obtain ⟨cell', hu, hcell'⟩ := hlater.not_pending hv hcell
  exact ⟨c, thunk, cell', hw, hu, hcell'⟩

section
variable {w v : World} {s t : Seq} {n k : Nat}

theorem realize_started {c : CellId} (h : realize (.ofBudget n) c w = .ok s v) :
    (v = w ∧ w.cells[c]? = some (.realized s)) ∨ Started w v := by
  have hkept := realize_keeps (Engine.ofBudget_keepsCells n) h
  cases hc : w.cells[c]? with
  | none =>
    rw [realize_of_none hc] at h
    cases h
  | some cell =>
    rw [realize_of_some hc] at h
    cases cell with
    | realizing => cases h
    | failed err => cases h
    | realized s =>
      cases h
      exact .inl ⟨rfl, rfl⟩
    | pending thunk => exact .inr ⟨c, thunk, _, hc, hkept, rfl⟩

theorem unconsWithin_forcing (n k : Nat) (s : Seq) (w : World) :
    ∃ started, Forcing w started ((s.unconsWithin (.ofBudget n) k).after w) := by
  have htied : (Engine.ofBudget n).Tied id _ _ _ := forcing_invariant.keeps n
  exact (htied.unconsWithin (Nat.le_refl k) s).preserves w ⟨[], .start w⟩

/-- What comes second does nothing, or cannot undo what the first did. -/
theorem started_or_then {w u v : World} (h : u = w ∨ Started w u) (hthen : v = u ∨ Started u v)
    (hforcing : ∃ started, Forcing u started v) : v = w ∨ Started w v := by
  obtain ⟨started, hforcing⟩ := hforcing
  rcases h with rfl | h
  · exact hthen
  · exact .inr (h.later hforcing)

theorem unconsWithin_started {o : Option (Value × Seq)}
    (h : s.unconsWithin (.ofBudget n) k w = .ok o v) : v = w ∨ Started w v := by
  induction k generalizing s w v o with
  | zero => cases h
  | succ k ih =>
    cases s with
    | lazy c =>
      obtain ⟨t, u, hrealize, hrun⟩ := run_bind_eq_ok.1 h
      have hfirst : u = w ∨ Started w u := (realize_started hrealize).imp And.left id
      exact started_or_then hfirst (ih hrun) (after_ok hrun ▸ unconsWithin_forcing n k t u)
    | concat s parts =>
      obtain ⟨o', u, hfirst, hrun⟩ := run_bind_eq_ok.1 h
      cases o' with
      | some p =>
        cases hrun
        exact ih hfirst
      | none =>
        cases parts with
        | nil =>
          cases hrun
          exact ih hfirst
        | cons next rest =>
          exact started_or_then (ih hfirst) (ih hrun) (after_ok hrun ▸ unconsWithin_forcing n k _ u)
    | _ =>
      cases h
      exact .inl rfl

theorem asks_forcing (h : Asks (w, s) (v, t)) : ∃ started, Forcing w started v := by
  cases h with
  | @lazy _ _ c _ n hrun =>
    have htied : (Engine.ofBudget n).Tied id _ _ _ := forcing_invariant.keeps n
    have hafter := (htied.realize c).preserves w ⟨[], .start w⟩
    rwa [after_ok hrun] at hafter
  | current => exact ⟨[], .start w⟩
  | next hfinds =>
    obtain ⟨-, n, hn⟩ := hfinds
    exact after_ok hn ▸ unconsWithin_forcing n n _ w

theorem asks_started (h : Asks (w, s) (v, t)) :
    (v = w ∧ Follows w s t) ∨ Started w v := by
  cases h with
  | lazy hrun => exact (realize_started hrun).imp_left (And.imp_right .stored)
  | current => exact .inl ⟨rfl, .current _ _⟩
  | next hfinds =>
    obtain ⟨hended, n, hn⟩ := hfinds
    rcases unconsWithin_started hn with rfl | hstarted
    · exact .inl ⟨rfl, .next ⟨hended, n, hn⟩⟩
    · exact .inr hstarted

theorem Follows.asks (h : Follows w s t) : Asks (w, s) (w, t) := by
  cases h with
  | stored hc =>
    have hrun : realize (.ofBudget 0) _ w = .ok t w := realize_of_some hc _
    exact .lazy hrun
  | current => exact .current _ _ _
  | next hfinds => exact .next hfinds

end

/-! Without cycles, following what cells keep ends. -/

section
variable {w v : World} {s t : Seq}

/-- Parts are smaller than the whole, so only lazy cells can keep the walk going. -/
theorem acc_of_lazy (h : ∀ c, ReflTransGen (Follows w) s (.lazy c) →
    Acc (fun t s => Follows w s t) (.lazy c)) : Acc (fun t s => Follows w s t) s := by
  induction hsize : sizeOf s using Nat.strong_induction_on generalizing s with
  | h size ih =>
    subst hsize
    have hpart : ∀ t, Follows w s t → sizeOf t < sizeOf s → Acc (fun t s => Follows w s t) t :=
      fun t ht hlt => ih (sizeOf t) hlt (fun c hc => h c (.head ht hc)) rfl
    refine .intro s fun t ht => ?_
    cases ht with
    | stored hc => exact (h _ .refl).inv (.stored hc)
    | current s parts =>
      refine hpart t (.current t parts) ?_
      simp only [Seq.concat.sizeOf_spec]
      omega
    | next hfinds =>
      refine hpart _ (.next hfinds) ?_
      simp only [Seq.concat.sizeOf_spec, List.cons.sizeOf_spec]
      omega

theorem acc_of_acyclic (h : ∀ t, ReflTransGen (Follows w) s t → ¬ Cyclic w t) :
    Acc (fun t s => Follows w s t) s := by
  -- the cells that come later on a walk from the sequence; there are finitely many
  let later (d c : Fin w.cells.size) : Prop :=
    ReflTransGen (Follows w) s (.lazy c) ∧ TransGen (Follows w) (.lazy c) (.lazy d)
  have htrans : IsTrans _ later := ⟨fun _ _ _ hdc hcb => ⟨hcb.1, hcb.2.trans hdc.2⟩⟩
  have hirrefl : Std.Irrefl later := ⟨fun c hc => h _ hc.1 hc.2⟩
  have hlazy : ∀ c : Fin w.cells.size, ReflTransGen (Follows w) s (.lazy c) →
      Acc (fun t s => Follows w s t) (.lazy c) := by
    intro c
    induction c using (Finite.wellFounded_of_trans_of_irrefl later).induction with
    | h c ih =>
      intro hreach
      refine .intro _ fun t ht => acc_of_lazy fun d hd => ?_
      have hstep : TransGen (Follows w) (.lazy c) (.lazy d) := TransGen.head' ht hd
      by_cases hlt : d < w.cells.size
      · exact ih ⟨d, hlt⟩ ⟨hreach, hstep⟩ (hreach.trans hstep.to_reflTransGen)
      · refine .intro _ fun u hu => ?_
        cases hu with
        | stored hc => exact absurd (Array.getElem?_eq_some_iff.1 hc).1 hlt
  refine acc_of_lazy fun c hreach => ?_
  by_cases hlt : c < w.cells.size
  · exact hlazy ⟨c, hlt⟩ hreach
  · refine .intro _ fun u hu => ?_
    cases hu with
    | stored hc => exact absurd (Array.getElem?_eq_some_iff.1 hc).1 hlt

/-- Places of cells below a bound that no thunk has been started for. -/
def waiting (bound : Nat) (w : World) : Finset CellId :=
  (Finset.range bound).filter fun c => (w.cells[c]?).all Cell.isPending

theorem waiting_ssubset {bound : Nat} {started : List CellId} (hforcing : Forcing w started v)
    (hstarted : Started w v) (hbound : w.cells.size ≤ bound) :
    waiting bound v ⊂ waiting bound w := by
  obtain ⟨c, thunk, cell, hw, hv, hcell⟩ := hstarted
  refine Finset.ssubset_iff_subset_ne.2 ⟨fun i hi => ?_, fun heq => ?_⟩
  · rw [waiting, Finset.mem_filter] at hi ⊢
    refine ⟨hi.1, ?_⟩
    cases hi' : w.cells[i]? with
    | none => rfl
    | some cell =>
      obtain ⟨later, hlater, hmoves⟩ := hforcing.becomes hi'
      rw [hlater] at hi
      exact hmoves.isPending hi.2
  · have hlt : c < bound := Nat.lt_of_lt_of_le (Array.getElem?_eq_some_iff.1 hw).1 hbound
    have hbefore : c ∈ waiting bound w := by
      rw [waiting, Finset.mem_filter, hw]
      exact ⟨Finset.mem_range.2 hlt, rfl⟩
    rw [← heq, waiting, Finset.mem_filter, hv] at hbefore
    have hpending : cell.isPending = true := hbefore.2
    rw [hcell] at hpending
    cases hpending

theorem acc_asks {bound : Nat} (hacyclic : ∀ v t, ReflTransGen Asks (w, s) (v, t) → ¬ Cyclic v t)
    (hbound : ∀ v t, ReflTransGen Asks (w, s) (v, t) → v.cells.size ≤ bound) :
    Acc (fun y x => Asks x y) (w, s) := by
  -- first on the cells that still wait, then on the walk through what cells keep
  induction hcard : (waiting bound w).card using Nat.strong_induction_on generalizing w s with
  | h card ih =>
    have hwalk : Acc (fun t s => Follows w s t) s :=
      acc_of_acyclic fun t ht => hacyclic w t (ht.lift (w, ·) fun _ _ => Follows.asks)
    induction hwalk with
    | intro s _ ihwalk =>
      refine .intro _ fun ⟨v, t⟩ hask => ?_
      have hacyclic' := fun u r hu => hacyclic u r (.head hask hu)
      have hbound' := fun u r hu => hbound u r (.head hask hu)
      rcases asks_started hask with ⟨rfl, hfollows⟩ | hstarted
      · exact ihwalk t hfollows hacyclic' hbound'
      · obtain ⟨started, hforcing⟩ := asks_forcing hask
        have hless := waiting_ssubset hforcing hstarted (hbound w s .refl)
        exact ih _ (hcard ▸ Finset.card_lt_card hless) hacyclic' hbound' rfl

end

/-! What ends within a budget asks for less within a smaller one. -/

section
variable {w v : World} {s t : Seq} {n k : Nat}

theorem asks_within (h : Ended (s.unconsWithin (.ofBudget n) k w)) (hask : Asks (w, s) (v, t)) :
    ∃ l, l < k ∧ Ended (t.unconsWithin (.ofBudget n) l v) ∧
      ((t.unconsWithin (.ofBudget n) l).after v).cells.size ≤
        ((s.unconsWithin (.ofBudget n) k).after w).cells.size := by
  cases k with
  | zero => exact absurd rfl (h w)
  | succ k =>
    refine ⟨k, Nat.lt_succ_self k, ?_⟩
    cases hask with
    | @lazy _ _ c _ m hrun =>
      have hended : Ended (realize (.ofBudget m) c w) := hrun ▸ Ended.ok t v
      have hwhole := unconsWithin_lazy ((realize_unique h.of_bind hended).trans hrun) k
      rw [Eval.after, Eval.after, hwhole]
      exact ⟨hwhole ▸ h, Nat.le_refl _⟩
    | current _ _ parts =>
      refine ⟨h.of_bind, ?_⟩
      cases hfirst : t.unconsWithin (.ofBudget n) k w with
      | error stop u => rw [after_error hfirst, after_error (unconsWithin_concat_error hfirst)]
      | ok o u =>
        rw [after_ok hfirst]
        cases o with
        | some p => rw [after_ok (unconsWithin_concat_some hfirst)]
        | none =>
          cases parts with
          | nil => rw [after_ok (unconsWithin_concat_last hfirst)]
          | cons next rest =>
            obtain ⟨_, hforcing⟩ := unconsWithin_forcing n k (.concat next rest) u
            rw [Eval.after, unconsWithin_concat_next hfirst]
            exact hforcing.size_le
    | @next _ _ s next rest hfinds =>
      obtain ⟨hended, m, hm⟩ := hfinds
      rw [← hm] at hended
      have hfirst := (unconsWithin_unique h.of_bind hended).trans hm
      have hwhole : (Seq.concat s (next :: rest)).unconsWithin (.ofBudget n) (k + 1) w = _ :=
        unconsWithin_concat_next hfirst
      rw [Eval.after, Eval.after, hwhole]
      exact ⟨hwhole ▸ h, Nat.le_refl _⟩

theorem reaches_within {x y : World × Seq} (hreach : ReflTransGen Asks x y)
    (h : Ended (x.2.unconsWithin (.ofBudget n) k x.1)) :
    ∃ l, l ≤ k ∧ Ended (y.2.unconsWithin (.ofBudget n) l y.1) ∧
      ((y.2.unconsWithin (.ofBudget n) l).after y.1).cells.size ≤
        ((x.2.unconsWithin (.ofBudget n) k).after x.1).cells.size := by
  induction hreach with
  | refl => exact ⟨k, Nat.le_refl k, h, Nat.le_refl _⟩
  | tail _ hask ih =>
    obtain ⟨l, hl, hended, hsize⟩ := ih
    obtain ⟨l', hl', hended', hsize'⟩ := asks_within hended hask
    exact ⟨l', by omega, hended', by omega⟩

theorem not_cyclic_of_ended (h : Ended (s.unconsWithin (.ofBudget n) k w)) : ¬ Cyclic w s := by
  intro hcyclic
  induction k using Nat.strong_induction_on with
  | h k ih =>
    obtain ⟨t, hfollows, hback⟩ := TransGen.head'_iff.1 hcyclic
    obtain ⟨l, hl, hended, -⟩ := asks_within h hfollows.asks
    have hreach : ReflTransGen Asks (w, t) (w, s) := hback.lift (w, ·) fun _ _ => Follows.asks
    obtain ⟨l', hl', hended', -⟩ := reaches_within hreach hended
    exact ih l' (by omega) hended'

end

end Seq

open LazyLisp.Seq

section
variable {e : Engine} {s : Seq} {w : World}

theorem ended_first (he : e.KeepsCells) :
    Ended (s.first? e w) ↔ Ended (s.unconsWithin e e.bound w) := by
  rw [first?_eq he]
  exact ⟨Ended.of_bind, fun h => h.bind fun _ v _ => .ok _ v⟩

theorem ended_rest (he : e.KeepsCells) :
    Ended (s.rest e w) ↔ Ended (s.unconsWithin e e.bound w) := by
  rw [rest_eq he]
  exact ⟨Ended.of_bind, fun h => h.bind fun _ v _ => .ok _ v⟩

theorem ended_isEmpty : Ended (s.isEmpty e w) ↔ Ended (s.unconsWithin e e.bound w) := by
  rw [isEmpty_eq]
  exact ⟨Ended.of_bind, fun h => h.bind fun _ v _ => .ok _ v⟩

end

/-- From some budget on, head, tail and the test for emptiness end, each in one value or error. -/
def Seq.Answers (w : World) (s : Seq) : Prop :=
  ∃ n, ∀ m, n ≤ m →
    (Ended (s.first? (.ofBudget m) w) ∧ s.first? (.ofBudget m) w = s.first? (.ofBudget n) w) ∧
    (Ended (s.rest (.ofBudget m) w) ∧ s.rest (.ofBudget m) w = s.rest (.ofBudget n) w) ∧
    Ended (s.isEmpty (.ofBudget m) w) ∧ s.isEmpty (.ofBudget m) w = s.isEmpty (.ofBudget n) w

theorem Seq.answers_iff_finds {w : World} {s : Seq} : Answers w s ↔ ∃ r, Finds w s r := by
  have hkeeps := Engine.ofBudget_keepsCells
  constructor
  · rintro ⟨n, hn⟩
    have hended := (ended_first (hkeeps n)).1 (hn n (Nat.le_refl n)).1.1
    exact ⟨_, hended, n, rfl⟩
  · rintro ⟨r, hr⟩
    obtain ⟨n, hn⟩ := hr.eventually
    refine ⟨n, fun m hm => ?_⟩
    have hlook : s.unconsWithin (.ofBudget m) m w = r := hn m m hm hm
    have hended : Ended (s.unconsWithin (.ofBudget m) m w) := hlook ▸ hr.1
    have hsame : s.unconsWithin (.ofBudget m) m w = s.unconsWithin (.ofBudget n) n w :=
      hlook.trans (hn n n (Nat.le_refl n) (Nat.le_refl n)).symm
    refine ⟨⟨(ended_first (hkeeps m)).2 hended, ?_⟩, ⟨(ended_rest (hkeeps m)).2 hended, ?_⟩,
      ended_isEmpty.2 hended, ?_⟩
    · rw [first?_eq (hkeeps m), first?_eq (hkeeps n)]
      exact run_bind_eq_of_eq hsame _
    · rw [rest_eq (hkeeps m), rest_eq (hkeeps n)]
      exact run_bind_eq_of_eq hsame _
    · rw [isEmpty_eq, isEmpty_eq]
      exact run_bind_eq_of_eq hsame _

theorem Seq.not_answers_of_cyclic {w v : World} {s t : Seq}
    (hreach : ReflTransGen Asks (w, s) (v, t)) (hcyclic : Cyclic v t) (n : Nat) :
    ¬ Ended (s.unconsWithin (.ofBudget n) n w) := by
  intro hended
  obtain ⟨l, -, hended', -⟩ := reaches_within hreach hended
  exact not_cyclic_of_ended hended' hcyclic

/-- If every thunk returns that looking at a sequence comes to, then looking ends just when what the
cells keep never leads in a cycle and no endless supply of new cells turns up. Behind a cycle, no
budget is enough. A cell that is looked at while its own thunk runs is an error. -/
theorem looking_ends_iff_acyclic (w : World) (s : Seq) :
    (ThunksReturn w s → (Answers w s ↔
      (∀ v t, ReflTransGen Asks (w, s) (v, t) → ¬ Cyclic v t) ∧
        ∃ bound, ∀ v t, ReflTransGen Asks (w, s) (v, t) → v.cells.size ≤ bound)) ∧
    (∀ v t, ReflTransGen Asks (w, s) (v, t) → Cyclic v t → ∀ n,
      ¬ Ended (s.first? (.ofBudget n) w) ∧ ¬ Ended (s.rest (.ofBudget n) w) ∧
        ¬ Ended (s.isEmpty (.ofBudget n) w)) ∧
    ∀ c, w.cells[c]? = some .realizing → ∀ (e : Engine) (n : Nat),
      let own := Stop.error (.invalidArgument "lazy-seq"
        "lazy sequence depends on its own realization")
      (Seq.lazy c).firstWithin e (n + 1) w = .error own w ∧
        (Seq.lazy c).restWithin e (n + 1) w = .error own w ∧
        (Seq.lazy c).isEmptyWithin e (n + 1) w = .error own w ∧
        (Seq.lazy c).unconsWithin e (n + 1) w = .error own w := by
  refine ⟨fun hreturn => ?_, ?_, ?_⟩
  · rw [answers_iff_finds]
    constructor
    · rintro ⟨r, hended, n, hn⟩
      rw [← hn] at hended
      refine ⟨fun v t hreach hcyclic => not_answers_of_cyclic hreach hcyclic n hended,
        ((s.unconsWithin (.ofBudget n) n).after w).cells.size, fun v t hreach => ?_⟩
      obtain ⟨l, -, -, hsize⟩ := reaches_within hreach hended
      obtain ⟨_, hforcing⟩ := unconsWithin_forcing n l t v
      exact Nat.le_trans hforcing.size_le hsize
    · rintro ⟨hacyclic, bound, hbound⟩
      exact exists_finds (acc_asks hacyclic hbound) hreturn
  · intro v t hreach hcyclic n
    have hkeeps := Engine.ofBudget_keepsCells n
    have hnever := not_answers_of_cyclic hreach hcyclic n
    exact ⟨mt (ended_first hkeeps).1 hnever, mt (ended_rest hkeeps).1 hnever,
      mt ended_isEmpty.1 hnever⟩
  · intro c hc e n own
    have hown : realize e c w = .error own w := realize_of_some hc e
    exact ⟨run_bind_error hown _, run_bind_error hown _, run_bind_error hown _,
      run_bind_error hown _⟩

/-- The state behind `(let [s (lazy-seq* (fn [] s))] s)`, where 7 stands for the name `s`. -/
def selfReturning : World :=
  meetAll [(9, .serve (.evaluate none (.list [.special .letIn,
    .vector [.symbol (.plain 7),
      .list [.builtin .lazySeq, .list [.special .lambda, .vector [], .symbol (.plain 7)]]],
    .symbol (.plain 7)]) false))] {}

/-- The state once the thunk has run: the cell keeps itself. -/
def selfKept : World := (realize (.ofBudget 9) 0).after selfReturning

theorem selfKept_cell : selfKept.cells[0]? = some (.realized (.lazy 0)) := rfl

theorem selfKept_cyclic : Cyclic selfKept (.lazy 0) := .single (.stored selfKept_cell)

theorem selfReturning_realize :
    realize (.ofBudget 9) 0 selfReturning = .ok (.lazy 0) selfKept :=
  rfl

theorem selfReturning_reaches {v : World} {t : Seq}
    (h : ReflTransGen Asks (selfReturning, .lazy 0) (v, t)) :
    t = .lazy 0 ∧ (v = selfReturning ∨ v = selfKept) := by
  generalize hy : (v, t) = y at h
  induction h generalizing v t with
  | refl =>
    cases hy
    exact ⟨rfl, .inl rfl⟩
  | @tail x y _ hask ih =>
    subst hy
    obtain ⟨u, r⟩ := x
    obtain ⟨rfl, hu⟩ := ih rfl
    cases hask with
    | @lazy _ _ _ _ n hrun =>
      have hended : Ended (realize (.ofBudget n) 0 u) := hrun ▸ Ended.ok t v
      have hkept : realize (.ofBudget 9) 0 u = .ok (.lazy 0) selfKept := by
        rcases hu with rfl | rfl
        · exact selfReturning_realize
        · exact realize_of_some selfKept_cell _
      rw [realize_unique hended (hkept ▸ Ended.ok _ _), hkept] at hrun
      cases hrun
      exact ⟨rfl, .inr rfl⟩

theorem selfReturning_thunksReturn : ThunksReturn selfReturning (.lazy 0) := by
  intro v c thunk hreach hpending
  obtain ⟨ht, rfl | rfl⟩ := selfReturning_reaches hreach
  · cases ht
    cases hpending
    refine ⟨9, ?_⟩
    have hrun : ∃ v, produce (.ofBudget 9) (.function 0) (selfReturning.setCell 0 .realizing) =
        .ok (.lazy 0) v := ⟨_, rfl⟩
    obtain ⟨v, hrun⟩ := hrun
    exact hrun ▸ Ended.ok _ v
  · cases ht
    cases hpending

theorem selfReturning_asks : ReflTransGen Asks (selfReturning, .lazy 0) (selfKept, .lazy 0) :=
  .single (.lazy selfReturning_realize)

theorem looking_ends_iff_acyclic_self :
    ThunksReturn selfReturning (.lazy 0) ∧ Cyclic selfKept (.lazy 0) ∧
      ¬ Answers selfReturning (.lazy 0) ∧
      ¬ Ended ((Seq.lazy 0).first? (.ofBudget 9) selfReturning) := by
  obtain ⟨hiff, hnever, -⟩ := looking_ends_iff_acyclic selfReturning (.lazy 0)
  refine ⟨selfReturning_thunksReturn, selfKept_cyclic, fun hanswers => ?_, ?_⟩
  · obtain ⟨hacyclic, -⟩ := (hiff selfReturning_thunksReturn).1 hanswers
    exact hacyclic selfKept (.lazy 0) selfReturning_asks selfKept_cyclic
  · exact (hnever selfKept (.lazy 0) selfReturning_asks selfKept_cyclic 9).1

/-- Thunks that return are not enough: this one returns its own sequence. -/
theorem returning_thunks_do_not_suffice :
    ¬ ∀ (demands : List (Nat × Demand)) (s : Seq),
      ThunksReturn (meetAll demands {}) s → Answers (meetAll demands {}) s := by
  intro h
  obtain ⟨r, hended, n, hn⟩ := answers_iff_finds.1 (h _ (.lazy 0) selfReturning_thunksReturn)
  rw [← hn] at hended
  exact not_answers_of_cyclic selfReturning_asks selfKept_cyclic n hended

end LazyLisp
