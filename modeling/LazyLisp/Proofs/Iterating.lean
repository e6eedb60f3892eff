import LazyLisp.Proofs.Booting
import LazyLisp.Proofs.Suspending

/-!
The library's `iterate`. The thunk of a cell calls the function before it gives the element: the
next start value is an argument of the next use, and arguments are evaluated at once. So each look
calls the function once, on the element that it gives.
-/

namespace LazyLisp
set_option autoImplicit false

namespace Evaluation
open Library
variable {w u : World} {scope : Scope} {f x : Value} {c : CellId} {id : ClosureId}

/-- The call of the function. -/
def iterateCall : Value := .list [word functionName, word itemName]

/-- The next use of `iterate`. -/
def iterateAgain : Value := use .iterate [word functionName, iterateCall]

/-- What the thunk of a cell of `iterate` evaluates. -/
def iterateBody : Value := call .cons [word itemName, iterateAgain]

/-- Where it is evaluated. -/
def iterateLayers (id : ClosureId) (f x : Value) : List (List (Symbol × Value)) :=
  [[(.plain functionName, f), (.plain itemName, x)], [(.plain Entry.iterate.name, .function id)]]

/-- The body calls the function first. -/
theorem iterateBody_continues (hlayers : w.Layers scope ([] :: iterateLayers id f x))
    (hw : w.Stocked [] [.cons]) (hf : ∀ id, f ≠ .transformer id)
    (hx : ∀ id, x ≠ .transformer id) :
    ∃ v, Idle w v ∧ Continues (outcomes scope iterateBody) w (fun n => do
      let y ← calls scope f [x] n
      let rest ← calls scope (.function id) [f, y] n
      applyValue (.ofBudget n) scope (.builtin .cons) [x, rest]) v := by
  have hitem : w.Means scope itemName x := hlayers.means rfl
  have hfunction : w.Means scope functionName f := hlayers.means rfl
  have hself : w.Means scope Entry.iterate.name (.function id) := hlayers.means rfl
  have htell : ∀ {form : Value} log, form.isCode = true → form.Tellable log := fun _ h =>
    .of_timeless (Value.timeless_of_isCode _ h)
  have hform : iterateBody.IsList [word Builtin.cons.nameId, word itemName, iterateAgain] :=
    Value.isList_list _
  obtain ⟨v, hwv, hbody⟩ := last_continues [word itemName] hform (htell w.log rfl) nofun
    (hw.means_builtin hlayers .cons (by decide) rfl).heads nofun (.cons (hitem.yields hx) .nil)
  obtain ⟨u, hvu, hagain⟩ := last_continues [word functionName]
    (Value.isList_list _ : iterateAgain.IsList _) (htell v.log rfl) nofun (hself.along hwv).heads nofun
    (.cons ((hfunction.yields hf).along hwv) .nil)
  have hwu := hwv.trans hvu
  obtain ⟨z, huz, hcall⟩ := known_continues (Value.isList_list _ : iterateCall.IsList _)
    (htell u.log rfl) nofun (hfunction.along hwu).heads hf (.cons ((hitem.yields hx).along hwu) .nil)
  refine ⟨z, hwu.trans huz, ?_⟩
  have hcall := values_continue hcall (persists_applyValue _ _ _)
  have hagain := values_continue hagain
    ((persists_values _ _).bind fun y => persists_applyValue _ _ _)
  simp only [bind_assoc] at hagain
  have hinner : Continues (values scope iterateAgain) v (fun n => do
      let y ← calls scope f [x] n
      calls scope (.function id) [f, y] n) z :=
    hagain.trans (hcall.bind_congr (persists_values _ _) (persists_calls _ _ _) _)
  have hwhole := hbody.trans (hinner.bind_congr (persists_values _ _)
    ((persists_calls _ _ _).bind fun y => persists_calls _ _ _) _)
  simpa only [bind_assoc, List.singleton_append] using hwhole

/-- A cell of `iterate` for a function and an element that has not been looked at. -/
structure Pending (w : World) (c : CellId) (f x : Value) : Prop where
  attached : w.attached = true
  suspended : ∃ id, Suspends w c iterateBody (iterateLayers id f x) ∧
    w.closures[id]? = some Entry.iterate.closure

/-- Using `iterate` makes a cell, and the function is not called. -/
theorem iterate_suspends {v : World} (hv : v.attached = true)
    (hid : v.closures[id]? = some Entry.iterate.closure) (hstock : v.Stocked [.lazySeq] [.lazySeq])
    (f x : Value) :
    ∃ c z, (∀ scope, ComesTo (applications scope (.function id) [f, x]) v
        (.ok (.value (.seq (.lazy c))) z)) ∧ Works v z ∧ v.cells.size ≤ c ∧ Pending z c f x := by
  obtain ⟨c, z, happlies, hworks, hfresh, hsuspends⟩ :=
    entry_suspends .iterate [f, x] hid hstock rfl rfl rfl rfl rfl
  exact ⟨c, z, happlies, hworks, hfresh, hworks.attached.trans hv, id, hsuspends,
    hworks.closures id _ hid⟩

/-- A look at the cell calls the function once, on the element: it fails if this call fails, ends
only if the call ends, and then gives the element and a cell for the value of the call. -/
theorem iterate_looks (h : Pending w c f x) (hw : w.Stocked [] [.cons])
    (hf : ∀ id, f ≠ .transformer id) (hx : ∀ id, x ≠ .transformer id) :
    ∃ v scope, Idle (w.setCell c .realizing) v ∧
      (∀ o z, Seq.Takes w (.lazy c) o z → ∃ r, ComesTo (calls scope f [x]) v r) ∧
      (∀ err z, ComesTo (calls scope f [x]) v (.error (.error err) z) →
        ComesTo (fun n => (Seq.lazy c).uncons (.ofBudget n)) w
          (.error (.error err) (z.setCell c (.failed err)))) ∧
      ∀ y u, ComesTo (calls scope f [x]) v (.ok y u) → u.Stocked [.lazySeq] [.lazySeq] →
        ∃ c' z, Seq.Takes w (.lazy c) (some (x, .lazy c')) z ∧ Works u z ∧ Pending z c' f y := by
  obtain ⟨hattached, id, hsuspends, hid⟩ := h
  obtain ⟨u, frame, hu, hinside, hvalue, herror, hends⟩ := hsuspends.looks hattached
  have hcons := (hw.setCell c .realizing).idle hu
  obtain ⟨v, huv, hbody⟩ := iterateBody_continues hinside hcons hf hx
  have hidle := hu.trans huv
  refine ⟨v, some frame, hidle, fun o z hlook => ?_, fun err z herr => ?_,
    fun y z hy hstock => ?_⟩
  · obtain ⟨r, hr⟩ := hends o z hlook
    obtain ⟨r, hr⟩ := (persists_call _).ends hr
    exact (persists_calls _ _ _).ends ((hbody r).1 hr)
  · exact herror err z (hbody.comesTo herr.bind_error)
  · have hkept : Kept v z := kept_of_calls hy
    have hid : z.closures[id]? = some Entry.iterate.closure :=
      hkept.closures id _ (hidle.closures ▸ hid)
    have hrunning : z.cells[c]? = some .realizing := by
      obtain ⟨_, _, hc, -⟩ := hsuspends
      refine hkept.realizing c ?_
      rw [hidle.cells]
      exact World.cells_setCell_self (Array.getElem?_eq_some_iff.1 hc).1
    have hattached : z.attached = true := hkept.attached.trans (hidle.attached.trans hattached)
    obtain ⟨c', t, happlies, hworks, hfresh, hpending⟩ := iterate_suspends hattached hid hstock f y
    have hcons : ComesTo (fun n => applyValue (.ofBudget n) (some frame) (.builtin .cons)
        [x, .seq (.lazy c')]) t (.ok (.value (.seq (.cons x (.lazy c')))) t) :=
      (Core.call_cons_comesTo rfl x t).bind (.pure _ t)
    have hresult := hbody.comesTo (hy.bind ((comesTo_calls (happlies _)).bind hcons))
    have hne : c' ≠ c :=
      Nat.ne_of_gt (Nat.lt_of_lt_of_le (Array.getElem?_eq_some_iff.1 hrunning).1 hfresh)
    refine ⟨c', t.setCell c (.realized (.cons x (.lazy c'))), ?_, ?_, ?_⟩
    · exact hvalue _ t (comesTo_value hresult) _ rfl _ _ (.cons _ x _)
    · refine hworks.setCell fun old hold => ⟨?_, _, rfl⟩
      exact Option.some.inj (hold.symm.trans hrunning)
    · obtain ⟨hattached, id, hsuspends, hid⟩ := hpending
      exact ⟨hattached, id, hsuspends.setCell hne _, hid⟩

/-- Each of so many looks, one after the other, first does some work of its own and then calls the
function once, on the element at the head. It fails as this call fails and ends only if the call
ends. Once the call has given a value, the look gives the element, as long as the names still have
their meaning, and the value is the next element. -/
def Iterates (f : Value) : Nat → World → Value → Seq → Prop
  | 0, _, _, _ => True
  | k + 1, w, x, s => ∃ c v scope, s = .lazy c ∧ Idle (w.setCell c .realizing) v ∧
      (∀ o z, Seq.Takes w s o z → ∃ r, ComesTo (calls scope f [x]) v r) ∧
      (∀ err z, ComesTo (calls scope f [x]) v (.error (.error err) z) →
        ComesTo (fun n => s.uncons (.ofBudget n)) w
          (.error (.error err) (z.setCell c (.failed err)))) ∧
      ∀ y u, ComesTo (calls scope f [x]) v (.ok y u) →
        u.Stocked [.lazySeq] [.lazySeq, .cons] →
        ∃ t z, Seq.Takes w s (some (x, t)) z ∧ Works u z ∧
          ((∀ id, y ≠ .transformer id) → Iterates f k z y t)

theorem pending_iterates (hf : ∀ id, f ≠ .transformer id) (k : Nat) :
    ∀ {w : World} {c : CellId} {x : Value}, Pending w c f x → w.Stocked [] [.cons] →
      (∀ id, x ≠ .transformer id) → Iterates f k w x (.lazy c) := by
  induction k with
  | zero => exact fun _ _ _ => trivial
  | succ k ih =>
    intro w c x h hw hx
    obtain ⟨v, scope, hidle, hends, herror, hvalue⟩ := iterate_looks h hw hf hx
    refine ⟨c, v, scope, rfl, hidle, hends, herror, fun y u hy hstock => ?_⟩
    obtain ⟨c', z, hlook, hworks, hpending⟩ :=
      hvalue y u hy (hstock.subset (fun _ h => h) (by decide))
    have hz := (hstock.subset (List.nil_subset _) (by decide) : u.Stocked [] [.cons])
    exact ⟨.lazy c', z, hlook, hworks, fun hy => ih hpending (hworks.stocked hz) hy⟩

/-- `iterate` itself calls the function not at all, and then each look at its elements calls it
once, on the element that the look gives. -/
theorem looks_at_iterate_call_once (hattached : w.attached = true)
    (hw : w.Stocked [.iterate, .lazySeq] [.lazySeq, .cons]) {iterate : Value}
    (hiterate : w.global? (.plain Entry.iterate.name) = some iterate)
    (hf : ∀ id, f ≠ .transformer id) (hx : ∀ id, x ≠ .transformer id) :
    ∃ s v, (∀ scope, ComesTo (calls scope iterate [f, x]) w (.ok (.seq s) v)) ∧ Works w v ∧
      ∀ k, Iterates f k v x s := by
  obtain ⟨id, hid, hclosure⟩ := hw.entry .iterate (by decide)
  obtain rfl : Entry.iterate.value id = iterate := Option.some.inj (hid.symm.trans hiterate)
  obtain ⟨c, v, happlies, hworks, -, hpending⟩ :=
    iterate_suspends hattached hclosure (hw.subset (by decide) (by decide)) f x
  have hcons : v.Stocked [] [.cons] := hworks.stocked (hw.subset (List.nil_subset _) (by decide))
  exact ⟨.lazy c, v, fun scope => comesTo_calls (happlies scope), hworks,
    fun k => pending_iterates hf k hpending hcons hx⟩

/-- `(iterate inc 1)` in a new interpreter. -/
theorem looks_at_iterate_call_once_inc : ∃ w id, Interpreter.start (.ofBudget 60) {} = .ok w ∧
    w.global? (.plain Entry.iterate.name) = some (.function id) ∧
    ∃ s v, (∀ scope, ComesTo (calls scope (.function id) [.builtin .inc, .int 1]) w
        (.ok (.seq s) v)) ∧ Works w v ∧ ∀ k, Iterates (.builtin .inc) k v (.int 1) s := by
  obtain ⟨w, hstart, -⟩ := Interpreter.samples_reached
  have hready := Interpreter.started_ready rfl hstart
  obtain ⟨id, hid, -⟩ := hready.stocked.entry .iterate (by decide)
  exact ⟨w, id, hstart, hid, looks_at_iterate_call_once hready.attached
    (hready.stocked.subset (by decide) (by decide)) hid nofun nofun⟩

/-- In a new interpreter the first element of `(iterate (fn [x] (println x) x) 1)` is the start
value, but the function has been called. -/
theorem iterate_prints_ahead : ∃ w v, Interpreter.start (.ofBudget 60) {} = .ok w ∧
    Session.evalSource (.ofBudget 60) "(first (iterate (fn [x] (println x) x) 1))" w =
      .ok (.int 1) v ∧ v.output = "1\n" := by
  obtain ⟨w, hstart, hsamples⟩ := Interpreter.samples_reached
  simp only [Interpreter.samples, List.forall_mem_cons] at hsamples
  obtain ⟨v, hv, houtput⟩ := Interpreter.Ending.value_of_isReached hsamples.2.2.2.2.2.1
  exact ⟨w, v, hstart, hv, houtput⟩

end Evaluation
end LazyLisp
