import LazyLisp.Proofs.Demanding
import LazyLisp.Proofs.Indexing

/-!
The library's `reverse` and `into`, which fold a function over a collection.
-/

namespace LazyLisp
set_option autoImplicit false

namespace Seq
variable {R : World → World → Prop} {w v u : World} {s t : Seq} {β : Type}
  {step : Nat → β → Value → Eval β} {x : Value} {b b' : β} {items : List (Item R)}

theorem fold_ends (h : Takes w s none v) (step : Nat → β → Value → Eval β) (b : β) (done : Nat) :
    ComesTo (fun n => foldWithin (.ofBudget n) (step n) (n - done) s b) w (.ok b v) := by
  obtain ⟨n, hn⟩ := h.uncons
  refine ⟨.ok b v, max n (done + 1), fun m hm => ?_⟩
  show foldWithin (.ofBudget m) (step m) (m - done) s b w = _
  rw [show m - done = (m - (done + 1)) + 1 by omega, foldWithin, run_bind_ok (hn m (by omega))]
  rfl

theorem fold_continues (h : Takes w s (some (x, t)) v)
    (hstep : ComesTo (fun n => step n b x) v (.ok b' u)) (done : Nat) :
    Continues (fun n => foldWithin (.ofBudget n) (step n) (n - done) s b) w
      (fun n => foldWithin (.ofBudget n) (step n) (n - (done + 1)) t b') u := by
  obtain ⟨n, hn⟩ := h.uncons
  obtain ⟨-, l, hl⟩ := hstep
  refine .of_eq ⟨max (max n l) (done + 1), fun m hm => ?_⟩
  rw [show m - done = (m - (done + 1)) + 1 by omega, foldWithin, run_bind_ok (hn m (by omega))]
  exact run_bind_ok (hl m (by omega)) _

/-- A fold whose value is a function of the elements that have been passed. -/
theorem Offers.folds (hR : Harmless R) (value : List Value → β)
    (hstep : ∀ v a x xs, Proceeds R w v → a ∈ items → a.holds v x → ∃ u,
      ComesTo (fun n => step n (value xs) x) v (.ok (value (xs ++ [x])) u) ∧ Proceeds R v u)
    (h : s.Offers R true items v) (hwv : Proceeds R w v) (front : List Value) (done : Nat) :
    ∃ xs u, ComesTo (fun n => foldWithin (.ofBudget n) (step n) (n - done) s (value front)) v
        (.ok (value (front ++ xs)) u) ∧ R v u ∧ Item.AllHold u items xs := by
  induction items generalizing v s front done with
  | nil =>
    obtain ⟨u, hlook, hvu⟩ := h rfl v (hR.refl v)
    refine ⟨[], u, ?_, hvu, .nil⟩
    rw [List.append_nil]
    exact fold_ends hlook step _ done
  | cons a items ih =>
    obtain ⟨x, t, u, hlook, hvu, hx, hmore⟩ := h v (hR.refl v)
    have hwu := hwv.trans hR ⟨hvu, hlook.kept⟩
    obtain ⟨z, hz, huz⟩ := hstep u a x front hwu List.mem_cons_self hx
    obtain ⟨xs, y, hy, hzy, hxs⟩ := ih
      (fun v b x xs hwv hb => hstep v b x xs hwv (List.mem_cons_of_mem _ hb))
      (hmore.along hR huz.along) (hwu.trans hR huz) (front ++ [x]) (done + 1)
    have huy := hR.trans huz.along hzy
    refine ⟨x :: xs, y, (fold_continues hlook hz done).comesTo ?_, hR.trans hvu huy,
      .cons (a.along huy hx) hxs⟩
    rwa [List.append_assoc] at hy

end Seq

namespace Evaluation
open Library
variable {R : World → World → Prop} {w v : World} {scope : Scope} {f coll : Value} {s : Seq}
  {items : List (Item R)} {id : ClosureId}

/-- Joining the elements of a collection, where the value is a function of those passed. -/
theorem reduce_comesTo (hR : Harmless R) (value : List Value → Value)
    (hstep : ∀ v a x xs, Proceeds R w v → a ∈ items → a.holds v x → ∃ u,
      ComesTo (applications scope f [value xs, x]) v (.ok (.value (value (xs ++ [x]))) u) ∧
        Proceeds R v u)
    (hs : coll.toSeq? = some s) (hoffers : s.Offers R true items w) :
    ∃ xs u, ComesTo (fun n => Core.call (.ofBudget n) scope .reduce [f, value [], coll]) w
        (.ok (value xs) u) ∧ R w u ∧ Item.AllHold u items xs := by
  have hfold : ∃ xs u, ComesTo (fun n => Seq.foldWithin (.ofBudget n)
      (fun acc item => (Engine.ofBudget n).apply scope f [acc, item]) (n - 0) s (value [])) w
        (.ok (value ([] ++ xs)) u) ∧ R w u ∧ Item.AllHold u items xs := by
    refine Seq.Offers.folds hR value (fun v a x xs hwv ha hx => ?_) hoffers (.refl hR w) [] 0
    obtain ⟨u, hu, hvu⟩ := hstep v a x xs hwv ha hx
    exact ⟨u, hu.bind (.pure _ u), hvu⟩
  obtain ⟨xs, u, hu, hwu, hxs⟩ := hfold
  exact ⟨xs, u, (Core.comesTo_seqOf hs w).bind hu, hwu, hxs⟩

/-- Calling `into` with a vector. -/
theorem into_gives (hR : Harmless R) (hready : w.Ready)
    (hid : w.closures[id]? = some Entry.into.closure) (hs : coll.toSeq? = some s)
    (hoffers : s.Offers R true items w) (front : List Value) :
    ∃ xs v, (∀ scope, ComesTo (calls scope (.function id) [.vector front, coll]) w
        (.ok (.vector (front ++ xs)) v)) ∧ R w v ∧ Item.AllHold v items xs := by
  have hcalls : ∃ y v, (∀ scope, ComesTo (calls scope (.function id) [.vector front, coll]) w
      (.ok y v)) ∧ R w v ∧ ∃ xs, y = .vector (front ++ xs) ∧ Item.AllHold v items xs := by
    refine entry_calls hid rfl rfl fun u frame hwu hlayers => ?_
    have hscene : Scene (some frame) [Entry.into.bindings [.vector front, coll],
        [(.plain Entry.into.name, .function id)]] u :=
      ⟨hlayers, hready.stocked.idle hwu, hwu.attached.trans hready.attached⟩
    have hconj : Yields (values (some frame) (word Builtin.conj.nameId)) u (.builtin .conj) :=
      (hscene.means_builtin .conj rfl).yields nofun
    have hto : Yields (values (some frame) (word toName)) u (.vector front) :=
      (hscene.means rfl).yields nofun
    have hfrom : Yields (values (some frame) (word fromName)) u coll :=
      (hscene.means rfl).yields (Value.readable_of_toSeq? hs)
    have hreduce : Secures (values (some frame)
        (call .reduce [word Builtin.conj.nameId, word toName, word fromName])) u fun y v => R w v ∧
          ∃ xs, y = .vector (front ++ xs) ∧ Item.AllHold v items xs := by
      refine builtin_secures hscene rfl (.cons hconj (.cons hto (.cons hfrom .nil))) rfl
        fun v huv => ?_
      have hwv := hR.works (.of_idle (hwu.trans huv))
      have hstep : ∀ (v : World) (x : Value) (xs : List Value),
          ComesTo (applications (some frame) (.builtin .conj) [.vector (front ++ xs), x]) v
            (.ok (.value (.vector (front ++ (xs ++ [x])))) v) := fun v x xs => by
        rw [← List.append_assoc]
        exact (applications_continue _ _ _ v).comesTo (.always (.ok _ v) fun _ => rfl)
      obtain ⟨xs, z, hz, hvz, hxs⟩ := reduce_comesTo hR (fun xs => .vector (front ++ xs))
        (fun v a x xs _ _ _ => ⟨v, hstep v x xs, .refl hR v⟩) hs (hoffers.along hR hwv)
      rw [List.append_nil] at hz
      exact ⟨_, z, hz, hR.trans hwv hvz, xs, rfl, hxs⟩
    exact hreduce u (.refl u)
  obtain ⟨_, v, hy, hwv, xs, rfl, hxs⟩ := hcalls
  exact ⟨xs, v, hy, hwv, hxs⟩

/-- The function that `reverse` folds. -/
def consForm : Value := .list [.special .lambda, .vector [word accName, word itemName],
  call .cons [word itemName, word accName]]

/-- Its clause. -/
def consClause : Clause :=
  ⟨[.plain accName, .plain itemName], none, [call .cons [word itemName, word accName]]⟩

/-- A call of the function puts the element in front. -/
theorem consClause_puts {layers : List (List (Symbol × Value))} (hscene : Scene scope layers w)
    (hid : w.closures[id]? = some ⟨none, [consClause], none, scope⟩)
    (hfree : meaningIn layers (.plain Builtin.cons.nameId) = none) {x : Value}
    (hx : ∀ id, x ≠ .transformer id) (xs : List Value)
    (scope' : Scope) :
    ∃ v, ComesTo (applications scope' (.function id) [.list xs, x]) w
      (.ok (.value (.list (x :: xs))) v) ∧ Idle w v := by
  obtain ⟨u, frame, hwu, hlayers, happlies, -, -⟩ := function_applies [.list xs, x] hid hscene.layers
    (rfl : Closure.select? _ 2 = some consClause) rfl
  have hinside : Scene (some frame) ([(.plain accName, .list xs), (.plain itemName, x)] :: layers) u :=
    hscene.within hwu hlayers
  have hitem : Yields (values (some frame) (word itemName)) u x := (hinside.means rfl).yields hx
  have hacc : Yields (values (some frame) (word accName)) u (.list xs) :=
    (hinside.means rfl).yields nofun
  have hcons : Yields (values (some frame) (call .cons [word itemName, word accName])) u
      (.list (x :: xs)) :=
    call_yields (hinside.means_builtin .cons hfree) (.cons hitem (.cons hacc .nil)) rfl fun v _ =>
      Core.call_cons_comesTo rfl x v
  obtain ⟨v, hv, huv⟩ := hcons u (.refl u)
  exact ⟨v, (applications_continue _ _ _ w).comesTo (happlies _ v (comesTo_outcome hv) scope'),
    hwu.trans huv⟩

theorem consForm_makes (hR : Harmless R) (w : World) (scope : Scope) :
    Secures (values scope consForm) w fun f v => ∃ i, f = .function i ∧
      v.closures[i]? = some ⟨none, [consClause], none, scope⟩ ∧ Proceeds R w v := by
  intro v hwv
  obtain ⟨u, hvu, hmade⟩ := lambda_makes consClause (Value.isList_list _ : consForm.IsList _)
    (tellable_of_isCode v.log rfl) nofun (fun _ => rfl) rfl scope
  have hworks := (Works.of_idle hvu).pushClosure ⟨none, [consClause], none, scope⟩
  exact ⟨_, _, hmade, u.closures.size, rfl, by simp,
    (Proceeds.of_idle hR hwv).trans hR ⟨hR.works hworks, kept_of_values hmade⟩⟩

/-- Calling `reverse`. -/
theorem reverse_gives (hR : Harmless R) (hready : w.Ready)
    (hid : w.closures[id]? = some Entry.reverse.closure) (hs : coll.toSeq? = some s)
    (hoffers : s.Offers R true items w) (hitems : ∀ a ∈ items, a.Readable) :
    ∃ xs v, (∀ scope, ComesTo (calls scope (.function id) [coll]) w (.ok (.list xs.reverse) v)) ∧
      R w v ∧ Item.AllHold v items xs := by
  have hcalls : ∃ y v, (∀ scope, ComesTo (calls scope (.function id) [coll]) w (.ok y v)) ∧
      R w v ∧ ∃ xs, y = .list xs.reverse ∧ Item.AllHold v items xs := by
    refine entry_calls hid rfl rfl fun u frame hwu hlayers => ?_
    have hscene : Scene (some frame) [Entry.reverse.bindings [coll],
        [(.plain Entry.reverse.name, .function id)]] u :=
      ⟨hlayers, hready.stocked.idle hwu, hwu.attached.trans hready.attached⟩
    have hargs : Secures (fun n => [consForm, .list [], word collName].mapM
        ((Engine.ofBudget n).value (some frame))) u fun xs z => ∃ i,
          xs = [.function i, .list [], coll] ∧
            z.closures[i]? = some ⟨none, [consClause], none, some frame⟩ ∧ Proceeds R u z := by
      refine secures_arg (consForm_makes hR u _) fun _ v hv => ?_
      obtain ⟨i, rfl, hi, huv⟩ := hv
      refine secures_arg (empty_yields v _).secures fun _ z hz => ?_
      obtain ⟨rfl, hvz⟩ := hz
      have hcoll : Yields (values (some frame) (word collName)) z coll :=
        (((hscene.proceeds hR huv).idle hvz).means rfl).yields (Value.readable_of_toSeq? hs)
      refine secures_arg hcoll.secures fun _ y hy => secures_no_arg fun t hyt => ?_
      obtain ⟨rfl, hzy⟩ := hy
      have hvt := hvz.trans (hzy.trans hyt)
      exact ⟨i, rfl, hvt.closures ▸ hi, huv.trans hR (.of_idle hR hvt)⟩
    have hreduce : Secures (values (some frame) (call .reduce [consForm, .list [], word collName])) u
        fun y v => R w v ∧ ∃ xs, y = .list xs.reverse ∧ Item.AllHold v items xs := by
      refine secures_call (Value.isList_list _) (tellable_of_isCode _ rfl) nofun
        (hscene.means_builtin .reduce rfl).heads nofun hargs fun _ z hz => ?_
      obtain ⟨i, rfl, hi, huz⟩ := hz
      have hwz := hR.trans (hR.works (.of_idle hwu)) huz.along
      have hscene := hscene.proceeds hR huz
      have hstep : ∀ v a x xs, Proceeds R z v → a ∈ items → a.holds v x → ∃ u,
          ComesTo (applications (some frame) (.function i) [.list xs.reverse, x]) v
            (.ok (.value (.list (xs ++ [x]).reverse)) u) ∧ Proceeds R v u := by
        intro v a x xs hzv ha hx
        obtain ⟨u, hu, hvu⟩ := consClause_puts (hscene.proceeds hR hzv) (hzv.kept.closures _ _ hi) rfl
          (hitems a ha v x hx) xs.reverse (some frame)
        rw [List.reverse_append]
        exact ⟨u, hu, .of_idle hR hvu⟩
      obtain ⟨xs, v, hv, hzv, hxs⟩ := reduce_comesTo hR (fun xs => .list xs.reverse) hstep hs
        (hoffers.along hR hwz)
      exact ⟨_, v, (applications_continue _ _ _ z).comesTo (hv.bind (.pure _ v)),
        hR.trans hwz hzv, xs, rfl, hxs⟩
    exact hreduce u (.refl u)
  obtain ⟨_, v, hy, hwv, xs, rfl, hxs⟩ := hcalls
  exact ⟨xs, v, hy, hwv, hxs⟩

end Evaluation
end LazyLisp
