import LazyLisp.Proofs.Stillness

/-!
Evaluation one construct at a time. Each form goes on as the part of it whose value counts, from a
state that has no more than new frames and events, once the parts that are evaluated before are
known. What is known of a part holds whatever frames and events are added in front of it.
-/

namespace LazyLisp
set_option autoImplicit false

/-- The state with one more binding in a frame. -/
def World.bound (w : World) (id : FrameId) (s : Symbol) (x : Value) : World :=
  { w with frames := w.frames.modify id fun f => f.push s x }

namespace Evaluation

/-- A new frame without bindings has been opened inside a scope. -/
structure Opens (w : World) (scope : Scope) (v : World) (id : FrameId) : Prop where
  idle : Idle w v
  fresh : w.frames.size ≤ id
  frame : v.frames[id]? = some { parent := scope }

namespace Opens
variable {w v u : World} {scope : Scope} {id : FrameId} {layers : List (List (Symbol × Value))}

theorem later (h : Opens v scope u id) (hwv : Idle w v) : Opens w scope u id :=
  ⟨hwv.trans h.idle, Nat.le_trans hwv.frames.grows h.fresh, h.frame⟩

theorem keepsFrames_bound (h : Opens w scope v id) (hvu : KeepsFrames v u) (s : Symbol)
    (x : Value) : KeepsFrames w (u.bound id s x) :=
  (h.idle.frames.trans hvu).modify h.fresh _

/-- Once its value is bound, the frame is a layer with this binding and nothing else. -/
theorem layers_bound (h : Opens w scope v id) (hlayers : w.Layers scope layers)
    (hvu : KeepsFrames v u) (s : Symbol) (x : Value) :
    (u.bound id s x).Layers (some id) ([(s, x)] :: layers) := by
  have hframe : (u.bound id s x).frames[id]? = some ⟨[(s, x)], scope⟩ := by
    simp [World.bound, Array.getElem?_modify, hvu.getElem? h.frame, Frame.push]
  exact .inside hframe (fun p hp => Nat.lt_of_lt_of_le (hlayers.has p hp) h.fresh)
    (hlayers.keeps (h.keepsFrames_bound hvu s x))

end Opens

/-- What a form evaluates to, by budget. -/
abbrev outcomes (scope : Scope) (form : Value) : Nat → Eval Outcome :=
  fun n => (Engine.ofBudget n).evaluate scope form

/-- The value of a form, by budget. -/
abbrev values (scope : Scope) (form : Value) : Nat → Eval Value :=
  fun n => (Engine.ofBudget n).value scope form

/-- What an application comes to, by budget. -/
abbrev applications (scope : Scope) (callee : Value) (args : List Value) : Nat → Eval Outcome :=
  fun n => (Engine.ofBudget n).call (.apply scope callee args)

/-- The head of a list denotes this value, be it a macro. -/
def Heads (w : World) (scope : Scope) (head callee : Value) : Prop :=
  ∀ n, (Engine.ofBudget (n + 1)).call (.evaluate scope head true) w = .ok (.value callee) w

section
variable {w v u : World} {scope : Scope} {form head callee x : Value} {args : List Value}

theorem comesTo_value (h : ComesTo (outcomes scope form) w (.ok (.value x) v)) :
    ComesTo (values scope form) w (.ok x v) :=
  h.bind (.pure x v)

/-- Only a value has a value. -/
theorem comesTo_outcome (h : ComesTo (values scope form) w (.ok x v)) :
    ComesTo (outcomes scope form) w (.ok (.value x) v) := by
  obtain ⟨-, n, hn⟩ := h
  refine ⟨.ok _ v, n, fun m hm => ?_⟩
  obtain ⟨o, u, ho, hvalue⟩ := run_bind_eq_ok.1 (hn m hm)
  cases o with
  | value y =>
    cases hvalue
    exact ho
  | again ys => cases hvalue

theorem comesTo_value_error {err : EvalError}
    (h : ComesTo (outcomes scope form) w (.error (.error err) v)) :
    ComesTo (values scope form) w (.error (.error err) v) :=
  h.bind_error

/-- Evaluation does not change what is traced. -/
theorem log_of_values (h : ComesTo (values scope form) w (.ok x v)) : v.log = w.log := by
  obtain ⟨-, n, hn⟩ := h
  have hkept := @Engine.Keeps.value _ w _ ((log_invariant (· = w.log)).keeps n) scope form w rfl
  rwa [after_ok (hn n (Nat.le_refl n))] at hkept

theorem frames_of_values (h : ComesTo (values scope form) w (.ok x v)) : KeepsFrames w v := by
  obtain ⟨-, n, hn⟩ := h
  exact keepsFrames_of_ok (fun _ => (keepsFrames_invariant.keeps n).value scope form)
    (hn n (Nat.le_refl n))

theorem persists_call (request : Request) : Persists fun n => (Engine.ofBudget n).call request :=
  fun _ _ w hnm => ((Engine.ofBudget_tied hnm).call w request trivial).run_eq
    (Unrelated.intro : Unrelated w w)

theorem persists_values (scope : Scope) (form : Value) : Persists (values scope form) :=
  (persists_call _).bind fun o => .const o.toValue

theorem ended_value {n : Nat} (h : Ended ((Engine.ofBudget n).evaluate scope form w)) :
    ∃ r, ComesTo (values scope form) w r := by
  refine ⟨_, (persists_values scope form).comesTo (n := n) (h.bind fun o v _ => ?_)⟩
  cases o with
  | value x => exact .ok x v
  | again xs => exact .error _ v

/-- A list has been opened: its head is known, and it has been traced. -/
theorem evaluate_opens (hform : form.IsList (head :: args)) (htell : form.Tellable w.log)
    (scope : Scope) : ∃ u tail, Idle w u ∧ tail.Fixed args ∧ ∃ n, ∀ m, n ≤ m →
      (Engine.ofBudget (m + 1)).evaluate scope form w =
        Watch.all.evaluateCall (.ofBudget m) scope head tail u := by
  obtain ⟨s, rfl, hs⟩ := hform
  obtain ⟨o, n, hfront, hn⟩ := hs.uncons
  obtain ⟨u, hwu, l, hl⟩ := htell.traced .eval nofun .evaluating
  cases hfront with
  | @some _ tail _ htail =>
    refine ⟨u, tail, hwu, htail, max n l, fun m hm => ?_⟩
    have hopened : Opened (.ofBudget m) s w head tail u := by
      refine ⟨w, ?_, hl m (by omega)⟩
      have hbound : n ≤ (Engine.ofBudget m).bound := Nat.le_trans (Nat.le_max_left n l) hm
      rw [hn _ hbound]
      rfl
    exact hopened.evaluateList scope

theorem special_continues {f : SpecialForm} (hform : form.IsList (.special f :: args))
    (htell : form.Tellable w.log) (scope : Scope) :
    ∃ u, Idle w u ∧ Continues (outcomes scope form) w
      (fun n => special (.ofBudget n) scope f args) u := by
  obtain ⟨u, tail, hwu, htail, n, hn⟩ := evaluate_opens hform htell scope
  obtain ⟨l, hl⟩ := htail.toList
  refine ⟨u, hwu, .of_succ ⟨max n l, fun m hm => ?_⟩⟩
  have hbound : l ≤ (Engine.ofBudget m).bound := Nat.le_trans (Nat.le_max_right n l) hm
  show (Engine.ofBudget (m + 1)).evaluate scope form w = _
  rw [hn m (by omega), evaluateCall_special, hl _ hbound, pure_bind]

/-- A head that is no special form and denotes no macro: its arguments are evaluated in order, and
it is applied to their values. -/
theorem call_continues (hform : form.IsList (head :: args)) (htell : form.Tellable w.log)
    (hspecial : ∀ f, head ≠ .special f) (hhead : ∀ v, Idle w v → Heads v scope head callee)
    (hcallee : ∀ id, callee ≠ .transformer id) :
    ∃ u, Idle w u ∧ Continues (outcomes scope form) w (fun n => do
      let xs ← args.mapM ((Engine.ofBudget n).value scope)
      applyValue (.ofBudget n) scope callee xs) u := by
  obtain ⟨u, tail, hwu, htail, n, hn⟩ := evaluate_opens hform htell scope
  obtain ⟨l, hl⟩ := htail.fold_push
  refine ⟨u, hwu, .of_succ ⟨max n l + 1, fun m hm => ?_⟩⟩
  obtain ⟨m, rfl⟩ := Nat.exists_eq_add_of_le' (Nat.le_trans (Nat.succ_pos _) hm)
  have hbound : l ≤ (Engine.ofBudget (m + 1)).bound :=
    Nat.le_trans (Nat.le_trans (Nat.le_max_right n l) (Nat.le_succ _)) hm
  show (Engine.ofBudget (m + 1 + 1)).evaluate scope form w = _
  rw [hn _ (by omega), evaluateCall_other hspecial, run_bind_ok (hhead u hwu m)]
  cases callee with
  | transformer id => exact absurd rfl (hcallee id)
  | _ => simp only [Outcome.toValue, hl _ _ hbound, bind_assoc, pure_bind]

/-- A head that denotes a macro: the form goes on as its expansion. -/
theorem macro_continues {id : ClosureId} (hform : form.IsList (head :: args))
    (htell : form.Tellable w.log) (hspecial : ∀ f, head ≠ .special f)
    (hhead : ∀ v, Idle w v → Heads v scope head (.transformer id))
    (hexpand : Yields (fun n => expand (.ofBudget n) id args) w x) :
    ∃ u, Idle w u ∧ Continues (outcomes scope form) w (outcomes scope x) u := by
  obtain ⟨u, tail, hwu, htail, n, hn⟩ := evaluate_opens hform htell scope
  obtain ⟨l, hl⟩ := htail.toList
  obtain ⟨z, hz, huz⟩ := hexpand u hwu
  refine ⟨z, hwu.trans huz, .trans (.of_succ ⟨max n l + 1, fun m hm => ?_⟩) (.bind hz)⟩
  obtain ⟨m, rfl⟩ := Nat.exists_eq_add_of_le' (Nat.le_trans (Nat.succ_pos _) hm)
  have hbound : l ≤ (Engine.ofBudget (m + 1)).bound :=
    Nat.le_trans (Nat.le_trans (Nat.le_max_right n l) (Nat.le_succ _)) hm
  show (Engine.ofBudget (m + 1 + 1)).evaluate scope form w = _
  rw [hn _ (by omega), evaluateCall_other hspecial, run_bind_ok (hhead u hwu m)]
  simp only [Outcome.toValue, hl _ hbound, pure_bind]

/-! Special forms. -/

section
variable {test a b : Value} {Q : Value → World → Prop}

theorem if_continues (hform : form.IsList [.special .ifElse, test, a, b])
    (htell : form.Tellable w.log) (htest : Secures (values scope test) w Q) :
    ∃ y u, Q y u ∧ u.log = w.log ∧
      Continues (outcomes scope form) w (outcomes scope (if y.isTruthy then a else b)) u := by
  obtain ⟨v, hwv, hspecial⟩ := special_continues hform htell scope
  obtain ⟨y, u, hy, hQ⟩ := htest v hwv
  refine ⟨y, u, hQ, (log_of_values hy).trans hwv.log,
    hspecial.trans ((Continues.bind hy).trans (.of_eq ⟨0, fun m _ => ?_⟩))⟩
  cases y.isTruthy <;> rfl

/-- Without a second branch the value is `nil` in its place. -/
theorem if_continues_else_nil (hform : form.IsList [.special .ifElse, test, a])
    (htell : form.Tellable w.log) (htest : Secures (values scope test) w Q) :
    ∃ y u, Q y u ∧ u.log = w.log ∧
      Continues (outcomes scope form) w (outcomes scope (if y.isTruthy then a else .nil)) u := by
  obtain ⟨v, hwv, hspecial⟩ := special_continues hform htell scope
  obtain ⟨y, u, hy, hQ⟩ := htest v hwv
  refine ⟨y, u, hQ, (log_of_values hy).trans hwv.log,
    hspecial.trans ((Continues.bind hy).trans (.of_eq ⟨1, fun m hm => ?_⟩))⟩
  obtain ⟨m, rfl⟩ := Nat.exists_eq_add_of_le' hm
  cases y.isTruthy <;> rfl

theorem block_continues (hform : form.IsList [.special .block, a]) (htell : form.Tellable w.log)
    (scope : Scope) : ∃ u, Idle w u ∧ Continues (outcomes scope form) w (outcomes scope a) u :=
  special_continues hform htell scope

theorem quote_yields (hform : form.IsList [.special .quote, a]) (htell : form.Tellable w.log)
    (scope : Scope) : Yields (values scope form) w a := by
  intro v hwv
  obtain ⟨u, hvu, hspecial⟩ := special_continues hform (hwv.log ▸ htell) scope
  exact ⟨u, comesTo_value (hspecial.comesTo (.pure _ u)), hvu⟩

/-- A binding opens a frame, in which its value is found and then bound. -/
theorem let_continues {name : NameId}
    (hform : form.IsList [.special .letIn, .vector [.symbol (.plain name), a], b])
    (htell : form.Tellable w.log) (scope : Scope) :
    ∃ u, Idle w u ∧ Continues (outcomes scope form) w (fun n => do
        let x ← (Engine.ofBudget n).value (some u.frames.size) a
        Eval.push u.frames.size (.plain name) x
        (Engine.ofBudget n).evaluate (some u.frames.size) b)
      { u with frames := u.frames.push { parent := scope } } := by
  obtain ⟨u, hwu, hspecial⟩ := special_continues hform htell scope
  refine ⟨u, hwu, hspecial.trans (.of_eq ⟨0, fun m _ => ?_⟩)⟩
  have hpairs : bindingPairs "let" (some (.vector [.symbol (.plain name), a])) =
      pure [(.plain name, a)] := by
    simp [bindingPairs, pairs, Symbol.plain]
  show letIn (.ofBudget m) scope [.vector [.symbol (.plain name), a], b] u = _
  simp only [letIn, List.head?_cons, List.tail_cons, hpairs, pure_bind, bindAll, body, bind_assoc]
  rfl

end

/-! Arguments and applications. -/

theorem yields_mapM {xs : List Value}
    (h : List.Forall₂ (fun form x => Yields (values scope form) w x) args xs) :
    Yields (fun n => args.mapM ((Engine.ofBudget n).value scope)) w xs := by
  induction h with
  | nil => exact .pure [] w
  | cons hform _ ih =>
    simp only [List.mapM_cons]
    exact hform.bind (ih.bind (.pure _ w))

theorem comesTo_mapM_nil (scope : Scope) (w : World) :
    ComesTo (fun n => ([] : List Value).mapM ((Engine.ofBudget n).value scope)) w (.ok [] w) :=
  .always (.ok [] w) fun _ => rfl

theorem comesTo_mapM_error (args : List Value) {first : Value} {err : EvalError}
    (h : ComesTo (values scope first) w (.error (.error err) v)) :
    ComesTo (fun n => (first :: args).mapM ((Engine.ofBudget n).value scope)) w
      (.error (.error err) v) := by
  simp only [List.mapM_cons]
  exact h.bind_error

theorem comesTo_mapM_cons {first y : Value} {ys : List Value}
    (hfirst : ComesTo (values scope first) w (.ok y v))
    (hmore : ComesTo (fun n => args.mapM ((Engine.ofBudget n).value scope)) v (.ok ys u)) :
    ComesTo (fun n => (first :: args).mapM ((Engine.ofBudget n).value scope)) w
      (.ok (y :: ys) u) := by
  simp only [List.mapM_cons]
  exact hfirst.bind (hmore.bind (.pure _ u))

/-! What is secured for the parts is secured for the whole. -/

theorem applications_continue (scope : Scope) (callee : Value) (args : List Value) (w : World) :
    Continues (applications scope callee args) w
      (fun n => applyValue (.ofBudget n) scope callee args) w :=
  .of_succ ⟨0, fun _ _ => rfl⟩

/-- The value that applying a value gives, by budget. -/
abbrev calls (scope : Scope) (callee : Value) (args : List Value) : Nat → Eval Value :=
  fun n => do (← applyValue (.ofBudget n) scope callee args).toValue

theorem comesTo_calls (h : ComesTo (applications scope callee args) w (.ok (.value x) v)) :
    ComesTo (calls scope callee args) w (.ok x v) :=
  ((applications_continue scope callee args w _).1 h).bind (.pure x v)

theorem persists_applyValue (scope : Scope) (callee : Value) (args : List Value) :
    Persists fun n => applyValue (.ofBudget n) scope callee args :=
  fun _ _ w hnm => persists_call (.apply scope callee args) w (Nat.succ_le_succ hnm)

theorem persists_calls (scope : Scope) (callee : Value) (args : List Value) :
    Persists (calls scope callee args) :=
  (persists_applyValue scope callee args).bind fun o => .const o.toValue

theorem values_continue {d : Nat → Eval Outcome} (h : Continues (outcomes scope form) w d v)
    (hd : Persists d) : Continues (values scope form) w (fun n => do (← d n).toValue) v :=
  h.bind_congr (persists_call _) hd fun _ o => o.toValue

/-- A call whose arguments are known. -/
theorem known_continues {xs : List Value} (hform : form.IsList (head :: args))
    (htell : form.Tellable w.log) (hspecial : ∀ f, head ≠ .special f)
    (hhead : ∀ v, Idle w v → Heads v scope head callee) (hcallee : ∀ id, callee ≠ .transformer id)
    (hargs : List.Forall₂ (fun form x => Yields (values scope form) w x) args xs) :
    ∃ u, Idle w u ∧
      Continues (outcomes scope form) w (fun n => applyValue (.ofBudget n) scope callee xs) u := by
  obtain ⟨v, hwv, hcall⟩ := call_continues hform htell hspecial hhead hcallee
  obtain ⟨u, hxs, hvu⟩ := yields_mapM hargs v hwv
  exact ⟨u, hwv.trans hvu, hcall.trans (.bind hxs)⟩

/-- A call whose arguments but the last are known. -/
theorem last_continues (front : List Value) {xs : List Value} {last : Value}
    (hform : form.IsList (head :: (front ++ [last]))) (htell : form.Tellable w.log)
    (hspecial : ∀ f, head ≠ .special f) (hhead : ∀ v, Idle w v → Heads v scope head callee)
    (hcallee : ∀ id, callee ≠ .transformer id)
    (hfront : List.Forall₂ (fun form x => Yields (values scope form) w x) front xs) :
    ∃ u, Idle w u ∧ Continues (outcomes scope form) w (fun n => do
      let y ← values scope last n
      applyValue (.ofBudget n) scope callee (xs ++ [y])) u := by
  obtain ⟨v, hwv, hcall⟩ := call_continues hform htell hspecial hhead hcallee
  obtain ⟨u, hxs, hvu⟩ := yields_mapM hfront v hwv
  refine ⟨u, hwv.trans hvu, hcall.trans ?_⟩
  simp only [List.mapM_append, List.mapM_cons, List.mapM_nil, bind_assoc, pure_bind]
  exact .bind hxs

section
variable {scope' : Scope} {test a b : Value} {Q : Value → World → Prop}

theorem secures_if {Q' : Value → World → Prop} (hform : form.IsList [.special .ifElse, test, a, b])
    (htell : form.Tellable w.log) (htest : Secures (values scope test) w Q)
    (hbranch : ∀ y u, Q y u → Secures (values scope (if y.isTruthy then a else b)) u Q') :
    Secures (values scope form) w Q' := by
  intro v hwv
  obtain ⟨y, u, hQ, -, hcontinues⟩ := if_continues hform (hwv.log ▸ htell) (htest.along hwv)
  obtain ⟨x, z, hx, hQ'⟩ := hbranch y u hQ u (.refl u)
  exact ⟨x, z, comesTo_value (hcontinues.comesTo (comesTo_outcome hx)), hQ'⟩

theorem secures_arg {Q' : List Value → World → Prop}
    (hfirst : Secures (values scope form) w Q)
    (hmore : ∀ x u, Q x u → Secures (fun n => args.mapM ((Engine.ofBudget n).value scope)) u
      fun xs z => Q' (x :: xs) z) :
    Secures (fun n => (form :: args).mapM ((Engine.ofBudget n).value scope)) w Q' := by
  intro v hwv
  obtain ⟨x, u, hx, hQ⟩ := hfirst v hwv
  obtain ⟨xs, z, hxs, hQ'⟩ := hmore x u hQ u (.refl u)
  exact ⟨x :: xs, z, comesTo_mapM_cons hx hxs, hQ'⟩

theorem secures_no_arg {Q : List Value → World → Prop} (hQ : ∀ u, Idle w u → Q [] u) :
    Secures (fun n => ([] : List Value).mapM ((Engine.ofBudget n).value scope)) w Q :=
  (Secures.pure [] w).weaken fun _ u hxs => hxs.1 ▸ hQ u hxs.2

/-- A call whose arguments are secured, if applying the callee to their values goes well. -/
theorem secures_call {Q : List Value → World → Prop} {Q' : Value → World → Prop}
    (hform : form.IsList (head :: args)) (htell : form.Tellable w.log)
    (hspecial : ∀ f, head ≠ .special f) (hhead : ∀ v, Idle w v → Heads v scope head callee)
    (hcallee : ∀ id, callee ≠ .transformer id)
    (hargs : Secures (fun n => args.mapM ((Engine.ofBudget n).value scope)) w Q)
    (happly : ∀ xs u, Q xs u → ∃ x z,
      ComesTo (applications scope callee xs) u (.ok (.value x) z) ∧ Q' x z) :
    Secures (values scope form) w Q' := by
  intro v hwv
  obtain ⟨u, hvu, hcontinues⟩ := call_continues hform (hwv.log ▸ htell) hspecial
    (fun u hvu => hhead u (hwv.trans hvu)) hcallee
  obtain ⟨xs, z, hxs, hQ⟩ := hargs u (hwv.trans hvu)
  obtain ⟨x, t, hx, hQ'⟩ := happly xs z hQ
  have hresult := hxs.bind ((applications_continue scope callee xs z _).1 hx)
  exact ⟨x, t, comesTo_value (hcontinues.comesTo hresult), hQ'⟩

end

/-- A call of a built-in function that needs no more than its arguments. -/
theorem builtin_yields {b : Builtin} {xs : List Value} (hform : form.IsList (head :: args))
    (htell : form.Tellable w.log) (hspecial : ∀ f, head ≠ .special f)
    (hhead : ∀ v, Idle w v → Heads v scope head (.builtin b))
    (hargs : List.Forall₂ (fun form x => Yields (values scope form) w x) args xs)
    (hcall : ∀ v, Idle w v →
      ComesTo (fun n => Core.call (.ofBudget n) scope b xs) v (.ok x v)) :
    Yields (values scope form) w x := by
  intro v hwv
  obtain ⟨u, hvu, hform⟩ := call_continues hform (hwv.log ▸ htell) hspecial
    (fun u hu => hhead u (hwv.trans hu)) nofun
  obtain ⟨z, hz, huz⟩ := yields_mapM hargs u (hwv.trans hvu)
  have hresult := (hcall z (hwv.trans (hvu.trans huz))).bind (f := fun _ y => pure (Outcome.value y))
    (.pure _ z)
  exact ⟨z, comesTo_value (hform.comesTo (hz.bind hresult)), hvu.trans huz⟩

/-- The layer for the closure's own name. -/
def selfLayer (c : Closure) (self : Value) : List (List (Symbol × Value)) :=
  (c.name.map fun name => [(.plain name.name, self)]).toList

theorem boundFrame_idle (w : World) (parent : Scope) (bindings : List (Symbol × Value)) :
    ∃ u, boundFrame parent bindings w = .ok w.frames.size u ∧ Idle w u ∧
      u.frames[w.frames.size]? = some ⟨bindings, parent⟩ := by
  obtain ⟨u, hrun, hkeeps, -, hframe⟩ := boundFrame_run w parent bindings
  refine ⟨u, hrun, ⟨hkeeps, ?_⟩, hframe⟩
  have hpushes : ∀ (id : FrameId) (bs : List (Symbol × Value)) (v z : World),
      (bs.forM fun b => Eval.push id b.1 b.2) v = .ok ⟨⟩ z →
      { z with frames := w.frames, events := w.events } =
        { v with frames := w.frames, events := w.events } := by
    intro id bs
    induction bs with
    | nil =>
      intro v z h
      cases h
      rfl
    | cons b bs ih =>
      intro v z h
      obtain ⟨_, y, hpush, hmore⟩ := run_bind_eq_ok.1 h
      cases hpush
      exact (ih _ z hmore :)
  obtain ⟨id, v, hnew, hrest⟩ := run_bind_eq_ok.1 hrun
  cases hnew
  obtain ⟨_, z, hfill, hpure⟩ := run_bind_eq_ok.1 hrest
  cases hpure
  exact (hpushes _ bindings _ u hfill :)

variable {id : ClosureId} {c : Closure} {clause : Clause} {self : Value}
  {layers : List (List (Symbol × Value))}

theorem callFrame_idle (hscope : w.Layers c.scope layers) (self : Value)
    (bindings : List (Symbol × Value)) :
    ∃ u frame, callFrame c self bindings w = .ok frame u ∧ Idle w u ∧
      u.Layers (some frame) (bindings :: (selfLayer c self ++ layers)) := by
  rw [callFrame_eq]
  cases hname : c.name with
  | none =>
    obtain ⟨u, hrun, hwu, hframe⟩ := boundFrame_idle w c.scope bindings
    refine ⟨u, _, hrun, hwu, ?_⟩
    rw [selfLayer, hname]
    exact .inside hframe (hscope.has) (hscope.keeps hwu.frames)
  | some name =>
    obtain ⟨v, hself, hwv, houter⟩ := boundFrame_idle w c.scope [(.plain name.name, self)]
    obtain ⟨u, hrun, hvu, hframe⟩ := boundFrame_idle v (some w.frames.size) bindings
    refine ⟨u, _, (run_bind_ok hself _).trans hrun, hwv.trans hvu, ?_⟩
    rw [selfLayer, hname]
    have hsize := (Array.getElem?_eq_some_iff.1 houter).1
    refine .inside hframe (fun p hp => ?_) (.inside (hvu.frames.getElem? houter) (hscope.has)
      (hscope.keeps (hwv.trans hvu).frames))
    cases hp
    exact hsize

/-- A call runs the clause that fits, in a frame over the layers of the closure. -/
theorem invoke_runs (hc : w.closures[id]? = some c)
    (hclause : c.select? args.length = some clause) (hscope : w.Layers c.scope layers)
    (self : Value) :
    ∃ u frame, Idle w u ∧
      u.Layers (some frame) (clause.bindings args :: (selfLayer c self ++ layers)) ∧
      ∀ e, invoke e id self args w = rounds e frame clause.bindingCount clause.body e.bound u := by
  obtain ⟨u, frame, hrun, hwu, hlayers⟩ := callFrame_idle hscope self (clause.bindings args)
  refine ⟨u, frame, hwu, hlayers, fun e => ?_⟩
  rw [invoke, run_bind_ok (run_get w), hc]
  dsimp only
  rw [hclause]
  exact run_bind_ok hrun _

section
variable {frame : FrameId} {expected done : Nat}

/-- A body of one form that gives a value is done after one round. -/
theorem rounds_value (h : ComesTo (outcomes (some frame) form) w (.ok (.value x) v)) :
    ComesTo (fun n => rounds (.ofBudget n) frame expected [form] (n - done)) w (.ok x v) := by
  obtain ⟨-, n, hn⟩ := h
  refine ⟨.ok x v, max n (done + 1), fun m hm => ?_⟩
  have hbody : body (.ofBudget m) (some frame) [form] w = .ok (.value x) v := hn m (by omega)
  show rounds _ _ _ _ (m - done) w = _
  rw [show m - done = (m - (done + 1)) + 1 by omega, rounds, run_bind_ok hbody]
  rfl

theorem rounds_error {err : EvalError}
    (h : ComesTo (outcomes (some frame) form) w (.error (.error err) v)) :
    ComesTo (fun n => rounds (.ofBudget n) frame expected [form] (n - done)) w
      (.error (.error err) v) := by
  obtain ⟨-, n, hn⟩ := h
  refine ⟨.error err v, max n (done + 1), fun m hm => ?_⟩
  have hbody : body (.ofBudget m) (some frame) [form] w = .error (.error err) v := hn m (by omega)
  show rounds _ _ _ _ (m - done) w = _
  rw [show m - done = (m - (done + 1)) + 1 by omega, rounds]
  exact run_bind_error hbody _

/-- A body of one form that asks for another round goes on with the new values in its frame. -/
theorem rounds_continues {xs : List Value}
    (h : ComesTo (outcomes (some frame) form) w (.ok (.again xs) v)) (hxs : xs.length = expected) :
    Continues (fun n => rounds (.ofBudget n) frame expected [form] (n - done)) w
      (fun n => rounds (.ofBudget n) frame expected [form] (n - (done + 1)))
      { v with frames := v.frames.modify frame fun f => f.rebind xs } := by
  obtain ⟨-, n, hn⟩ := h
  refine .of_eq ⟨max n (done + 1), fun m hm => ?_⟩
  have hfits : (xs.length != expected) = false := by simp [hxs]
  have hbody : body (.ofBudget m) (some frame) [form] w = .ok (.again xs) v := hn m (by omega)
  rw [show m - done = (m - (done + 1)) + 1 by omega, rounds, run_bind_ok hbody]
  dsimp only
  rw [hfits]
  rfl

end

/-- What a macro of one form makes of the forms it is given. -/
theorem expand_yields (hc : w.closures[id]? = some c) (hscope : w.Layers c.scope layers)
    (hclause : c.select? args.length = some clause) (hbody : clause.body = [form])
    (hform : ∀ u frame, Idle w u →
      u.Layers (some frame) (clause.bindings args :: (selfLayer c (.transformer id) ++ layers)) →
      Yields (values (some frame) form) u x)
    (htell : x.Tellable w.log) : Yields (fun n => expand (.ofBudget n) id args) w x := by
  intro v hwv
  have hc : v.closures[id]? = some c := hwv.closures ▸ hc
  obtain ⟨u, frame, hvu, hlayers, hinvoke⟩ :=
    invoke_runs hc hclause (hscope.keeps hwv.frames) (.transformer id)
  rw [hbody] at hinvoke
  obtain ⟨z, hz, huz⟩ := hform u frame (hwv.trans hvu) hlayers u (.refl u)
  have hvz := hvu.trans huz
  obtain ⟨y, hzy, htraced⟩ := ((hwv.trans hvz).log ▸ htell).traced .expand nofun
    .expanded
  refine ⟨y, ?_, hvz.trans hzy⟩
  have htraced : ComesTo (fun n => traced (.ofBudget n) .expand .expanded x) z (.ok () y) :=
    ⟨.ok () y, htraced⟩
  have hplain : ∀ n, expand (.ofBudget n) id args = (do
      let expansion ← invoke (.ofBudget n) id (.transformer id) args
      traced (.ofBudget n) .expand .expanded expansion
      return expansion) := by
    intro n
    rw [expand]
    exact bind_congr fun expansion =>
      (traced_bind (.ofBudget n) .expand .expanded expansion (pure expansion)).symm
  simp only [hplain]
  have hrounds := @rounds_value _ _ _ _ frame clause.bindingCount 0 (comesTo_outcome hz)
  have hx := (Continues.of_eq ⟨0, fun m _ => hinvoke (.ofBudget m)⟩).comesTo hrounds
  exact hx.bind (htraced.bind (.pure x y))

/-- Applying a function of one form: the value of the form is that of the application, and so is
its error, and the one ends if the other does. -/
theorem function_applies (args : List Value) (hc : w.closures[id]? = some c)
    (hscope : w.Layers c.scope layers) (hclause : c.select? args.length = some clause) (hbody : clause.body = [form]) :
    ∃ u frame, Idle w u ∧
      u.Layers (some frame) (clause.bindings args :: (selfLayer c (.function id) ++ layers)) ∧
      (∀ y v, ComesTo (outcomes (some frame) form) u (.ok (.value y) v) → ∀ scope,
        ComesTo (fun n => applyValue (.ofBudget n) scope (.function id) args) w
          (.ok (.value y) v)) ∧
      (∀ err v, ComesTo (outcomes (some frame) form) u (.error (.error err) v) → ∀ scope,
        ComesTo (fun n => applyValue (.ofBudget n) scope (.function id) args) w
          (.error (.error err) v)) ∧
      ∀ scope r, ComesTo (fun n => applyValue (.ofBudget n) scope (.function id) args) w r →
        ∃ r', ComesTo (values (some frame) form) u r' := by
  obtain ⟨u, frame, hwu, hlayers, hinvoke⟩ := invoke_runs hc hclause hscope (.function id)
  rw [hbody] at hinvoke
  have hcontinues : Continues (fun n => invoke (.ofBudget n) id (.function id) args) w
      (fun n => rounds (.ofBudget n) frame clause.bindingCount [form] (n - 0)) u :=
    .of_eq ⟨0, fun m _ => hinvoke (.ofBudget m)⟩
  refine ⟨u, frame, hwu, hlayers, fun y v hy scope => ?_, fun err v herr scope => ?_,
    fun scope r hr => ?_⟩
  · exact (hcontinues.comesTo (rounds_value hy)).bind (f := fun _ y => pure (Outcome.value y))
      (.pure _ v)
  · exact (hcontinues.comesTo (rounds_error herr)).bind_error
  · obtain ⟨hended, n, hn⟩ := hr
    have hsame : applyValue (.ofBudget (n + 1)) scope (.function id) args w = r := hn _ (Nat.le_succ n)
    have hrounds := Ended.of_bind (hsame.symm ▸ hended)
    rw [hinvoke] at hrounds
    have hbody : Ended ((Engine.ofBudget (n + 1)).evaluate (some frame) form u) := hrounds.of_bind
    exact ended_value hbody

/-- A call of a function of one form that does no more than its arguments and the form. -/
theorem function_yields {b : Value} {xs : List Value} (hform : form.IsList (head :: args))
    (htell : form.Tellable w.log) (hspecial : ∀ f, head ≠ .special f)
    (hhead : ∀ v, Idle w v → Heads v scope head (.function id))
    (hargs : List.Forall₂ (fun form x => Yields (values scope form) w x) args xs)
    (hc : w.closures[id]? = some c) (hscope : w.Layers c.scope layers)
    (hclause : c.select? xs.length = some clause) (hbody : clause.body = [b])
    (hb : ∀ u frame, Idle w u →
      u.Layers (some frame) (clause.bindings xs :: (selfLayer c (.function id) ++ layers)) →
      Yields (values (some frame) b) u x) : Yields (values scope form) w x := by
  intro v hwv
  obtain ⟨u, hvu, hform⟩ := call_continues hform (hwv.log ▸ htell) hspecial
    (fun u hu => hhead u (hwv.trans hu)) nofun
  obtain ⟨z, hz, huz⟩ := yields_mapM hargs u (hwv.trans hvu)
  have hwz := hwv.trans (hvu.trans huz)
  obtain ⟨y, frame, hzy, hlayers, happlies, -, -⟩ :=
    function_applies xs (hwz.closures ▸ hc) (hscope.keeps hwz.frames) hclause hbody
  obtain ⟨t, ht, hyt⟩ := hb y frame (hwz.trans hzy) hlayers y (.refl y)
  have hresult := happlies x t (comesTo_outcome ht) scope
  exact ⟨t, comesTo_value (hform.comesTo (hz.bind hresult)), hvu.trans (huz.trans (hzy.trans hyt))⟩

/-! Closures and loops. -/

/-- An anonymous function of one clause without a rest parameter. -/
theorem lambda_makes (clause : Clause) {forms : List Value}
    (hform : form.IsList (.special .lambda :: forms))
    (htell : form.Tellable w.log) (hunnamed : ∀ name rest, forms ≠ .symbol ⟨none, name⟩ :: rest)
    (hclauses : ∀ e, parseClauses e "fn" forms = pure [clause]) (hrest : clause.rest = none)
    (scope : Scope) :
    ∃ u, Idle w u ∧ ComesTo (values scope form) w (.ok (.function u.closures.size)
      { u with closures := u.closures.push ⟨none, [clause], none, scope⟩ }) := by
  obtain ⟨u, hwu, hspecial⟩ := special_continues hform htell scope
  refine ⟨u, hwu, comesTo_value (hspecial.comesTo (.always (.ok _ _) fun m => ?_))⟩
  have hmake : Closure.make none [clause] scope "fn" = .ok ⟨none, [clause], none, scope⟩ := by
    simp [Closure.make, Closure.sortClauses, hrest]
  have hlambda : lambda (.ofBudget m) scope forms = do
      return .value (.function (← makeClosure (.ofBudget m) scope none "fn" forms)) := by
    unfold lambda
    split
    · exact absurd rfl (hunnamed _ _)
    · rfl
  show lambda (.ofBudget m) scope forms u = _
  rw [hlambda, makeClosure, hclauses]
  simp only [pure_bind, hmake]
  rfl

/-- A loop opens a frame, in which the first values are found and bound one after the other. -/
theorem loop_continues {items : List Value} {bindings : List (Symbol × Value)} {b : Value}
    (hform : form.IsList [.special .looping, .vector items, b]) (htell : form.Tellable w.log)
    (hbindings : bindingPairs "loop" (some (.vector items)) = pure bindings) (scope : Scope) :
    ∃ u, Idle w u ∧ Continues (outcomes scope form) w (fun n => do
        bindAll (.ofBudget n) u.frames.size bindings
        return .value (← rounds (.ofBudget n) u.frames.size bindings.length [b] n))
      { u with frames := u.frames.push { parent := scope } } := by
  obtain ⟨u, hwu, hspecial⟩ := special_continues hform htell scope
  refine ⟨u, hwu, hspecial.trans (.of_eq ⟨0, fun m _ => ?_⟩)⟩
  show looping (.ofBudget m) scope [.vector items, b] u = _
  simp only [looping, List.head?_cons, List.tail_cons, hbindings, pure_bind]
  rfl

end
end Evaluation
end LazyLisp
