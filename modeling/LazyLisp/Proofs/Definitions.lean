import LazyLisp.Proofs.Grounding
import LazyLisp.Proofs.Opening

/-!
Where definitions land. The target of a definition is checked against the namespace that is current
before the initial value is found, but the var is made in the one that is current afterwards. The two
are the same unless the initial value switches namespaces; then the var lands elsewhere, even if the
target names its namespace. In both cases exactly one var of one namespace is made or bound.
-/

namespace LazyLisp
set_option autoImplicit false

/-- Every namespace is stored under its own name, and owns a var only under the name that the var
has: so it is in every state that an interpreter reaches. -/
structure Realm.Named (p : Realm) : Prop where
  stored : ∀ ns n, p.spaces.get? ns = some n → n.name = ns
  own : ∀ ns name id, p.spaces.own? ns name = some id →
    ∃ x, p.spaces.var? id = some x ∧ x.name = .qualified ns name

namespace Namespaces
variable {s t : Namespaces} {ns k name m target source : NameId} {id id' : VarId} {found : Bool}

theorem get?_put (s : Namespaces) (ns : NameId) (n : Namespace) (vars : Array Var) (k : NameId) :
    ({ table := s.table.put ns n, vars := vars } : Namespaces).get? k =
      if k = ns then some n else s.get? k :=
  Table.get?_put s.table ns k n

theorem own?_put (s : Namespaces) (ns : NameId) (n : Namespace) (vars : Array Var) (k m : NameId) :
    ({ table := s.table.put ns n, vars := vars } : Namespaces).own? k m =
      if k = ns then n.own.get? m else s.own? k m := by
  rw [own?, get?_put]
  split
  · rfl
  · rfl

theorem own?_create (s : Namespaces) (ns k m : NameId) : (s.create ns).own? k m = s.own? k m := by
  rw [own?, get?_create, own?]
  split
  · rename_i hk
    subst hk
    cases s.get? k with
    | none => rfl
    | some n => rfl
  · rfl

theorem own?_remove (h : (s.remove ns).own? k m = some id) : s.own? k m = some id := by
  rw [own?, get?_remove] at h
  split at h
  · cases h
  · exact h

theorem own?_refer {count : Nat} (h : s.refer target source = (.ok count, t)) (k m : NameId) :
    t.own? k m = s.own? k m := by
  obtain ⟨n, refers, hn, rfl⟩ := refer_cases h
  rw [own?_put]
  split
  · rename_i hk
    subst hk
    rw [own?, hn]
    rfl
  · rfl

theorem own?_unmap (h : s.unmap? ns name = some (found, t)) (hid : t.own? k m = some id) :
    s.own? k m = some id := by
  obtain ⟨n, hn, rfl⟩ := unmap?_cases h
  rw [own?_put] at hid
  split at hid
  · rename_i hk
    subst hk
    dsimp only at hid
    rw [Table.get?_remove] at hid
    split at hid
    · cases hid
    · rw [own?, hn]
      exact hid
  · exact hid

theorem var?_setVar (s : Namespaces) (id id' : VarId) (value : Value) :
    (s.setVar id value).var? id' =
      if id = id' then (s.var? id').map fun x => { x with value := some value }
      else s.var? id' :=
  Array.getElem?_modify

theorem var?_push {vars : Array Var} {x y : Var} {id : VarId} (h : vars[id]? = some x) :
    (vars.push y)[id]? = some x := by
  have hlt : id < vars.size := (Array.getElem?_eq_some_iff.1 h).1
  rw [Array.getElem?_push_lt hlt, ← h, Array.getElem?_eq_getElem hlt]

/-- A namespace owns the interned var under that name; what it owns under others, and what others
have, stays. -/
theorem own?_intern (h : s.intern? ns name = some (id, t)) (k m : NameId) :
    t.own? k m = if k = ns ∧ m = name then some id else s.own? k m := by
  obtain ⟨n, hn, ⟨hown, rfl⟩ | ⟨-, rfl, rfl⟩⟩ := intern?_cases h
  · split
    · rename_i hkm
      rw [hkm.1, hkm.2, own?, hn]
      exact hown
    · rfl
  · rw [own?_put]
    by_cases hk : k = ns
    · subst hk
      rw [if_pos rfl, Table.get?_put]
      by_cases hm : m = name
      · rw [if_pos hm, if_pos ⟨rfl, hm⟩]
      · rw [if_neg hm, if_neg fun hboth => hm hboth.2, own?, hn]
        rfl
    · rw [if_neg hk, if_neg fun hboth => hk hboth.1]

/-- Interning makes at most one var, at the end of the store. -/
theorem var?_intern (h : s.intern? ns name = some (id, t)) (hid : id' ≠ id) :
    t.var? id' = s.var? id' := by
  obtain ⟨n, hn, ⟨-, rfl⟩ | ⟨-, rfl, rfl⟩⟩ := intern?_cases h
  · rfl
  · show (s.vars.push _)[id']? = s.vars[id']?
    rw [Array.getElem?_push, if_neg hid]

end Namespaces

namespace Move
variable {p q : Realm} {ns name : NameId} {id : VarId}

/-- Vars are never given up, and keep their names. -/
theorem var_name (h : Move p q) {x : Var} (hx : p.spaces.var? id = some x) :
    ∃ y, q.spaces.var? id = some y ∧ y.name = x.name := by
  cases h with
  | intern h =>
    obtain ⟨n, -, ⟨-, rfl⟩ | ⟨-, -, rfl⟩⟩ := Namespaces.intern?_cases h
    · exact ⟨x, hx, rfl⟩
    · exact ⟨x, Namespaces.var?_push hx, rfl⟩
  | @setVar s current id' v =>
    have hvar := Namespaces.var?_setVar s id' id v
    rw [hx] at hvar
    split at hvar
    · exact ⟨_, hvar, rfl⟩
    · exact ⟨x, hvar, rfl⟩
  | create ns =>
    have hvars : ∀ s : Namespaces, (s.create ns).vars = s.vars := by
      intro s
      unfold Namespaces.create
      split <;> rfl
    exact ⟨x, (congrArg (·[id]?) (hvars _)).trans hx, rfl⟩
  | refer h =>
    obtain ⟨n, refers, -, rfl⟩ := Namespaces.refer_cases h
    exact ⟨x, hx, rfl⟩
  | enter _ => exact ⟨x, hx, rfl⟩
  | remove _ _ => exact ⟨x, hx, rfl⟩
  | unmap h =>
    obtain ⟨n, -, rfl⟩ := Namespaces.unmap?_cases h
    exact ⟨x, hx, rfl⟩

/-- A namespace comes to own a var in no other way than by interning. -/
theorem own_cases (h : Move p q) (hp : p.Named) (hid : q.spaces.own? ns name = some id) :
    p.spaces.own? ns name = some id ∨ q.spaces.var? id = some { name := .qualified ns name } := by
  cases h with
  | @intern s t current ns' name' id' h =>
    obtain ⟨n, hn, ⟨-, rfl⟩ | ⟨-, hfresh, rfl⟩⟩ := Namespaces.intern?_cases h
    · exact .inl hid
    · rw [Namespaces.own?_intern h] at hid
      split at hid
      · rename_i hboth
        obtain ⟨rfl, rfl⟩ := hboth
        cases hid
        subst hfresh
        have hname : n.name = ns := hp.stored ns n hn
        exact .inr (hname ▸ Array.getElem?_push_size)
      · exact .inl hid
  | setVar _ _ => exact .inl hid
  | create ns' => exact .inl ((Namespaces.own?_create _ ns' ns name).symm.trans hid)
  | refer h => exact .inl ((Namespaces.own?_refer h ns name).symm.trans hid)
  | enter _ => exact .inl hid
  | remove _ _ => exact .inl (Namespaces.own?_remove hid)
  | unmap h => exact .inl (Namespaces.own?_unmap h hid)

/-- A namespace that is changed keeps its name. -/
theorem stored_put {s : Namespaces} {k : NameId} {m n : Namespace} {vars : Array Var}
    (hs : ∀ ns n, s.get? ns = some n → n.name = ns) (hm : s.get? k = some m)
    (hname : n.name = m.name) (ns : NameId) (n' : Namespace)
    (hn : ({ table := s.table.put k n, vars := vars } : Namespaces).get? ns = some n') :
    n'.name = ns := by
  rw [Namespaces.get?_put] at hn
  split at hn
  · rename_i hns
    cases hn
    rw [hname, hs k m hm, hns]
  · exact hs ns n' hn

/-- Namespaces are made under their own name, and never renamed. -/
theorem stored (h : Move p q) (hp : p.Named) (ns : NameId) (n : Namespace)
    (hn : q.spaces.get? ns = some n) : n.name = ns := by
  cases h with
  | intern h =>
    obtain ⟨m, hm, ⟨-, rfl⟩ | ⟨-, -, rfl⟩⟩ := Namespaces.intern?_cases h
    · exact hp.stored ns n hn
    · exact stored_put hp.stored hm (by rfl) ns n hn
  | create k =>
    rw [Namespaces.get?_create] at hn
    split at hn
    · rename_i hns
      subst hns
      cases hget : Namespaces.get? _ ns with
      | none =>
        rw [hget] at hn
        cases hn
        rfl
      | some m =>
        rw [hget] at hn
        cases hn
        exact hp.stored ns _ hget
    · exact hp.stored ns n hn
  | refer h =>
    obtain ⟨m, refers, hm, rfl⟩ := Namespaces.refer_cases h
    exact stored_put hp.stored hm (by rfl) ns n hn
  | remove _ _ =>
    rw [Namespaces.get?_remove] at hn
    split at hn
    · cases hn
    · exact hp.stored ns n hn
  | unmap h =>
    obtain ⟨m, hm, rfl⟩ := Namespaces.unmap?_cases h
    exact stored_put hp.stored hm (by rfl) ns n hn
  | setVar _ _ => exact hp.stored ns n hn
  | enter _ => exact hp.stored ns n hn

theorem named (h : Move p q) (hp : p.Named) : q.Named where
  stored := h.stored hp
  own ns name id hid := by
    rcases h.own_cases hp hid with hbefore | hnew
    · obtain ⟨x, hx, hname⟩ := hp.own ns name id hbefore
      obtain ⟨y, hy, hsame⟩ := h.var_name hx
      exact ⟨y, hy, hsame.trans hname⟩
    · exact ⟨_, hnew, rfl⟩

end Move

theorem World.blank_named (log : LogDomains) : (World.blank log).realm.Named := by
  have hempty : Realm.Named ⟨{}, (World.blank log).current⟩ := ⟨nofun, nofun⟩
  exact (Move.create Names.core).named hempty

theorem Interpreter.Reached.named {w : World} (h : Reached w) : w.realm.Named :=
  h.keeps World.blank_named fun _ _ hmove => hmove.named

/-- The second state is the first after the var `ns/name` was made or bound: no other var, and no
other name of any namespace, has changed. -/
structure Defined (u v : World) (ns name : NameId) (id : VarId) (value : Option Value) : Prop where
  owned : v.spaces.own? ns name = some id
  var : ∃ x, v.spaces.var? id = some x ∧ x.name = .qualified ns name ∧
    x.value = value.or ((u.spaces.var? id).bind (·.value))
  /-- It is the var of this name alone. -/
  only : ∀ k m, v.spaces.own? k m = some id → k = ns ∧ m = name
  names : ∀ k m, ¬ (k = ns ∧ m = name) → v.spaces.own? k m = u.spaces.own? k m
  others : ∀ k, k ≠ ns → v.spaces.get? k = u.spaces.get? k
  vars : ∀ id', id' ≠ id → v.spaces.var? id' = u.spaces.var? id'
  current : v.current = u.current

theorem intern_defined {u v : World} {ns name : NameId} {id : VarId} {spaces : Namespaces}
    (hu : u.realm.Named) (h : u.spaces.intern? ns name = some (id, spaces))
    (hspaces : v.spaces = spaces) (hcurrent : v.current = u.current) :
    Defined u v ns name id none := by
  subst hspaces
  have hmove : Move u.realm ⟨v.spaces, u.current⟩ := .intern h
  have howned : v.spaces.own? ns name = some id := by
    rw [Namespaces.own?_intern h, if_pos ⟨rfl, rfl⟩]
  have hv : ∀ k m, v.spaces.own? k m = some id →
      ∃ x, v.spaces.var? id = some x ∧ x.name = .qualified k m :=
    fun k m => (hmove.named hu).own k m id
  obtain ⟨x, hx, hname⟩ := hv ns name howned
  refine ⟨howned, ⟨x, hx, hname, ?_⟩, fun k m hkm => ?_, fun k m hkm => ?_, fun k hk => ?_,
    fun id' hid => Namespaces.var?_intern h hid, hcurrent⟩
  · obtain ⟨n, hn, ⟨-, hsame⟩ | ⟨-, hfresh, hsame⟩⟩ := Namespaces.intern?_cases h
    · rw [← hsame, hx]
      rfl
    · have hnew : v.spaces.var? id = some { name := .qualified ns name } := by
        rw [hsame, hfresh, hu.stored ns n hn]
        exact Array.getElem?_push_size
      have hnone : u.spaces.var? id = none := by
        rw [hfresh]
        exact Array.getElem?_size
      rw [hx] at hnew
      cases hnew
      rw [hnone]
      rfl
  · obtain ⟨y, hy, hother⟩ := hv k m hkm
    rw [hx] at hy
    cases hy
    rw [hname] at hother
    cases hother
    exact ⟨rfl, rfl⟩
  · rw [Namespaces.own?_intern h, if_neg hkm]
  · obtain ⟨n, -, ⟨-, hsame⟩ | ⟨-, -, hsame⟩⟩ := Namespaces.intern?_cases h
    · rw [hsame]
    · rw [hsame]
      show (u.spaces.table.put ns _).get? k = _
      rw [Table.get?_put, if_neg hk]
      rfl

theorem define_defined {u : World} (hu : u.realm.Named) {name : NameId} {value : Value} {id : VarId}
    {spaces : Namespaces} (h : u.spaces.intern? u.current name = some (id, spaces)) :
    Defined u { u with spaces := spaces.setVar id value } u.current name id (some value) := by
  obtain ⟨howned, ⟨x, hx, hname, -⟩, honly, hnames, hothers, hvars, -⟩ :=
    @intern_defined u { u with spaces := spaces } _ _ _ _ hu h rfl rfl
  refine ⟨howned, ⟨{ x with value := some value }, ?_, hname, rfl⟩, honly, hnames, hothers,
    fun id' hid => ?_, rfl⟩
  · have hvar : (spaces.setVar id value).var? id = _ := Namespaces.var?_setVar spaces id id value
    rw [if_pos rfl, show spaces.var? id = some x from hx] at hvar
    exact hvar
  · have hvar : (spaces.setVar id value).var? id' = _ := Namespaces.var?_setVar spaces id id' value
    rw [if_neg hid.symm] at hvar
    exact hvar.trans (hvars id' hid)

theorem named_invariant : Invariant fun _ w => w.realm.Named :=
  .of_moves (R := fun _ p => p.Named) fun _ _ _ hmove => hmove.named

/-- From the state in which the target `s` of a definition is checked to the one in which its var is
made: the initial value is found in between, if there is one. -/
inductive Prepares (e : Engine) (scope : Scope) (start : World) (s : Symbol) :
    List Value → Option Value → World → Prop
  | bare : Prepares e scope start s [.symbol s] none start
  | initial {form a : Value} {u : World} : e.value scope form start = .ok a u →
    Prepares e scope start s [.symbol s, form] (some a) u

section
variable {n : Nat} {scope : Scope} {args : List Value} {w v : World} {o : Outcome}

theorem declare_eq_ok {name : NameId} {id : VarId} (h : Eval.declare name w = .ok id v) :
    ∃ spaces, w.spaces.intern? w.current name = some (id, spaces) ∧
      v = { w with spaces := spaces } := by
  rw [Eval.declare, run_bind_ok (run_get w)] at h
  cases hintern : w.spaces.intern? w.current name with
  | none =>
    rw [hintern] at h
    cases h
  | some p =>
    rw [hintern] at h
    cases h
    exact ⟨p.2, rfl, rfl⟩

theorem define_eq_ok {name : NameId} {value : Value} {id : VarId}
    (h : Eval.define name value w = .ok id v) :
    ∃ spaces, w.spaces.intern? w.current name = some (id, spaces) ∧
      v = { w with spaces := spaces.setVar id value } := by
  obtain ⟨id', u, hdeclare, hset⟩ := run_bind_eq_ok.1 h
  obtain ⟨spaces, hintern, rfl⟩ := declare_eq_ok hdeclare
  cases hset
  exact ⟨spaces, hintern, rfl⟩

theorem define_lands (hw : w.realm.Named)
    (h : Evaluation.define (.ofBudget n) scope args w = .ok o v) :
    ∃ s value u id, Prepares (.ofBudget n) scope w s args value u ∧
      (∀ ns, s.ns = some ns → ns = w.current) ∧ o = .value (.var id) ∧
      Defined u v u.current s.name id value := by
  unfold Evaluation.define at h
  split at h
  · rename_i target
    rcases definitionTarget_cases "def" target w with ⟨s, rfl, hns, htarget⟩ | ⟨e, htarget, -⟩
    · rw [run_bind_ok htarget] at h
      obtain ⟨id, u, hdeclare, hrest⟩ := run_bind_eq_ok.1 h
      obtain ⟨events, hnote⟩ := noteDefinition_run id u
      rw [run_bind_ok hnote] at hrest
      cases hrest
      obtain ⟨spaces, hintern, rfl⟩ := declare_eq_ok hdeclare
      exact ⟨s, none, w, id, .bare, hns, rfl, intern_defined hw hintern rfl rfl⟩
    · rw [run_bind_error htarget] at h
      cases h
  · rename_i target form
    rcases definitionTarget_cases "def" target w with ⟨s, rfl, hns, htarget⟩ | ⟨e, htarget, -⟩
    · rw [run_bind_ok htarget] at h
      obtain ⟨value, u, hvalue, hdefine⟩ := run_bind_eq_ok.1 h
      obtain ⟨id, u', hbind, hrest⟩ := run_bind_eq_ok.1 hdefine
      obtain ⟨events, hnote⟩ := noteDefinition_run id u'
      rw [run_bind_ok hnote] at hrest
      cases hrest
      obtain ⟨spaces, hintern, rfl⟩ := define_eq_ok hbind
      have hu : u.realm.Named := by
        have hkept := @Engine.Keeps.value _ w _ (named_invariant.keeps n) scope form w hw
        rwa [after_ok hvalue] at hkept
      have hdefined := @define_defined u hu _ value _ _ hintern
      -- the note behind the definition changes neither vars nor namespaces
      exact ⟨s, some value, u, id, .initial hvalue, hns, rfl, { hdefined with }⟩
    · rw [run_bind_error htarget] at h
      cases h
  · cases h

theorem traced_named {k : Nat} {form : Value} (hw : w.realm.Named)
    (h : traced (.ofBudget k) .eval .evaluating form w = .ok () v) : v.realm.Named := by
  unfold traced at h
  rw [run_bind_ok (run_get w)] at h
  split at h
  · obtain ⟨text, u, htext, hnote⟩ := run_bind_eq_ok.1 h
    cases hnote
    have hkept := (@Engine.Paired.textOrType _ _ _ w _ _ (named_invariant.keeps k) form).preserves
      w hw
    rwa [after_ok htext] at hkept
  · cases h
    exact hw

theorem define_foreign (e : Engine) {s : Symbol} {ns : NameId} (hns : s.ns = some ns)
    (hforeign : ns ≠ w.current) {rest : List Value} (hrest : rest.length ≤ 1) :
    Evaluation.define e scope (.symbol s :: rest) w =
      .error (.error (.foreignDefinition (w.symbolText s) (w.nameText w.current))) w := by
  have htarget : Evaluation.definitionTarget "def" (.symbol s) w =
      .error (.error (.foreignDefinition (w.symbolText s) (w.nameText w.current))) w := by
    rw [Evaluation.definitionTarget, run_bind_ok (run_get w), hns, if_pos (by simpa using hforeign)]
    rfl
  rcases length_le_one_cases hrest with rfl | ⟨form, rfl⟩
  · exact run_bind_error htarget _
  · exact run_bind_error htarget _

end

/-- A definition makes or binds the var of its name in the namespace that is current behind the
initial value, and changes nothing else. Unless tracing the form or finding the value has switched
namespaces, that is the one that the target names, and the one that was current at first. A target
that names another namespace than the current one is refused, and nothing is changed. -/
theorem definitions_land (n : Nat) (scope : Scope) (args : List Value) (w : World)
    (hw : w.realm.Named) :
    (∀ o v, (Engine.ofBudget n).evaluate scope (.list (.special .define :: args)) w = .ok o v →
      ∃ k start s value u id,
        traced (.ofBudget k) .eval .evaluating (.list (.special .define :: args)) w = .ok () start ∧
        (w.log.eval = false → start = w) ∧
        Prepares (.ofBudget k) scope start s args value u ∧
        o = .value (.var id) ∧ Defined u v u.current s.name id value ∧
        (start.current = w.current → u.current = w.current →
          Defined u v (s.ns.getD w.current) s.name id value)) ∧
    ∀ k start s ns rest, n = k + 1 → 3 ≤ k → args = .symbol s :: rest → rest.length ≤ 1 →
      traced (.ofBudget k) .eval .evaluating (.list (.special .define :: args)) w = .ok () start →
      s.ns = some ns → ns ≠ start.current →
      (Engine.ofBudget n).evaluate scope (.list (.special .define :: args)) w =
        .error (.error (.foreignDefinition (start.symbolText s) (start.nameText start.current)))
          start := by
  constructor
  · intro o v h
    obtain ⟨k, start, -, htraced, hdefine⟩ := evaluate_special_eq_ok h
    obtain ⟨s, value, u, id, hprepares, hns, rfl, hdefined⟩ :=
      define_lands (traced_named hw htraced) hdefine
    refine ⟨k, start, s, value, u, id, htraced, fun hlog => ?_, hprepares, rfl, hdefined, ?_⟩
    · rw [traced_off hlog] at htraced
      cases htraced
      rfl
    · intro hstart hu
      have hname : s.ns.getD w.current = u.current := by
        cases hsome : s.ns with
        | none => exact hu.symm
        | some ns => exact (hns ns hsome).trans (hstart.trans hu.symm)
      rw [hname]
      exact hdefined
  · rintro k start s ns rest rfl hk rfl hrest htraced hns hforeign
    have hlength : (Value.symbol s :: rest).length < k := by
      rw [List.length_cons]
      omega
    rw [evaluate_special_run hlength htraced]
    exact define_foreign _ hns hforeign hrest

/-- `(def core/*1 1)`. -/
theorem definitions_land_core :
    ∃ o v, (Engine.ofBudget 5).evaluate none (.list [.special .define,
        .symbol (.qualified Names.core Names.result1), .int 1]) (World.blank {}) = .ok o v ∧
      ∃ value u id, o = .value (.var id) ∧ Defined u v u.current Names.result1 id value := by
  have hrun : (Engine.ofBudget 5).evaluate none (.list (.special .define ::
      [.symbol (.qualified Names.core Names.result1), .int 1])) (World.blank {}) = .ok _ _ := rfl
  refine ⟨_, _, hrun, ?_⟩
  obtain ⟨k, start, s, value, u, id, -, -, hprepares, ho, hdefined, -⟩ :=
    (definitions_land 5 none _ _ (World.blank_named {})).1 _ _ hrun
  cases hprepares
  exact ⟨_, u, id, ho, hdefined⟩

/-- The name of the var that a form evaluates to. -/
def varNamed (form : Value) (w : World) : Option Symbol :=
  match (Engine.ofBudget 9).evaluate none form w with
  | .ok (.value (.var id)) v => some (v.varName id)
  | _ => none

/-- In an interpreter without the library, whose current namespace is `user`,
`(def user/*1 (ns-set 'core))` binds `core/*1`. -/
theorem definitions_land_elsewhere :
    ¬ ∀ n scope s init w id v, Interpreter.Reached w →
      (Engine.ofBudget n).evaluate scope (.list [.special .define, .symbol s, init]) w =
        .ok (.value (.var id)) v →
      v.varName id = .qualified (s.ns.getD w.current) s.name := by
  intro h
  have hname : (Interpreter.start (.ofBudget 1) { library := false }).toOption.bind
      (varNamed (.list [.special .define, .symbol (.qualified Names.user Names.result1),
        .list [.builtin .nsSet, .list [.special .quote, .symbol (.plain Names.core)]]])) =
      some (.qualified Names.core Names.result1) := by
    decide +kernel
  cases hstart : Interpreter.start (.ofBudget 1) { library := false } with
  | error f =>
    rw [hstart] at hname
    cases hname
  | ok w =>
    rw [hstart, Except.toOption, Option.bind_some, varNamed] at hname
    split at hname
    · rename_i id v hrun
      have hlands := h 9 none _ _ w id v (.start hstart) hrun
      rw [hlands] at hname
      have hns : Names.user = Names.core := by simpa [Symbol.qualified] using hname
      exact absurd hns (by decide)
    · cases hname

end LazyLisp
