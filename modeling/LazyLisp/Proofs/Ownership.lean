import LazyLisp.Proofs.Definitions

/-!
Who owns a var, over any sequence of operations on a table of namespaces. A namespace is stored
under its own name, and this is the name that it gives to the vars it makes. Vars are never given
up: a namespace that is removed, or made again, leaves its old vars to those that refer to them, and
its new vars are others.
-/

namespace LazyLisp
set_option autoImplicit false

namespace Table
variable {α : Type} {t : Table α} {key : NameId} {a : α} {e : NameId × α}

theorem mem_of_get? (h : t.get? key = some a) : (key, a) ∈ t := by
  induction t with
  | nil => cases h
  | cons first rest ih =>
    rw [get?_cons] at h
    split at h
    · rename_i hkey
      subst hkey
      cases h
      exact List.mem_cons_self
    · exact List.mem_cons_of_mem _ (ih h)

theorem mem_put (h : e ∈ t.put key a) : e = (key, a) ∨ e ∈ t := by
  induction t with
  | nil => exact .inl (List.mem_singleton.1 h)
  | cons first rest ih =>
    rw [put] at h
    split at h
    · rename_i hkey
      subst hkey
      rcases List.mem_cons.1 h with rfl | h
      · exact .inl rfl
      · exact .inr (List.mem_cons_of_mem _ h)
    · rcases List.mem_cons.1 h with rfl | h
      · exact .inr List.mem_cons_self
      · exact (ih h).imp_right (List.mem_cons_of_mem _)

theorem mem_remove (h : e ∈ t.remove key) : e ∈ t := by
  induction t with
  | nil => exact h
  | cons first rest ih =>
    rw [remove] at h
    split at h
    · exact List.mem_cons_of_mem _ (ih h)
    · rcases List.mem_cons.1 h with rfl | h
      · exact List.mem_cons_self
      · exact List.mem_cons_of_mem _ (ih h)

theorem mem_foldl_put {more : Table α} (h : e ∈ more.foldl (fun t f => t.put f.1 f.2) t) :
    e ∈ more ∨ e ∈ t := by
  induction more generalizing t with
  | nil => exact .inr h
  | cons first more ih =>
    rcases ih h with h | h
    · exact .inl (List.mem_cons_of_mem _ h)
    · rcases mem_put h with rfl | h
      · exact .inl List.mem_cons_self
      · exact .inr h

end Table

namespace Namespaces

/-- What can be done to a table; a var is set by whoever holds it. -/
inductive Operation
  | create (ns : NameId)
  | intern (ns name : NameId)
  | set (id : VarId) (value : Value)
  | unmap (ns name : NameId)
  | remove (ns : NameId)
  | refer (target source : NameId)

/-- An operation that fails leaves the table as it is. -/
def perform (s : Namespaces) : Operation → Namespaces
  | .create ns => s.create ns
  | .intern ns name => ((s.intern? ns name).map (·.2)).getD s
  | .set id value => s.setVar id value
  | .unmap ns name => ((s.unmap? ns name).map (·.2)).getD s
  | .remove ns => s.remove ns
  | .refer target source => (s.refer target source).2

def performAll (s : Namespaces) (ops : List Operation) : Namespaces := ops.foldl perform s

/-- The full name of a var. -/
def nameOf? (s : Namespaces) (id : VarId) : Option Symbol := (s.var? id).map (·.name)

/-- The value that a namespace sees under a name. -/
def seen? (s : Namespaces) (ns name : NameId) : Option Value :=
  (s.lookup? ns name).bind fun id => (s.var? id).bind (·.value)

section
variable {s t : Namespaces} {ns k name m target source : NameId} {id : VarId}

theorem refer_eq_ok {count : Nat} (h : s.refer target source = (.ok count, t)) :
    ∃ giver taker refers, s.get? source = some giver ∧ s.get? target = some taker ∧
      refers = giver.own.foldl (fun t e => t.put e.1 e.2) taker.refers ∧
      t = { s with table := s.table.put target { taker with refers := refers } } := by
  unfold refer at h
  split at h
  · cases h
  · cases h
  · rename_i giver taker hgiver htaker
    split at h
    · cases h
    · cases h
      exact ⟨giver, taker, _, hgiver, htaker, rfl, rfl⟩

/-- What an operation comes to: nothing at all, or what it is for. -/
inductive Performs (s : Namespaces) : Operation → Namespaces → Prop
  | failed (op : Operation) : Performs s op s
  | create (ns : NameId) : Performs s (.create ns) (s.create ns)
  | intern {ns name : NameId} {id : VarId} {t : Namespaces} :
    s.intern? ns name = some (id, t) → Performs s (.intern ns name) t
  | set (id : VarId) (value : Value) : Performs s (.set id value) (s.setVar id value)
  | unmap {ns name : NameId} {found : Bool} {t : Namespaces} :
    s.unmap? ns name = some (found, t) → Performs s (.unmap ns name) t
  | remove (ns : NameId) : Performs s (.remove ns) (s.remove ns)
  | refer {target source : NameId} {count : Nat} {t : Namespaces} :
    s.refer target source = (.ok count, t) → Performs s (.refer target source) t

theorem performs (s : Namespaces) (op : Operation) : Performs s op (s.perform op) := by
  cases op with
  | create ns => exact .create ns
  | intern ns name =>
    cases h : s.intern? ns name with
    | none =>
      rw [perform, h]
      exact .failed _
    | some p =>
      rw [perform, h]
      exact .intern h
  | set id value => exact .set id value
  | unmap ns name =>
    cases h : s.unmap? ns name with
    | none =>
      rw [perform, h]
      exact .failed _
    | some p =>
      rw [perform, h]
      exact .unmap h
  | remove ns => exact .remove ns
  | refer target source =>
    rcases h : s.refer target source with ⟨(e | count), t⟩
    · obtain rfl := refer_failed h
      rw [perform, h]
      exact .failed _
    · rw [perform, h]
      exact .refer h

/-! Vars are never given up, keep their names, and change only when they are set. -/

theorem vars_create (s : Namespaces) (ns : NameId) : (s.create ns).vars = s.vars := by
  unfold create
  split <;> rfl

namespace Performs
variable {op : Operation}

theorem vars (h : Performs s op t) :
    t.vars = s.vars ∨ (∃ x, t.vars = s.vars.push x) ∨
      ∃ id value, op = .set id value ∧ t = s.setVar id value := by
  cases h with
  | failed | remove => exact .inl rfl
  | create ns => exact .inl (vars_create s ns)
  | intern h =>
    obtain ⟨n, -, ⟨-, rfl⟩ | ⟨-, -, rfl⟩⟩ := intern?_cases h
    · exact .inl rfl
    · exact .inr (.inl ⟨_, rfl⟩)
  | set id value => exact .inr (.inr ⟨id, value, rfl, rfl⟩)
  | unmap h =>
    obtain ⟨n, -, rfl⟩ := unmap?_cases h
    exact .inl rfl
  | refer h =>
    obtain ⟨giver, taker, refers, -, -, -, rfl⟩ := refer_eq_ok h
    exact .inl rfl

theorem size_le (h : Performs s op t) : s.vars.size ≤ t.vars.size := by
  rcases h.vars with h | ⟨x, h⟩ | ⟨id, value, -, rfl⟩
  · rw [h]
  · rw [h, Array.size_push]
    exact Nat.le_succ _
  · exact Nat.le_of_eq Array.size_modify.symm

theorem var? (h : Performs s op t) (hid : id < s.vars.size) (hop : ∀ v, op ≠ .set id v) :
    t.var? id = s.var? id := by
  rcases h.vars with h | ⟨x, h⟩ | ⟨id', value, rfl, rfl⟩
  · rw [Namespaces.var?, h, Namespaces.var?]
  · rw [Namespaces.var?, h, Array.getElem?_push_lt hid, Namespaces.var?,
      Array.getElem?_eq_getElem hid]
  · have hne : id' ≠ id := by
      rintro rfl
      exact hop value rfl
    rw [var?_setVar, if_neg hne]

theorem nameOf? {x : Symbol} (h : Performs s op t) (hx : s.nameOf? id = some x) :
    t.nameOf? id = some x := by
  obtain ⟨v, hv, rfl⟩ := Option.map_eq_some_iff.1 hx
  by_cases hop : ∃ value, op = .set id value
  · obtain ⟨value, rfl⟩ := hop
    cases h with
    | failed => exact hx
    | set => rw [Namespaces.nameOf?, var?_setVar, if_pos rfl, hv]; rfl
  · have hid : id < s.vars.size := (Array.getElem?_eq_some_iff.1 hv).1
    rw [Namespaces.nameOf?, h.var? hid fun value hvalue => hop ⟨value, hvalue⟩]
    exact hx

end Performs
end

/-! Names: what a namespace maps carries the name that it is mapped under. -/

/-- The namespace has the name, its own vars have that and their own name, and referred ones that of
some owner. -/
structure Fits (s : Namespaces) (ns : NameId) (n : Namespace) : Prop where
  stored : n.name = ns
  own : ∀ name id, (name, id) ∈ n.own → s.nameOf? id = some (.qualified ns name)
  refers : ∀ name id, (name, id) ∈ n.refers → ∃ owner, s.nameOf? id = some (.qualified owner name)

def Sound (s : Namespaces) : Prop := ∀ e ∈ s.table, s.Fits e.1 e.2

section
variable {s t : Namespaces} {op : Operation} {ns : NameId} {n : Namespace}

theorem Fits.mono (h : s.Fits ns n) (hst : ∀ id x, s.nameOf? id = some x → t.nameOf? id = some x) :
    t.Fits ns n where
  stored := h.stored
  own := fun name id hid => hst id _ (h.own name id hid)
  refers := fun name id hid => by
    obtain ⟨owner, howner⟩ := h.refers name id hid
    exact ⟨owner, hst id _ howner⟩

theorem Fits.empty (s : Namespaces) (ns : NameId) : s.Fits ns { name := ns } := ⟨rfl, nofun, nofun⟩

theorem Sound.get? (h : s.Sound) (hn : s.get? ns = some n) : s.Fits ns n :=
  h (ns, n) (Table.mem_of_get? hn)

theorem Sound.put (h : s.Sound) (hst : ∀ id x, s.nameOf? id = some x → t.nameOf? id = some x)
    (htable : t.table = s.table.put ns n) (hn : t.Fits ns n) : t.Sound := by
  intro e he
  rw [htable] at he
  rcases Table.mem_put he with rfl | he
  · exact hn
  · exact (h e he).mono hst

theorem Performs.sound (h : Performs s op t) (hs : s.Sound) : t.Sound := by
  have hnames : ∀ id x, s.nameOf? id = some x → t.nameOf? id = some x := fun id x => h.nameOf?
  cases h with
  | failed => exact hs
  | create ns =>
    unfold Namespaces.create at hnames ⊢
    split
    · exact hs
    · rename_i hnew
      rw [if_neg hnew] at hnames
      exact hs.put hnames rfl (.empty _ ns)
  | @intern ns name id t h =>
    obtain ⟨n, hn, ⟨-, rfl⟩ | ⟨-, rfl, rfl⟩⟩ := intern?_cases h
    · exact hs
    · have hfits := (hs.get? hn).mono hnames
      refine hs.put hnames rfl ⟨hfits.stored, fun name' id' hid => ?_, hfits.refers⟩
      rcases Table.mem_put hid with heq | hid
      · cases heq
        rw [← hfits.stored]
        exact congrArg (Option.map _) Array.getElem?_push_size
      · exact hfits.own name' id' hid
  | set id value => exact fun e he => (hs e he).mono hnames
  | unmap h =>
    obtain ⟨n, hn, rfl⟩ := unmap?_cases h
    have hfits := (hs.get? hn).mono hnames
    refine hs.put hnames rfl ⟨hfits.stored, fun name id hid => ?_, fun name id hid => ?_⟩
    · exact hfits.own name id (Table.mem_remove hid)
    · exact hfits.refers name id (Table.mem_remove hid)
  | remove ns => exact fun e he => (hs e (Table.mem_remove he)).mono hnames
  | refer h =>
    obtain ⟨giver, taker, refers, hgiver, htaker, rfl, rfl⟩ := refer_eq_ok h
    have hfits := (hs.get? htaker).mono hnames
    refine hs.put hnames rfl ⟨hfits.stored, hfits.own, fun name id hid => ?_⟩
    rcases Table.mem_foldl_put hid with hid | hid
    · exact ⟨_, (hs.get? hgiver).own name id hid⟩
    · exact hfits.refers name id hid

theorem performAll_sound (hs : s.Sound) (ops : List Operation) : (s.performAll ops).Sound := by
  induction ops generalizing s with
  | nil => exact hs
  | cons op ops ih => exact ih ((performs s op).sound hs)

end

/-! Identity: a mapping stays until its name is unmapped or its namespace removed, and then the var
never comes back under that name. -/

section
variable {s t : Namespaces} {op : Operation} {ns name k m : NameId} {id : VarId}

theorem own?_remove_eq (s : Namespaces) (ns k m : NameId) :
    (s.remove ns).own? k m = if k = ns then none else s.own? k m := by
  rw [own?, get?_remove]
  split
  · rfl
  · rfl

theorem own?_unmap_eq {found : Bool} (h : s.unmap? ns name = some (found, t)) (k m : NameId) :
    t.own? k m = if k = ns ∧ m = name then none else s.own? k m := by
  obtain ⟨n, hn, rfl⟩ := unmap?_cases h
  rw [own?_put]
  by_cases hk : k = ns
  · subst hk
    rw [if_pos rfl, Table.get?_remove, own?, hn]
    by_cases hm : m = name
    · rw [if_pos hm, if_pos ⟨rfl, hm⟩]
    · rw [if_neg hm, if_neg fun hboth => hm hboth.2]
      rfl
  · rw [if_neg hk, if_neg fun hboth => hk hboth.1]

theorem intern?_of_own? (h : s.own? ns name = some id) : s.intern? ns name = some (id, s) := by
  obtain ⟨n, hn, hown⟩ := Option.bind_eq_some_iff.1 h
  rw [intern?, hn, Option.map_some, hown]

theorem own?_of_intern? (h : s.intern? ns name = some (id, t)) : t.own? ns name = some id := by
  rw [own?_intern h, if_pos ⟨rfl, rfl⟩]

/-- The operation takes the name out of the namespace. -/
def Operation.Drops (ns name : NameId) (op : Operation) : Prop :=
  op = .unmap ns name ∨ op = .remove ns

theorem Performs.own? (h : Performs s op t) (hid : s.own? ns name = some id)
    (hop : ¬ op.Drops ns name) : t.own? ns name = some id := by
  cases h with
  | failed | set => exact hid
  | create k => exact (own?_create s k ns name).trans hid
  | @intern k m id' _ h =>
    rw [own?_intern h]
    split
    · rename_i hboth
      obtain ⟨rfl, rfl⟩ := hboth
      rw [intern?_of_own? hid] at h
      cases h
      rfl
    · exact hid
  | @unmap k m _ _ h =>
    rw [own?_unmap_eq h, if_neg]
    · exact hid
    · rintro ⟨rfl, rfl⟩
      exact hop (.inl rfl)
  | remove k =>
    rw [own?_remove_eq, if_neg]
    · exact hid
    · rintro rfl
      exact hop (.inr rfl)
  | refer h => exact (own?_refer h ns name).trans hid

theorem own?_performAll {ops : List Operation} (hid : s.own? ns name = some id)
    (hops : ∀ op ∈ ops, ¬ op.Drops ns name) : (s.performAll ops).own? ns name = some id := by
  induction ops generalizing s with
  | nil => exact hid
  | cons op ops ih =>
    obtain ⟨hop, hops⟩ := List.forall_mem_cons.1 hops
    exact ih ((performs s op).own? hid hop) hops

/-- The var was made, but the namespace does not own it under the name. -/
structure Retired (s : Namespaces) (ns name : NameId) (id : VarId) : Prop where
  made : id < s.vars.size
  ne : s.own? ns name ≠ some id

theorem Performs.retired (h : Performs s op t) (hid : s.Retired ns name id) :
    t.Retired ns name id := by
  refine ⟨Nat.lt_of_lt_of_le hid.made h.size_le, fun howned => ?_⟩
  cases h with
  | failed | set => exact hid.ne howned
  | create k => exact hid.ne ((own?_create s k ns name).symm.trans howned)
  | @intern k m id' _ h =>
    rw [own?_intern h] at howned
    split at howned
    · rename_i hboth
      obtain ⟨rfl, rfl⟩ := hboth
      cases howned
      obtain ⟨n, hn, ⟨hown, -⟩ | ⟨-, rfl, -⟩⟩ := intern?_cases h
      · refine hid.ne ?_
        rw [Namespaces.own?, hn]
        exact hown
      · exact Nat.lt_irrefl _ hid.made
    · exact hid.ne howned
  | unmap h => exact hid.ne (own?_unmap h howned)
  | remove k => exact hid.ne (own?_remove howned)
  | refer h => exact hid.ne ((own?_refer h ns name).symm.trans howned)

theorem retired_of_drops (hop : op.Drops ns name) (hid : id < s.vars.size) :
    (s.perform op).Retired ns name id := by
  refine ⟨Nat.lt_of_lt_of_le hid (performs s op).size_le, fun howned => ?_⟩
  rcases hop with rfl | rfl
  · cases h : s.unmap? ns name with
    | none =>
      have hnone : s.get? ns = none := Option.map_eq_none_iff.1 h
      rw [perform, h, own?] at howned
      change (s.get? ns).bind _ = _ at howned
      rw [hnone] at howned
      cases howned
    | some p =>
      rw [perform, h] at howned
      change p.2.own? ns name = _ at howned
      rw [own?_unmap_eq h, if_pos ⟨rfl, rfl⟩] at howned
      cases howned
  · have hnone := own?_remove_eq s ns ns name
    rw [if_pos rfl] at hnone
    rw [perform, hnone] at howned
    cases howned

theorem performAll_retired {ops : List Operation} (hid : s.Retired ns name id) :
    (s.performAll ops).Retired ns name id := by
  induction ops generalizing s with
  | nil => exact hid
  | cons op ops ih => exact ih ((performs s op).retired hid)

theorem retired_performAll {ops : List Operation} (hid : id < s.vars.size)
    (hops : ∃ op ∈ ops, op.Drops ns name) : (s.performAll ops).Retired ns name id := by
  induction ops generalizing s with
  | nil =>
    obtain ⟨op, hop, -⟩ := hops
    cases hop
  | cons op ops ih =>
    obtain ⟨op', hmem, hdrops⟩ := hops
    rcases List.mem_cons.1 hmem with rfl | hmem
    · have hretired : (s.perform op').Retired ns name id := retired_of_drops hdrops hid
      change ((s.perform op').performAll ops).Retired ns name id
      exact performAll_retired hretired
    · exact ih (Nat.lt_of_lt_of_le hid (performs s op).size_le) ⟨op', hmem, hdrops⟩

theorem exists_intern? {n : Namespace} (hn : s.get? ns = some n) (name : NameId) :
    ∃ id t, s.intern? ns name = some (id, t) := by
  rw [intern?, hn]
  exact ⟨_, _, rfl⟩

theorem Sound.intern? (hs : s.Sound) (h : s.intern? ns name = some (id, t)) :
    t.nameOf? id = some (.qualified ns name) := by
  have ht : t.Sound := (Performs.intern h).sound hs
  obtain ⟨n, hn, hown⟩ := Option.bind_eq_some_iff.1 (own?_of_intern? h)
  exact (ht.get? hn).own name id (Table.mem_of_get? hown)

theorem intern?_ne_of_retired {u : Namespaces} {id' : VarId} (hid : s.Retired ns name id)
    (h : s.intern? ns name = some (id', u)) : id' ≠ id := by
  rintro rfl
  obtain ⟨n, hn, ⟨hown, -⟩ | ⟨-, rfl, -⟩⟩ := intern?_cases h
  · apply hid.ne
    rw [own?, hn]
    exact hown
  · exact Nat.lt_irrefl _ hid.made

theorem var?_performAll {ops : List Operation} (hid : id < s.vars.size)
    (hops : ∀ v, Operation.set id v ∉ ops) : (s.performAll ops).var? id = s.var? id := by
  induction ops generalizing s with
  | nil => rfl
  | cons op ops ih =>
    have hstep : (s.perform op).var? id = s.var? id := by
      refine (performs s op).var? hid fun v hv => hops v ?_
      rw [hv]
      exact List.mem_cons_self
    have hlt : id < (s.perform op).vars.size := Nat.lt_of_lt_of_le hid (performs s op).size_le
    exact (ih hlt fun v hv => hops v (List.mem_cons_of_mem _ hv)).trans hstep

/-- A var that is set has the value, whoever maps to it, until it is set again. -/
theorem seen?_performAll_set {ops : List Operation} {x : Var} {value : Value}
    (hx : s.var? id = some x) (hops : ∀ v, Operation.set id v ∉ ops)
    (hlookup : ((s.setVar id value).performAll ops).lookup? ns name = some id) :
    ((s.setVar id value).performAll ops).seen? ns name = some value := by
  have hset : (s.setVar id value).var? id = some { x with value := some value } := by
    rw [var?_setVar, if_pos rfl, hx]
    rfl
  have hlt : id < (s.setVar id value).vars.size := (Array.getElem?_eq_some_iff.1 hset).1
  rw [seen?, hlookup, Option.bind_some, var?_performAll hlt hops, hset]
  rfl

end

/-- Behind any sequence of operations on an empty table, every namespace is stored under its own
name and gives it to the vars it makes, what it owns has its name and the mapped one, what it refers
to has the mapped name, and its own vars come first. Interning a name again gives the same var as
long as the name is not taken out of the namespace, and another var from then on. Setting a var
changes no mapping and no other var, and the value shows through everything that maps to it. -/
theorem vars_keep_owner_and_identity (ops : List Operation) :
    let s := ({} : Namespaces).performAll ops
    (∀ ns n, s.get? ns = some n → n.name = ns ∧
      (∀ name, ∃ id t, s.intern? ns name = some (id, t) ∧
        t.nameOf? id = some (.qualified ns name)) ∧
      (∀ name id, n.own.get? name = some id → s.nameOf? id = some (.qualified ns name)) ∧
      (∀ name id, n.refers.get? name = some id →
        ∃ owner, s.nameOf? id = some (.qualified owner name)) ∧
      ∀ name, s.lookup? ns name = (n.own.get? name).or (n.refers.get? name)) ∧
    (∀ ns name id t, s.intern? ns name = some (id, t) → ∀ later,
      ((∀ op ∈ later, ¬ op.Drops ns name) →
        (t.performAll later).intern? ns name = some (id, t.performAll later)) ∧
      ((∃ op ∈ later, op.Drops ns name) →
        ∀ id' u, (t.performAll later).intern? ns name = some (id', u) → id' ≠ id)) ∧
    ∀ id x value, s.var? id = some x →
      let u := s.perform (.set id value)
      (∀ ns name, u.lookup? ns name = s.lookup? ns name) ∧
      (∀ id', id' ≠ id → u.var? id' = s.var? id') ∧
      ∀ later ns name, (∀ v, Operation.set id v ∉ later) →
        (u.performAll later).lookup? ns name = some id →
        (u.performAll later).seen? ns name = some value := by
  intro s
  have hs : s.Sound := performAll_sound (fun _ he => absurd he List.not_mem_nil) ops
  refine ⟨fun ns n hn => ⟨(hs.get? hn).stored, fun name => ?_, ?_, ?_, fun name => ?_⟩,
    fun ns name id t h later => ⟨?_, ?_⟩,
    fun id x value hx => ⟨fun ns name => rfl, fun id' hid => ?_, fun later ns name => ?_⟩⟩
  · obtain ⟨id, t, h⟩ := exists_intern? hn name
    exact ⟨id, t, h, hs.intern? h⟩
  · exact fun name id hid => (hs.get? hn).own name id (Table.mem_of_get? hid)
  · exact fun name id hid => (hs.get? hn).refers name id (Table.mem_of_get? hid)
  · rw [lookup?, hn]
    rfl
  · intro hlater
    exact intern?_of_own? (own?_performAll (own?_of_intern? h) hlater)
  · intro hdrops id' u hagain
    have hname := hs.intern? h
    have hmade : id < t.vars.size := by
      obtain ⟨y, hy, -⟩ := Option.map_eq_some_iff.1 hname
      exact (Array.getElem?_eq_some_iff.1 hy).1
    exact intern?_ne_of_retired (retired_performAll hmade hdrops) hagain
  · exact (var?_setVar s id id' value).trans (if_neg hid.symm)
  · exact seen?_performAll_set hx

/-- A namespace is removed and made again while another one refers to its var: the old var keeps its
name and shows what it is set to, and the new one of that name is another. -/
theorem vars_keep_owner_and_identity_remade :
    let made := ({} : Namespaces).performAll [.create 0, .create 1, .intern 0 7]
    let s := made.performAll [.refer 1 0, .remove 0, .create 0]
    made.intern? 0 7 = some (0, made) ∧ (∃ u, s.intern? 0 7 = some (1, u)) ∧ (1 : VarId) ≠ 0 ∧
      (∃ owner, s.nameOf? 0 = some (.qualified owner 7)) ∧
      ((s.perform (.set 0 (.bool true))).performAll [.intern 0 7]).seen? 1 7 =
        some (.bool true) := by
  intro made s
  have hmade : made.intern? 0 7 = some (0, made) := rfl
  have hagain : s.intern? 0 7 = some (1, s.perform (.intern 0 7)) := rfl
  have hdrops : ∃ op ∈ [Operation.refer 1 0, .remove 0, .create 0], op.Drops 0 7 :=
    ⟨.remove 0, by simp, .inr rfl⟩
  have hkept := (vars_keep_owner_and_identity [.create 0, .create 1, .intern 0 7]).2.1 0 7 0 made
    hmade [.refer 1 0, .remove 0, .create 0]
  obtain ⟨hnames, -, hset⟩ := vars_keep_owner_and_identity
    ([.create 0, .create 1, .intern 0 7] ++ [.refer 1 0, .remove 0, .create 0])
  refine ⟨hmade, ⟨_, hagain⟩, hkept.2 hdrops _ _ hagain, (hnames 1 _ rfl).2.2.2.1 7 0 rfl, ?_⟩
  exact (hset 0 _ (.bool true) rfl).2.2 [.intern 0 7] 1 7 (by simp) rfl

end Namespaces
end LazyLisp
