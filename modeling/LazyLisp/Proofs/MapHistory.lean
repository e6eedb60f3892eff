import LazyLisp.Proofs.Editing

/-!
Maps in programs. A map is made by calls of the built-in functions on maps, each of which edits the
map of an earlier call. All ways to look up a key give what the last edit of an equal key left, and
the map counts the keys under which something was left.
-/

namespace LazyLisp
set_option autoImplicit false

/-! Calls that make maps. -/

/-- The entries in a list of alternating keys and values. -/
def pairUp : List Value → Option Entries
  | [] => some []
  | [_] => none
  | key :: value :: rest => (pairUp rest).map ((key, value) :: ·)

/-- The entries that an argument of `conj` adds. -/
def added : Value → Option Entries
  | .vector [key, value] => some [(key, value)]
  | .map entries => some entries
  | _ => none

/-- The map that a call starts from and what it edits there, if the call makes a map. -/
def editing (b : Builtin) (args : List Value) : Option (Entries × List Edit) :=
  if b.arity.accepts args.length then
    match b, args with
    | .hashMap, pairs => (pairUp pairs).map fun pairs => ([], pairs.map .put)
    | .assoc, .nil :: pairs => (pairUp pairs).map fun pairs => ([], pairs.map .put)
    | .assoc, .map entries :: pairs => (pairUp pairs).map fun pairs => (entries, pairs.map .put)
    | .dissoc, .map entries :: keys => some (entries, keys.map .remove)
    | .conj, .map entries :: items =>
      (items.mapM added).map fun rows => (entries, rows.flatten.map .put)
    | _, _ => none
  else none

section
variable (e : Engine)

theorem pairUp_isSome (args : List Value) : (pairUp args).isSome ↔ args.length % 2 = 0 := by
  fun_induction pairUp args with
  | case1 => exact ⟨fun _ => rfl, fun _ => rfl⟩
  | case2 => exact ⟨nofun, nofun⟩
  | case3 key value rest ih =>
    rw [Option.isSome_map, ih, List.length_cons, List.length_cons, Nat.add_assoc, Nat.add_mod_right]

theorem putPairs_eq {args : List Value} {pairs : Entries} (h : pairUp args = some pairs)
    (entries : Entries) :
    Core.putPairs e entries args = (pairs.map Edit.put).foldlM (Edit.make e) entries := by
  fun_induction pairUp args generalizing pairs entries with
  | case1 =>
    cases h
    rfl
  | case2 => cases h
  | case3 key value rest ih =>
    obtain ⟨pairs, hpairs, rfl⟩ := Option.map_eq_some_iff.1 h
    exact bind_congr fun entries' => ih hpairs entries'

theorem conjEntry_eq {item : Value} {row : Entries} (h : added item = some row)
    (entries : Entries) :
    Core.conjEntry e entries item = (row.map Edit.put).foldlM (Edit.make e) entries := by
  unfold added at h
  split at h
  · cases h
    exact (bind_pure _).symm
  · cases h
    rw [List.foldlM_map]
    rfl
  · cases h

theorem conjEntry_refused {item : Value} (h : added item = none) (entries : Entries) :
    Core.conjEntry e entries item = fail (.invalidArgument "conj"
      ("map entries must be [key value] vectors, got " ++ item.typeName)) := by
  cases item with
  | vector items =>
    unfold added at h
    unfold Core.conjEntry
    split <;> simp_all
  | map entries => cases h
  | _ => rfl

theorem conjEntries_eq {items : List Value} {rows : List Entries}
    (h : items.mapM added = some rows) (entries : Entries) :
    items.foldlM (Core.conjEntry e) entries =
      (rows.flatten.map Edit.put).foldlM (Edit.make e) entries := by
  induction items generalizing rows entries with
  | nil =>
    cases h
    rfl
  | cons item items ih =>
    simp only [List.mapM_cons, Option.bind_eq_bind, Option.bind_eq_some_iff] at h
    obtain ⟨row, hrow, rows, hrows, h⟩ := h
    cases h
    rw [List.foldlM_cons, conjEntry_eq e hrow, List.flatten_cons, List.map_append,
      List.foldlM_append]
    exact bind_congr fun entries' => ih hrows entries'

theorem call_eq_makeAll (scope : Scope) {b : Builtin} {args : List Value} {start : Entries}
    {edits : List Edit} (h : editing b args = some (start, edits)) :
    Core.call e scope b args = do return .map (← edits.foldlM (Edit.make e) start) := by
  have hpaired : ∀ {pairs : List Value} {entries : Entries}, pairUp pairs = some entries →
      ¬ (pairs.length % 2 != 0) = true := by
    intro pairs entries hpairs
    have heven := (pairUp_isSome pairs).1 (hpairs ▸ rfl)
    rw [heven]
    decide
  unfold editing at h
  split at h
  case isFalse => cases h
  case isTrue haccepts =>
    rw [Core.call, if_pos haccepts]
    split at h
    · obtain ⟨entries, hpairs, hsame⟩ := Option.map_eq_some_iff.1 h
      cases hsame
      show Core.hashMap e args = _
      rw [Core.hashMap, if_neg (hpaired hpairs), putPairs_eq e hpairs]
    · rename_i pairs
      obtain ⟨entries, hpairs, hsame⟩ := Option.map_eq_some_iff.1 h
      cases hsame
      show Core.assoc e .nil pairs = _
      rw [Core.assoc, if_neg (hpaired hpairs), ← putPairs_eq e hpairs]
    · rename_i pairs
      obtain ⟨entries, hpairs, hsame⟩ := Option.map_eq_some_iff.1 h
      cases hsame
      show Core.assoc e (.map start) pairs = _
      rw [Core.assoc, if_neg (hpaired hpairs), ← putPairs_eq e hpairs]
    · cases h
      rw [List.foldlM_map]
      rfl
    · obtain ⟨rows, hrows, hsame⟩ := Option.map_eq_some_iff.1 h
      cases hsame
      rw [← conjEntries_eq e hrows]
      rfl
    · cases h

end

/-! Applying values. -/

theorem Evaluation.run_mono {n m : Nat} {request : Request} {w : World} (h : n ≤ m)
    (hended : Ended (run n request w)) : run m request w = run n request w :=
  ((Engine.ofBudget_tied h).call w request trivial).run_eq (Unrelated.intro : Unrelated w w) hended

/-- Within every large enough budget, applying the value ends like this. -/
def Applying (w : World) (callee : Value) (args : List Value)
    (r : EStateM.Result Stop World Outcome) : Prop :=
  ∀ scope, ∃ n, ∀ m, n ≤ m → Evaluation.run m (.apply scope callee args) w = r

/-- Applying the value gives this one back. -/
abbrev Returns (w : World) (callee : Value) (args : List Value) (x : Value) (v : World) : Prop :=
  Applying w callee args (.ok (.value x) v)

namespace Applying
variable {w : World} {callee : Value} {args : List Value} {r : EStateM.Result Stop World Outcome}

/-- One round of the evaluator is used up. -/
theorem of_succ (h : ∃ n, ∀ m, n ≤ m → ∀ scope,
    Evaluation.run (m + 1) (.apply scope callee args) w = r) : Applying w callee args r := by
  intro scope
  obtain ⟨n, hn⟩ := h
  refine ⟨n + 1, fun m hm => ?_⟩
  obtain ⟨m, rfl⟩ := Nat.exists_eq_add_of_le' (Nat.le_trans (Nat.succ_pos n) hm)
  exact hn m (by omega) scope

/-- What a run ended with is what all larger ones end with. -/
theorem unique {r' : EStateM.Result Stop World Outcome} {scope : Scope} {n : Nat}
    (h : Applying w callee args r) (hr' : Ended r')
    (hrun : Evaluation.run n (.apply scope callee args) w = r') : r = r' := by
  obtain ⟨n', hn'⟩ := h scope
  have hended : Ended (Evaluation.run n (.apply scope callee args) w) := hrun ▸ hr'
  rw [← hn' (max n n') (Nat.le_max_right n n'), ← hrun]
  exact Evaluation.run_mono (Nat.le_max_left n n') hended

end Applying

open Value

section
variable {R : World → World → Prop}

/-- Maps that calls made, one after the other, with the edits that were made. Only keys that are
finite were put or removed. -/
inductive Made (R : World → World → Prop) : World → Entries → List Edit → Prop
  | empty (w : World) : Made R w [] []
  | call {w v : World} {scope : Scope} {b : Builtin} {args : List Value} {start entries : Entries}
      {edits more : List Edit} {n : Nat} (h : Made R w start edits)
      (hedit : editing b args = some (start, more)) (hkeys : ∀ edit ∈ more, Finite R w edit.key)
      (hrun : Evaluation.run n (.apply scope (.builtin b) args) w = .ok (.value (.map entries)) v) :
      Made R v entries (edits ++ more)
  | later {w v : World} {entries : Entries} {edits : List Edit} (h : Made R w entries edits)
      (hwv : R w v) : Made R v entries edits

variable (hR : Course R) {w : World} {entries : Entries} {edits : List Edit}
include hR

/-- A call with finite keys makes a map. -/
theorem Tabulates.call (h : Tabulates R w entries edits) {b : Builtin} {args : List Value}
    {more : List Edit} (hedit : editing b args = some (entries, more))
    (hkeys : ∀ edit ∈ more, Finite R w edit.key) :
    ∃ entries' v, R w v ∧ Returns w (.builtin b) args (.map entries') v ∧
      Tabulates R v entries' (edits ++ more) := by
  obtain ⟨entries', v, ⟨n, hn⟩, hwv, hright⟩ := h.concludes_makeAll hR hkeys
  refine ⟨entries', v, hwv, .of_succ ⟨n, fun m hm scope => ?_⟩, hright v (hR.refl v)⟩
  refine run_bind_ok (m := Core.call (.ofBudget m) scope b args) (a := .map entries') ?_ _
  rw [call_eq_makeAll (.ofBudget m) scope hedit]
  exact run_bind_ok (hn m m hm hm) _

theorem Made.tabulates (h : Made R w entries edits) : Tabulates R w entries edits := by
  induction h with
  | empty w => exact .nil w
  | @call w v scope b args start entries edits more n h hedit hkeys hrun ih =>
    obtain ⟨entries', v', hwv, hreturns, hmade⟩ := ih.call hR hedit hkeys
    cases hreturns.unique (.ok _ v) hrun
    exact hmade
  | later h hwv ih => exact ih.along hR hwv

/-- Looking a finite key up gives what its last edit left. -/
theorem Tabulates.concludes_get (h : Tabulates R w entries edits) {key : Value}
    (hkey : Finite R w key) :
    Concludes R w (fun m _ => entries.get? (.ofBudget m) key) fun u o =>
      Settled R u key ∧ o = LazyLisp.latest (Same u · key) edits := by
  have hget : ∀ m, entries.get? (.ofBudget m) key = do
      let p ← (do key.settle (.ofBudget m); entries.split (.ofBudget m) key)
      return p.2.head?.map (·.2) := by
    intro m
    rw [bind_assoc]
    exact bind_congr fun _ => Entries.lookup_eq_split _ key entries
  simp only [hget]
  refine (h.concludes_find hR hkey).map fun u p hright => ?_
  obtain ⟨hwu, hsettled, hsplits⟩ := hright
  have hsame : LazyLisp.latest (Same u · key) edits = LazyLisp.latest (DataAlike u · key) edits :=
    latest_congr fun edit hedit => ((h.edited edit hedit).along hR hwu).same_iff hR hsettled
  refine ⟨hsettled, Option.ext fun x => ?_⟩
  rw [hsame, h.latest u hwu key hsettled x, Option.map_eq_some_iff]
  refine exists_congr fun f => ?_
  rw [hsplits.head?_eq_some (h.distinct_along hR hwu), and_assoc]

omit hR in
/-- A refused call of `assoc` is refused before anything happens. -/
theorem assoc_refused {args : List Value} (h : editing .assoc (.map entries :: args) = none) :
    Applying w (.builtin .assoc) (.map entries :: args) (.error (.error
      (if 2 ≤ args.length then
        .invalidArgument "assoc" "expects key/value pairs after the collection"
      else .arity "assoc" (.atLeast 3) (args.length + 1))) w) := by
  refine .of_succ ⟨0, fun m _ scope => run_bind_error
    (m := Core.call (.ofBudget m) scope .assoc (.map entries :: args)) ?_ _⟩
  have haccepts : Builtin.assoc.arity.accepts (Value.map entries :: args).length =
      decide (2 ≤ args.length) := by
    rw [List.length_cons, Bool.eq_iff_iff, decide_eq_true_iff]
    exact decide_eq_true_iff.trans Nat.succ_le_succ_iff
  unfold editing at h
  rw [Core.call]
  rw [haccepts] at h ⊢
  by_cases hargs : 2 ≤ args.length
  · have hodd : (args.length % 2 != 0) = true := by
      rw [if_pos (decide_eq_true hargs)] at h
      rw [bne_iff_ne, Ne, ← pairUp_isSome, Option.map_eq_none_iff.1 h]
      exact nofun
    rw [if_pos (decide_eq_true hargs), if_pos hargs]
    show Core.assoc _ (.map entries) args w = _
    rw [Core.assoc, if_pos hodd]
    rfl
  · rw [if_neg (by simpa using hargs), if_neg hargs]
    rfl

/-- Behind an argument that is no entry, `conj` fails. -/
theorem Tabulates.conj_refused (h : Tabulates R w entries edits) {front back : List Value}
    {rows : List Entries} {bad : Value} (hrows : front.mapM added = some rows)
    (hkeys : ∀ row ∈ rows, ∀ f ∈ row, Finite R w f.1) (hbad : added bad = none) :
    ∃ v, R w v ∧ Applying w (.builtin .conj) (.map entries :: (front ++ bad :: back)) (.error (.error
      (.invalidArgument "conj"
        ("map entries must be [key value] vectors, got " ++ bad.typeName))) v) := by
  have hmore : ∀ edit ∈ rows.flatten.map Edit.put, Finite R w edit.key := by
    refine List.forall_mem_map.2 fun f hf => ?_
    obtain ⟨row, hrow, hf⟩ := List.mem_flatten.1 hf
    exact hkeys row hrow f hf
  obtain ⟨entries', v, ⟨n, hn⟩, hwv, -⟩ := h.concludes_makeAll hR hmore
  refine ⟨v, hwv, .of_succ ⟨n, fun m hm scope => run_bind_error
    (m := Core.call (.ofBudget m) scope .conj (.map entries :: (front ++ bad :: back))) ?_ _⟩⟩
  have haccepts : Builtin.conj.arity.accepts (Value.map entries :: (front ++ bad :: back)).length =
      true :=
    decide_eq_true (Nat.succ_pos (front ++ bad :: back).length)
  rw [Core.call, if_pos haccepts]
  refine run_bind_error (m := (front ++ bad :: back).foldlM (Core.conjEntry _) entries) ?_ _
  rw [List.foldlM_append, conjEntries_eq _ hrows, run_bind_ok (hn m m hm hm), List.foldlM_cons,
    conjEntry_refused _ hbad]
  rfl

end

/-! The laws of maps. -/

/-- Every way to look the key up gives this answer: the built-in functions, the map as a function,
and the key as a function if it is a name. -/
structure LooksUp (w : World) (entries : Entries) (key : Value) (found : Option Value) (v : World) :
    Prop where
  get : Returns w (.builtin .get) [.map entries, key] (found.getD .nil) v
  getOr : ∀ fallback, Returns w (.builtin .get) [.map entries, key, fallback] (found.getD fallback) v
  contains : Returns w (.builtin .contains) [.map entries, key] (.bool found.isSome) v
  apply : Returns w (.map entries) [key] (found.getD .nil) v
  applyOr : ∀ fallback, Returns w (.map entries) [key, fallback] (found.getD fallback) v
  ask : ∀ s, key = .keyword s ∨ key = .symbol s → Returns w key [.map entries] (found.getD .nil) v
  askOr : ∀ s, key = .keyword s ∨ key = .symbol s →
    ∀ fallback, Returns w key [.map entries, fallback] (found.getD fallback) v

/-- What holds of a map, given the edits that made it. -/
structure Keyed (R : World → World → Prop) (w : World) (entries : Entries) (edits : List Edit) :
    Prop where
  /-- All lookups of a finite key agree, and tell what the last edit of an equal key left. -/
  lookup : ∀ key, Finite R w key → ∃ v, R w v ∧ Settled R v key ∧
    LooksUp w entries key (latest (Same v · key) edits) v
  /-- The key is compared with the edited ones without failure. -/
  compared : ∀ v, R w v → ∀ key, Settled R v key → ∀ edit ∈ edits,
    ∃ r u, Compares v edit.key key (.ok r u)
  /-- What is left under a key stays there. -/
  steady : ∀ v, R w v → ∀ key, Settled R v key → ∀ u, R v u →
    latest (Same u · key) edits = latest (Same v · key) edits
  /-- Equal keys are one key. -/
  congr : ∀ v, R w v → ∀ a b, Settled R v a → Settled R v b → Same v a b →
    latest (Same v · a) edits = latest (Same v · b) edits
  /-- Lists and vectors with equal elements are equal. -/
  sequential : ∀ v, R w v → ∀ a b xs ys, Settled R v a → Settled R v b → Elements v a xs →
    Elements v b ys → (Same v a b ↔ List.Forall₂ (Same v) xs ys)
  /-- No two of the keys are equal, and they are the keys under which something was left. -/
  distinct : ∀ v, R w v → entries.Pairwise fun f g => ¬ Same v f.1 g.1
  present : ∀ v, R w v → ∀ key, Settled R v key → ∀ x,
    latest (Same v · key) edits = some x ↔ ∃ f ∈ entries, Same v f.1 key ∧ f.2 = x
  count : Returns w (.builtin .count) [.map entries] (.int (Int64.ofNat entries.length)) w
  /-- Further edits of finite keys make a further map. -/
  edit : ∀ b args more, editing b args = some (entries, more) →
    (∀ edit ∈ more, Finite R w edit.key) →
    ∃ entries' v, R w v ∧ Returns w (.builtin b) args (.map entries') v ∧
      Made R v entries' (edits ++ more)
  /-- What `assoc` and `conj` refuse is an error, and the map is the same behind it. -/
  refuseAssoc : ∀ args, editing .assoc (.map entries :: args) = none →
    ∃ err, Applying w (.builtin .assoc) (.map entries :: args) (.error (.error err) w)
  refuseConj : ∀ front bad back rows, front.mapM added = some rows →
    (∀ row ∈ rows, ∀ f ∈ row, Finite R w f.1) → added bad = none →
    ∃ err v, R w v ∧
      Applying w (.builtin .conj) (.map entries :: (front ++ bad :: back)) (.error (.error err) v) ∧
      Made R v entries edits

/-- All lookups take the same way. -/
theorem LooksUp.of_get? {w v : World} {entries : Entries} {key : Value} {found : Option Value}
    (h : ∃ n, ∀ m, n ≤ m → entries.get? (.ofBudget m) key w = .ok found v) :
    LooksUp w entries key found v := by
  obtain ⟨n, hn⟩ := h
  have hcalled : ∀ (f : Option Value → Value) m, n ≤ m →
      (do return Outcome.value (← (do return f (← entries.get? (.ofBudget m) key))) : Eval _) w =
        .ok (.value (f found)) v := fun f m hm =>
    run_bind_ok (run_bind_ok (hn m hm) fun o => pure (f o)) _
  constructor
  · exact .of_succ ⟨n, fun m hm _ => hcalled (·.getD .nil) m hm⟩
  · exact fun fallback => .of_succ ⟨n, fun m hm _ => hcalled (·.getD fallback) m hm⟩
  · exact .of_succ ⟨n, fun m hm _ => hcalled (fun o => .bool o.isSome) m hm⟩
  · exact .of_succ ⟨n, fun m hm _ => run_bind_ok (hn m hm) _⟩
  · exact fun _ => .of_succ ⟨n, fun m hm _ => run_bind_ok (hn m hm) _⟩
  · rintro s (rfl | rfl) <;> exact .of_succ ⟨n, fun m hm _ => run_bind_ok (hn m hm) _⟩
  · rintro s (rfl | rfl) fallback <;> exact .of_succ ⟨n, fun m hm _ => run_bind_ok (hn m hm) _⟩

/-- A map keeps one entry for each of its keys, and all lookups agree with its edits. -/
theorem maps_keep_one_entry_per_key {R : World → World → Prop} (hR : Course R) {w : World}
    {entries : Entries} {edits : List Edit} (h : Made R w entries edits) :
    Keyed R w entries edits := by
  have htab := h.tabulates hR
  have hkeys : ∀ v, R w v → ∀ f ∈ entries, Settled R v f.1 := fun v hwv f hf =>
    (htab.keys f hf).along hR hwv
  have hedited : ∀ v, R w v → ∀ edit ∈ edits, Settled R v edit.key := fun v hwv edit hedit =>
    (htab.edited edit hedit).along hR hwv
  have hlatest : ∀ v, R w v → ∀ key, Settled R v key →
      latest (Same v · key) edits = latest (DataAlike v · key) edits := fun v hwv key hkey =>
    latest_congr fun edit hedit => (hedited v hwv edit hedit).same_iff hR hkey
  constructor
  · intro key hkey
    obtain ⟨found, v, ⟨n, hn⟩, hwv, hright⟩ := htab.concludes_get hR hkey
    obtain ⟨hsettled, rfl⟩ := hright v (hR.refl v)
    exact ⟨v, hwv, hsettled, .of_get? ⟨n, fun m hm => hn m m hm hm⟩⟩
  · intro v hwv key hkey edit hedit
    obtain ⟨r, u, hcompares, -⟩ := (hedited v hwv edit hedit).exists_compares hR hkey
    exact ⟨r, u, hcompares⟩
  · intro v hwv key hkey u hvu
    rw [hlatest v hwv key hkey, hlatest u (hR.trans hwv hvu) key (hkey.along hR hvu)]
    exact latest_congr fun edit hedit => (hedited v hwv edit hedit).dataAlike_along hR hkey hvu
  · intro v hwv a b ha hb hsame
    have halike := (ha.same_iff hR hb).1 hsame
    rw [hlatest v hwv a ha, hlatest v hwv b hb]
    exact latest_congr fun edit hedit => ⟨(·.trans halike), (·.trans halike.symm)⟩
  · exact fun v hwv a b xs ys ha hb hxs hys => ha.same_of_elements hR hb hxs hys
  · intro v hwv
    refine (htab.distinct_along hR hwv).imp_of_mem fun hf hg hne => ?_
    rwa [(hkeys v hwv _ hf).same_iff hR (hkeys v hwv _ hg)]
  · intro v hwv key hkey x
    rw [hlatest v hwv key hkey, htab.latest v hwv key hkey x]
    refine exists_congr fun f => and_congr_right fun hf => and_congr_left fun _ => ?_
    exact ((hkeys v hwv f hf).same_iff hR hkey).symm
  · exact .of_succ ⟨0, fun _ _ _ => rfl⟩
  · intro b args more hedit hmore
    obtain ⟨entries', v, hwv, hreturns, -⟩ := htab.call hR hedit hmore
    obtain ⟨n, hn⟩ := hreturns none
    exact ⟨entries', v, hwv, hreturns, .call h hedit hmore (hn n (Nat.le_refl n))⟩
  · exact fun args hrefused => ⟨_, assoc_refused hrefused⟩
  · intro front bad back rows hrows hfinite hbad
    obtain ⟨v, hwv, hfails⟩ := htab.conj_refused hR hrows hfinite hbad
    exact ⟨_, v, hwv, hfails, h.later hwv⟩

/-- Under a lazy sequence that is not walked yet, seven is put into a map, and found under `[1]`. -/
theorem maps_keep_one_entry_per_key_lazy :
    Made LazyOneAhead lazyOneWalked [(.seq (.lazy 0), .int 7)] [.put (.seq (.lazy 0), .int 7)] ∧
    ∃ v, Returns lazyOneWalked (.builtin .get) [.map [(.seq (.lazy 0), .int 7)], .vector [.int 1]]
      (.int 7) v := by
  have hrun : Evaluation.run 12 (.apply none (.builtin .hashMap) [.seq (.lazy 0), .int 7]) lazyOne =
      .ok (.value (.map [(.seq (.lazy 0), .int 7)])) lazyOneWalked := rfl
  have hmade : Made LazyOneAhead lazyOneWalked [(.seq (.lazy 0), .int 7)]
      [.put (.seq (.lazy 0), .int 7)] :=
    .call (.empty lazyOne) rfl (List.forall_mem_singleton.2 lazyOne_finite) hrun
  have hkeyed := maps_keep_one_entry_per_key lazyOneAhead_course hmade
  have hone : Finite LazyOneAhead lazyOneWalked (.vector [.int 1]) :=
    .vector (List.forall_mem_singleton.2 (.atom rfl))
  obtain ⟨v, hv, hsettled, hlooks⟩ := hkeyed.lookup _ hone
  refine ⟨hmade, v, ?_⟩
  have hheld : Seq.Holds v (.lazy 0) [.int 1] := by
    have hlater := lazyOneAhead_course.later hv
    exact .cons (lazyOne_takes.again hlater) (.nil (.empty v))
  have hlazy : Settled LazyOneAhead v (.seq (.lazy 0)) := by
    refine ⟨(lazyOne_finite.along lazyOneAhead_course .walked).along lazyOneAhead_course hv, ?_⟩
    exact ⟨_, denotes_seq.2 ⟨_, [.int 1], hheld, rfl, .cons (.atom rfl) .nil⟩⟩
  have hsame : Same v (.seq (.lazy 0)) (.vector [.int 1]) := by
    refine (hkeyed.sequential v hv _ _ _ _ hlazy hsettled (.seq hheld) (.vector _)).2 ?_
    exact .cons ⟨v, .ok true v, 1, rfl⟩ .nil
  have hseven : latest (Same v · (.vector [.int 1])) [.put (.seq (.lazy 0), .int 7)] =
      some (.int 7) := @latest_concat_of_pos _ [] _ hsame
  have hget := hlooks.get
  rwa [hseven] at hget

end LazyLisp
