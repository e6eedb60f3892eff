import LazyLisp.Proofs.Stepping

/-!
The code of some of the library's functions and macros, as the reader hands it to the evaluator, and
states that supply it: the names mean closures of this code in the current namespace, and the
built-in functions that it uses are known by their names.
-/

namespace LazyLisp
set_option autoImplicit false

/-- The plain symbol of a name. -/
abbrev word (name : NameId) : Value := .symbol (.plain name)

/-- The position of the name under which a built-in function is installed. -/
def Builtin.nameId (b : Builtin) : NameId := Names.initial.size + Builtin.all.idxOf b

namespace Library

/-! Positions of the names that the library's code uses for itself. -/

abbrev testName : NameId := 94
abbrev bodyName : NameId := 85
abbrev clausesName : NameId := 100
abbrev formsName : NameId := 102
/-- The symbol that every expansion of `and` binds. -/
abbrev andName : NameId := 104
/-- The symbol that every expansion of `or` binds. -/
abbrev orName : NameId := 107
abbrev countName : NameId := 115
abbrev functionName : NameId := 122
abbrev collName : NameId := 90
abbrev predName : NameId := 130
abbrev itemName : NameId := 87
abbrev seqName : NameId := 133
abbrev startName : NameId := 138
abbrev endName : NameId := 137
abbrev stepName : NameId := 139
abbrev accName : NameId := 141
abbrev toName : NameId := 143
abbrev fromName : NameId := 144

/-- Functions and macros of the library. -/
inductive Entry
  | second | when | cond | and | or | lazySeq | isPositive | map | filter | take | drop | iterate
  | range | reverse | into | last
deriving DecidableEq

namespace Entry

def all : List Entry :=
  [second, when, cond, and, or, lazySeq, isPositive, map, filter, take, drop, iterate, range,
   reverse, into, last]

theorem mem_all (e : Entry) : e ∈ all := by cases e <;> decide

def text : Entry → String
  | second => "second"
  | when => "when"
  | cond => "cond"
  | and => "and"
  | or => "or"
  | lazySeq => "lazy-seq"
  | isPositive => "pos?"
  | map => "map"
  | filter => "filter"
  | take => "take"
  | drop => "drop"
  | iterate => "iterate"
  | range => "range"
  | reverse => "reverse"
  | into => "into"
  | last => "last"

/-- The position of the name. -/
def name : Entry → NameId
  | second => 89
  | when => 93
  | cond => 99
  | and => 101
  | or => 105
  | lazySeq => 113
  | isPositive => 116
  | map => 128
  | filter => 129
  | take => 131
  | drop => 132
  | iterate => 134
  | range => 136
  | reverse => 140
  | into => 142
  | last => 145

def isMacro : Entry → Bool
  | when | cond | and | or | lazySeq => true
  | _ => false

end Entry

open Shorthand

/-- A call of a built-in function by its name. -/
def call (b : Builtin) (args : List Value) : Value := .list (word b.nameId :: args)

/-- A use of a function or macro of the library. -/
def use (entry : Entry) (args : List Value) : Value := .list (word entry.name :: args)

/-- The part of a template that is evaluated in place, as one element. -/
def hole (form : Value) : Value := (Piece.one form).elements

/-- The part of a template that stands for itself. -/
def shown (form : Value) : Value := hole (quoted form)

/-- The template of `let` that binds the first form and branches on it. -/
def branchTemplate (fresh : NameId) (branches : List Value) : Value :=
  listOf [shown (.special .letIn),
    hole (vectorOf [shown (word fresh), hole (call .first [word formsName])]),
    hole (listOf (shown (.special .ifElse) :: shown (word fresh) :: branches))]

/-- The template of a use of the macro with the forms behind the first. -/
def againTemplate (entry : Entry) : Value :=
  hole (listOf [shown (word entry.name), call .next [word formsName]])

/-- The clauses without a rest parameter. -/
def Entry.fixed : Entry → List Clause
  | second => [⟨[.plain collName], none, [call .first [call .next [word collName]]]⟩]
  | isPositive => [⟨[.plain countName], none, [call .greater [word countName, .int 0]]⟩]
  | map => [⟨[.plain functionName, .plain collName], none, [use .lazySeq
      [use .when [call .seq [word collName],
        call .cons [.list [word functionName, call .first [word collName]],
          use .map [word functionName, call .rest [word collName]]]]]]⟩]
  | filter => [⟨[.plain predName, .plain collName], none, [use .lazySeq
      [use .when [call .seq [word collName],
        .list [.special .letIn, .vector [word itemName, call .first [word collName]],
          .list [.special .ifElse, .list [word predName, word itemName],
            call .cons [word itemName, use .filter [word predName, call .rest [word collName]]],
            use .filter [word predName, call .rest [word collName]]]]]]]⟩]
  | take => [⟨[.plain countName, .plain collName], none, [use .lazySeq
      [use .when [use .isPositive [word countName],
        use .when [call .seq [word collName],
          call .cons [call .first [word collName],
            use .take [call .dec [word countName], call .rest [word collName]]]]]]]⟩]
  | drop => [⟨[.plain countName, .plain collName], none, [.list [.special .looping,
      .vector [word countName, word countName, word seqName, call .seq [word collName]],
      .list [.special .ifElse, use .and [use .isPositive [word countName], word seqName],
        .list [.special .recur, call .dec [word countName], call .next [word seqName]],
        use .or [word seqName, .list []]]]]⟩]
  | iterate => [⟨[.plain functionName, .plain itemName], none, [use .lazySeq
      [call .cons [word itemName,
        use .iterate [word functionName, .list [word functionName, word itemName]]]]]⟩]
  | range => [⟨[], none, [use .iterate [word Builtin.inc.nameId, .int 0]]⟩,
      ⟨[.plain endName], none, [use .range [.int 0, word endName, .int 1]]⟩,
      ⟨[.plain startName, .plain endName], none,
        [use .range [word startName, word endName, .int 1]]⟩,
      ⟨[.plain startName, .plain endName, .plain stepName], none, [use .lazySeq
        [use .when [.list [.special .ifElse, use .isPositive [word stepName],
            call .less [word startName, word endName],
            call .greater [word startName, word endName]],
          call .cons [word startName,
            use .range [call .add [word startName, word stepName], word endName,
              word stepName]]]]]⟩]
  | reverse => [⟨[.plain collName], none, [call .reduce
      [.list [.special .lambda, .vector [word accName, word itemName],
          call .cons [word itemName, word accName]],
        .list [], word collName]]⟩]
  | into => [⟨[.plain toName, .plain fromName], none,
      [call .reduce [word Builtin.conj.nameId, word toName, word fromName]]⟩]
  | last => [⟨[.plain collName], none, [.list [.special .looping,
      .vector [word seqName, call .seq [word collName]],
      .list [.special .ifElse, call .next [word seqName],
        .list [.special .recur, call .next [word seqName]],
        call .first [word seqName]]]]⟩]
  | _ => []

/-- The clause with a rest parameter. -/
def Entry.variadic : Entry → Option Clause
  | when => some ⟨[.plain testName], some (.plain bodyName), [listOf
      [shown (.special .ifElse), hole (word testName),
        hole (listOf [shown (.special .block), word bodyName])]]⟩
  | cond => some ⟨[], some (.plain clausesName), [use .when [word clausesName,
      call .list [quoted (.special .ifElse), call .first [word clausesName],
        use .second [word clausesName],
        call .cons [quoted (word Entry.cond.name), call .next [call .next [word clausesName]]]]]]⟩
  | and => some ⟨[], some (.plain formsName), [.list [.special .ifElse, word formsName,
      .list [.special .ifElse, call .next [word formsName],
        branchTemplate andName [againTemplate .and, shown (word andName)],
        call .first [word formsName]],
      .bool true]]⟩
  | or => some ⟨[], some (.plain formsName), [use .when [word formsName,
      .list [.special .ifElse, call .next [word formsName],
        branchTemplate orName [shown (word orName), againTemplate .or],
        call .first [word formsName]]]]⟩
  | lazySeq => some ⟨[], some (.plain bodyName), [listOf
      [shown (word Builtin.lazySeq.nameId),
        hole (listOf [shown (.special .lambda), hole (vectorOf []), word bodyName])]]⟩
  | _ => none

def Entry.closure (entry : Entry) : Closure :=
  ⟨some (.plain entry.name), entry.fixed, entry.variadic, none⟩

def Entry.value (entry : Entry) (id : ClosureId) : Value :=
  if entry.isMacro then .transformer id else .function id

theorem Entry.name_ne_currentNs (entry : Entry) : entry.name ≠ Names.currentNs := by
  cases entry <;> decide

end Library

theorem Builtin.nameId_ne_currentNs (b : Builtin) : b.nameId ≠ Names.currentNs :=
  Nat.ne_of_gt (Nat.lt_of_lt_of_le (by decide) (Nat.le_add_right _ _))

namespace World

/-- What a plain symbol means in a scope, whatever frames and events are added. -/
def Means (w : World) (scope : Scope) (name : NameId) (x : Value) : Prop :=
  ∀ v, Idle w v → v.resolve? scope (.plain name) = some x

section
variable {w v : World} {scope : Scope} {layers : List (List (Symbol × Value))} {name : NameId}
  {x : Value}

theorem Layers.means (h : w.Layers scope layers) (hx : meaningIn layers (.plain name) = some x) :
    w.Means scope name x := by
  intro v hwv
  rw [(h.keeps hwv.frames).resolve?, hx]

theorem Layers.means_global (h : w.Layers scope layers)
    (hfree : meaningIn layers (.plain name) = none) (hname : name ≠ Names.currentNs)
    (hx : w.global? (.plain name) = some x) : w.Means scope name x := by
  intro v hwv
  rw [(h.keeps hwv.frames).resolve?, hfree]
  dsimp only
  rw [if_neg hname, hwv.global?, hx]

namespace Means

theorem along (h : w.Means scope name x) (hwv : Idle w v) : v.Means scope name x :=
  fun u hvu => h u (hwv.trans hvu)

theorem heads (h : w.Means scope name x) (v : World) (hwv : Idle w v) :
    Evaluation.Heads v scope (word name) x := by
  intro n
  show Evaluation.evaluateSymbol scope (.plain name) true v = _
  rw [Evaluation.evaluateSymbol, run_bind_ok (run_get v), h v hwv]
  cases x <;> rfl

theorem comesTo (h : w.Means scope name x) (hx : ∀ id, x ≠ .transformer id) :
    ComesTo (Evaluation.outcomes scope (word name)) w (.ok (.value x) w) := by
  refine ⟨.ok _ w, 1, fun m hm => ?_⟩
  obtain ⟨m, rfl⟩ := Nat.exists_eq_add_of_le' hm
  show Evaluation.evaluateSymbol scope (.plain name) false w = _
  rw [Evaluation.evaluateSymbol, run_bind_ok (run_get w), h w (.refl w)]
  cases x with
  | transformer id => exact absurd rfl (hx id)
  | _ => rfl

theorem yields (h : w.Means scope name x) (hx : ∀ id, x ≠ .transformer id) :
    Yields (Evaluation.values scope (word name)) w x :=
  fun v hwv => ⟨v, Evaluation.comesTo_value ((h.along hwv).comesTo hx), .refl v⟩

end Means
end

open Library

/-- The name means the library's function or macro in a scope. -/
def Provides (w : World) (scope : Scope) (e : Entry) : Prop :=
  ∃ id, w.Means scope e.name (e.value id) ∧ w.closures[id]? = some e.closure

theorem Provides.along {w v : World} {scope : Scope} {e : Entry} (h : w.Provides scope e)
    (hwv : Idle w v) : v.Provides scope e := by
  obtain ⟨id, hmeans, hc⟩ := h
  exact ⟨id, hmeans.along hwv, hwv.closures ▸ hc⟩

/-- The current namespace knows the library's code and the built-in functions by their names. -/
structure Stocked (w : World) (entries : List Entry) (builtins : List Builtin) : Prop where
  entry : ∀ e ∈ entries, ∃ id, w.global? (.plain e.name) = some (e.value id) ∧
    w.closures[id]? = some e.closure
  builtin : ∀ b ∈ builtins, w.global? (.plain b.nameId) = some (.builtin b)

namespace Stocked
variable {w v : World} {entries : List Entry} {builtins : List Builtin} {scope : Scope}
  {layers : List (List (Symbol × Value))}

theorem along (h : w.Stocked entries builtins)
    (hglobal : ∀ s x, w.global? s = some x → v.global? s = some x)
    (hclosures : ∀ (id : ClosureId) (c : Closure), w.closures[id]? = some c →
      v.closures[id]? = some c) : v.Stocked entries builtins where
  entry e he := by
    obtain ⟨id, hid, hc⟩ := h.entry e he
    exact ⟨id, hglobal _ _ hid, hclosures _ _ hc⟩
  builtin b hb := hglobal _ _ (h.builtin b hb)

theorem idle (h : w.Stocked entries builtins) (hwv : Idle w v) : v.Stocked entries builtins :=
  h.along (fun s _ hx => (hwv.global? s).trans hx) fun _ _ hc => hwv.closures ▸ hc

theorem subset {entries' : List Entry} {builtins' : List Builtin} (h : w.Stocked entries builtins)
    (hentries : entries' ⊆ entries) (hbuiltins : builtins' ⊆ builtins) :
    w.Stocked entries' builtins' where
  entry e he := h.entry e (hentries he)
  builtin b hb := h.builtin b (hbuiltins hb)

theorem means_builtin (h : w.Stocked entries builtins) (hlayers : w.Layers scope layers)
    (b : Builtin) (hb : b ∈ builtins) (hfree : meaningIn layers (.plain b.nameId) = none) :
    w.Means scope b.nameId (.builtin b) :=
  hlayers.means_global hfree b.nameId_ne_currentNs (h.builtin b hb)

theorem provides (h : w.Stocked entries builtins) (hlayers : w.Layers scope layers)
    (e : Entry) (he : e ∈ entries) (hfree : meaningIn layers (.plain e.name) = none) :
    w.Provides scope e := by
  obtain ⟨id, hid, hc⟩ := h.entry e he
  exact ⟨id, hlayers.means_global hfree e.name_ne_currentNs hid, hc⟩

end Stocked

/-- The whole library can be used, and lazy cells can be run. -/
structure Ready (w : World) : Prop where
  attached : w.attached = true
  stocked : w.Stocked Entry.all Builtin.all
  wellScoped : w.Scoped

end World
end LazyLisp
