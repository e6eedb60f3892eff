import LazyLisp.Proofs.LibraryCode

/-!
The library as the reader hands it over: the forms of its two files, nearly all of which define a
function or macro, and the names that are known behind each file.
-/

namespace LazyLisp
set_option autoImplicit false

namespace Clause

/-- A clause without a rest parameter. -/
def plain (params : List NameId) (body : List Value) : Clause := ⟨params.map .plain, none, body⟩

/-- A clause with a rest parameter. -/
def withRest (params : List NameId) (rest : NameId) (body : List Value) : Clause :=
  ⟨params.map .plain, some (.plain rest), body⟩

/-- The parameters and the body as they are written. -/
def forms (c : Clause) : List Value :=
  .vector (c.params.map .symbol ++
    ((c.rest.map fun s => [word Names.ampersand, .symbol s]).getD [])) :: c.body

end Clause

namespace Library
open Shorthand

/-- A function or macro by its clauses. -/
structure Definition where
  name : NameId
  isMacro : Bool
  clauses : List Clause

def Entry.definition (e : Entry) : Definition := ⟨e.name, e.isMacro, e.fixed ++ e.variadic.toList⟩

/-! Positions of further names of the library. -/

abbrev defnName : NameId := 84
abbrev notName : NameId := 86
abbrev identityName : NameId := 88
abbrev argsName : NameId := 92
abbrev thenName : NameId := 97
abbrev elseName : NameId := 98
abbrev chainName : NameId := 109
abbrev linkName : NameId := 110
abbrev threadedName : NameId := 111
abbrev isEvenName : NameId := 118
abbrev compName : NameId := 121
abbrev innerName : NameId := 123
abbrev othersName : NameId := 124
abbrev composedName : NameId := 125
abbrev boundName : NameId := 127
abbrev repeatName : NameId := 135

/-- The form by which the value of a definition comes about. -/
def Definition.form (d : Definition) : Value :=
  let clauses := match d.clauses with
    | [c] => c.forms
    | cs => cs.map fun c => .list c.forms
  .list ((if d.isMacro then .special .defineMacro else word defnName) :: word d.name :: clauses)

/-- The macro that names a function and binds it, with its note. -/
def defnForm : Value :=
  let name := hole (word Builtin.name.nameId)
  .list [.special .defineMacro, word defnName,
    .string "Define a named function; the body is anything `fn` accepts.",
    .vector [word Builtin.name.nameId, word Names.ampersand, word bodyName],
    listOf [shown (.special .define), name,
      hole (listOf [shown (.special .lambda), name, word bodyName])]]

/-- A function of a number that compares it with zero. -/
def zeroTest (name : NameId) (b : Builtin) : Definition :=
  ⟨name, false, [.plain [countName] [call b [word countName, .int 0]]]⟩

/-- A macro that hands a form on through the forms behind it, each a list that takes it in. -/
def threading (name : NameId) (taken : List Value) : Definition :=
  ⟨name, true, [.withRest [itemName] chainName [.list [.special .ifElse, word chainName,
    .list [.special .letIn,
      .vector [word linkName, call .first [word chainName],
        word threadedName, .list [.special .ifElse, call .isSeq [word linkName], listOf taken,
          call .list [word linkName, word itemName]]],
      listOf [shown (word name), hole (word threadedName), call .next [word chainName]]],
    word itemName]]]⟩

/-- The definitions of the first file behind that of `defn`. -/
def coreDefinitions : List Definition :=
  [⟨notName, false, [.plain [itemName]
      [.list [.special .ifElse, word itemName, .bool false, .bool true]]]⟩,
    ⟨identityName, false, [.plain [itemName] [word itemName]]⟩,
    Entry.second.definition,
    ⟨91, false, [.withRest [] argsName [.list [word notName,
      .list [.special .apply, word Builtin.equal.nameId, word argsName]]]]⟩,
    Entry.when.definition,
    ⟨95, true, [.withRest [testName] bodyName [listOf [shown (.special .ifElse),
      hole (word testName), hole .nil, hole (listOf [shown (.special .block), word bodyName])]]]⟩,
    ⟨96, true, [.plain [testName, thenName]
        [listOf [shown (.special .ifElse), hole (word testName), hole .nil, hole (word thenName)]],
      .plain [testName, thenName, elseName] [listOf [shown (.special .ifElse),
        hole (word testName), hole (word elseName), hole (word thenName)]]]⟩,
    Entry.cond.definition, Entry.and.definition, Entry.or.definition,
    threading 108 [hole (call .first [word linkName]), hole (word itemName),
      call .next [word linkName]],
    threading 112 [word linkName, hole (word itemName)],
    Entry.lazySeq.definition,
    zeroTest 114 .numEqual, Entry.isPositive.definition, zeroTest 117 .less,
    ⟨isEvenName, false, [.plain [countName]
      [call .numEqual [call .rem [word countName, .int 2], .int 0]]]⟩,
    ⟨119, false, [.plain [countName]
      [.list [word notName, .list [word isEvenName, word countName]]]]⟩,
    ⟨120, false, [.plain [collName] [.list [word notName, call .seq [word collName]]]]⟩,
    ⟨compName, false, [.plain [] [word identityName], .plain [functionName] [word functionName],
      .withRest [functionName, innerName] othersName [.list [.special .letIn,
        .vector [word composedName, .list [.special .lambda,
          .vector [word Names.ampersand, word argsName], .list [word functionName,
            .list [.special .apply, word innerName, word argsName]]]],
        .list [.special .ifElse, word othersName,
          .list [.special .apply, word compName, word composedName, word othersName],
          word composedName]]]]⟩,
    ⟨126, false, [.withRest [functionName] boundName [.list [.special .lambda,
      .vector [word Names.ampersand, word argsName], .list [.special .apply, word functionName,
        call .concat [word boundName, word argsName]]]]]⟩]

/-- The definitions of the second file. -/
def sequenceDefinitions : List Definition :=
  [Entry.map.definition, Entry.filter.definition, Entry.take.definition, Entry.drop.definition,
    Entry.iterate.definition,
    ⟨repeatName, false, [.plain [itemName] [use .lazySeq
        [call .cons [word itemName, .list [word repeatName, word itemName]]]],
      .plain [countName, itemName]
        [use .take [word countName, .list [word repeatName, word itemName]]]]⟩,
    Entry.range.definition, Entry.reverse.definition, Entry.into.definition,
    Entry.last.definition]

def coreForms : List Value := defnForm :: coreDefinitions.map Definition.form

def sequenceForms : List Value := sequenceDefinitions.map Definition.form

/-- The names that are known before the library is read. -/
def bareNames : Names := Names.initial.internAll (Builtin.all.map Builtin.text)

/-- The names that are known behind the first file. -/
def coreNames : Names :=
  (bareNames.internAll ["defn", "body", "not", "x", "identity", "second", "coll", "not=",
    "args", "when", "test", "when-not", "if-not", "then", "else", "cond", "clauses", "and", "xs",
    "and#", "and__1__auto", "or", "or#", "or__2__auto", "->", "forms", "form", "threaded", "->>",
    "lazy-seq", "zero?", "n", "pos?", "neg?", "even?", "odd?", "empty?", "comp", "f", "g", "fs",
    "fg", "partial", "bound"]).advance 2

/-- The names that are known behind both files. -/
def libraryNames : Names :=
  coreNames.internAll ["map", "filter", "pred", "take", "drop", "s", "iterate", "repeat",
    "range", "end", "start", "step", "reverse", "acc", "into", "to", "from", "last"]

end Library

/-! Comparing code. -/

mutual

/-- The forms are made of the same symbols, integers and so on in lists and vectors. -/
def Value.sameCode : Value → Value → Bool
  | .nil, .nil => true
  | .bool a, .bool b => a == b
  | .int a, .int b => a == b
  | .string a, .string b => a == b
  | .symbol a, .symbol b => a == b
  | .builtin a, .builtin b => a == b
  | .special a, .special b => a == b
  | .vector xs, .vector ys => Value.allSameCode xs ys
  | .seq s, .seq t => s.sameCode t
  | _, _ => false
termination_by structural x => x

def Seq.sameCode : Seq → Seq → Bool
  | .empty, .empty => true
  | .cons x s, .cons y t => x.sameCode y && s.sameCode t
  | _, _ => false
termination_by structural x => x

def Value.allSameCode : List Value → List Value → Bool
  | [], [] => true
  | x :: xs, y :: ys => x.sameCode y && Value.allSameCode xs ys
  | _, _ => false
termination_by structural x => x

end

mutual

theorem Value.eq_of_sameCode (x y : Value) (h : x.sameCode y = true) : x = y := by
  cases x <;> cases y <;> simp only [Value.sameCode, beq_iff_eq, Bool.false_eq_true] at h
  case nil.nil => rfl
  case bool.bool => rw [h]
  case int.int => rw [h]
  case string.string => rw [h]
  case symbol.symbol => rw [h]
  case builtin.builtin => rw [h]
  case special.special => rw [h]
  case vector.vector xs ys => rw [Value.eq_of_allSameCode xs ys h]
  case seq.seq s t => rw [Seq.eq_of_sameCode s t h]
termination_by structural x

theorem Seq.eq_of_sameCode (s t : Seq) (h : s.sameCode t = true) : s = t := by
  cases s <;> cases t <;> simp only [Seq.sameCode, Bool.and_eq_true, Bool.false_eq_true] at h
  case empty.empty => rfl
  case cons.cons x s y t => rw [Value.eq_of_sameCode x y h.1, Seq.eq_of_sameCode s t h.2]
termination_by structural s

theorem Value.eq_of_allSameCode (xs ys : List Value) (h : Value.allSameCode xs ys = true) :
    xs = ys := by
  cases xs <;> cases ys <;> simp only [Value.allSameCode, Bool.and_eq_true, Bool.false_eq_true] at h
  case nil.nil => rfl
  case cons.cons x xs y ys => rw [Value.eq_of_sameCode x y h.1, Value.eq_of_allSameCode xs ys h.2]
termination_by structural xs

end

/-! Reading a source that is given by its characters. -/

def readCharacters (cs : List Char) : EStateM ReadError Names (List Value) := fun names =>
  match Token.tokensFrom {} cs with
  | .error e => .error (.lex e) names
  | .ok tokens =>
    match Reading.forms [] ⟨0, 0, 1, 1⟩ tokens names with
    | .ok forms names => .ok forms names
    | .error e names => .error (.parse e) names

theorem readForms_eq (source : String) : readForms source = readCharacters source.toList := rfl

def Names.same (a b : Names) : Bool :=
  a.ids == b.ids && a.texts == b.texts && a.counter == b.counter

theorem Names.eq_of_same {a b : Names} (h : a.same b = true) : a = b := by
  obtain ⟨ids, texts, counter, _⟩ := a
  obtain ⟨ids', texts', counter', _⟩ := b
  simp only [Names.same, Bool.and_eq_true, beq_iff_eq] at h
  obtain ⟨⟨rfl, rfl⟩, rfl⟩ := h
  rfl

def readCheck (cs : List Char) (known : Names) (forms : List Value) (behind : Names) : Bool :=
  match readCharacters cs known with
  | .ok read names => Value.allSameCode read forms && names.same behind
  | .error _ _ => false

theorem readCheck_sound {source : String} {cs : List Char} {known behind : Names}
    {forms : List Value} (hsource : source = String.ofList cs)
    (h : readCheck cs known forms behind = true) :
    readForms source known = .ok forms behind := by
  subst hsource
  rw [readForms_eq, String.toList_ofList]
  unfold readCheck at h
  split at h
  · rename_i read names hread
    obtain ⟨hforms, hnames⟩ := Bool.and_eq_true_iff.1 h
    rw [hread, Value.eq_of_allSameCode _ _ hforms, Names.eq_of_same hnames]
  · cases h

namespace Library

-- the recursion is over the characters of the sources
set_option maxRecDepth 100000 in
/-- The two files are read as these forms, each in the state that the one before leaves. -/
theorem files_read :
    readForms core.source bareNames = .ok coreForms coreNames ∧
      readForms sequences.source coreNames = .ok sequenceForms libraryNames :=
  ⟨readCheck_sound rfl (by decide +kernel), readCheck_sound rfl (by decide +kernel)⟩

end Library
end LazyLisp
