import LazyLisp.Proofs.Arithmetic

/-!
Built-in functions that take their arguments by position. A position may be out of range, an item
behind the last one, a difference negative or a quotient no word; then the host program crashes, and
any computation may stand for that. Behind the check of the number of arguments none of it happens:
with every such computation, the bodies by position are the bodies by pattern.
-/

namespace LazyLisp
set_option autoImplicit false

/-- What is done in the place of a crash, at every type. -/
abbrev Crash := (α : Type) → Eval α

namespace Crash
variable (crash : Crash) {α : Type}

/-- The item at a position. -/
def item (xs : List α) (i : Nat) : Eval α :=
  match xs[i]? with
  | some x => return x
  | none => crash α

/-- The items from a position on. -/
def behind (xs : List α) (i : Nat) : Eval (List α) :=
  if i ≤ xs.length then return xs.drop i else crash (List α)

/-- The items from a position up to another. -/
def between (xs : List α) (i j : Nat) : Eval (List α) :=
  if i ≤ j ∧ j ≤ xs.length then return (xs.take j).drop i else crash (List α)

/-- The items with another one at a position. -/
def replace (xs : List α) (i : Nat) (x : α) : Eval (List α) :=
  if i < xs.length then return xs.set i x else crash (List α)

/-- The difference of two sizes. -/
def minus (a b : Nat) : Eval Nat := if b ≤ a then return a - b else crash Nat

/-- The quotient of two words. -/
def quotient (a b : Int64) : Eval Int64 :=
  if b == 0 || Number.quotientOverflows a b then crash Int64 else return a / b

@[simp] theorem item_zero (x : α) (xs : List α) : crash.item (x :: xs) 0 = pure x := rfl

@[simp] theorem item_one (x y : α) (xs : List α) : crash.item (x :: y :: xs) 1 = pure y := rfl

@[simp] theorem behind_one (x : α) (xs : List α) : crash.behind (x :: xs) 1 = pure xs := by
  simp [behind]

@[simp] theorem minus_one (n : Nat) : crash.minus (n + 1) 1 = pure n := by
  simp [minus]

end Crash

namespace Positional

/-- The items two by two; the last one may be left alone. -/
def chunks {α : Type} : List α → List (List α)
  | x :: y :: rest => [x, y] :: chunks rest
  | [x] => [[x]]
  | [] => []

/-- Each item with the next. -/
def windows {α : Type} : List α → List (List α)
  | x :: y :: rest => [x, y] :: windows (y :: rest)
  | _ => []

/-- Whether all satisfy a condition; nothing behind one that does not is looked at. -/
def every {α : Type} (holds : α → Eval Bool) : List α → Eval Bool
  | [] => return true
  | x :: rest => do if ← holds x then every holds rest else return false

variable (crash : Crash)

/-! Numbers. -/

section
open LazyLisp.Core

/-- The remainder, unless it or its quotient is no word. -/
def checkedRem (a b : Int64) : Option Int64 :=
  if b == 0 || Number.quotientOverflows a b then none else some (a % b)

/-- Exact quotients of integers are integers, all others are floating point numbers. -/
def divide (a b : Number) : Eval Number := do
  if b.isZero then fail .divideByZero
  else match a, b with
    | .int x, .int y =>
      match checkedRem x y with
      | none => fail (.overflow "/")
      | some r =>
        if r = 0 then return .int (← crash.quotient x y)
        else return .float (x.toFloat / y.toFloat)
    | a, b => return .float (a.toFloat / b.toFloat)

def foldNumbers (function : String) (op : Number → Number → Eval Number) :
    Number → List Value → Eval Number
  | acc, [] => return acc
  | acc, v :: vs => do
    let n ← lift (Number.ofValue function v)
    foldNumbers function op (← op acc n) vs

/-- Folds the arguments behind the first; a single argument is the second operand of `unit`. -/
def foldBehind (function : String) (op : Number → Number → Eval Number) (unit : Int64)
    (args : List Value) : Eval Value := do
  if args.length = 1 then
    let n ← lift (Number.ofValue function (← crash.item args 0))
    return (← op (.int unit) n).toValue
  else
    let first ← lift (Number.ofValue function (← crash.item args 0))
    return (← foldNumbers function op first (← crash.behind args 1)).toValue

def binaryNumbers (function : String) (op : Number → Number → Except EvalError Number)
    (args : List Value) : Eval Value := do
  let a ← lift (Number.ofValue function (← crash.item args 0))
  let b ← lift (Number.ofValue function (← crash.item args 1))
  number (op a b)

/-- The neighbour of a number. -/
def nextNumber (function : String) (op : Number → Number → Except EvalError Number)
    (args : List Value) : Eval Value := do
  let n ← lift (Number.ofValue function (← crash.item args 0))
  number (op n (.int 1))

def compareChain (function : String) (accept : Ordering → Bool) (args : List Value) :
    Eval Value := do
  let numbers ← lift (args.mapM (Number.ofValue function))
  let holds ← every (fun pair => do
    let a ← crash.item pair 0
    let b ← crash.item pair 1
    return (Number.compare? a b).any accept) (windows numbers)
  return .bool holds

def extremum (function : String) (wanted : Ordering) (args : List Value) : Eval Value := do
  let numbers ← lift (args.mapM (Number.ofValue function))
  let best ← crash.item numbers 0
  return (Number.extremum wanted best (← crash.behind numbers 1)).toValue

end

/-! Collections. -/

section
open LazyLisp.Core
variable (e : Engine)

def allEqual (args : List Value) : Eval Bool :=
  every (fun pair => do Value.equal e (← crash.item pair 0) (← crash.item pair 1)) (windows args)

/-- Puts chunks of a key and a value into a map. -/
def putChunks : Entries → List (List Value) → Eval Entries
  | entries, [] => return entries
  | entries, pair :: rest => do
    let key ← crash.item pair 0
    let value ← crash.item pair 1
    putChunks (← entries.put e key value) rest

def hashMap (args : List Value) : Eval Value := do
  if args.length % 2 != 0 then
    fail (.invalidArgument "hash-map" "expects an even number of arguments")
  return .map (← putChunks crash e [] (chunks args))

/-- Sets elements of a vector by chunks of an index and a value. -/
def setChunks : List Value → List (List Value) → Eval (List Value)
  | items, [] => return items
  | items, pair :: rest => do
    let i ← indexOf "assoc" (← crash.item pair 0)
    let k := i.toInt.toNat
    if 0 ≤ i.toInt ∧ k < items.length then
      setChunks (← crash.replace items k (← crash.item pair 1)) rest
    else if 0 ≤ i.toInt ∧ k = items.length then
      setChunks (items ++ [← crash.item pair 1]) rest
    else fail (.outOfBounds i.toInt items.length)

def assoc (args : List Value) : Eval Value := do
  if (← crash.minus args.length 1) % 2 != 0 then
    fail (.invalidArgument "assoc" "expects key/value pairs after the collection")
  match ← crash.item args 0 with
  | .nil => return .map (← putChunks crash e [] (chunks (← crash.behind args 1)))
  | .map entries => return .map (← putChunks crash e entries (chunks (← crash.behind args 1)))
  | .vector items => return .vector (← setChunks crash items (chunks (← crash.behind args 1)))
  | v => fail (.invalidArgument "assoc" ("expected a map or vector, got " ++ v.typeName))

def dissoc (args : List Value) : Eval Value := do
  match ← crash.item args 0 with
  | .nil => return .nil
  | .map entries =>
    let keys ← crash.behind args 1
    return .map (← keys.foldlM (fun entries key => Entries.remove e entries key) entries)
  | v => fail (.invalidArgument "dissoc" ("expected a map, got " ++ v.typeName))

/-- Adds an entry or all entries of a map. -/
def conjEntry (entries : Entries) (v : Value) : Eval Entries :=
  let refuse : Eval Entries :=
    fail (.invalidArgument "conj" ("map entries must be [key value] vectors, got " ++ v.typeName))
  match v with
  | .vector pair =>
    if pair.length = 2 then do
      entries.put e (← crash.item pair 0) (← crash.item pair 1)
    else refuse
  | .map others => others.foldlM (fun (acc : Entries) p => acc.put e p.1 p.2) entries
  | _ => refuse

def conj (args : List Value) : Eval Value := do
  let items ← crash.behind args 1
  match ← crash.item args 0 with
  | .nil => return .seq (items.foldl (fun s item => .cons item s) .empty)
  | .seq s => return .seq (items.foldl (fun s item => .cons item s) s)
  | .vector xs => return .vector (xs ++ items)
  | .map entries => return .map (← items.foldlM (conjEntry crash e) entries)
  | v => fail (.invalidArgument "conj" ("cannot add to " ++ v.typeName))

/-- The number of arguments is checked in front of the call. -/
def reduce (scope : Scope) (args : List Value) : Eval Value := do
  let f ← crash.item args 0
  match args with
  | [_, start, collection] => Core.reduce e scope f (some start) collection
  | [_, collection] => Core.reduce e scope f none collection
  | _ => crash Value

end

/-! Texts. -/

def subs (args : List Value) : Eval Value := do
  match ← crash.item args 0 with
  | .string s =>
    let cs := s.toList
    let length := cs.length
    let a ← Core.indexOf "subs" (← crash.item args 1)
    let b ← match args[2]? with
      | some v => pure (← Core.indexOf "subs" v).toInt
      | none => pure (length : Int)
    let inRange := fun (i : Int) => decide (0 ≤ i ∧ i ≤ length)
    if !inRange a.toInt then fail (.outOfBounds a.toInt length)
    if !inRange b then fail (.outOfBounds b length)
    if b < a.toInt then fail (.outOfBounds a.toInt b.toNat)
    let size ← crash.minus b.toNat a.toInt.toNat
    return .string (String.ofList ((cs.drop a.toInt.toNat).take size))
  | v => fail (.invalidArgument "subs" ("expected a string, got " ++ v.typeName))

/-- The number of arguments is checked in front of the call. -/
def symbolOf (function : String) (args : List Value) : Eval Symbol :=
  match args with
  | [_] => Core.symbolOf function args
  | [_, _] => Core.symbolOf function args
  | _ => crash Symbol

def keyword (args : List Value) : Eval Value := do
  match args with
  | [.keyword s] => return .keyword s
  | _ => return .keyword (← symbolOf crash "keyword" args)

def matchValue : Option (List (Option String)) → Eval Value
  | none => return .nil
  | some groups => do
    let group := fun (g : Option String) => (g.map Value.string).getD .nil
    if groups.length = 1 then return group (← crash.item groups 0)
    else return .vector (groups.map group)

def reFind (args : List Value) : Eval Value := do
  let pattern ← crash.item args 0
  let text ← Core.textOf "re-find" (← crash.item args 1)
  let source ← Core.patternOf "re-find" pattern
  matchValue crash (Pattern.find? source text)

def reMatches (args : List Value) : Eval Value := do
  let pattern ← crash.item args 0
  let text ← Core.textOf "re-matches" (← crash.item args 1)
  let source ← Core.patternOf "re-matches" pattern
  matchValue crash (Pattern.matchAll? source text)

/-! All functions. -/

section
variable (e : Engine) (scope : Scope)

def one (args : List Value) (f : Value → Eval Value) : Eval Value := do
  f (← crash.item args 0)

def two (args : List Value) (f : Value → Value → Eval Value) : Eval Value := do
  f (← crash.item args 0) (← crash.item args 1)

/-- Two arguments and an optional third one. -/
def twoOrThree (args : List Value) (f : Value → Value → Option Value → Eval Value) :
    Eval Value := do
  f (← crash.item args 0) (← crash.item args 1) args[2]?

/-- Runs a function on arguments whose number it accepts. -/
def perform (b : Builtin) (args : List Value) : Eval Value :=
  let lifted (op : Number → Number → Except EvalError Number) (x y : Number) : Eval Number :=
    Core.lift (op x y)
  match b with
  | .add => return (← foldNumbers "+" (lifted Number.add) (.int 0) args).toValue
  | .multiply => return (← foldNumbers "*" (lifted Number.mul) (.int 1) args).toValue
  | .subtract => foldBehind crash "-" (lifted Number.sub) 0 args
  | .divide => foldBehind crash "/" (divide crash) 1 args
  | .quot => binaryNumbers crash "quot" Number.quot args
  | .rem => binaryNumbers crash "rem" Number.rem args
  | .mod => binaryNumbers crash "mod" Number.mod args
  | .inc => nextNumber crash "inc" Number.add args
  | .dec => nextNumber crash "dec" Number.sub args
  | .max => extremum crash "max" .gt args
  | .min => extremum crash "min" .lt args
  | .numEqual => compareChain crash "==" (· == .eq) args
  | .less => compareChain crash "<" (· == .lt) args
  | .lessEqual => compareChain crash "<=" (· != .gt) args
  | .greater => compareChain crash ">" (· == .gt) args
  | .greaterEqual => compareChain crash ">=" (· != .lt) args
  | .equal => return .bool (← allEqual crash e args)
  | .list => return .list args
  | .vector => return .vector args
  | .vec => one crash args fun v => return .vector (← (← Core.seqOf "vec" v).toList e)
  | .hashMap => hashMap crash e args
  | .cons => two crash args fun head tail => return .seq (.cons head (← Core.seqOf "cons" tail))
  | .first => one crash args fun v => return (← (← Core.seqOf "first" v).first? e).getD .nil
  | .rest => one crash args fun v => return .seq (← (← Core.seqOf "rest" v).rest e)
  | .next => one crash args fun v => do Core.seqOrNil e (← (← Core.seqOf "next" v).rest e)
  | .seq => one crash args fun v => do Core.seqOrNil e (← Core.seqOf "seq" v)
  | .concat => return .seq (.concat .empty (← args.mapM (Core.seqOf "concat")))
  | .nth => twoOrThree crash args (Core.nth e)
  | .get => twoOrThree crash args fun v key fallback => Core.get e v key (fallback.getD .nil)
  | .count => one crash args (Core.count e)
  | .assoc => assoc crash e args
  | .dissoc => dissoc crash e args
  | .conj => conj crash e args
  | .keys => one crash args (Core.mapPart "keys" (·.1))
  | .vals => one crash args (Core.mapPart "vals" (·.2))
  | .contains => two crash args (Core.contains e)
  | .lazySeq => one crash args fun thunk => return .seq (← Eval.newLazy thunk)
  | .reduce => reduce crash e scope args
  | .str => Core.str e args
  | .subs => subs crash args
  | .print => Core.printValues e .human "" args
  | .println => Core.printValues e .human "\n" args
  | .pr => Core.printValues e .readable "" args
  | .prn => Core.printValues e .readable "\n" args
  | .symbol => return .symbol (← symbolOf crash "symbol" args)
  | .keyword => keyword crash args
  | .name => one crash args Core.name
  | .gensym => Core.gensym args.head?
  | .int => one crash args Core.toInt
  | .double => one crash args Core.toDouble
  | .readString => one crash args (Core.readString e)
  | .eval => one crash args (e.value none)
  | .deref => one crash args Core.deref
  | .nsSet => one crash args Core.nsSet
  | .nsRefer => one crash args Core.nsRefer
  | .nsRemove => one crash args Core.nsRemove
  | .nsUnmap => two crash args Core.nsUnmap
  | .nsName => one crash args Core.nsName
  | .rePattern => one crash args fun v => return .pattern (← Core.patternOf "re-pattern" v)
  | .reFind => reFind crash args
  | .reMatches => reMatches crash args
  | .isNil | .isBoolean | .isNumber | .isInt | .isFloat | .isString | .isChar | .isSymbol
  | .isKeyword | .isFn | .isMacro | .isSeq | .isVector | .isMap | .isVar | .isNamespace =>
    one crash args fun v => return .bool (Core.isOfType b v)

/-- Calls a built-in function. -/
def call (b : Builtin) (args : List Value) : Eval Value :=
  if b.arity.accepts args.length then perform crash e scope b args
  else fail (.arity b.text b.arity args.length)

end

/-! The bodies by position beside those by pattern. -/

section
variable {e : Engine} {scope : Scope}

theorem length_ne_one {α : Type} (x y : α) (more : List α) : (x :: y :: more).length ≠ 1 :=
  Nat.ne_of_gt (Nat.le_add_left 2 more.length)

theorem lift_bind {α β : Type} (r : Except EvalError α) (f : α → Except EvalError β) :
    Core.lift (r >>= f) = Core.lift r >>= fun a => Core.lift (f a) := by
  cases r <;> rfl

/-- The divisor is checked to be other than zero, and the remainder to have a quotient. -/
theorem divide_words (x y : Int64) :
    divide crash (.int x) (.int y) = Core.lift (Number.div (.int x) (.int y)) := by
  rw [Number.div_words]
  unfold divide Number.divided checkedRem
  by_cases hzero : y = 0
  · rw [hzero]
    rfl
  · by_cases hoverflow : x = Int64.minValue ∧ y = -1
    · rw [hoverflow.1, hoverflow.2]
      rfl
    · have hbeq : (y == 0) = false := beq_false_of_ne hzero
      have hfits : Number.quotientOverflows x y = false :=
        Bool.eq_false_iff.2 fun h => hoverflow (Number.quotientOverflows_iff.1 h)
      have hquotient : crash.quotient x y = pure (x / y) := by
        rw [Crash.quotient, hbeq, hfits]
        rfl
      simp only [Number.isZero, hbeq, hfits, hquotient, if_neg hzero, if_neg hoverflow, Bool.or_self,
        Bool.false_eq_true, if_false, pure_bind]
      split <;> rfl

theorem divide_eq : divide crash = fun a b => Core.lift (Number.div a b) := by
  funext a b
  match a, b with
  | .int x, .int y => exact divide_words crash x y
  | .int x, .float y => unfold divide Number.div; split <;> rfl
  | .float x, b => unfold divide Number.div; split <;> rfl

theorem foldNumbers_eq (function : String) (op : Number → Number → Except EvalError Number)
    (acc : Number) (args : List Value) :
    foldNumbers function (fun a b => Core.lift (op a b)) acc args =
      Core.lift (Number.foldl function op acc args) := by
  induction args generalizing acc with
  | nil => rfl
  | cons v vs ih =>
    simp only [foldNumbers, Number.foldl, lift_bind, ih]

theorem foldNumbers_number (function : String)
    (op : Number → Number → Except EvalError Number) (acc : Number) (args : List Value) :
    (do return (← foldNumbers function (fun a b => Core.lift (op a b)) acc args).toValue) =
      Core.number (Number.foldl function op acc args) := by
  rw [foldNumbers_eq]
  rfl

theorem number_bind {α : Type} (r : Except EvalError α) (f : α → Except EvalError Number) :
    Core.number (r >>= f) = Core.lift r >>= fun a => Core.number (f a) := by
  cases r <;> rfl

theorem foldBehind_eq (function : String) (op : Number → Number → Except EvalError Number)
    (unit : Int64) (v : Value) (vs : List Value) :
    foldBehind crash function (fun a b => Core.lift (op a b)) unit (v :: vs) =
      Core.number (Number.foldFrom function op unit (v :: vs)) := by
  cases vs with
  | nil => exact (number_bind _ _).symm
  | cons u us =>
    have hfold : Number.foldFrom function op unit (v :: u :: us) =
        Number.ofValue function v >>= fun n => Number.foldl function op n (u :: us) := rfl
    rw [foldBehind, if_neg (length_ne_one v u us), hfold, number_bind]
    simp only [Crash.item_zero, Crash.behind_one, pure_bind, foldNumbers_eq]
    rfl

theorem binaryNumbers_eq (function : String) (op : Number → Number → Except EvalError Number)
    (a b : Value) :
    binaryNumbers crash function op [a, b] = Core.number (Number.binary function op a b) := by
  simp only [binaryNumbers, Number.binary, Crash.item_zero, Crash.item_one, pure_bind, number_bind]

theorem nextNumber_eq (function : String) (op : Number → Number → Except EvalError Number)
    (a : Value) :
    nextNumber crash function op [a] = Core.number (Number.binary function op a (.int 1)) := by
  simp only [nextNumber, Number.binary, Crash.item_zero, pure_bind, number_bind]
  rfl

theorem every_inOrder (accept : Ordering → Bool) (ns : List Number) :
    every (fun pair => do
      let a ← crash.item pair 0
      let b ← crash.item pair 1
      return (Number.compare? a b).any accept) (windows ns) =
      (pure (Number.chain accept ns) : Eval Bool) := by
  induction ns using windows.induct with
  | case1 a b rest ih =>
    simp only [windows, every, ih, Number.chain, Crash.item_zero, Crash.item_one, pure_bind]
    cases (Number.compare? a b).any accept <;> rfl
  | case2 ns hshort =>
    match ns with
    | [] => rfl
    | [_] => rfl
    | a :: b :: rest => exact absurd rfl (hshort a b rest)

theorem compareChain_eq (function : String) (accept : Ordering → Bool) (args : List Value) :
    compareChain crash function accept args = Core.compareChain function accept args := by
  simp only [compareChain, Core.compareChain, every_inOrder, pure_bind]

theorem extremum_eq (function : String) (wanted : Ordering) (v : Value) (vs : List Value) :
    extremum crash function wanted (v :: vs) = Core.extreme function wanted (v :: vs) := by
  simp only [extremum, Core.extreme, List.mapM_cons, lift_bind, bind_assoc]
  refine bind_congr fun n => bind_congr fun ns => ?_
  have hnumbers : Core.lift (pure (n :: ns)) = pure (n :: ns) := rfl
  simp only [hnumbers, Crash.item_zero, Crash.behind_one, pure_bind]

theorem allEqual_eq (args : List Value) : allEqual crash e args = Core.allEqual e args := by
  unfold allEqual
  induction args using windows.induct with
  | case1 a b rest ih =>
    simp only [windows, every, ih, Core.allEqual, Crash.item_zero, Crash.item_one, pure_bind]
  | case2 args hshort =>
    match args with
    | [] => rfl
    | [_] => rfl
    | a :: b :: rest => exact absurd rfl (hshort a b rest)

/-! An even number of items leaves none alone. -/

theorem even_rest {α : Type} {x y : α} {rest : List α} (h : (x :: y :: rest).length % 2 = 0) :
    rest.length % 2 = 0 := by
  rw [List.length_cons, List.length_cons] at h
  omega

theorem putChunks_eq {args : List Value} (heven : args.length % 2 = 0) (entries : Entries) :
    putChunks crash e entries (chunks args) = Core.putPairs e entries args := by
  induction args using chunks.induct generalizing entries with
  | case1 key value rest ih =>
    have hrest : rest.length % 2 = 0 := even_rest heven
    simp only [chunks, putChunks, Core.putPairs, Crash.item_zero, Crash.item_one, pure_bind, ih hrest]
  | case2 => cases heven
  | case3 => rfl

theorem setChunks_eq {args : List Value} (heven : args.length % 2 = 0) (items : List Value) :
    setChunks crash items (chunks args) = Core.setItems items args := by
  induction args using chunks.induct generalizing items with
  | case1 key value rest ih =>
    have hrest : rest.length % 2 = 0 := even_rest heven
    simp only [chunks, setChunks, Core.setItems, Crash.item_zero, Crash.item_one, pure_bind, ih hrest]
    refine bind_congr fun i => ?_
    split
    · rename_i hinside
      rw [Crash.replace, if_pos hinside.2, pure_bind]
    · rfl
  | case2 => cases heven
  | case3 => rfl

theorem hashMap_eq (args : List Value) : hashMap crash e args = Core.hashMap e args := by
  unfold hashMap Core.hashMap
  by_cases heven : args.length % 2 = 0
  · simp only [putChunks_eq crash heven]
  · have hodd : (args.length % 2 != 0) = true := bne_iff_ne.2 heven
    rw [if_pos hodd, if_pos hodd]
    rfl

theorem assoc_eq (v : Value) (pairs : List Value) :
    assoc crash e (v :: pairs) = Core.assoc e v pairs := by
  by_cases heven : pairs.length % 2 = 0
  · simp only [assoc, List.length_cons, Crash.minus_one, Crash.item_zero, Crash.behind_one, pure_bind,
      putChunks_eq crash heven, setChunks_eq crash heven]
    rfl
  · have hodd : (pairs.length % 2 != 0) = true := bne_iff_ne.2 heven
    simp only [assoc, Core.assoc, List.length_cons, Crash.minus_one, pure_bind, if_pos hodd]
    rfl

theorem dissoc_eq (v : Value) (keys : List Value) :
    dissoc crash e (v :: keys) = Core.dissoc e v keys := by
  simp only [dissoc, Crash.item_zero, Crash.behind_one, pure_bind]
  rfl

theorem conjEntry_eq : conjEntry crash e = Core.conjEntry e := by
  funext entries v
  cases v with
  | vector pair =>
    match pair with
    | [] => rfl
    | [_] => rfl
    | [_, _] => rfl
    | _ :: _ :: _ :: _ => rfl
  | _ => rfl

theorem conj_eq (v : Value) (items : List Value) :
    conj crash e (v :: items) = Core.conj e v items := by
  unfold conj
  rw [conjEntry_eq]
  simp only [Crash.item_zero, Crash.behind_one, pure_bind]
  rfl

theorem guard_congr {α : Type} {c : Prop} [Decidable c] {err : EvalError} {k k' : PUnit → Eval α}
    (h : ¬ c → k ⟨⟩ = k' ⟨⟩) :
    (if c then fail err >>= k else k ⟨⟩) = if c then fail err >>= k' else k' ⟨⟩ := by
  split
  · rfl
  · exact h ‹_›

/-- Behind the checks, the start is not behind the end. -/
theorem take_minus (cs : List Char) {a b length : Int} (ha : ¬ (!decide (0 ≤ a ∧ a ≤ length)) = true)
    (hab : ¬ b < a) :
    (do
      let size ← crash.minus b.toNat a.toNat
      return .string (String.ofList ((cs.drop a.toNat).take size))) =
      (pure (.string (String.ofList ((cs.drop a.toNat).take (b - a).toNat))) : Eval Value) := by
  have hstart : 0 ≤ a ∧ a ≤ length := by simpa using ha
  have hle : a.toNat ≤ b.toNat := by omega
  have hsize : b.toNat - a.toNat = (b - a).toNat := by omega
  rw [Crash.minus, if_pos hle, pure_bind, hsize]

theorem subs_eq (v start : Value) (more : List Value) :
    subs crash (v :: start :: more) = Core.subs v start more.head? := by
  cases v with
  | string s =>
    have hstop : (Value.string s :: start :: more)[2]? = more.head? := by cases more <;> rfl
    simp only [subs, Core.subs, hstop, Crash.item_zero, Crash.item_one, pure_bind]
    refine bind_congr fun a => ?_
    cases more.head? with
    | none =>
      exact guard_congr fun ha => guard_congr fun _ => guard_congr fun hab =>
        take_minus crash s.toList ha hab
    | some stop =>
      refine bind_congr fun b => ?_
      exact guard_congr fun ha => guard_congr fun _ => guard_congr fun hab =>
        take_minus crash s.toList ha hab
  | _ => rfl

theorem matchValue_eq (groups : Option (List (Option String))) :
    matchValue crash groups = pure (Core.matchValue groups) := by
  match groups with
  | none => rfl
  | some [] => rfl
  | some [_] => rfl
  | some (_ :: _ :: _) => rfl

theorem reFind_eq (pattern text : Value) :
    reFind crash [pattern, text] = Core.reFind pattern text := by
  simp only [reFind, Core.reFind, Crash.item_zero, Crash.item_one, pure_bind, matchValue_eq]

theorem reMatches_eq (pattern text : Value) :
    reMatches crash [pattern, text] = Core.reMatches pattern text := by
  simp only [reMatches, Core.reMatches, Crash.item_zero, Crash.item_one, pure_bind, matchValue_eq]

/-! Which arguments a number of them leaves. -/

theorem single {α : Type} {xs : List α} (h : (Arity.exactly 1).accepts xs.length = true) :
    ∃ x, xs = [x] :=
  List.length_eq_one_iff.1 (beq_iff_eq.1 h)

theorem pair {α : Type} {xs : List α} (h : (Arity.exactly 2).accepts xs.length = true) :
    ∃ x y, xs = [x, y] := by
  match xs, h with
  | [x, y], _ => exact ⟨x, y, rfl⟩

theorem nonempty {α : Type} {xs : List α} {n : Nat}
    (h : (Arity.atLeast (n + 1)).accepts xs.length = true) : ∃ x more, xs = x :: more := by
  cases xs with
  | nil => cases h
  | cons x more => exact ⟨x, more, rfl⟩

theorem oneOrTwo {α : Type} {xs : List α} (h : (Arity.between 1 2).accepts xs.length = true) :
    (∃ x, xs = [x]) ∨ ∃ x y, xs = [x, y] := by
  match xs, h with
  | [x], _ => exact .inl ⟨x, rfl⟩
  | [x, y], _ => exact .inr ⟨x, y, rfl⟩

theorem pairAndOne {α : Type} {xs : List α} (h : (Arity.between 2 3).accepts xs.length = true) :
    (∃ x y, xs = [x, y]) ∨ ∃ x y z, xs = [x, y, z] := by
  match xs, h with
  | [x, y], _ => exact .inl ⟨x, y, rfl⟩
  | [x, y, z], _ => exact .inr ⟨x, y, z, rfl⟩

theorem perform_eq {b : Builtin} {args : List Value} (h : b.arity.accepts args.length = true) :
    perform crash e scope b args = Core.perform e scope b args := by
  cases b with
  | add | multiply => exact foldNumbers_number _ _ _ args
  | subtract =>
    obtain ⟨x, more, rfl⟩ := nonempty h
    exact foldBehind_eq crash "-" _ 0 x more
  | divide =>
    obtain ⟨x, more, rfl⟩ := nonempty h
    show foldBehind crash "/" (divide crash) 1 (x :: more) = _
    rw [divide_eq]
    exact foldBehind_eq crash "/" _ 1 x more
  | quot | rem | mod =>
    obtain ⟨x, y, rfl⟩ := pair h
    exact binaryNumbers_eq crash _ _ x y
  | inc | dec =>
    obtain ⟨x, rfl⟩ := single h
    exact nextNumber_eq crash _ _ x
  | max | min =>
    obtain ⟨x, more, rfl⟩ := nonempty h
    exact extremum_eq crash _ _ x more
  | numEqual | less | lessEqual | greater | greaterEqual => exact compareChain_eq crash _ _ args
  | equal =>
    show (allEqual crash e args >>= _) = _
    rw [allEqual_eq]
    rfl
  | hashMap => exact hashMap_eq crash args
  | cons | contains | nsUnmap =>
    obtain ⟨x, y, rfl⟩ := pair h
    rfl
  | nth | get | reduce =>
    obtain ⟨x, y, rfl⟩ | ⟨x, y, z, rfl⟩ := pairAndOne h
    · rfl
    · rfl
  | subs =>
    obtain ⟨x, y, rfl⟩ | ⟨x, y, z, rfl⟩ := pairAndOne h
    · exact subs_eq crash x y []
    · exact subs_eq crash x y [z]
  | assoc =>
    obtain ⟨x, more, rfl⟩ := nonempty h
    exact assoc_eq crash x more
  | dissoc =>
    obtain ⟨x, more, rfl⟩ := nonempty h
    exact dissoc_eq crash x more
  | conj =>
    obtain ⟨x, more, rfl⟩ := nonempty h
    exact conj_eq crash x more
  | symbol =>
    obtain ⟨x, rfl⟩ | ⟨x, y, rfl⟩ := oneOrTwo h
    · rfl
    · rfl
  | keyword =>
    obtain ⟨x, rfl⟩ | ⟨x, y, rfl⟩ := oneOrTwo h
    · cases x <;> rfl
    · rfl
  | reFind =>
    obtain ⟨x, y, rfl⟩ := pair h
    exact reFind_eq crash x y
  | reMatches =>
    obtain ⟨x, y, rfl⟩ := pair h
    exact reMatches_eq crash x y
  | list | vector | concat | str | print | println | pr | prn | gensym => rfl
  | _ =>
    obtain ⟨x, rfl⟩ := single h
    rfl

/-- Without the check, a body does crash. -/
example (f : Value) : perform crash e scope .reduce [f] = crash Value := rfl

theorem call_eq (b : Builtin) (args : List Value) :
    call crash e scope b args = Core.call e scope b args := by
  unfold call Core.call
  split
  · rename_i h
    exact perform_eq crash h
  · rfl

end

end Positional

end LazyLisp
