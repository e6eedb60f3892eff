import LazyLisp.Engine
import LazyLisp.Text.Bytes

/-!
Walking sequences. A lazy cell runs its thunk when it is first looked at and keeps the outcome,
be it a sequence or an error; looking at a cell from inside its own thunk is an error.
-/

namespace LazyLisp.Seq
set_option autoImplicit false

/-- Runs a thunk; its value has to be a collection. -/
def produce (e : Engine) (thunk : Value) : Eval Seq := do
  if !(← get).attached then fail .detached
  let v ← e.apply none thunk []
  match v.toSeq? with
  | some s => return s
  | none =>
    fail (.invalidArgument "lazy-seq" ("body must produce a seqable value, got " ++ v.typeName))

/-- Runs a pending cell and keeps what comes of it. -/
def run (e : Engine) (cell : CellId) (thunk : Value) : Eval Seq := do
  modify fun w => w.setCell cell .realizing
  fun w =>
    match produce e thunk w with
    | .ok s w => .ok s (w.setCell cell (.realized s))
    | .error (.error err) w => .error (.error err) (w.setCell cell (.failed err))
    | .error .exhausted w => .error .exhausted w

/-- The sequence behind a lazy cell. -/
def realize (e : Engine) (cell : CellId) : Eval Seq := do
  match (← get).cells[cell]? with
  | some (.realized s) => return s
  | some (.failed err) => fail err
  | some .realizing =>
    fail (.invalidArgument "lazy-seq" "lazy sequence depends on its own realization")
  | some (.pending thunk) => run e cell thunk
  | none => fail .detached

/-- Locates the first part of a concatenation that is not empty; it comes with the parts behind it.
`more` goes on behind a part that is used up. -/
def settle (isEmpty : Seq → Eval Bool) (more : List Seq → Eval (Option (Seq × List Seq)))
    (current : Seq) (parts : List Seq) : Eval (Option (Seq × List Seq)) := do
  if ← isEmpty current then more parts else return some (current, parts)

/-! Every kind of sequence answers by tests of its own, within a number of steps. -/

mutual

def isEmptyWithin (e : Engine) : Nat → Seq → Eval Bool
  | 0, _ => throw .exhausted
  | _ + 1, .empty => return true
  | _ + 1, .cons _ _ => return false
  | _ + 1, .vectorView items i => return decide (items.length ≤ i)
  | _ + 1, .textView text offset => return decide (Text.byteLength text.toList ≤ offset)
  | _ + 1, .entryView entries i => return decide (entries.length ≤ i)
  | n + 1, .lazy cell => do isEmptyWithin e n (← realize e cell)
  | n + 1, .concat current parts =>
    return (← settle (isEmptyWithin e n) (nextWithin e n) current parts).isNone

/-- Goes on to the first of the parts that is not empty. -/
def nextWithin (e : Engine) : Nat → List Seq → Eval (Option (Seq × List Seq))
  | _, [] => return none
  | 0, _ :: _ => throw .exhausted
  | n + 1, next :: rest => settle (isEmptyWithin e n) (nextWithin e n) next rest

end

def settleWithin (e : Engine) (n : Nat) (current : Seq) (parts : List Seq) :
    Eval (Option (Seq × List Seq)) :=
  settle (isEmptyWithin e n) (nextWithin e n) current parts

def firstWithin (e : Engine) : Nat → Seq → Eval (Option Value)
  | 0, _ => throw .exhausted
  | _ + 1, .empty => return none
  | _ + 1, .cons head _ => return some head
  | _ + 1, .vectorView items i => return items[i]?
  | _ + 1, .textView text offset => return (Text.charsFrom text.toList offset).head?.map .char
  | _ + 1, .entryView entries i => return entries[i]?.map fun (k, v) => .vector [k, v]
  | n + 1, .lazy cell => do firstWithin e n (← realize e cell)
  | n + 1, .concat current parts => do
    match ← settleWithin e n current parts with
    | some (current, _) => firstWithin e n current
    | none => return none

/-- The view of so many items behind the one at a position. -/
def indexRest (view : Nat → Seq) (count i : Nat) : Seq :=
  if count ≤ i + 1 then .empty else view (i + 1)

/-- The view of a text behind the character at a byte offset. -/
def textRest (text : String) (offset : Nat) : Seq :=
  match Text.charsFrom text.toList offset with
  | c :: _ =>
    if offset + c.utf8Size < Text.byteLength text.toList then .textView text (offset + c.utf8Size)
    else .empty
  | [] => .empty

def restWithin (e : Engine) : Nat → Seq → Eval Seq
  | 0, _ => throw .exhausted
  | _ + 1, .empty => return .empty
  | _ + 1, .cons _ tail => return tail
  | _ + 1, .vectorView items i => return indexRest (.vectorView items) items.length i
  | _ + 1, .textView text offset => return textRest text offset
  | _ + 1, .entryView entries i => return indexRest (.entryView entries) entries.length i
  | n + 1, .lazy cell => do restWithin e n (← realize e cell)
  | n + 1, .concat current parts => do
    match ← settleWithin e n current parts with
    | some (current, parts) => return .concat (← restWithin e n current) parts
    | none => return .empty

/-- The head of a sequence, absent if it is empty. -/
def first? (e : Engine) (s : Seq) : Eval (Option Value) := firstWithin e e.bound s

/-- What follows the head; the empty sequence is followed by itself. -/
def rest (e : Engine) (s : Seq) : Eval Seq := restWithin e e.bound s

def isEmpty (e : Engine) (s : Seq) : Eval Bool := isEmptyWithin e e.bound s

/-- One step of an iteration: the head, and then what follows it. -/
def uncons (e : Engine) (s : Seq) : Eval (Option (Value × Seq)) := do
  match ← s.first? e with
  | none => return none
  | some head => return some (head, ← s.rest e)

/-- Feeds the elements in order to a step, within a number of elements. -/
def foldWithin {β : Type} (e : Engine) (step : β → Value → Eval β) : Nat → Seq → β → Eval β
  | 0, _, _ => throw .exhausted
  | n + 1, s, b => do
    match ← s.uncons e with
    | none => return b
    | some (head, tail) =>
      let b ← step b head
      foldWithin e step n tail b

/-- Feeds the elements in order to a step. -/
def fold {β : Type} (e : Engine) (step : β → Value → Eval β) (s : Seq) (b : β) : Eval β :=
  foldWithin e step e.bound s b

/-- All elements of a sequence in order. -/
def toList (e : Engine) (s : Seq) : Eval (List Value) := do
  let items ← s.fold e (fun (acc : Array Value) v => return acc.push v) #[]
  return items.toList

end LazyLisp.Seq
