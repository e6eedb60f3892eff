import Std.Data.HashMap
import LazyLisp.Pattern.ByteSequence
import LazyLisp.Pattern.Tree

/-!
The size of an expression: the bytes that its automaton over bytes takes. Patterns beyond a limit
are refused, so the count follows the construction of the automaton state by state, once for
matching forward and once for matching backward.
-/

namespace LazyLisp.Pattern
set_option autoImplicit false

/-- The bytes that a pattern may take in either direction. -/
def sizeLimit : Nat := 10485760

/-- The bytes of a state, of a transition of a state with several, and of a branch. -/
def stateSize : Nat := 32
def transitionSize : Nat := 8
def branchSize : Nat := 4

/-- The states made so far and the bytes of their transitions and branches. -/
structure Meter where
  states : Nat := 0
  extra : Nat := 0

def Meter.bytes (m : Meter) : Nat := stateSize * m.states + m.extra

/-- Counting, which ends as soon as the limit is passed. -/
abbrev Count := StateT Meter Option

namespace Count

def checked (m : Meter) : Count Unit :=
  if sizeLimit < m.bytes then failure else set m

/-- Makes a state with some bytes of its own and returns its number. -/
def state (extra : Nat) : Count Nat := do
  let m ← get
  checked { states := m.states + 1, extra := m.extra + extra }
  return m.states

def states : Nat → Count Unit
  | 0 => pure ()
  | n + 1 => do let _ ← state 0; states n

def branch : Count Unit := do
  let m ← get
  checked { m with extra := m.extra + branchSize }

/-- Connects the end of a part; an end that is a choice gets one more branch. -/
def connect (isChoice : Bool) : Count Unit := if isChoice then branch else pure ()

/-- Does a part several times, one after the other, and returns what the last one ends in. -/
def exactly (part : Count Bool) : Nat → Count Bool
  | 0 => do let _ ← state 0; return false
  | n + 1 => go n part
where
  go : Nat → Count Bool → Count Bool
    | 0, done => done
    | n + 1, done => go n (do
        let isChoice ← done
        let next ← part
        connect isChoice
        return next)

/-- Optional parts, each of which leaves for one common end. -/
def optional (part : Count Bool) : Nat → Bool → Count Bool
  | 0, isChoice => return isChoice
  | n + 1, isChoice => do
    let _ ← state 0
    let next ← part
    connect isChoice
    branch
    branch
    optional part n next

end Count

/-- A hash of numbers that picks the place of an entry in a small table. -/
def slotOf (size : UInt64) (key : List Nat) : UInt64 :=
  (key.foldl (fun (h : UInt64) n => (h ^^^ n.toUInt64) * 1099511628211) 14695981039346656037) % size

/-- A table with a fixed number of places. A new entry drives out an older one in its place. -/
abbrev Memo := Std.HashMap UInt64 (List Nat × Nat)

def remembered (size : UInt64) (memo : Memo) (key : List Nat) (extra : Nat) :
    Count (Nat × Memo) := do
  let slot := slotOf size key
  match memo[slot]? with
  | some (known, id) =>
    if known == key then return (id, memo)
    else
      let id ← Count.state extra
      return (id, memo.insert slot (key, id))
  | none =>
    let id ← Count.state extra
    return (id, memo.insert slot (key, id))

/-- The sequences that start with the same range as the first one, without that range, and the
other sequences. -/
def spanFirst (r : Nat × Nat) : List ByteSequence → List ByteSequence × List ByteSequence
  | (x :: xs) :: rest =>
    if x = r then
      let (same, others) := spanFirst r rest
      (xs :: same, others)
    else ([], (x :: xs) :: rest)
  | rest => ([], rest)

/-- Collects the transitions of a state that matches one of `n` sequences at most, and makes the
state. What follows a first byte is counted by `below`. -/
def transitions (target : Nat) (below : List ByteSequence → Memo → Count (Nat × Memo)) :
    Nat → List ByteSequence → List Nat → Memo → Count (Nat × Memo)
  | n + 1, (r :: rs) :: rest, key, memo => do
    let (same, others) := spanFirst r rest
    let (next, memo) ← if rs.isEmpty then pure (target, memo) else below (rs :: same) memo
    transitions target below n others (key ++ [r.1, r.2, next]) memo
  | _, _, key, memo => remembered 10000 memo key (transitionSize * (key.length / 3))

/-- Counts the states that match one of the sequences and go on at `target`. Sequences with a
common start share it, and states with the same transitions are made once while remembered. The
first argument is the length of the longest sequence. -/
def forwardStates (target : Nat) : Nat → List ByteSequence → Memo → Count (Nat × Memo)
  | 0, _, memo => return (target, memo)
  | length + 1, sequences, memo =>
    transitions target (forwardStates target length) sequences.length sequences [] memo

/-- Counts the states of one sequence from its first byte on, each of which is made once for the
state behind it while remembered. -/
def backwardStates (target : Nat) : ByteSequence → Memo → Count Memo
  | [], memo => return memo
  | r :: rs, memo => do
    let (id, memo) ← remembered 1000 memo [target, r.1, r.2] 0
    backwardStates id rs memo

def backwardAll (target : Nat) : List ByteSequence → Memo → Count Unit
  | [], _ => pure ()
  | s :: ss, memo => do
    let memo ← backwardStates target s memo
    Count.branch
    backwardAll target ss memo

def countSet (backward : Bool) (set : CharSet) : Count Unit := do
  if set.all fun r => r.2 < 128 then
    let _ ← Count.state 0
    let _ ← Count.state (transitionSize * set.length)
  else if backward then
    let _ ← Count.state 0
    let target ← Count.state 0
    backwardAll target (ByteSequence.ofSet set) ∅
  else
    let target ← Count.state 0
    let _ ← forwardStates target 4 (ByteSequence.ofSet set) ∅

def bytesOf (text : List Char) : List Nat := text.flatMap fun c => ByteSequence.utf8 c.toNat

/-- The words without the empty ones, split where an empty word stood, and the number of empty
words that count: at the front only one does. -/
def splitWords : List (List Nat) → List (List (List Nat)) × Nat
  | [] => ([[]], 0)
  | w :: ws =>
    let (segments, n) := splitWords ws
    if w.isEmpty then ([] :: segments, n + 1)
    else (((w :: segments.headD []) :: segments.tail), n)

/-- Counts the states of a tree of words below one of its nodes. -/
def countWords : Nat → List (List Nat) → Count Unit
  | 0, _ => pure ()
  | fuel + 1, words => do
    let (front, rest) := (words.takeWhile (·.isEmpty), words.dropWhile (·.isEmpty))
    let (segments, later) := splitWords rest
    let matched := later + min front.length 1
    let filled := segments.filter fun s => !s.isEmpty
    for segment in filled do
      let firsts := (segment.filterMap (·.head?)).eraseDups
      for b in firsts do
        let below := (segment.filter fun w => w.head? == some b).map (·.tail)
        if below.any fun w => !w.isEmpty then countWords fuel below
      let _ ← Count.state (if firsts.length = 1 then 0 else transitionSize * firsts.length)
    let _ ← Count.state (branchSize * (matched + filled.length))

def wordsOf? (ts : List Tree) : Option (List (List Nat)) :=
  ts.mapM fun t =>
    match t with
    | .literal text => some (bytesOf text)
    | _ => none

namespace Tree

mutual

/-- Counts an expression; the answer says whether it ends in a choice. -/
def count (backward : Bool) : Tree → Count Bool
  | empty => do let _ ← Count.state 0; return false
  | literal text => do Count.states (bytesOf text).length; return false
  | chars set => do countSet backward set; return false
  | assertion _ => do let _ ← Count.state 0; return false
  | group _ body =>
    if backward then body.count backward
    else do
      let _ ← Count.state 0
      let isChoice ← body.count backward
      let _ ← Count.state 0
      Count.connect isChoice
      return false
  | sequence parts => do
    if backward then countBackward parts else countForward parts
  | choice parts => do
    match wordsOf? parts with
    | some words =>
      let words := if backward then words.map List.reverse else words
      let _ ← Count.state 0
      countWords (words.flatten.length + 1) words
    | none => countChoice backward parts
    return false
  | repeated body least most _ => do
    let part := body.count backward
    match least, most with
    | 0, some 1 =>
      let _ ← Count.state 0
      let isChoice ← part
      let _ ← Count.state 0
      Count.branch
      Count.branch
      Count.connect isChoice
      return false
    | 0, none =>
      if body.takesSome then
        let _ ← Count.state 0
        let isChoice ← part
        Count.branch
        Count.connect isChoice
        return true
      else
        let isChoice ← part
        let _ ← Count.state 0
        Count.connect isChoice
        Count.branch
        let _ ← Count.state 0
        let _ ← Count.state 0
        Count.branch
        Count.branch
        Count.branch
        return false
    | least, none =>
      let isChoice ← Count.exactly part least
      let _ ← Count.state 0
      Count.connect isChoice
      Count.branch
      return true
    | least, some most =>
      let isChoice ← Count.exactly part least
      if least = most then return isChoice
      let _ ← Count.state 0
      let isChoice ← Count.optional part (most - least) isChoice
      Count.connect isChoice
      return false

def countForward : List Tree → Count Bool
  | [] => do let _ ← Count.state 0; return false
  | [t] => t.count false
  | t :: ts => do
    let isChoice ← t.count false
    let last ← countForward ts
    Count.connect isChoice
    return last

def countBackward : List Tree → Count Bool
  | [] => do let _ ← Count.state 0; return false
  | [t] => t.count true
  | t :: ts => do
    let isChoice ← countBackward ts
    let last ← t.count true
    Count.connect isChoice
    return last

/-- Counts the branches of a choice; the states of the choice itself come behind its second
branch. -/
def countChoice (backward : Bool) : List Tree → Count Unit
  | [] => pure ()
  | [t] => do let _ ← t.count backward
  | first :: second :: rest => do
    let a ← first.count backward
    let b ← second.count backward
    let _ ← Count.state 0
    let _ ← Count.state 0
    Count.branch
    Count.connect a
    Count.branch
    Count.connect b
    countBranches backward rest

def countBranches (backward : Bool) : List Tree → Count Unit
  | [] => pure ()
  | t :: ts => do
    let isChoice ← t.count backward
    Count.branch
    Count.connect isChoice
    countBranches backward ts

end

mutual

/-- Whether every match has to begin at the start of the text. -/
def startsText : Tree → Bool
  | assertion .textStart => true
  | group _ body => body.startsText
  | sequence parts => startsTextSome parts
  | choice parts => startsTextAll parts
  | repeated body least _ _ => decide (0 < least) && body.startsText
  | _ => false

/-- One of the parts in front of the first character does. -/
def startsTextSome : List Tree → Bool
  | [] => false
  | t :: ts => t.startsText || (t.onlyEmpty && startsTextSome ts)

def startsTextAll : List Tree → Bool
  | [] => true
  | t :: ts => t.startsText && startsTextAll ts

end

mutual

/-- Whether every match has to stop at the end of the text. -/
def endsText : Tree → Bool
  | assertion .textEnd => true
  | group _ body => body.endsText
  | sequence parts => (endsTextSome parts).1
  | choice parts => endsTextAll parts
  | repeated body least _ _ => decide (0 < least) && body.endsText
  | _ => false

/-- Whether one of the parts behind the last character does, and whether no part takes a
character. -/
def endsTextSome : List Tree → Bool × Bool
  | [] => (false, true)
  | t :: ts =>
    let (found, allEmpty) := endsTextSome ts
    (found || (allEmpty && t.endsText), allEmpty && t.onlyEmpty)

def endsTextAll : List Tree → Bool
  | [] => true
  | t :: ts => t.endsText && endsTextAll ts

end

/-- Counts the automaton that finds an expression anywhere in a text. -/
def countWhole (backward : Bool) (t : Tree) : Count Unit := do
  let anchored := if backward then t.endsText else t.startsText
  if anchored then
    let _ ← Count.state 0
  else
    let _ ← Count.state branchSize
    let _ ← Count.state 0
    let _ ← Count.state transitionSize
  let isChoice ← (group 0 t).count backward
  let _ ← Count.state 0
  Count.connect isChoice
  if !anchored then Count.branch

/-- Whether an expression stays within the limit in both directions. -/
def fits (t : Tree) : Bool :=
  ((t.countWhole false).run {}).isSome && ((t.countWhole true).run {}).isSome

end Tree

end LazyLisp.Pattern
