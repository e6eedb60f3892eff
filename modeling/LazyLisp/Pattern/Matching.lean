import LazyLisp.Pattern.Footprint
import LazyLisp.Pattern.Grammar
import LazyLisp.Pattern.Meaning
import LazyLisp.Pattern.Program

/-!
Running patterns over text. The leftmost match is found, and among those the one that the
ordered choices prefer. An instruction is tried at most once per position, so the search takes
time proportional to the length of the program and of the text.
-/

namespace LazyLisp.Pattern
set_option autoImplicit false

/-- Why a source is no pattern. -/
inductive PatternError
  | malformed
  | tooLarge
deriving DecidableEq, Repr

def PatternError.message : PatternError → String
  | malformed => "regex parse error:"
  | tooLarge => "Compiled regex exceeds size limit of 10485760 bytes."

/-- The tree of a well-formed source. -/
def tree? (source : String) : Option Tree := do
  let (t, _) ← (← parse? source).resolve? {}
  return t

def compile (source : String) : Except PatternError Program :=
  match tree? source with
  | none => .error .malformed
  | some t => if t.fits then .ok (.ofTree t) else .error .tooLarge

/-- Whether an assertion holds between two characters. -/
def Assertion.holds (a : Assertion) (before after : Option Char) : Bool :=
  let isWord := fun (words : CharSet) (c : Option Char) => c.any fun c => CharSet.contains words c
  match a with
  | .textStart => before.isNone
  | .textEnd => after.isNone
  | .lineStart => before.all (· == '\n')
  | .lineEnd => after.all (· == '\n')
  | .crlfStart => before.all fun c => c == '\n' || (c == '\r' && after != some '\n')
  | .crlfEnd => after.all fun c => c == '\r' || (c == '\n' && before != some '\r')
  | .wordEdge w => isWord w before != isWord w after
  | .notWordEdge w => isWord w before == isWord w after
  | .wordStart w => !isWord w before && isWord w after
  | .wordEnd w => isWord w before && !isWord w after
  | .wordStartHalf w => !isWord w before
  | .wordEndHalf w => !isWord w after

/-- What is left to try: an instruction at a position, or a slot to set back. -/
inductive Task
  | visit (address position : Nat)
  | restore (slot : Nat) (old : Option Nat)

structure Search where
  visited : Array Bool
  slots : Array (Option Nat)

/-- Works off the tasks until one succeeds. -/
def Program.explore (p : Program) (text : Array Char) : Nat → List Task → Search → Bool × Search
  | 0, _, s => (false, s)
  | _, [], s => (false, s)
  | fuel + 1, .restore slot old :: tasks, s =>
    p.explore text fuel tasks { s with slots := s.slots.setIfInBounds slot old }
  | fuel + 1, .visit address i :: tasks, s =>
    let key := address * (text.size + 1) + i
    if s.visited[key]?.getD true then p.explore text fuel tasks s
    else
      let s := { s with visited := s.visited.setIfInBounds key true }
      match p.code[address]? with
      | none => p.explore text fuel tasks s
      | some .done => (true, s)
      | some (.chars set next) =>
        if text[i]?.any fun c => CharSet.contains set c then
          p.explore text fuel (.visit next (i + 1) :: tasks) s
        else p.explore text fuel tasks s
      | some (.assertion a next) =>
        let before := if i = 0 then none else text[i - 1]?
        if a.holds before text[i]? then p.explore text fuel (.visit next i :: tasks) s
        else p.explore text fuel tasks s
      | some (.save slot next) =>
        let old := (s.slots[slot]?).join
        p.explore text fuel (.visit next i :: .restore slot old :: tasks)
          { s with slots := s.slots.setIfInBounds slot (some i) }
      | some (.fork first second) =>
        p.explore text fuel (.visit first i :: .visit second i :: tasks) s

/-- Tries the starts from position `i` on, `n` of them. -/
def Program.searchFrom (p : Program) (text : Array Char) (fuel : Nat) :
    Nat → Nat → Search → Option (Array (Option Nat))
  | 0, _, _ => none
  | n + 1, i, s =>
    match p.explore text fuel [.visit p.start i] s with
    | (true, s) => some s.slots
    | (false, s) =>
      p.searchFrom text fuel n (i + 1) { s with slots := s.slots.map fun _ => none }

/-- The texts of the groups of the first match; a group that took no part is absent. -/
def Program.find? (p : Program) (source : String) : Option (List (Option String)) :=
  let text := source.toList.toArray
  let cells := p.code.size * (text.size + 1)
  let start : Search := ⟨Array.replicate cells false, Array.replicate (2 * p.groups) none⟩
  (p.searchFrom text (4 * cells + 4) (text.size + 1) 0 start).map fun slots =>
    (List.range p.groups).map fun g =>
      match (slots[2 * g]?).join, (slots[2 * g + 1]?).join with
      | some a, some b => some (String.ofList (text.extract a b).toList)
      | _, _ => none

/-- The groups of the first match of a pattern in a text. -/
def find? (source text : String) : Option (List (Option String)) :=
  (compile source).toOption.bind fun p => p.find? text

/-- The groups of a match that spans the whole text. -/
def matchAll? (source text : String) : Option (List (Option String)) :=
  find? ("^(?:" ++ source ++ ")$") text

end LazyLisp.Pattern
