import LazyLisp.CharSet.Derived
import LazyLisp.Pattern.Expression
import LazyLisp.Text.Blank

/-!
Reading regular expressions: alternation, concatenation, repetition, groups with names and
flags, bracketed classes with set operations, escapes. Every ill-formed expression is refused;
which rule it breaks is not told apart.
-/

namespace LazyLisp.Pattern
set_option autoImplicit false

structure Input where
  rest : List Char
  /-- Blanks and comments mean nothing. -/
  verbose : Bool := false
  groups : Nat := 0
  names : List String := []

abbrev Parse := StateT Input Option

namespace Parse

def peek : Parse (Option Char) := return (← get).rest.head?

def peekSecond : Parse (Option Char) := return (← get).rest.tail.head?

def bump : Parse Unit := modify fun i => { i with rest := i.rest.tail }

def accept (text : String) : Parse Bool := do
  let cs := text.toList
  let i ← get
  if i.rest.take cs.length == cs then
    set { i with rest := i.rest.drop cs.length }
    return true
  else return false

/-- The input behind blanks and comments. -/
def dropSpace (inComment : Bool) : List Char → List Char
  | [] => []
  | c :: cs =>
    if inComment then dropSpace (c != '\n') cs
    else if Text.isBlank c then dropSpace false cs
    else if c == '#' then dropSpace true cs
    else c :: cs

def space : Parse Unit := modify fun i =>
  if i.verbose then { i with rest := dropSpace false i.rest } else i

def bumpSpace : Parse Unit := do bump; space

/-- A look at what follows the next character. In verbose mode blanks are passed over, and the
sign of a comment too, but not the comment. -/
def peekSpace : Parse (Option Char) := do
  let i ← get
  let rest := i.rest.tail
  if !i.verbose then return rest.head?
  match rest.dropWhile Text.isBlank with
  | '#' :: comment => return (comment.dropWhile Text.isBlank).head?.or rest.head?
  | found => return found.head?.or rest.head?

/-- The next character; there has to be one. -/
def need : Parse Char := do
  match ← peek with
  | some c => return c
  | none => failure

/-- Characters that satisfy `p`, blanks and comments between them left out in verbose mode. -/
def spaced (p : Char → Bool) : Nat → Parse (List Char)
  | 0 => failure
  | fuel + 1 => do
    match ← peek with
    | none => return []
    | some c =>
      if p c then
        bumpSpace
        return c :: (← spaced p fuel)
      else return []

def blanks : Parse Unit := modify fun i => { i with rest := i.rest.dropWhile Text.isBlank }

/-- Decimal digits, blanks before and after them allowed. -/
def decimal? (fuel : Nat) : Parse (Option Nat) := do
  blanks
  let digits ← spaced Char.isDigit fuel
  blanks
  if digits.isEmpty then return none
  let n := digits.foldl (fun n c => n * 10 + (c.toNat - '0'.toNat)) 0
  if UInt32.size ≤ n then failure
  return some n

end Parse

open Parse

def hexDigitValue? (c : Char) : Option Nat :=
  if c.isDigit then some (c.toNat - '0'.toNat)
  else if 'a' ≤ c ∧ c ≤ 'f' then some (c.toNat - 'a'.toNat + 10)
  else if 'A' ≤ c ∧ c ≤ 'F' then some (c.toNat - 'A'.toNat + 10)
  else none

/-- The character with the number that digits write. -/
def scalar (digits : List Char) : Parse Char :=
  let n := digits.foldl (fun n c => n * 16 + (hexDigitValue? c).getD 0) 0
  if n.isValidChar then pure (Char.ofNat n) else failure

def hexDigits : Nat → Parse (List Char)
  | 0 => return []
  | k + 1 => do
    let c ← need
    if (hexDigitValue? c).isNone then failure
    bumpSpace
    return c :: (← hexDigits k)

/-- Characters up to a closing brace, which is taken too. -/
def braced (fuel : Nat) : Parse (List Char) := do
  bumpSpace
  let body ← spaced (· != '\x7d') fuel
  let _ ← need
  bump
  return body

/-- What one escape or plain character stands for. -/
inductive Primitive
  | letter (l : Letter)
  | named (s : NamedSet)
  | position (p : Position)

def isMeta (c : Char) : Bool := "\\.+*?()|[]\x7b\x7d^$#&-~".toList.contains c

/-- ASCII characters that may carry a needless backslash. -/
def isEscapable (c : Char) : Bool :=
  isMeta c || (c.toNat < 128 && !c.isAlphanum && c != '<' && c != '>')

/-- The text in front of a sign and the text behind it, cut at its first place. -/
def cutAt (sign : List Char) : List Char → Option (List Char × List Char)
  | [] => none
  | c :: cs =>
    if (c :: cs).take sign.length == sign then some ([], (c :: cs).drop sign.length)
    else (cutAt sign cs).map fun (before, behind) => (c :: before, behind)

/-- A property between braces: a name, or a name and a value with a sign between them. The
flag says whether the sign was that of inequality. -/
def propertyName (body : List Char) : PropertyName × Bool :=
  let valued (parts : List Char × List Char) : PropertyName :=
    .valued (String.ofList parts.1) (String.ofList parts.2)
  match cutAt ['!', '='] body with
  | some parts => (valued parts, true)
  | none =>
    match (cutAt [':'] body).or (cutAt ['='] body) with
    | some parts => (valued parts, false)
    | none => (.alone (String.ofList body), false)

/-- The name in a property escape: one letter, or braces. -/
def property (negated : Bool) (fuel : Nat) : Parse NamedSet := do
  bumpSpace
  let c ← need
  if c == '\x7b' then
    let (name, unequal) := propertyName (← braced fuel)
    return .property name (negated != unequal)
  else
    bump
    return .property (.alone c.toString) negated

/-- The special word boundaries spelled in braces, or none if a count follows. -/
def namedBoundary (fuel : Nat) : Parse (Option Position) := do
  let before ← get
  bumpSpace
  let isPart := fun (c : Char) => c.isAlpha || c == '-'
  if !isPart (← need) then
    set before
    return none
  let name ← spaced isPart fuel
  if (← peek) != some '\x7d' then failure
  bump
  match String.ofList name with
  | "start" => return some .wordStart
  | "end" => return some .wordEnd
  | "start-half" => return some .wordStartHalf
  | "end-half" => return some .wordEndHalf
  | _ => failure

/-- An escape, its backslash taken. -/
def escape (fuel : Nat) : Parse Primitive := do
  let c ← need
  match c with
  | 'x' | 'u' | 'U' =>
    bumpSpace
    if (← need) == '\x7b' then
      let digits ← braced fuel
      if digits.isEmpty || digits.any (fun d => (hexDigitValue? d).isNone) then failure
      return .letter ⟨← scalar digits, false⟩
    else
      let digits ← hexDigits (if c == 'x' then 2 else if c == 'u' then 4 else 8)
      return .letter ⟨← scalar digits, c == 'x'⟩
  | 'p' => return .named (← property false fuel)
  | 'P' => return .named (← property true fuel)
  | _ =>
    bump
    match c with
    | 'd' => return .named (.family .digit false)
    | 'D' => return .named (.family .digit true)
    | 's' => return .named (.family .space false)
    | 'S' => return .named (.family .space true)
    | 'w' => return .named (.family .word false)
    | 'W' => return .named (.family .word true)
    | 'a' => return .letter ⟨'\x07', false⟩
    | 'f' => return .letter ⟨'\x0c', false⟩
    | 't' => return .letter ⟨'\t', false⟩
    | 'n' => return .letter ⟨'\n', false⟩
    | 'r' => return .letter ⟨'\r', false⟩
    | 'v' => return .letter ⟨'\x0b', false⟩
    | 'A' => return .position .textStart
    | 'z' => return .position .textEnd
    | 'B' => return .position .notWordEdge
    | '<' => return .position .wordStart
    | '>' => return .position .wordEnd
    | 'b' =>
      if (← peek) == some '\x7b' then
        return .position ((← namedBoundary fuel).getD .wordEdge)
      else return .position .wordEdge
    | _ => if isEscapable c then return .letter ⟨c, false⟩ else failure

def classPrimitive (fuel : Nat) : Parse Primitive := do
  let c ← need
  bump
  if c == '\\' then escape fuel else return .letter ⟨c, false⟩

def asciiClass? : String → Option CharSet
  | "alnum" => some [(48, 57), (65, 90), (97, 122)]
  | "alpha" => some [(65, 90), (97, 122)]
  | "ascii" => some [(0, 127)]
  | "blank" => some [(9, 9), (32, 32)]
  | "cntrl" => some [(0, 31), (127, 127)]
  | "digit" => some [(48, 57)]
  | "graph" => some [(33, 126)]
  | "lower" => some [(97, 122)]
  | "print" => some [(32, 126)]
  | "punct" => some [(33, 47), (58, 64), (91, 96), (123, 126)]
  | "space" => some [(9, 13), (32, 32)]
  | "upper" => some [(65, 90)]
  | "word" => some [(48, 57), (65, 90), (95, 95), (97, 122)]
  | "xdigit" => some [(48, 57), (65, 70), (97, 102)]
  | _ => none

/-- A named ASCII class such as `[:alpha:]`, if one starts here. -/
def asciiClass : Parse (Option ClassSet) := do
  let before ← get
  if !(← accept "[:") then return none
  let negated ← accept "^"
  let name := (← get).rest.takeWhile (· != ':')
  modify fun i => { i with rest := i.rest.drop name.length }
  if ← accept ":]" then
    match asciiClass? (String.ofList name) with
    | some s => return some (.named (.ascii s negated))
    | none => set before; return none
  else
    set before
    return none

/-- Leading hyphens of a class are plain characters. -/
def leadingHyphens : Nat → Parse (List ClassSet)
  | 0 => failure
  | fuel + 1 => do
    if (← need) == '-' then
      bumpSpace
      return .letter ⟨'-', false⟩ :: (← leadingHyphens fuel)
    else return []

/-- An item of a class or the range that it starts. -/
def classItem (fuel : Nat) : Parse ClassSet := do
  let first ← classPrimitive fuel
  space
  let next ← need
  let behind ← peekSpace
  if next != '-' || behind == some ']' || behind == some '-' then
    match first with
    | .letter l => return .letter l
    | .named s => return .named s
    | .position _ => failure
  else
    bumpSpace
    let _ ← need
    let second ← classPrimitive fuel
    match first, second with
    | .letter a, .letter b => if a.char ≤ b.char then return .range a b else failure
    | _, _ => failure

/-- The left side of a set operation with its right side, given the newest item first. -/
def closeOperation (left : Option (ClassSet × SetOp)) (items : List ClassSet) : ClassSet :=
  let right := ClassSet.ofItems items.reverse
  match left with
  | none => right
  | some (a, op) => .operation op a right

/-- A bracketed class from its opening bracket on: whether it is negated, and its contents. -/
def bracketed : Nat → Parse (Bool × ClassSet)
  | 0 => failure
  | fuel + 1 => do
    bumpSpace
    let negated := (← need) == '^'
    if negated then bumpSpace
    let hyphens ← leadingHyphens fuel
    let start : List ClassSet ← do
      if hyphens.isEmpty && (← need) == ']' then
        bumpSpace
        let _ ← need
        pure [.letter ⟨']', false⟩]
      else pure hyphens
    let rec items (left : Option (ClassSet × SetOp)) (done : List ClassSet) : Nat → Parse ClassSet
      | 0 => failure
      | n + 1 => do
        space
        let c ← need
        let second ← peekSecond
        if c == '[' then
          match ← asciiClass with
          | some s => items left (s :: done) n
          | none =>
            let (negated, body) ← bracketed fuel
            items left (.bracketed negated body :: done) n
        else if c == ']' then
          bump
          return closeOperation left done
        else if c == '&' && second == some '&' then
          bump; bump
          items (some (closeOperation left done, .inter)) [] n
        else if c == '-' && second == some '-' then
          bump; bump
          items (some (closeOperation left done, .diff)) [] n
        else if c == '~' && second == some '~' then
          bump; bump
          items (some (closeOperation left done, .symmDiff)) [] n
        else items left ((← classItem fuel) :: done) n
    return (negated, ← items none start fuel)

def flag? : Char → Option Flag
  | 'i' => some .ignoreCase
  | 'm' => some .multiLine
  | 's' => some .dotNewline
  | 'U' => some .swapGreed
  | 'u' => some .unicode
  | 'R' => some .crlf
  | 'x' => some .verbose
  | _ => none

/-- The flags of a flag group, up to its colon or closing parenthesis. A letter or the minus
may stand there once, and a letter has to follow the minus. -/
def flagList : Nat → List Char → Parse (List (Flag × Bool))
  | 0, _ => failure
  | fuel + 1, seen => do
    let c ← need
    if c == ':' || c == ')' then
      if seen.head? == some '-' then failure
      return []
    else if seen.contains c then failure
    else if c == '-' then
      bump
      flagList fuel (c :: seen)
    else
      match flag? c with
      | none => failure
      | some f =>
        bump
        return (f, !seen.contains '-') :: (← flagList fuel (c :: seen))

def isNameChar (first : Bool) (c : Char) : Bool :=
  c == '_' || CharSet.alphabetic.contains c ||
    (!first && (c == '.' || c == '[' || c == ']' || CharSet.numeric.contains c))

def groupName : Parse Unit := do
  let i ← get
  let name := i.rest.takeWhile (· != '>')
  if name.length = i.rest.length || name.isEmpty then failure
  if !(isNameChar true (name.headD ' ') && name.tail.all (isNameChar false)) then failure
  let text := String.ofList name
  if i.names.contains text then failure
  set { i with rest := i.rest.drop (name.length + 1), names := text :: i.names }

/-- What a parenthesis opens. -/
inductive Opening
  | captured (index : Nat)
  | flagged (changes : List (Flag × Bool))
  /-- Flags for the rest of the enclosing group. -/
  | flags (changes : List (Flag × Bool))

/-- Blanks and comments mean something again, or no longer. -/
def setVerbose (changes : List (Flag × Bool)) : Parse Unit :=
  match changes.find? fun c => c.1 == .verbose with
  | none => pure ()
  | some (_, on) => modify fun i => { i with verbose := on }

/-- The part of a group in front of its body. -/
def opening (fuel : Nat) : Parse Opening := do
  bump
  space
  let rest := (← get).rest
  let startsWith := fun (t : String) => rest.take t.length == t.toList
  if startsWith "?=" || startsWith "?!" || startsWith "?<=" || startsWith "?<!" then failure
  let next : Parse Nat := do
    let n := (← get).groups + 1
    modify fun i => { i with groups := n }
    return n
  if (← accept "?P<") || (← accept "?<") then
    let index ← next
    groupName
    return .captured index
  else if ← accept "?" then
    let changes ← flagList fuel []
    let c ← need
    bump
    if c == ')' then
      if changes.isEmpty then failure
      setVerbose changes
      return .flags changes
    else
      setVerbose changes
      return .flagged changes
  else return .captured (← next)

def counts (fuel : Nat) : Parse (Nat × Option Nat) := do
  bumpSpace
  let least ← decimal? fuel
  let c ← need
  let (a, b) ← do
    if c == ',' then
      bumpSpace
      if (← need) == '\x7d' then
        match least with
        | some n => pure (n, none)
        | none => failure
      else
        match least, ← decimal? fuel with
        | some n, some m => pure (n, some m)
        | _, _ => failure
    else match least with
      | some n => pure (n, some n)
      | none => failure
  if (← need) != '\x7d' then failure
  bumpSpace
  if b.any (· < a) then failure
  return (a, b)

def primitive (fuel : Nat) : Parse Expression := do
  let c ← need
  bump
  match c with
  | '\\' =>
    match ← escape fuel with
    | .letter l => return .letter l
    | .named s => return .named s
    | .position p => return .position p
  | '.' => return .dot
  | '^' => return .position .start
  | '$' => return .position .stop
  | _ => return .letter ⟨c, false⟩

/-- The alternatives read so far, the last one and the earlier ones given newest first. -/
def closeBranches (items branches : List Expression) : Expression :=
  Expression.ofBranches (Expression.ofParts items.reverse :: branches).reverse

/-- Alternatives up to a closing parenthesis or the end. `items` are those of the current
alternative and `branches` the earlier alternatives, newest first. -/
def alternatives : Nat → List Expression → List Expression → Parse Expression
  | 0, _, _ => failure
  | fuel + 1, items, branches => do
    space
    let repeatLast (least : Nat) (most : Option Nat) (mark : Parse Unit) : Parse Expression := do
      match items with
      | [] => failure
      | e :: before =>
        if e.isBlank then failure
        mark
        let lazy := (← peek) == some '?'
        if lazy then bump
        alternatives fuel (.repeated e least most (!lazy) :: before) branches
    match ← peek with
    | none => return closeBranches items branches
    | some ')' => return closeBranches items branches
    | some '|' => bump; alternatives fuel [] (Expression.ofParts items.reverse :: branches)
    | some '(' =>
      let outer := (← get).verbose
      let body : Parse Expression := do
        let e ← alternatives fuel [] []
        if (← peek) != some ')' then failure
        bump
        modify fun i => { i with verbose := outer }
        return e
      match ← opening fuel with
      | .flags changes => alternatives fuel (.flags changes :: items) branches
      | .captured index => alternatives fuel (.captured index (← body) :: items) branches
      | .flagged changes => alternatives fuel (.flagged changes (← body) :: items) branches
    | some '[' =>
      let (negated, body) ← bracketed fuel
      alternatives fuel (.bracketed negated body :: items) branches
    | some '?' => repeatLast 0 (some 1) bump
    | some '*' => repeatLast 0 none bump
    | some '+' => repeatLast 1 none bump
    | some '\x7b' =>
      if items.head?.all (·.isBlank) then failure
      let (least, most) ← counts fuel
      repeatLast least most (pure ())
    | some _ =>
      let e ← primitive fuel
      alternatives fuel (e :: items) branches

/-- Nesting beyond this depth is refused. -/
def depthLimit : Nat := 250

/-- The structure of a well-formed expression. -/
def parse? (source : String) : Option Expression := do
  let cs := source.toList
  let (e, input) ← (alternatives (2 * cs.length + 2) [] []).run { rest := cs }
  if !input.rest.isEmpty || depthLimit < e.depth then none
  return e

end LazyLisp.Pattern
