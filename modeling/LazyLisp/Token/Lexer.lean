import LazyLisp.Decimal.Reading
import LazyLisp.Text.Blank
import LazyLisp.Text.Literal
import LazyLisp.Token

/-!
Cutting text into tokens. A scanner looks at the first character and answers with the token
and the number of further characters that belong to it, so no character is lost or used twice
and each token's place follows from the text before it.
-/

namespace LazyLisp.Token
set_option autoImplicit false

/-- Why no token starts here. -/
inductive Fault
  | bareKeyword
  | outOfRange (text : String)
  | badNumber (text : String)
  | openString
  /-- The escape code and the number of characters up to it, behind the opening quote. -/
  | badEscape (code : Char) (read : Nat)
  | openPattern
  | openChar
  | badChar (text : String)

namespace Fault

def message : Fault → String
  | bareKeyword => "Invalid keyword: expected a name after ':'"
  | outOfRange text => "Integer literal out of range: " ++ text
  | badNumber text => "Invalid number literal: " ++ text
  | openString => "Unterminated string literal"
  | badEscape code _ => "Invalid escape sequence: \\" ++ code.toString
  | openPattern => "Unterminated regex literal"
  | openChar => "Unterminated character literal"
  | badChar text => "Unsupported character: \\" ++ text

/-- More text could complete the literal. -/
def incomplete : Fault → Bool
  | openString | openPattern | openChar => true
  | _ => false

end Fault

/-- Characters that symbols, keywords and numbers are made of. -/
def isSymbolChar (c : Char) : Bool :=
  !Text.isBlank c && !"()[]\x7b\x7d\";'`~@,\\".toList.contains c

/-- The length of the blanks, commas and comments in front. A comment runs up to a line feed. -/
def gap (inComment : Bool) : List Char → Nat
  | [] => 0
  | c :: cs =>
    if inComment then gap (c != '\n') cs + 1
    else if Text.isBlank c || c == ',' then gap false cs + 1
    else if c == ';' then gap true cs + 1
    else 0

def symbolLength (cs : List Char) : Nat := (cs.takeWhile isSymbolChar).length

/-- The value of a number literal: an integer of 64 bits or a decimal. -/
def number (text : List Char) : Except Fault TokenKind :=
  let name := String.ofList text
  match Decimal.integer? text with
  | some n =>
    if Int64.minValue.toInt ≤ n ∧ n ≤ Int64.maxValue.toInt then .ok (.integer (Int64.ofInt n))
    else .error (.outOfRange name)
  | none =>
    if text.any fun c => c.isAlpha && c != 'e' && c != 'E' then .error (.badNumber name)
    else match Decimal.Literal.parse? text with
      | some l => .ok (.float l.toFloat)
      | none => .error (.badNumber name)

/-- The content of a string behind its opening quote, and how far the closing quote reaches.
`read` characters came before. -/
def stringBody (read : Nat) : List Char → Except Fault (List Char × Nat)
  | [] => .error .openString
  | '"' :: _ => .ok ([], read + 1)
  | ['\\'] => .error .openString
  | '\\' :: code :: cs =>
    match Text.unescape? code with
    | none => .error (.badEscape code (read + 2))
    | some c => (stringBody (read + 2) cs).map fun (s, n) => (c :: s, n)
  | c :: cs => (stringBody (read + 1) cs).map fun (s, n) => (c :: s, n)

/-- The content of a regular expression literal: verbatim, but an escaped quote is a quote. -/
def patternBody (read : Nat) : List Char → Except Fault (List Char × Nat)
  | [] => .error .openPattern
  | '"' :: _ => .ok ([], read + 1)
  | ['\\'] => .error .openPattern
  | '\\' :: code :: cs =>
    (patternBody (read + 2) cs).map fun (s, n) =>
      (if code = '"' then '"' :: s else '\\' :: code :: s, n)
  | c :: cs => (patternBody (read + 1) cs).map fun (s, n) => (c :: s, n)

def hexDigit? (c : Char) : Option Nat :=
  if '0' ≤ c ∧ c ≤ '9' then some (c.toNat - '0'.toNat)
  else if 'a' ≤ c ∧ c ≤ 'f' then some (c.toNat - 'a'.toNat + 10)
  else if 'A' ≤ c ∧ c ≤ 'F' then some (c.toNat - 'A'.toNat + 10)
  else none

def hexValue? (cs : List Char) : Option Nat :=
  cs.foldl (fun n c => n.bind fun k => (hexDigit? c).map (k * 16 + ·)) (some 0)

/-- The character with a number, unless the number is no character. -/
def charOfNat? (n : Nat) : Option Char :=
  if n.isValidChar then some (Char.ofNat n) else none

/-- A character literal behind its backslash: one character, a name, or `u` and four digits. -/
def character (first : Char) (more : List Char) : Except Fault TokenKind :=
  match more with
  | [] => .ok (.char first)
  | _ =>
    let text := String.ofList (first :: more)
    match Text.charNamed? text with
    | some c => .ok (.char c)
    | none =>
      let coded := if first = 'u' ∧ more.length = 4 then (hexValue? more).bind charOfNat? else none
      match coded with
      | some c => .ok (.char c)
      | none => .error (.badChar text)

def symbol (text : List Char) : TokenKind :=
  match String.ofList text with
  | "nil" => .nil
  | "true" => .bool true
  | "false" => .bool false
  | name => .symbol name

/-- The token that starts with `c`, and how many characters of `cs` belong to it. -/
def scan (c : Char) (cs : List Char) : Except Fault (TokenKind × Nat) :=
  let word := symbolLength cs
  match c with
  | '(' => .ok (.opening .paren, 0)
  | ')' => .ok (.closing .paren, 0)
  | '[' => .ok (.opening .bracket, 0)
  | ']' => .ok (.closing .bracket, 0)
  | '\x7b' => .ok (.opening .brace, 0)
  | '\x7d' => .ok (.closing .brace, 0)
  | '\'' => .ok (.mark .quote, 0)
  | '\x60' => .ok (.mark .template, 0)
  | '~' => if cs.head? = some '@' then .ok (.mark .splice, 1) else .ok (.mark .unquote, 0)
  | '@' => .ok (.mark .deref, 0)
  | '"' => (stringBody 0 cs).map fun (s, n) => (.string (String.ofList s), n)
  | '\\' =>
    match cs with
    | [] => .error .openChar
    | first :: rest =>
      let more := if first.isAlphanum then rest.takeWhile Char.isAlphanum else []
      (character first more).map fun kind => (kind, more.length + 1)
  | ':' =>
    if word = 0 then .error .bareKeyword
    else .ok (.keyword (String.ofList (cs.take word)), word)
  | _ =>
    if c = '#' ∧ cs.head? = some '\'' then .ok (.mark .varQuote, 1)
    else if c = '#' ∧ cs.head? = some '"' then
      (patternBody 1 cs.tail).map fun (s, n) => (.pattern (String.ofList s), n)
    else if Decimal.isDigit c ∨ ((c = '+' ∨ c = '-') ∧ cs.head?.any Decimal.isDigit) then
      (number (c :: cs.take word)).map fun kind => (kind, word)
    else .ok (symbol (c :: cs.take word), word)

/-- The error that a fault is reported as. It stands where the literal starts, but a bad escape
stands at its backslash. -/
def Fault.error (f : Fault) (start : Place) (text : List Char) : LexError :=
  match f with
  | .badEscape _ read =>
    let place := start.after (text.take (read + 1))
    ⟨f.message, place.line, place.column - 2, f.incomplete⟩
  | _ => ⟨f.message, start.line, start.column, f.incomplete⟩

/-- The tokens of a text that starts at `place`; the last one marks the end. -/
def tokensFrom (place : Place) (text : List Char) : Except LexError (List Token) :=
  let n := gap false text
  let start := place.after (text.take n)
  match _h : text.drop n with
  | [] => .ok [⟨.ending, .between start start⟩]
  | c :: cs =>
    match scan c cs with
    | .error f => .error (f.error start (c :: cs))
    | .ok (kind, k) =>
      let stop := start.after (c :: cs.take k)
      match tokensFrom stop (cs.drop k) with
      | .error e => .error e
      | .ok more => .ok (⟨kind, .between start stop⟩ :: more)
termination_by text.length
decreasing_by
  have h' := congrArg List.length _h
  simp only [List.length_drop, List.length_cons] at h' ⊢
  omega

def tokens (source : String) : Except LexError (List Token) := tokensFrom {} source.toList

end LazyLisp.Token
