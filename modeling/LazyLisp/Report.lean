import LazyLisp.Failure

/-!
Reports of failures with the lines of the source around the place. A report is a list of tinted
pieces, so its plain and its coloured text say the same.
-/

namespace LazyLisp.Report
set_option autoImplicit false

inductive Tint
  | alarm
  | warning
  | faint
deriving DecidableEq, Repr

/-- The terminal code that switches a tint on: bold red, red, dim. -/
def Tint.start : Tint → List Char
  | alarm => "\x1b[1;31m".toList
  | warning => "\x1b[31m".toList
  | faint => "\x1b[2m".toList

/-- The terminal code that switches every tint off. -/
def reset : List Char := "\x1b[0m".toList

/-- Text in one tint, or in none. -/
structure Piece where
  text : String
  tint : Option Tint := none
deriving DecidableEq, Repr

/-- Switches a tint on again wherever the text itself switches tints off. -/
def restart (start : List Char) : List Char → List Char
  | '\x1b' :: '[' :: '0' :: 'm' :: rest => reset ++ start ++ restart start rest
  | c :: rest => c :: restart start rest
  | [] => []

def Piece.coloured (p : Piece) : String :=
  match p.tint with
  | none => p.text
  | some t => String.ofList (t.start ++ restart t.start p.text.toList ++ reset)

/-- What failed, where, and why. A place in column zero has no column to show. -/
def heading (kind : String) (line column : Nat) (message : String) : List Piece :=
  [{ text := "\n" }, { text := s!"{kind} at line {line}", tint := some .alarm }] ++
  (if 0 < column then [{ text := s!", column {column}", tint := some .alarm }] else []) ++
  [{ text := ": " }, { text := message, tint := some .warning }, { text := "\n\n" }]

/-- A line of source behind its number, which fills four columns. -/
def numbered (mark : String) (number : Nat) (line : String) : String :=
  let digits := String.ofList (List.leftpad 4 ' ' (toString number).toList)
  mark ++ digits ++ " | " ++ line ++ "\n"

/-- The line that points at a column. -/
def caret (column : Nat) : List Piece :=
  if 0 < column then
    [{ text := "        | ", tint := some .warning },
     { text := String.ofList (List.replicate (column - 1) ' ') },
     { text := "^", tint := some .alarm }, { text := "\n" }]
  else []

/-- One line of the context of the line with index `place`, counted from zero. Two lines on
either side are shown. -/
def contextLine (place column index : Nat) (line : String) : List Piece :=
  if index = place then
    { text := numbered " → " (index + 1) line, tint := some .warning } :: caret column
  else if place ≤ index + 2 ∧ index < place + 3 then
    [{ text := numbered "   " (index + 1) line, tint := some .faint }]
  else []

def context (place column : Nat) (lines : List String) : List Piece :=
  lines.zipIdx.flatMap fun (line, index) => contextLine place column index line

/-- The report of a failure of a source. Only what cannot be read has a place. -/
def pieces (failure : Failure) (source : String) : List Piece :=
  match failure with
  | .read e =>
    let (kind, line, column, message) := e.parts
    heading kind line column message ++ context (line - 1) column (Text.lines source)
  | .eval _ | .load .. | .exhausted =>
    [{ text := "\n" }, { text := failure.message, tint := some .alarm }, { text := "\n" }]

def plain (failure : Failure) (source : String) : String :=
  String.join ((pieces failure source).map (·.text))

def coloured (failure : Failure) (source : String) : String :=
  String.join ((pieces failure source).map Piece.coloured)

end LazyLisp.Report
