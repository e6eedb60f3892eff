/-!
How characters and strings are written: the named characters and the two-character escapes,
shared by the reader and the printer.
-/

namespace LazyLisp.Text
set_option autoImplicit false

/-- Characters that are written by name. -/
def namedChars : List (Char × String) :=
  [('\n', "newline"), (' ', "space"), ('\t', "tab"), ('\r', "return"),
   (Char.ofNat 8, "backspace"), (Char.ofNat 12, "formfeed")]

/-- Characters that a string writes as a backslash and a code. -/
def escapes : List (Char × Char) :=
  [('\\', '\\'), ('"', '"'), ('\t', 't'), ('\r', 'r'), ('\n', 'n')]

def charNamed? (name : String) : Option Char :=
  (namedChars.find? fun p => p.2 == name).map (·.1)

def nameOfChar? (c : Char) : Option String :=
  (namedChars.find? fun p => p.1 == c).map (·.2)

def unescape? (code : Char) : Option Char :=
  (escapes.find? fun p => p.2 == code).map (·.1)

def escape? (c : Char) : Option Char :=
  (escapes.find? fun p => p.1 == c).map (·.2)

theorem unescape?_of_escape? {c code : Char} (h : escape? c = some code) :
    unescape? code = some c := by
  simp only [escape?, escapes, List.find?_cons, List.find?_nil] at h
  split at h
  · next hc => simp at hc h; subst hc; subst h; decide
  split at h
  · next hc => simp at hc h; subst hc; subst h; decide
  split at h
  · next hc => simp at hc h; subst hc; subst h; decide
  split at h
  · next hc => simp at hc h; subst hc; subst h; decide
  split at h
  · next hc => simp at hc h; subst hc; subst h; decide
  simp at h

/-- A character literal: a backslash, then its name or itself. -/
def charLiteral (c : Char) : String :=
  match nameOfChar? c with
  | some name => "\\" ++ name
  | none => String.ofList ['\\', c]

def escaped : List Char → List Char
  | [] => []
  | c :: cs =>
    match escape? c with
    | some code => '\\' :: code :: escaped cs
    | none => c :: escaped cs

/-- A string literal. -/
def stringLiteral (s : String) : String :=
  String.ofList ('"' :: escaped s.toList ++ ['"'])

end LazyLisp.Text
