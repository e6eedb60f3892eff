/-!
JSON text of strings and of objects with a fixed order of fields.
-/

namespace LazyLisp.Text
set_option autoImplicit false

def hexDigit (n : Nat) : Char := "0123456789abcdef".toList.getD n '0'

/-- A character inside a JSON string. Control characters below the space are escaped, by their
short names where there is one. -/
def jsonChar (c : Char) : List Char :=
  match c with
  | '"' => ['\\', '"']
  | '\\' => ['\\', '\\']
  | '\n' => ['\\', 'n']
  | '\r' => ['\\', 'r']
  | '\t' => ['\\', 't']
  | '\x08' => ['\\', 'b']
  | '\x0c' => ['\\', 'f']
  | c =>
    if c.toNat < 32 then ['\\', 'u', '0', '0', hexDigit (c.toNat / 16), hexDigit (c.toNat % 16)]
    else [c]

def jsonString (s : String) : String := "\"" ++ String.ofList (s.toList.flatMap jsonChar) ++ "\""

/-- An object; the values of the fields are JSON texts. -/
def jsonObject (fields : List (String × String)) : String :=
  let parts := fields.map fun (key, value) => jsonString key ++ ":" ++ value
  "\x7b" ++ ",".intercalate parts ++ "\x7d"

end LazyLisp.Text
