/-!
Blank characters, and the cutting of text at them. Blanks are the characters of the
Unicode property White_Space, so trimming here also removes no-break and wide spaces.
-/

namespace LazyLisp.Text
set_option autoImplicit false

/-- The Unicode property White_Space. -/
def isBlank (c : Char) : Bool :=
  let n := c.toNat
  (9 ≤ n && n ≤ 13) || n == 0x20 || n == 0x85 || n == 0xA0 || n == 0x1680 ||
    (0x2000 ≤ n && n ≤ 0x200A) || n == 0x2028 || n == 0x2029 || n == 0x202F ||
    n == 0x205F || n == 0x3000

def trimStart (cs : List Char) : List Char := cs.dropWhile isBlank

def trimEnd (cs : List Char) : List Char := (cs.reverse.dropWhile isBlank).reverse

/-- Removes the blanks at both ends. -/
def trim (s : String) : String := String.ofList (trimEnd (trimStart s.toList))

/-- The text before and after the first character that satisfies `p`. -/
def splitAtFirst (p : Char → Bool) (cs : List Char) : Option (List Char × List Char) :=
  match cs.dropWhile (fun c => !p c) with
  | [] => none
  | _ :: rest => some (cs.takeWhile (fun c => !p c), rest)

/-- The pieces between the characters that satisfy `p`, empty pieces included. -/
def pieces (p : Char → Bool) : List Char → List (List Char)
  | [] => [[]]
  | c :: cs =>
    if p c then [] :: pieces p cs
    else match pieces p cs with
      | [] => [[c]]
      | w :: ws => (c :: w) :: ws

/-- The nonempty pieces between blanks. -/
def words (s : String) : List String :=
  ((pieces isBlank s.toList).filter fun w => !w.isEmpty).map String.ofList

/-- The lines of a text. A line feed ends a line, a carriage return before it belongs to
the line end, and text after the last line feed is a line of its own. -/
def lines (s : String) : List String :=
  let ls := pieces (· == '\n') s.toList
  let ended := ls.dropLast.map fun l =>
    if l.getLast? = some '\r' then l.dropLast else l
  let last := match ls.getLast? with
    | some (c :: cs) => [c :: cs]
    | _ => []
  (ended ++ last).map String.ofList

end LazyLisp.Text
