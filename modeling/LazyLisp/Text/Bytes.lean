/-!
Byte offsets into text. Offsets count the bytes of the UTF-8 form; an offset is a boundary
when the characters before it fill it exactly.
-/

namespace LazyLisp.Text
set_option autoImplicit false

/-- The number of bytes that the UTF-8 form of the characters takes. -/
def byteLength : List Char → Nat
  | [] => 0
  | c :: cs => c.utf8Size + byteLength cs

@[simp] theorem byteLength_nil : byteLength [] = 0 := rfl

@[simp] theorem byteLength_cons (c : Char) (cs : List Char) :
    byteLength (c :: cs) = c.utf8Size + byteLength cs := rfl

@[simp] theorem byteLength_append (a b : List Char) :
    byteLength (a ++ b) = byteLength a + byteLength b := by
  induction a with
  | nil => simp
  | cons c cs ih => simp [ih, Nat.add_assoc]

/-- The characters from byte `offset` on, if a character starts or the text ends there. -/
def dropBytes : List Char → Nat → Option (List Char)
  | cs, 0 => some cs
  | [], _ + 1 => none
  | c :: cs, n + 1 => if c.utf8Size ≤ n + 1 then dropBytes cs (n + 1 - c.utf8Size) else none

/-- The characters from byte `offset` on. Inside of a character they begin with that character. -/
def charsFrom : List Char → Nat → List Char
  | [], _ => []
  | c :: cs, offset => if offset < c.utf8Size then c :: cs else charsFrom cs (offset - c.utf8Size)

/-- `offset` lies between two characters of the text or at one of its ends. -/
def IsBoundary (cs : List Char) (offset : Nat) : Prop :=
  ∃ a b, cs = a ++ b ∧ offset = byteLength a

theorem dropBytes_byteLength (a b : List Char) :
    dropBytes (a ++ b) (byteLength a) = some b := by
  induction a with
  | nil => cases b <;> rfl
  | cons c cs ih =>
    have h := Char.utf8Size_pos c
    obtain ⟨k, hk⟩ : ∃ k, c.utf8Size + byteLength cs = k + 1 := ⟨c.utf8Size + byteLength cs - 1, by omega⟩
    have hle : c.utf8Size ≤ k + 1 := by omega
    have hsub : k + 1 - c.utf8Size = byteLength cs := by omega
    simp only [List.cons_append, byteLength_cons, hk, dropBytes, if_pos hle, hsub]
    exact ih

theorem charsFrom_byteLength (a b : List Char) : charsFrom (a ++ b) (byteLength a) = b := by
  induction a with
  | nil =>
    cases b with
    | nil => rfl
    | cons c cs => simp [charsFrom, Char.utf8Size_pos c]
  | cons c cs ih =>
    rw [List.cons_append, byteLength_cons, charsFrom, if_neg (Nat.not_lt_of_le (Nat.le_add_right _ _)),
      Nat.add_sub_cancel_left]
    exact ih

/-- Nothing is left from the end of the text on, and only there. -/
theorem charsFrom_eq_nil_iff {cs : List Char} {offset : Nat} :
    charsFrom cs offset = [] ↔ byteLength cs ≤ offset := by
  induction cs generalizing offset with
  | nil => simp [charsFrom]
  | cons c cs ih =>
    rw [charsFrom, byteLength_cons]
    split
    · simp only [reduceCtorEq, false_iff]
      omega
    · rw [ih]
      omega

end LazyLisp.Text
