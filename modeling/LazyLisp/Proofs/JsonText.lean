import LazyLisp.Text.Json

/-!
Reading JSON text. What the writers of strings and objects write is read back as it was, so two
texts are the same if and only if they say the same.
-/

namespace LazyLisp
set_option autoImplicit false

/-- What the JSON of this program is made of. -/
inductive Json
  | string (s : String)
  | number (n : Nat)
  | object (fields : List (String × Json))

namespace Json

mutual

/-- The text of a value. -/
def text : Json → String
  | string s => Text.jsonString s
  | number n => toString n
  | object fields => Text.jsonObject (fieldTexts fields)

def fieldTexts : List (String × Json) → List (String × String)
  | [] => []
  | (key, v) :: rest => (key, v.text) :: fieldTexts rest

end

/-- The value of the first field with a name. -/
def field? (name : String) : Json → Option Json
  | object fields => (fields.find? (·.1 == name)).map (·.2)
  | _ => none

/-- The string in the first field with a name. -/
def string? (name : String) (j : Json) : Option String :=
  match j.field? name with
  | some (string s) => some s
  | _ => none

/-! ### Reading -/

/-- The value of a hexadecimal digit. -/
def hexValue? (c : Char) : Option Nat :=
  if '0' ≤ c ∧ c ≤ '9' then some (c.toNat - '0'.toNat)
  else if 'a' ≤ c ∧ c ≤ 'f' then some (c.toNat - 'a'.toNat + 10)
  else if 'A' ≤ c ∧ c ≤ 'F' then some (c.toNat - 'A'.toNat + 10)
  else none

/-- The character that a letter behind a backslash stands for. -/
def escape? : Char → Option Char
  | '"' => some '"'
  | '\\' => some '\\'
  | '/' => some '/'
  | 'n' => some '\n'
  | 'r' => some '\r'
  | 't' => some '\t'
  | 'b' => some '\x08'
  | 'f' => some '\x0c'
  | _ => none

/-- The characters of a string up to its closing quote, and what follows. -/
def readString : List Char → Option (List Char × List Char)
  | [] => none
  | '"' :: rest => some ([], rest)
  | '\\' :: 'u' :: a :: b :: c :: d :: rest => do
    let code := (((← hexValue? a) * 16 + (← hexValue? b)) * 16 + (← hexValue? c)) * 16 + (← hexValue? d)
    let (cs, rest) ← readString rest
    if code.isValidChar then some (Char.ofNat code :: cs, rest) else none
  | '\\' :: c :: rest => do
    let c ← escape? c
    let (cs, rest) ← readString rest
    some (c :: cs, rest)
  | c :: rest => do
    if c.toNat < 32 then none
    let (cs, rest) ← readString rest
    some (c :: cs, rest)

def readNumber (cs : List Char) : Option (Nat × List Char) :=
  match cs.takeWhile Char.isDigit with
  | [] => none
  | digits => some (Nat.ofDigitChars 10 digits 0, cs.dropWhile Char.isDigit)

mutual

/-- A value at the beginning of a text, and what follows. -/
def readValue : Nat → List Char → Option (Json × List Char)
  | 0, _ => none
  | n + 1, cs =>
    match cs with
    | '"' :: cs => (readString cs).map fun (s, rest) => (string (String.ofList s), rest)
    | '\x7b' :: '\x7d' :: rest => some (object [], rest)
    | '\x7b' :: cs => (readFields n cs).map fun (fields, rest) => (object fields, rest)
    | cs => (readNumber cs).map fun (n, rest) => (number n, rest)

/-- The fields of an object up to its closing brace, and what follows. -/
def readFields : Nat → List Char → Option (List (String × Json) × List Char)
  | n + 1, '"' :: cs => do
    match ← readString cs with
    | (key, ':' :: cs) =>
      match ← readValue n cs with
      | (v, '\x7d' :: rest) => some ([(String.ofList key, v)], rest)
      | (v, ',' :: cs) =>
        let (fields, rest) ← readFields n cs
        some ((String.ofList key, v) :: fields, rest)
      | _ => none
    | _ => none
  | _, _ => none

end

/-- The value that a whole text is the text of. -/
def read? (text : String) : Option Json :=
  match readValue text.toList.length text.toList with
  | some (j, []) => some j
  | _ => none

/-! ### What is written is read back -/

theorem hexValue?_hexDigit : ∀ d < 16, hexValue? (Text.hexDigit d) = some d := by decide

/-- A control character is written by its code. -/
theorem readString_control {c : Char} (h : c.toNat < 32) (rest : List Char) :
    readString ('\\' :: 'u' :: '0' :: '0' :: Text.hexDigit (c.toNat / 16) ::
        Text.hexDigit (c.toNat % 16) :: rest) =
      (readString rest).map fun p => (c :: p.1, p.2) := by
  have hzero : hexValue? '0' = some 0 := by decide
  have hhigh := hexValue?_hexDigit (c.toNat / 16) (by omega)
  have hlow := hexValue?_hexDigit (c.toNat % 16) (by omega)
  have hcode : ((0 * 16 + 0) * 16 + c.toNat / 16) * 16 + c.toNat % 16 = c.toNat := by omega
  rw [readString, hzero, hhigh, hlow]
  simp only [Option.bind_eq_bind, Option.bind_some, hcode, Char.ofNat_toNat]
  cases readString rest with
  | none => rfl
  | some p => exact if_pos c.valid

/-- A character with a short name is written by it. -/
theorem readString_short {c name : Char} (hname : escape? name = some c) (rest : List Char) :
    readString ('\\' :: name :: rest) = (readString rest).map fun p => (c :: p.1, p.2) := by
  have hu : name ≠ 'u' := by
    rintro rfl
    cases hname
  rw [readString, hname]
  · cases readString rest <;> rfl
  · exact fun _ _ _ _ _ h => absurd h hu

theorem readString_jsonChar (c : Char) (rest : List Char) :
    readString (Text.jsonChar c ++ rest) = (readString rest).map fun p => (c :: p.1, p.2) := by
  unfold Text.jsonChar
  split
  case h_8 hquote hslash _ _ _ _ _ =>
    split
    · exact readString_control ‹_› rest
    · rename_i hcontrol
      rw [List.singleton_append, readString, if_neg hcontrol]
      · cases readString rest <;> rfl
      · exact hquote
      · exact fun _ _ _ _ _ h => absurd h hslash
      · exact fun _ _ h => absurd h hslash
  all_goals exact readString_short rfl rest

theorem readString_chars (s rest : List Char) :
    readString (s.flatMap Text.jsonChar ++ '"' :: rest) = some (s, rest) := by
  induction s with
  | nil => exact readString.eq_2 rest
  | cons c s ih =>
    rw [List.flatMap_cons, List.append_assoc, readString_jsonChar, ih]
    rfl

/-- Strings are read up to where their text ends. -/
theorem readString_jsonString (s : String) :
    ∃ cs, (Text.jsonString s).toList = '"' :: cs ∧
      ∀ rest, readString (cs ++ rest) = some (s.toList, rest) := by
  refine ⟨s.toList.flatMap Text.jsonChar ++ ['"'], by simp [Text.jsonString], fun rest => ?_⟩
  rw [List.append_assoc]
  exact readString_chars s.toList rest

/-- The text does not go on with a digit. -/
def NoDigit (rest : List Char) : Prop := ∀ c ∈ rest.head?, c.isDigit = false

theorem readNumber_toDigits (n : Nat) {rest : List Char} (h : NoDigit rest) :
    readNumber (Nat.toDigits 10 n ++ rest) = some (n, rest) := by
  have hdigits : ∀ c ∈ Nat.toDigits 10 n, c.isDigit = true := fun c hc =>
    Nat.isDigit_of_mem_toDigits (by decide) (by decide) hc
  have hrest : rest.takeWhile Char.isDigit = [] ∧ rest.dropWhile Char.isDigit = rest := by
    cases rest with
    | nil => exact ⟨rfl, rfl⟩
    | cons c rest => simp [h c rfl]
  have htake : (Nat.toDigits 10 n ++ rest).takeWhile Char.isDigit = Nat.toDigits 10 n := by
    rw [List.takeWhile_append_of_pos hdigits, hrest.1, List.append_nil]
  have hdrop : (Nat.toDigits 10 n ++ rest).dropWhile Char.isDigit = rest := by
    rw [List.dropWhile_append_of_pos hdigits, hrest.2]
  rw [readNumber, htake, hdrop]
  split
  · rename_i hnil
    exact absurd hnil Nat.toDigits_ne_nil
  · rw [Nat.ofDigitChars_ten_toDigits]

/-! An object is its fields, each behind a comma but the first, and a closing brace. -/

/-- The text of an object from behind a field on, with the fields that are left. -/
def remaining : List (String × Json) → List Char
  | [] => ['\x7d']
  | (key, v) :: more =>
    ',' :: ((Text.jsonString key).toList ++ ':' :: (v.text.toList ++ remaining more))

theorem toList_fields (f : String × Json) (more : List (String × Json)) :
    ',' :: (",".intercalate
        ((fieldTexts (f :: more)).map fun (key, v) => Text.jsonString key ++ ":" ++ v)).toList ++
      ['\x7d'] = remaining (f :: more) := by
  induction more generalizing f with
  | nil => simp [fieldTexts, remaining]
  | cons g more ih =>
    rw [remaining, ← ih g]
    simp [fieldTexts]

theorem toList_object (f : String × Json) (more : List (String × Json)) :
    (object (f :: more)).text.toList = '\x7b' :: (remaining (f :: more)).tail := by
  rw [← toList_fields]
  simp [text, Text.jsonObject]

/-- The text of a number does not begin as the other values do. -/
theorem readValue_toDigits (m n : Nat) {rest : List Char} (hrest : NoDigit rest) :
    readValue (n + 1) (Nat.toDigits 10 m ++ rest) = some (number m, rest) := by
  have hread := readNumber_toDigits m hrest
  cases hdigits : Nat.toDigits 10 m with
  | nil => exact absurd hdigits Nat.toDigits_ne_nil
  | cons d ds =>
    have hd : d.isDigit = true := by
      refine Nat.isDigit_of_mem_toDigits (b := 10) (n := m) (by decide) (by decide) ?_
      rw [hdigits]
      exact List.mem_cons_self
    rw [hdigits] at hread
    rw [List.cons_append] at hread ⊢
    have hne : d ≠ '"' ∧ d ≠ '\x7b' := by
      constructor
      · rintro rfl
        cases hd
      · rintro rfl
        cases hd
    rw [readValue, hread, Option.map_some]
    · exact fun _ h => hne.1 (List.cons.inj h).1
    · exact fun _ h => hne.2 (List.cons.inj h).1
    · exact fun _ h => hne.2 (List.cons.inj h).1

mutual

theorem readValue_text (v : Json) {n : Nat} (hn : v.text.toList.length ≤ n) {after : List Char}
    (hafter : NoDigit after) : readValue n (v.text.toList ++ after) = some (v, after) := by
  cases v with
  | string s =>
    obtain ⟨cs, hcs, hread⟩ := readString_jsonString s
    rw [text, hcs] at hn ⊢
    cases n with
    | zero => cases hn
    | succ n =>
      rw [List.cons_append, readValue, hread, Option.map_some]
      dsimp only
      rw [String.ofList_toList]
  | number m =>
    have htext : (number m).text.toList = Nat.toDigits 10 m := by simp [text, toString]
    rw [htext] at hn ⊢
    cases n with
    | zero => exact absurd (List.length_eq_zero_iff.1 (Nat.le_zero.1 hn)) Nat.toDigits_ne_nil
    | succ n => exact readValue_toDigits m n hafter
  | object fields =>
    cases fields with
    | nil =>
      cases n with
      | zero => cases hn
      | succ n => rfl
    | cons f more =>
      rw [toList_object] at hn ⊢
      cases n with
      | zero => cases hn
      | succ n =>
        have hlength : (remaining (f :: more)).length ≤ n + 1 := hn
        have hread := readFields_remaining (f :: more) (List.cons_ne_nil f more) hlength after
        obtain ⟨cs, hcs, -⟩ := readString_jsonString f.1
        rw [List.cons_append, readValue, hread, Option.map_some]
        -- a name, and no closing brace, comes first
        rw [remaining, List.tail_cons, hcs]
        exact fun _ h => absurd (List.cons.inj h).1 (by decide)

theorem readFields_remaining (fields : List (String × Json)) (hfields : fields ≠ []) {n : Nat}
    (hn : (remaining fields).length ≤ n + 1) (after : List Char) :
    readFields n ((remaining fields).tail ++ after) = some (fields, after) := by
  cases fields with
  | nil => exact absurd rfl hfields
  | cons f more =>
    obtain ⟨key, v⟩ := f
    obtain ⟨cs, hcs, hread⟩ := readString_jsonString key
    rw [remaining, hcs] at hn ⊢
    simp only [List.cons_append, List.append_assoc, List.length_cons, List.length_append,
      List.tail_cons] at hn ⊢
    cases n with
    | zero => omega
    | succ n =>
      have hlength : v.text.toList.length ≤ n := by omega
      rw [readFields, hread]
      cases more with
      | nil =>
        have hend : NoDigit ('\x7d' :: after) := by simp [NoDigit]
        have hv := readValue_text v hlength hend
        simp [remaining, hv]
      | cons g more =>
        have hmore := readFields_remaining (g :: more) (List.cons_ne_nil g more) (n := n)
          (by omega) after
        have hcomma : remaining (g :: more) ++ after =
            ',' :: ((remaining (g :: more)).tail ++ after) := rfl
        have hend : NoDigit (',' :: ((remaining (g :: more)).tail ++ after)) := by simp [NoDigit]
        have hv := readValue_text v hlength hend
        rw [hcomma]
        simp [hv, hmore]

end

/-- Reading the text of a value yields the value. -/
theorem read?_text (v : Json) : read? v.text = some v := by
  have hend : NoDigit [] := nofun
  have h := readValue_text v (Nat.le_refl _) hend
  rw [List.append_nil] at h
  rw [read?, h]

end Json
end LazyLisp
