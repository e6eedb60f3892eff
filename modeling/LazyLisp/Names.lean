/-!
The store of names. Every name of a symbol, keyword or namespace is kept once and stands for
its position, so that equal names are equal numbers. Positions are never given up. Positions are
looked up by name in one table and names by position in another.
-/

namespace LazyLisp
set_option autoImplicit false

/-- The position of a name in the store. -/
abbrev NameId := Nat

/-- The positions by name, the names in order of their positions, and the count behind the last
fresh name. -/
structure Names where
  ids : List (String × NameId) := []
  texts : List String := []
  counter : Nat := 0
  /-- The two tables are inverse. -/
  inverse : ∀ text id, ids.lookup text = some id ↔ texts[id]? = some text := by simp

namespace Names

/-- Positions known before anything is read. -/
def core : NameId := 0
def user : NameId := 1
def ampersand : NameId := 2
def currentNs : NameId := 3
def result1 : NameId := 4
def result2 : NameId := 5
def result3 : NameId := 6

/-- The position of a name that is in the store. -/
def find? (names : Names) (text : String) : Option NameId := names.ids.lookup text

theorem getElem?_concat_eq_some {texts : List String} {new text : String} {id : NameId} :
    (texts ++ [new])[id]? = some text ↔
      texts[id]? = some text ∨ id = texts.length ∧ new = text := by
  rcases Nat.lt_trichotomy id texts.length with hlt | rfl | hgt
  · rw [List.getElem?_append_left hlt]
    simp [Nat.ne_of_lt hlt]
  · simp
  · have hnone : texts[id]? = none := List.getElem?_eq_none (Nat.le_of_lt hgt)
    rw [List.getElem?_append_right (Nat.le_of_lt hgt), hnone]
    simp [Nat.ne_of_gt hgt, Nat.sub_ne_zero_of_lt hgt]

/-- A name that is new to the tables is in both at the position behind all others. -/
theorem inverse_append {ids : List (String × NameId)} {texts : List String} {new : String}
    (inverse : ∀ text id, ids.lookup text = some id ↔ texts[id]? = some text)
    (hnew : ids.lookup new = none) (text : String) (id : NameId) :
    (ids ++ [(new, texts.length)]).lookup text = some id ↔ (texts ++ [new])[id]? = some text := by
  rw [List.lookup_append, getElem?_concat_eq_some, ← inverse]
  by_cases heq : text = new
  · subst heq
    simp [hnew, eq_comm]
  · simp [List.lookup_cons, beq_false_of_ne heq, Ne.symm heq]

/-- The store with one more name. -/
def add (names : Names) (text : String) (hnew : names.find? text = none) : Names where
  ids := names.ids ++ [(text, names.texts.length)]
  texts := names.texts ++ [text]
  counter := names.counter
  inverse := inverse_append names.inverse hnew

/-- The position of a name, which is added at the end if it is new. -/
def intern (names : Names) (text : String) : NameId × Names :=
  match h : names.find? text with
  | some id => (id, names)
  | none => (names.texts.length, names.add text h)

/-- The store with all these names. -/
def internAll (names : Names) (texts : List String) : Names :=
  texts.foldl (fun names text => (names.intern text).2) names

def preloaded : List String := ["core", "user", "&", "*ns*", "*1", "*2", "*3"]

/-- The store that begins with these positions. -/
def initial : Names where
  ids := [("core", core), ("user", user), ("&", ampersand), ("*ns*", currentNs), ("*1", result1),
    ("*2", result2), ("*3", result3)]
  texts := preloaded
  inverse := (internAll {} preloaded).inverse

/-- The name at a position. -/
def text (names : Names) (id : NameId) : String := names.texts[id]?.getD ""

def size (names : Names) : Nat := names.texts.length

/-- The first number from `index` on whose candidate is not used. A used candidate is taken
off the list, so the search ends. -/
def firstUnused (candidate : Nat → String) (used : List String) (index : Nat) : Nat :=
  if h : candidate index ∈ used then
    firstUnused candidate (used.erase (candidate index)) (index + 1)
  else index
termination_by used.length
decreasing_by
  rw [List.length_erase_of_mem h]
  exact Nat.sub_lt (List.length_pos_of_mem h) (by decide)

/-- A numbered name: `stem__n`, or `stem__n__ending`. -/
def numbered (stem : String) (ending : Option String) (n : Nat) : String :=
  match ending with
  | some e => s!"{stem}__{n}__{e}"
  | none => s!"{stem}__{n}"

/-- The number of the next fresh name, past every earlier one. -/
def freshNumber (names : Names) (stem : String) (ending : Option String) : Nat :=
  firstUnused (numbered stem ending) (names.ids.map (·.1)) (names.counter + 1)

/-- The store with the count at a number. -/
def advance (names : Names) (n : Nat) : Names := { names with counter := n }

/-- A name that was not in the store. -/
def fresh (names : Names) (stem : String) (ending : Option String) : NameId × Names :=
  let n := names.freshNumber stem ending
  (names.advance n).intern (numbered stem ending n)

end Names

end LazyLisp
