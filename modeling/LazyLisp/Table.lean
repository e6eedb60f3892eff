import LazyLisp.Names

/-!
Finite tables keyed by names, in the order in which the keys were first put in.
-/

namespace LazyLisp
set_option autoImplicit false

abbrev Table (α : Type) := List (NameId × α)

namespace Table

variable {α : Type}

/-- The value of a key. -/
def get? : Table α → NameId → Option α
  | [], _ => none
  | (k, a) :: rest, key => if key = k then some a else get? rest key

/-- Sets the value of a key, in place if the key is there. -/
def put : Table α → NameId → α → Table α
  | [], key, a => [(key, a)]
  | (k, b) :: rest, key, a => if key = k then (k, a) :: rest else (k, b) :: put rest key a

def remove : Table α → NameId → Table α
  | [], _ => []
  | (k, b) :: rest, key => if key = k then remove rest key else (k, b) :: remove rest key

def contains (t : Table α) (key : NameId) : Bool := (t.get? key).isSome

@[simp] theorem get?_nil (key : NameId) : get? ([] : Table α) key = none := rfl

@[simp] theorem get?_cons (k : NameId) (b : α) (rest : Table α) (key : NameId) :
    get? ((k, b) :: rest) key = if key = k then some b else get? rest key := rfl

theorem get?_put (t : Table α) (key key' : NameId) (a : α) :
    (t.put key a).get? key' = if key' = key then some a else t.get? key' := by
  induction t with
  | nil => simp [put]
  | cons e rest ih =>
    obtain ⟨k, b⟩ := e
    by_cases h : key = k
    · subst h
      by_cases h' : key' = key <;> simp [put, h']
    · by_cases h' : key' = k
      · subst h'
        simp [put, h, Ne.symm h]
      · simp [put, h, h', ih]

theorem get?_remove (t : Table α) (key key' : NameId) :
    (t.remove key).get? key' = if key' = key then none else t.get? key' := by
  induction t with
  | nil => simp [remove]
  | cons e rest ih =>
    obtain ⟨k, b⟩ := e
    by_cases h : key = k
    · subst h
      by_cases h' : key' = key
      · subst h'
        simpa [remove] using ih
      · simpa [remove, h'] using ih
    · by_cases h' : key' = k
      · subst h'
        simp [remove, h, Ne.symm h]
      · simp [remove, h, h', ih]

end Table

end LazyLisp
