import LazyLisp.Table
import LazyLisp.Value

/-!
Namespaces and the vars that they own. A namespace also sees vars of others that it refers to;
its own vars come first. Vars live in one store, so that a var is the same through every
namespace that maps to it.
-/

namespace LazyLisp
set_option autoImplicit false

/-- A named global place for a value; the name tells the namespace that owns it. -/
structure Var where
  name : Symbol
  value : Option Value := none

def Var.isBound (v : Var) : Bool := v.value.isSome

/-- A namespace knows its own name and qualifies the vars that it makes with it. -/
structure Namespace where
  name : NameId
  own : Table VarId := []
  refers : Table VarId := []

/-- Own vars shadow referred ones. -/
def Namespace.lookup? (ns : Namespace) (name : NameId) : Option VarId :=
  (ns.own.get? name).or (ns.refers.get? name)

structure Namespaces where
  table : Table Namespace := []
  vars : Array Var := #[]

/-- Why a namespace cannot refer to another. -/
inductive ReferError
  | missing (ns : NameId)
  | conflict (name : NameId)
deriving DecidableEq, Repr

namespace Namespaces

def get? (s : Namespaces) (ns : NameId) : Option Namespace := s.table.get? ns

def contains (s : Namespaces) (ns : NameId) : Bool := s.table.contains ns

/-- Adds an empty namespace unless there is one of that name. -/
def create (s : Namespaces) (ns : NameId) : Namespaces :=
  if s.contains ns then s else { s with table := s.table.put ns { name := ns } }

def remove (s : Namespaces) (ns : NameId) : Namespaces := { s with table := s.table.remove ns }

def lookup? (s : Namespaces) (ns name : NameId) : Option VarId :=
  (s.get? ns).bind fun n => n.lookup? name

def own? (s : Namespaces) (ns name : NameId) : Option VarId :=
  (s.get? ns).bind fun n => n.own.get? name

def var? (s : Namespaces) (id : VarId) : Option Var := s.vars[id]?

/-- The var that a namespace owns under a name, made without a value if missing. Absent if
there is no such namespace. -/
def intern? (s : Namespaces) (ns name : NameId) : Option (VarId × Namespaces) :=
  (s.get? ns).map fun n =>
    match n.own.get? name with
    | some id => (id, s)
    | none =>
      let id := s.vars.size
      (id, { table := s.table.put ns { n with own := n.own.put name id }
             vars := s.vars.push { name := .qualified n.name name } })

def setVar (s : Namespaces) (id : VarId) (value : Value) : Namespaces :=
  { s with vars := s.vars.modify id fun v => { v with value := some value } }

/-- Removes an own or referred name, and tells whether it was there. Absent if there is no
such namespace. -/
def unmap? (s : Namespaces) (ns name : NameId) : Option (Bool × Namespaces) :=
  (s.get? ns).map fun n =>
    let left := { n with own := n.own.remove name, refers := n.refers.remove name }
    ((n.lookup? name).isSome, { s with table := s.table.put ns left })

/-- The first of the names that resolves to another var in the target. -/
def conflict? (target : Namespace) (incoming : Table VarId) : Option NameId :=
  (incoming.find? fun e => (target.lookup? e.1).any (· != e.2)).map (·.1)

/-- Makes every var that `source` owns now visible from `target`, all or none; answers how
many they are, and the table behind it. -/
def refer (s : Namespaces) (target source : NameId) : Except ReferError Nat × Namespaces :=
  match s.get? source, s.get? target with
  | none, _ => (.error (.missing source), s)
  | _, none => (.error (.missing target), s)
  | some giver, some taker =>
    match conflict? taker giver.own with
    | some name => (.error (.conflict name), s)
    | none =>
      let refers := giver.own.foldl (fun t e => t.put e.1 e.2) taker.refers
      (.ok giver.own.length, { s with table := s.table.put target { taker with refers := refers } })

end Namespaces

end LazyLisp
