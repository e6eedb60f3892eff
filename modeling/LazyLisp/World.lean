import LazyLisp.Closure
import LazyLisp.Namespaces
import LazyLisp.Trace

/-!
The state of an interpreter: names, namespaces and vars, lexical frames, lazy cells, closures,
and what was printed and traced. Computations over it keep the state that they reached when
they fail.
-/

namespace LazyLisp
set_option autoImplicit false

/-- Bindings in the order in which they were made; the newest counts. -/
structure Frame where
  bindings : List (Symbol × Value) := []
  parent : Scope

/-- A lazy sequence before, while and after its thunk runs. -/
inductive Cell
  | pending (thunk : Value)
  | realizing
  | realized (s : Seq)
  | failed (e : EvalError)

structure World where
  names : Names := Names.initial
  spaces : Namespaces := {}
  current : NameId := Names.core
  frames : Array Frame := #[]
  cells : Array Cell := #[]
  closures : Array Closure := #[]
  log : LogDomains := {}
  output : String := ""
  events : Array Event := #[]
  /-- Whether lazy cells can still run. -/
  attached : Bool := true

instance : Inhabited World := ⟨{}⟩

/-- Why a computation ended without a result. -/
inductive Stop
  | error (e : EvalError)
  /-- The budget of steps is used up. -/
  | exhausted

abbrev Eval := EStateM Stop World

def fail {α : Type} (e : EvalError) : Eval α := throw (.error e)

namespace Frame

/-- The newest binding of a symbol. -/
def lookup? (f : Frame) (s : Symbol) : Option Value :=
  (f.bindings.reverse.find? fun b => b.1 == s).map (·.2)

def push (f : Frame) (s : Symbol) (v : Value) : Frame := { f with bindings := f.bindings ++ [(s, v)] }

/-- Replaces the value of the first binding that satisfies the symbol in a list, if any. -/
def replaceFirst (s : Symbol) (v : Value) : List (Symbol × Value) → Option (List (Symbol × Value))
  | [] => none
  | b :: rest => if b.1 == s then some ((b.1, v) :: rest) else (replaceFirst s v rest).map (b :: ·)

/-- Replaces the newest binding of a symbol. -/
def update? (f : Frame) (s : Symbol) (v : Value) : Option Frame :=
  (replaceFirst s v f.bindings.reverse).map fun bs => { f with bindings := bs.reverse }

/-- New values for bindings, in order; bindings without a new value stay. -/
def rebindAll : List (Symbol × Value) → List Value → List (Symbol × Value)
  | b :: bs, v :: vs => (b.1, v) :: rebindAll bs vs
  | bs, _ => bs

def rebind (f : Frame) (values : List Value) : Frame :=
  { f with bindings := rebindAll f.bindings values }

end Frame

namespace World

/-- The name behind a position. -/
def nameText (w : World) (id : NameId) : String := w.names.text id

/-- The text of a symbol, with its namespace if it has one. -/
def symbolText (w : World) (s : Symbol) : String :=
  match s.ns with
  | some ns => w.nameText ns ++ "/" ++ w.nameText s.name
  | none => w.nameText s.name

/-- Looks a symbol up in a chain of frames. A frame's parent was made before it, so the chain
from a frame is no longer than its place in the store. -/
def lookupFrames (frames : Array Frame) (s : Symbol) : Nat → Scope → Option Value
  | _, none => none
  | 0, some _ => none
  | fuel + 1, some id =>
    match frames[id]? with
    | none => none
    | some f =>
      match f.lookup? s with
      | some v => some v
      | none => lookupFrames frames s fuel f.parent

def lookupScope? (w : World) (scope : Scope) (s : Symbol) : Option Value :=
  lookupFrames w.frames s w.frames.size scope

/-- The var that a symbol names: one that the named namespace owns, or one that the current
namespace sees. -/
def lookupVar? (w : World) (s : Symbol) : Option VarId :=
  match s.ns with
  | some ns => w.spaces.own? ns s.name
  | none => w.spaces.lookup? w.current s.name

/-- The value of a var, or the mark that it has none. -/
def varValue (w : World) (id : VarId) : Value :=
  ((w.spaces.var? id).bind (·.value)).getD (.unbound id)

/-- What a symbol denotes outside of every scope. -/
def global? (w : World) (s : Symbol) : Option Value := (w.lookupVar? s).map w.varValue

/-- What a symbol denotes: lexical bindings, the current namespace, then vars. -/
def resolve? (w : World) (scope : Scope) (s : Symbol) : Option Value :=
  match s.ns with
  | some _ => w.global? s
  | none =>
    match w.lookupScope? scope s with
    | some v => some v
    | none => if s.name = Names.currentNs then some (.space w.current) else w.global? s

/-- The name of a var. -/
def varName (w : World) (id : VarId) : Symbol :=
  ((w.spaces.var? id).map (·.name)).getD (.plain 0)

def setCell (w : World) (id : CellId) (c : Cell) : World :=
  { w with cells := w.cells.setIfInBounds id c }

end World

namespace Eval

def intern (text : String) : Eval NameId := modifyGet fun w =>
  let (id, names) := w.names.intern text
  (id, { w with names := names })

def newFrame (parent : Scope) : Eval FrameId := modifyGet fun w =>
  (w.frames.size, { w with frames := w.frames.push { parent := parent } })

def push (id : FrameId) (s : Symbol) (v : Value) : Eval Unit := modify fun w =>
  { w with frames := w.frames.modify id fun f => f.push s v }

def rebind (id : FrameId) (values : List Value) : Eval Unit := modify fun w =>
  { w with frames := w.frames.modify id fun f => f.rebind values }

/-- The number of bindings in a frame. -/
def frameSize (id : FrameId) : Eval Nat :=
  return ((← get).frames[id]?.map fun f => f.bindings.length).getD 0

def newClosure (c : Closure) : Eval ClosureId := modifyGet fun w =>
  (w.closures.size, { w with closures := w.closures.push c })

/-- A lazy sequence whose elements a function of no arguments produces. -/
def newLazy (thunk : Value) : Eval Seq := modifyGet fun w =>
  (.lazy w.cells.size, { w with cells := w.cells.push (.pending thunk) })

/-- The var of that name in the current namespace, made without a value if missing. -/
def declare (name : NameId) : Eval VarId := do
  let w ← get
  match w.spaces.intern? w.current name with
  | some (id, spaces) =>
    set { w with spaces := spaces }
    return id
  | none => fail (.noNamespace (w.nameText w.current))

/-- Binds a var of the current namespace. -/
def define (name : NameId) (value : Value) : Eval VarId := do
  let id ← declare name
  modify fun w => { w with spaces := w.spaces.setVar id value }
  return id

def print (text : String) : Eval Unit := modify fun w => { w with output := w.output ++ text }

def note (event : Event) : Eval Unit := modify fun w => { w with events := w.events.push event }

end Eval

end LazyLisp
