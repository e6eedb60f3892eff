import LazyLisp.Engine

/-!
The built-in functions on namespaces and vars.
-/

namespace LazyLisp.Core
set_option autoImplicit false

/-- The namespace that a value names. -/
def spaceOf (function : String) (v : Value) : Eval NameId :=
  let refuse : Eval NameId :=
    fail (.invalidArgument function ("expected a namespace or symbol, got " ++ v.typeName))
  match v with
  | .space ns => return ns
  | .symbol s => if s.isQualified then refuse else return s.name
  | _ => refuse

/-- Makes the vars of one namespace visible from another. -/
def refer (target source : NameId) : Eval Unit := do
  let w ← get
  let (outcome, spaces) := w.spaces.refer target source
  set { w with spaces := spaces }
  match outcome with
  | .ok _ => return ()
  | .error (.missing ns) => fail (.noNamespace (w.nameText ns))
  | .error (.conflict name) => fail (.rebinding (w.nameText name) (w.nameText target))

/-- Switches to a namespace. A new one sees the vars of `core`. -/
def nsSet (v : Value) : Eval Value := do
  let ns ← spaceOf "ns-set" v
  let isNew := !(← get).spaces.contains ns
  modify fun w => { w with spaces := w.spaces.create ns }
  if isNew && ns != Names.core then refer ns Names.core
  modify fun w => { w with current := ns }
  return .space ns

def nsRefer (v : Value) : Eval Value := do
  let source ← spaceOf "ns-refer" v
  refer (← get).current source
  return .nil

/-- Removes a namespace; `core` and the current one stay. -/
def nsRemove (v : Value) : Eval Value := do
  let ns ← spaceOf "ns-remove" v
  let w ← get
  if ns == Names.core || ns == w.current then
    fail (.invalidArgument "ns-remove" ("cannot remove namespace " ++ w.nameText ns))
  if !w.spaces.contains ns then fail (.noNamespace (w.nameText ns))
  set { w with spaces := w.spaces.remove ns }
  return .nil

def nsUnmap (ns name : Value) : Eval Value := do
  let ns ← spaceOf "ns-unmap" ns
  match name with
  | .symbol s =>
    let w ← get
    match w.spaces.unmap? ns s.name with
    | some (_, spaces) =>
      set { w with spaces := spaces }
      return .nil
    | none => fail (.noNamespace (w.nameText ns))
  | v => fail (.invalidArgument "ns-unmap" ("expected a symbol, got " ++ v.typeName))

def nsName (v : Value) : Eval Value := return .symbol (.plain (← spaceOf "ns-name" v))

/-- The value of a var. -/
def deref (v : Value) : Eval Value := do
  let ofVar (id : VarId) : Eval Value := do
    let w ← get
    match (w.spaces.var? id).bind (·.value) with
    | some v => return v
    | none =>
      fail (.invalidArgument "deref" ("var #'" ++ w.symbolText (w.varName id) ++ " is unbound"))
  match v with
  | .var id => ofVar id
  | .unbound id => ofVar id
  | v => fail (.invalidArgument "deref" ("cannot dereference " ++ v.typeName))

end LazyLisp.Core
