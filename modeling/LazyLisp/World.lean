import LazyLisp.Namespaces

/-!
The state that evaluation changes: global bindings, frames of local bindings, cells of lazy sequences,
what was printed, and what the host lends. Only the top frame is visible, and its innermost scope comes
first.
-/

namespace LazyLisp

abbrev Scope := Bindings Value

abbrev Frame := List Scope

inductive CellState where
  | unrealized (body : Callable Value)
  | running
  | realized (v : Value)

/-- A cell belongs to the environment that was live when it was made. -/
structure Cell where
  era : Nat
  state : CellState

def CellState.isRealized : CellState → Bool
  | realized _ => true
  | _ => false

/-- `era` counts the environments, of which the latest is live. `logs` are the calls noted by recorders,
the latest first, and `wanted` the paths asked for of which the file table knows nothing. -/
structure World where
  namespaces : Namespaces
  frames : List Frame
  cells : Array Cell
  era : Nat
  nextIdentity : Nat
  output : String
  files : FileTable
  logs : Array (List (List Value))
  wanted : List String

namespace World

def empty : World := ⟨.empty, [[]], #[], 0, 0, "", .empty, #[], []⟩

def topFrame (w : World) : Frame := w.frames.head?.getD []

def localIn? : Frame → String → Option Value
  | [], _ => none
  | scope :: rest, name => (scope.get? name).or (localIn? rest name)

def local? (w : World) (name : String) : Option Value := localIn? w.topFrame name

/-- The value of a symbol: a qualified one through aliases and namespaces, a bare one through the scopes
of the top frame, the current namespace and the internal table. -/
def resolve (w : World) (symbol : String) : Except Failure Value :=
  match splitSymbol symbol with
  | (some qualifier, name) => w.namespaces.qualified qualifier name symbol
  | (none, name) =>
    match (w.local? name).or (w.namespaces.global? name) with
    | some v => .ok v
    | none => .error (.unknownSymbol symbol)

def define (w : World) (symbol : String) (v : Value) : World :=
  { w with namespaces := w.namespaces.define symbol v }

def bind? (w : World) (name : String) (v : Value) : Option World :=
  match w.frames with
  | (scope :: scopes) :: frames =>
    some { w with frames := (scope.insert name v :: scopes) :: frames }
  | _ => none

def pushScope (w : World) : World :=
  match w.frames with
  | frame :: frames => { w with frames := (.empty :: frame) :: frames }
  | [] => { w with frames := [[.empty]] }

def popScope (w : World) : World :=
  match w.frames with
  | frame :: frames => { w with frames := frame.tail :: frames }
  | [] => w

def pushFrame (w : World) (scope : Scope) : World := { w with frames := [scope] :: w.frames }

def popFrame (w : World) : World := { w with frames := w.frames.tail }

def setCurrent (w : World) (space : Option String) : World :=
  { w with namespaces := w.namespaces.setCurrent space }

def setCell (w : World) (i : Nat) (state : CellState) : World :=
  { w with cells := w.cells.modify i fun c => { c with state := state } }

def addCell (w : World) (body : Callable Value) : Value × World :=
  (.lazy w.cells.size, { w with cells := w.cells.push ⟨w.era, .unrealized body⟩ })

def isRealized (w : World) (i : Nat) : Bool :=
  match w.cells[i]? with
  | some c => c.state.isRealized
  | none => false

def addCallable (w : World) (f : Callable Value) : Value × World :=
  (.callable w.nextIdentity f, { w with nextIdentity := w.nextIdentity + 1 })

def print (w : World) (text : String) : World := { w with output := w.output ++ text }

def takeOutput (w : World) : String × World := (w.output, { w with output := "" })

def newLog (w : World) : Nat × World := (w.logs.size, { w with logs := w.logs.push [] })

def record (w : World) (log : Nat) (args : List Value) : World :=
  { w with logs := w.logs.modify log (args :: ·) }

def callsOf (w : World) (log : Nat) : List (List Value) := (w.logs[log]?.getD []).reverse

def want (w : World) (path : String) : World :=
  if (w.files.find? path).isSome then w else { w with wanted := path :: w.wanted }

def dropEnvironment (w : World) : World :=
  { w with namespaces := .empty, frames := [[]], era := w.era + 1 }

end World

end LazyLisp
