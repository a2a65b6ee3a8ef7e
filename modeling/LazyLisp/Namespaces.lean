import LazyLisp.Failure

namespace LazyLisp

/-- What a registered module does when it is first required: the modules that it makes, in order, with
their members. They may depend on the name under which it is required. -/
structure ModuleSetup where
  modules : String → List (String × List (String × Value))

namespace ModuleSetup

def inert : ModuleSetup := ⟨fun _ => []⟩

def create (members : List (String × Value)) : ModuleSetup := ⟨fun space => [(space, members)]⟩

end ModuleSetup

structure Namespaces where
  tables : Bindings (Bindings Value)
  aliases : Bindings (Bindings String)
  internal : Bindings Value
  current : Option String
  pending : Bindings ModuleSetup

namespace Namespaces

def empty : Namespaces := ⟨.empty, .empty, .empty, none, .empty⟩

def currentKey (n : Namespaces) : String := n.current.getD ""

def table (n : Namespaces) (space : String) : Bindings Value := (n.tables.get? space).getD .empty

def dealias (n : Namespaces) (qualifier : String) : String :=
  ((n.aliases.get? n.currentKey).bind (·.get? qualifier)).getD qualifier

def global? (n : Namespaces) (name : String) : Option Value :=
  ((n.current.bind n.tables.get?).bind (·.get? name)).or (n.internal.get? name)

def qualified (n : Namespaces) (qualifier name symbol : String) : Except Failure Value :=
  let space := n.dealias qualifier
  match n.tables.get? space with
  | none => .error (.unknownNamespace space symbol)
  | some table =>
    match table.get? name with
    | some v => .ok v
    | none => .error (.unknownSymbol symbol)

/-- Where a definition of a symbol goes: a namespace, or the internal table, and the name in it. A
qualifier is taken as it stands, aliases or not. -/
def target (n : Namespaces) (symbol : String) : Option String × String :=
  match splitSymbol symbol with
  | (some space, name) => (some space, name)
  | (none, name) => (n.current, name)

def write (n : Namespaces) (space : Option String) (name : String) (v : Value) : Namespaces :=
  match space with
  | some space => { n with tables := n.tables.insert space ((n.table space).insert name v) }
  | none => { n with internal := n.internal.insert name v }

def define (n : Namespaces) (symbol : String) (v : Value) : Namespaces :=
  let place := n.target symbol
  n.write place.1 place.2 v

def cell? (n : Namespaces) (space : Option String) (name : String) : Option Value :=
  match space with
  | some space => (n.tables.get? space).bind (·.get? name)
  | none => n.internal.get? name

def setCurrent (n : Namespaces) (space : Option String) : Namespaces :=
  match space with
  | some s => { n with tables := n.tables.insert s (n.table s), current := some s }
  | none => { n with current := none }

def addAlias (n : Namespaces) (name space : String) : Namespaces :=
  let aliases := (n.aliases.get? n.currentKey).getD .empty
  { n with aliases := n.aliases.insert n.currentKey (aliases.insert name space) }

/-- Makes a namespace with the given members in place of any that has its name. -/
def createModule (n : Namespaces) (space : String) (members : List (String × Value)) : Namespaces :=
  members.foldl (fun n m => n.define (joinSymbol space m.1) m.2)
    { n with tables := n.tables.insert space .empty }

def hasModule (n : Namespaces) (space : String) : Bool :=
  n.tables.contains space || n.pending.contains space

def register (n : Namespaces) (space : String) (setup : ModuleSetup) : Namespaces :=
  { n with pending := n.pending.insert space setup }

def load (n : Namespaces) (space : String) : Namespaces :=
  match n.pending.get? space with
  | none => n
  | some setup =>
    (setup.modules space).foldl (fun n m => n.createModule m.1 m.2)
      { n with pending := n.pending.erase space }

theorem cell?_write (n : Namespaces) (space : Option String) (name : String) (v : Value)
    (space' : Option String) (name' : String) :
    (n.write space name v).cell? space' name' =
      if space = space' ∧ name = name' then some v else n.cell? space' name' := by
  cases space with
  | none =>
    cases space' with
    | none => simp [write, cell?, Bindings.get?_insert]
    | some s' => simp [write, cell?]
  | some s =>
    cases space' with
    | none => simp [write, cell?]
    | some s' =>
      by_cases h : s = s'
      · subst h
        cases ht : n.tables.get? s <;> simp [write, cell?, table, ht, Bindings.get?_insert]
      · simp [write, cell?, Bindings.get?_insert, h]

theorem cell?_define (n : Namespaces) (symbol : String) (v : Value) (space : Option String)
    (name : String) :
    (n.define symbol v).cell? space name =
      if n.target symbol = (space, name) then some v else n.cell? space name := by
  simp [define, cell?_write, Prod.ext_iff]

end Namespaces

end LazyLisp
