import LazyLisp.Bindings
import LazyLisp.Form
import LazyLisp.Primitive
import LazyLisp.SpecialForm

/-!
Values of the language. A lazy sequence is known by the number of the cell that holds its body or its
elements; a callable carries a number of its own, by which it is compared.
-/

namespace LazyLisp

/-- A function of the program. `captured` holds the local bindings that its body mentions, as they were
when the function was made. -/
structure Closure (V : Type) where
  name : String
  arity : Arity
  parameters : List V
  body : List V
  captured : Bindings V
  bindsSelf : Bool

/-- What can stand at the head of a call. The last four make up generated sequences, one step each, and
a function of the host that logs its calls. -/
inductive Callable (V : Type) where
  | special (s : SpecialForm)
  | primitive (p : Primitive)
  | closure (c : Closure V)
  | iterating (f : Callable V) (x : V)
  | repeating (x : V) (remaining : Option Int64)
  | calling (f : Callable V) (remaining : Option Int64)
  | recorder (log : Nat) (result : V)

namespace Callable

def name {V : Type} : Callable V → String
  | special s => s.name
  | primitive p => p.name
  | closure c => c.name
  | iterating _ _ => "iterate"
  | repeating _ _ => "repeat"
  | calling _ _ => "repeatedly"
  | recorder _ _ => "counter"

end Callable

inductive Value where
  | atom (a : Atom)
  | list (items : List Value)
  | vector (items : List Value)
  | map (entries : List (Value × Value))
  | cons (first rest : Value)
  | lazy (cell : Nat)
  | callable (identity : Nat) (f : Callable Value)

namespace Value

@[match_pattern] abbrev nil : Value := .atom .nil
@[match_pattern] abbrev bool (b : Bool) : Value := .atom (.bool b)
@[match_pattern] abbrev int (i : Int64) : Value := .atom (.int i)
@[match_pattern] abbrev str (body : String) : Value := .atom (.str body)
@[match_pattern] abbrev char (c : Char) : Value := .atom (.char c)
@[match_pattern] abbrev keyword (text : String) : Value := .atom (.keyword text)
@[match_pattern] abbrev symbol (name : String) : Value := .atom (.symbol name)

def keywordNamed (name : String) : Value :=
  if name.toList.head? = some ':' then keyword name else keyword (":" ++ name)

def truthy : Value → Bool
  | nil => false
  | bool b => b
  | _ => true

def isNil : Value → Bool
  | nil => true
  | _ => false

def isSequential : Value → Bool
  | .list _ | .vector _ | .cons _ _ | .lazy _ => true
  | _ => false

def isSeqable : Value → Bool
  | nil | .map _ => true
  | v => v.isSequential

theorem isSeqable_of_isSequential {v : Value} (h : v.isSequential = true) : v.isSeqable = true := by
  cases v <;> simp_all [isSequential, isSeqable]

def entry (e : Value × Value) : Value := .vector [e.1, e.2]

end Value

namespace Form

mutual

def toValue : Form → Value
  | .atom a => .atom a
  | .list items => .list (itemValues items)
  | .vector items => .vector (itemValues items)
  | .map entries => .map (entryValues entries)

def itemValues : List Form → List Value
  | [] => []
  | f :: rest => toValue f :: itemValues rest

def entryValues : List (Form × Form) → List (Value × Value)
  | [] => []
  | (k, v) :: rest => (toValue k, toValue v) :: entryValues rest

end

theorem itemValues_eq_map (items : List Form) : itemValues items = items.map toValue := by
  induction items with
  | nil => rfl
  | cons f rest ih => simp [itemValues, ih]

end Form

end LazyLisp
