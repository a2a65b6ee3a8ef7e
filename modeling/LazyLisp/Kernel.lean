import LazyLisp.Eval

/-!
What the parts of the evaluator need of one another: evaluating a form and calling a callable, with the
fuel that is left. Arguments come as forms from program text and as values from other callables; which
of the two is noted beside them, so that a value is never evaluated a second time.
-/

namespace LazyLisp

structure Args where
  items : List Value
  evaluated : Bool

namespace Args

def ofForms (forms : List Value) : Args := ⟨forms, false⟩

def ofValues (values : List Value) : Args := ⟨values, true⟩

def next? (a : Args) : Option (Value × Args) :=
  match a.items with
  | [] => none
  | x :: rest => some (x, { a with items := rest })

def require (a : Args) (name : String) (position : Nat) : Eval (Value × Args) :=
  match a.next? with
  | some next => pure next
  | none => .fail (.missingArgument name position)

end Args

structure Kernel where
  fuel : Nat
  eval : Value → Eval Value
  invoke : Callable Value → Args → Eval Value

namespace Kernel

def evaluate (k : Kernel) (a : Args) (item : Value) : Eval Value :=
  if a.evaluated then pure item else k.eval item

def apply (k : Kernel) (f : Callable Value) (values : List Value) : Eval Value :=
  k.invoke f (.ofValues values)

def nextValue (k : Kernel) (a : Args) : Eval (Option (Value × Args)) :=
  match a.next? with
  | none => pure none
  | some (x, rest) => do
    let v ← k.evaluate a x
    pure (some (v, rest))

def requireValue (k : Kernel) (a : Args) (name : String) (position : Nat) : Eval (Value × Args) := do
  let (x, rest) ← a.require name position
  let v ← k.evaluate a x
  pure (v, rest)

def evalLast (k : Kernel) (evaluated : Bool) : Value → List Value → Eval Value
  | last, [] => pure last
  | _, x :: rest => do
    let v ← k.evaluate ⟨[], evaluated⟩ x
    evalLast k evaluated v rest

def evalRest (k : Kernel) (a : Args) : Eval Value := k.evalLast a.evaluated .nil a.items

def evalEach (k : Kernel) (evaluated : Bool) : List Value → Eval (List Value)
  | [] => pure []
  | x :: rest => do
    let v ← k.evaluate ⟨[], evaluated⟩ x
    let vs ← evalEach k evaluated rest
    pure (v :: vs)

def values (k : Kernel) (a : Args) : Eval (List Value) := k.evalEach a.evaluated a.items

end Kernel

end LazyLisp
