import LazyLisp.Kernel.Pattern

/-!
Functions of the program: how many arguments a parameter list takes, which local bindings a new function
keeps, and how it is called. A call runs in a frame of its own that holds what was kept, so it never
sees the local bindings of its caller.
-/

namespace LazyLisp

namespace Closure

/-- The arity of a parameter list with the given number of positions before it. `&` and `:as` need one
more item after them and take no position. -/
def arityFrom (positions : Nat) : List Value → Except Failure Arity
  | [] => .ok (.exactly positions)
  | [p] =>
    match p.marker? with
    | some marker => .error (.parameterMissing marker)
    | none => .ok (.exactly (positions + 1))
  | p :: q :: rest =>
    match p.marker? with
    | some .rest => .ok (.atLeast positions)
    | some .whole => arityFrom positions rest
    | none => arityFrom (positions + 1) (q :: rest)

def arityOf (parameters : List Value) : Except Failure Arity := arityFrom 0 parameters

mutual

def captureForm (find : String → Option Value) (captured : Bindings Value) : Value → Bindings Value
  | .symbol name =>
    match find name with
    | some v => captured.insert name v
    | none => captured
  | .list forms => captureForms find captured forms
  | .vector forms => captureForms find captured forms
  | .map entries => captureEntries find captured entries
  | _ => captured

def captureForms (find : String → Option Value) (captured : Bindings Value) :
    List Value → Bindings Value
  | [] => captured
  | f :: rest => captureForms find (captureForm find captured f) rest

def captureEntries (find : String → Option Value) (captured : Bindings Value) :
    List (Value × Value) → Bindings Value
  | [] => captured
  | (key, value) :: rest =>
    captureEntries find (captureForm find (captureForm find captured key) value) rest

end

def make (name : String) (bindsSelf : Bool) (parameters body : List Value) :
    Eval (Closure Value) := do
  let arity ← Eval.ofExcept (arityOf parameters)
  let captured ← Eval.read fun w => captureForms w.local? .empty body
  pure ⟨name, arity, parameters, body, captured, bindsSelf⟩

end Closure

namespace Eval

def requireArity (name : String) (arity : Arity) (got : Nat) : Eval Unit :=
  if arity.accepts got then pure () else fail (.wrongArgumentCount name arity got)

end Eval

namespace Kernel

def callScope (c : Closure Value) : Eval Scope :=
  if c.bindsSelf then do
    let self ← Eval.newCallable (.closure c)
    pure (c.captured.insert c.name self)
  else pure c.captured

def callClosure (k : Kernel) (c : Closure Value) (a : Args) : Eval Value := do
  let values ← k.values a
  Eval.requireArity c.name c.arity values.length
  let scope ← callScope c
  Eval.withFrame scope do
    k.destructure (.vector c.parameters) (.vector values)
    k.evalRest (.ofForms c.body)

end Kernel

end LazyLisp
