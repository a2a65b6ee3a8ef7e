import LazyLisp.Kernel.Sequence

/-!
Destructuring: binding the names of a pattern to parts of a value, in the innermost scope. A vector
pattern takes the elements of a sequential value by position, `nil` where there are too few; `&` takes
the vector of all that are left, and `:as` the whole value.
-/

namespace LazyLisp

namespace Kernel

def nextElement (k : Kernel) (left : Value) : Eval (Value × Value) := do
  match ← k.uncons k.fuel left with
  | some next => pure next
  | none => pure (.nil, .nil)

mutual

def destructure (k : Kernel) : Value → Value → Eval Unit
  | .symbol name, v => .bindName name v
  | .vector patterns, v =>
    if v.isSequential then destructureItems k v v patterns else .fail (.notDestructurable v)
  | pattern, _ => .fail (.unexpectedPattern pattern)

def destructureItems (k : Kernel) (whole left : Value) : List Value → Eval Unit
  | [] => pure ()
  | [pattern] =>
    match pattern.marker? with
    | some marker => .fail (.targetMissing marker)
    | none => do
      let (x, _) ← k.nextElement left
      destructure k pattern x
  | pattern :: target :: rest =>
    match pattern.marker? with
    | some .rest => do
      let taken ← k.elements left
      destructure k target (.vector taken)
      destructureItems k whole .nil rest
    | some .whole => do
      destructure k target whole
      destructureItems k whole left rest
    | none => do
      let (x, left) ← k.nextElement left
      destructure k pattern x
      destructureItems k whole left (target :: rest)

end

end Kernel

end LazyLisp
