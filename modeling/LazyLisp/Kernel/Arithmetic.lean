import LazyLisp.Kernel.Sequence

namespace LazyLisp

namespace Arithmetic

def integers : List Value → Eval (List Int64)
  | [] => pure []
  | v :: rest => do
    let i ← Eval.requireInt v
    let is ← integers rest
    pure (i :: is)

def sum (is : List Int64) : Int64 := is.foldl (· + ·) 0

def product (is : List Int64) : Int64 := is.foldl (· * ·) 1

def difference : List Int64 → Int64
  | [] => 0
  | [i] => -i
  | i :: rest => rest.foldl (· - ·) i

def compareFirst (holds : Int64 → Int64 → Bool) : List Int64 → Bool
  | i :: j :: _ => holds i j
  | _ => true

def compute (f : List Int64 → Int64) (args : List Value) : Eval Value := do
  let is ← integers args
  pure (.int (f is))

def test (holds : Int64 → Int64 → Bool) (args : List Value) : Eval Value := do
  let is ← integers args
  pure (.bool (compareFirst holds is))

def shift (amount : Int64) (v : Value) : Eval Value := do
  let i ← Eval.requireInt v
  pure (.int (i + amount))

end Arithmetic

end LazyLisp
