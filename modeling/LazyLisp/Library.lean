import LazyLisp.Evaluation
import LazyLisp.Prelude

namespace LazyLisp

/-- More fuel than any run that ends in sensible time can use. -/
def budget : Nat := 1000000000000

def evaluator : Kernel := Kernel.withFuel budget

inductive Library where
  | core | math | outside | prelude
deriving DecidableEq, Repr

namespace Library

def installAll : List (Callable Value) → Eval Unit
  | [] => pure ()
  | f :: rest => do
    let v ← Eval.newCallable f
    Eval.modify (·.define f.name v)
    installAll rest

def install : Library → Eval Unit
  | core => do
    installAll (SpecialForm.all.map .special)
    installAll (Primitive.core.map .primitive)
  | math => installAll (Primitive.math.map .primitive)
  | outside => installAll (Primitive.outside.map .primitive)
  | prelude => do
    let _ ← evaluator.runForms .nil Prelude.forms

def standard : List Library := [core, math, outside, prelude]

end Library

def World.after {α : Type} (w : World) (m : Eval α) : World :=
  match m w with
  | .value _ w => w
  | .failure _ w => w
  | .outOfFuel => w

namespace World

def install (w : World) (libraries : List Library) : World :=
  libraries.foldl (fun w l => w.after l.install) w

def standard : World := empty.install Library.standard

end World

end LazyLisp
