import LazyLisp.Kernel.Primitives
import LazyLisp.Kernel.Special

/-!
The evaluator: evaluating forms and calling callables, tied together by fuel. Each call of one by the
other uses up one unit, and so does each step of a loop within.
-/

namespace LazyLisp

namespace Kernel

def evalEntries (k : Kernel) (done : List (Value × Value)) :
    List (Value × Value) → Eval (List (Value × Value))
  | [] => pure done
  | (keyForm, form) :: rest => do
    let key ← k.eval keyForm
    let v ← k.eval form
    let done ← k.putEntry done key v
    evalEntries k done rest

def evalForm (k : Kernel) : Value → Eval Value
  | .symbol name => do
    let result ← Eval.read (·.resolve name)
    Eval.ofExcept result
  | .vector forms => do
    let vs ← k.evalEach false forms
    pure (.vector vs)
  | .map entries => do
    let es ← k.evalEntries [] entries
    pure (.map es)
  | .list (head :: args) => do
    match ← k.eval head with
    | .callable _ f => k.invoke f (.ofForms args)
    | _ => .fail (.notCallable (.list (head :: args)))
  | v => pure v

def call (k : Kernel) : Callable Value → Args → Eval Value
  | .special s, a => k.callSpecial s a
  | .primitive p, a => k.callPrimitive p a
  | .closure c, a => k.callClosure c a
  | .iterating f x, _ => k.iterateStep f x
  | .repeating x remaining, _ => repeatStep x remaining
  | .calling f remaining, _ => k.callStep f remaining
  | .recorder log result, a => do
    let args ← k.values a
    Eval.modify (·.record log args)
    pure result

def withFuel : Nat → Kernel
  | 0 => ⟨0, fun _ => .outOfFuel, fun _ _ => .outOfFuel⟩
  | n + 1 => ⟨n + 1, fun v => (withFuel n).evalForm v, fun f a => (withFuel n).call f a⟩

end Kernel

end LazyLisp
