import LazyLisp.Kernel.Sequence

/-!
The written form of values, and the messages of failures that mention values. Writing a sequence goes
through all of it first; if that fails, the message of the failure stands in place of the elements.
-/

namespace LazyLisp

def Failure.describe (write : Value → Eval String) : Failure → Eval String
  | unknownSymbol symbol => pure s!"unable to find symbol '{symbol}'"
  | unknownNamespace space symbol => pure s!"no namespace '{space}' while resolving '{symbol}'"
  | notCallable form => do
    let text ← write form
    pure s!"head of {text} is not callable"
  | missingArgument name position => pure s!"{name}: missing argument at position {position}"
  | noScope name => pure s!"no open scope to bind '{name}'"
  | nameNotSymbol form => do
    let text ← write form
    pure s!"def: expected a symbol to define, got {text}"
  | bindingsNotVector form => do
    let text ← write form
    pure s!"let: bindings must be a vector, got {text}"
  | bindingsOddLength length => pure s!"let: bindings need an even number of forms, got {length}"
  | parametersNotVector form => do
    let text ← write form
    pure s!"fn: parameters must be a vector, got {text}"
  | parameterMissing marker => pure s!"fn: expected a parameter after {marker.text}"
  | notDestructurable value => do
    let text ← write value
    pure s!"destructure: cannot destructure {text} as a sequence"
  | unexpectedPattern pattern => do
    let text ← write pattern
    pure s!"destructure: unexpected type for destructure binding: {text}"
  | targetMissing marker => pure s!"destructure: expected a binding after {marker.text}"
  | unknownModule space => pure s!"require: no module named {space}"
  | badRequirement spec => do
    let text ← write spec
    pure s!"require: expected a namespace symbol or [ns :as alias], got {text}"
  | assertionFailed form none => do
    let text ← write form
    pure s!"assert failed: {text}"
  | assertionFailed form (some message) => do
    let text ← write form
    let detail ← write message
    pure s!"assert failed: {text}\n{detail}"
  | typeMismatch expected => pure s!"type mismatch: expected {expected.text}"
  | wrongArgumentCount name expected got =>
    pure s!"wrong number of args ({got}) passed to {name}, expected {expected.text}"
  | selfReference => pure "lazy sequence referred to itself while being realized"
  | environmentDropped => pure "lazy sequence outlived the environment that created it"
  | read fault => pure fault.message
  | file error => pure s!"io error: {error.message}"

namespace Kernel

def textsOf (write : Value → Eval (List Char)) : List Value → Eval (List (List Char))
  | [] => pure []
  | v :: rest => do
    let text ← write v
    let texts ← textsOf write rest
    pure (text :: texts)

def entryTextsOf (write : Value → Eval (List Char)) :
    List (Value × Value) → Eval (List (List Char))
  | [] => pure []
  | (key, value) :: rest => do
    let keyText ← write key
    let valueText ← write value
    let texts ← entryTextsOf write rest
    pure ((keyText ++ ' ' :: valueText) :: texts)

def sequenceText (k : Kernel) (write : Value → Eval (List Char))
    (describe : Failure → Eval String) (v : Value) : Eval (List Char) := do
  match ← (k.collect v).attempt with
  | .ok elements =>
    let texts ← textsOf write elements
    pure ([' '].intercalate texts)
  | .error e =>
    let message ← describe e
    pure ("#<error: ".toList ++ message.toList ++ ['>'])

def write (k : Kernel) : Nat → Style → Value → Eval (List Char)
  | 0, _, _ => .outOfFuel
  | n + 1, style, v =>
    let inner := k.sequenceText (write k n style)
      (Failure.describe fun v => do
        let text ← write k n .readable v
        pure (String.ofList text))
    match v with
    | .atom a => pure (a.text style)
    | .callable _ f => pure ("#<".toList ++ f.name.toList ++ ['>'])
    | .map entries => do
      let texts ← entryTextsOf (write k n style) entries
      pure ('\x7b' :: ([',', ' '].intercalate texts ++ ['\x7d']))
    | .vector _ => do
      let text ← inner v
      pure ('[' :: (text ++ [']']))
    | .list _ | .cons _ _ | .lazy _ => do
      let text ← inner v
      pure ('(' :: (text ++ [')']))

def render (k : Kernel) (style : Style) (v : Value) : Eval String := do
  let text ← k.write k.fuel style v
  pure (String.ofList text)

def message (k : Kernel) (e : Failure) : Eval String := e.describe (k.render .readable)

def renderAll (k : Kernel) (style : Style) (separator : String) (vs : List Value) : Eval String := do
  let texts ← textsOf (k.write k.fuel style) vs
  pure (String.ofList (separator.toList.intercalate texts))

end Kernel

end LazyLisp
