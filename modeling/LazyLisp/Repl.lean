import LazyLisp.CommandLine

/-!
The interactive loop, line by line. Lines are gathered until they hold only complete forms; then the
forms are evaluated in order and each result is shown, up to the first failure.
-/

namespace LazyLisp

namespace Repl

/-- The prompt names the current namespace; while more lines are awaited it is as wide, and blank. -/
def prompt (space : Option String) (pending : String) : String :=
  let name := space.getD "user"
  if pending = "" then name ++ "> "
  else String.ofList (List.replicate name.utf8ByteSize ' ') ++ "> "

def showForms : String → List Form → Eval (String × Bool)
  | shown, [] => pure (shown, true)
  | shown, f :: rest => do
    match ← (evaluator.eval f.toValue).attempt with
    | .ok v =>
      let text ← evaluator.render .readable v
      showForms (shown ++ text ++ "\n") rest
    | .error e =>
      let message ← evaluator.message e
      pure (shown ++ Command.errorLine message, false)

def showReading (reading : Source.Reading) : Eval String := do
  let (shown, completed) ← showForms "" reading.forms
  match completed, reading.fault? with
  | true, some fault => pure (shown ++ Command.errorLine fault.message)
  | _, _ => pure shown

def feed (pending line : String) : Eval (String × String) := do
  let text := pending ++ line ++ "\n"
  let reading := Source.read text "repl"
  if reading.fault?.any (·.incomplete) then pure ("", text)
  else
    let shown ← showReading reading
    pure (shown, "")

structure Turn where
  prompt : String
  shown : String
deriving DecidableEq, Repr

def turns (pending : String) : List String → Eval (List Turn × String)
  | [] => pure ([], pending)
  | line :: rest => do
    let space ← Eval.read (·.namespaces.current)
    let (shown, left) ← feed pending line
    let (later, last) ← turns left rest
    pure (⟨prompt space pending, shown⟩ :: later, last)

end Repl

end LazyLisp
