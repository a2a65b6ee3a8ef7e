import LazyLisp.Kernel.Closure
import LazyLisp.Kernel.Equality

namespace LazyLisp

namespace Kernel

def conditional (k : Kernel) (a : Args) : Eval Value := do
  let (test, a) ← k.requireValue a "if" 0
  let (yes, a) ← a.require "if" 1
  if test.truthy then k.evaluate a yes
  else
    match a.next? with
    | some (no, a) => k.evaluate a no
    | none => pure .nil

def guarded (k : Kernel) (a : Args) : Eval Value := do
  let (test, a) ← k.requireValue a "when" 0
  if test.truthy then k.evalRest a else pure .nil

def quotation (a : Args) : Eval Value := do
  let (form, _) ← a.require "quote" 0
  pure form

def definedName : Value → Eval String
  | .symbol name => pure name
  | form => .fail (.nameNotSymbol form)

def definition (k : Kernel) (a : Args) : Eval Value := do
  let (form, a) ← a.require "def" 0
  let name ← definedName form
  let (v, _) ← k.requireValue a "def" 1
  Eval.modify (·.define name v)
  pure form

def bindInTurn (k : Kernel) (a : Args) : List Value → Eval Unit
  | pattern :: form :: rest => do
    let v ← k.evaluate a form
    k.destructure pattern v
    bindInTurn k a rest
  | _ => pure ()

def localBinding (k : Kernel) (a : Args) : Eval Value := do
  let (form, a) ← a.require "let" 0
  match form with
  | .vector bindings =>
    if bindings.length % 2 = 0 then
      Eval.withScope do
        k.bindInTurn a bindings
        k.evalRest a
    else .fail (.bindingsOddLength bindings.length)
  | _ => .fail (.bindingsNotVector form)

def makeFunction (form name : String) (bindsSelf : Bool) (a : Args) : Eval Value := do
  let (parameters, a) ← a.require form 0
  match parameters with
  | .vector parameters =>
    let c ← Closure.make name bindsSelf parameters a.items
    Eval.newCallable (.closure c)
  | other => .fail (.parametersNotVector other)

def function (a : Args) : Eval Value :=
  match a.next? with
  | some (.symbol name, rest) => makeFunction "fn" name true rest
  | _ => makeFunction "fn" "fn" false a

/-- Leaves out a documentation string, unless it is all that is left. -/
def withoutDocumentation (a : Args) : Args :=
  match a.items with
  | .str _ :: rest@(_ :: _) => { a with items := rest }
  | _ => a

def functionDefinition (a : Args) : Eval Value := do
  let (form, a) ← a.require "defn" 0
  let name ← definedName form
  let f ← makeFunction "defn" name false (withoutDocumentation a)
  Eval.modify (·.define name f)
  pure form

def assertion (k : Kernel) (a : Args) : Eval Value := do
  let (form, a) ← a.require "assert" 0
  let v ← k.evaluate a form
  if v.truthy then pure .nil
  else
    let next ← k.nextValue a
    .fail (.assertionFailed form (next.map (·.1)))

def namespaceChange (a : Args) : Eval Value := do
  let (form, _) ← a.require "ns" 0
  match form with
  | .symbol name =>
    Eval.modify (·.setCurrent (some name))
    pure .nil
  | _ => .fail (.typeMismatch .symbol)

def requirementSpec : Value → Eval (String × Option String)
  | .symbol space => pure (space, none)
  | spec@(.vector [.symbol space, .keyword k, .symbol nickname]) =>
    if k = ":as" then pure (space, some nickname) else .fail (.badRequirement spec)
  | spec => .fail (.badRequirement spec)

def requireModule (spec : Value) : Eval Unit := do
  let (space, nickname) ← requirementSpec spec
  if ← Eval.read (·.namespaces.hasModule space) then
    Eval.modify fun w =>
      let n := w.namespaces.load space
      { w with namespaces := match nickname with
          | some name => n.addAlias name space
          | none => n }
  else .fail (.unknownModule space)

def requireEach (k : Kernel) (a : Args) : List Value → Eval Value
  | [] => pure .nil
  | form :: rest => do
    let spec ← k.evaluate a form
    requireModule spec
    requireEach k a rest

def compareEach (k : Kernel) (a : Args) (wanted : Bool) (first : Value) : List Value → Eval Value
  | [] => pure (.bool true)
  | form :: rest => do
    let other ← k.evaluate a form
    let same ← k.isEqual first other
    if same = wanted then compareEach k a wanted first rest else pure (.bool false)

def comparison (k : Kernel) (name : String) (wanted : Bool) (a : Args) : Eval Value := do
  let (first, a) ← k.requireValue a name 0
  let _ ← a.require name 1
  k.compareEach a wanted first a.items

def upTo (k : Kernel) (a : Args) (stop : Value → Bool) : Value → List Value → Eval Value
  | last, [] => pure last
  | _, form :: rest => do
    let v ← k.evaluate a form
    if stop v then pure v else upTo k a stop v rest

def delay (a : Args) : Eval Value := do
  let c ← Closure.make SpecialForm.delay.name false [] a.items
  Eval.newCell (.closure c)

def callSpecial (k : Kernel) : SpecialForm → Args → Eval Value
  | .conditional, a => k.conditional a
  | .guarded, a => k.guarded a
  | .quotation, a => quotation a
  | .definition, a => k.definition a
  | .sequence, a => k.evalRest a
  | .binding, a => k.localBinding a
  | .function, a => function a
  | .functionDefinition, a => functionDefinition a
  | .assertion, a => k.assertion a
  | .comment, _ => pure .nil
  | .namespaceChange, a => namespaceChange a
  | .requirement, a => k.requireEach a a.items
  | .equal, a => k.comparison SpecialForm.equal.name true a
  | .notEqual, a => k.comparison SpecialForm.notEqual.name false a
  | .conjunction, a => k.upTo a (fun v => !v.truthy) (.bool true) a.items
  | .disjunction, a => k.upTo a Value.truthy .nil a.items
  | .delay, a => delay a

end Kernel

end LazyLisp
