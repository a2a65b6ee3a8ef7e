import LazyLisp.Kernel.Arithmetic
import LazyLisp.Kernel.Closure
import LazyLisp.Kernel.SequenceFunctions
import LazyLisp.Kernel.Text
import LazyLisp.Source.Reading

namespace LazyLisp

namespace Kernel

def runForms (k : Kernel) : Value → List Form → Eval Value
  | last, [] => pure last
  | _, f :: rest => do
    let v ← k.eval f.toValue
    runForms k v rest

def runText (k : Kernel) (text name : String) : Eval Value := do
  let reading := Source.read text name
  let v ← k.runForms .nil reading.forms
  match reading.fault? with
  | some fault => .fail (.read fault)
  | none => pure v

def loadFile (k : Kernel) (path : String) : Eval Value := do
  match ← Eval.read (·.files.read path) with
  | .ok text => Eval.keepingNamespace (k.runText text path)
  | .error e =>
    Eval.modify (·.want path)
    .fail (.file e)

def printLine (k : Kernel) (style : Style) (args : List Value) : Eval Value := do
  let text ← k.renderAll style " " args
  Eval.modify (·.print (text ++ "\n"))
  pure .nil

def readString (v : Value) : Eval Value := do
  let text ← Eval.requireString v
  match Source.readFirst text with
  | .ok f => pure f.toValue
  | .error fault => .fail (.read fault)

def runPrimitive (k : Kernel) : Primitive → List Value → Eval Value
  | .count, [v] => k.count v
  | .seq, [v] => k.seqOf v
  | .first, [v] => k.first v
  | .rest, [v] => k.rest v
  | .next, [v] => do
    let rest ← k.rest v
    k.seqOf rest
  | .cons, [x, v] => prepend x v
  | .conj, coll :: items => k.conj coll items
  | .take, [n, v] => k.take n v
  | .reduce, [f, v] => k.reduce f v
  | .reduce, [f, init, v] => k.reduceWith f init v
  | .findTruthy, [f, v] => k.findTruthy f v
  | .identity, [v] => pure v
  | .iterate, [f, x] => iterate f x
  | .repetition, [x] => repetition none x
  | .repetition, [n, x] => repetition (some n) x
  | .repeatedly, [f] => repeatedly none f
  | .repeatedly, [n, f] => repeatedly (some n) f
  | .isRealized, [v] => isRealized v
  | .list, args => pure (.list args)
  | .vector, args => pure (.vector args)
  | .hashMap, args => k.hashMap args
  | .assoc, coll :: pairs => k.assoc coll pairs
  | .get, [coll, key] => k.get coll key .nil
  | .get, [coll, key, default] => k.get coll key default
  | .str, args => do
    let text ← k.renderAll .direct "" (args.filter fun v => !v.isNil)
    pure (.str text)
  | .prStr, args => do
    let text ← k.renderAll .readable " " args
    pure (.str text)
  | .println, args => k.printLine .direct args
  | .prn, args => k.printLine .readable args
  | .readString, [v] => readString v
  | .isNil, [v] => pure (.bool v.isNil)
  | .isEmpty, [v] => k.isEmpty v
  | .negation, [v] => pure (.bool !v.truthy)
  | .add, args => Arithmetic.compute Arithmetic.sum args
  | .subtract, args => Arithmetic.compute Arithmetic.difference args
  | .multiply, args => Arithmetic.compute Arithmetic.product args
  | .increment, [v] => Arithmetic.shift 1 v
  | .decrement, [v] => Arithmetic.shift (-1) v
  | .less, args => Arithmetic.test (fun i j => decide (i < j)) args
  | .lessEqual, args => Arithmetic.test (fun i j => decide (i ≤ j)) args
  | .greater, args => Arithmetic.test (fun i j => decide (j < i)) args
  | .greaterEqual, args => Arithmetic.test (fun i j => decide (j ≤ i)) args
  | .loadFile, [path] => do
    let path ← Eval.requireString path
    k.loadFile path
  | p, args => .fail (.wrongArgumentCount p.name p.arity args.length)

def callPrimitive (k : Kernel) (p : Primitive) (a : Args) : Eval Value := do
  let args ← k.values a
  Eval.requireArity p.name p.arity args.length
  k.runPrimitive p args

end Kernel

end LazyLisp
