import LazyLisp.Kernel.Equality

namespace LazyLisp

namespace Kernel

def count (k : Kernel) : Value → Eval Value
  | .str body => pure (.int (Int64.ofNat body.length))
  | .list xs => pure (.int (Int64.ofNat xs.length))
  | .vector xs => pure (.int (Int64.ofNat xs.length))
  | .map es => pure (.int (Int64.ofNat es.length))
  | v => do
    Eval.requireSeqable v
    let n ← k.foldSeq (fun n _ => pure (n + 1)) k.fuel 0 v
    pure (.int (Int64.ofNat n))

def listOrNil : List Value → Value
  | [] => .nil
  | xs => .list xs

def seqOf (k : Kernel) (v : Value) : Eval Value := do
  let v ← k.force k.fuel v
  match v with
  | .nil | .cons _ _ => pure v
  | .list xs => pure (listOrNil xs)
  | .str body => pure (listOrNil (body.toList.map .char))
  | _ => do
    let xs ← k.collect v
    pure (listOrNil xs)

def first (k : Kernel) (v : Value) : Eval Value := do
  Eval.requireSeqable v
  match ← k.uncons k.fuel v with
  | some (x, _) => pure x
  | none => pure .nil

def rest (k : Kernel) (v : Value) : Eval Value := do
  let v ← k.force k.fuel v
  match v with
  | .cons _ .nil => pure (.list [])
  | .cons _ rest => pure rest
  | _ => do
    Eval.requireSeqable v
    match ← k.uncons k.fuel v with
    | some (_, rest) =>
      let xs ← k.elements rest
      pure (.list xs)
    | none => pure (.list [])

/-- Puts an element before a sequence without looking at it; a map becomes the list of its entries. -/
def prepend (x : Value) : Value → Eval Value
  | .map es => pure (.cons x (.list (es.map .entry)))
  | v => do
    Eval.requireSeqable v
    pure (.cons x v)

def addEntries (k : Kernel) (entries : List (Value × Value)) :
    List Value → Eval (List (Value × Value))
  | [] => pure entries
  | item :: rest => do
    match ← k.collect item with
    | [key, value] =>
      let entries ← k.putEntry entries key value
      addEntries k entries rest
    | _ => .fail (.typeMismatch .map)

def conj (k : Kernel) (coll : Value) (items : List Value) : Eval Value :=
  match coll with
  | .vector xs => pure (.vector (xs ++ items))
  | .map es => do
    let es ← k.addEntries es items
    pure (.map es)
  | .nil => pure (.list items.reverse)
  | .list xs => pure (.list (items.reverse ++ xs))
  | .cons _ _ | .lazy _ => pure (items.foldl (fun rest x => .cons x rest) coll)
  | _ => .fail (.typeMismatch .sequence)

def take (k : Kernel) (n v : Value) : Eval Value := do
  let n ← Eval.requireInt n
  Eval.requireSeqable v
  let xs ← k.firstElements n.toInt.toNat [] v
  pure (.list xs)

def reduceFrom (k : Kernel) (f : Callable Value) (init v : Value) : Eval Value :=
  k.foldSeq (fun acc x => k.apply f [acc, x]) k.fuel init v

def reduce (k : Kernel) (f v : Value) : Eval Value := do
  let f ← Eval.requireCallable f
  Eval.requireSeqable v
  match ← k.uncons k.fuel v with
  | some (x, rest) => k.reduceFrom f x rest
  | none => k.apply f []

def reduceWith (k : Kernel) (f init v : Value) : Eval Value := do
  let f ← Eval.requireCallable f
  Eval.requireSeqable v
  k.reduceFrom f init v

def searchWith (k : Kernel) (f : Callable Value) : Nat → Value → Eval Value
  | 0, _ => .outOfFuel
  | n + 1, v => do
    match ← k.uncons k.fuel v with
    | none => pure .nil
    | some (x, rest) =>
      let result ← k.apply f [x]
      if result.truthy then pure result else searchWith k f n rest

def findTruthy (k : Kernel) (f v : Value) : Eval Value := do
  let f ← Eval.requireCallable f
  Eval.requireSeqable v
  k.searchWith f k.fuel v

def isEmpty (k : Kernel) : Value → Eval Value
  | .str body => pure (.bool (decide (body = "")))
  | v => do
    Eval.requireSeqable v
    let next ← k.uncons k.fuel v
    pure (.bool next.isNone)

def iterate (f x : Value) : Eval Value := do
  let f ← Eval.requireCallable f
  Eval.newCell (.iterating f x)

def repetition (n : Option Value) (x : Value) : Eval Value := do
  match n with
  | none => Eval.newCell (.repeating x none)
  | some n =>
    let n ← Eval.requireInt n
    Eval.newCell (.repeating x (some n))

def repeatedly (n : Option Value) (f : Value) : Eval Value := do
  match n with
  | none =>
    let f ← Eval.requireCallable f
    Eval.newCell (.calling f none)
  | some n =>
    let n ← Eval.requireInt n
    let f ← Eval.requireCallable f
    Eval.newCell (.calling f (some n))

def exhausted : Option Int64 → Bool
  | none => false
  | some n => decide (n ≤ 0)

def oneFewer (remaining : Option Int64) : Option Int64 := remaining.map (· - 1)

def iterateStep (k : Kernel) (f : Callable Value) (x : Value) : Eval Value := do
  let next ← k.apply f [x]
  let rest ← Eval.newCell (.iterating f next)
  pure (.cons next rest)

def repeatStep (x : Value) (remaining : Option Int64) : Eval Value :=
  if exhausted remaining then pure .nil
  else do
    let rest ← Eval.newCell (.repeating x (oneFewer remaining))
    pure (.cons x rest)

def callStep (k : Kernel) (f : Callable Value) (remaining : Option Int64) : Eval Value :=
  if exhausted remaining then pure .nil
  else do
    let x ← k.apply f []
    let rest ← Eval.newCell (.calling f (oneFewer remaining))
    pure (.cons x rest)

def isRealized : Value → Eval Value
  | .lazy i => do
    let realized ← Eval.read (·.isRealized i)
    pure (.bool realized)
  | _ => pure (.bool true)

def hashMap (k : Kernel) (args : List Value) : Eval Value :=
  if args.length % 2 = 0 then do
    let es ← k.putPairs [] args
    pure (.map es)
  else .fail (.missingArgument Primitive.hashMap.name args.length)

def assoc (k : Kernel) (coll : Value) (pairs : List Value) : Eval Value := do
  let entries ← match coll with
    | .nil => pure []
    | .map es => pure es
    | _ => .fail (.typeMismatch .map)
  if pairs.length % 2 = 0 then
    let es ← k.putPairs entries pairs
    pure (.map es)
  else .fail (.missingArgument Primitive.assoc.name (pairs.length + 1))

def get (k : Kernel) (coll key default : Value) : Eval Value :=
  match coll, key with
  | .map es, key => do
    let found ← k.getEntry es key
    pure (found.getD default)
  | .vector xs, .int i => pure (if i < 0 then default else xs[i.toInt.toNat]?.getD default)
  | _, _ => pure default

end Kernel

end LazyLisp
