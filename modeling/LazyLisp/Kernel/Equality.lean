import LazyLisp.Kernel.Sequence

/-!
Equality of values, and the maps that rest on it. Sequential values are compared element by element
whatever their kind, which may realize lazy sequences and so fail; where a yes or no is needed, as for
the keys of maps, a comparison that failed counts as unequal.
-/

namespace LazyLisp

namespace Eval

def orFalse (m : Eval Bool) : Eval Bool := fun w =>
  match m w with
  | .failure _ w => .value false w
  | outcome => outcome

end Eval

namespace Kernel

def equalElements (k : Kernel) (eq : Value → Value → Eval Bool) : Nat → Value → Value → Eval Bool
  | 0, _, _ => .outOfFuel
  | n + 1, a, b => do
    let x? ← k.uncons k.fuel a
    let y? ← k.uncons k.fuel b
    match x?, y? with
    | none, none => pure true
    | some (x, xs), some (y, ys) =>
      if ← eq x y then equalElements k eq n xs ys else pure false
    | _, _ => pure false

def findEntry (same : Value → Eval Bool) : List (Value × Value) → Eval (Option Value)
  | [] => pure none
  | (key, value) :: rest => do
    if ← same key then pure (some value) else findEntry same rest

def equalEntries (eq : Value → Value → Eval Bool) (ys : List (Value × Value)) :
    List (Value × Value) → Eval Bool
  | [] => pure true
  | (key, x) :: rest => do
    match ← findEntry (fun key' => .orFalse (eq key' key)) ys with
    | none => pure false
    | some y => if ← eq x y then equalEntries eq ys rest else pure false

def equal (k : Kernel) : Nat → Value → Value → Eval Bool
  | 0, _, _ => .outOfFuel
  | n + 1, a, b =>
    if a.isSequential && b.isSequential then k.equalElements (equal k n) k.fuel a b
    else
      match a, b with
      | .atom x, .atom y => pure (decide (x = y))
      | .map xs, .map ys =>
        if xs.length = ys.length then equalEntries (equal k n) ys xs else pure false
      | .callable i _, .callable j _ => pure (decide (i = j))
      | _, _ => pure false

def isEqual (k : Kernel) (a b : Value) : Eval Bool := k.equal k.fuel a b

def isSame (k : Kernel) (a b : Value) : Eval Bool := .orFalse (k.isEqual a b)

def getEntry (k : Kernel) (entries : List (Value × Value)) (key : Value) : Eval (Option Value) :=
  findEntry (fun key' => k.isSame key' key) entries

/-- Sets the value under a key. A key that is present already keeps its place. -/
def putEntry (k : Kernel) (entries : List (Value × Value)) (key value : Value) :
    Eval (List (Value × Value)) :=
  match entries with
  | [] => pure [(key, value)]
  | (key', value') :: rest => do
    if ← k.isSame key' key then pure ((key', value) :: rest)
    else
      let rest ← putEntry k rest key value
      pure ((key', value') :: rest)

/-- Sets values under keys that alternate with them; a key without a value is left out. -/
def putPairs (k : Kernel) (entries : List (Value × Value)) : List Value → Eval (List (Value × Value))
  | key :: value :: rest => do
    let entries ← k.putEntry entries key value
    putPairs k entries rest
  | _ => pure entries

end Kernel

end LazyLisp
