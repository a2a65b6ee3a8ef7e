import LazyLisp.Kernel

/-!
Going through sequences. The rest of a sequence is again a value, and only lazy sequences do anything
when they are gone through: their body runs the first time, without local bindings, and what it gives is
kept. A body that fails, or gives no sequence, stays as it was and is tried again.
-/

namespace LazyLisp

/-- What the result of a lazy body stands for: `nil` is the empty list. -/
def Value.asSequence? : Value → Option Value
  | .nil => some (.list [])
  | v => if v.isSequential then some v else none

theorem Value.isSequential_of_asSequence? {v s : Value} (h : v.asSequence? = some s) :
    s.isSequential = true := by
  unfold asSequence? at h
  split at h
  · cases h
    rfl
  · split at h
    · next hs =>
      cases h
      exact hs
    · cases h

namespace Kernel

variable {β : Type}

def settle (i : Nat) (body : Callable Value) : Outcome Value → Outcome Value
  | .value v w =>
    match v.asSequence? with
    | some s => .value s (w.setCell i (.realized s))
    | none => .failure (.typeMismatch .sequence) (w.setCell i (.unrealized body))
  | .failure e w => .failure e (w.setCell i (.unrealized body))
  | .outOfFuel => .outOfFuel

def realize (k : Kernel) (i : Nat) : Eval Value := fun w =>
  match w.cells[i]? with
  | none => .failure .environmentDropped w
  | some cell =>
    match cell.state with
    | .realized v => .value v w
    | .running => .failure .selfReference w
    | .unrealized body =>
      if cell.era = w.era then
        settle i body (Eval.withoutLocals (k.apply body []) (w.setCell i .running))
      else .failure .environmentDropped w

def uncons (k : Kernel) : Nat → Value → Eval (Option (Value × Value))
  | _, .list (x :: xs) => pure (some (x, .list xs))
  | _, .vector (x :: xs) => pure (some (x, .vector xs))
  | _, .map (e :: es) => pure (some (.entry e, .map es))
  | _, .cons x rest => pure (some (x, rest))
  | 0, .lazy _ => .outOfFuel
  | n + 1, .lazy i => do
    let s ← k.realize i
    uncons k n s
  | _, _ => pure none

def force (k : Kernel) : Nat → Value → Eval Value
  | 0, .lazy _ => .outOfFuel
  | n + 1, .lazy i => do
    let s ← k.realize i
    force k n s
  | _, v => pure v

def foldSeq (k : Kernel) (f : β → Value → Eval β) : Nat → β → Value → Eval β
  | 0, _, _ => .outOfFuel
  | n + 1, b, v => do
    match ← k.uncons k.fuel v with
    | none => pure b
    | some (x, rest) =>
      let b ← f b x
      foldSeq k f n b rest

def elements (k : Kernel) (v : Value) : Eval (List Value) := do
  let reversed ← k.foldSeq (fun xs x => pure (x :: xs)) k.fuel [] v
  pure reversed.reverse

/-- The first elements of a sequence, at most `count` of them, and nothing is looked at after them. -/
def firstElements (k : Kernel) : Nat → List Value → Value → Eval (List Value)
  | 0, reversed, _ => pure reversed.reverse
  | count + 1, reversed, v => do
    match ← k.uncons k.fuel v with
    | none => pure reversed.reverse
    | some (x, rest) => firstElements k count (x :: reversed) rest

end Kernel

namespace Eval

def requireSeqable (v : Value) : Eval Unit :=
  if v.isSeqable then pure () else fail (.typeMismatch .sequence)

def requireInt : Value → Eval Int64
  | .int i => pure i
  | _ => fail (.typeMismatch .integer)

def requireString : Value → Eval String
  | .str body => pure body
  | _ => fail (.typeMismatch .string)

def requireCallable : Value → Eval (Callable Value)
  | .callable _ f => pure f
  | _ => fail (.typeMismatch .callable)

end Eval

def Kernel.collect (k : Kernel) (v : Value) : Eval (List Value) := do
  Eval.requireSeqable v
  k.elements v

end LazyLisp
