import LazyLisp.World

/-!
Computations that change the world and may fail. A failure keeps the changes made before it. Running out
of fuel is neither a value nor a failure, and nothing recovers from it.
-/

namespace LazyLisp

inductive Outcome (α : Type) where
  | value (a : α) (w : World)
  | failure (e : Failure) (w : World)
  | outOfFuel

def Eval (α : Type) : Type := World → Outcome α

namespace Eval

variable {α β σ : Type}

@[always_inline, inline] protected def pure (a : α) : Eval α := fun w => .value a w

@[always_inline, inline] protected def bind (m : Eval α) (f : α → Eval β) : Eval β := fun w =>
  match m w with
  | .value a w => f a w
  | .failure e w => .failure e w
  | .outOfFuel => .outOfFuel

@[always_inline] instance : Monad Eval where
  pure := Eval.pure
  bind := Eval.bind

@[inline] def fail (e : Failure) : Eval α := fun w => .failure e w

def outOfFuel : Eval α := fun _ => .outOfFuel

@[inline] def read (f : World → α) : Eval α := fun w => .value (f w) w

@[inline] def modify (f : World → World) : Eval Unit := fun w => .value () (f w)

@[inline] def update (f : World → α × World) : Eval α := fun w =>
  let result := f w
  .value result.1 result.2

@[inline] def ofExcept (m : Except Failure α) : Eval α :=
  match m with
  | .ok a => Eval.pure a
  | .error e => fail e

@[inline] def attempt (m : Eval α) : Eval (Except Failure α) := fun w =>
  match m w with
  | .value a w => .value (.ok a) w
  | .failure e w => .value (.error e) w
  | .outOfFuel => .outOfFuel

/-- Runs `m` between `enter` and `leave`, which also follows a failure. What `save` keeps of the world
is handed to `leave`. -/
@[inline] def within (save : World → σ) (enter : World → World) (leave : σ → World → World)
    (m : Eval α) : Eval α := fun w =>
  let saved := save w
  match m (enter w) with
  | .value a w => .value a (leave saved w)
  | .failure e w => .failure e (leave saved w)
  | .outOfFuel => .outOfFuel

@[inline] def withScope (m : Eval α) : Eval α :=
  within (fun _ => ()) World.pushScope (fun _ => World.popScope) m

@[inline] def withFrame (scope : Scope) (m : Eval α) : Eval α :=
  within (fun _ => ()) (·.pushFrame scope) (fun _ => World.popFrame) m

@[inline] def withoutLocals (m : Eval α) : Eval α :=
  within World.frames (fun w => { w with frames := [[]] }) (fun frames w => { w with frames := frames }) m

@[inline] def keepingNamespace (m : Eval α) : Eval α :=
  within (·.namespaces.current) id (fun space w => w.setCurrent space) m

@[inline] def newCallable (f : Callable Value) : Eval Value := update (·.addCallable f)

@[inline] def newCell (body : Callable Value) : Eval Value := update (·.addCell body)

def bindName (name : String) (v : Value) : Eval Unit := fun w =>
  match w.bind? name v with
  | some w => .value () w
  | none => .failure (.noScope name) w

theorem bind_apply (m : Eval α) (f : α → Eval β) (w : World) :
    (m >>= f) w = match m w with
      | .value a w => f a w
      | .failure e w => .failure e w
      | .outOfFuel => .outOfFuel := rfl

theorem bind_eq_value_iff {m : Eval α} {f : α → Eval β} {b : β} {w v : World} :
    (m >>= f) w = .value b v ↔ ∃ a u, m w = .value a u ∧ f a u = .value b v := by
  rw [bind_apply]
  cases m w with
  | value a u => simp [and_assoc]
  | failure e u => simp
  | outOfFuel => simp

theorem pure_apply (a : α) (w : World) : (pure a : Eval α) w = .value a w := rfl

instance : LawfulMonad Eval := LawfulMonad.mk' Eval
  (fun m => by
    funext w
    change (match m w with
      | .value a w => Outcome.value a w
      | .failure e w => .failure e w
      | .outOfFuel => .outOfFuel) = m w
    cases m w <;> rfl)
  (fun a f => rfl)
  (fun m f g => by
    funext w
    simp only [bind_apply]
    cases m w <;> rfl)

end Eval

end LazyLisp
