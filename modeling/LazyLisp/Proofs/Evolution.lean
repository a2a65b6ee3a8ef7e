import LazyLisp.Proofs.Frames
import LazyLisp.Proofs.Requests

namespace LazyLisp

variable {α β : Type}

/-- Lazy sequences lead from the value, each having the next as its elements, to one that has no elements
yet or to something else. -/
inductive Grounded (w : World) : Value → Prop
  | plain {v : Value} (h : ∀ i, v ≠ .lazy i) : Grounded w v
  | pending {i : Nat} (h : w.isRealized i = false) : Grounded w (.lazy i)
  | ready {i era : Nat} {s : Value} (h : w.cells[i]? = some ⟨era, .realized s⟩) :
      Grounded w s → Grounded w (.lazy i)

namespace Kernel

theorem realize_of_realized (k : Kernel) {w : World} {i era : Nat} {s : Value}
    (h : w.cells[i]? = some ⟨era, .realized s⟩) : k.realize i w = .value s w := by
  unfold realize
  rw [h]

theorem grounded_of_force {k : Kernel} {n : Nat} {v : Value} {w : World}
    (h : k.force n v w ≠ .outOfFuel) : Grounded w v := by
  induction n generalizing v with
  | zero =>
    cases v with
    | lazy i => exact absurd rfl h
    | _ => exact .plain nofun
  | succ n ih =>
    cases v with
    | lazy i =>
      cases hc : w.cells[i]? with
      | none => exact .pending (by simp only [World.isRealized, hc])
      | some cell =>
        obtain ⟨era, state⟩ := cell
        cases state with
        | realized s =>
          rw [force, Eval.bind_apply, k.realize_of_realized hc] at h
          exact .ready hc (ih h)
        | unrealized body => exact .pending (by simp only [World.isRealized, hc, CellState.isRealized])
        | running => exact .pending (by simp only [World.isRealized, hc, CellState.isRealized])
    | _ => exact .plain nofun

end Kernel

def World.Tries (w : World) (i : Nat) (body : Callable Value) (r : Outcome Value) : Prop :=
  ∃ n, Eval.withoutLocals ((Kernel.withFuel n).apply body []) (w.setCell i .running) = r

inductive Outcome.Fruitless : Outcome Value → World → Prop
  | failure (e : Failure) (w : World) : Fruitless (.failure e w) w
  | value {x : Value} (h : x.asSequence? = none) (w : World) : Fruitless (.value x w) w

/-- `R` relates the world before to the world after each effect of evaluation. In `abandon` and
`complete` the world `v` is the one that running the body of a lazy sequence left. -/
structure Evolution (R : World → World → Prop) : Prop where
  frames : ∀ (w : World) (fs : List Frame), R w { w with frames := fs }
  trans : ∀ {u v w : World}, R u v → R v w → R u w
  change : ∀ (c : Change) (w : World), R w (c.apply w)
  newCallable : ∀ (f : Callable Value) (w : World), R w (w.addCallable f).2
  newCell : ∀ (f : Callable Value) (w : World), R w (w.addCell f).2
  restore : ∀ {v w : World}, R v w → R v (w.setCurrent v.namespaces.current)
  abandon : ∀ {w v : World} {i : Nat} {body : Callable Value} {r : Outcome Value},
    w.cells[i]? = some ⟨w.era, .unrealized body⟩ → w.Tries i body r → r.Fruitless v →
      R (w.setCell i .running) v → R w (v.setCell i (.unrealized body))
  complete : ∀ {w v : World} {i : Nat} {body : Callable Value} {x s : Value},
    w.cells[i]? = some ⟨w.era, .unrealized body⟩ → w.Tries i body (.value x v) → x.asSequence? = some s →
      R (w.setCell i .running) v → Grounded (v.setCell i (.realized s)) s → R w (v.setCell i (.realized s))

def Along (R : World → World → Prop) (m : Eval α) : Prop := ∀ w v, (m w).world? = some v → R w v

namespace Evolution

variable {R : World → World → Prop} (h : Evolution R)
include h

theorem refl (w : World) : R w w := h.frames w w.frames

theorem along_pure (a : α) : Along R (pure a : Eval α) := by
  rintro w v ⟨⟩
  exact h.refl w

theorem along_fail (e : Failure) : Along R (Eval.fail e : Eval α) := by
  rintro w v ⟨⟩
  exact h.refl w

theorem along_read (g : World → α) : Along R (Eval.read g) := by
  rintro w v ⟨⟩
  exact h.refl w

theorem along_ofExcept (result : Except Failure α) : Along R (Eval.ofExcept result) := by
  cases result with
  | ok a => exact h.along_pure a
  | error e => exact h.along_fail e

omit h in
theorem along_outOfFuel : Along R (Eval.outOfFuel : Eval α) := by
  rintro w v ⟨⟩

theorem along_bind {m : Eval α} {f : α → Eval β} (hm : Along R m) (hf : ∀ a, Along R (f a)) :
    Along R (m >>= f) := by
  intro w v hv
  have hw := hm w
  rw [Eval.bind_apply] at hv
  cases hr : m w with
  | value a u =>
    rw [hr] at hv hw
    exact h.trans (hw u rfl) (hf a u v hv)
  | failure e u =>
    rw [hr] at hv hw
    exact hw v hv
  | outOfFuel =>
    rw [hr] at hv
    cases hv

omit h in
theorem along_attempt {m : Eval α} (hm : Along R m) : Along R m.attempt := by
  intro w v hv
  refine hm w v ?_
  unfold Eval.attempt at hv
  cases hr : m w <;> rw [hr] at hv <;> exact hv

omit h in
theorem along_orFalse {m : Eval Bool} (hm : Along R m) : Along R m.orFalse := by
  intro w v hv
  refine hm w v ?_
  unfold Eval.orFalse at hv
  cases hr : m w <;> rw [hr] at hv <;> exact hv

omit h in
theorem along_within {σ : Type} {save : World → σ} {enter : World → World}
    {leave : σ → World → World} {m : Eval α} (hm : Along R m)
    (hl : ∀ {w u : World}, R (enter w) u → R w (leave (save w) u)) :
    Along R (Eval.within save enter leave m) := by
  intro w v hv
  have hw := hm (enter w)
  unfold Eval.within at hv
  dsimp only at hv
  cases hr : m (enter w) with
  | value a u =>
    rw [hr] at hv hw
    cases hv
    exact hl (hw u rfl)
  | failure e u =>
    rw [hr] at hv hw
    cases hv
    exact hl (hw u rfl)
  | outOfFuel =>
    rw [hr] at hv
    cases hv

theorem pushScope (w : World) : R w w.pushScope := by
  rw [World.pushScope_eq]
  exact h.frames w _

theorem popScope (w : World) : R w w.popScope := by
  unfold World.popScope
  split
  · exact h.frames w _
  · exact h.refl w

theorem along_withScope {m : Eval α} (hm : Along R m) : Along R m.withScope :=
  along_within hm fun hu => h.trans (h.pushScope _) (h.trans hu (h.popScope _))

theorem along_withFrame {m : Eval α} (scope : Scope) (hm : Along R m) : Along R (m.withFrame scope) :=
  along_within hm fun hu => h.trans (h.frames _ _) (h.trans hu (h.frames _ _))

theorem along_withoutLocals {m : Eval α} (hm : Along R m) : Along R m.withoutLocals :=
  along_within hm fun hu => h.trans (h.frames _ _) (h.trans hu (h.frames _ _))

theorem along_bindName (name : String) (v : Value) : Along R (Eval.bindName name v) := by
  intro w u hu
  have hb (x : World) (hx : w.bind? name v = some x) : R w x := by
    unfold World.bind? at hx
    split at hx <;> cases hx
    exact h.frames w _
  unfold Eval.bindName at hu
  split at hu
  · next x hx =>
    cases hu
    exact hb _ hx
  · cases hu
    exact h.refl w

theorem settle {w v : World} {i : Nat} {body : Callable Value} {r : Outcome Value}
    (hc : w.cells[i]? = some ⟨w.era, .unrealized body⟩) (ht : w.Tries i body r)
    (hr : ∀ u, r.world? = some u → R (w.setCell i .running) u)
    (hv : (Kernel.settle i body r).world? = some v)
    (hg : ∀ s, Kernel.settle i body r = .value s v → Grounded v s) : R w v := by
  cases r with
  | value s u =>
    have hu := hr u rfl
    unfold Kernel.settle at hv hg
    dsimp only at hv hg
    split at hv
    · next t hx =>
      cases hv
      exact h.complete hc ht hx hu (hg t (by rw [hx]))
    · next hx =>
      cases hv
      exact h.abandon hc ht (.value hx u) hu
  | failure e u =>
    cases hv
    exact h.abandon hc ht (.failure e u) (hr u rfl)
  | outOfFuel => cases hv

theorem realize {k : Kernel} (hn : ∃ n, k = Kernel.withFuel n) (hk : ∀ f, Along R (k.apply f [])) {i : Nat}
    {w v : World} (hv : (k.realize i w).world? = some v)
    (hg : ∀ s, k.realize i w = .value s v → Grounded v s) : R w v := by
  obtain ⟨n, rfl⟩ := hn
  unfold Kernel.realize at hv hg
  split at hv
  · cases hv
    exact h.refl w
  · next cell hc =>
    obtain ⟨era, state⟩ := cell
    cases state with
    | realized s =>
      cases hv
      exact h.refl w
    | running =>
      cases hv
      exact h.refl w
    | unrealized body =>
      rw [hc] at hg
      dsimp only at hv hg
      split at hv
      · next he =>
        rw [if_pos he] at hg
        exact h.settle (he ▸ hc) ⟨n, rfl⟩ (h.along_withoutLocals (hk body) _) hv hg
      · cases hv
        exact h.refl w

/-- A realization is followed at once by that of what it gave, and only where this ends does `R` hold. -/
theorem along_force {k : Kernel} (hn : ∃ n, k = Kernel.withFuel n) (hk : ∀ f, Along R (k.apply f []))
    (n : Nat) (v : Value) : Along R (k.force n v) := by
  induction n generalizing v with
  | zero =>
    cases v with
    | lazy i => exact along_outOfFuel
    | _ => exact h.along_pure _
  | succ n ih =>
    cases v with
    | lazy i =>
      intro w u hu
      rw [Kernel.force, Eval.bind_apply] at hu
      cases hr : k.realize i w with
      | value s x =>
        rw [hr] at hu
        have hw : R w x := by
          refine h.realize hn hk (by rw [hr]; rfl) fun s' hs' => ?_
          rw [hr] at hs'
          cases hs'
          refine Kernel.grounded_of_force (k := k) (n := n) fun hf => ?_
          dsimp only at hu
          rw [hf] at hu
          cases hu
        exact h.trans hw (ih s x u hu)
      | failure e x =>
        rw [hr] at hu
        cases hu
        exact h.realize hn hk (by rw [hr]; rfl) fun s hs => by
          rw [hr] at hs
          cases hs
      | outOfFuel =>
        rw [hr] at hu
        cases hu
    | _ => exact h.along_pure _

theorem along_change (c : Change) : Along R (Eval.modify c.apply) := by
  rintro w v ⟨⟩
  exact h.change c w

def simulation : Simulation where
  Place := Unit
  Sees := fun _ _ => True
  inner := ()
  sees_inner := fun _ => trivial
  Lax := False
  Runs := fun k _ => ∃ n, k = Kernel.withFuel n
  Rel := fun _ _ m _ => Along R m
  Open := fun _ _ m _ => Along R m
  rel_pure := fun a => h.along_pure a
  rel_bind := fun hm hf => h.along_bind hm hf
  rel_fail := fun _ => h.along_fail _
  rel_outOfFuel := along_outOfFuel
  rel_stuck := fun hl => hl.elim
  rel_attempt := fun hm => along_attempt hm
  rel_orFalse := fun hm => along_orFalse hm
  rel_look := fun {_ _ g} _ _ _ => h.along_read g
  rel_change := fun {_ c} _ => h.along_change c
  rel_newCallable := fun f => by
    rintro w v ⟨⟩
    exact h.newCallable f w
  rel_newCell := fun f => by
    rintro w v ⟨⟩
    exact h.newCell f w
  rel_keepingNamespace := fun hm => along_within hm h.restore
  rel_force := fun {_ _ _ n _} v _ hn hk => h.along_force hn hk n v
  rel_withScope := fun hm => h.along_withScope hm
  rel_withFrame := fun scope hm => h.along_withFrame scope hm
  open_rel := fun hm => hm
  open_bind := fun hm hf => h.along_bind hm hf
  open_bindName := fun name v => h.along_bindName name v

theorem global : h.simulation.Global where
  look := fun {_ _ g} _ _ => h.along_read g
  resolve := fun _ => h.along_bind (h.along_read _) fun result => h.along_ofExcept result
  change := fun c => h.along_change c

theorem follows (n : Nat) :
    h.simulation.Follows () (Kernel.withFuel n) (Kernel.withFuel n) := by
  rw [Kernel.withFuel_eq_barring]
  exact Simulation.follows_barring h.global (fun _ hx => hx) (fun _ _ => .inl rfl)
    (fun {m _} _ => ⟨m, (Kernel.withFuel_eq_barring m).symm⟩) (.inl rfl) fun _ _ _ => .inr fun _ => trivial

end Evolution

/-- From one moment between two requests to a later one. Between requests the host may do what it likes,
but it cannot reach into lazy sequences. -/
inductive Run : World → World → Prop
  | start (w : World) : Run w w
  | request {u v w : World} {n : Nat} (r : Request) : Run u v →
      r.after (Kernel.withFuel n) v = some w → Run u w
  | host {u v w : World} : Run u v → w.cells = v.cells → Run u w

namespace Evolution

variable {R : World → World → Prop} (h : Evolution R)
include h

theorem related (n : Nat) (r : Request) :
    r.Related (h.simulation.Rel ()) (Kernel.withFuel n) (Kernel.withFuel n) :=
  (h.follows n).request (h.follows budget) h.global.toTables id r

theorem after {n : Nat} {w v : World} {r : Request} (hr : r.after (Kernel.withFuel n) w = some v)
    (hd : r = .drop → R w w.dropEnvironment) : R w v := by
  have hk := h.related n r
  cases r with
  | drop =>
    cases hr
    exact hd rfl
  | _ => exact hk w v hr

theorem run (hc : ∀ {w v : World}, v.cells = w.cells → R w v) {u w : World} (hr : Run u w) : R u w := by
  induction hr with
  | start => exact h.refl _
  | request r _ hw ih => exact h.trans ih (h.after hw fun _ => hc rfl)
  | host _ hw ih => exact h.trans ih (hc hw)

end Evolution

end LazyLisp
