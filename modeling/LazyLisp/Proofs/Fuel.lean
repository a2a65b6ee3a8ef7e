import LazyLisp.Proofs.Simulation.Evaluation

namespace LazyLisp

variable {α β : Type}

def Below (m m' : Eval α) : Prop := ∀ w, m w = .outOfFuel ∨ m w = m' w

namespace Below

variable {m m' : Eval α}

theorem refl (m : Eval α) : Below m m := fun _ => .inr rfl

theorem eq_of_ne (h : Below m m') {w : World} (hw : m w ≠ .outOfFuel) : m' w = m w :=
  ((h w).resolve_left hw).symm

theorem bind {f f' : α → Eval β} (hm : Below m m') (hf : ∀ a, Below (f a) (f' a)) :
    Below (m >>= f) (m' >>= f') := by
  intro w
  rw [Eval.bind_apply, Eval.bind_apply]
  rcases hm w with h | h
  · exact .inl (by rw [h])
  · rw [← h]
    cases m w with
    | value a w => exact hf a w
    | failure e w => exact .inr rfl
    | outOfFuel => exact .inl rfl

theorem attempt (hm : Below m m') : Below m.attempt m'.attempt := by
  intro w
  unfold Eval.attempt
  rcases hm w with h | h
  · exact .inl (by rw [h])
  · exact .inr (by rw [h])

theorem orFalse {m m' : Eval Bool} (hm : Below m m') : Below m.orFalse m'.orFalse := by
  intro w
  unfold Eval.orFalse
  rcases hm w with h | h
  · exact .inl (by rw [h])
  · exact .inr (by rw [h])

theorem within {σ : Type} (save : World → σ) (enter : World → World) (leave : σ → World → World)
    (hm : Below m m') : Below (Eval.within save enter leave m) (Eval.within save enter leave m') := by
  intro w
  unfold Eval.within
  dsimp only
  rcases hm (enter w) with h | h
  · exact .inl (by rw [h])
  · exact .inr (by rw [h])

theorem realize {k k' : Kernel} (hk : ∀ f, Below (k.apply f []) (k'.apply f [])) (cell : Nat) :
    Below (k.realize cell) (k'.realize cell) := by
  intro w
  unfold Kernel.realize
  split
  · exact .inr rfl
  · split
    · exact .inr rfl
    · exact .inr rfl
    · next body _ =>
      split
      · have hb : Below (k.apply body []).withoutLocals (k'.apply body []).withoutLocals :=
          .within _ _ _ (hk body)
        rcases hb (w.setCell cell .running) with h | h
        · exact .inl (by rw [h]; rfl)
        · exact .inr (by rw [h])
      · exact .inr rfl

end Below

def earlier : Simulation where
  Place := Unit
  Sees := fun _ _ => True
  inner := ()
  sees_inner := fun _ => trivial
  Lax := True
  Rel := fun _ => Below
  Open := fun _ => Below
  rel_pure := fun _ => .refl _
  rel_bind := fun hm hf => hm.bind hf
  rel_fail := fun _ => .refl _
  rel_outOfFuel := .refl _
  rel_stuck := fun _ _ => .inl rfl
  rel_attempt := fun hm => hm.attempt
  rel_orFalse := fun hm => hm.orFalse
  rel_look := fun _ _ _ => .refl _
  rel_change := fun _ => .refl _
  rel_newCallable := fun _ => .refl _
  rel_newCell := fun _ => .refl _
  rel_keepingNamespace := fun hm => .within _ _ _ hm
  rel_force := fun v hn _ hk => Kernel.force_related (fun _ => .refl _) (fun hm hf => hm.bind hf) (.refl _)
    (fun _ _ _ => .inl rfl) (fun cell => .realize hk cell) hn v
  rel_withScope := fun hm => .within _ _ _ hm
  rel_withFrame := fun _ hm => .within _ _ _ hm
  open_rel := fun hm => hm
  open_bind := fun hm hf => hm.bind hf
  open_bindName := fun _ _ => .refl _

theorem earlier_tables : earlier.Tables where
  look := fun _ _ => .refl _
  change := fun _ => .refl _

theorem Below.haltIf {m m' : Eval α} (h : Below m m') {stop stop' : World → Bool}
    (hs : ∀ w, stop' w = true → stop w = true) : Below (m.haltIf stop) (m'.haltIf stop') := by
  intro w
  unfold Eval.haltIf
  cases hw : stop w with
  | true => exact .inl rfl
  | false =>
    have hw' : stop' w = false := by
      by_cases h' : stop' w = true
      · rw [hs w h'] at hw
        cases hw
      · simpa using h'
    simp only [hw', Bool.false_eq_true, if_false]
    exact h w

theorem earlier_follows_watched {s s' : Watch}
    (hl : ∀ {name w}, s'.lookup name w = true → s.lookup name w = true)
    (hc : ∀ {f a w}, s'.call f a w = true → s.call f a w = true) {m n : Nat} (h : m ≤ n) :
    earlier.Follows () (Kernel.watched s m) (Kernel.watched s' n) := by
  refine Simulation.follows_watched (fun _ => True) trivial ?_ ?_ (fun _ => trivial) (.inr ⟨trivial, h⟩) trivial
  · intro _ name _ _
    exact (Below.refl _).haltIf fun w => hl
  · intro _ m n f a _ _ h hk ha
    exact Below.haltIf (h.rel_call hk ha (fun _ _ => trivial) (fun _ _ => trivial) fun _ => earlier_tables) fun w => hc

theorem earlier_follows (barred : Callable Value → Args → Bool) {m n : Nat} (h : m ≤ n) :
    earlier.Follows () (Kernel.barring barred m) (Kernel.withFuel n) := by
  rw [Kernel.withFuel_eq_watched, Kernel.barring_eq_watched]
  refine earlier_follows_watched ?_ ?_ h
  · intro name w hl
    cases hl
  · intro f a w hc
    cases hc

namespace Kernel

theorem earlier_follows_of_le {m n : Nat} (h : m ≤ n) :
    earlier.Follows () (withFuel m) (withFuel n) := by
  rw [withFuel_eq_barring m]
  exact earlier_follows _ h

theorem eval_withFuel_of_le {m n : Nat} (h : m ≤ n) {v : Value} {w : World}
    (hw : (withFuel m).eval v w ≠ .outOfFuel) : (withFuel n).eval v w = (withFuel m).eval v w :=
  Below.eq_of_ne ((earlier_follows_of_le h).eval v fun _ _ => trivial) hw

theorem invoke_withFuel_of_le {m n : Nat} (h : m ≤ n) {f : Callable Value} {a : Args} {w : World}
    (hw : (withFuel m).invoke f a w ≠ .outOfFuel) :
    (withFuel n).invoke f a w = (withFuel m).invoke f a w :=
  Below.eq_of_ne ((earlier_follows_of_le h).invoke f a (.inr fun _ _ _ _ => trivial)) hw

end Kernel

end LazyLisp
