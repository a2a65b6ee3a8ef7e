import LazyLisp.Proofs.Sequences

namespace LazyLisp

namespace Calls

variable {w u : World} {f : Callable Value} {args : List Value} {v : Value} {r : Outcome Value}

theorem of_ne {n : Nat} (hr : r ≠ .outOfFuel) (h : (Kernel.withFuel n).apply f args w = r) : Calls w f args r := by
  subst h
  exact Eventually.of_ne (fun _ _ hl => (Kernel.earlier_follows_of_le hl).rel_apply f args w) hr

theorem of_apply {n : Nat} (h : (Kernel.withFuel n).apply f args w = .value v u) : Calls w f args (.value v u) :=
  of_ne nofun h

theorem evolves {R : World → World → Prop} (hR : Evolution R) (h : Calls w f args r)
    (hr : r.world? = some u) : R w u := by
  obtain ⟨-, n, hn⟩ := h
  have hn : (Kernel.withFuel n).apply f args w = r := hn n (Nat.le_refl n)
  exact (hR.follows n).rel_apply f args w u (by rw [hn]; exact hr)

theorem passes (h : Calls w f args (.value v u)) : w.Passes u := h.evolves evolution_passes rfl

end Calls

namespace World

/-- The cell has a body of the live environment that was not run yet. -/
def Awaits (w : World) (i : Nat) (g : Callable Value) : Prop := w.cells[i]? = some ⟨w.era, .unrealized g⟩

def running (w : World) (i : Nat) : World := { w.setCell i .running with frames := [[]] }

theorem setCell_running_withFrames (w : World) (i : Nat) :
    { w.setCell i .running with frames := [[]] } = w.running i := rfl

def leaveBody (w : World) (i : Nat) (u : World) (s : Value) : World :=
  { u with frames := w.frames }.setCell i (.realized s)

def putBack (w : World) (i : Nat) (g : Callable Value) (v : World) : World :=
  { v with frames := w.frames }.setCell i (.unrealized g)

def settled (w : World) (i : Nat) (g : Callable Value) : Outcome Value → Outcome Value
  | .value x u =>
    match x.asSequence? with
    | some s => .value s (w.leaveBody i u s)
    | none => .failure (.typeMismatch .sequence) (w.putBack i g u)
  | .failure e u => .failure e (w.putBack i g u)
  | .outOfFuel => .outOfFuel

variable {w v : World} {i : Nat} {g : Callable Value} {r : Outcome Value} {s : Value}

theorem settled_eq_value (h : w.settled i g r = .value s v) :
    ∃ x u, r = .value x u ∧ x.asSequence? = some s ∧ v = w.leaveBody i u s := by
  cases r with
  | value x u =>
    unfold settled at h
    dsimp only at h
    split at h
    · next t ht =>
      cases h
      exact ⟨x, u, rfl, ht, rfl⟩
    · cases h
  | failure e u => cases h
  | outOfFuel => cases h

theorem settled_ne_outOfFuel (h : r ≠ .outOfFuel) : w.settled i g r ≠ .outOfFuel := by
  intro hs
  cases r with
  | value x u =>
    unfold settled at hs
    dsimp only at hs
    split at hs <;> cases hs
  | failure e u => cases hs
  | outOfFuel => exact h rfl

/-- A body that waits is called once, and what the call gives is all that counts. -/
theorem Awaits.realize_eq (h : w.Awaits i g) (k : Kernel) :
    k.realize i w = w.settled i g (k.apply g [] (w.running i)) := by
  have hc : w.cells[i]? = some ⟨w.era, .unrealized g⟩ := h
  unfold Kernel.realize
  simp only [hc, if_true, Eval.withoutLocals, Eval.within, setCell_running_withFrames]
  cases k.apply g [] (w.running i) with
  | value x u =>
    simp only [Kernel.settle, settled]
    cases x.asSequence? <;> rfl
  | failure e u => rfl
  | outOfFuel => rfl

end World

/-- The ways in which the elements of a lazy sequence are asked for. Only if they wait for it is the body called,
and then it is called just once. -/
inductive Realization (w : World) (i : Nat) : Outcome Value → Prop
  | ready {s : Value} : w.cellValue? i = some s → Realization w i (.value s w)
  | called {g : Callable Value} {r : Outcome Value} : w.Awaits i g → Calls (w.running i) g [] r →
      Realization w i (w.settled i g r)
  | running {era : Nat} : w.cells[i]? = some ⟨era, .running⟩ → Realization w i (.failure .selfReference w)
  | dropped {era : Nat} {g : Callable Value} : w.cells[i]? = some ⟨era, .unrealized g⟩ → era ≠ w.era →
      Realization w i (.failure .environmentDropped w)
  | unknown : w.cells[i]? = none → Realization w i (.failure .environmentDropped w)

namespace Realizes

variable {w u : World} {i : Nat} {g : Callable Value} {r : Outcome Value}

theorem of_calls (hw : w.Awaits i g) (h : Calls (w.running i) g [] r) : Realizes w i (w.settled i g r) := by
  obtain ⟨hr, n, hn⟩ := h
  refine ⟨World.settled_ne_outOfFuel hr, n, fun l hl => ?_⟩
  have hl : (Kernel.withFuel l).apply g [] (w.running i) = r := hn l hl
  change (Kernel.withFuel l).realize i w = _
  rw [hw.realize_eq, hl]

theorem exists_calls (hw : w.Awaits i g) (h : Realizes w i r) :
    ∃ r', Calls (w.running i) g [] r' ∧ r = w.settled i g r' := by
  obtain ⟨hr, n, hn⟩ := h
  have hn : (Kernel.withFuel n).realize i w = r := hn n (Nat.le_refl n)
  rw [hw.realize_eq] at hn
  refine ⟨_, .of_ne (fun hf => ?_) rfl, hn.symm⟩
  rw [hf] at hn
  exact hr hn.symm

theorem of_calls_value {v s : Value} (hw : w.Awaits i g) (h : Calls (w.running i) g [] (.value v u))
    (hs : v.asSequence? = some s) : Realizes w i (.value s (w.leaveBody i u s)) := by
  have hr := of_calls hw h
  rwa [World.settled, hs] at hr

end Realizes

theorem realizes_iff {w : World} {i : Nat} {r : Outcome Value} : Realizes w i r ↔ Realization w i r := by
  have settles {r : Outcome Value} (hr : r ≠ .outOfFuel) (h : ∀ k : Kernel, k.realize i w = r) : Realizes w i r :=
    ⟨hr, 0, fun l _ => h (Kernel.withFuel l)⟩
  constructor
  · intro h
    have hstop {r' : Outcome Value} (hr : ∀ k : Kernel, k.realize i w = r') : r' = r := by
      obtain ⟨-, n, hn⟩ := h
      exact (hr _).symm.trans (hn n (Nat.le_refl n))
    cases hc : w.cells[i]? with
    | none => exact hstop (fun k => by rw [Kernel.realize, hc]) ▸ .unknown hc
    | some c =>
      obtain ⟨era, state⟩ := c
      cases state with
      | realized s =>
        exact hstop (fun k => k.realize_of_realized hc) ▸ .ready (World.cellValue?_eq_some.mpr ⟨era, hc⟩)
      | running => exact hstop (fun k => by rw [Kernel.realize, hc]) ▸ .running hc
      | unrealized g =>
        by_cases he : era = w.era
        · subst he
          obtain ⟨r', hr, rfl⟩ := h.exists_calls hc
          exact .called hc hr
        · exact hstop (fun k => by rw [Kernel.realize, hc]; exact if_neg he) ▸ .dropped hc he
  · rintro (hs | ⟨hw, hr⟩ | hc | ⟨hc, he⟩ | hc)
    · exact realizes_of_cellValue? hs
    · exact .of_calls hw hr
    · exact settles nofun fun k => by rw [Kernel.realize, hc]
    · exact settles nofun fun k => by rw [Kernel.realize, hc]; exact if_neg he
    · exact settles nofun fun k => by rw [Kernel.realize, hc]

end LazyLisp
