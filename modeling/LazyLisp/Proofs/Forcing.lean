import LazyLisp.Proofs.Fuel
import LazyLisp.Proofs.Traversal

namespace LazyLisp

theorem World.isRealized_eq_false_iff {w : World} {i : Nat} :
    w.isRealized i = false ↔ w.cellValue? i = none := by
  unfold isRealized cellValue?
  cases w.cells[i]? with
  | none => simp
  | some c =>
    obtain ⟨era, state⟩ := c
    cases state <;> simp [CellState.isRealized, CellState.value?]

namespace Grounded

variable {w v : World} {x : Value} {i : Nat}

theorem of_cellValue? {s : Value} (hs : w.cellValue? i = some s) (h : Grounded w s) :
    Grounded w (.lazy i) := by
  obtain ⟨era, hc⟩ := World.cellValue?_eq_some.mp hs
  exact .ready hc h

theorem of_cellValue?_eq_none (h : w.cellValue? i = none) : Grounded w (.lazy i) :=
  .pending (World.isRealized_eq_false_iff.mpr h)

theorem congr (h : Grounded w x) (hc : v.cells = w.cells) : Grounded v x := by
  induction h with
  | plain hx => exact .plain hx
  | pending hi => exact .pending (by rwa [World.isRealized, hc])
  | ready hi _ ih => exact .ready (by rwa [hc]) ih

theorem addCell (h : Grounded w x) (body : Callable Value) : Grounded (w.addCell body).2 x := by
  induction h with
  | plain hx => exact .plain hx
  | @pending i hi =>
    refine .pending ?_
    unfold World.isRealized at hi ⊢
    rw [World.getElem?_addCell]
    by_cases hs : i = w.cells.size
    · rw [if_pos hs]
      rfl
    · rwa [if_neg hs]
  | @ready i era s hi _ ih =>
    have hs : i ≠ w.cells.size := by
      rintro rfl
      simp at hi
    have hi' : (w.addCell body).2.cells[i]? = some ⟨era, .realized s⟩ := by
      rw [World.getElem?_addCell, if_neg hs, hi]
    exact .ready hi' ih

theorem setCell {state : CellState} (h : Grounded w x)
    (hs : ∀ s, state = .realized s → Grounded (w.setCell i state) s) :
    Grounded (w.setCell i state) x := by
  have hi : Grounded (w.setCell i state) (.lazy i) := by
    cases hc : w.cells[i]? with
    | none => exact .pending (by rw [World.isRealized, World.getElem?_setCell, if_pos rfl, hc]; rfl)
    | some c =>
      have hc' := World.getElem?_setCell_self hc state
      cases state with
      | realized s => exact .ready hc' (hs s rfl)
      | unrealized body => exact .pending (by rw [World.isRealized, hc']; rfl)
      | running => exact .pending (by rw [World.isRealized, hc']; rfl)
  induction h with
  | plain hx => exact .plain hx
  | @pending j hj =>
    by_cases hij : i = j
    · exact hij ▸ hi
    · exact .pending (by rwa [World.isRealized, World.getElem?_setCell_of_ne w hij])
  | @ready j era t hj _ ih =>
    by_cases hij : i = j
    · exact hij ▸ hi
    · exact .ready (by rwa [World.getElem?_setCell_of_ne w hij]) ih

end Grounded

def World.Founded (w : World) : Prop := ∀ x, Grounded w x

theorem World.Founded.congr {w v : World} (hw : w.Founded) (hc : v.cells = w.cells) : v.Founded :=
  fun x => (hw x).congr hc

theorem World.Founded.running {w : World} (hw : w.Founded) (i : Nat) :
    (w.setCell i .running).Founded :=
  fun x => (hw x).setCell nofun

theorem evolution_founded : Evolution fun w v => w.Founded → v.Founded where
  frames := fun _ _ hw => hw.congr rfl
  trans := fun huv hvw hu => hvw (huv hu)
  change := fun c w hw => hw.congr (c.cells_apply w)
  newCallable := fun _ _ hw => hw.congr rfl
  newCell := fun f _ hw x => (hw x).addCell f
  restore := fun h hv => (h hv).congr rfl
  abandon := fun _ _ _ h hw x => (h (hw.running _) x).setCell nofun
  complete := fun _ _ _ h hs hw x => (h (hw.running _) x).setCell fun t ht => by
    cases ht
    exact hs

inductive Leads (w : World) : Value → Nat → Prop
  | here (i : Nat) : Leads w (.lazy i) i
  | link {i j : Nat} {s : Value} : w.cellValue? j = some s → Leads w s i → Leads w (.lazy j) i

theorem Grounded.not_leads_back {w : World} {x s : Value} {i : Nat} (h : Grounded w x)
    (hi : w.cellValue? i = some s) (hs : Leads w s i) : ¬Leads w x i := by
  induction h with
  | plain hx =>
    intro hl
    cases hl with
    | here => exact hx i rfl
    | link => exact hx _ rfl
  | pending hj =>
    rw [World.isRealized_eq_false_iff] at hj
    intro hl
    cases hl with
    | here =>
      rw [hi] at hj
      cases hj
    | link ht =>
      rw [ht] at hj
      cases hj
  | @ready j era t hj _ ih =>
    have ht : w.cellValue? j = some t := World.cellValue?_eq_some.mpr ⟨era, hj⟩
    intro hl
    cases hl with
    | here =>
      rw [hi] at ht
      cases ht
      exact ih hs
    | link ht' hl =>
      rw [ht'] at ht
      cases ht
      exact ih hl

theorem Grounded.of_not_leads {w : World} {x s : Value} {i : Nat} (h : Grounded w x)
    (hl : ¬Leads (w.setCell i (.realized s)) x i) : Grounded (w.setCell i (.realized s)) x := by
  induction h with
  | plain hx => exact .plain hx
  | @pending j hj =>
    have hij : i ≠ j := by
      rintro rfl
      exact hl (.here i)
    exact .pending (by rwa [World.isRealized, World.getElem?_setCell_of_ne w hij])
  | @ready j era t hj _ ih =>
    have hij : i ≠ j := by
      rintro rfl
      exact hl (.here i)
    have hj' : (w.setCell i (.realized s)).cells[j]? = some ⟨era, .realized t⟩ := by
      rwa [World.getElem?_setCell_of_ne w hij]
    exact .ready hj' (ih fun hlt => hl (.link (World.cellValue?_eq_some.mpr ⟨era, hj'⟩) hlt))

section

variable {α : Type}

def Eventually (m : Nat → Outcome α) (r : Outcome α) : Prop :=
  r ≠ .outOfFuel ∧ ∃ n, ∀ l, n ≤ l → m l = r

namespace Eventually

variable {m : Nat → Outcome α} {r r' : Outcome α}

theorem unique (h : Eventually m r) (h' : Eventually m r') : r = r' := by
  obtain ⟨-, n, hn⟩ := h
  obtain ⟨-, n', hn'⟩ := h'
  rw [← hn (max n n') (by omega), hn' (max n n') (by omega)]

theorem of_ne (hm : ∀ l l', l ≤ l' → m l = .outOfFuel ∨ m l = m l') {n : Nat}
    (h : m n ≠ .outOfFuel) : Eventually m (m n) :=
  ⟨h, n, fun l hl => ((hm n l hl).resolve_left h).symm⟩

end Eventually

end

def Realizes (w : World) (i : Nat) (r : Outcome Value) : Prop :=
  Eventually (fun l => (Kernel.withFuel l).realize i w) r

def Forces (w : World) (v : Value) (r : Outcome Value) : Prop :=
  Eventually (fun l => (Kernel.withFuel l).force l v w) r

def Steps (w : World) (v : Value) (r : Outcome (Option (Value × Value))) : Prop :=
  Eventually (fun l => (Kernel.withFuel l).uncons l v w) r

theorem Realizes.exists_fuel {w : World} {i : Nat} {r : Outcome Value} (h : Realizes w i r) :
    ∃ n, ∀ l, n ≤ l → (Kernel.withFuel l).realize i w = r := h.2

theorem Forces.exists_fuel {w : World} {v : Value} {r : Outcome Value} (h : Forces w v r) :
    ∃ n, ∀ l, n ≤ l → (Kernel.withFuel l).force l v w = r := h.2

namespace Kernel

theorem below_realize {m n : Nat} (h : m ≤ n) (i : Nat) :
    Below ((withFuel m).realize i) ((withFuel n).realize i) :=
  .realize (fun f => (earlier_follows_of_le h).rel_apply f []) i

theorem below_force {m n m' n' : Nat} (h : m ≤ n) (h' : m' ≤ n') (v : Value) :
    Below ((withFuel m).force m' v) ((withFuel n).force n' v) :=
  (earlier_follows_of_le h).rel_force (i := ()) (.inr ⟨trivial, h'⟩) v

theorem realizes_of_ne {n i : Nat} {w : World} (h : (withFuel n).realize i w ≠ .outOfFuel) :
    Realizes w i ((withFuel n).realize i w) :=
  .of_ne (fun _ _ hl => below_realize hl i w) h

theorem forces_of_ne {n : Nat} {v : Value} {w : World} (h : (withFuel n).force n v w ≠ .outOfFuel) :
    Forces w v ((withFuel n).force n v w) :=
  .of_ne (fun _ _ hl => below_force hl hl v w) h

theorem force_eq_value {k : Kernel} {n : Nat} {v x : Value} {w u : World}
    (h : k.force n v w = .value x u) : ∀ i, x ≠ .lazy i := by
  induction n generalizing v w with
  | zero =>
    cases v with
    | lazy i => cases h
    | _ =>
      cases h
      exact nofun
  | succ n ih =>
    cases v with
    | lazy i =>
      rw [force, Eval.bind_apply] at h
      cases hr : k.realize i w with
      | value s u' =>
        rw [hr] at h
        exact ih h
      | failure e u' =>
        rw [hr] at h
        cases h
      | outOfFuel =>
        rw [hr] at h
        cases h
    | _ =>
      cases h
      exact nofun

end Kernel

namespace Forces

variable {w u : World} {v x s : Value} {i : Nat} {r : Outcome Value}

theorem of_not_lazy (hv : ∀ i, v ≠ .lazy i) (w : World) : Forces w v (.value v w) := by
  have hf (k : Kernel) (l : Nat) : k.force l v w = .value v w := by
    rw [k.force_of_not_lazy l hv]
    rfl
  exact ⟨nofun, 0, fun l _ => hf (Kernel.withFuel l) l⟩

theorem lazy_iff (hr : Realizes w i (.value s u)) : Forces w (.lazy i) r ↔ Forces u s r := by
  obtain ⟨a, ha⟩ := hr.exists_fuel
  have hstep (l : Nat) (hl : a ≤ l) : (Kernel.withFuel (l + 1)).force (l + 1) (.lazy i) w =
      (Kernel.withFuel (l + 1)).force l s u := by
    rw [Kernel.force, Eval.bind_apply, ha (l + 1) (by omega)]
  constructor
  · intro h
    obtain ⟨b, hb⟩ := h.exists_fuel
    have he : (Kernel.withFuel (max a b + 1)).force (max a b) s u = r := by
      rw [← hstep _ (by omega), hb _ (by omega)]
    have hn := (Kernel.below_force (Nat.le_refl _) (Nat.le_succ (max a b)) s).eq_of_ne (he ▸ h.1)
    exact (hn.trans he) ▸ Kernel.forces_of_ne (hn.trans he ▸ h.1)
  · intro h
    obtain ⟨b, hb⟩ := h.exists_fuel
    have he : (Kernel.withFuel (max a b)).force (max a b) s u = r := hb _ (by omega)
    have hn := (Kernel.below_force (Nat.le_succ (max a b)) (Nat.le_refl _) s).eq_of_ne (he ▸ h.1)
    have hw := (hstep _ (Nat.le_max_left a b)).trans (hn.trans he)
    exact hw ▸ Kernel.forces_of_ne (hw ▸ h.1)

theorem of_failure {e : Failure} (hr : Realizes w i (.failure e u)) :
    Forces w (.lazy i) (.failure e u) := by
  obtain ⟨a, ha⟩ := hr.exists_fuel
  have he : (Kernel.withFuel (a + 1)).force (a + 1) (.lazy i) w = .failure e u := by
    rw [Kernel.force, Eval.bind_apply, ha (a + 1) (by omega)]
  exact he ▸ Kernel.forces_of_ne fun hn => by
    rw [he] at hn
    cases hn

theorem not_lazy (h : Forces w v (.value x u)) : ∀ i, x ≠ .lazy i := by
  obtain ⟨n, hn⟩ := h.exists_fuel
  exact Kernel.force_eq_value (hn n (Nat.le_refl n))

theorem grounded (h : Forces w v r) : Grounded w v := by
  obtain ⟨n, hn⟩ := h.exists_fuel
  exact Kernel.grounded_of_force (hn n (Nat.le_refl n) ▸ h.1)

theorem steps_value (h : Forces w v (.value x u)) : Steps w v (.value x.split? u) := by
  obtain ⟨n, hn⟩ := h.exists_fuel
  refine ⟨nofun, n, fun l hl => ?_⟩
  change (Kernel.withFuel l).uncons l v w = _
  rw [Kernel.uncons_eq_force, Eval.bind_apply, hn l hl]
  rfl

theorem steps_failure {e : Failure} (h : Forces w v (.failure e u)) : Steps w v (.failure e u) := by
  obtain ⟨n, hn⟩ := h.exists_fuel
  refine ⟨nofun, n, fun l hl => ?_⟩
  change (Kernel.withFuel l).uncons l v w = _
  rw [Kernel.uncons_eq_force, Eval.bind_apply, hn l hl]

end Forces

inductive Ends (w : World) (v : Value) : Prop
  | value {x : Value} {u : World} (hx : ∀ i, x ≠ .lazy i) (hf : Forces w v (.value x u))
      (hs : Steps w v (.value x.split? u)) : Ends w v
  | failure {e : Failure} {u : World} (hf : Forces w v (.failure e u))
      (hs : Steps w v (.failure e u)) : Ends w v

theorem ends_iff {w : World} {v : Value} : Ends w v ↔ ∃ r, Forces w v r := by
  constructor
  · intro h
    cases h with
    | value _ hf _ => exact ⟨_, hf⟩
    | failure hf _ => exact ⟨_, hf⟩
  · rintro ⟨r, hr⟩
    cases r with
    | value x u => exact .value hr.not_lazy hr hr.steps_value
    | failure e u => exact .failure hr hr.steps_failure
    | outOfFuel => exact absurd rfl hr.1

/-- Forcing `v` in the world `w` comes to `x` in the world `u`, and `m` bodies are run on the way. -/
inductive Forcing : World → Value → Nat → World → Value → Prop
  | start (w : World) (v : Value) : Forcing w v 0 w v
  | ready {w u : World} {i m : Nat} {s x : Value} : w.cellValue? i = some s →
      Forcing w s m u x → Forcing w (.lazy i) m u x
  | run {w w' u : World} {i m : Nat} {s x : Value} : w.cellValue? i = none →
      Realizes w i (.value s w') → Forcing w' s m u x → Forcing w (.lazy i) (m + 1) u x

theorem realizes_of_cellValue? {w : World} {i : Nat} {s : Value} (h : w.cellValue? i = some s) :
    Realizes w i (.value s w) := by
  obtain ⟨era, hc⟩ := World.cellValue?_eq_some.mp h
  exact ⟨nofun, 0, fun l _ => (Kernel.withFuel l).realize_of_realized hc⟩

namespace Forcing

variable {w u : World} {v x : Value} {m i : Nat} {r : Outcome Value}

theorem forces_iff (h : Forcing w v m u x) : Forces w v r ↔ Forces u x r := by
  induction h with
  | start => exact Iff.rfl
  | ready hs _ ih => exact (Forces.lazy_iff (realizes_of_cellValue? hs)).trans ih
  | run _ hr _ ih => exact (Forces.lazy_iff hr).trans ih

theorem grounded (h : Forcing w v m u (.lazy i)) (hi : u.cellValue? i = none) : Grounded w v := by
  generalize hx : Value.lazy i = x at h
  induction h with
  | start =>
    subst hx
    exact .of_cellValue?_eq_none hi
  | ready hs _ ih => exact .of_cellValue? hs (ih hi hx)
  | run hn _ _ _ => exact .of_cellValue?_eq_none hn

end Forcing

theorem Realizes.founded {w u : World} {i : Nat} {s : Value} (hw : w.Founded)
    (h : Realizes w i (.value s u)) (hs : Grounded u s) : u.Founded := by
  obtain ⟨n, hn⟩ := h.exists_fuel
  have hr := hn n (Nat.le_refl n)
  have hk (f : Callable Value) := (evolution_founded.follows n).rel_apply f []
  refine evolution_founded.realize ⟨n, rfl⟩ hk (by rw [hr]; rfl) (fun t ht => ?_) hw
  rw [hr] at ht
  cases ht
  exact hs

theorem Realizes.cellValue {w u : World} {i : Nat} {s : Value} (h : Realizes w i (.value s u)) :
    u.cellValue? i = some s := by
  obtain ⟨n, hn⟩ := h.exists_fuel
  exact (Kernel.realize_eq_value (hn n (Nat.le_refl n))).1

theorem Realizes.grounded {w u : World} {i : Nat} {s : Value} (hw : w.Founded)
    (hi : w.cellValue? i = none) (h : Realizes w i (.value s u)) (hl : ¬Leads u s i) :
    Grounded u s := by
  obtain ⟨n, hn⟩ := h.exists_fuel
  have hr := hn n (Nat.le_refl n)
  unfold Kernel.realize at hr
  cases hc : w.cells[i]? with
  | none =>
    rw [hc] at hr
    cases hr
  | some cell =>
    obtain ⟨era, state⟩ := cell
    rw [hc] at hr
    cases state with
    | realized t =>
      rw [World.cellValue?_eq_some.mpr ⟨era, hc⟩] at hi
      cases hi
    | running => cases hr
    | unrealized body =>
      dsimp only at hr
      split at hr
      · obtain ⟨x, u', hb, -, rfl⟩ := Kernel.settle_eq_value hr
        have ha := evolution_founded.along_withoutLocals ((evolution_founded.follows n).rel_apply body [])
        have hu : u'.Founded := ha _ u' (by rw [hb]; rfl) (hw.running i)
        exact (hu s).of_not_leads hl
      · cases hr

/-- A needed body gives a sequence that leads back to its own. -/
def LoopsBack (w : World) (v : Value) : Prop :=
  ∃ m u i s u', Forcing w v m u (.lazy i) ∧ u.cellValue? i = none ∧ Realizes u i (.value s u') ∧
    Leads u' s i

/-- Each needed body returns, there are at most `most` of them, and none leads back to its own. -/
structure Straight (w : World) (v : Value) (most : Nat) : Prop where
  returns : ∀ {m : Nat} {u : World} {i : Nat}, Forcing w v m u (.lazy i) → ∃ r, Realizes u i r
  bound : ∀ {m : Nat} {u : World} {x : Value}, Forcing w v m u x → m ≤ most
  onward : ¬LoopsBack w v

namespace Straight

variable {w u : World} {s v : Value} {i most : Nat}

theorem ready (h : Straight w (.lazy i) most) (hs : w.cellValue? i = some s) : Straight w s most where
  returns := fun hf => h.returns (.ready hs hf)
  bound := fun hf => h.bound (.ready hs hf)
  onward := by
    rintro ⟨m, u, j, t, u', hf, hrest⟩
    exact h.onward ⟨m, u, j, t, u', .ready hs hf, hrest⟩

theorem run (h : Straight w (.lazy i) most) (hi : w.cellValue? i = none)
    (hr : Realizes w i (.value s u)) : 0 < most ∧ Straight u s (most - 1) := by
  refine ⟨h.bound (.run hi hr (.start u s)), fun hf => h.returns (.run hi hr hf), fun hf => ?_, ?_⟩
  · have := h.bound (.run hi hr hf)
    omega
  · rintro ⟨m, u', j, t, u'', hf, hrest⟩
    exact h.onward ⟨m + 1, u', j, t, u'', .run hi hr hf, hrest⟩

theorem exists_forces (hw : w.Founded) (h : Straight w v most) : ∃ r, Forces w v r := by
  -- On the bodies that are left to run, and between two of them on the links in a founded world.
  induction most using Nat.strongRecOn generalizing w v with
  | ind most ih =>
    induction hw v with
    | plain hx => exact ⟨_, .of_not_lazy hx w⟩
    | @pending i hi =>
      rw [World.isRealized_eq_false_iff] at hi
      obtain ⟨r, hr⟩ := h.returns (.start w _)
      cases r with
      | value s u =>
        have hl : ¬Leads u s i := fun hl => h.onward ⟨0, w, i, s, u, .start w _, hi, hr, hl⟩
        obtain ⟨hm, hs⟩ := h.run hi hr
        obtain ⟨r, hf⟩ := ih (most - 1) (by omega) (hr.founded hw (hr.grounded hw hi hl)) hs
        exact ⟨r, (Forces.lazy_iff hr).mpr hf⟩
      | failure e u => exact ⟨_, .of_failure hr⟩
      | outOfFuel => exact absurd rfl hr.1
    | @ready i era s hi _ ihs =>
      have hs : w.cellValue? i = some s := World.cellValue?_eq_some.mpr ⟨era, hi⟩
      obtain ⟨r, hf⟩ := ihs (h.ready hs)
      exact ⟨r, (Forces.lazy_iff (realizes_of_cellValue? hs)).mpr hf⟩

end Straight

theorem Forces.not_loopsBack {w : World} {v : Value} {r : Outcome Value} (h : Forces w v r) :
    ¬LoopsBack w v := by
  rintro ⟨m, u, i, s, u', hf, -, hr, hl⟩
  have hs : Forces u' s r := (Forces.lazy_iff hr).mp (hf.forces_iff.mp h)
  exact hs.grounded.not_leads_back hr.cellValue hl hl

/-- The worlds in which a value may come to be forced: between requests, and while a request runs the
bodies of lazy sequences, of which each may be needed only after others have been run. -/
inductive Occurs : World → Prop
  | fresh {w : World} : w.cells = #[] → Occurs w
  | request {v w : World} {n : Nat} (r : Request) : Occurs v →
      r.after (Kernel.withFuel n) v = some w → Occurs w
  | needed {w u : World} {x : Value} {m i : Nat} : Occurs w → Forcing w x m u (.lazy i) →
      u.cellValue? i = none → Occurs u
  | begun {w : World} {i era : Nat} {body : Callable Value} : Occurs w →
      w.cells[i]? = some ⟨era, .unrealized body⟩ → Occurs (w.setCell i .running)
  | elsewhere {v w : World} : Occurs v → w.cells = v.cells → Occurs w

namespace Occurs

theorem founded_of_forcing {w u : World} {x : Value} {m i : Nat} (hw : w.Founded)
    (h : Forcing w x m u (.lazy i)) (hi : u.cellValue? i = none) : u.Founded := by
  generalize hx : Value.lazy i = y at h
  induction h with
  | start => exact hw
  | ready _ _ ih => exact ih hw hi hx
  | run _ hr hf ih => exact ih (hr.founded hw ((hx ▸ hf).grounded hi)) hi hx

theorem founded {w : World} (h : Occurs w) : w.Founded := by
  induction h with
  | @fresh w hc =>
    intro x
    cases x with
    | lazy i => exact .pending (by rw [World.isRealized, hc]; rfl)
    | _ => exact .plain (by intro i; exact Value.noConfusion)
  | request r _ hr ih => exact evolution_founded.after hr (fun _ hv => hv.congr rfl) ih
  | needed _ hf hi ih => exact founded_of_forcing ih hf hi
  | begun _ _ ih => exact ih.running _
  | elsewhere _ hc ih => exact ih.congr hc

/-- Where finitely many bodies are needed and each returns, forcing ends exactly if none of them gives a
sequence that leads back to its own. A sequence that is met while its body runs is reported, and no
sequences lead round in a circle before forcing starts. -/
theorem forcing_ends_iff {w : World} (hw : Occurs w) (v : Value)
    (hr : ∀ m u i, Forcing w v m u (.lazy i) → ∃ r, Realizes u i r)
    (hm : ∃ most, ∀ m u x, Forcing w v m u x → m ≤ most) :
    (Ends w v ↔ ¬LoopsBack w v) ∧
    (∀ m u i era, Forcing w v m u (.lazy i) → u.cells[i]? = some ⟨era, .running⟩ →
      Forces w v (.failure .selfReference u) ∧ Steps w v (.failure .selfReference u)) ∧
    ∀ i s, w.cellValue? i = some s → ¬Leads w s i := by
  refine ⟨⟨fun h => ?_, fun h => ?_⟩, fun m u i era hf hi => ?_, fun i s hs hl => ?_⟩
  · obtain ⟨r, hr⟩ := ends_iff.mp h
    exact hr.not_loopsBack
  · obtain ⟨most, hm⟩ := hm
    have hs : Straight w v most := ⟨hr _ _ _, hm _ _ _, h⟩
    exact ends_iff.mpr (hs.exists_forces hw.founded)
  · have hs : Realizes u i (.failure .selfReference u) := by
      refine ⟨nofun, 0, fun l _ => ?_⟩
      change (Kernel.withFuel l).realize i u = _
      unfold Kernel.realize
      rw [hi]
    have hv : Forces w v (.failure .selfReference u) := hf.forces_iff.mpr (.of_failure hs)
    exact ⟨hv, hv.steps_failure⟩
  · exact (hw.founded s).not_leads_back hs hl hl

def linkedWorld (cells : Array Cell) : World :=
  { Run.delayWorld cells with
    namespaces := (Run.delayWorld cells).namespaces.define "s" (.lazy 0) }

def chainWorld : World :=
  linkedWorld #[⟨0, .realized (.vector [.int 2])⟩, ⟨0, .unrealized (Run.delayedBody (.symbol "s"))⟩]

def chainedWorld : World :=
  linkedWorld #[⟨0, .realized (.vector [.int 2])⟩, ⟨0, .realized (.lazy 0)⟩]

theorem realizes_chainWorld : Realizes chainWorld 1 (.value (.lazy 0) chainedWorld) :=
  Kernel.realizes_of_ne (n := 4) (i := 1) (w := chainWorld) nofun

theorem forcing_chainWorld {m : Nat} {u : World} {x : Value} (h : Forcing chainWorld (.lazy 1) m u x) :
    m = 0 ∧ u = chainWorld ∧ x = .lazy 1 ∨
      m = 1 ∧ u = chainedWorld ∧ (x = .lazy 0 ∨ x = .vector [.int 2]) := by
  cases h with
  | start => exact .inl ⟨rfl, rfl, rfl⟩
  | ready hs _ => cases hs
  | run _ hr hf =>
    cases realizes_chainWorld.unique hr
    cases hf with
    | start => exact .inr ⟨rfl, rfl, .inl rfl⟩
    | run hn _ _ => cases hn
    | ready hs hf =>
      cases hs
      cases hf
      exact .inr ⟨rfl, rfl, .inr rfl⟩

theorem occurs_chainWorld : Occurs chainWorld := by
  have h₀ : Occurs (linkedWorld #[]) := .fresh rfl
  have h₁ : Occurs (linkedWorld #[⟨0, .unrealized (Run.delayedBody (.vector [.int 2]))⟩]) :=
    .request (n := 4) (.eval (Run.delayed (.vector [.int 2]))) h₀ rfl
  have h₂ : Occurs (linkedWorld #[⟨0, .realized (.vector [.int 2])⟩]) :=
    .request (n := 4) (.write .direct (.lazy 0)) h₁ rfl
  exact .request (n := 4) (.eval (Run.delayed (.symbol "s"))) h₂ rfl

theorem forcing_ends_iff_chain : Occurs chainWorld ∧ ¬LoopsBack chainWorld (.lazy 1) ∧
    Ends chainWorld (.lazy 1) := by
  have hr (m : Nat) (u : World) (i : Nat) (h : Forcing chainWorld (.lazy 1) m u (.lazy i)) :
      ∃ r, Realizes u i r := by
    obtain ⟨-, rfl, hi⟩ | ⟨-, rfl, hi | hi⟩ := forcing_chainWorld h <;> cases hi
    · exact ⟨_, realizes_chainWorld⟩
    · exact ⟨_, realizes_of_cellValue? rfl⟩
  have hm (m : Nat) (u : World) (x : Value) (h : Forcing chainWorld (.lazy 1) m u x) : m ≤ 1 := by
    obtain ⟨rfl, -⟩ | ⟨rfl, -⟩ := forcing_chainWorld h <;> omega
  have hl : ¬LoopsBack chainWorld (.lazy 1) := by
    rintro ⟨m, u, i, s, u', hf, hn, h, hl⟩
    obtain ⟨-, rfl, hi⟩ | ⟨-, rfl, hi | hi⟩ := forcing_chainWorld hf <;> cases hi
    · cases realizes_chainWorld.unique h
      cases hl with
      | link hs hl =>
        cases hs
        cases hl
    · cases hn
  exact ⟨occurs_chainWorld, hl, (forcing_ends_iff occurs_chainWorld (.lazy 1) hr ⟨1, hm⟩).1.mpr hl⟩

def circleWorld : World := linkedWorld #[⟨0, .unrealized (Run.delayedBody (.symbol "s"))⟩]

def circledWorld : World := linkedWorld #[⟨0, .realized (.lazy 0)⟩]

theorem realizes_circleWorld : Realizes circleWorld 0 (.value (.lazy 0) circledWorld) :=
  Kernel.realizes_of_ne (n := 4) (i := 0) (w := circleWorld) nofun

theorem forcing_circledWorld {w u : World} {v x : Value} {m : Nat} (h : Forcing w v m u x)
    (hw : w = circledWorld) (hv : v = .lazy 0) : m = 0 ∧ u = circledWorld ∧ x = .lazy 0 := by
  induction h with
  | start => exact ⟨rfl, hw, hv⟩
  | ready hs _ ih =>
    cases hv
    rw [hw] at hs
    cases hs
    exact ih hw rfl
  | run hn _ _ _ =>
    cases hv
    rw [hw] at hn
    cases hn

theorem forcing_never_ends_circle :
    Occurs circleWorld ∧ Realizes circleWorld 0 (.value (.lazy 0) circledWorld) ∧
      (∀ m u x, Forcing circleWorld (.lazy 0) m u x → m ≤ 1 ∧ x = .lazy 0 ∧ ∃ r, Realizes u 0 r) ∧
      ∀ n, (Kernel.withFuel n).force n (.lazy 0) circleWorld = .outOfFuel ∧
        (Kernel.withFuel n).uncons n (.lazy 0) circleWorld = .outOfFuel := by
  have ho : Occurs circleWorld :=
    .request (n := 4) (.eval (Run.delayed (.symbol "s"))) (.fresh (w := linkedWorld #[]) rfl) rfl
  have hl : LoopsBack circleWorld (.lazy 0) :=
    ⟨0, circleWorld, 0, .lazy 0, circledWorld, .start _ _, rfl, realizes_circleWorld, .here 0⟩
  have hf (n : Nat) : (Kernel.withFuel n).force n (.lazy 0) circleWorld = .outOfFuel :=
    Classical.not_not.mp fun hn => (Kernel.forces_of_ne hn).not_loopsBack hl
  refine ⟨ho, realizes_circleWorld, fun m u x h => ?_, fun n => ⟨hf n, ?_⟩⟩
  · cases h with
    | start => exact ⟨by omega, rfl, _, realizes_circleWorld⟩
    | ready hs _ => cases hs
    | run _ hr h =>
      cases realizes_circleWorld.unique hr
      obtain ⟨rfl, rfl, rfl⟩ := forcing_circledWorld h rfl rfl
      exact ⟨by omega, rfl, _, realizes_of_cellValue? rfl⟩
  · rw [Kernel.uncons_eq_force, Eval.bind_apply, hf n]

end Occurs

end LazyLisp
