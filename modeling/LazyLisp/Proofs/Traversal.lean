import LazyLisp.Proofs.Cells

namespace LazyLisp

inductive CellEvent where
  | made (i : Nat)
  | begun (i : Nat)
  | completed (i : Nat)
  | abandoned (i : Nat)
deriving DecidableEq

/-- What happens to lazy sequences from one moment to a later one, also if either lies in the middle of a
request, where some of them are running. -/
inductive Course : World → List CellEvent → World → Prop
  | start (w : World) : Course w [] w
  | elsewhere {u v w : World} {es : List CellEvent} : Course u es v → w.cells = v.cells → Course u es w
  | make {u v : World} {es : List CellEvent} (body : Callable Value) : Course u es v →
      Course u (es ++ [.made v.cells.size]) (v.addCell body).2
  | begin {u v : World} {es : List CellEvent} {i era : Nat} {body : Callable Value} : Course u es v →
      v.cells[i]? = some ⟨era, .unrealized body⟩ →
      Course u (es ++ [.begun i]) (v.setCell i .running)
  | complete {u v : World} {es : List CellEvent} {i era : Nat} {s : Value} : Course u es v →
      v.cells[i]? = some ⟨era, .running⟩ → s.isSequential = true →
      Course u (es ++ [.completed i]) (v.setCell i (.realized s))
  | abandon {u v : World} {es : List CellEvent} {i era : Nat} (body : Callable Value) : Course u es v →
      v.cells[i]? = some ⟨era, .running⟩ →
      Course u (es ++ [.abandoned i]) (v.setCell i (.unrealized body))

namespace World

theorem cellValue?_setCell {w : World} {j era : Nat} {old : CellState}
    (hj : w.cells[j]? = some ⟨era, old⟩) (ho : old.value? = none) (state : CellState) {i : Nat} {s : Value}
    (hs : w.cellValue? i = some s) : (w.setCell j state).cellValue? i = some s := by
  obtain ⟨era', hi⟩ := cellValue?_eq_some.mp hs
  have hne : j ≠ i := by
    rintro rfl
    rw [hi] at hj
    cases hj
    cases ho
  exact cellValue?_eq_some.mpr ⟨era', by rw [getElem?_setCell_of_ne w hne, hi]⟩

theorem cellValue?_addCell {w : World} {i : Nat} {s : Value} (hs : w.cellValue? i = some s)
    (body : Callable Value) : (w.addCell body).2.cellValue? i = some s := by
  obtain ⟨era, hi⟩ := cellValue?_eq_some.mp hs
  have hne : i ≠ w.cells.size := by
    rintro rfl
    simp at hi
  exact cellValue?_eq_some.mpr ⟨era, by rw [getElem?_addCell, if_neg hne, hi]⟩

end World

namespace Course

variable {u v w : World} {es fs : List CellEvent} {i : Nat} {s : Value}

theorem append (h : Course u es v) (h' : Course v fs w) : Course u (es ++ fs) w := by
  induction h' with
  | start => simpa using h
  | elsewhere _ hc ih => exact .elsewhere ih hc
  | make body _ ih => simpa using ih.make body
  | begin _ hc ih => simpa using ih.begin hc
  | complete _ hc hs ih => simpa using ih.complete hc hs
  | abandon body _ hc ih => simpa using ih.abandon body hc

theorem cellValue (h : Course u es v) (hs : u.cellValue? i = some s) : v.cellValue? i = some s := by
  induction h with
  | start => exact hs
  | elsewhere _ hc ih =>
    rwa [World.cellValue?, hc]
  | make body _ ih => exact World.cellValue?_addCell ih body
  | begin _ hc ih => exact World.cellValue?_setCell hc rfl _ ih
  | complete _ hc _ ih => exact World.cellValue?_setCell hc rfl _ ih
  | abandon body _ hc ih => exact World.cellValue?_setCell hc rfl _ ih

theorem completed_once (h : Course u es v) (i : Nat) :
    es.count (.completed i) = 0 ∨
      es.count (.completed i) = 1 ∧ ∃ s, v.cellValue? i = some s := by
  have keep {n : Nat} {v v' : World} (hn : n = 0 ∨ n = 1 ∧ ∃ s, v.cellValue? i = some s)
      (hv : ∀ s, v.cellValue? i = some s → v'.cellValue? i = some s) :
      n = 0 ∨ n = 1 ∧ ∃ s, v'.cellValue? i = some s := by
    rcases hn with hn | ⟨hn, s, hs⟩
    · exact .inl hn
    · exact .inr ⟨hn, s, hv s hs⟩
  induction h with
  | start => exact .inl rfl
  | elsewhere _ hc ih =>
    refine keep ih fun s hs => ?_
    rwa [World.cellValue?, hc]
  | make body _ ih =>
    simp only [List.count_append, List.count_singleton]
    exact keep ih fun s hs => World.cellValue?_addCell hs body
  | begin _ hc ih =>
    simp only [List.count_append, List.count_singleton]
    exact keep ih fun s hs => World.cellValue?_setCell hc rfl _ hs
  | @complete v _ j era t _ hc _ ih =>
    simp only [List.count_append, List.count_singleton]
    by_cases hj : j = i
    · subst hj
      -- It was running, so it had no value, and so it was not completed before.
      have hv : v.cellValue? j = none := by rw [World.cellValue?, hc]; rfl
      rcases ih with hz | ⟨-, s, hs⟩
      · refine .inr ⟨by simp [hz], t, ?_⟩
        exact World.cellValue?_eq_some.mpr ⟨era, World.getElem?_setCell_self hc _⟩
      · simp [hv] at hs
    · simp only [beq_iff_eq, CellEvent.completed.injEq, hj, if_false, Nat.add_zero]
      exact keep ih fun s hs => World.cellValue?_setCell hc rfl _ hs
  | abandon body _ hc ih =>
    simp only [List.count_append, List.count_singleton]
    exact keep ih fun s hs => World.cellValue?_setCell hc rfl _ hs

end Course

def World.Passes (w v : World) : Prop := w.Ages v ∧ ∃ es, Course w es v

namespace World.Passes

variable {w v : World} {i era : Nat} {body : Callable Value}

theorem of_cells_eq (h : v.cells = w.cells) : w.Passes v :=
  ⟨.of_cells_eq h, [], .elsewhere (.start w) h⟩

theorem trans {u v w : World} (huv : u.Passes v) (hvw : v.Passes w) : u.Passes w := by
  obtain ⟨ha, es, hc⟩ := huv
  obtain ⟨ha', fs, hc'⟩ := hvw
  exact ⟨ha.trans ha', _, hc.append hc'⟩

theorem begun (hc : w.cells[i]? = some ⟨era, .unrealized body⟩) (h : (w.setCell i .running).Passes v) :
    v.cells[i]? = some ⟨era, .running⟩ ∧ ∃ es, Course w (.begun i :: es) v := by
  obtain ⟨ha, es, hcourse⟩ := h
  exact ⟨ha.still_running hc, es, (Course.begin (.start w) hc).append hcourse⟩

theorem abandon (hc : w.cells[i]? = some ⟨era, .unrealized body⟩)
    (h : (w.setCell i .running).Passes v) : w.Passes (v.setCell i (.unrealized body)) := by
  obtain ⟨hi, es, hes⟩ := h.begun hc
  exact ⟨.setCell hc h.1 (.same _), _, hes.abandon body hi⟩

theorem complete (hc : w.cells[i]? = some ⟨era, .unrealized body⟩)
    (h : (w.setCell i .running).Passes v) {s : Value} (hs : s.isSequential = true) :
    w.Passes (v.setCell i (.realized s)) := by
  obtain ⟨hi, es, hes⟩ := h.begun hc
  exact ⟨.setCell hc h.1 (.realized hs), _, hes.complete hi hs⟩

end World.Passes

theorem evolution_passes : Evolution World.Passes where
  frames := fun _ _ => .of_cells_eq rfl
  trans := fun huv hvw => huv.trans hvw
  change := fun c w => .of_cells_eq (c.cells_apply w)
  newCallable := fun _ _ => .of_cells_eq rfl
  newCell := fun f w => ⟨.addCell w f, _, (Course.start w).make f⟩
  restore := fun h => h.trans (.of_cells_eq rfl)
  abandon := fun hc _ _ h => h.abandon hc
  complete := fun hc _ hx h _ => h.complete hc (Value.isSequential_of_asSequence? hx)

namespace Kernel

variable {n m i : Nat} {w v : World} {s : Value}

theorem course_of_uncons {x : Value} {r : Option (Value × Value)}
    (h : (withFuel n).uncons m x w = .value r v) : ∃ es, Course w es v :=
  ((evolution_passes.follows n).rel_uncons (i := ()) (.inl rfl) x w v (by rw [h]; rfl)).2

theorem settle_eq_value {body : Callable Value} {r : Outcome Value}
    (h : settle i body r = .value s v) :
    ∃ x u, r = .value x u ∧ s.isSequential = true ∧ v = u.setCell i (.realized s) := by
  cases r with
  | value x u =>
    unfold settle at h
    dsimp only at h
    split at h
    · next t ht =>
      cases h
      exact ⟨x, u, rfl, Value.isSequential_of_asSequence? ht, rfl⟩
    · cases h
  | failure e u => cases h
  | outOfFuel => cases h

theorem realize_eq_value (h : (withFuel n).realize i w = .value s v) :
    v.cellValue? i = some s ∧
      (v = w ∨ ∃ es, Course w (.begun i :: (es ++ [.completed i])) v) := by
  unfold realize at h
  split at h
  · cases h
  · next cell hc =>
    obtain ⟨era, state⟩ := cell
    cases state with
    | realized t =>
      cases h
      exact ⟨World.cellValue?_eq_some.mpr ⟨era, hc⟩, .inl rfl⟩
    | running => cases h
    | unrealized body =>
      dsimp only at h
      split at h
      · obtain ⟨x, u, hr, hs, rfl⟩ := settle_eq_value h
        have hp : (w.setCell i .running).Passes u :=
          evolution_passes.along_withoutLocals ((evolution_passes.follows n).rel_apply body []) _ u
            (by rw [hr]; rfl)
        obtain ⟨hi, es, hes⟩ := hp.begun hc
        have hv := World.getElem?_setCell_self hi (.realized s)
        exact ⟨World.cellValue?_eq_some.mpr ⟨era, hv⟩, .inr ⟨es, hes.complete hi hs⟩⟩
      · cases h

end Kernel

inductive AtHand (w : World) : Value → Option (Value × Value) → Prop
  | plain {v : Value} (h : ∀ i, v ≠ .lazy i) : AtHand w v v.split?
  | lazy {i : Nat} {s : Value} {r : Option (Value × Value)} : w.cellValue? i = some s → AtHand w s r →
      AtHand w (.lazy i) r

namespace AtHand

variable {w w' : World} {v : Value} {r r' : Option (Value × Value)} {es : List CellEvent}

theorem mono (h : AtHand w v r) (hc : Course w es w') : AtHand w' v r := by
  induction h with
  | plain hv => exact .plain hv
  | lazy hs _ ih => exact .lazy (hc.cellValue hs) ih

/-- What is at hand stays so, and gives itself whatever the evaluator. -/
theorem uncons_later (h : AtHand w v r) :
    ∃ n, ∀ {w' : World} {es : List CellEvent}, Course w es w' → ∀ (k : Kernel) m, n ≤ m →
      k.uncons m v w' = .value r w' := by
  induction h with
  | plain hv => exact ⟨0, fun _ k m _ => by rw [k.uncons_of_not_lazy m hv]; rfl⟩
  | @lazy i s r hs _ ih =>
    obtain ⟨n, hn⟩ := ih
    refine ⟨n + 1, fun {w' es} hc k m hm => ?_⟩
    obtain ⟨era, hi⟩ := World.cellValue?_eq_some.mp (hc.cellValue hs)
    obtain ⟨m, rfl⟩ : ∃ l, m = l + 1 := ⟨m - 1, by omega⟩
    rw [Kernel.uncons, Eval.bind_apply, k.realize_of_realized hi]
    exact hn hc k m (by omega)

theorem uncons (h : AtHand w v r) : ∃ n, ∀ (k : Kernel) m, n ≤ m → k.uncons m v w = .value r w := by
  obtain ⟨n, hn⟩ := h.uncons_later
  exact ⟨n, hn (.start w)⟩

theorem of_uncons {n m : Nat} (h : (Kernel.withFuel n).uncons m v w = .value r w') : AtHand w' v r := by
  induction m generalizing v w with
  | zero =>
    cases v with
    | lazy i => cases h
    | _ =>
      rw [Kernel.uncons_of_not_lazy _ _ (by intro i; exact Value.noConfusion)] at h
      cases h
      exact .plain (by intro i; exact Value.noConfusion)
  | succ m ih =>
    cases v with
    | lazy i =>
      rw [Kernel.uncons, Eval.bind_apply] at h
      cases hr : (Kernel.withFuel n).realize i w with
      | value s u =>
        rw [hr] at h
        obtain ⟨es, hc⟩ := Kernel.course_of_uncons h
        exact .lazy (hc.cellValue (Kernel.realize_eq_value hr).1) (ih h)
      | failure e u =>
        rw [hr] at h
        cases h
      | outOfFuel =>
        rw [hr] at h
        cases h
    | _ =>
      rw [Kernel.uncons_of_not_lazy _ _ (by intro i; exact Value.noConfusion)] at h
      cases h
      exact .plain (by intro i; exact Value.noConfusion)

theorem unique (h : AtHand w v r) (h' : AtHand w v r') : r = r' := by
  obtain ⟨n, hn⟩ := h.uncons
  obtain ⟨n', hn'⟩ := h'.uncons
  have he := hn (Kernel.withFuel 0) (n + n') (by omega)
  rw [hn' (Kernel.withFuel 0) (n + n') (by omega)] at he
  cases he
  rfl

end AtHand

inductive Gathered (w : World) : Value → List Value → Value → Prop
  | nil (v : Value) : Gathered w v [] v
  | cons {v x u rest : Value} {xs : List Value} : AtHand w v (some (x, u)) → Gathered w u xs rest →
      Gathered w v (x :: xs) rest

namespace Gathered

variable {w w' : World} {v u u' x : Value} {xs ys : List Value} {es : List CellEvent}

theorem mono (h : Gathered w v xs u) (hc : Course w es w') : Gathered w' v xs u := by
  induction h with
  | nil v => exact .nil v
  | cons hx _ ih => exact .cons (hx.mono hc) ih

theorem snoc (h : Gathered w v xs u) (hx : AtHand w u (some (x, u'))) :
    Gathered w v (xs ++ [x]) u' := by
  induction h with
  | nil v => exact .cons hx (.nil u')
  | cons hy _ ih => exact .cons hy (ih hx)

theorem prefix_or (h : Gathered w v xs u) (h' : Gathered w v ys u') :
    xs <+: ys ∨ ∃ x zs rest, xs = ys ++ x :: zs ∧ AtHand w u' (some (x, rest)) := by
  induction h' generalizing xs with
  | nil v =>
    cases h with
    | nil => exact .inl (List.nil_prefix)
    | cons hx _ => exact .inr ⟨_, _, _, rfl, hx⟩
  | cons hy _ ih =>
    cases h with
    | nil => exact .inl (List.nil_prefix)
    | cons hx hxs =>
      cases hx.unique hy
      rcases ih hxs with hp | ⟨x, zs, rest, rfl, hr⟩
      · exact .inl (List.cons_prefix_cons.mpr ⟨rfl, hp⟩)
      · exact .inr ⟨x, zs, rest, rfl, hr⟩

end Gathered

/-- A traversal of `v` that began in the first world and has come to the second one: the elements that it
has handed out, and what it has still before it. Anything may happen between two elements. -/
inductive Traversal (v : Value) (start : World) : List Value → Value → World → Prop
  | begin : Traversal v start [] v start
  | meanwhile {xs : List Value} {rest : Value} {w w' : World} {es : List CellEvent} :
      Traversal v start xs rest w → Course w es w' → Traversal v start xs rest w'
  | next {xs : List Value} {x rest rest' : Value} {w w' : World} {n m : Nat} :
      Traversal v start xs rest w →
      (Kernel.withFuel n).uncons m rest w = .value (some (x, rest')) w' →
      Traversal v start (xs ++ [x]) rest' w'

namespace Traversal

variable {v rest : Value} {start w : World} {xs : List Value}

theorem course (h : Traversal v start xs rest w) : ∃ es, Course start es w := by
  induction h with
  | begin => exact ⟨[], .start _⟩
  | meanwhile _ hc ih =>
    obtain ⟨es, hes⟩ := ih
    exact ⟨_, hes.append hc⟩
  | next _ hu ih =>
    obtain ⟨es, hes⟩ := ih
    obtain ⟨fs, hfs⟩ := Kernel.course_of_uncons hu
    exact ⟨_, hes.append hfs⟩

theorem gathered (h : Traversal v start xs rest w) : Gathered w v xs rest := by
  induction h with
  | begin => exact .nil v
  | meanwhile _ hc ih => exact ih.mono hc
  | next _ hu ih =>
    obtain ⟨es, hes⟩ := Kernel.course_of_uncons hu
    exact (ih.mono hes).snoc (.of_uncons hu)

end Traversal

end LazyLisp
