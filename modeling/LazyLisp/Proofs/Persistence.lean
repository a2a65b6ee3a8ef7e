import LazyLisp.Proofs.Once
import LazyLisp.Proofs.Realization

namespace LazyLisp

/-- What happens to lazy sequences, told by the calls of their bodies. What a call does lies between its two events,
and a body that is completed or abandoned was called this once. -/
inductive History : World → List CellEvent → World → Prop
  | start (w : World) : History w [] w
  | elsewhere {u v w : World} {es : List CellEvent} : History u es v → w.cells = v.cells → History u es w
  | make {u v : World} {es : List CellEvent} (body : Callable Value) : History u es v →
      History u (es ++ [.made v.cells.size]) (v.addCell body).2
  | complete {u v v' : World} {es fs : List CellEvent} {i : Nat} {g : Callable Value} {x s : Value} :
      History u es v → v.Awaits i g → Calls (v.running i) g [] (.value x v') → x.asSequence? = some s →
      History (v.running i) fs v' → History u (es ++ .begun i :: (fs ++ [.completed i])) (v.leaveBody i v' s)
  | abandon {u v v' : World} {es fs : List CellEvent} {i : Nat} {g : Callable Value} {r : Outcome Value} :
      History u es v → v.Awaits i g → Calls (v.running i) g [] r → r.Fruitless v' →
      History (v.running i) fs v' → History u (es ++ .begun i :: (fs ++ [.abandoned i])) (v.putBack i g v')

namespace History

variable {u v w : World} {es fs : List CellEvent}

theorem append (h : History u es v) (h' : History v fs w) : History u (es ++ fs) w := by
  induction h' with
  | start => rwa [List.append_nil]
  | elsewhere _ hc ih => exact .elsewhere (ih h) hc
  | make body _ ih =>
    rw [← List.append_assoc]
    exact (ih h).make body
  | complete _ hw hc hs hbody ih _ =>
    rw [← List.append_assoc]
    exact (ih h).complete hw hc hs hbody
  | abandon _ hw hc hr hbody ih _ =>
    rw [← List.append_assoc]
    exact (ih h).abandon hw hc hr hbody

theorem ages (h : History u es v) : u.Ages v := by
  induction h with
  | start u => exact .of_cells_eq rfl
  | elsewhere _ hc ih => exact ih.trans (.of_cells_eq hc)
  | make body _ ih => exact ih.trans (.addCell _ body)
  | complete _ hw _ hs _ ih ihbody =>
    exact ih.trans (.setCell hw ihbody (.realized (Value.isSequential_of_asSequence? hs)))
  | abandon _ hw _ _ _ ih ihbody => exact ih.trans (.setCell hw ihbody (.same _))

theorem course (h : History u es v) : Course u es v := by
  have enter {u v v' : World} {es fs : List CellEvent} {i : Nat} {g : Callable Value} (h : Course u es v)
      (hw : v.Awaits i g) (hbody : Course (v.running i) fs v') :
      Course u (es ++ .begun i :: fs) { v' with frames := v.frames } := by
    have hbegun : Course u (es ++ [.begun i]) (v.running i) := (h.begin hw).elsewhere rfl
    rw [List.append_cons]
    exact (hbegun.append hbody).elsewhere rfl
  induction h with
  | start u => exact .start u
  | elsewhere _ hc ih => exact ih.elsewhere hc
  | make body _ ih => exact ih.make body
  | complete _ hw _ hs hbody ih ihbody =>
    rw [← List.cons_append, ← List.append_assoc]
    exact (enter ih hw ihbody).complete (hbody.ages.still_running hw) (Value.isSequential_of_asSequence? hs)
  | abandon _ hw _ _ hbody ih ihbody =>
    rw [← List.cons_append, ← List.append_assoc]
    exact (enter ih hw ihbody).abandon _ (hbody.ages.still_running hw)

theorem of_running {i : Nat} {fs : List Frame} (h : History (w.setCell i .running) es { v with frames := fs }) :
    History (w.running i) es v :=
  ((History.elsewhere (w := w.setCell i .running) (.start (w.running i)) rfl).append h).elsewhere rfl

end History

namespace World.Tries

variable {w v : World} {i : Nat} {g : Callable Value} {r : Outcome Value}

theorem exists_calls (h : w.Tries i g r) (hr : r ≠ .outOfFuel) :
    ∃ r', Calls (w.running i) g [] r' ∧
      ((∃ x u, r' = .value x u ∧ r = .value x { u with frames := w.frames }) ∨
        ∃ e u, r' = .failure e u ∧ r = .failure e { u with frames := w.frames }) := by
  obtain ⟨n, rfl⟩ := h
  simp only [Eval.withoutLocals, Eval.within, setCell_running_withFrames] at hr ⊢
  cases hc : (Kernel.withFuel n).apply g [] (w.running i) with
  | value x u => exact ⟨.value x u, .of_apply hc, .inl ⟨x, u, rfl, rfl⟩⟩
  | failure e u =>
    have hne : (.failure e u : Outcome Value) ≠ .outOfFuel := fun he => by cases he
    exact ⟨.failure e u, .of_ne hne hc, .inr ⟨e, u, rfl, rfl⟩⟩
  | outOfFuel =>
    rw [hc] at hr
    exact absurd rfl hr

theorem calls_value {x : Value} (h : w.Tries i g (.value x v)) :
    ∃ u, Calls (w.running i) g [] (.value x u) ∧ v = { u with frames := w.frames } := by
  obtain ⟨r', hc, ⟨y, u, rfl, he⟩ | ⟨e, u, rfl, he⟩⟩ := h.exists_calls nofun
  · cases he
    exact ⟨u, hc, rfl⟩
  · cases he

theorem calls_fruitless (h : w.Tries i g r) (hf : r.Fruitless v) :
    ∃ r' u, Calls (w.running i) g [] r' ∧ r'.Fruitless u ∧ v = { u with frames := w.frames } := by
  obtain ⟨r', hc, ⟨y, u, rfl, rfl⟩ | ⟨e, u, rfl, rfl⟩⟩ := h.exists_calls (by cases hf <;> nofun)
  · cases hf with
    | value hx => exact ⟨_, u, hc, .value hx u, rfl⟩
  · cases hf
    exact ⟨_, u, hc, .failure e u, rfl⟩

end World.Tries

theorem evolution_history : Evolution fun w v => ∃ es, History w es v where
  frames := fun w _ => ⟨[], .elsewhere (.start w) rfl⟩
  trans := fun ⟨_, h⟩ ⟨_, h'⟩ => ⟨_, h.append h'⟩
  change := fun c w => ⟨[], .elsewhere (.start w) (c.cells_apply w)⟩
  newCallable := fun _ w => ⟨[], .elsewhere (.start w) rfl⟩
  newCell := fun f w => ⟨_, (History.start w).make f⟩
  restore := fun ⟨_, h⟩ => ⟨_, h.elsewhere rfl⟩
  abandon := fun {w v i g r} hw ht hf ⟨fs, h⟩ => by
    obtain ⟨r', u, hc, hf', rfl⟩ := ht.calls_fruitless hf
    exact ⟨_, (History.start w).abandon hw hc hf' h.of_running⟩
  complete := fun {w v i g x s} hw ht hx ⟨fs, h⟩ _ => by
    obtain ⟨u, hc, rfl⟩ := ht.calls_value
    exact ⟨_, (History.start w).complete hw hc hx h.of_running⟩

/-- What a traversal has handed out, every later one hands out first, and any evaluator whatever gives it
without a change to the world, so that no body is run for it. Realizing a lazy sequence calls its body only if that
was not completed, and just once. A run is a history of such calls. From any moment to any later one, also inside
calls, no body is completed twice, and once it was no evaluator is asked for the elements. A body that notes its
calls has noted one if its sequence is realized, and else none. -/
theorem elements_persist :
    (∀ {v rest rest' : Value} {u w u' w' : World} {xs ys : List Value} {es : List CellEvent},
      Traversal v u xs rest w → Course w es u' → Traversal v u' ys rest' w' →
      xs <+: ys ∨ ∃ x zs rest'' n, xs = ys ++ x :: zs ∧
        ∀ (k : Kernel) m, n ≤ m → k.uncons m rest' w' = .value (some (x, rest'')) w') ∧
    (∀ {w : World} {i : Nat} {r : Outcome Value}, Realizes w i r ↔ Realization w i r) ∧
    (∀ {w u : World} {i : Nat} {g : Callable Value} {x s : Value}, w.Awaits i g →
      Calls (w.running i) g [] (.value x u) → x.asSequence? = some s →
      ∃ es, History w (.begun i :: (es ++ [.completed i])) (w.leaveBody i u s)) ∧
    (∀ {w v : World}, Run w v → ∃ es, History w es v) ∧
    (∀ {w v : World} {es : List CellEvent}, History w es v → Course w es v) ∧
    (∀ {w v : World} {es : List CellEvent}, Course w es v → ∀ i, es.count (.completed i) ≤ 1 ∧
      (.completed i ∈ es → ∃ s, ∀ {u : World} {fs : List CellEvent}, Course v fs u →
        ∀ k : Kernel, k.realize i u = .value s u)) ∧
    ∀ {d : Noting} {w : World} {deeds : List Deed}, d.Waits w → (∀ deed ∈ deeds, deed.Spares d.cell) →
      Option.Rel (fun v v' => d.Twins v v' ∧
          (v.callsOf d.here).length = (v'.callsOf d.here).length + if v.isRealized d.cell then 1 else 0)
        (Deed.performAll w deeds) (Deed.performAll (d.elsewhere w) deeds) := by
  refine ⟨fun {v rest rest' u w u' w' xs ys es} h hc h' => ?_, realizes_iff, fun hw hc hs => ?_, fun h => ?_,
    fun h => h.course, fun {w v es} h i => ⟨?_, fun hi => ?_⟩, Noting.called_once⟩
  · obtain ⟨fs, hfs⟩ := h'.course
    rcases ((h.gathered.mono hc).mono hfs).prefix_or h'.gathered with hp | ⟨x, zs, r, he, hx⟩
    · exact .inl hp
    · obtain ⟨n, hn⟩ := hx.uncons
      exact .inr ⟨x, zs, r, n, he, hn⟩
  · obtain ⟨es, hes⟩ := hc.evolves evolution_history rfl
    exact ⟨es, (History.start _).complete hw hc hs hes⟩
  · exact evolution_history.run (fun hc => ⟨[], .elsewhere (.start _) hc⟩) h
  · rcases h.completed_once i with hn | ⟨hn, _⟩ <;> omega
  · obtain hn | ⟨-, s, hs⟩ := h.completed_once i
    · exact absurd hi (List.count_eq_zero.mp hn)
    · refine ⟨s, fun {u fs} hc k => ?_⟩
      obtain ⟨era, hu⟩ := World.cellValue?_eq_some.mp (hc.cellValue hs)
      exact k.realize_of_realized hu

def repeatedWorld : World :=
  { World.empty with
    cells := #[⟨0, .realized (.cons (.int 7) (.lazy 1))⟩, ⟨0, .unrealized (.repeating (.int 7) none)⟩] }

def notingSeven : Noting := ⟨0, 0, 1, .list [.int 7], .list [.int 7], rfl, by decide⟩

def notingWorld : World :=
  { World.empty with cells := #[⟨0, .unrealized (.recorder 0 (.list [.int 7]))⟩], logs := #[[], []] }

def gatherTwice : List Deed := [.request 3 (.gather (.lazy 0)), .request 3 (.gather (.lazy 0))]

theorem elements_persist_dropped :
    (∃ w, Traversal (.lazy 0) w [.int 7] (.lazy 1) repeatedWorld) ∧
      (∃ rest n, ∀ (k : Kernel) m, n ≤ m → k.uncons m (.lazy 0) repeatedWorld.dropEnvironment =
        .value (some (.int 7, rest)) repeatedWorld.dropEnvironment) ∧
      (Kernel.withFuel 2).uncons 2 (.lazy 1) repeatedWorld.dropEnvironment =
        .failure .environmentDropped repeatedWorld.dropEnvironment ∧
      ∃ v v', Deed.performAll notingWorld gatherTwice = some v ∧
        Deed.performAll (notingSeven.elsewhere notingWorld) gatherTwice = some v' ∧
        v.callsOf 0 = [[]] ∧ v'.callsOf 0 = [] := by
  have ht : Traversal (.lazy 0)
      { World.empty with cells := #[⟨0, .unrealized (.repeating (.int 7) none)⟩] }
      ([] ++ [.int 7]) (.lazy 1) repeatedWorld := .next (n := 2) (m := 2) .begin rfl
  have hr : Run repeatedWorld repeatedWorld.dropEnvironment := .request (n := 2) .drop (.start _) rfl
  obtain ⟨hpersist, -, -, hrun, hcourse, -, honce⟩ := elements_persist
  obtain ⟨es, hes⟩ := hrun hr
  refine ⟨⟨_, ht⟩, ?_, rfl, ?_⟩
  · rcases hpersist ht (hcourse hes) .begin with hp | ⟨x, zs, rest, n, he, hn⟩
    · cases List.prefix_nil.mp hp
    · cases he
      exact ⟨rest, n, hn⟩
  · have hwaits : notingSeven.Waits notingWorld := ⟨⟨0, rfl⟩, by decide, by decide⟩
    have hcalled : Deed.performAll notingWorld gatherTwice =
        some { World.empty with cells := #[⟨0, .realized (.list [.int 7])⟩], logs := #[[[]], []] } := rfl
    have hspares : ∀ deed ∈ gatherTwice, deed.Spares notingSeven.cell := by simp [gatherTwice, Deed.Spares]
    have hrel := honce hwaits hspares
    rw [hcalled] at hrel ⊢
    generalize Deed.performAll (notingSeven.elsewhere notingWorld) gatherTwice = r at hrel ⊢
    cases hrel with
    | some h => exact ⟨_, _, rfl, rfl, rfl, List.eq_nil_of_length_eq_zero (Nat.succ_inj.mp h.2).symm⟩

end LazyLisp
