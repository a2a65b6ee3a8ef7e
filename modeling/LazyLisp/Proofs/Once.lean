import LazyLisp.Proofs.Cells

namespace LazyLisp

variable {α β : Type}

inductive Outcome.Rel (P : World → World → Prop) : Outcome α → Outcome α → Prop
  | value {a : α} {w v : World} (h : P w v) : Rel P (.value a w) (.value a v)
  | failure {e : Failure} {w v : World} (h : P w v) : Rel P (.failure e w) (.failure e v)
  | outOfFuel : Rel P .outOfFuel .outOfFuel

theorem Outcome.Rel.world? {P : World → World → Prop} {r r' : Outcome α} (h : r.Rel P r') :
    Option.Rel P r.world? r'.world? := by
  cases h with
  | value h => exact .some h
  | failure h => exact .some h
  | outOfFuel => exact .none

def Matches (P : World → World → Prop) (m m' : Eval α) : Prop :=
  ∀ w v, P w v → (m w).Rel P (m' v)

namespace Matches

variable {P : World → World → Prop} {m m' : Eval α}

theorem pure (a : α) : Matches P (Pure.pure a : Eval α) (Pure.pure a) := fun _ _ h => .value h

theorem fail (e : Failure) : Matches P (Eval.fail e : Eval α) (Eval.fail e) := fun _ _ h => .failure h

theorem ofExcept (result : Except Failure α) : Matches P (Eval.ofExcept result) (Eval.ofExcept result) := by
  cases result with
  | ok a => exact .pure a
  | error e => exact .fail e

theorem bind {f f' : α → Eval β} (hm : Matches P m m') (hf : ∀ a, Matches P (f a) (f' a)) :
    Matches P (m >>= f) (m' >>= f') := by
  intro w v h
  have hr := hm w v h
  rw [Eval.bind_apply, Eval.bind_apply]
  generalize m w = r, m' v = r' at hr ⊢
  cases hr with
  | @value a w v h => exact hf a w v h
  | failure h => exact .failure h
  | outOfFuel => exact .outOfFuel

theorem attempt (hm : Matches P m m') : Matches P m.attempt m'.attempt := by
  intro w v h
  have hr := hm w v h
  unfold Eval.attempt
  generalize m w = r, m' v = r' at hr ⊢
  cases hr with
  | value h => exact .value h
  | failure h => exact .value h
  | outOfFuel => exact .outOfFuel

theorem orFalse {m m' : Eval Bool} (hm : Matches P m m') : Matches P m.orFalse m'.orFalse := by
  intro w v h
  have hr := hm w v h
  unfold Eval.orFalse
  generalize m w = r, m' v = r' at hr ⊢
  cases hr with
  | value h => exact .value h
  | failure h => exact .value h
  | outOfFuel => exact .outOfFuel

theorem read {g : World → α} (hg : ∀ w v, P w v → g v = g w) : Matches P (Eval.read g) (Eval.read g) := by
  intro w v h
  change Outcome.Rel P (.value (g w) w) (.value (g v) v)
  rw [hg w v h]
  exact .value h

theorem modify {f : World → World} (hf : ∀ w v, P w v → P (f w) (f v)) :
    Matches P (Eval.modify f) (Eval.modify f) := fun w v h => .value (hf w v h)

theorem within {σ : Type} {save : World → σ} {enter : World → World} {leave : σ → World → World}
    (hm : Matches P m m') (he : ∀ w v, P w v → P (enter w) (enter v))
    (hl : ∀ w v w' v', P w v → P w' v' → P (leave (save w) w') (leave (save v) v')) :
    Matches P (Eval.within save enter leave m) (Eval.within save enter leave m') := by
  intro w v h
  have hr := hm _ _ (he w v h)
  unfold Eval.within
  dsimp only
  generalize m (enter w) = r, m' (enter v) = r' at hr ⊢
  cases hr with
  | value h' => exact .value (hl _ _ _ _ h h')
  | failure h' => exact .failure (hl _ _ _ _ h h')
  | outOfFuel => exact .outOfFuel

end Matches

/-- The calls noted in each log, the latest first. -/
abbrev Logs := Array (List (List Value))

/-- In the first place the log has one call more, which had no arguments. -/
def Logs.OneMore (log : Nat) (logs logs' : Logs) : Prop :=
  ∃ later earlier, logs[log]? = some (later ++ [] :: earlier) ∧ logs'[log]? = some (later ++ earlier)

namespace Logs.OneMore

variable {log other : Nat} {logs logs' : Logs}

theorem record (h : OneMore log logs logs') (l : Nat) (args : List Value) :
    OneMore log (logs.modify l (args :: ·)) (logs'.modify l (args :: ·)) := by
  obtain ⟨later, earlier, hl, hl'⟩ := h
  by_cases he : l = log
  · exact ⟨args :: later, earlier, by simp [Array.getElem?_modify, he, hl], by simp [Array.getElem?_modify, he, hl']⟩
  · exact ⟨later, earlier, by simp [Array.getElem?_modify, he, hl], by simp [Array.getElem?_modify, he, hl']⟩

theorem note (h : log < logs.size) (ho : other ≠ log) :
    OneMore log (logs.modify log ([] :: ·)) (logs.modify other ([] :: ·)) := by
  have hl : logs[log]? = some logs[log] := Array.getElem?_eq_getElem h
  exact ⟨[], logs[log], by simp [Array.getElem?_modify, hl], by simp [Array.getElem?_modify, ho, hl]⟩

end Logs.OneMore

/-- A lazy sequence with a body that notes its call, in the log `here` or in the log `there`. -/
structure Noting where
  cell : Nat
  here : Nat
  there : Nat
  result : Value
  elements : Value
  gives : result.asSequence? = some elements
  apart : here ≠ there

namespace Noting

variable (d : Noting)

/-- As long as the sequence waits, its body is another on each side. Once it has its elements its call was noted,
on each side where the body there notes it. -/
inductive Stage (cells : Array Cell) (logs : Logs) (cells' : Array Cell) : Logs → Prop
  | waiting {era : Nat} : cells[d.cell]? = some ⟨era, .unrealized (.recorder d.here d.result)⟩ →
      cells'[d.cell]? = some ⟨era, .unrealized (.recorder d.there d.result)⟩ →
      d.here < logs.size → d.there < logs.size → Stage cells logs cells' logs
  | noted {era : Nat} {logs' : Logs} : cells[d.cell]? = some ⟨era, .realized d.elements⟩ →
      cells'[d.cell]? = some ⟨era, .realized d.elements⟩ →
      Logs.OneMore d.here logs logs' → Logs.OneMore d.there logs' logs →
      (∀ log, log ≠ d.here → log ≠ d.there → logs'[log]? = logs[log]?) → Stage cells logs cells' logs'

structure Link (cells : Array Cell) (logs : Logs) (cells' : Array Cell) (logs' : Logs) : Prop where
  size : cells'.size = cells.size
  others : ∀ j, d.cell ≠ j → cells'[j]? = cells[j]?
  stage : d.Stage cells logs cells' logs'

namespace Stage

variable {d} {cells cells' : Array Cell} {logs logs' : Logs} (h : d.Stage cells logs cells' logs')
include h

theorem cell_lt : d.cell < cells.size ∧ d.cell < cells'.size := by
  have lt {cells : Array Cell} {c : Cell} (hc : cells[d.cell]? = some c) : d.cell < cells.size :=
    (Array.getElem?_eq_some_iff.mp hc).1
  cases h with
  | waiting hc hc' _ _ => exact ⟨lt hc, lt hc'⟩
  | noted hc hc' _ _ _ => exact ⟨lt hc, lt hc'⟩

theorem congr {cells₁ cells₂ : Array Cell} (h₁ : cells₁[d.cell]? = cells[d.cell]?)
    (h₂ : cells₂[d.cell]? = cells'[d.cell]?) : d.Stage cells₁ logs cells₂ logs' := by
  cases h with
  | waiting hc hc' hh ht => exact .waiting (h₁.trans hc) (h₂.trans hc') hh ht
  | noted hc hc' hh ht ho => exact .noted (h₁.trans hc) (h₂.trans hc') hh ht ho

theorem record (log : Nat) (args : List Value) :
    d.Stage cells (logs.modify log (args :: ·)) cells' (logs'.modify log (args :: ·)) := by
  cases h with
  | waiting hc hc' hh ht => exact .waiting hc hc' (by rwa [Array.size_modify]) (by rwa [Array.size_modify])
  | noted hc hc' hh ht ho =>
    refine .noted hc hc' (hh.record log args) (ht.record log args) fun l hl hl' => ?_
    rw [Array.getElem?_modify, Array.getElem?_modify, ho l hl hl']

end Stage

namespace Link

variable {d} {cells cells' : Array Cell} {logs logs' : Logs} (h : d.Link cells logs cells' logs')
include h

theorem modify {j : Nat} (hj : d.cell ≠ j) (f : Cell → Cell) :
    d.Link (cells.modify j f) logs (cells'.modify j f) logs' where
  size := by rw [Array.size_modify, Array.size_modify, h.size]
  others := fun l hl => by rw [Array.getElem?_modify, Array.getElem?_modify, h.others l hl]
  stage := by
    have keep (cells : Array Cell) : (cells.modify j f)[d.cell]? = cells[d.cell]? := by
      rw [Array.getElem?_modify, if_neg hj.symm]
    exact h.stage.congr (keep cells) (keep cells')

theorem push (c : Cell) : d.Link (cells.push c) logs (cells'.push c) logs' where
  size := by rw [Array.size_push, Array.size_push, h.size]
  others := fun l hl => by rw [Array.getElem?_push, Array.getElem?_push, h.size, h.others l hl]
  stage := by
    obtain ⟨hlt, hlt'⟩ := h.stage.cell_lt
    refine h.stage.congr ?_ ?_
    · rw [Array.getElem?_push, if_neg (Nat.ne_of_lt hlt)]
    · rw [Array.getElem?_push, if_neg (Nat.ne_of_lt hlt')]

theorem record (log : Nat) (args : List Value) :
    d.Link cells (logs.modify log (args :: ·)) cells' (logs'.modify log (args :: ·)) :=
  ⟨h.size, h.others, h.stage.record log args⟩

end Link

def Twins (w v : World) : Prop :=
  ∃ cells logs, d.Link w.cells w.logs cells logs ∧ v = { w with cells := cells, logs := logs }

namespace Twins

variable {d} {w v : World}

theorem map {f : World → World} (hc : ∀ w, (f w).cells = w.cells) (hl : ∀ w, (f w).logs = w.logs)
    (hf : ∀ (w : World) (cells : Array Cell) (logs : Logs),
      f { w with cells := cells, logs := logs } = { f w with cells := cells, logs := logs })
    (h : d.Twins w v) : d.Twins (f w) (f v) := by
  obtain ⟨cells, logs, h, rfl⟩ := h
  exact ⟨cells, logs, by rwa [hc, hl], hf w cells logs⟩

theorem frames_eq (h : d.Twins w v) : v.frames = w.frames := by
  obtain ⟨cells, logs, -, rfl⟩ := h
  rfl

theorem namespaces_eq (h : d.Twins w v) : v.namespaces = w.namespaces := by
  obtain ⟨cells, logs, -, rfl⟩ := h
  rfl

theorem withFrames (h : d.Twins w v) (fs : List Frame) :
    d.Twins { w with frames := fs } { v with frames := fs } :=
  h.map (f := fun w => { w with frames := fs }) (fun _ => rfl) (fun _ => rfl) fun _ _ _ => rfl

theorem isRealized (h : d.Twins w v) (j : Nat) : v.isRealized j = w.isRealized j := by
  obtain ⟨cells, logs, h, rfl⟩ := h
  by_cases hj : d.cell = j
  · subst hj
    cases h.stage with
    | waiting hc hc' _ _ => simp only [World.isRealized, hc, hc', CellState.isRealized]
    | noted hc hc' _ _ _ => simp only [World.isRealized, hc, hc']
  · simp only [World.isRealized, h.others j hj]

theorem setCell (h : d.Twins w v) {j : Nat} (hj : d.cell ≠ j) (state : CellState) :
    d.Twins (w.setCell j state) (v.setCell j state) := by
  obtain ⟨cells, logs, h, rfl⟩ := h
  exact ⟨_, logs, h.modify hj fun c => { c with state := state }, rfl⟩

theorem addCell (h : d.Twins w v) (body : Callable Value) :
    (v.addCell body).1 = (w.addCell body).1 ∧ d.Twins (w.addCell body).2 (v.addCell body).2 := by
  obtain ⟨cells, logs, h, rfl⟩ := h
  exact ⟨congrArg Value.lazy h.size, _, logs, h.push _, rfl⟩

theorem change (h : d.Twins w v) (c : Change) : d.Twins (c.apply w) (c.apply v) := by
  cases c with
  | record log args =>
    obtain ⟨cells, logs, h, rfl⟩ := h
    exact ⟨cells, _, h.record log args, rfl⟩
  | want path =>
    refine h.map (fun w => (Change.want path).cells_apply w) (fun w => ?_) fun w cells logs => ?_
    · simp only [Change.apply, World.want]
      split <;> rfl
    · simp only [Change.apply, World.want]
      split <;> rfl
  | _ => exact h.map (fun _ => rfl) (fun _ => rfl) fun _ _ _ => rfl

end Twins

end Noting

def World.noted (w : World) (i log : Nat) (s : Value) : World :=
  ((w.setCell i .running).record log []).setCell i (.realized s)

theorem Kernel.realize_recorder {n i log era : Nat} {w : World} {result s : Value}
    (hc : w.cells[i]? = some ⟨era, .unrealized (.recorder log result)⟩) (hs : result.asSequence? = some s) :
    (withFuel n).realize i w =
      if era = w.era then if n = 0 then .outOfFuel else .value s (w.noted i log s)
      else .failure .environmentDropped w := by
  unfold realize
  rw [hc]
  cases n with
  | zero => rfl
  | succ n =>
    have hcall : Eval.withoutLocals ((withFuel (n + 1)).apply (.recorder log result) []) (w.setCell i .running) =
        .value result ((w.setCell i .running).record log []) := rfl
    simp only [hcall, settle, hs, Nat.succ_ne_zero, if_false]
    rfl

theorem Noting.Twins.noted {d : Noting} {w v : World} {era : Nat}
    (hw : w.cells[d.cell]? = some ⟨era, .unrealized (.recorder d.here d.result)⟩)
    (hv : v.cells[d.cell]? = some ⟨era, .unrealized (.recorder d.there d.result)⟩)
    (hh : d.here < w.logs.size) (ht : d.there < w.logs.size) (hl : v.logs = w.logs) (h : d.Twins w v) :
    d.Twins (w.noted d.cell d.here d.elements) (v.noted d.cell d.there d.elements) := by
  have filled {w : World} {state : CellState} (log : Nat) (hc : w.cells[d.cell]? = some ⟨era, state⟩) :
      (w.noted d.cell log d.elements).cells[d.cell]? = some ⟨era, .realized d.elements⟩ :=
    World.getElem?_setCell_self (w := (w.setCell d.cell .running).record log [])
      (World.getElem?_setCell_self hc .running) _
  have others (w : World) (log : Nat) {j : Nat} (hj : d.cell ≠ j) :
      (w.noted d.cell log d.elements).cells[j]? = w.cells[j]? :=
    (World.getElem?_setCell_of_ne _ hj _).trans (World.getElem?_setCell_of_ne w hj .running)
  have size (w : World) (log : Nat) : (w.noted d.cell log d.elements).cells.size = w.cells.size :=
    Array.size_modify.trans Array.size_modify
  obtain ⟨cells, logs, h, rfl⟩ := h
  obtain rfl : logs = w.logs := hl
  refine ⟨_, _, ⟨?_, fun j hj => ?_, .noted (filled d.here hw) (filled d.there hv) (.note hh d.apart.symm)
    (.note ht d.apart) fun log hl hl' => ?_⟩, rfl⟩
  · exact (size _ d.there).trans (h.size.trans (size w d.here).symm)
  · exact (others _ d.there hj).trans ((h.others j hj).trans (others w d.here hj).symm)
  · exact (Array.getElem?_modify.trans (if_neg hl'.symm)).trans (Array.getElem?_modify.trans (if_neg hl.symm)).symm

namespace Matches

open Noting (Twins)

variable {d : Noting} {m m' : Eval α}

theorem withoutLocals (hm : Matches d.Twins m m') : Matches d.Twins m.withoutLocals m'.withoutLocals :=
  hm.within (fun _ _ h => h.withFrames _) fun w _ _ _ h h' => h.frames_eq ▸ h'.withFrames w.frames

theorem keepingNamespace (hm : Matches d.Twins m m') : Matches d.Twins m.keepingNamespace m'.keepingNamespace :=
  hm.within (fun _ _ h => h) fun w _ _ _ h h' =>
    h.namespaces_eq ▸ h'.map (f := (·.setCurrent w.namespaces.current)) (fun _ => rfl) (fun _ => rfl) fun _ _ _ => rfl

theorem withFrame (scope : Scope) (hm : Matches d.Twins m m') :
    Matches d.Twins (m.withFrame scope) (m'.withFrame scope) :=
  hm.within (fun _ _ h => h.map (f := (·.pushFrame scope)) (fun _ => rfl) (fun _ => rfl) fun _ _ _ => rfl)
    fun _ _ _ _ _ h' => h'.map (f := (·.popFrame)) (fun _ => rfl) (fun _ => rfl) fun _ _ _ => rfl

theorem withScope (hm : Matches d.Twins m m') : Matches d.Twins m.withScope m'.withScope := by
  refine hm.within (fun w v h => ?_) fun _ _ w v _ h => ?_
  · rw [World.pushScope_eq, World.pushScope_eq, h.frames_eq]
    exact h.withFrames _
  · have hf := h.frames_eq
    cases hw : w.frames with
    | nil =>
      rw [World.popScope, World.popScope, hf, hw]
      exact h
    | cons f fs =>
      rw [World.popScope, World.popScope, hf, hw]
      exact h.withFrames _

theorem bindName (name : String) (x : Value) :
    Matches d.Twins (Eval.bindName name x) (Eval.bindName name x) := by
  intro w v h
  have hb : v.bind? name x = none ∧ w.bind? name x = none ∨
      ∃ fs, w.bind? name x = some { w with frames := fs } ∧ v.bind? name x = some { v with frames := fs } := by
    unfold World.bind?
    rw [h.frames_eq]
    match w.frames with
    | [] => exact .inl ⟨rfl, rfl⟩
    | [] :: _ => exact .inl ⟨rfl, rfl⟩
    | (_ :: _) :: _ => exact .inr ⟨_, rfl, rfl⟩
  unfold Eval.bindName
  rcases hb with ⟨hv, hw⟩ | ⟨fs, hw, hv⟩
  · rw [hv, hw]
    exact .failure h
  · rw [hv, hw]
    exact .value (h.withFrames fs)

theorem look {g : World → α} (hg : IgnoresBodies g) : Matches d.Twins (Eval.read g) (Eval.read g) := by
  refine .read fun w v h => ?_
  have hr := h.isRealized
  obtain ⟨cells, logs, -, rfl⟩ := h
  exact hg w cells logs hr

theorem newCallable (f : Callable Value) : Matches d.Twins (Eval.newCallable f) (Eval.newCallable f) := by
  rintro w _ ⟨cells, logs, h, rfl⟩
  exact .value ⟨cells, logs, h, rfl⟩

theorem newCell (f : Callable Value) : Matches d.Twins (Eval.newCell f) (Eval.newCell f) := by
  intro w v h
  obtain ⟨hv, ht⟩ := h.addCell f
  change Outcome.Rel d.Twins (.value (w.addCell f).1 (w.addCell f).2) (.value (v.addCell f).1 (v.addCell f).2)
  rw [hv]
  exact .value ht

theorem settle {r r' : Outcome Value} {j : Nat} {body : Callable Value} (hj : d.cell ≠ j)
    (h : r.Rel d.Twins r') :
    (Kernel.settle j body r).Rel d.Twins (Kernel.settle j body r') := by
  cases h with
  | @value x w v h =>
    unfold Kernel.settle
    dsimp only
    split
    · exact .value (h.setCell hj _)
    · exact .failure (h.setCell hj _)
  | failure h => exact .failure (h.setCell hj _)
  | outOfFuel => exact .outOfFuel

theorem realize_of_ne {k k' : Kernel} (hk : ∀ f, Matches d.Twins (k.apply f []) (k'.apply f [])) {j : Nat}
    (hj : d.cell ≠ j) : Matches d.Twins (k.realize j) (k'.realize j) := by
  intro w v h
  have hcell : v.cells[j]? = w.cells[j]? ∧ v.era = w.era := by
    obtain ⟨cells, logs, h, rfl⟩ := h
    exact ⟨h.others j hj, rfl⟩
  unfold Kernel.realize
  rw [hcell.1, hcell.2]
  split
  · exact .failure h
  · split
    · exact .value h
    · exact .failure h
    · next body _ =>
      split
      · exact settle hj ((hk body).withoutLocals _ _ (h.setCell hj .running))
      · exact .failure h

theorem realize_cell (n : Nat) :
    Matches d.Twins ((Kernel.withFuel n).realize d.cell) ((Kernel.withFuel n).realize d.cell) := by
  intro w v h
  have h' := h
  obtain ⟨cells, logs, hlink, rfl⟩ := h'
  cases hlink.stage with
  | @waiting era hw hv hh ht =>
    rw [Kernel.realize_recorder hw d.gives, Kernel.realize_recorder (w := { w with cells := cells }) hv d.gives]
    split
    · split
      · exact .outOfFuel
      · exact .value (h.noted hw hv hh ht rfl)
    · exact .failure h
  | noted hw hv _ _ _ =>
    rw [Kernel.realize_of_realized _ hw, Kernel.realize_of_realized _ (w := { w with cells := cells, logs := logs }) hv]
    exact .value h

theorem realize {k k' : Kernel} (hn : ∃ n, k = Kernel.withFuel n ∧ k' = Kernel.withFuel n)
    (hk : ∀ f, Matches d.Twins (k.apply f []) (k'.apply f [])) (j : Nat) :
    Matches d.Twins (k.realize j) (k'.realize j) := by
  by_cases hj : d.cell = j
  · obtain ⟨n, rfl, rfl⟩ := hn
    exact hj ▸ realize_cell n
  · exact realize_of_ne hk hj

end Matches

namespace Noting

variable (d : Noting)

def simulation : Simulation where
  Place := Unit
  Sees := fun _ _ => True
  inner := ()
  sees_inner := fun _ => trivial
  Lax := False
  Runs := fun k k' => ∃ n, k = Kernel.withFuel n ∧ k' = Kernel.withFuel n
  Rel := fun _ => Matches d.Twins
  Open := fun _ => Matches d.Twins
  rel_pure := fun a => .pure a
  rel_bind := fun hm hf => hm.bind hf
  rel_fail := fun {_ _ e} _ => .fail e
  rel_outOfFuel := fun _ _ _ => .outOfFuel
  rel_stuck := fun h => h.elim
  rel_attempt := fun hm => hm.attempt
  rel_orFalse := fun hm => hm.orFalse
  rel_look := fun _ _ hg => .look hg
  rel_change := fun {_ c} _ => .modify fun _ _ h => h.change c
  rel_newCallable := fun f => .newCallable f
  rel_newCell := fun f => .newCell f
  rel_keepingNamespace := fun hm => hm.keepingNamespace
  rel_force := fun v hn hr hk => Kernel.force_related (fun v => .pure v) (fun hm hf => hm.bind hf)
    (fun _ _ _ => .outOfFuel) (fun h => h.elim) (fun cell => .realize hr hk cell) hn v
  rel_withScope := fun hm => hm.withScope
  rel_withFrame := fun scope hm => hm.withFrame scope
  open_rel := fun hm => hm
  open_bind := fun hm hf => hm.bind hf
  open_bindName := fun name v => .bindName name v

theorem tables : d.simulation.Tables where
  look := fun _ hg => .look hg
  change := fun c => .modify fun _ _ h => h.change c

theorem follows (n : Nat) : d.simulation.Follows () (Kernel.withFuel n) (Kernel.withFuel n) := by
  rw [Kernel.withFuel_eq_barring]
  refine Simulation.follows_barring ⟨d.tables, fun {_ name} _ => ?_⟩ (fun _ hx => hx) (fun _ _ => .inl rfl) ?_ (.inl rfl)
    fun _ _ _ => .inr fun _ => trivial
  · have hr : IgnoresBodies fun w : World => w.resolve name := fun _ _ _ _ => rfl
    exact .bind (.look hr) fun result => .ofExcept result
  · rintro m _ (rfl | ⟨hl, -⟩)
    · exact ⟨m, (Kernel.withFuel_eq_barring m).symm, (Kernel.withFuel_eq_barring m).symm⟩
    · exact hl.elim

end Noting

/-- What may come next from any moment of a run, also from one inside a request or a body. With `host` frames are
opened and closed and names are bound, and with `other` the body of another lazy sequence begins or ends. -/
inductive Deed where
  | request (n : Nat) (r : Request)
  | host (u : World)
  | make (body : Callable Value)
  | other (j : Nat) (state : CellState)

namespace Deed

def perform (w : World) : Deed → Option World
  | request n r => r.after (Kernel.withFuel n) w
  | host u => some { u with cells := w.cells, logs := w.logs }
  | make body => some (w.addCell body).2
  | other j state => some (w.setCell j state)

def performAll (w : World) (deeds : List Deed) : Option World := deeds.foldlM perform w

def Spares (i : Nat) : Deed → Prop
  | other j _ => i ≠ j
  | _ => True

end Deed

theorem Request.Related.after {P : World → World → Prop} {k k' : Kernel} {r : Request} {w v : World}
    (hr : r.Related (Matches P) k k') (hd : P w v → P w.dropEnvironment v.dropEnvironment) (h : P w v) :
    Option.Rel P (r.after k w) (r.after k' v) := by
  cases r with
  | drop => exact .some (hd h)
  | _ => exact (hr w v h).world?

namespace Noting

variable (d : Noting) (w : World)

def Waits : Prop :=
  (∃ era, w.cells[d.cell]? = some ⟨era, .unrealized (.recorder d.here d.result)⟩) ∧
    d.here < w.logs.size ∧ d.there < w.logs.size

/-- The body is made to note its call in the other log. -/
def elsewhere : World := w.setCell d.cell (.unrealized (.recorder d.there d.result))

end Noting

namespace Noting.Twins

variable {d : Noting} {w v : World}

theorem of_waits (h : d.Waits w) : d.Twins w (d.elsewhere w) := by
  obtain ⟨⟨era, hw⟩, hh, ht⟩ := h
  exact ⟨_, _, ⟨Array.size_modify, fun _ hj => World.getElem?_setCell_of_ne w hj _,
    .waiting hw (World.getElem?_setCell_self hw _) hh ht⟩, rfl⟩

theorem request (h : d.Twins w v) (n : Nat) (r : Request) :
    Option.Rel d.Twins (r.after (Kernel.withFuel n) w) (r.after (Kernel.withFuel n) v) :=
  ((d.follows n).request (d.follows budget) d.tables id r).after
    (fun h => h.map (fun _ => rfl) (fun _ => rfl) fun _ _ _ => rfl) h

theorem perform (h : d.Twins w v) {deed : Deed} (hd : deed.Spares d.cell) :
    Option.Rel d.Twins (deed.perform w) (deed.perform v) := by
  cases deed with
  | request n r => exact h.request n r
  | host u =>
    obtain ⟨cells, logs, h, rfl⟩ := h
    exact .some ⟨cells, logs, h, rfl⟩
  | make body => exact .some (h.addCell body).2
  | other j state => exact .some (h.setCell hd state)

theorem performAll (h : d.Twins w v) {deeds : List Deed} (hd : ∀ deed ∈ deeds, deed.Spares d.cell) :
    Option.Rel d.Twins (Deed.performAll w deeds) (Deed.performAll v deeds) := by
  induction deeds generalizing w v with
  | nil => exact .some h
  | cons deed deeds ih =>
    have hr := h.perform (hd deed List.mem_cons_self)
    simp only [Deed.performAll, List.foldlM_cons]
    generalize deed.perform w = r, deed.perform v = r' at hr ⊢
    cases hr with
    | none => exact .none
    | some h => exact ih h fun x hx => hd x (List.mem_cons_of_mem deed hx)

theorem length_callsOf (h : d.Twins w v) :
    (w.callsOf d.here).length = (v.callsOf d.here).length + if w.isRealized d.cell then 1 else 0 := by
  obtain ⟨cells, logs, h, rfl⟩ := h
  cases h.stage with
  | waiting hc _ _ _ => simp [World.callsOf, World.isRealized, hc, CellState.isRealized]
  | noted hc _ hh _ _ =>
    obtain ⟨later, earlier, hl, hl'⟩ := hh
    simp only [World.callsOf, World.isRealized, hc, hl, hl', CellState.isRealized, Option.getD_some, List.length_reverse,
      List.length_append, List.length_cons, if_true]
    rfl

end Noting.Twins

/-- Whatever is done, the log has one call more than without the body if the sequence is realized, and else it has
none more. -/
theorem Noting.called_once {d : Noting} {w : World} {deeds : List Deed} (hw : d.Waits w)
    (hd : ∀ deed ∈ deeds, deed.Spares d.cell) :
    Option.Rel (fun v v' => d.Twins v v' ∧
        (v.callsOf d.here).length = (v'.callsOf d.here).length + if v.isRealized d.cell then 1 else 0)
      (Deed.performAll w deeds) (Deed.performAll (d.elsewhere w) deeds) := by
  have hr := (Twins.of_waits hw).performAll hd
  generalize Deed.performAll w deeds = r, Deed.performAll (d.elsewhere w) deeds = r' at hr ⊢
  cases hr with
  | none => exact .none
  | some h => exact .some ⟨h, h.length_callsOf⟩

end LazyLisp
