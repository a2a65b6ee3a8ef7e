import LazyLisp.Proofs.Evolution

namespace LazyLisp

namespace CellState

def body? : CellState → Option (Callable Value)
  | unrealized body => some body
  | _ => none

def value? : CellState → Option Value
  | realized v => some v
  | _ => none

end CellState

namespace World

def cellBody? (w : World) (i : Nat) : Option (Callable Value) := w.cells[i]?.bind (·.state.body?)

def cellValue? (w : World) (i : Nat) : Option Value := w.cells[i]?.bind (·.state.value?)

theorem getElem?_setCell (w : World) (i : Nat) (state : CellState) (j : Nat) :
    (w.setCell i state).cells[j]? =
      if i = j then w.cells[j]?.map fun c => { c with state := state } else w.cells[j]? :=
  Array.getElem?_modify

theorem getElem?_setCell_self {w : World} {i era : Nat} {old : CellState}
    (h : w.cells[i]? = some ⟨era, old⟩) (state : CellState) :
    (w.setCell i state).cells[i]? = some ⟨era, state⟩ := by
  rw [getElem?_setCell, if_pos rfl, h]
  rfl

theorem getElem?_setCell_of_ne (w : World) {i j : Nat} (h : i ≠ j) (state : CellState) :
    (w.setCell i state).cells[j]? = w.cells[j]? := by
  rw [getElem?_setCell, if_neg h]

theorem getElem?_addCell (w : World) (body : Callable Value) (j : Nat) :
    (w.addCell body).2.cells[j]? =
      if j = w.cells.size then some ⟨w.era, .unrealized body⟩ else w.cells[j]? :=
  Array.getElem?_push

theorem cellValue?_eq_some {w : World} {i : Nat} {s : Value} :
    w.cellValue? i = some s ↔ ∃ era, w.cells[i]? = some ⟨era, .realized s⟩ := by
  constructor
  · intro h
    obtain ⟨⟨era, state⟩, hc, hs⟩ := Option.bind_eq_some_iff.mp h
    cases state with
    | realized v =>
      cases hs
      exact ⟨era, hc⟩
    | _ => cases hs
  · rintro ⟨era, hc⟩
    rw [cellValue?, hc]
    rfl

theorem cellBody?_eq_some {w : World} {i : Nat} {body : Callable Value} :
    w.cellBody? i = some body ↔ ∃ era, w.cells[i]? = some ⟨era, .unrealized body⟩ := by
  constructor
  · intro h
    obtain ⟨⟨era, state⟩, hc, hs⟩ := Option.bind_eq_some_iff.mp h
    cases state with
    | unrealized b =>
      cases hs
      exact ⟨era, hc⟩
    | _ => cases hs
  · rintro ⟨era, hc⟩
    rw [cellBody?, hc]
    rfl

end World

inductive Cell.Settled : Cell → Prop
  | unrealized (era : Nat) (body : Callable Value) : Settled ⟨era, .unrealized body⟩
  | realized (era : Nat) {s : Value} (h : s.isSequential = true) : Settled ⟨era, .realized s⟩

/-- What a place for a cell may hold before and after a computation. A cell that is running stays so: it
belongs to a realization around the computation. -/
inductive Cell.Ages : Option Cell → Option Cell → Prop
  | same (c : Option Cell) : Ages c c
  | made {c : Cell} (h : c.Settled) : Ages none (some c)
  | realized {era : Nat} {body : Callable Value} {s : Value} (h : s.isSequential = true) :
      Ages (some ⟨era, .unrealized body⟩) (some ⟨era, .realized s⟩)

theorem Cell.Ages.trans {a b c : Option Cell} (hab : Ages a b) (hbc : Ages b c) : Ages a c := by
  cases hab with
  | same => exact hbc
  | made h =>
    cases hbc with
    | same => exact .made h
    | realized hs => exact .made (.realized _ hs)
  | realized hs =>
    cases hbc with
    | same => exact .realized hs

theorem Cell.Ages.of_running {era : Nat} {c : Option Cell} (h : Ages (some ⟨era, .running⟩) c) :
    c = some ⟨era, .running⟩ := by
  cases h
  rfl

def World.Ages (w v : World) : Prop := ∀ i : Nat, Cell.Ages w.cells[i]? v.cells[i]?

namespace World.Ages

theorem of_cells_eq {w v : World} (h : v.cells = w.cells) : w.Ages v := by
  intro i
  rw [h]
  exact .same _

theorem trans {u v w : World} (huv : u.Ages v) (hvw : v.Ages w) : u.Ages w :=
  fun i => (huv i).trans (hvw i)

theorem addCell (w : World) (body : Callable Value) : w.Ages (w.addCell body).2 := by
  intro i
  rw [getElem?_addCell]
  split
  · next hi =>
    rw [hi, Array.getElem?_eq_none (Nat.le_refl _)]
    exact .made (.unrealized _ _)
  · exact .same _

variable {w v : World} {i era : Nat} {body : Callable Value}

theorem still_running (hc : w.cells[i]? = some ⟨era, .unrealized body⟩) (h : (w.setCell i .running).Ages v) :
    v.cells[i]? = some ⟨era, .running⟩ := by
  have hi := h i
  rw [getElem?_setCell_self hc] at hi
  exact hi.of_running

theorem setCell (hc : w.cells[i]? = some ⟨era, .unrealized body⟩) (h : (w.setCell i .running).Ages v)
    {state : CellState} (hs : Cell.Ages (some ⟨era, .unrealized body⟩) (some ⟨era, state⟩)) :
    w.Ages (v.setCell i state) := by
  intro j
  by_cases hij : i = j
  · subst hij
    -- Whatever the body did, it found this cell running and left it running.
    rw [getElem?_setCell_self (h.still_running hc), hc]
    exact hs
  · have hj := h j
    rw [getElem?_setCell_of_ne w hij] at hj
    rwa [getElem?_setCell_of_ne v hij]

theorem cellValue (h : w.Ages v) {s : Value} (hs : w.cellValue? i = some s) : v.cellValue? i = some s := by
  obtain ⟨era, hc⟩ := cellValue?_eq_some.mp hs
  have hi := h i
  rw [hc] at hi
  cases hv : v.cells[i]? with
  | none =>
    rw [hv] at hi
    cases hi
  | some c =>
    rw [hv] at hi
    cases hi
    exact cellValue?_eq_some.mpr ⟨era, hv⟩

theorem cellBody (h : w.Ages v) (hb : w.cellBody? i = some body) :
    v.cellBody? i = some body ∨ ∃ s, v.cellValue? i = some s := by
  obtain ⟨era, hc⟩ := cellBody?_eq_some.mp hb
  have hi := h i
  rw [hc] at hi
  cases hv : v.cells[i]? with
  | none =>
    rw [hv] at hi
    cases hi
  | some c =>
    rw [hv] at hi
    cases hi with
    | same => exact .inl (cellBody?_eq_some.mpr ⟨era, hv⟩)
    | realized _ => exact .inr ⟨_, cellValue?_eq_some.mpr ⟨era, hv⟩⟩

theorem settled (h : w.Ages v) (hw : w.cells[i]? = none) {c : Cell} (hc : v.cells[i]? = some c) :
    c.Settled := by
  have hi := h i
  rw [hw, hc] at hi
  cases hi with
  | made h => exact h

end World.Ages

theorem Change.cells_apply (c : Change) (w : World) : (c.apply w).cells = w.cells := by
  cases c with
  | want path =>
    simp only [apply, World.want]
    split <;> rfl
  | _ => rfl

theorem evolution_ages : Evolution World.Ages where
  frames := fun _ _ => .of_cells_eq rfl
  trans := fun huv hvw => huv.trans hvw
  change := fun c w => .of_cells_eq (c.cells_apply w)
  newCallable := fun _ _ => .of_cells_eq rfl
  newCell := fun f w => .addCell w f
  restore := fun h => h.trans (.of_cells_eq rfl)
  abandon := fun hc _ _ h => .setCell hc h (.same _)
  complete := fun hc _ hx h _ => .setCell hc h (.realized (Value.isSequential_of_asSequence? hx))

theorem Cell.Settled.body_or_value {c : Cell} (h : c.Settled) :
    (∃ body, c.state.body? = some body ∧ c.state.value? = none) ∨
      c.state.body? = none ∧ ∃ s, c.state.value? = some s ∧ s.isSequential = true := by
  cases h with
  | unrealized era body => exact .inl ⟨body, rfl, rfl⟩
  | realized era hs => exact .inr ⟨rfl, _, rfl, hs⟩

namespace Run

/-- Between two requests a lazy sequence has its body and no elements, or it has its elements and no
body. The elements stay, and the body is given up only for elements. -/
theorem cells_settled {w₀ w v : World} (h₀ : w₀.cells = #[]) (hw : Run w₀ w) (hv : Run w v) (i : Nat) :
    (∀ c, w.cells[i]? = some c →
      (∃ body, c.state.body? = some body ∧ c.state.value? = none) ∨
        c.state.body? = none ∧ ∃ s, c.state.value? = some s ∧ s.isSequential = true) ∧
    (∀ s, w.cellValue? i = some s → v.cellValue? i = some s) ∧
    ∀ body, w.cellBody? i = some body → v.cellBody? i = some body ∨ ∃ s, v.cellValue? i = some s := by
  have hn : w₀.cells[i]? = none := by rw [h₀]; rfl
  have haw : w₀.Ages w := evolution_ages.run .of_cells_eq hw
  have hav : w.Ages v := evolution_ages.run .of_cells_eq hv
  refine ⟨fun c hc => ?_, fun s hs => hav.cellValue hs, fun body hb => hav.cellBody hb⟩
  exact (haw.settled hn hc).body_or_value

def delayWorld (cells : Array Cell) : World :=
  { World.empty with
    namespaces := Namespaces.empty.define "lazy-seq" (.callable 0 (.special .delay))
    cells := cells }

def delayed (result : Value) : Value := .list [.symbol "lazy-seq", result]

def delayedBody (result : Value) : Callable Value :=
  .closure ⟨"lazy-seq", .exactly 0, [], [result], .empty, false⟩

def writtenWorld : World :=
  delayWorld #[⟨0, .unrealized (delayedBody (.int 1))⟩, ⟨0, .realized (.vector [.int 2])⟩]

theorem cells_settled_written :
    Run (delayWorld #[]) writtenWorld ∧ Run writtenWorld writtenWorld.dropEnvironment ∧
      (∀ c, writtenWorld.cells[0]? = some c →
        (∃ body, c.state.body? = some body ∧ c.state.value? = none) ∨
          c.state.body? = none ∧ ∃ s, c.state.value? = some s ∧ s.isSequential = true) ∧
      writtenWorld.dropEnvironment.cellValue? 1 = some (.vector [.int 2]) := by
  have h₁ : Run (delayWorld #[]) (delayWorld #[⟨0, .unrealized (delayedBody (.int 1))⟩]) :=
    .request (n := 4) (.eval (delayed (.int 1))) (.start _) rfl
  have h₂ : Run (delayWorld #[]) (delayWorld #[⟨0, .unrealized (delayedBody (.int 1))⟩]) :=
    .request (n := 4) (.write .readable (.lazy 0)) h₁ rfl
  have h₃ : Run (delayWorld #[]) (delayWorld #[⟨0, .unrealized (delayedBody (.int 1))⟩,
      ⟨0, .unrealized (delayedBody (.vector [.int 2]))⟩]) :=
    .request (n := 4) (.eval (delayed (.vector [.int 2]))) h₂ rfl
  have hw : Run (delayWorld #[]) writtenWorld := .request (n := 4) (.write .direct (.lazy 1)) h₃ rfl
  have h₄ : Run writtenWorld writtenWorld.dropEnvironment := .request (n := 4) .drop (.start _) rfl
  have hv : Run writtenWorld writtenWorld.dropEnvironment :=
    .request (n := 4) (.write .readable (.lazy 0)) h₄ rfl
  exact ⟨hw, hv, (cells_settled rfl hw hv 0).1, (cells_settled rfl hw hv 1).2.1 _ rfl⟩

end Run

end LazyLisp
