import LazyLisp.Evaluation

/-!
Two runs of the evaluator side by side. A simulation says how two computations correspond at a place,
which is known by the names that may be looked up there, and has one rule for each thing that the
evaluator can do to the world.
-/

namespace LazyLisp

namespace Value

mutual

def symbols : Value → List String
  | .symbol name => [name]
  | .list forms => itemSymbols forms
  | .vector forms => itemSymbols forms
  | .map entries => entrySymbols entries
  | _ => []

def itemSymbols : List Value → List String
  | [] => []
  | v :: rest => symbols v ++ itemSymbols rest

def entrySymbols : List (Value × Value) → List String
  | [] => []
  | (key, value) :: rest => symbols key ++ (symbols value ++ entrySymbols rest)

end

theorem mem_itemSymbols {name : String} {forms : List Value} :
    name ∈ itemSymbols forms ↔ ∃ v ∈ forms, name ∈ v.symbols := by
  induction forms with
  | nil => simp [itemSymbols]
  | cons v rest ih => simp [itemSymbols, ih]

theorem mem_entrySymbols {name : String} {entries : List (Value × Value)} :
    name ∈ entrySymbols entries ↔ ∃ e ∈ entries, name ∈ e.1.symbols ∨ name ∈ e.2.symbols := by
  induction entries with
  | nil => simp [entrySymbols]
  | cons e rest ih => simp [entrySymbols, ih, or_assoc]

end Value

def Failure.isNoScope : Failure → Bool
  | noScope _ => true
  | _ => false

inductive Change where
  | define (symbol : String) (v : Value)
  | enter (space : String)
  | load (space : String) (nickname : Option String)
  | record (log : Nat) (args : List Value)
  | want (path : String)
  | print (text : String)

def Change.apply : Change → World → World
  | define symbol v, w => w.define symbol v
  | enter space, w => w.setCurrent (some space)
  | load space nickname, w =>
    let n := w.namespaces.load space
    { w with namespaces := match nickname with
        | some name => n.addAlias name space
        | none => n }
  | record log args, w => w.record log args
  | want path, w => w.want path
  | print text, w => w.print text

def Change.isLocal : Change → Bool
  | define _ _ => false
  | load _ _ => false
  | _ => true

def Sharing (names : String → Prop) (fs gs : List Frame) : Prop :=
  ∀ x, names x → World.localIn? (fs.head?.getD []) x = World.localIn? (gs.head?.getD []) x

def DependsOn {α : Type} (names : String → Prop) (g : World → α) : Prop :=
  ∀ (w : World) (fs : List Frame), Sharing names w.frames fs → g w = g { w with frames := fs }

def IgnoresNamespaces {α : Type} (g : World → α) : Prop :=
  ∀ (w : World) (n : Namespaces), g { w with namespaces := n } = g w

/-- Of lazy sequences it is only seen whether they have their elements, and of the logs nothing. -/
def IgnoresBodies {α : Type} (g : World → α) : Prop :=
  ∀ (w : World) (cells : Array Cell) (logs : Array (List (List Value))),
    (∀ i, World.isRealized { w with cells := cells, logs := logs } i = w.isRealized i) →
      g { w with cells := cells, logs := logs } = g w

/-- `Rel i` relates computations at the place `i`, and `Open i` those that may bind names in a scope
opened for them. The names in `Agrees i` have the same local values on both sides. A lax simulation says
nothing of a left side that is out of fuel. Bodies of lazy sequences are run by evaluators of which `Runs`
holds. -/
structure Simulation where
  Place : Type
  Sees : Place → String → Prop
  Agrees : Place → String → Prop := Sees
  inner : Place
  sees_inner : ∀ x, Sees inner x
  Lax : Prop
  Runs : Kernel → Kernel → Prop := fun _ _ => True
  Rel : Place → {α : Type} → Eval α → Eval α → Prop
  Open : Place → {α : Type} → Eval α → Eval α → Prop
  rel_pure : ∀ {i : Place} {α : Type} (a : α), Rel i (pure a : Eval α) (pure a)
  rel_bind : ∀ {i : Place} {α β : Type} {m m' : Eval α} {f f' : α → Eval β},
    Rel i m m' → (∀ a, Rel i (f a) (f' a)) → Rel i (m >>= f) (m' >>= f')
  rel_fail : ∀ {i : Place} {α : Type} {e : Failure},
    e.isNoScope = false → Rel i (Eval.fail e : Eval α) (Eval.fail e)
  rel_outOfFuel : ∀ {i : Place} {α : Type}, Rel i (Eval.outOfFuel : Eval α) Eval.outOfFuel
  rel_stuck : ∀ {i : Place} {α : Type} {m' : Eval α}, Lax → Rel i Eval.outOfFuel m'
  rel_attempt : ∀ {i : Place} {α : Type} {m m' : Eval α}, Rel i m m' → Rel i m.attempt m'.attempt
  rel_orFalse : ∀ {i : Place} {m m' : Eval Bool}, Rel i m m' → Rel i m.orFalse m'.orFalse
  rel_look : ∀ {i : Place} {α : Type} {g : World → α},
    DependsOn (Agrees i) g → IgnoresNamespaces g → IgnoresBodies g → Rel i (Eval.read g) (Eval.read g)
  rel_change : ∀ {i : Place} {c : Change}, c.isLocal = true →
    Rel i (Eval.modify c.apply) (Eval.modify c.apply)
  rel_newCallable : ∀ {i : Place} (f : Callable Value), Rel i (Eval.newCallable f) (Eval.newCallable f)
  rel_newCell : ∀ {i : Place} (f : Callable Value), Rel i (Eval.newCell f) (Eval.newCell f)
  rel_keepingNamespace : ∀ {i : Place} {α : Type} {m m' : Eval α},
    Rel i m m' → Rel i m.keepingNamespace m'.keepingNamespace
  rel_force : ∀ {i : Place} {k k' : Kernel} {n n' : Nat} (v : Value), n = n' ∨ Lax ∧ n ≤ n' → Runs k k' →
    (∀ f, Rel inner (k.apply f []) (k'.apply f [])) → Rel i (k.force n v) (k'.force n' v)
  rel_withScope : ∀ {i : Place} {α : Type} {m m' : Eval α},
    Open i m m' → Rel i m.withScope m'.withScope
  rel_withFrame : ∀ {i : Place} {α : Type} {m m' : Eval α} (scope : Scope),
    Open inner m m' → Rel i (m.withFrame scope) (m'.withFrame scope)
  open_rel : ∀ {i : Place} {α : Type} {m m' : Eval α}, Rel i m m' → Open i m m'
  open_bind : ∀ {i : Place} {α β : Type} {m m' : Eval α} {f f' : α → Eval β},
    Open i m m' → (∀ a, Open i (f a) (f' a)) → Open i (m >>= f) (m' >>= f')
  open_bindName : ∀ {i : Place} (name : String) (v : Value),
    Open i (Eval.bindName name v) (Eval.bindName name v)

theorem Kernel.force_related {R : Eval Value → Eval Value → Prop} {lax : Prop} {k k' : Kernel}
    (hp : ∀ v, R (pure v) (pure v))
    (hb : ∀ {m m' : Eval Value} {f f' : Value → Eval Value},
      R m m' → (∀ a, R (f a) (f' a)) → R (m >>= f) (m' >>= f'))
    (ho : R Eval.outOfFuel Eval.outOfFuel) (hl : lax → ∀ m, R Eval.outOfFuel m)
    (hr : ∀ cell, R (k.realize cell) (k'.realize cell)) {n n' : Nat} (hn : n = n' ∨ lax ∧ n ≤ n')
    (v : Value) : R (k.force n v) (k'.force n' v) := by
  induction n generalizing n' v with
  | zero =>
    cases v with
    | lazy cell =>
      rcases hn with rfl | ⟨hx, _⟩
      · exact ho
      · exact hl hx _
    | _ => cases n' <;> exact hp _
  | succ n ih =>
    obtain ⟨l, rfl⟩ : ∃ l, n' = l + 1 := ⟨n' - 1, by omega⟩
    have hn : n = l ∨ lax ∧ n ≤ l := hn.imp (fun h => by omega) fun h => ⟨h.1, by omega⟩
    cases v with
    | lazy cell => exact hb (hr cell) fun s => ih hn s
    | _ => exact hp _

namespace Simulation

structure Tables (D : Simulation) : Prop where
  look : ∀ {i : D.Place} {α : Type} {g : World → α},
    DependsOn (D.Agrees i) g → IgnoresBodies g → D.Rel i (Eval.read g) (Eval.read g)
  change : ∀ {i : D.Place} (c : Change), D.Rel i (Eval.modify c.apply) (Eval.modify c.apply)

structure Global (D : Simulation) : Prop extends Tables D where
  resolve : ∀ {i : D.Place} {name : String}, D.Sees i name →
    D.Rel i (Eval.read (·.resolve name) >>= Eval.ofExcept) (Eval.read (·.resolve name) >>= Eval.ofExcept)

variable {D : Simulation} {i : D.Place} {α β : Type}

def Budget (D : Simulation) (n n' : Nat) : Prop := n = n' ∨ D.Lax ∧ n ≤ n'

theorem Budget.succ {n n' : Nat} (h : D.Budget (n + 1) n') : ∃ l, n' = l + 1 ∧ D.Budget n l := by
  cases n' with
  | zero =>
    rcases h with h | ⟨_, h⟩
    · cases h
    · omega
  | succ l =>
    rcases h with h | ⟨hl, h⟩
    · exact ⟨l, rfl, .inl (by omega)⟩
    · exact ⟨l, rfl, .inr ⟨hl, by omega⟩⟩

theorem Budget.spent {n' : Nat} (h : D.Budget 0 n') {m : Nat → Eval α} (hm : m 0 = Eval.outOfFuel) :
    D.Rel i Eval.outOfFuel (m n') := by
  rcases h with rfl | ⟨hl, _⟩
  · rw [hm]
    exact D.rel_outOfFuel
  · exact D.rel_stuck hl

theorem rel_ite {c : Prop} [Decidable c] {m m' l l' : Eval α} (hm : D.Rel i m m')
    (hl : D.Rel i l l') : D.Rel i (if c then m else l) (if c then m' else l') := by
  split
  · exact hm
  · exact hl

def Shows (D : Simulation) (i : D.Place) (v : Value) : Prop := ∀ x ∈ v.symbols, D.Sees i x

def Admits (D : Simulation) (i : D.Place) (a : Args) : Prop :=
  a.evaluated = true ∨ ∀ v ∈ a.items, D.Shows i v

theorem shows_inner (v : Value) : D.Shows D.inner v := fun x _ => D.sees_inner x

theorem Shows.of_list {vs : List Value} (h : D.Shows i (.list vs)) {v : Value} (hv : v ∈ vs) :
    D.Shows i v := fun x hx => h x (Value.mem_itemSymbols.mpr ⟨v, hv, hx⟩)

theorem Shows.of_vector {vs : List Value} (h : D.Shows i (.vector vs)) {v : Value} (hv : v ∈ vs) :
    D.Shows i v := fun x hx => h x (Value.mem_itemSymbols.mpr ⟨v, hv, hx⟩)

theorem Shows.of_map {es : List (Value × Value)} (h : D.Shows i (.map es)) {e : Value × Value}
    (he : e ∈ es) : D.Shows i e.1 ∧ D.Shows i e.2 :=
  ⟨fun x hx => h x (Value.mem_entrySymbols.mpr ⟨e, he, .inl hx⟩),
    fun x hx => h x (Value.mem_entrySymbols.mpr ⟨e, he, .inr hx⟩)⟩

theorem admits_values (vs : List Value) : D.Admits i (.ofValues vs) := .inl rfl

theorem items_of_next? {a b : Args} {v : Value} (h : a.next? = some (v, b)) : a.items = v :: b.items := by
  obtain ⟨items, evaluated⟩ := a
  cases items with
  | nil => cases h
  | cons x rest =>
    cases h
    rfl

theorem mem_of_next? {a b : Args} {v : Value} (h : a.next? = some (v, b)) :
    v ∈ a.items ∧ b.evaluated = a.evaluated ∧ ∀ x ∈ b.items, x ∈ a.items := by
  obtain ⟨items, evaluated⟩ := a
  cases items with
  | nil => cases h
  | cons x rest =>
    cases h
    exact ⟨by simp, rfl, fun y hy => by simp [hy]⟩

theorem Admits.next {a b : Args} (ha : D.Admits i a) {v : Value} (h : a.next? = some (v, b)) :
    D.Admits i b := by
  obtain ⟨_, he, hb⟩ := mem_of_next? h
  rcases ha with ha | ha
  · exact .inl (he.trans ha)
  · exact .inr fun x hx => ha x (hb x hx)

theorem Admits.first {a b : Args} (ha : D.Admits i a) {v : Value} (h : a.next? = some (v, b)) :
    a.evaluated = true ∨ D.Shows i v := by
  rcases ha with ha | ha
  · exact .inl ha
  · exact .inr (ha v (mem_of_next? h).1)

theorem Admits.head {a b : Args} (ha : D.Admits i a) {v : Value} (h : a.next? = some (v, b)) :
    b.evaluated = true ∨ D.Shows i v := by
  rw [(mem_of_next? h).2.1]
  exact ha.first h

theorem Admits.cons {evaluated : Bool} {v : Value} {vs : List Value}
    (h : D.Admits i ⟨v :: vs, evaluated⟩) :
    (evaluated = true ∨ D.Shows i v) ∧ D.Admits i ⟨vs, evaluated⟩ := ⟨h.first rfl, h.next rfl⟩

theorem rel_require {a : Args} {name : String} {position : Nat} {f f' : Value × Args → Eval β}
    (hf : ∀ v b, a.next? = some (v, b) → D.Rel i (f (v, b)) (f' (v, b))) :
    D.Rel i (a.require name position >>= f) (a.require name position >>= f') := by
  unfold Args.require
  cases h : a.next? with
  | none => exact D.rel_fail (e := .missingArgument name position) rfl
  | some next => exact hf next.1 next.2 h

theorem rel_requireArity (name : String) (arity : Arity) (got : Nat) :
    D.Rel i (Eval.requireArity name arity got) (Eval.requireArity name arity got) :=
  rel_ite (D.rel_pure ()) (D.rel_fail rfl)

theorem rel_requireSeqable (v : Value) : D.Rel i (Eval.requireSeqable v) (Eval.requireSeqable v) :=
  rel_ite (D.rel_pure ()) (D.rel_fail rfl)

theorem rel_requireInt (v : Value) : D.Rel i (Eval.requireInt v) (Eval.requireInt v) := by
  unfold Eval.requireInt
  split
  · exact D.rel_pure _
  · exact D.rel_fail rfl

theorem rel_requireString (v : Value) : D.Rel i (Eval.requireString v) (Eval.requireString v) := by
  unfold Eval.requireString
  split
  · exact D.rel_pure _
  · exact D.rel_fail rfl

theorem rel_requireCallable (v : Value) :
    D.Rel i (Eval.requireCallable v) (Eval.requireCallable v) := by
  unfold Eval.requireCallable
  split
  · exact D.rel_pure _
  · exact D.rel_fail rfl

structure Follows (D : Simulation) (i : D.Place) (k k' : Kernel) : Prop where
  fuel : D.Budget k.fuel k'.fuel
  runs : D.Runs k k'
  eval : ∀ v, D.Shows i v → D.Rel i (k.eval v) (k'.eval v)
  invoke : ∀ f a, D.Admits i a → D.Rel i (k.invoke f a) (k'.invoke f a)

namespace Follows

variable {k k' : Kernel} (h : D.Follows i k k')
include h

theorem rel_apply (f : Callable Value) (vs : List Value) : D.Rel i (k.apply f vs) (k'.apply f vs) :=
  h.invoke f _ (admits_values vs)

theorem rel_evaluate {a : Args} {v : Value} (hv : a.evaluated = true ∨ D.Shows i v) :
    D.Rel i (k.evaluate a v) (k'.evaluate a v) := by
  unfold Kernel.evaluate
  rcases hv with ha | hv
  · rw [if_pos ha, if_pos ha]
    exact D.rel_pure v
  · exact rel_ite (D.rel_pure v) (h.eval v hv)

theorem rel_nextValue {a : Args} (ha : D.Admits i a) : D.Rel i (k.nextValue a) (k'.nextValue a) := by
  unfold Kernel.nextValue
  cases hn : a.next? with
  | none => exact D.rel_pure none
  | some next => exact D.rel_bind (h.rel_evaluate (ha.first hn)) fun v => D.rel_pure _

theorem rel_requireValue {a : Args} (ha : D.Admits i a) {name : String} {position : Nat}
    {f f' : Value × Args → Eval β} (hf : ∀ v b, D.Admits i b → D.Rel i (f (v, b)) (f' (v, b))) :
    D.Rel i (k.requireValue a name position >>= f) (k'.requireValue a name position >>= f') := by
  unfold Kernel.requireValue
  rw [bind_assoc, bind_assoc]
  refine rel_require fun x b hn => ?_
  have hb : D.Admits i b := ha.next hn
  simp only [bind_assoc, pure_bind]
  exact D.rel_bind (h.rel_evaluate (ha.first hn)) fun v => hf v b hb

theorem rel_evalLast {evaluated : Bool} {vs : List Value}
    (hv : D.Admits i ⟨vs, evaluated⟩) (last : Value) :
    D.Rel i (k.evalLast evaluated last vs) (k'.evalLast evaluated last vs) := by
  induction vs generalizing last with
  | nil => exact D.rel_pure last
  | cons v vs ih =>
    obtain ⟨hh, ht⟩ := hv.cons
    exact D.rel_bind (h.rel_evaluate hh) fun r => ih ht r

theorem rel_evalRest {a : Args} (ha : D.Admits i a) : D.Rel i (k.evalRest a) (k'.evalRest a) :=
  h.rel_evalLast ha .nil

theorem rel_evalEach {evaluated : Bool} {vs : List Value} (hv : D.Admits i ⟨vs, evaluated⟩) :
    D.Rel i (k.evalEach evaluated vs) (k'.evalEach evaluated vs) := by
  induction vs with
  | nil => exact D.rel_pure []
  | cons v vs ih =>
    obtain ⟨hh, ht⟩ := hv.cons
    exact D.rel_bind (h.rel_evaluate hh) fun r => D.rel_bind (ih ht) fun rs => D.rel_pure _

theorem rel_values {a : Args} (ha : D.Admits i a) : D.Rel i (k.values a) (k'.values a) :=
  h.rel_evalEach ha

end Follows

end Simulation

end LazyLisp
