import LazyLisp.Proofs.Confinement
import LazyLisp.Proofs.Fuel

namespace LazyLisp

variable {α β : Type}

namespace Bindings

theorem insert_of_get? {b : Bindings α} {name : String} {value : α} (h : b.get? name = some value) :
    b.insert name value = b := by
  obtain ⟨entries⟩ := b
  have hp : place name value entries = entries := by
    induction entries with
    | nil => cases h
    | cons e rest ih =>
      obtain ⟨key, old⟩ := e
      by_cases hk : key = name
      · have ho : old = value := by simpa [get?, lookup, hk] using h
        simp [place, hk, ho]
      · have hr : lookup rest name = some value := by simpa [get?, lookup, hk] using h
        simp [place, hk, ih hr]
  exact congrArg Bindings.mk hp

end Bindings

namespace Namespaces

def inSpace (n : Namespaces) (space : String) : Namespaces := { n with current := some space }

def isIn (n : Namespaces) (space : String) : Bool :=
  match n.current with
  | some s => decide (s = space)
  | none => false

theorem isIn_iff {n : Namespaces} {space : String} : n.isIn space = true ↔ n.current = some space := by
  unfold isIn
  cases n.current <;> simp

theorem setCurrent_of_houses {n : Namespaces} {space : String} (h : n.Houses space) :
    n.setCurrent (some space) = n.inSpace space := by
  obtain ⟨table, ht⟩ := Option.isSome_iff_exists.mp h
  have hi : n.tables.insert space (n.table space) = n.tables := by
    rw [Namespaces.table, ht]
    exact Bindings.insert_of_get? ht
  simp only [setCurrent, inSpace, hi]

theorem qualified_inSpace (n : Namespaces) {b c qualifier : String} (name symbol : String)
    (h : (n.inSpace b).dealias qualifier = (n.inSpace c).dealias qualifier) :
    (n.inSpace b).qualified qualifier name symbol = (n.inSpace c).qualified qualifier name symbol := by
  simp only [qualified, h]
  rfl

theorem global?_inSpace {n : Namespaces} {space name : String} (h : n.cell? (some space) name = none) :
    (n.inSpace space).global? name = n.internal.get? name := by
  change (n.cell? (some space) name).or (n.internal.get? name) = _
  rw [h]
  rfl

/-- The global bindings are the same, and so is the current namespace, unless it is `b` on the left and
`c` on the right. -/
inductive Near (b c : String) : Namespaces → Namespaces → Prop
  | same {n : Namespaces} : n.Houses b → n.Houses c → Near b c n n
  | apart {n : Namespaces} : n.Houses b → n.Houses c → n.current = some b → Near b c n (n.inSpace c)

namespace Near

variable {b c : String} {m n m' n' : Namespaces}

theorem houses (h : Near b c n n') : n.Houses b ∧ n.Houses c := by
  cases h with
  | same hb hc => exact ⟨hb, hc⟩
  | apart hb hc _ => exact ⟨hb, hc⟩

theorem eq_or (h : Near b c n n') : n' = n ∨ n.current = some b ∧ n' = n.inSpace c := by
  cases h with
  | same => exact .inl rfl
  | apart _ _ hn => exact .inr ⟨hn, rfl⟩

theorem enter (h : Near b c n n') (space : String) :
    Near b c (n.setCurrent (some space)) (n'.setCurrent (some space)) := by
  have he := (Confined.enter n space).houses (s := b)
  have he' := (Confined.enter n space).houses (s := c)
  cases h with
  | same hb hc => exact .same (he hb) (he' hc)
  | apart hb hc _ => exact .same (he hb) (he' hc)

theorem restore (h : Near b c n n') (hm : Near b c m m') :
    Near b c (m.setCurrent n.current) (m'.setCurrent n'.current) := by
  obtain ⟨hb, hc⟩ := hm.houses
  cases h with
  | same _ _ =>
    cases hn : n.current with
    | some space => exact hm.enter space
    | none =>
      cases hm with
      | same hb hc => exact .same hb hc
      | apart hb hc _ => exact .same hb hc
  | apart _ _ hn =>
    have hb' : (m.inSpace b).Houses b := hb
    have hc' : (m.inSpace b).Houses c := hc
    have hm' : m'.setCurrent (some c) = (m.inSpace b).inSpace c := by
      cases hm with
      | same => exact setCurrent_of_houses hc
      | apart => exact setCurrent_of_houses hc'
    rw [hn, setCurrent_of_houses hb]
    exact hm' ▸ .apart hb' hc' rfl

theorem write (h : Near b c n n') (space name : String) (v : Value) :
    Near b c (n.write (some space) name v) (n'.write (some space) name v) := by
  have hw {s : String} (hs : n.Houses s) : (n.write (some space) name v).Houses s :=
    houses_insert n space _ hs
  cases h with
  | same hb hc => exact .same (hw hb) (hw hc)
  | apart hb hc hn => exact .apart (hw hb) (hw hc) hn

theorem setCurrent_none (h : Near b c n n') : n.setCurrent none = n'.setCurrent none := by
  rcases h.eq_or with rfl | ⟨-, rfl⟩ <;> rfl

end Near

end Namespaces

open Namespaces (Near)

inductive Akin (b c : String) : Outcome α → Outcome α → Prop
  | stuck {r : Outcome α} : Akin b c .outOfFuel r
  | value {a : α} {w : World} {n : Namespaces} (h : Near b c w.namespaces n) :
      Akin b c (.value a w) (.value a { w with namespaces := n })
  | failure {e : Failure} {w : World} {n : Namespaces} (h : Near b c w.namespaces n) :
      Akin b c (.failure e w) (.failure e { w with namespaces := n })

def Tied (b c : String) (m m' : Eval α) : Prop :=
  ∀ (w : World) (n : Namespaces), Near b c w.namespaces n → Akin b c (m w) (m' { w with namespaces := n })

namespace Tied

variable {b c : String} {m m' : Eval α}

theorem pure (a : α) : Tied b c (Pure.pure a : Eval α) (Pure.pure a) := fun _ _ h => .value h

theorem fail (e : Failure) : Tied b c (Eval.fail e : Eval α) (Eval.fail e) := fun _ _ h => .failure h

theorem bind {f f' : α → Eval β} (hm : Tied b c m m') (hf : ∀ a, Tied b c (f a) (f' a)) :
    Tied b c (m >>= f) (m' >>= f') := by
  intro w n h
  have hp := hm w n h
  rw [Eval.bind_apply, Eval.bind_apply]
  generalize m w = r, m' { w with namespaces := n } = r' at hp ⊢
  cases hp with
  | stuck => exact .stuck
  | @value a w n h => exact hf a w n h
  | failure h => exact .failure h

theorem attempt (hm : Tied b c m m') : Tied b c m.attempt m'.attempt := by
  intro w n h
  have hp := hm w n h
  unfold Eval.attempt
  generalize m w = r, m' { w with namespaces := n } = r' at hp ⊢
  cases hp with
  | stuck => exact .stuck
  | value h => exact .value h
  | failure h => exact .value h

theorem orFalse {m m' : Eval Bool} (hm : Tied b c m m') : Tied b c m.orFalse m'.orFalse := by
  intro w n h
  have hp := hm w n h
  unfold Eval.orFalse
  generalize m w = r, m' { w with namespaces := n } = r' at hp ⊢
  cases hp with
  | stuck => exact .stuck
  | value h => exact .value h
  | failure h => exact .value h

theorem read {g : World → α} (hg : IgnoresNamespaces g) : Tied b c (Eval.read g) (Eval.read g) := by
  intro w n h
  change Akin b c (.value (g w) w) (.value (g { w with namespaces := n }) { w with namespaces := n })
  rw [hg w n]
  exact .value h

theorem modify {f : World → World} {g : Namespaces → Namespaces}
    (hf : ∀ w, (f w).namespaces = g w.namespaces)
    (hn : ∀ w n, f { w with namespaces := n } = { f w with namespaces := g n })
    (hg : ∀ {n n'}, Near b c n n' → Near b c (g n) (g n')) :
    Tied b c (Eval.modify f) (Eval.modify f) := by
  intro w n h
  change Akin b c (.value () (f w)) (.value () (f { w with namespaces := n }))
  rw [hn w n]
  exact .value (hf w ▸ hg h)

theorem change {change : Change} (hc : change.isLocal = true) :
    Tied b c (Eval.modify change.apply) (Eval.modify change.apply) := by
  cases change with
  | define symbol v => cases hc
  | load space nickname => cases hc
  | enter space => exact modify (fun _ => rfl) (fun _ _ => rfl) fun h => h.enter space
  | record log args => exact modify (g := id) (fun _ => rfl) (fun _ _ => rfl) fun h => h
  | print text => exact modify (g := id) (fun _ => rfl) (fun _ _ => rfl) fun h => h
  | want path =>
    refine modify (g := id) (fun w => ?_) (fun w n => ?_) fun h => h
    · simp only [Change.apply, World.want]
      split <;> rfl
    · simp only [Change.apply, World.want]
      split <;> rfl

theorem within {σ : Type} {save : World → σ} {enter : World → World} {leave : σ → World → World}
    (hm : Tied b c m m')
    (he : ∀ (w : World) (n : Namespaces), (enter w).namespaces = w.namespaces ∧
      enter { w with namespaces := n } = { enter w with namespaces := n })
    (hl : ∀ {w v : World} {n n' : Namespaces}, Near b c w.namespaces n → Near b c v.namespaces n' →
      ∃ l, Near b c (leave (save w) v).namespaces l ∧
        leave (save { w with namespaces := n }) { v with namespaces := n' } =
          { leave (save w) v with namespaces := l }) :
    Tied b c (Eval.within save enter leave m) (Eval.within save enter leave m') := by
  intro w n h
  obtain ⟨he₁, he₂⟩ := he w n
  have hp := hm (enter w) n (he₁ ▸ h)
  unfold Eval.within
  dsimp only
  rw [he₂]
  generalize m (enter w) = r, m' { enter w with namespaces := n } = r' at hp ⊢
  cases hp with
  | stuck => exact .stuck
  | @value a v n' h' =>
    obtain ⟨l, hn, hv⟩ := hl h h'
    dsimp only
    rw [hv]
    exact .value hn
  | @failure e v n' h' =>
    obtain ⟨l, hn, hv⟩ := hl h h'
    dsimp only
    rw [hv]
    exact .failure hn

theorem keepingNamespace (hm : Tied b c m m') : Tied b c m.keepingNamespace m'.keepingNamespace :=
  within hm (fun _ _ => ⟨rfl, rfl⟩) fun h h' => ⟨_, h.restore h', rfl⟩

theorem withoutLocals (hm : Tied b c m m') : Tied b c m.withoutLocals m'.withoutLocals :=
  within hm (fun _ _ => ⟨rfl, rfl⟩) fun _ h' => ⟨_, h', rfl⟩

theorem withFrame (scope : Scope) (hm : Tied b c m m') :
    Tied b c (m.withFrame scope) (m'.withFrame scope) :=
  within hm (fun _ _ => ⟨rfl, rfl⟩) fun _ h' => ⟨_, h', rfl⟩

theorem withScope (hm : Tied b c m m') : Tied b c m.withScope m'.withScope := by
  refine within hm (fun w n => ?_) fun {_ v _ n'} _ h' => ⟨n', ?_⟩
  · rw [World.pushScope_eq, World.pushScope_eq]
    exact ⟨rfl, rfl⟩
  · obtain ⟨_, frames, _⟩ := v
    cases frames with
    | nil => exact ⟨h', rfl⟩
    | cons f fs => exact ⟨h', rfl⟩

theorem settle {r r' : Outcome Value} {cell : Nat} {body : Callable Value} (h : Akin b c r r') :
    Akin b c (Kernel.settle cell body r) (Kernel.settle cell body r') := by
  cases h with
  | stuck => exact .stuck
  | failure h => exact .failure h
  | @value v w n h =>
    unfold Kernel.settle
    dsimp only
    split
    · exact .value h
    · exact .failure h

theorem realize {k k' : Kernel} (hk : ∀ f, Tied b c (k.apply f []) (k'.apply f [])) (cell : Nat) :
    Tied b c (k.realize cell) (k'.realize cell) := by
  intro w n h
  unfold Kernel.realize
  dsimp only
  split
  · exact .failure h
  · split
    · exact .value h
    · exact .failure h
    · next body _ =>
      split
      · exact settle ((hk body).withoutLocals (w.setCell cell .running) n h)
      · exact .failure h

theorem bindName (name : String) (v : Value) :
    Tied b c (Eval.bindName name v) (Eval.bindName name v) := by
  intro w n h
  obtain ⟨_, frames, _⟩ := w
  match frames with
  | [] => exact .failure h
  | [] :: _ => exact .failure h
  | (_ :: _) :: _ => exact .value h

theorem haltIf (h : Tied b c m m') (stop : World → Bool) : Tied b c (m.haltIf stop) m' := by
  intro w n hn
  unfold Eval.haltIf
  split
  · exact .stuck
  · exact h w n hn

end Tied

def elsewhere (b c : String) : Simulation where
  Place := Unit
  Sees := fun _ _ => True
  inner := ()
  sees_inner := fun _ => trivial
  Lax := True
  Rel := fun _ => Tied b c
  Open := fun _ => Tied b c
  rel_pure := fun a => .pure a
  rel_bind := fun hm hf => hm.bind hf
  rel_fail := fun {_ _ e} _ => .fail e
  rel_outOfFuel := fun _ _ _ => .stuck
  rel_stuck := fun _ _ _ _ => .stuck
  rel_attempt := fun hm => hm.attempt
  rel_orFalse := fun hm => hm.orFalse
  rel_look := fun _ hg _ => .read hg
  rel_change := fun hc => .change hc
  rel_newCallable := fun _ _ _ h => .value h
  rel_newCell := fun _ _ _ h => .value h
  rel_keepingNamespace := fun hm => hm.keepingNamespace
  rel_force := fun v hn _ hk => Kernel.force_related (fun v => .pure v) (fun hm hf => hm.bind hf)
    (fun _ _ _ => .stuck) (fun _ _ _ _ _ => .stuck) (fun cell => .realize hk cell) hn v
  rel_withScope := fun hm => hm.withScope
  rel_withFrame := fun scope hm => hm.withFrame scope
  open_rel := fun hm => hm
  open_bind := fun hm hf => hm.bind hf
  open_bindName := fun name v => .bindName name v

def World.inSpace (w : World) (space : String) : World :=
  { w with namespaces := w.namespaces.inSpace space }

def Args.namesBare (a : Args) : Bool :=
  match a.items with
  | .symbol name :: _ => (splitSymbol name).1.isNone
  | _ => false

def Callable.writesHere : Callable Value → Args → Bool
  | .special .definition, a | .special .functionDefinition, a => a.namesBare
  | .special .requirement, _ => true
  | _, _ => false

namespace Watch

/-- Halts, while `b` is current, before a symbol is looked up that means something else with `c` current,
and before something is written to the current namespace. -/
noncomputable def apart (b c : String) : Watch where
  lookup := fun name w => w.namespaces.isIn b &&
    @decide ((w.inSpace c).resolve name ≠ w.resolve name) (Classical.propDecidable _)
  call := fun f a w => w.namespaces.isIn b && f.writesHere a

theorem lookup_apart {b c name : String} {w : World} : (apart b c).lookup name w = true ↔
    w.namespaces.current = some b ∧ (w.inSpace c).resolve name ≠ w.resolve name := by
  simp only [apart, Bool.and_eq_true, Namespaces.isIn_iff, decide_eq_true_eq]

end Watch

namespace Tied

variable {b c : String} {k k' : Kernel}

theorem resolve (name : String) :
    Tied b c ((Eval.read (·.resolve name) >>= Eval.ofExcept).haltIf ((Watch.apart b c).lookup name))
      (Eval.read (·.resolve name) >>= Eval.ofExcept) := by
  intro w n h
  unfold Eval.haltIf
  split
  · exact .stuck
  · next hs =>
    have hr : World.resolve { w with namespaces := n } name = w.resolve name := by
      rcases h.eq_or with rfl | ⟨hb, rfl⟩
      · rfl
      · exact Classical.not_not.mp fun hne => hs (Watch.lookup_apart.mpr ⟨hb, hne⟩)
    change Akin b c (Eval.ofExcept (w.resolve name) w)
      (Eval.ofExcept (World.resolve { w with namespaces := n } name) { w with namespaces := n })
    rw [hr]
    cases w.resolve name with
    | ok v => exact .value h
    | error e => exact .failure h

theorem define {symbol space name : String} (hs : splitSymbol symbol = (some space, name)) (v : Value) :
    Tied b c (Eval.modify (Change.define symbol v).apply) (Eval.modify (Change.define symbol v).apply) := by
  have hd (n : Namespaces) : n.define symbol v = n.write (some space) name v := by
    simp only [Namespaces.define, Namespaces.target, hs]
  refine modify (g := fun n => n.write (some space) name v) (fun w => hd _) (fun w n => ?_)
    fun h => h.write space name v
  rw [← hd]
  rfl

theorem defines {a : Args} (ha : a.namesBare = false) : (elsewhere b c).Defines () a := by
  intro name rest v hn
  obtain ⟨items, evaluated⟩ := a
  cases items with
  | nil => cases hn
  | cons x xs =>
    cases hn
    cases hs : splitSymbol name with
    | mk space base =>
      cases space with
      | some space => exact define hs v
      | none =>
        rw [Args.namesBare] at ha
        simp [hs] at ha

theorem call_of_same {n : Nat} (hk : earlier.Follows () k (Kernel.withFuel n)) (f : Callable Value)
    (a : Args) {w : World} (hb : w.namespaces.Houses b) (hc : w.namespaces.Houses c) :
    Akin b c (k.call f a w) ((Kernel.withFuel n).call f a w) := by
  have hl : Below (k.call f a) ((Kernel.withFuel n).call f a) :=
    hk.rel_call hk (.inr fun _ _ _ _ => trivial) (fun _ _ => trivial) (fun _ _ => trivial) fun _ => earlier_tables
  have hn := evolution_confined.follows n
  have ha := hn.rel_call hn (f := f) (a := a) (.inr fun _ _ _ _ => trivial) (fun _ _ => trivial)
    (fun _ _ => trivial) (fun _ => evolution_confined.global.toTables) w
  rcases hl w with ho | he
  · rw [ho]
    exact .stuck
  · rw [he]
    cases hr : (Kernel.withFuel n).call f a w with
    | value v u =>
      have hu := ha u (by rw [hr]; rfl)
      exact .value (w := u) (.same (hu.houses hb) (hu.houses hc))
    | failure e u =>
      have hu := ha u (by rw [hr]; rfl)
      exact .failure (w := u) (.same (hu.houses hb) (hu.houses hc))
    | outOfFuel => exact .stuck

theorem call_of_writesNames {n : Nat} (hk : earlier.Follows () k (Kernel.withFuel n))
    (h : (elsewhere b c).Follows () k (Kernel.withFuel n)) {f : Callable Value} (a : Args)
    (hf : f.writesNames = true) :
    Tied b c ((k.call f a).haltIf ((Watch.apart b c).call f a)) ((Kernel.withFuel n).call f a) := by
  -- In one world whatever is written is the same. In two, what is written here halts.
  have hd (hb : f.writesHere a = false) :
      Tied b c (k.call f a) ((Kernel.withFuel n).call f a) := by
    have ha : (elsewhere b c).Admits () a := .inr fun _ _ _ _ => trivial
    cases f with
    | special s =>
      cases s with
      | definition => exact h.rel_definition ha (defines hb)
      | functionDefinition =>
        exact Simulation.rel_functionDefinition (fun _ _ => trivial) (defines hb)
      | requirement => cases hb
      | _ => cases hf
    | _ => cases hf
  intro w n' hn
  unfold Eval.haltIf
  split
  · exact .stuck
  · next hs =>
    rcases hn.eq_or with rfl | ⟨hb, rfl⟩
    · exact call_of_same hk f a hn.houses.1 hn.houses.2
    · refine hd ?_ w _ hn
      simpa [Watch.apart, Namespaces.isIn_iff.mpr hb] using hs

end Tied

namespace Kernel

theorem earlier_follows_apart (b c : String) {m n : Nat} (h : m ≤ n) :
    earlier.Follows () (watched (.apart b c) m) (withFuel n) := by
  rw [withFuel_eq_watched]
  refine earlier_follows_watched ?_ ?_ h
  · intro name w hl
    cases hl
  · intro f a w hc
    cases hc

theorem elsewhere_follows (b c : String) (n : Nat) :
    (elsewhere b c).Follows () (watched (.apart b c) n) (withFuel n) := by
  rw [withFuel_eq_watched]
  refine Simulation.follows_watched (fun _ => True) trivial ?_ ?_ (fun _ => trivial) (.inl rfl) trivial
  · intro _ name _ _
    exact .resolve name
  · intro _ l m f a _ hlm h _ ha
    have hlm : l ≤ m := hlm.elim Nat.le_of_eq fun hl => hl.2
    rw [← withFuel_eq_watched] at h ⊢
    cases hf : f.writesNames with
    | true => exact .call_of_writesNames (earlier_follows_apart b c hlm) h a hf
    | false =>
      refine Tied.haltIf (h.rel_call h ha (fun _ _ => trivial) (fun _ _ => trivial) fun hw => ?_) _
      rw [hf] at hw
      cases hw

end Kernel

def Outcome.forgetSpace : Outcome α → Outcome α
  | value a w => .value a (w.setCurrent none)
  | failure e w => .failure e (w.setCurrent none)
  | outOfFuel => .outOfFuel

theorem Akin.forgetSpace_eq {b c : String} {r r' : Outcome α} (h : Akin b c r r')
    (hr : r ≠ .outOfFuel) : r.forgetSpace = r'.forgetSpace := by
  cases h with
  | stuck => exact absurd rfl hr
  | @value a w n h =>
    simp only [Outcome.forgetSpace, World.setCurrent, h.setCurrent_none]
  | @failure e w n h =>
    simp only [Outcome.forgetSpace, World.setCurrent, h.setCurrent_none]

theorem Tied.forgetSpace_eq {b c : String} {m m₁ m₂ : Eval α} (ht : Tied b c m m₂) (hl : Below m m₁)
    {w : World} (hb : w.namespaces.Houses b) (hc : w.namespaces.Houses c)
    (hm : m (w.inSpace b) ≠ .outOfFuel) :
    (m₁ (w.inSpace b)).forgetSpace = (m₂ (w.inSpace c)).forgetSpace := by
  have hn : Near b c (w.inSpace b).namespaces (w.inSpace c).namespaces :=
    .apart (n := w.namespaces.inSpace b) hb hc rfl
  rw [hl.eq_of_ne hm]
  exact (ht (w.inSpace b) _ hn).forgetSpace_eq hm

namespace Kernel

/-- A call, or the evaluation of a form, has one outcome in any two namespaces, if while the first is
current it looks up no symbol that means something else with the second current, and writes nothing to
it. -/
theorem outcome_eq_in_space {b c : String} {w : World} (hb : w.namespaces.Houses b)
    (hc : w.namespaces.Houses c) (n : Nat) :
    (∀ f vs, (watched (.apart b c) n).apply f vs (w.inSpace b) ≠ .outOfFuel →
      ((withFuel n).apply f vs (w.inSpace b)).forgetSpace =
        ((withFuel n).apply f vs (w.inSpace c)).forgetSpace) ∧
    ∀ form, (watched (.apart b c) n).eval form (w.inSpace b) ≠ .outOfFuel →
      ((withFuel n).eval form (w.inSpace b)).forgetSpace =
        ((withFuel n).eval form (w.inSpace c)).forgetSpace := by
  have he := earlier_follows_apart b c (Nat.le_refl n)
  have ht := elsewhere_follows b c n
  refine ⟨fun f vs h => ?_, fun form h => ?_⟩
  · exact Tied.forgetSpace_eq (ht.rel_apply f vs) (he.rel_apply f vs) hb hc h
  · exact Tied.forgetSpace_eq (ht.eval form fun _ _ => trivial) (he.eval form fun _ _ => trivial) hb hc h

end Kernel

namespace World

/-- A test for that a symbol means the same in both namespaces: a bare one is bound locally or in neither,
and a qualified one has no alias or the same. -/
def meansSame (w : World) (b c symbol : String) : Bool :=
  match splitSymbol symbol with
  | (some qualifier, _) =>
    decide ((w.namespaces.inSpace b).dealias qualifier = (w.namespaces.inSpace c).dealias qualifier)
  | (none, name) =>
    (w.local? name).isSome ||
      (w.namespaces.cell? (some b) name).isNone && (w.namespaces.cell? (some c) name).isNone

theorem resolve_of_meansSame {w : World} {b c symbol : String} (h : w.meansSame b c symbol = true) :
    (w.inSpace b).resolve symbol = (w.inSpace c).resolve symbol := by
  unfold meansSame at h
  unfold resolve
  cases hs : splitSymbol symbol with
  | mk qualifier name =>
    rw [hs] at h
    cases qualifier with
    | some qualifier => exact w.namespaces.qualified_inSpace name symbol (of_decide_eq_true h)
    | none =>
      have hl : (w.inSpace b).local? name = (w.inSpace c).local? name := rfl
      dsimp only at h ⊢
      rw [hl]
      rcases Bool.or_eq_true_iff.mp h with hv | hn
      · obtain ⟨v, hv⟩ := Option.isSome_iff_exists.mp hv
        have hv : (w.inSpace c).local? name = some v := hv
        rw [hv]
        rfl
      · obtain ⟨hb, hc⟩ := Bool.and_eq_true_iff.mp hn
        have hg : (w.inSpace b).namespaces.global? name = (w.inSpace c).namespaces.global? name :=
          (Namespaces.global?_inSpace (Option.isNone_iff_eq_none.mp hb)).trans
            (Namespaces.global?_inSpace (Option.isNone_iff_eq_none.mp hc)).symm
        rw [hg]

end World

def Watch.strict (b c : String) : Watch where
  lookup := fun name w => w.namespaces.isIn b && !w.meansSame b c name
  call := fun f a w => w.namespaces.isIn b && f.writesHere a

namespace Kernel

theorem earlier_follows_strict (b c : String) (n : Nat) :
    earlier.Follows () (watched (.strict b c) n) (watched (.apart b c) n) := by
  refine earlier_follows_watched ?_ ?_ (Nat.le_refl n)
  · intro name w hl
    obtain ⟨hb, hne⟩ := Watch.lookup_apart.mp hl
    have hw : w.inSpace b = w := by
      obtain ⟨⟨_, _, _, _, _⟩, _⟩ := w
      cases hb
      rfl
    have hm : w.meansSame b c name = false := by
      refine Bool.eq_false_iff.mpr fun hm => hne ?_
      rw [← World.resolve_of_meansSame hm, hw]
    simp [Watch.strict, Namespaces.isIn_iff.mpr hb, hm]
  · intro f a w hc
    exact hc

def sharedWorld : World :=
  { World.empty with
    namespaces := (((Namespaces.empty.define "defn" (.callable 0 (.special .functionDefinition))).define
      "a/g" (.int 1)).define "b/g" (.int 2)).define "c/g" (.int 3) }

def pairedWith (result : Value) : Value :=
  .list [.symbol "defn", .symbol "f", .vector [.symbol "x"], .vector [.symbol "x", result]]

theorem outcome_eq_in_space_qualified :
    ∃ i f w, (withFuel 3).eval (pairedWith (.symbol "a/g")) (sharedWorld.inSpace "a") =
        .value (.symbol "f") w ∧ w.resolve "a/f" = .ok (.callable i f) ∧
      w.namespaces.Houses "b" ∧ w.namespaces.Houses "c" ∧
      (watched (.apart "b" "c") 4).apply f [.int 5] (w.inSpace "b") ≠ .outOfFuel ∧
      ((withFuel 4).apply f [.int 5] (w.inSpace "b")).forgetSpace =
        ((withFuel 4).apply f [.int 5] (w.inSpace "c")).forgetSpace := by
  obtain ⟨i, f, w, hw, hf, hb, hc, hs⟩ : ∃ i f w,
      (withFuel 3).eval (pairedWith (.symbol "a/g")) (sharedWorld.inSpace "a") =
        .value (.symbol "f") w ∧ w.resolve "a/f" = .ok (.callable i f) ∧
      w.namespaces.Houses "b" ∧ w.namespaces.Houses "c" ∧
      (watched (.strict "b" "c") 4).apply f [.int 5] (w.inSpace "b") ≠ .outOfFuel :=
    ⟨_, _, _, rfl, rfl, rfl, rfl, nofun⟩
  have ha : (watched (.apart "b" "c") 4).apply f [.int 5] (w.inSpace "b") ≠ .outOfFuel :=
    Below.eq_of_ne ((earlier_follows_strict "b" "c" 4).rel_apply f [.int 5]) hs ▸ hs
  exact ⟨i, f, w, hw, hf, hb, hc, ha, (outcome_eq_in_space hb hc 4).1 f [.int 5] ha⟩

theorem outcome_differs_in_space :
    ∃ i f w, (withFuel 3).eval (pairedWith (.symbol "g")) (sharedWorld.inSpace "a") =
        .value (.symbol "f") w ∧ w.resolve "a/f" = .ok (.callable i f) ∧
      (∃ u, (withFuel 4).apply f [.int 5] (w.inSpace "b") = .value (.vector [.int 5, .int 2]) u) ∧
      ∃ u, (withFuel 4).apply f [.int 5] (w.inSpace "c") = .value (.vector [.int 5, .int 3]) u :=
  ⟨_, _, _, rfl, rfl, ⟨_, rfl⟩, ⟨_, rfl⟩⟩

end Kernel

end LazyLisp
