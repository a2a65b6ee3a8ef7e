import LazyLisp.Proofs.Simulation.Evaluation

namespace LazyLisp

variable {α β : Type}

inductive Parallel (P : List Frame → List Frame → Prop) : Outcome α → Outcome α → Prop
  | value {a : α} {w : World} {fs : List Frame} (h : P w.frames fs) :
      Parallel P (.value a w) (.value a { w with frames := fs })
  | failure {e : Failure} {w : World} {fs : List Frame} (h : P w.frames fs) (he : e.isNoScope = false) :
      Parallel P (.failure e w) (.failure e { w with frames := fs })
  | outOfFuel : Parallel P .outOfFuel .outOfFuel

theorem Parallel.mono {P Q : List Frame → List Frame → Prop} {r r' : Outcome α} (h : Parallel P r r')
    (hpq : ∀ fs gs, P fs gs → Q fs gs) : Parallel Q r r' := by
  cases h with
  | value h => exact .value (hpq _ _ h)
  | failure h he => exact .failure (hpq _ _ h) he
  | outOfFuel => exact .outOfFuel

theorem Parallel.within {P Q : List Frame → List Frame → Prop} {σ : Type} {save : World → σ}
    {enter enter' : World → World} {leave : σ → World → World} {m m' : Eval α} {w w' : World}
    (hm : Parallel Q (m (enter w)) (m' (enter' w')))
    (hl : ∀ (v : World) (fs : List Frame), Q v.frames fs → ∃ gs, P (leave (save w) v).frames gs ∧
      leave (save w') { v with frames := fs } = { leave (save w) v with frames := gs }) :
    Parallel P (Eval.within save enter leave m w) (Eval.within save enter' leave m' w') := by
  unfold Eval.within
  dsimp only
  generalize m (enter w) = r, m' (enter' w') = r' at hm ⊢
  cases hm with
  | @value a v fs h =>
    obtain ⟨gs, hp, he⟩ := hl v fs h
    dsimp only
    rw [he]
    exact .value hp
  | @failure e v fs h hn =>
    obtain ⟨gs, hp, he⟩ := hl v fs h
    dsimp only
    rw [he]
    exact .failure hp hn
  | outOfFuel => exact .outOfFuel

theorem Parallel.settle {P : List Frame → List Frame → Prop} {r r' : Outcome Value} {cell : Nat}
    {body : Callable Value} (h : Parallel P r r') :
    Parallel P (Kernel.settle cell body r) (Kernel.settle cell body r') := by
  cases h with
  | @value v w fs h =>
    unfold Kernel.settle
    dsimp only
    split
    · exact .value h
    · exact .failure h rfl
  | failure h he => exact .failure h he
  | outOfFuel => exact .outOfFuel

def Keeps (P : List Frame → List Frame → Prop) (m m' : Eval α) : Prop :=
  ∀ (w : World) (fs : List Frame), P w.frames fs → Parallel P (m w) (m' { w with frames := fs })

namespace Keeps

variable {P : List Frame → List Frame → Prop} {m m' : Eval α}

theorem pure (a : α) : Keeps P (Pure.pure a : Eval α) (Pure.pure a) := fun _ _ h => .value h

theorem bind {f f' : α → Eval β} (hm : Keeps P m m') (hf : ∀ a, Keeps P (f a) (f' a)) :
    Keeps P (m >>= f) (m' >>= f') := by
  intro w fs h
  have hp := hm w fs h
  rw [Eval.bind_apply, Eval.bind_apply]
  generalize m w = r, m' { w with frames := fs } = r' at hp ⊢
  cases hp with
  | @value a w fs h => exact hf a w fs h
  | failure h he => exact .failure h he
  | outOfFuel => exact .outOfFuel

theorem fail {e : Failure} (he : e.isNoScope = false) : Keeps P (Eval.fail e : Eval α) (Eval.fail e) :=
  fun _ _ h => .failure h he

theorem outOfFuel : Keeps P (Eval.outOfFuel : Eval α) Eval.outOfFuel := fun _ _ _ => .outOfFuel

theorem attempt (hm : Keeps P m m') : Keeps P m.attempt m'.attempt := by
  intro w fs h
  have hp := hm w fs h
  unfold Eval.attempt
  generalize m w = r, m' { w with frames := fs } = r' at hp ⊢
  cases hp with
  | value h => exact .value h
  | failure h he => exact .value h
  | outOfFuel => exact .outOfFuel

theorem orFalse {m m' : Eval Bool} (hm : Keeps P m m') : Keeps P m.orFalse m'.orFalse := by
  intro w fs h
  have hp := hm w fs h
  unfold Eval.orFalse
  generalize m w = r, m' { w with frames := fs } = r' at hp ⊢
  cases hp with
  | value h => exact .value h
  | failure h he => exact .value h
  | outOfFuel => exact .outOfFuel

theorem read {g : World → α}
    (hg : ∀ (w : World) (fs : List Frame), P w.frames fs → g w = g { w with frames := fs }) :
    Keeps P (Eval.read g) (Eval.read g) := by
  intro w fs h
  change Parallel P (.value (g w) w) (.value (g { w with frames := fs }) { w with frames := fs })
  rw [← hg w fs h]
  exact .value h

theorem change (c : Change) : Keeps P (Eval.modify c.apply) (Eval.modify c.apply) := by
  intro w fs h
  have hc : (c.apply w).frames = w.frames ∧
      c.apply { w with frames := fs } = { c.apply w with frames := fs } := by
    cases c with
    | want path =>
      simp only [Change.apply, World.want]
      split <;> exact ⟨rfl, rfl⟩
    | _ => exact ⟨rfl, rfl⟩
  change Parallel P (.value () (c.apply w)) (.value () (c.apply { w with frames := fs }))
  rw [hc.2]
  exact .value (hc.1.symm ▸ h)

theorem newCallable (f : Callable Value) : Keeps P (Eval.newCallable f) (Eval.newCallable f) :=
  fun _ _ h => .value h

theorem newCell (f : Callable Value) : Keeps P (Eval.newCell f) (Eval.newCell f) :=
  fun _ _ h => .value h

theorem keepingNamespace (hm : Keeps P m m') : Keeps P m.keepingNamespace m'.keepingNamespace :=
  fun w fs h => .within (hm w fs h) fun _ gs h => ⟨gs, h, rfl⟩

section

variable {Q : List Frame → List Frame → Prop}

theorem withoutLocals (hm : Keeps Q m m') (hq : Q [[]] [[]]) : Keeps P m.withoutLocals m'.withoutLocals :=
  fun w fs h => .within (hm { w with frames := [[]] } [[]] hq) fun _ _ _ => ⟨fs, h, rfl⟩

theorem realize {k k' : Kernel} (hk : ∀ f, Keeps Q (k.apply f []) (k'.apply f [])) (hq : Q [[]] [[]])
    (cell : Nat) : Keeps P (k.realize cell) (k'.realize cell) := by
  intro w fs h
  unfold Kernel.realize
  dsimp only
  split
  · exact .failure h rfl
  · split
    · exact .value h
    · exact .failure h rfl
    · next body _ =>
      split
      · exact .settle ((hk body).withoutLocals hq (w.setCell cell .running) fs h)
      · exact .failure h rfl

end

end Keeps

/-- A run without frames that opens a scope leaves one frame behind. -/
def Kept (fs gs : List Frame) : Prop := gs = fs ∨ fs = [] ∧ gs = [[]]

namespace Kept

variable {fs gs : List Frame}

theorem head (h : Kept fs gs) : gs.head?.getD [] = fs.head?.getD [] := by
  rcases h with rfl | ⟨rfl, rfl⟩ <;> rfl

theorem sharing {names : String → Prop} {fs' gs' : List Frame} (h : Kept fs gs) (h' : Kept fs' gs')
    (hs : Sharing names fs fs') : Sharing names gs gs' := by
  intro x hx
  rw [h.head, h'.head]
  exact hs x hx

theorem closed (h : Kept fs gs) : Kept fs (gs.head?.getD [] :: gs.tail) := by
  rcases h with rfl | ⟨rfl, rfl⟩
  · cases gs with
    | nil => exact .inr ⟨rfl, rfl⟩
    | cons f gs => exact .inl rfl
  · exact .inr ⟨rfl, rfl⟩

theorem eq_of_ne_nil (h : Kept fs gs) (hf : fs ≠ []) : gs = fs := by
  rcases h with h | ⟨h, _⟩
  · exact h
  · exact absurd h hf

end Kept

def Alongside (fs gs : List Frame) (fs' gs' : List Frame) : Prop := Kept fs fs' ∧ Kept gs gs'

def InScope (names : String → Prop) (ss ss' : List Scope) (fs fs' : List Frame)
    (gs gs' : List Frame) : Prop :=
  ∃ s s', gs = (s :: ss) :: fs ∧ gs' = (s' :: ss') :: fs' ∧ Sharing names gs gs'

def Corresponds (names : String → Prop) (m m' : Eval α) : Prop :=
  ∀ fs gs, Sharing names fs gs → Keeps (Alongside fs gs) m m'

def CorrespondsOpen (names : String → Prop) (m m' : Eval α) : Prop :=
  ∀ ss ss' fs fs', Keeps (InScope names ss ss' fs fs') m m'

namespace World

theorem pushScope_eq (w : World) :
    w.pushScope = { w with frames := (.empty :: w.frames.head?.getD []) :: w.frames.tail } := by
  unfold pushScope
  cases h : w.frames with
  | nil => rfl
  | cons f fs => rfl

theorem popScope_of_frames {w : World} {s : Scope} {ss : List Scope} {fs : List Frame}
    (h : w.frames = (s :: ss) :: fs) : w.popScope = { w with frames := ss :: fs } := by
  unfold popScope
  rw [h]
  rfl

theorem bind?_of_frames {w : World} {s : Scope} {ss : List Scope} {fs : List Frame}
    (h : w.frames = (s :: ss) :: fs) (name : String) (v : Value) :
    w.bind? name v = some { w with frames := (s.insert name v :: ss) :: fs } := by
  unfold bind?
  rw [h]

end World

namespace Keeps

variable {P Q : List Frame → List Frame → Prop} {m m' : Eval α} {w : World} {gs : List Frame}

theorem parallel_withScope (hm : Keeps Q m m')
    (ho : Q ((.empty :: w.frames.head?.getD []) :: w.frames.tail) ((.empty :: gs.head?.getD []) :: gs.tail))
    (hc : ∀ fs' gs', Q fs' gs' → ∃ s ss fs s' ss' gs,
      fs' = (s :: ss) :: fs ∧ gs' = (s' :: ss') :: gs ∧ P (ss :: fs) (ss' :: gs)) :
    Parallel P (m.withScope w) (m'.withScope { w with frames := gs }) := by
  have he : World.pushScope { w with frames := gs } =
      { w.pushScope with frames := (.empty :: gs.head?.getD []) :: gs.tail } := by
    rw [World.pushScope_eq, World.pushScope_eq]
  have hp := hm w.pushScope ((.empty :: gs.head?.getD []) :: gs.tail) (by rwa [World.pushScope_eq])
  rw [← he] at hp
  refine .within hp fun v gs' hq => ?_
  obtain ⟨s, ss, fs, s', ss', gs, hv, rfl, h⟩ := hc _ _ hq
  refine ⟨ss' :: gs, ?_, ?_⟩
  · rwa [World.popScope_of_frames hv]
  · rw [World.popScope_of_frames hv, World.popScope_of_frames rfl]

theorem parallel_withFrame {scope scope' : Scope} (hm : Keeps Q m m')
    (ho : Q ([scope] :: w.frames) ([scope'] :: gs)) (hc : ∀ fs' gs', Q fs' gs' → P fs'.tail gs'.tail) :
    Parallel P (m.withFrame scope w) (m'.withFrame scope' { w with frames := gs }) :=
  .within (hm (w.pushFrame scope) ([scope'] :: gs) ho) fun _ gs' hq => ⟨gs'.tail, hc _ _ hq, rfl⟩

end Keeps

namespace Sharing

variable {names : String → Prop} {ss ss' : List Scope} {s s' : Scope} {fs gs fs' gs' : List Frame}

theorem pushScope (h : Sharing names fs gs) :
    Sharing names ((.empty :: fs.head?.getD []) :: fs') ((.empty :: gs.head?.getD []) :: gs') := by
  intro x hx
  simpa [World.localIn?] using h x hx

theorem insert (h : Sharing names ((s :: ss) :: fs) ((s' :: ss') :: gs)) (name : String) (v : Value) :
    Sharing names ((s.insert name v :: ss) :: fs) ((s'.insert name v :: ss') :: gs) := by
  intro x hx
  have hs := h x hx
  by_cases hn : name = x
  · simp [World.localIn?, hn]
  · simpa [World.localIn?, Bindings.get?_insert_of_ne _ hn] using hs

end Sharing

theorem dependsOn_resolve {names : String → Prop} {name : String} (hn : names name) :
    DependsOn names fun w => w.resolve name := by
  intro w fs hs
  have hl : w.local? name = World.local? { w with frames := fs } name := hs name hn
  dsimp only [World.resolve]
  cases hq : splitSymbol name with
  | mk qualifier base =>
    cases qualifier with
    | some q => rfl
    | none =>
      have hb : base = name := by
        unfold splitSymbol at hq
        split at hq <;> simp_all
      rw [hb]
      dsimp only
      rw [hl]

theorem isNoScope_of_resolve {w : World} {name : String} {e : Failure} (h : w.resolve name = .error e) :
    e.isNoScope = false := by
  unfold World.resolve at h
  split at h
  · unfold Namespaces.qualified at h
    dsimp only at h
    split at h
    · cases h
      rfl
    · split at h
      · cases h
      · cases h
        rfl
  · split at h
    · cases h
    · cases h
      rfl

namespace Corresponds

variable {names : String → Prop} {m m' : Eval α}

theorem read {g : World → α} (hg : DependsOn names g) : Corresponds names (Eval.read g) (Eval.read g) := by
  intro fs gs hs
  exact Keeps.read fun w fs' h => hg w fs' (h.1.sharing h.2 hs)

theorem resolve {name : String} (hn : names name) :
    Corresponds names (Eval.read (·.resolve name) >>= Eval.ofExcept)
      (Eval.read (·.resolve name) >>= Eval.ofExcept) := by
  intro fs gs hs w fs' h
  have hr : w.resolve name = World.resolve { w with frames := fs' } name :=
    dependsOn_resolve hn w fs' (h.1.sharing h.2 hs)
  change Parallel _ (Eval.ofExcept (w.resolve name) w)
    (Eval.ofExcept (World.resolve { w with frames := fs' } name) { w with frames := fs' })
  rw [← hr]
  cases he : w.resolve name with
  | ok v => exact .value h
  | error e => exact .failure h (isNoScope_of_resolve he)

theorem realize {k k' : Kernel} {all : String → Prop}
    (hk : ∀ f, Corresponds all (k.apply f []) (k'.apply f [])) (cell : Nat) :
    Corresponds names (k.realize cell) (k'.realize cell) := by
  intro fs gs _
  exact Keeps.realize (fun f => hk f [[]] [[]] fun _ _ => rfl) ⟨.inl rfl, .inl rfl⟩ cell

theorem withScope (hm : CorrespondsOpen names m m') : Corresponds names m.withScope m'.withScope := by
  intro fs gs hs w fs' h
  refine Keeps.parallel_withScope (hm _ _ _ _) ⟨.empty, .empty, rfl, rfl, (h.1.sharing h.2 hs).pushScope⟩ ?_
  -- Bindings went into the scope that is dropped, and all below it is as it was.
  rintro _ _ ⟨s, s', rfl, rfl, _⟩
  exact ⟨_, _, _, _, _, _, rfl, rfl, h.1.closed, h.2.closed⟩

theorem withFrame {inside : String → Prop} (hm : CorrespondsOpen inside m m') {scope scope' : Scope}
    (hs : ∀ x, inside x → scope.get? x = scope'.get? x) :
    Corresponds names (m.withFrame scope) (m'.withFrame scope') := by
  intro fs gs _ w fs' h
  have hi : InScope inside [] [] w.frames fs' ([scope] :: w.frames) ([scope'] :: fs') := by
    refine ⟨scope, scope', rfl, rfl, fun x hx => ?_⟩
    simpa [World.localIn?] using hs x hx
  refine Keeps.parallel_withFrame (hm [] [] w.frames fs') hi ?_
  rintro _ _ ⟨s, s', rfl, rfl, _⟩
  exact h

theorem inScope (hm : Corresponds names m m') : CorrespondsOpen names m m' := by
  rintro ss ss' fs fs' w gs' ⟨s, s', hw, hg, hs⟩
  refine (hm w.frames gs' hs w gs' ⟨.inl rfl, .inl rfl⟩).mono fun fs₁ gs₁ h => ?_
  have hf : fs₁ = w.frames := h.1.eq_of_ne_nil (by simp [hw])
  have hg' : gs₁ = gs' := h.2.eq_of_ne_nil (by simp [hg])
  exact ⟨s, s', hf.trans hw, hg'.trans hg, by rwa [hf, hg']⟩

end Corresponds

theorem CorrespondsOpen.bindName {names : String → Prop} (name : String) (v : Value) :
    CorrespondsOpen names (Eval.bindName name v) (Eval.bindName name v) := by
  rintro ss ss' fs fs' w gs ⟨s, s', hw, rfl, hs⟩
  unfold Eval.bindName
  rw [World.bind?_of_frames hw, World.bind?_of_frames rfl]
  rw [hw] at hs
  exact .value ⟨_, _, rfl, rfl, hs.insert name v⟩

def lexical : Simulation where
  Place := String → Prop
  Sees := fun names x => names x
  inner := fun _ => True
  sees_inner := fun _ => trivial
  Lax := False
  Rel := fun names => Corresponds names
  Open := fun names => CorrespondsOpen names
  rel_pure := fun a _ _ _ => .pure a
  rel_bind := fun hm hf fs gs hs => (hm fs gs hs).bind fun a => hf a fs gs hs
  rel_fail := fun he _ _ _ => .fail he
  rel_outOfFuel := fun _ _ _ => .outOfFuel
  rel_stuck := fun h => h.elim
  rel_attempt := fun hm fs gs hs => (hm fs gs hs).attempt
  rel_orFalse := fun hm fs gs hs => (hm fs gs hs).orFalse
  rel_look := fun hg _ _ => .read hg
  rel_change := fun {_ c} _ _ _ _ => .change c
  rel_newCallable := fun f _ _ _ => .newCallable f
  rel_newCell := fun f _ _ _ => .newCell f
  rel_keepingNamespace := fun hm fs gs hs => (hm fs gs hs).keepingNamespace
  rel_force := fun v hn _ hk => Kernel.force_related (fun v _ _ _ => .pure v)
    (fun hm hf fs gs hs => (hm fs gs hs).bind fun a => hf a fs gs hs) (fun _ _ _ => .outOfFuel)
    (fun h => h.elim) (fun cell => .realize hk cell) hn v
  rel_withScope := fun hm => .withScope hm
  rel_withFrame := fun _ hm => .withFrame hm fun _ _ => rfl
  open_rel := fun hm => hm.inScope
  open_bind := fun hm hf ss ss' fs fs' => (hm ss ss' fs fs').bind fun a => hf a ss ss' fs fs'
  open_bindName := fun name v => .bindName name v

theorem lexical_global : lexical.Global where
  look := fun hg _ => .read hg
  resolve := fun hn => .resolve hn
  change := fun c _ _ _ => .change c

end LazyLisp
