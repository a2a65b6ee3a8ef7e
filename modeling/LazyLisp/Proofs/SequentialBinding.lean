import LazyLisp.Proofs.Rules
import LazyLisp.Proofs.Standard

namespace LazyLisp

variable {α β : Type}

def Outcome.popScope : Outcome α → Outcome α
  | value a w => .value a w.popScope
  | failure e w => .failure e w.popScope
  | outOfFuel => .outOfFuel

theorem Eval.withScope_apply (m : Eval α) (w : World) : m.withScope w = (m w.pushScope).popScope := by
  unfold withScope within
  cases m w.pushScope <;> rfl

namespace CorrespondsOpen

variable {m : Eval α} {w : World} {s : Scope} {ss : List Scope} {fs : List Frame}

theorem frames_of_value (hm : CorrespondsOpen (fun _ => True) m m) (hw : w.frames = (s :: ss) :: fs)
    {a : α} {u : World} (hu : m w = .value a u) : ∃ s', u.frames = (s' :: ss) :: fs := by
  have hi : InScope (fun _ => True) ss ss fs fs w.frames w.frames := ⟨s, s, hw, hw, fun _ _ => rfl⟩
  have hp : Parallel (InScope (fun _ => True) ss ss fs fs) (m w) (m w) := hm ss ss fs fs w w.frames hi
  rw [hu] at hp
  obtain ⟨_, s', _, hs, -⟩ := hp.left_value
  exact ⟨s', hs⟩

-- In a scope opened inside, each name means what it means outside, and both scopes are dropped.
theorem popScope_withScope (hm : CorrespondsOpen (fun _ => True) m m)
    (hw : w.frames = (s :: ss) :: fs) : (m.withScope w).popScope = (m w).popScope := by
  have hs : Sharing (fun _ => True) w.frames ((.empty :: s :: ss) :: fs) := by
    intro x _
    rw [hw]
    rfl
  have hi : InScope (fun _ => True) ss (s :: ss) fs fs w.frames ((.empty :: s :: ss) :: fs) :=
    ⟨s, .empty, hw, rfl, hs⟩
  have he : w.pushScope = { w with frames := (.empty :: s :: ss) :: fs } := by
    rw [World.pushScope_eq, hw]
    rfl
  have hp := hm ss (s :: ss) fs fs w ((.empty :: s :: ss) :: fs) hi
  rw [Eval.withScope_apply, he]
  generalize m w = r, m { w with frames := (.empty :: s :: ss) :: fs } = r' at hp ⊢
  cases hp with
  | value h =>
    obtain ⟨t, t', hv, rfl, -⟩ := h
    simp only [Outcome.popScope, World.popScope_of_frames hv]
    rfl
  | failure h _ =>
    obtain ⟨t, t', hv, rfl, -⟩ := h
    simp only [Outcome.popScope, World.popScope_of_frames hv]
    rfl
  | outOfFuel => rfl

end CorrespondsOpen

theorem Eval.withScope_bind_withScope {m : Eval α} {f : α → Eval β}
    (hm : CorrespondsOpen (fun _ => True) m m) (hf : ∀ a, CorrespondsOpen (fun _ => True) (f a) (f a)) :
    Eval.withScope (m >>= fun a => (f a).withScope) = Eval.withScope (m >>= f) := by
  funext w
  have hw : w.pushScope.frames = (.empty :: w.frames.head?.getD []) :: w.frames.tail := by
    rw [World.pushScope_eq]
  rw [withScope_apply, withScope_apply, bind_apply, bind_apply]
  cases hr : m w.pushScope with
  | value a u =>
    obtain ⟨s, hu⟩ := hm.frames_of_value hw hr
    exact (hf a).popScope_withScope hu
  | failure e u => rfl
  | outOfFuel => rfl

namespace Eventually

variable {m m' : Nat → Outcome α}

theorem coincide (hm : ∀ l l', l ≤ l' → m l = .outOfFuel ∨ m l = m l')
    (hm' : ∀ l l', l ≤ l' → m' l = .outOfFuel ∨ m' l = m' l')
    (h : ∀ r, Eventually m r ↔ Eventually m' r) : ∃ n, ∀ l, n ≤ l → m l = m' l := by
  by_cases hn : ∃ n, m n ≠ .outOfFuel
  · obtain ⟨n, hn⟩ := hn
    have hr : Eventually m (m n) := of_ne hm hn
    have hr' : Eventually m' (m n) := (h (m n)).mp hr
    obtain ⟨-, i, hi⟩ := hr
    obtain ⟨-, j, hj⟩ := hr'
    exact ⟨max i j, fun l hl => by rw [hi l (by omega), hj l (by omega)]⟩
  · push Not at hn
    refine ⟨0, fun l _ => ?_⟩
    by_contra hl
    have hl' : m' l ≠ .outOfFuel := fun he => hl ((hn l).trans he.symm)
    obtain ⟨hr, i, hi⟩ := (h (m' l)).mpr (of_ne hm' hl')
    exact hr ((hi i (Nat.le_refl i)).symm.trans (hn i))

theorem bind_coincide {m : Nat → Eval α} {f g : Nat → α → Eval β} {w : World}
    (hm : ∀ l l', l ≤ l' → Below (m l) (m l'))
    (h : ∀ a u, Eventually (fun l => m l w) (.value a u) → ∃ n, ∀ l, n ≤ l → f l a u = g l a u) :
    ∃ n, ∀ l, n ≤ l → (m l >>= f l) w = (m l >>= g l) w := by
  by_cases hv : ∃ n a u, m n w = .value a u
  · obtain ⟨n, a, u, hv⟩ := hv
    have hr : Eventually (fun l => m l w) (.value a u) := of_value (fun l l' hl => hm l l' hl w) hv
    obtain ⟨i, hi⟩ := h a u hr
    obtain ⟨-, j, hj⟩ := hr
    refine ⟨max i j, fun l hl => ?_⟩
    rw [Eval.bind_of_value (hj l (by omega)), Eval.bind_of_value (hj l (by omega)), hi l (by omega)]
  · refine ⟨0, fun l _ => ?_⟩
    rw [Eval.bind_apply, Eval.bind_apply]
    cases hl : m l w with
    | value a u => exact absurd ⟨l, a, u, hl⟩ hv
    | failure e u => rfl
    | outOfFuel => rfl

end Eventually

namespace Kernel

variable {k : Kernel}

-- The body is among the arguments while bindings are made, but no binding looks at it.
theorem bindInTurn_ofForms (forms bs : List Value) :
    k.bindInTurn (.ofForms forms) bs = k.bindInTurn (.ofForms []) bs := by
  fun_induction bindInTurn k (.ofForms forms) bs with
  | case1 pattern form rest ih =>
    rw [bindInTurn]
    simp only [ih]
    rfl
  | case2 bs hbs =>
    match bs, hbs with
    | [], _ | [_], _ => rfl
    | pattern :: form :: rest, hbs => exact absurd rfl (hbs pattern form rest)

theorem bindInTurn_append (a : Args) {bs : List Value} (hbs : bs.length % 2 = 0) (cs : List Value) :
    k.bindInTurn a (bs ++ cs) = k.bindInTurn a bs >>= fun _ => k.bindInTurn a cs := by
  fun_induction bindInTurn k a bs with
  | case1 pattern form rest ih =>
    have hrest : rest.length % 2 = 0 := by
      simp only [List.length_cons] at hbs
      omega
    simp only [List.cons_append, bindInTurn, ih hrest, bind_assoc]
  | case2 bs hodd =>
    match bs, hodd, hbs with
    | [], _, _ => rfl
    | [_], _, hbs => cases hbs
    | pattern :: form :: rest, hodd, _ => exact absurd rfl (hodd pattern form rest)

theorem correspondsOpen_bindInTurn (n : Nat) (forms bs : List Value) :
    CorrespondsOpen (fun _ => True) ((withFuel n).bindInTurn (.ofForms forms) bs)
      ((withFuel n).bindInTurn (.ofForms forms) bs) :=
  (lexical_follows n).open_bindInTurn (lexical_follows n) (.inr fun _ _ _ _ => trivial)

theorem correspondsOpen_evalRest (n : Nat) (forms : List Value) :
    CorrespondsOpen (fun _ => True) ((withFuel n).evalRest (.ofForms forms))
      ((withFuel n).evalRest (.ofForms forms)) :=
  ((lexical_follows n).rel_evalRest (.inr fun _ _ _ _ => trivial)).inScope

variable {m n : Nat}

theorem below_bindInTurn (h : m ≤ n) (forms bs : List Value) :
    Below ((withFuel m).bindInTurn (.ofForms forms) bs) ((withFuel n).bindInTurn (.ofForms forms) bs) :=
  (earlier_follows_of_le h).open_bindInTurn (earlier_follows_of_le h) (.inr fun _ _ _ _ => trivial)

theorem below_evalRest (h : m ≤ n) (forms : List Value) :
    Below ((withFuel m).evalRest (.ofForms forms)) ((withFuel n).evalRest (.ofForms forms)) :=
  (earlier_follows_of_le h).rel_evalRest (.inr fun _ _ _ _ => trivial)

theorem below_call (h : m ≤ n) (f : Callable Value) (forms : List Value) :
    Below ((withFuel m).call f (.ofForms forms)) ((withFuel n).call f (.ofForms forms)) :=
  (earlier_follows_of_le h).rel_call (earlier_follows_of_le h) (.inr fun _ _ _ _ => trivial)
    (fun _ _ => trivial) (fun _ _ => trivial) fun _ => earlier_tables

theorem call_binding_append {bs cs : List Value} (hbs : bs.length % 2 = 0) (hcs : cs.length % 2 = 0)
    (body : List Value) :
    (withFuel n).call (.special .binding) (.ofForms (.vector (bs ++ cs) :: body)) =
      Eval.withScope ((withFuel n).bindInTurn (.ofForms []) bs >>= fun _ =>
        (withFuel n).call (.special .binding) (.ofForms (.vector cs :: body))) := by
  have happend : (bs ++ cs).length % 2 = 0 := by
    rw [List.length_append]
    omega
  have hrest : ∀ _ : Unit, CorrespondsOpen (fun _ => True)
      ((withFuel n).bindInTurn (.ofForms body) cs >>= fun _ => (withFuel n).evalRest (.ofForms body))
      ((withFuel n).bindInTurn (.ofForms body) cs >>= fun _ => (withFuel n).evalRest (.ofForms body)) :=
    fun _ => lexical.open_bind (correspondsOpen_bindInTurn n body cs) fun _ => correspondsOpen_evalRest n body
  rw [call_binding happend, call_binding hcs,
    Eval.withScope_bind_withScope (correspondsOpen_bindInTurn n [] bs) hrest, bindInTurn_append _ hbs, bind_assoc,
    bindInTurn_ofForms body bs]

end Kernel

/-- The bindings of a `let` can be made one after the other, which leaves the world `u`. -/
def Binds (w : World) (bs : List Value) (u : World) : Prop :=
  Eventually (fun l => (Kernel.withFuel l).bindInTurn (.ofForms []) bs w) (.value () u)

theorem evals_let_append {w : World} {bs cs : List Value} (hbs : bs.length % 2 = 0) (hcs : cs.length % 2 = 0)
    (hlet : w.Means "let" (.special .binding))
    (hstill : ∀ u, Binds w.pushScope bs u → u.Means "let" (.special .binding)) (body : List Value)
    (r : Outcome Value) :
    Evals w (callForm "let" (.vector (bs ++ cs) :: body)) r ↔
      Evals w (callForm "let" [.vector bs, callForm "let" (.vector cs :: body)]) r := by
  have hinner (u : World) (hu : u.Means "let" (.special .binding)) :
      ∃ n, ∀ l, n ≤ l → (Kernel.withFuel l).call (.special .binding) (.ofForms (.vector cs :: body)) u =
        (Kernel.withFuel l).evalRest (.ofForms [callForm "let" (.vector cs :: body)]) u := by
    refine Eventually.coincide (fun l l' hl => Kernel.below_call hl _ _ u)
      (fun l l' hl => Kernel.below_evalRest hl _ u) fun r => ?_
    simp only [Kernel.evalRest_ofForms_singleton]
    exact (Evals.call_iff hu).symm
  obtain ⟨n, hn⟩ := Eventually.bind_coincide (w := w.pushScope)
    (fun l l' hl => Kernel.below_bindInTurn hl [] bs) fun _ u hu => hinner u (hstill u hu)
  refine (Evals.call_iff hlet).trans (Iff.trans ?_ (Evals.call_iff hlet).symm)
  refine Eventually.congr_iff (n := n) fun l hl => ?_
  rw [Kernel.call_binding_append hbs hcs, Kernel.call_binding hbs, Eval.withScope_apply, Eval.withScope_apply,
    hn l hl, Kernel.bindInTurn_ofForms [callForm "let" (.vector cs :: body)] bs]

def bindingWorld : World :=
  { World.empty with
    namespaces := (Namespaces.empty.define "let" (.callable 0 (.special .binding))).define "fn"
      (.callable 1 (.special .function))
    nextIdentity := 2 }

def capturing : List Value :=
  [.symbol "x", .int 1, .symbol "f", callForm "fn" [.vector [], .symbol "x"]]

theorem evals_let_append_rebinding :
    ∃ u, Evals bindingWorld (callForm "let" [.vector (capturing ++ [.symbol "x", .int 2]),
        .vector [callForm "f" [], .symbol "x"]]) (.value (.vector [.int 1, .int 2]) u) ∧
      Evals bindingWorld (callForm "let" [.vector capturing, callForm "let" [.vector [.symbol "x", .int 2],
        .vector [callForm "f" [], .symbol "x"]]]) (.value (.vector [.int 1, .int 2]) u) := by
  have hlet : bindingWorld.Means "let" (.special .binding) := ⟨0, rfl⟩
  obtain ⟨v, hv⟩ : ∃ v, Binds bindingWorld.pushScope capturing v ∧ v.Means "let" (.special .binding) := by
    refine ⟨_, Eventually.of_value (n := 3) (fun l l' hl => Kernel.below_bindInTurn hl _ _ _) rfl, 0, rfl⟩
  have hstill (u : World) (hu : Binds bindingWorld.pushScope capturing u) :
      u.Means "let" (.special .binding) := by
    cases hu.unique hv.1
    exact hv.2
  obtain ⟨u, hu⟩ : ∃ u, Evals bindingWorld (callForm "let" [.vector (capturing ++ [.symbol "x", .int 2]),
      .vector [callForm "f" [], .symbol "x"]]) (.value (.vector [.int 1, .int 2]) u) :=
    ⟨_, Eventually.of_value (n := 9) (fun l l' hl => (Kernel.earlier_follows_of_le hl).eval _ (fun _ _ => trivial) _)
      rfl⟩
  exact ⟨u, hu, (evals_let_append rfl rfl hlet hstill _ _).mp hu⟩

end LazyLisp
