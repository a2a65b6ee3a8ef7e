import LazyLisp.Proofs.Frames

namespace LazyLisp

variable {α : Type}

def Outcome.forgetFrames : Outcome α → Outcome α
  | value a w => .value a { w with frames := [] }
  | failure e w => .failure e { w with frames := [] }
  | outOfFuel => .outOfFuel

namespace Parallel

variable {P : List Frame → List Frame → Prop} {r r' : Outcome α}

theorem forgetFrames_eq (h : Parallel P r r') : r.forgetFrames = r'.forgetFrames := by
  cases h <;> rfl

theorem left_value {a : α} {w : World} (h : Parallel P (.value a w) r') : ∃ fs, P w.frames fs := by
  cases h with
  | value h => exact ⟨_, h⟩

theorem left_failure {e : Failure} {w : World} (h : Parallel P (.failure e w) r') :
    (∃ fs, P w.frames fs) ∧ e.isNoScope = false := by
  cases h with
  | failure h he => exact ⟨⟨_, h⟩, he⟩

end Parallel

namespace Kernel

theorem lexical_follows (n : Nat) : lexical.Follows (fun _ => True) (withFuel n) (withFuel n) := by
  rw [withFuel_eq_barring]
  exact Simulation.follows_barring lexical_global (fun _ hx => hx) (fun _ _ => .inl rfl)
    (fun _ => trivial) (.inl rfl) fun _ _ _ => .inr fun _ => trivial

theorem corresponds_eval (n : Nat) (v : Value) :
    Corresponds (fun _ => True) ((withFuel n).eval v) ((withFuel n).eval v) :=
  (lexical_follows n).eval v fun _ _ => trivial

theorem corresponds_apply (n : Nat) (f : Callable Value) (vs : List Value) :
    Corresponds (fun _ => True) ((withFuel n).apply f vs) ((withFuel n).apply f vs) :=
  (lexical_follows n).rel_apply f vs

theorem corresponds_closure (n : Nat) (c : Closure Value) (vs : List Value) :
    Corresponds (fun _ => False) ((withFuel n).apply (.closure c) vs)
      ((withFuel n).apply (.closure c) vs) := by
  cases n with
  | zero => exact fun _ _ _ => .outOfFuel
  | succ n =>
    have hv : Corresponds (fun _ => False) ((withFuel n).values (.ofValues vs))
        ((withFuel n).values (.ofValues vs)) := by
      rw [values_ofValues]
      exact fun _ _ _ => .pure vs
    exact (lexical_follows n).rel_callOver c c.captured hv

end Kernel

theorem Corresponds.forgetFrames_eq {names : String → Prop} {m m' : Eval α}
    (hm : Corresponds names m m') {w : World} {fs : List Frame} (hs : Sharing names w.frames fs) :
    (m w).forgetFrames = (m' { w with frames := fs }).forgetFrames :=
  (hm w.frames fs hs w fs ⟨.inl rfl, .inl rfl⟩).forgetFrames_eq

namespace Kernel

/-- Evaluation leaves the frames as they were, and never lacks a scope to bind a name in. -/
theorem eval_restores_frames (n : Nat) (v : Value) (w : World) (hw : w.frames ≠ []) :
    (∀ r w', (withFuel n).eval v w = .value r w' → w'.frames = w.frames) ∧
      ∀ e w', (withFuel n).eval v w = .failure e w' →
        w'.frames = w.frames ∧ ∀ name, e ≠ .noScope name := by
  have hp : Parallel (Alongside w.frames w.frames) ((withFuel n).eval v w) ((withFuel n).eval v w) :=
    corresponds_eval n v w.frames w.frames (fun _ _ => rfl) w w.frames ⟨.inl rfl, .inl rfl⟩
  constructor
  · intro r w' hr
    rw [hr] at hp
    obtain ⟨fs, hk, _⟩ := hp.left_value
    exact hk.eq_of_ne_nil hw
  · intro e w' he
    rw [he] at hp
    obtain ⟨⟨fs, hk, _⟩, hn⟩ := hp.left_failure
    refine ⟨hk.eq_of_ne_nil hw, ?_⟩
    rintro name rfl
    cases hn

def letWorld : World :=
  { World.empty with
    namespaces := Namespaces.empty.define "let" (.callable 0 (.special .binding))
    frames := [[Bindings.empty.insert "x" (.int 7)], []] }

def shadowing (result : Value) : Value :=
  .list [.symbol "let", .vector [.symbol "x", .int 1, .symbol "y", .symbol "x"], result]

theorem eval_restores_frames_shadowing :
    letWorld.frames ≠ [] ∧
      (∃ w, (withFuel 3).eval (shadowing (.symbol "y")) letWorld = .value (.int 1) w ∧
        w.frames = letWorld.frames) ∧
      ∃ e w, (withFuel 3).eval (shadowing (.symbol "z")) letWorld = .failure e w ∧
        w.frames = letWorld.frames ∧ ∀ name, e ≠ .noScope name := by
  have hw : letWorld.frames ≠ [] := nofun
  have hv : (withFuel 3).eval (shadowing (.symbol "y")) letWorld = .value (.int 1) letWorld := rfl
  have he : (withFuel 3).eval (shadowing (.symbol "z")) letWorld =
      .failure (.unknownSymbol "z") letWorld := rfl
  exact ⟨hw, ⟨_, hv, (eval_restores_frames 3 _ letWorld hw).1 _ _ hv⟩,
    ⟨_, _, he, (eval_restores_frames 3 _ letWorld hw).2 _ _ he⟩⟩

/-- Of the frames, evaluation and calls see only the local value of each name, and the call of a closure
sees nothing. -/
theorem eval_eq_of_local_eq (n : Nat) (w : World) (fs : List Frame) :
    ((∀ name, w.local? name = World.local? { w with frames := fs } name) →
      (∀ v, ((withFuel n).eval v w).forgetFrames =
        ((withFuel n).eval v { w with frames := fs }).forgetFrames) ∧
      ∀ f vs, ((withFuel n).apply f vs w).forgetFrames =
        ((withFuel n).apply f vs { w with frames := fs }).forgetFrames) ∧
    ∀ c vs, ((withFuel n).apply (.closure c) vs w).forgetFrames =
      ((withFuel n).apply (.closure c) vs { w with frames := fs }).forgetFrames := by
  refine ⟨fun hl => ⟨fun v => ?_, fun f vs => ?_⟩, fun c vs => ?_⟩
  · exact (corresponds_eval n v).forgetFrames_eq fun x _ => hl x
  · exact (corresponds_apply n f vs).forgetFrames_eq fun x _ => hl x
  · exact (corresponds_closure n c vs).forgetFrames_eq fun _ hx => hx.elim

theorem eval_eq_of_local_eq_split :
    ∃ fs, fs ≠ letWorld.frames ∧
      (∀ name, letWorld.local? name = World.local? { letWorld with frames := fs } name) ∧
      ((withFuel 3).eval (shadowing (.symbol "x")) letWorld).forgetFrames =
        ((withFuel 3).eval (shadowing (.symbol "x")) { letWorld with frames := fs }).forgetFrames := by
  have hl (name : String) : letWorld.local? name = World.local?
      { letWorld with frames := [[.empty, Bindings.empty.insert "x" (.int 7)]] } name := rfl
  refine ⟨[[.empty, Bindings.empty.insert "x" (.int 7)]], ?_, hl, ?_⟩
  · simp [letWorld]
  · exact ((eval_eq_of_local_eq 3 letWorld _).1 hl).1 _

end Kernel

end LazyLisp
