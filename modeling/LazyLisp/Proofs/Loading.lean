import LazyLisp.Proofs.Capture
import LazyLisp.Proofs.Evolution
import LazyLisp.Proofs.Source.RoundTrip

namespace LazyLisp

variable {α β : Type}

namespace World

/-- A frame that no program makes, since the empty name cannot be written. -/
def callerMark : Frame := [Bindings.empty.insert "" .nil]

def asCaller (w : World) : World := { w with frames := [[w.visible], callerMark] }

def overCaller? : List Frame → Option (List Scope)
  | [frame, below] => if (localIn? below "").isSome then some frame.dropLast else none
  | _ => none

def asksCaller (w : World) (name : String) : Bool :=
  match overCaller? w.frames with
  | some ss => (localIn? ss name).isNone
  | none => false

end World

/-- Halts before a name is looked up in the bindings of the caller, or kept from there in a closure, that may
have another value for other callers. -/
def Watch.caller (differ : String → Bool) : Watch where
  lookup := fun name w => differ name && w.asksCaller name
  call := fun f a w => (Value.itemSymbols (f.closesOver a)).any fun name => differ name && w.asksCaller name

theorem localIn?_append (ss f : Frame) (name : String) :
    World.localIn? (ss ++ f) name = (World.localIn? ss name).or (World.localIn? f name) := by
  induction ss with
  | nil => rfl
  | cons s ss ih => rw [List.cons_append, World.localIn?, World.localIn?, ih, Option.or_assoc]

structure Level (fs gs : List Frame) : Prop where
  nil : fs = [] ↔ gs = []
  single : ∀ f, fs = [f] ↔ gs = [f]

theorem Level.refl (fs : List Frame) : Level fs fs := ⟨.rfl, fun _ => .rfl⟩

/-- Stacks with the same frame on top, or those of two callers below the same scopes. -/
inductive Beside (s s' : Scope) : List Frame → List Frame → Prop
  | inside {f : Frame} {fs gs : List Frame} : Level fs gs → Beside s s' (f :: fs) (f :: gs)
  | caller (ss : List Scope) :
      Beside s s' [ss ++ [s], World.callerMark] [ss ++ [s'], World.callerMark]

def BesideUnder (s s' : Scope) (f : Frame) (fs : List Frame) (g : Frame) (gs : List Frame) : Prop :=
  ∀ t, Beside s s' ((t :: f) :: fs) ((t :: g) :: gs)

namespace Beside

variable {s s' : Scope} {fs gs : List Frame}

theorem ne_nil (h : Beside s s' fs gs) : fs ≠ [] ∧ gs ≠ [] := by
  cases h <;> exact ⟨nofun, nofun⟩

theorem level (h : Beside s s' fs gs) : Level fs gs := by
  cases h with
  | inside h => exact ⟨by simp, fun f => by simp [h.nil]⟩
  | caller ss => exact ⟨by simp, fun f => by simp⟩

theorem scope (h : Beside s s' fs gs) :
    ∃ f fs' g gs', fs = f :: fs' ∧ gs = g :: gs' ∧ BesideUnder s s' f fs' g gs' := by
  cases h with
  | inside h => exact ⟨_, _, _, _, rfl, rfl, fun t => .inside h⟩
  | caller ss => exact ⟨_, _, _, _, rfl, rfl, fun t => .caller (t :: ss)⟩

theorem frame (h : Beside s s' fs gs) : BesideUnder s s' [] fs [] gs := fun _ => .inside h.level

theorem overCaller?_caller (ss : List Scope) (s : Scope) :
    World.overCaller? [ss ++ [s], World.callerMark] = some ss := by
  simp [World.overCaller?, World.callerMark, World.localIn?]

theorem overCaller?_eq (h : Beside s s' fs gs) : World.overCaller? fs = World.overCaller? gs := by
  cases h with
  | caller ss => rw [overCaller?_caller, overCaller?_caller]
  | @inside f fs gs h =>
    match fs, gs, h with
    | [], gs, h => rw [h.nil.mp rfl]
    | [g], gs, h => rw [(h.single g).mp rfl]
    | _ :: _ :: _, [], h => exact absurd (h.nil.mpr rfl) (List.cons_ne_nil _ _)
    | _ :: _ :: _, [g], h => exact absurd ((h.single g).mpr rfl) (by simp)
    | _ :: _ :: _, _ :: _ :: _, _ => rfl

theorem asksCaller_eq {w : World} (h : Beside s s' w.frames gs) (name : String) :
    World.asksCaller { w with frames := gs } name = w.asksCaller name := by
  simp only [World.asksCaller, h.overCaller?_eq]

theorem local?_eq {w : World} (h : Beside s s' w.frames gs) {name : String}
    (hn : w.asksCaller name = true → s.get? name = s'.get? name) :
    World.localIn? (w.frames.head?.getD []) name = World.localIn? (gs.head?.getD []) name := by
  unfold World.asksCaller at hn
  generalize w.frames = fs at h hn
  cases h with
  | inside => rfl
  | caller ss =>
    simp only [List.head?_cons, Option.getD_some, localIn?_append]
    cases hl : World.localIn? ss name with
    | some v => rfl
    | none =>
      have hs : s.get? name = s'.get? name := hn (by simp only [overCaller?_caller, hl, Option.isNone_none])
      simp only [World.localIn?, hs]

end Beside

def Restored (fs gs fs' gs' : List Frame) : Prop := fs' = fs ∧ gs' = gs

def Besides (s s' : Scope) (m m' : Eval α) : Prop :=
  ∀ fs gs, Beside s s' fs gs → Keeps (Restored fs gs) m m'

def BesidesOpen (s s' : Scope) (m m' : Eval α) : Prop :=
  ∀ f fs g gs, BesideUnder s s' f fs g gs →
    Keeps (fun fs' gs' => ∃ t, fs' = (t :: f) :: fs ∧ gs' = (t :: g) :: gs) m m'

namespace Besides

variable {s s' : Scope} {m m' : Eval α}

theorem of_corresponds {names : String → Prop} (hm : Corresponds names m m') {w : World} {gs : List Frame}
    (h : Beside s s' w.frames gs) (hs : Sharing names w.frames gs) :
    Parallel (Restored w.frames gs) (m w) (m' { w with frames := gs }) := by
  refine (hm w.frames gs hs w gs ⟨.inl rfl, .inl rfl⟩).mono fun fs' gs' hk => ?_
  exact ⟨hk.1.eq_of_ne_nil h.ne_nil.1, hk.2.eq_of_ne_nil h.ne_nil.2⟩

theorem withScope (hm : BesidesOpen s s' m m') : Besides s s' m.withScope m'.withScope := by
  rintro _ _ hb w gs ⟨rfl, rfl⟩
  obtain ⟨f, fs, g, gs, hw, rfl, hunder⟩ := hb.scope
  refine Keeps.parallel_withScope (hm f fs g gs hunder) ⟨.empty, by rw [hw]; rfl, rfl⟩ ?_
  rintro _ _ ⟨t, rfl, rfl⟩
  exact ⟨_, _, _, _, _, _, rfl, rfl, hw.symm, rfl⟩

theorem withFrame (hm : BesidesOpen s s' m m') (scope : Scope) :
    Besides s s' (m.withFrame scope) (m'.withFrame scope) := by
  rintro _ _ hb w gs ⟨rfl, rfl⟩
  refine Keeps.parallel_withFrame (hm [] w.frames [] gs hb.frame) ⟨scope, rfl, rfl⟩ ?_
  rintro _ _ ⟨t, rfl, rfl⟩
  exact ⟨rfl, rfl⟩

theorem opened (hm : Besides s s' m m') : BesidesOpen s s' m m' := by
  rintro f fs g gs hunder w _ ⟨t, hw, rfl⟩
  refine (hm _ _ (hunder t) w _ ⟨hw, rfl⟩).mono ?_
  rintro _ _ ⟨rfl, rfl⟩
  exact ⟨t, rfl, rfl⟩

theorem realize {k k' : Kernel} (hk : ∀ f, Besides s s' (k.apply f []) (k'.apply f [])) (cell : Nat) :
    Besides s s' (k.realize cell) (k'.realize cell) := fun _ _ _ =>
  .realize (fun f => hk f [[]] [[]] (.inside (.refl []))) ⟨rfl, rfl⟩ cell

end Besides

theorem BesidesOpen.bindName {s s' : Scope} (name : String) (v : Value) :
    BesidesOpen s s' (Eval.bindName name v) (Eval.bindName name v) := by
  rintro f fs g gs _ w _ ⟨t, hw, rfl⟩
  unfold Eval.bindName
  rw [World.bind?_of_frames hw, World.bind?_of_frames rfl]
  exact .value ⟨_, rfl, rfl⟩

def besides (s s' : Scope) : Simulation where
  Place := Unit
  Sees := fun _ _ => True
  Agrees := fun _ _ => False
  inner := ()
  sees_inner := fun _ => trivial
  Lax := False
  Rel := fun _ => Besides s s'
  Open := fun _ => BesidesOpen s s'
  rel_pure := fun a _ _ _ => .pure a
  rel_bind := fun hm hf fs gs hb => (hm fs gs hb).bind fun a => hf a fs gs hb
  rel_fail := fun he _ _ _ => .fail he
  rel_outOfFuel := fun _ _ _ => .outOfFuel
  rel_stuck := fun h => h.elim
  rel_attempt := fun hm fs gs hb => (hm fs gs hb).attempt
  rel_orFalse := fun hm fs gs hb => (hm fs gs hb).orFalse
  rel_look := fun hg _ _ _ _ _ => .read fun w fs _ => hg w fs nofun
  rel_change := fun {_ c} _ _ _ _ => .change c
  rel_newCallable := fun f _ _ _ => .newCallable f
  rel_newCell := fun f _ _ _ => .newCell f
  rel_keepingNamespace := fun hm fs gs hb => (hm fs gs hb).keepingNamespace
  rel_force := fun v hn _ hk => Kernel.force_related (fun v _ _ _ => .pure v)
    (fun hm hf fs gs hb => (hm fs gs hb).bind fun a => hf a fs gs hb) (fun _ _ _ => .outOfFuel)
    (fun h => h.elim) (fun cell => .realize hk cell) hn v
  rel_withScope := fun hm => .withScope hm
  rel_withFrame := fun scope hm => .withFrame hm scope
  open_rel := fun hm => hm.opened
  open_bind := fun hm hf f fs g gs hu => (hm f fs g gs hu).bind fun a => hf a f fs g gs hu
  open_bindName := fun name v => .bindName name v

theorem besides_tables (s s' : Scope) : (besides s s').Tables where
  look := fun hg _ _ _ _ => .read fun w fs _ => hg w fs nofun
  change := fun c _ _ _ => .change c

theorem corresponds_of_closesOver {f : Callable Value} {a : Args} (hf : f.closesOver a ≠ []) (k k' : Kernel) :
    Corresponds (· ∈ Value.itemSymbols (f.closesOver a)) (k.call f a) (k'.call f a) := by
  cases f with
  | special s =>
    cases s with
    | function => exact Simulation.rel_function (D := lexical) fun _ hx => hx
    | functionDefinition =>
      exact Simulation.rel_functionDefinition (D := lexical) (fun _ hx => hx) (lexical_global.toTables.defines a)
    | delay => exact Simulation.rel_delay (D := lexical) fun _ hx => hx
    | _ => exact absurd rfl hf
  | _ => exact absurd rfl hf

namespace Besides

variable {s s' : Scope} {differ : String → Bool}

theorem haltIf {m m' : Eval α} {stop : World → Bool}
    (hs : ∀ (w : World) (gs : List Frame), Beside s s' w.frames gs → stop { w with frames := gs } = stop w)
    (hm : ∀ (w : World) (gs : List Frame), Beside s s' w.frames gs → stop w = false →
      Parallel (Restored w.frames gs) (m w) (m' { w with frames := gs })) :
    Besides s s' (m.haltIf stop) (m'.haltIf stop) := by
  rintro _ _ hb w gs ⟨rfl, rfl⟩
  unfold Eval.haltIf
  rw [hs w gs hb]
  cases hw : stop w with
  | true => exact .outOfFuel
  | false => exact hm w gs hb hw

variable (hd : ∀ x, differ x = false → s.get? x = s'.get? x)
include hd

theorem sharing {w : World} {gs : List Frame} (hb : Beside s s' w.frames gs) {names : String → Prop}
    (hn : ∀ x, names x → (differ x && w.asksCaller x) = false) : Sharing names w.frames gs := by
  intro x hx
  refine hb.local?_eq fun ha => hd x ?_
  simpa [ha] using hn x hx

theorem lookup (name : String) :
    Besides s s' ((Eval.read (·.resolve name) >>= Eval.ofExcept).haltIf ((Watch.caller differ).lookup name))
      ((Eval.read (·.resolve name) >>= Eval.ofExcept).haltIf ((Watch.caller differ).lookup name)) := by
  refine haltIf (fun w gs hb => ?_) fun w gs hb hw => ?_
  · simp only [Watch.caller, hb.asksCaller_eq]
  · have hr : Corresponds (· = name) (Eval.read (·.resolve name) >>= Eval.ofExcept)
        (Eval.read (·.resolve name) >>= Eval.ofExcept) := .resolve rfl
    refine of_corresponds hr hb (sharing hd hb ?_)
    rintro _ rfl
    exact hw

theorem call {n : Nat} (h : (besides s s').Follows () (Kernel.watched (.caller differ) n)
      (Kernel.watched (.caller differ) n)) (f : Callable Value) (a : Args) :
    Besides s s' (((Kernel.watched (.caller differ) n).call f a).haltIf ((Watch.caller differ).call f a))
      (((Kernel.watched (.caller differ) n).call f a).haltIf ((Watch.caller differ).call f a)) := by
  refine haltIf (fun w gs hb => ?_) fun w gs hb hw => ?_
  · simp only [Watch.caller, hb.asksCaller_eq]
  by_cases hf : f.closesOver a = []
  · have hnone : (besides s s').KeepsAlike () (f.closesOver a) := by
      rw [hf]
      exact nofun
    exact h.rel_call h (.inr fun _ _ _ _ => trivial) (fun _ _ => trivial) hnone (fun _ => besides_tables s s')
      w.frames gs hb w gs ⟨rfl, rfl⟩
  · refine of_corresponds (corresponds_of_closesOver hf _ _) hb (sharing hd hb fun x hx => ?_)
    simpa using List.any_eq_false.mp hw x hx

end Besides

theorem Namespaces.current_setCurrent (n : Namespaces) (space : Option String) :
    (n.setCurrent space).current = space := by
  cases space <;> rfl

namespace Kernel

theorem besides_follows {s s' : Scope} {differ : String → Bool}
    (hd : ∀ x, differ x = false → s.get? x = s'.get? x) (n : Nat) :
    (besides s s').Follows () (watched (.caller differ) n) (watched (.caller differ) n) := by
  refine Simulation.follows_watched (fun _ => True) trivial ?_ ?_ (fun _ => trivial) (.inl rfl) trivial
  · intro _ name _ _
    exact .lookup hd name
  · intro _ m n f a _ hn h _ _
    obtain rfl : m = n := hn.resolve_right fun hl => hl.1
    exact .call hd h f a

theorem earlier_follows_caller (differ : String → Bool) (n : Nat) :
    earlier.Follows () (watched (.caller differ) n) (withFuel n) := by
  rw [withFuel_eq_watched]
  refine earlier_follows_watched ?_ ?_ (Nat.le_refl n)
  · intro name w hl
    cases hl
  · intro f a w hc
    cases hc

theorem loadFile_of_read (k : Kernel) {path text : String} {w : World} (h : w.files.read path = .ok text) :
    k.loadFile path w = (k.runText text path).keepingNamespace w := by
  simp only [loadFile, Eval.bind_apply, Eval.read, h]

theorem loadFile_of_listing (k : Kernel) {path : String} {fs : List Form} {w : World}
    (hf : ∀ f ∈ fs, f.Readable) (h : w.files.read path = .ok (Form.listing fs)) :
    k.loadFile path w = (k.runForms .nil fs).keepingNamespace w := by
  rw [loadFile_of_read k h, runText, Source.read_listing hf path]
  exact congrFun (congrArg Eval.keepingNamespace (bind_pure _)) w

theorem current_of_loadFile {k : Kernel} {path : String} {w u : World}
    (h : (k.loadFile path w).world? = some u) : u.namespaces.current = w.namespaces.current := by
  cases hr : w.files.read path with
  | ok text =>
    rw [loadFile_of_read k hr, Eval.keepingNamespace, Eval.within] at h
    cases hm : k.runText text path (id w) <;> rw [hm] at h <;> cases h <;>
      exact Namespaces.current_setCurrent _ _
  | error e =>
    simp only [loadFile, Eval.bind_apply, Eval.read, hr, Eval.modify, Eval.fail] at h
    cases h
    unfold World.want
    split <;> rfl

theorem loadFile_asCaller (n : Nat) (path : String) (w : World) :
    ((withFuel n).loadFile path w).forgetFrames = ((withFuel n).loadFile path w.asCaller).forgetFrames := by
  refine ((lexical_follows n).rel_loadFile (fun _ => trivial) path).forgetFrames_eq fun x _ => ?_
  have hx : World.local? w x = w.visible.get? x := (w.get?_visible x).symm
  change w.local? x = World.localIn? [w.visible] x
  rw [hx, World.localIn?, World.localIn?, Option.or_none]

theorem below_loadFile (differ : String → Bool) (n : Nat) (path : String) :
    Below ((watched (.caller differ) n).loadFile path) ((withFuel n).loadFile path) :=
  (earlier_follows_caller differ n).rel_loadFile (fun _ => trivial) path

def libraryWorld (fs : List Form) : World :=
  { letWorld with files := .note .empty "lib" (.content (Form.listing fs).toUTF8) }

theorem loadFile_library (k : Kernel) {fs : List Form} (hf : ∀ f ∈ fs, f.Readable) (frames : List Frame) :
    k.loadFile "lib" { libraryWorld fs with frames := frames } =
      (k.runForms .nil fs).keepingNamespace { libraryWorld fs with frames := frames } :=
  k.loadFile_of_listing hf (FileTable.read_note .empty (by decide) _)

def ownX : Form :=
  .list [.symbol "let", .vector [.symbol "x", .atom (.int 1)], .symbol "x"]

theorem readable_x : (Form.symbol "x").Readable := .atom (.inr ⟨Text.isToken_of_all rfl rfl, by decide⟩)

theorem readable_ownX : ownX.Readable := by
  have hl : (Form.symbol "let").Readable := .atom (.inr ⟨Text.isToken_of_all rfl rfl, by decide⟩)
  have hi : (Form.atom (.int 1)).Readable := .atom trivial
  refine .list ?_
  simp only [List.forall_mem_cons, List.not_mem_nil, false_implies, implies_true, and_true]
  refine ⟨hl, .vector ?_, readable_x⟩
  simp only [List.forall_mem_cons, List.not_mem_nil, false_implies, implies_true, and_true]
  exact ⟨readable_x, hi⟩

end Kernel

end LazyLisp
